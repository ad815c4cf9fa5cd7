import VersionedTree.Archive.Creation

/-!
# Directories on demand

An owner gets a root with the first entry, and a directory can be made together with the missing
ones above it.

## Main definitions

* `VersionedTree.Archive.ensureRoot` — the owner's root, made if it is missing.
* `VersionedTree.Archive.makeDirectory` — a directory, alone or with the missing ones above it.
-/

set_option autoImplicit false

namespace VersionedTree

/-- The failure of an operation at one of several places. -/
structure FailureAt where
  place : Path
  cause : ArchiveError
deriving DecidableEq, Repr

/-- The places that lead to a path, the path included and the root left out, top first. The root
itself is the only place that leads to it. -/
def Path.steps (p : Path) : List Path := (p.ancestors.filter (!·.isRoot)).reverse ++ [p]

namespace Archive

/-- Makes the owner's root if it is missing. -/
def ensureRoot (env : Env) (owner : OwnerId) (a : Archive) : Except ArchiveError Unit × Archive :=
  match a.resolve owner .root with
  | .ok _ => (.ok (), a)
  | .error (.notFound _) =>
    match a.createRoot env owner with
    | (.ok _, a') => (.ok (), a')
    | (.error e, a') => (.error e, a')
  | .error e => (.error e, a)

/-- Makes directories in turn, the `k`-th surroundings first, and passes over the places that
have a node. The answer lists the new ones. -/
def createMissing (env : Nat → Env) (owner : OwnerId) :
    Nat → List Path → Archive → Except FailureAt (List Node) × Archive
  | _, [], a => (.ok [], a)
  | k, path :: rest, a =>
    match a.resolve owner path with
    | .ok _ => createMissing env owner k rest a
    | .error (.notFound _) =>
      match a.createDirectory (env k) owner path with
      | (.error e, a') => (.error ⟨path, e⟩, a')
      | (.ok node, a') =>
        match createMissing env owner (k + 1) rest a' with
        | (.error e, a'') => (.error e, a'')
        | (.ok nodes, a'') => (.ok (node :: nodes), a'')
    | .error e => (.error ⟨path, e⟩, a)

/-- Makes a directory. With `parents` the missing directories above it are made as well, and
nothing is made if it is there. -/
def makeDirectory (env : Nat → Env) (owner : OwnerId) (path : Path) (parents : Bool)
    (a : Archive) : Except FailureAt (List Node) × Archive :=
  match a.ensureRoot (env 0) owner with
  | (.error e, a') => (.error ⟨.root, e⟩, a')
  | (.ok (), a') =>
    if parents then createMissing env owner 1 path.steps a'
    else
      match a'.createDirectory (env 1) owner path with
      | (.error e, a'') => (.error ⟨path, e⟩, a'')
      | (.ok node, a'') => (.ok [node], a'')

end Archive

end VersionedTree
