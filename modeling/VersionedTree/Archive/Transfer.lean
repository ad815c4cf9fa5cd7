import VersionedTree.Archive.Creation

/-!
# Moves and copies

A file moves alone, a directory with all that is below it. A copy shares the blobs of its
source: all of them, or the newest one of each file.

## Main definitions

* `VersionedTree.Archive.move` — change of place.
* `VersionedTree.Archive.copy` — a copy by reference.
-/

set_option autoImplicit false

namespace VersionedTree.Archive

/-- Some node must have moved. -/
def requireMoved : Except ArchiveError (Option Nat) × Tables → Except ArchiveError Nat × Tables
  | (.ok (some n), t) =>
    if 0 < n then (.ok n, t) else (.error (.updateFailure "tree"), t)
  | (.ok none, t) => (.error (.updateFailure "tree"), t)
  | (.error e, t) => (.error e, t)

/-- The statement that moves a node of the claimed kind. -/
def moveStatement (owner : OwnerId) (node : Node) (target : Path) (t : Tables) :
    Except ArchiveError Nat × Tables :=
  match node.kind with
  | .file =>
    let (moved, t') := t.moveFile owner node target
    requireMoved (.ok moved, t')
  | .dir => requireMoved (t.moveDirectory owner node target)
  | .root => (.error (.ofKind "FILE or DIR" node.kind), t)

/-- Moves a file, or a directory with all that is below it. The answer counts the moved nodes. -/
def move (owner : OwnerId) (node : Node) (target : Path) (a : Archive) :
    Except ArchiveError Nat × Archive :=
  a.withTables (a.tables.transact (moveStatement owner node target))

/-- The statement that copies the nodes at and below a node of the claimed kind. -/
def copyNodes (env : Env) (owner : OwnerId) (node : Node) (target : Path) (t : Tables) :
    Except ArchiveError (List CopiedNode) × Tables :=
  match node.kind with
  | .file =>
    match t.copyFile (env.nodeId 0) (env.now 0) owner node target with
    | (.ok copy, t') => (.ok copy.toList, t')
    | (.error e, t') => (.error e, t')
  | .dir => t.copyDirectory env.nodeId (env.now 0) owner node target
  | .root => (.error (.ofKind "FILE or DIR" node.kind), t)

/-- Links copied files, the `k`-th reading of the clock first, to the versions of their sources.
Each source must have one. -/
def linkCopies (env : Env) (owner : OwnerId) (onlyNewest : Bool) :
    Nat → List CopiedNode → Tables → Except ArchiveError Unit × Tables
  | _, [], t => (.ok (), t)
  | k, copy :: rest, t =>
    let linked :=
      if onlyNewest then t.linkNewest (env.now k) owner copy.source copy.destination
      else t.linkAll (env.now k) owner copy.source copy.destination
    match linked with
    | (.error e, t') => (.error e, t')
    | (.ok 0, t') => (.error (.illegalState "failed to copy a file"), t')
    | (.ok _, t') => linkCopies env owner onlyNewest (k + 1) rest t'

/-- The statements of a copy. -/
def copyStatements (env : Env) (owner : OwnerId) (node : Node) (target : Path)
    (onlyNewest : Bool) (t : Tables) : Except ArchiveError (List CopiedNode) × Tables :=
  match copyNodes env owner node target t with
  | (.error e, t') => (.error e, t')
  | (.ok [], t') => (.error (.insertFailure "tree"), t')
  | (.ok copies, t') =>
    match linkCopies env owner onlyNewest 1 (copies.filter fun c => c.kind == .file) t' with
    | (.error e, t'') => (.error e, t'')
    | (.ok (), t'') => (.ok copies, t'')

/-- Copies a file, or a directory with all that is below it. -/
def copy (env : Env) (owner : OwnerId) (node : Node) (target : Path) (onlyNewest : Bool)
    (a : Archive) : Except ArchiveError (List CopiedNode) × Archive :=
  a.withTables (a.tables.transact (copyStatements env owner node target onlyNewest))

end VersionedTree.Archive
