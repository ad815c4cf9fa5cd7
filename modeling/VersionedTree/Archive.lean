import VersionedTree.Fresh
import VersionedTree.Payload
import VersionedTree.Tables.Ledger
import VersionedTree.Tables.Versions

/-!
# The archive

The tables together with the payload store, and the operations that read them. What an operation
takes from outside, new identifiers, the clock and the behaviour of the payload store, is an
argument of it.

## Main definitions

* `VersionedTree.Archive` — tables and payloads.
* `VersionedTree.Env` — what an operation takes from outside.
* `VersionedTree.Archive.resolve`, `VersionedTree.Archive.list`,
  `VersionedTree.Archive.firstPage`, `VersionedTree.Archive.nextPage`,
  `VersionedTree.Archive.readVersion` — reading.
-/

set_option autoImplicit false

namespace VersionedTree

/-- Tables and payloads. -/
structure Archive where
  tables : Tables
  payloads : Payloads
deriving Inhabited

/-- What an operation takes from outside. -/
structure Env extends Fresh where
  /-- The behaviour of the payload store. -/
  backend : Backend

/-- A child in a listing. A file comes with its newest version, if it has one. -/
structure Entry where
  node : Node
  newest : Option Version
deriving DecidableEq, Repr

/-- The first page of a history, with the length of the whole. -/
structure VersionPage where
  versions : List Version
  total : Nat
deriving DecidableEq, Repr

namespace Archive

/-- An archive without owners. -/
def empty : Archive := ⟨.empty, .empty⟩

/-- A row that must be there. -/
def required {α : Type} (what : String) : Except ArchiveError (Option α) → Except ArchiveError α
  | .ok (some a) => .ok a
  | .ok none => .error (.notFound what)
  | .error e => .error e

/-- The owner's node at a place. -/
def resolve (owner : OwnerId) (path : Path) (a : Archive) : Except ArchiveError Node :=
  required path.display (a.tables.nodeAt? owner path)

/-- The owner's node of an identifier. -/
def node (owner : OwnerId) (id : NodeId) (a : Archive) : Except ArchiveError Node :=
  required id.text (a.tables.node? owner id)

/-- A child with its newest version. -/
def entry (owner : OwnerId) (a : Archive) (child : Node) : Entry :=
  if child.kind == .file then ⟨child, (a.tables.newestVersions owner child.id 1).head?⟩
  else ⟨child, none⟩

/-- The children of the root or directory at a place. -/
def list (owner : OwnerId) (path : Path) (a : Archive) : Except ArchiveError (List Entry) :=
  match a.resolve owner path with
  | .error e => .error e
  | .ok top =>
    if top.kind.isContainer then
      (a.tables.children owner top.id).map fun children => children.map (a.entry owner)
    else .error (.ofKind "ROOT or DIR" top.kind)

/-- The first page of the history of a file. -/
def firstPage (owner : OwnerId) (node : Node) (limit : Nat) (a : Archive) :
    Except ArchiveError VersionPage :=
  if node.kind == .file then
    .ok ⟨a.tables.newestVersions owner node.id limit, a.tables.countVersions owner node.id⟩
  else .error (.ofKind "FILE" node.kind)

/-- The page that follows a version. -/
def nextPage (owner : OwnerId) (last : Version) (limit : Nat) (a : Archive) : List Version :=
  a.tables.versionsAfter owner last limit

/-- One version of a node. -/
def findVersion (owner : OwnerId) (node : Node) (blob : BlobId) (a : Archive) :
    Except ArchiveError Version :=
  required ("version " ++ blob.text ++ " of " ++ node.path.display)
    (.ok (a.tables.version? owner node.id blob))

/-- The payload of a version, which must still be linked. -/
def readVersion (env : Env) (owner : OwnerId) (version : Version) (a : Archive) :
    Except ArchiveError ByteArray :=
  match a.tables.version? owner version.node version.blob with
  | none => .error (.notFound ("version " ++ version.blob.text))
  | some _ =>
    required ("payload " ++ version.blob.text)
      (a.payloads.read env.backend ⟨owner, version.blob⟩)

end Archive

end VersionedTree
