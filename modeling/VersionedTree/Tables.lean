import VersionedTree.Error
import VersionedTree.Record

/-!
# Tables

The metadata of all owners: the nodes of their trees, the blobs, the links between them, and the
ledger of payloads still to be deleted. Keys and checks are enforced row by row, the references
of links only at the end of a transaction.

## Main definitions

* `VersionedTree.Tables` — the four lists of rows.
* `VersionedTree.Tables.insertNode`, `VersionedTree.Tables.insertBlob`,
  `VersionedTree.Tables.insertLink` — insertion of one row under its constraints.
* `VersionedTree.Tables.dropLinks` — removal of links, which takes unreferenced blobs along.
* `VersionedTree.Tables.transact` — a transaction: all of its changes, or none.

## Design

A statement is a function from tables to a result and tables. A statement that fails leaves the
tables as it found them; a failed transaction leaves those it began with.
-/

set_option autoImplicit false

namespace VersionedTree

/-- The metadata of all owners. -/
structure Tables where
  /-- The nodes of all trees. -/
  nodes : List Node
  /-- The stored payloads. -/
  blobs : List Blob
  /-- The links between files and blobs. -/
  links : List Link
  /-- The payloads to be deleted. -/
  pending : List PendingDelete
deriving DecidableEq, Repr, Inhabited

/-- The check on a node: a root, and only a root, is stored at the empty path. -/
def Node.isWellPlaced (n : Node) : Bool := (n.kind == .root) == n.path.isRoot

/-- A row that is read back must hold a path. -/
def Node.readBack (n : Node) : Except ArchiveError Node :=
  match Path.fromEncoded n.path.encoded with
  | .ok _ => .ok n
  | .error e => .error (.database (.undecodable e))

/-- Reads back rows in turn; the first one without a path is the error. -/
def Node.readBackAll : List Node → Except ArchiveError (List Node)
  | [] => .ok []
  | n :: rest =>
    match n.readBack, readBackAll rest with
    | .error e, _ => .error e
    | _, .error e => .error e
    | .ok n, .ok ns => .ok (n :: ns)

namespace Tables

/-- Tables without a row. -/
def empty : Tables := ⟨[], [], [], []⟩

/-! ## Insertion -/

/-- Would the node share its identifier, or its owner and path, with another row? -/
def clashes (t : Tables) (n : Node) : Bool :=
  t.nodes.any fun m => m.id == n.id || (m.owner == n.owner && m.path == n.path)

/-- Adds a node. -/
def insertNode (t : Tables) (n : Node) : Except Constraint Tables :=
  if !n.isWellPlaced then .error .check
  else if t.clashes n then .error .unique
  else .ok { t with nodes := n :: t.nodes }

/-- Adds nodes in turn; the first refused one is the error. -/
def insertNodes (t : Tables) : List Node → Except Constraint Tables
  | [] => .ok t
  | n :: rest =>
    match t.insertNode n with
    | .ok t' => t'.insertNodes rest
    | .error c => .error c

/-- Adds a blob, whose size must not be negative. -/
def insertBlob (t : Tables) (b : Blob) : Except Constraint Tables :=
  if b.size < 0 then .error .check
  else if t.blobs.any (fun c => c.id == b.id) then .error .unique
  else .ok { t with blobs := b :: t.blobs }

/-- Is this blob linked to this node? -/
def hasLink (t : Tables) (node : NodeId) (blob : BlobId) : Bool :=
  t.links.any fun l => l.node == node && l.blob == blob

/-- Adds a link. -/
def insertLink (t : Tables) (l : Link) : Except Constraint Tables :=
  if t.hasLink l.node l.blob then .error .unique else .ok { t with links := l :: t.links }

/-- Adds links in turn; the first refused one is the error. -/
def insertLinks (t : Tables) : List Link → Except Constraint Tables
  | [] => .ok t
  | l :: rest =>
    match t.insertLink l with
    | .ok t' => t'.insertLinks rest
    | .error c => .error c

/-! ## Removal of links -/

/-- Removes the links that satisfy `p`. A blob that loses its last link goes with it. -/
def dropLinks (t : Tables) (p : Link → Bool) : Tables :=
  let dropped := t.links.filter p
  let kept := t.links.filter (!p ·)
  let isReleased (b : Blob) : Bool :=
    dropped.any (fun l => l.blob == b.id) && !kept.any (fun l => l.blob == b.id)
  { t with links := kept, blobs := t.blobs.filter (!isReleased ·) }

/-! ## Transactions -/

/-- Does every link join a node with a blob? -/
def referencesHold (t : Tables) : Bool :=
  t.links.all fun l =>
    t.nodes.any (fun n => n.id == l.node) && t.blobs.any (fun b => b.id == l.blob)

/-- The end of a transaction that began with the tables `start`: its tables are kept if their
references hold. -/
def commit (start t : Tables) : Except ArchiveError Unit × Tables :=
  if t.referencesHold then (.ok (), t) else (.error (.database .foreignKey), start)

/-- Runs statements as one transaction. If they fail, or the references of links do not hold
after them, nothing has changed. -/
def transact {α : Type} (t : Tables) (body : Tables → Except ArchiveError α × Tables) :
    Except ArchiveError α × Tables :=
  match body t with
  | (.error e, _) => (.error e, t)
  | (.ok a, t') =>
    match commit t t' with
    | (.ok (), t'') => (.ok a, t'')
    | (.error e, t'') => (.error e, t'')

end Tables

end VersionedTree
