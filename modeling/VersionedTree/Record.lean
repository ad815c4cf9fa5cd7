import VersionedTree.Id
import VersionedTree.Instant
import VersionedTree.Kind
import VersionedTree.Path

/-!
# Records

The rows of the tables and the records that operations take and return.

## Main definitions

* `VersionedTree.Node` — a node of an owner's tree, as stored and as a caller may claim it.
* `VersionedTree.Blob`, `VersionedTree.Link` — a stored payload, and its attachment to a node.
* `VersionedTree.Version` — a blob together with the link that attaches it.
* `VersionedTree.PendingDelete` — an orphaned payload whose deletion is not confirmed.
-/

set_option autoImplicit false

namespace VersionedTree

/-- A node of an owner's tree. -/
structure Node where
  id : NodeId
  kind : Kind
  path : Path
  owner : OwnerId
  createdAt : Instant
deriving DecidableEq, Repr, Inhabited

/-- What a caller declares about a payload. -/
structure BlobInfo where
  checksum : String
  size : Int
deriving DecidableEq, Repr, Inhabited

/-- A stored payload; it never changes. -/
structure Blob where
  id : BlobId
  checksum : String
  size : Int
  owner : OwnerId
  uploadedAt : Instant
deriving DecidableEq, Repr, Inhabited

/-- The attachment of a blob to a node. -/
structure Link where
  node : NodeId
  blob : BlobId
  linkedAt : Instant
deriving DecidableEq, Repr, Inhabited

/-- An orphaned payload whose deletion is not confirmed. -/
structure PendingDelete where
  owner : OwnerId
  blob : BlobId
  queuedAt : Instant
deriving DecidableEq, Repr, Inhabited

/-- A blob together with the link that attaches it to a node. -/
structure Version where
  node : NodeId
  blob : BlobId
  checksum : String
  size : Int
  owner : OwnerId
  uploadedAt : Instant
  linkedAt : Instant
deriving DecidableEq, Repr, Inhabited

/-- A removed link, and whether it was the last one to its blob. -/
structure Unlinked where
  blob : BlobId
  orphaned : Bool
deriving DecidableEq, Repr, Inhabited

/-- A copied node together with its source. -/
structure CopiedNode where
  source : NodeId
  destination : NodeId
  kind : Kind
deriving DecidableEq, Repr, Inhabited

namespace Version

/-- The version made of a link and its blob. -/
def ofRows (link : Link) (blob : Blob) : Version :=
  ⟨link.node, blob.id, blob.checksum, blob.size, blob.owner, blob.uploadedAt, link.linkedAt⟩

/-- Versions are ordered by the time of their link, then by the time of their upload, then by
their blob. -/
def order (a b : Version) : Ordering :=
  (a.linkedAt.order b.linkedAt).then ((a.uploadedAt.order b.uploadedAt).then (a.blob.order b.blob))

/-- The order of listings: the newest version comes first. -/
def newestFirst (a b : Version) : Bool := (order b a).isLE

end Version

/-- Pending deletions are ordered by the time they were queued, then by owner, then by blob. -/
def PendingDelete.order (a b : PendingDelete) : Ordering :=
  (a.queuedAt.order b.queuedAt).then ((a.owner.order b.owner).then (a.blob.order b.blob))

end VersionedTree
