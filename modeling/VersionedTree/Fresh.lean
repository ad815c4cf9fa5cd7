import VersionedTree.Id
import VersionedTree.Instant

/-!
# Fresh values

New identifiers and readings of the clock come from outside. An operation is given a supply of
them and takes them in order.

## Main definitions

* `VersionedTree.Fresh` — a supply of identifiers and instants.
-/

set_option autoImplicit false

namespace VersionedTree

/-- A supply of identifiers and instants. -/
structure Fresh where
  /-- The new node identifiers, in the order in which they are taken. -/
  nodeId : Nat → NodeId
  /-- The new blob identifier. -/
  blobId : BlobId
  /-- The readings of the clock, in the order in which they are taken. -/
  now : Nat → Instant

end VersionedTree
