import VersionedTree.Tables

/-!
# The ledger of pending deletions

An orphaned payload is queued in the transaction that orphaned it, and leaves the ledger only
once its deletion is confirmed.

## Main definitions

* `VersionedTree.Tables.queueDeletes`, `VersionedTree.Tables.clearDeletes` — entry and exit.
* `VersionedTree.Tables.pendingDeletes` — the oldest entries of all owners.
-/

set_option autoImplicit false

namespace VersionedTree.Tables

/-- Is the payload queued? -/
def isQueued (t : Tables) (owner : OwnerId) (blob : BlobId) : Bool :=
  t.pending.any fun p => p.owner == owner && p.blob == blob

/-- Queues payloads, all at one time. One that is queued already keeps its time. -/
def queueDeletes (time : Instant) (owner : OwnerId) : List BlobId → Tables → Tables
  | [], t => t
  | blob :: rest, t =>
    queueDeletes time owner rest <|
      if t.isQueued owner blob then t
      else { t with pending := ⟨owner, blob, time⟩ :: t.pending }

/-- Takes payloads out of the ledger, with the count of those that were in it. -/
def clearDeletes (owner : OwnerId) (blobs : List BlobId) (t : Tables) : Nat × Tables :=
  let isCleared (p : PendingDelete) : Bool := p.owner == owner && blobs.contains p.blob
  (t.pending.countP isCleared, { t with pending := t.pending.filter (!isCleared ·) })

/-- The oldest entries of all owners. -/
def pendingDeletes (t : Tables) (limit : Nat) : List PendingDelete :=
  (t.pending.mergeSort fun a b => (a.order b).isLE).take limit

end VersionedTree.Tables
