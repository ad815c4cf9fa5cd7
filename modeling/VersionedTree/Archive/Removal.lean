import VersionedTree.Archive.Creation

/-!
# Removal of nodes and versions

Payloads are deleted only after the transaction that orphaned them. They go through the ledger,
so that a deletion that fails is tried again by a later sweep.

## Main definitions

* `VersionedTree.Archive.remove` — a node, or all that is at and below it.
* `VersionedTree.Archive.removeVersion` — one version of a file.
* `VersionedTree.Archive.sweep` — the oldest pending deletions, tried again.
-/

set_option autoImplicit false

namespace VersionedTree

/-- What a removal touched. -/
structure Removal where
  /-- The removed nodes; none for the removal of a version. -/
  removed : List NodeId
  /-- The blobs that lost their last link. -/
  orphaned : List BlobId
  /-- The orphaned blobs whose deletion was not confirmed. -/
  pending : List BlobId
deriving DecidableEq, Repr

namespace Archive

/-- Deletes orphaned payloads and clears the deleted ones from the ledger. The answer is what
remains. -/
def release (env : Env) (owner : OwnerId) (blobs : List BlobId) (a : Archive) :
    List BlobId × Archive :=
  let (report, payloads) := a.payloads.deleteMany env.backend owner blobs
  (report.failed, ⟨(a.tables.clearDeletes owner report.deleted).2, payloads⟩)

/-- Removes the links of nodes in turn. The answer lists the orphaned blobs. -/
def unlinkNodes (owner : OwnerId) : List NodeId → Tables → List BlobId × Tables
  | [], t => ([], t)
  | id :: rest, t =>
    let (unlinked, t') := t.unlinkAll owner id
    let (orphaned, t'') := unlinkNodes owner rest t'
    ((unlinked.filter Unlinked.orphaned).map Unlinked.blob ++ orphaned, t'')

/-- The statement that removes a node, alone or with all that is below it. -/
def removeNodes (owner : OwnerId) (node : Node) (recursive : Bool) (t : Tables) :
    List NodeId × Tables :=
  if recursive then t.removeSubtree owner node
  else
    let (removed, t') := t.removeLeaf owner node
    (removed.toList, t')

/-- The statements of a removal: nodes, their links, and the entries of the ledger. -/
def removeStatements (env : Env) (owner : OwnerId) (node : Node) (recursive : Bool)
    (t : Tables) : Except ArchiveError (List NodeId × List BlobId) × Tables :=
  match removeNodes owner node recursive t with
  | ([], t') => (.error (.deleteFailure "tree"), t')
  | (removed, t') =>
    let (orphaned, t'') := unlinkNodes owner removed t'
    (.ok (removed, orphaned), t''.queueDeletes (env.now 0) owner orphaned)

/-- Removes a node, alone or with all that is below it. -/
def remove (env : Env) (owner : OwnerId) (node : Node) (recursive : Bool) (a : Archive) :
    Except ArchiveError Removal × Archive :=
  match a.tables.transact (removeStatements env owner node recursive) with
  | (.error e, t) => (.error e, { a with tables := t })
  | (.ok (removed, orphaned), t) =>
    let (pending, a') := { a with tables := t }.release env owner orphaned
    (.ok ⟨removed, orphaned, pending⟩, a')

/-- The statements of the removal of a version. -/
def removeVersionStatements (env : Env) (owner : OwnerId) (node : NodeId) (blob : BlobId)
    (t : Tables) : Except ArchiveError (List BlobId) × Tables :=
  match t.unlink owner node blob with
  | (none, t') => (.error (.deleteFailure "link"), t')
  | (some unlinked, t') =>
    let orphaned := if unlinked.orphaned then [unlinked.blob] else []
    (.ok orphaned, t'.queueDeletes (env.now 0) owner orphaned)

/-- Removes one version of a file. -/
def removeVersion (env : Env) (owner : OwnerId) (node : Node) (blob : BlobId) (a : Archive) :
    Except ArchiveError Removal × Archive :=
  match a.tables.transact (removeVersionStatements env owner node.id blob) with
  | (.error e, t) => (.error e, { a with tables := t })
  | (.ok orphaned, t) =>
    let (pending, a') := { a with tables := t }.release env owner orphaned
    (.ok ⟨[], orphaned, pending⟩, a')

/-- The owners of ledger entries, each once and in ascending order, with their blobs. -/
def byOwner (entries : List PendingDelete) : List (OwnerId × List BlobId) :=
  let owners := (entries.map PendingDelete.owner).eraseDups.mergeSort
    fun a b => (a.order b).isLE
  owners.map fun owner =>
    (owner, (entries.filter fun e => e.owner == owner).map PendingDelete.blob)

/-- Releases the blobs of owners in turn. -/
def releaseAll (env : Env) : List (OwnerId × List BlobId) → Archive → DeleteReport × Archive
  | [], a => (⟨[], []⟩, a)
  | (owner, blobs) :: rest, a =>
    let (failed, a') := a.release env owner blobs
    let (report, a'') := releaseAll env rest a'
    (⟨blobs.filter (!failed.contains ·) ++ report.deleted, failed ++ report.failed⟩, a'')

/-- Tries the oldest pending deletions again, at most `limit` of them. -/
def sweep (env : Env) (limit : Nat) (a : Archive) : DeleteReport × Archive :=
  releaseAll env (byOwner (a.tables.pendingDeletes limit)) a

end Archive

end VersionedTree
