import VersionedTree.Proofs.Archive.Transactions

/-!
# Blobs and the ledger in transactions

What the transactions of operations do to blobs and to the ledger. A recorded version has a new
blob. A removal leaves no blob behind that it calls orphaned, and queues no other one. A copy
touches neither blobs nor the ledger.

## Main definitions

* `VersionedTree.Tables.Releases` — orphaned blobs are gone, and only they enter the ledger.

## Main results

* `VersionedTree.Tables.Counted.addVersion_ok`, `VersionedTree.Tables.Counted.recordFile_ok` — new
  blobs.
* `VersionedTree.Tables.Releases.removeStatements`,
  `VersionedTree.Tables.Releases.removeVersionStatements` — removals.
* `VersionedTree.Tables.moveStatement_frame`, `VersionedTree.Tables.copyNodes_frame`,
  `VersionedTree.Tables.linkCopies_frame` — moves and copies.
-/

set_option autoImplicit false

namespace VersionedTree

namespace Tables

variable {t t' : Tables} {blob : BlobId}

/-! ## Recorded versions -/

/-- A blob is not there if no row has its identifier. -/
lemma hasBlob_eq_false : t.hasBlob blob = false ↔ ∀ b ∈ t.blobs, b.id ≠ blob := by
  simp [hasBlob]

/-- A recorded version: its blob is new, and the ledger is as it was. -/
lemma Counted.addVersion_ok (h : t.Counted) {owner : OwnerId} {uploaded linked : Instant}
    {node : NodeId} {info : BlobInfo} {v : Version}
    (e : t.addVersion uploaded linked owner node blob info = (.ok v, t')) :
    v.blob = blob ∧ t.hasBlob blob = false ∧
      t'.blobs = ⟨blob, info.checksum, info.size, owner, uploaded⟩ :: t.blobs ∧
      t'.pending = t.pending := by
  rcases h.addVersion_eq owner linked uploaded node blob info with ⟨_, -, e'⟩ | ⟨-, -, hb, e'⟩
  · rw [e] at e'
    simp at e'
  · rw [e] at e'
    simp only [Prod.mk.injEq, Except.ok.injEq] at e'
    obtain ⟨rfl, rfl⟩ := e'
    exact ⟨rfl, hb, rfl, rfl⟩

/-- A recorded file: its blob is new, and the ledger is as it was. -/
lemma Counted.recordFile_ok (h : t.Counted) {env : Env} {owner : OwnerId} {path : Path}
    {info : BlobInfo} {file : CreatedFile}
    (e : Archive.recordFile env owner path info t = (.ok file, t')) :
    file.version.blob = env.blobId ∧ t.hasBlob env.blobId = false ∧
      t'.blobs = ⟨env.blobId, info.checksum, info.size, owner, env.now 1⟩ :: t.blobs ∧
      t'.pending = t.pending := by
  have hframe := createNode_frame owner (env.now 0) t (env.nodeId 0) path .file
  obtain ⟨t₁, hn, hv⟩ := Archive.recordFile_steps e
  rw [hn] at hframe
  obtain ⟨nodes, rfl⟩ : ∃ nodes, t₁ = { t with nodes := nodes } := ⟨_, hframe⟩
  have hc : Counted { t with nodes := nodes } := h.withNodes
  exact hc.addVersion_ok hv

/-! ## Removals -/

/-- Orphaned blobs are gone, no blob is new, and new entries of the ledger are orphaned blobs. -/
structure Releases (orphaned : List BlobId) (t t' : Tables) : Prop where
  blobs : ∀ b ∈ t'.blobs, b ∈ t.blobs
  gone : ∀ blob ∈ orphaned, t.hasBlob blob = true ∧ t'.hasBlob blob = false
  pending : ∀ p ∈ t'.pending, p ∈ t.pending ∨ p.blob ∈ orphaned

/-- Links that leave may take file rows with them, and bring none. -/
lemma blobs_dropLinks_subset {p : Link → Bool} : ∀ b ∈ (t.dropLinks p).blobs, b ∈ t.blobs :=
  fun _ hb => (mem_blobs_dropLinks.1 hb).1

/-- What is queued was in the ledger, or is among the blobs to be queued. -/
lemma mem_pending_queueDeletes {time : Instant} {owner : OwnerId} {blobs : List BlobId}
    {p : PendingDelete} (h : p ∈ (t.queueDeletes time owner blobs).pending) :
    p ∈ t.pending ∨ p.owner = owner ∧ p.blob ∈ blobs := by
  induction blobs generalizing t with
  | nil => exact .inl h
  | cons b rest ih =>
    unfold queueDeletes at h
    rcases ih h with h | ⟨ho, hb⟩
    · split at h
      · exact .inl h
      · rcases List.mem_cons.1 h with rfl | h
        · exact .inr ⟨rfl, List.mem_cons_self⟩
        · exact .inl h
    · exact .inr ⟨ho, List.mem_cons_of_mem _ hb⟩

/-- The removal of nodes changes nodes only. -/
lemma removeNodes_frame (owner : OwnerId) (node : Node) (recursive : Bool) (t : Tables) :
    (Archive.removeNodes owner node recursive t).2 =
      { t with nodes := (Archive.removeNodes owner node recursive t).2.nodes } := by
  unfold Archive.removeNodes
  split
  · exact removeSubtree_frame owner node t
  · exact removeLeaf_frame owner node t

namespace Releases

variable {orphaned : List BlobId} {owner : OwnerId}

/-- Tables with the same blobs and the same ledger have released nothing. -/
lemma of_eq (hb : t'.blobs = t.blobs) (hp : t'.pending = t.pending) : Releases [] t t' :=
  ⟨fun b h => hb ▸ h, fun _ h => absurd h (by simp), fun p h => .inl (hp ▸ h)⟩

/-- Orphaned blobs may enter the ledger. -/
lemma queueDeletes (h : Releases orphaned t t') (time : Instant) (owner : OwnerId) :
    Releases orphaned t (t'.queueDeletes time owner orphaned) := by
  refine ⟨fun b hb => ?_, fun blob hm => ?_, fun p hp => ?_⟩
  · rw [queueDeletes_frame] at hb
    exact h.blobs b hb
  · rw [queueDeletes_frame]
    exact h.gone blob hm
  · rcases mem_pending_queueDeletes hp with hp | ⟨-, hb⟩
    · exact h.pending p hp
    · exact .inr hb

/-- The links of nodes leave one node after the other. -/
lemma unlinkNodes (hc : t.Counted) (owner : OwnerId) (ids : List NodeId) :
    Releases (Archive.unlinkNodes owner ids t).1 t (Archive.unlinkNodes owner ids t).2 := by
  induction ids generalizing t with
  | nil => exact .of_eq rfl rfl
  | cons id rest ih =>
    have hrest := ih (hc.unlinkAll owner id)
    change Releases (orphans (t.unlinkAll owner id).1 ++ _) t _
    refine ⟨fun b hb => blobs_dropLinks_subset b (hrest.blobs b hb), fun blob hm => ?_,
      fun p hp => ?_⟩
    · rcases List.mem_append.1 hm with hm | hm
      · obtain ⟨hb, hgone⟩ := hc.mem_orphans_unlinkAll.1 hm
        refine ⟨hb, hasBlob_eq_false.2 fun b hmem => ?_⟩
        exact hasBlob_eq_false.1 hgone b (hrest.blobs b hmem)
      · obtain ⟨hb, hgone⟩ := hrest.gone blob hm
        exact ⟨hasBlob_of_dropLinks hb, hgone⟩
    · rcases hrest.pending p hp with hp | hp
      · exact .inl hp
      · exact .inr (List.mem_append_right _ hp)

/-- A removal of nodes releases the blobs that it names as orphaned, and queues them. -/
lemma removeStatements (hc : t.Counted) {env : Env} {node : Node} {recursive : Bool}
    {removed : List NodeId}
    (e : Archive.removeStatements env owner node recursive t = (.ok (removed, orphaned), t')) :
    Releases orphaned t t' := by
  have hnodes := removeNodes_frame owner node recursive t
  obtain ⟨t₁, hn, rfl, rfl⟩ := Archive.removeStatements_steps e
  rw [hn] at hnodes
  obtain ⟨nodes, rfl⟩ : ∃ nodes, t₁ = { t with nodes := nodes } := ⟨_, hnodes⟩
  have hc₁ : Counted { t with nodes := nodes } := hc.withNodes
  have hrel := (Releases.unlinkNodes hc₁ owner removed).queueDeletes (env.now 0) owner
  exact ⟨hrel.blobs, hrel.gone, hrel.pending⟩

/-- A removal of a version releases its blob if that was its last link. -/
lemma removeVersionStatements (hc : t.Counted) {env : Env} {node : NodeId} {blob : BlobId}
    (e : Archive.removeVersionStatements env owner node blob t = (.ok orphaned, t')) :
    Releases orphaned t t' := by
  obtain ⟨-, hdrop, rfl, rfl⟩ := Archive.removeVersionStatements_steps e
  refine Releases.queueDeletes ⟨?_, ?_, ?_⟩ (env.now 0) owner
  · rw [hdrop]
    exact blobs_dropLinks_subset
  · intro c hm
    exact hc.mem_orphans_unlink.1 hm
  · rw [hdrop]
    exact fun _ hp => .inl hp

end Releases

/-! ## Moves and copies -/

/-- Whether some node has moved is a question of the result only. -/
lemma requireMoved_tables (r : Except ArchiveError (Option Nat) × Tables) :
    (Archive.requireMoved r).2 = r.2 := by
  unfold Archive.requireMoved
  split
  · split <;> rfl
  · rfl
  · rfl

/-- A move changes nodes only. -/
lemma moveStatement_frame (owner : OwnerId) (node : Node) (target : Path) (t : Tables) :
    (Archive.moveStatement owner node target t).2 =
      { t with nodes := (Archive.moveStatement owner node target t).2.nodes } := by
  unfold Archive.moveStatement
  split
  · rw [requireMoved_tables]
    exact moveFile_frame owner node target t
  · rw [requireMoved_tables]
    exact moveDirectory_frame owner node target t
  · rfl

section Copies

variable (env : Env) (owner : OwnerId)

/-- The copy of nodes changes nodes only. -/
lemma copyNodes_frame (node : Node) (target : Path) (t : Tables) :
    (Archive.copyNodes env owner node target t).2 =
      { t with nodes := (Archive.copyNodes env owner node target t).2.nodes } := by
  unfold Archive.copyNodes
  split
  · have h := copyFile_frame owner (env.now 0) node target t (env.nodeId 0)
    split <;> next e => rwa [e] at h
  · exact copyDirectory_frame owner (env.now 0) node target t env.nodeId
  · rfl

/-- The linking of copies changes links only. -/
lemma linkCopies_frame (onlyNewest : Bool) (k : Nat) (copies : List CopiedNode) (t : Tables) :
    (Archive.linkCopies env owner onlyNewest k copies t).2 =
      { t with links := (Archive.linkCopies env owner onlyNewest k copies t).2.links } := by
  induction copies generalizing k t with
  | nil => rfl
  | cons copy rest ih =>
    have h : ∀ r, (if onlyNewest
          then t.linkNewest (env.now k) owner copy.source copy.destination
          else t.linkAll (env.now k) owner copy.source copy.destination) = r →
        r.2 = { t with links := r.2.links } := by
      rintro _ rfl
      split
      · exact linkNewest_frame owner (env.now k) copy.source copy.destination t
      · exact linkAll_frame owner (env.now k) copy.source copy.destination t
    unfold Archive.linkCopies
    simp only
    split
    · next e => exact h _ e
    · next e => exact h _ e
    · next n t₁ _ e =>
      have hone : t₁ = { t with links := t₁.links } := h _ e
      rw [ih (k + 1) t₁, hone]

/-- A copy changes nodes and links only. -/
lemma copyStatements_frame {node : Node} {target : Path} {onlyNewest : Bool} (t : Tables) :
    (Archive.copyStatements env owner node target onlyNewest t).2.blobs = t.blobs ∧
      (Archive.copyStatements env owner node target onlyNewest t).2.pending = t.pending := by
  have hnodes := copyNodes_frame env owner node target t
  unfold Archive.copyStatements
  split
  · next e =>
    rw [e] at hnodes
    exact ⟨blobs_of_nodes hnodes, pending_of_nodes hnodes⟩
  · next e =>
    rw [e] at hnodes
    exact ⟨blobs_of_nodes hnodes, pending_of_nodes hnodes⟩
  · next copies t₁ _ e =>
    rw [e] at hnodes
    have hkept : t₁.blobs = t.blobs ∧ t₁.pending = t.pending :=
      ⟨blobs_of_nodes hnodes, pending_of_nodes hnodes⟩
    have hlinks := linkCopies_frame env owner onlyNewest 1
      (copies.filter fun c => c.kind == .file) t₁
    split <;> next e' =>
      rw [e'] at hlinks
      rw [hlinks]
      exact hkept

end Copies

end Tables

end VersionedTree
