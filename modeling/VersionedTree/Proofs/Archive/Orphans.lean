import VersionedTree.Proofs.Archive.Retention

/-!
# Orphaned blobs and the ledger

A removal names the blobs that leave: all of them, each once, and all of its owner. It queues them
under that owner, and takes nothing out of the ledger. A sweep takes entries of the ledger, grouped
by their owners.

## Main definitions

* `VersionedTree.PendingDelete.key` — the key of the payload to be deleted.
* `VersionedTree.PendingDelete.entries` — the entries of blobs that are queued at one time.
* `VersionedTree.Tables.Orphans` — what a removal does to blobs and to the ledger.

## Main results

* `VersionedTree.Tables.Orphans.removeStatements`,
  `VersionedTree.Tables.Orphans.removeVersionStatements` — removals.
* `VersionedTree.Archive.nodup_byOwner`, `VersionedTree.Archive.nodup_of_mem_byOwner` — a sweep
  names every owner once, and every blob of an owner once.
-/

set_option autoImplicit false

namespace VersionedTree

/-- The key of the payload to be deleted. -/
def PendingDelete.key (p : PendingDelete) : Key := ⟨p.owner, p.blob⟩

/-- The entries of blobs that are queued at one time, the last one first. -/
def PendingDelete.entries (time : Instant) (owner : OwnerId) (blobs : List BlobId) :
    List PendingDelete :=
  (blobs.map fun blob => ⟨owner, blob, time⟩).reverse

namespace Tables

variable {t t' : Tables} {owner : OwnerId}

/-! ## The ledger -/

section Queue

variable (time : Instant) (blobs : List BlobId)

/-- Nothing is taken out of the ledger when blobs are queued. -/
lemma mem_pending_queueDeletes_of_mem {p : PendingDelete} (hp : p ∈ t.pending) :
    p ∈ (t.queueDeletes time owner blobs).pending := by
  induction blobs generalizing t with
  | nil => exact hp
  | cons blob rest ih =>
    unfold queueDeletes
    apply ih
    split
    · exact hp
    · exact List.mem_cons_of_mem _ hp

variable {blobs}

/-- Every blob that is to be queued is in the ledger afterwards. -/
lemma exists_pending_queueDeletes {blob : BlobId} (hb : blob ∈ blobs) :
    ∃ p ∈ (t.queueDeletes time owner blobs).pending, p.key = ⟨owner, blob⟩ := by
  induction blobs generalizing t with
  | nil => cases hb
  | cons first rest ih =>
    unfold queueDeletes
    rcases List.mem_cons.1 hb with rfl | hb
    · by_cases hq : t.isQueued owner blob = true
      · obtain ⟨p, hp, hkey⟩ := List.any_eq_true.1 hq
        rw [Bool.and_eq_true, beq_iff_eq, beq_iff_eq] at hkey
        rw [if_pos hq]
        refine ⟨p, mem_pending_queueDeletes_of_mem time rest hp, ?_⟩
        rw [PendingDelete.key, hkey.1, hkey.2]
      · rw [if_neg hq]
        exact ⟨_, mem_pending_queueDeletes_of_mem time rest List.mem_cons_self, rfl⟩
    · exact ih hb

/-- No payload is queued twice. -/
lemma nodup_queueDeletes (hn : (t.pending.map PendingDelete.key).Nodup) :
    ((t.queueDeletes time owner blobs).pending.map PendingDelete.key).Nodup := by
  induction blobs generalizing t with
  | nil => exact hn
  | cons blob rest ih =>
    unfold queueDeletes
    apply ih
    by_cases hq : t.isQueued owner blob = true
    · rwa [if_pos hq]
    · rw [if_neg hq, List.map_cons, List.nodup_cons]
      refine ⟨fun hm => hq ?_, hn⟩
      obtain ⟨p, hp, e⟩ := List.mem_map.1 hm
      have howner : p.owner = owner := congrArg Key.owner e
      have hblob : p.blob = blob := congrArg Key.blob e
      refine List.any_eq_true.2 ⟨p, hp, ?_⟩
      rw [howner, hblob, beq_self_eq_true, beq_self_eq_true, Bool.and_self]

end Queue

/-- What stays in the ledger when blobs are cleared. -/
lemma mem_pending_clearDeletes {blobs : List BlobId} {p : PendingDelete} :
    p ∈ (t.clearDeletes owner blobs).2.pending ↔
      p ∈ t.pending ∧ ¬(p.owner = owner ∧ p.blob ∈ blobs) := by
  simp [clearDeletes, imp_iff_not_or]

/-- Blobs that are not in the ledger are queued in front of it. -/
lemma queueDeletes_of_new {time : Instant} {blobs : List BlobId} (hn : blobs.Nodup)
    (hnew : ∀ p ∈ t.pending, p.owner = owner → p.blob ∉ blobs) :
    t.queueDeletes time owner blobs =
      { t with pending := PendingDelete.entries time owner blobs ++ t.pending } := by
  induction blobs generalizing t with
  | nil => rfl
  | cons blob rest ih =>
    rw [List.nodup_cons] at hn
    have hfirst : t.isQueued owner blob = false := by
      simp only [isQueued, List.any_eq_false, Bool.and_eq_true, beq_iff_eq, not_and]
      intro p hp ho hb
      exact hnew p hp ho (hb ▸ List.mem_cons_self)
    have hrest : ∀ p ∈ (⟨owner, blob, time⟩ : PendingDelete) :: t.pending, p.owner = owner →
        p.blob ∉ rest := by
      intro p hp ho
      rcases List.mem_cons.1 hp with rfl | hp
      · exact hn.1
      · exact fun hb => hnew p hp ho (List.mem_cons_of_mem _ hb)
    rw [queueDeletes, hfirst]
    simp only [Bool.false_eq_true, if_false]
    rw [ih (t := { t with pending := ⟨owner, blob, time⟩ :: t.pending }) hn.2 hrest]
    simp [PendingDelete.entries]

/-- Some of the blobs that have just been queued are cleared. -/
lemma clearDeletes_queued {time : Instant} {blobs : List BlobId} (q : BlobId → Bool)
    (hnew : ∀ p ∈ t.pending, p.owner = owner → p.blob ∉ blobs) :
    ({ t with pending := PendingDelete.entries time owner blobs ++ t.pending }.clearDeletes owner
        (blobs.filter (!q ·))).2 =
      { t with pending := PendingDelete.entries time owner (blobs.filter q) ++ t.pending } := by
  have hqueued : (PendingDelete.entries time owner blobs).filter (fun p =>
      !(p.owner == owner && (blobs.filter (!q ·)).contains p.blob)) =
        PendingDelete.entries time owner (blobs.filter q) := by
    rw [PendingDelete.entries, List.filter_reverse, List.filter_map, PendingDelete.entries]
    congr 2
    refine List.filter_congr ?_
    intro blob hb
    cases hq : q blob <;> simp [hb, hq]
  have hold : t.pending.filter (fun p =>
      !(p.owner == owner && (blobs.filter (!q ·)).contains p.blob)) = t.pending := by
    refine List.filter_eq_self.2 ?_
    intro p hp
    by_cases ho : p.owner = owner
    · simp [hnew p hp ho]
    · simp [ho]
  rw [clearDeletes]
  simp only [List.filter_append, hqueued, hold]

/-! ## Blobs that leave -/

/-- The identifier of a blob that left names no other blob. -/
lemma Keyed.hasBlob_of_left (hk : t.Keyed) (hs : ∀ b ∈ t'.blobs, b ∈ t.blobs) {r : Blob}
    (hr : r ∈ t.blobs) (hleft : r ∉ t'.blobs) : t'.hasBlob r.id = false := by
  refine hasBlob_eq_false.2 ?_
  intro b hb e
  have hsame : b = r := hk.eq_of_blob (hs b hb) hr e
  exact hleft (hsame ▸ hb)

/-- A blob leaves only with a link to it. -/
lemma Keyed.owner_of_left (hk : t.Keyed) {p : Link → Bool}
    (hp : ∀ l ∈ t.links, p l = true → t.ownsBlob owner l.blob = true) {r : Blob}
    (hr : r ∈ t.blobs) (hleft : r ∉ (t.dropLinks p).blobs) : r.owner = owner := by
  have hlost : ∃ l ∈ t.links, p l = true ∧ l.blob = r.id := by
    by_contra hnone
    refine hleft (mem_blobs_dropLinks.2 ⟨hr, ?_⟩)
    intro hlost
    exact absurd hlost hnone
  obtain ⟨l, hl, hpl, hblob⟩ := hlost
  obtain ⟨b, hb, hid, ho⟩ := ownsBlob_iff.1 (hp l hl hpl)
  have hsame : b = r := hk.eq_of_blob hb hr (hid.trans hblob)
  rw [← hsame, ho]

/-- What a removal on behalf of an owner does to blobs and to the ledger: the blobs that leave are
the ones it names, each once and all of the owner, and they are queued. -/
structure Orphans (owner : OwnerId) (orphaned : List BlobId) (t t' : Tables) : Prop where
  nodup : orphaned.Nodup
  left : ∀ r ∈ t.blobs, r ∈ t'.blobs ∨ r.id ∈ orphaned ∧ r.owner = owner
  pending : ∃ time, t'.pending = (t.queueDeletes time owner orphaned).pending

/-- A blob that leaves with the links of a node is among the orphaned ones. -/
lemma left_unlinkAll (owner : OwnerId) (hk : t.Keyed) (hc : t.Counted) (id : NodeId) {r : Blob}
    (hr : r ∈ t.blobs) :
    r ∈ (t.unlinkAll owner id).2.blobs ∨
      r.id ∈ orphans (t.unlinkAll owner id).1 ∧ r.owner = owner := by
  by_cases hstay : r ∈ (t.unlinkAll owner id).2.blobs
  · exact .inl hstay
  · have hgone : (t.unlinkAll owner id).2.hasBlob r.id = false :=
      hk.hasBlob_of_left blobs_dropLinks_subset hr hstay
    refine .inr ⟨hc.mem_orphans_unlinkAll.2 ⟨hasBlob_iff.2 ⟨r, hr, rfl⟩, hgone⟩, ?_⟩
    refine hk.owner_of_left (p := fun l => l.node == id && t.ownsBlob owner l.blob) ?_ hr hstay
    intro l _ hp
    exact (Bool.and_eq_true _ _ ▸ hp).2

/-- The links of nodes leave one node after the other: no blob is named twice.

**Proof sketch.** Induction on the nodes. The blobs named for the first one are gone, and those
named for the others are still there. -/
lemma nodup_unlinkNodes (hk : t.Keyed) (hc : t.Counted) (owner : OwnerId) (ids : List NodeId) :
    (Archive.unlinkNodes owner ids t).1.Nodup := by
  induction ids generalizing t with
  | nil => exact List.nodup_nil
  | cons id rest ih =>
    have hk' : (t.unlinkAll owner id).2.Keyed := hk.dropLinks _
    have hc' : (t.unlinkAll owner id).2.Counted := hc.unlinkAll owner id
    change (orphans (t.unlinkAll owner id).1 ++
      (Archive.unlinkNodes owner rest (t.unlinkAll owner id).2).1).Nodup
    refine List.nodup_append.2 ⟨Counted.nodup_orphans_unlinkAll hk, ih hk' hc', ?_⟩
    rintro blob hfirst _ hrest rfl
    have hgone := (hc.mem_orphans_unlinkAll.1 hfirst).2
    have hthere := ((Releases.unlinkNodes hc' owner rest).gone blob hrest).1
    rw [hgone] at hthere
    cases hthere

/-- Every blob that leaves with the links of nodes is named. -/
lemma left_unlinkNodes (hk : t.Keyed) (hc : t.Counted) (owner : OwnerId) (ids : List NodeId)
    {r : Blob} (hr : r ∈ t.blobs) :
    r ∈ (Archive.unlinkNodes owner ids t).2.blobs ∨
      r.id ∈ (Archive.unlinkNodes owner ids t).1 ∧ r.owner = owner := by
  induction ids generalizing t with
  | nil => exact .inl hr
  | cons id rest ih =>
    rcases left_unlinkAll owner hk hc id hr with hstay | ⟨hm, ho⟩
    · rcases ih (hk.dropLinks _) (hc.unlinkAll owner id) hstay with hstay | ⟨hm, ho⟩
      · exact .inl hstay
      · exact .inr ⟨List.mem_append_right _ hm, ho⟩
    · exact .inr ⟨List.mem_append_left _ hm, ho⟩

/-- Nodes are unlinked without a change of the ledger, which is filled later. -/
lemma pending_unlinkNodes (owner : OwnerId) (ids : List NodeId) (t : Tables) :
    (Archive.unlinkNodes owner ids t).2.pending = t.pending := by
  induction ids generalizing t with
  | nil => rfl
  | cons id rest ih => exact ih (t.unlinkAll owner id).2

/-- Only the ledger matters to what is queued. -/
lemma pending_queueDeletes_congr (h : t.pending = t'.pending) (time : Instant) (owner : OwnerId)
    (blobs : List BlobId) :
    (t.queueDeletes time owner blobs).pending = (t'.queueDeletes time owner blobs).pending := by
  induction blobs generalizing t t' with
  | nil => exact h
  | cons blob rest ih =>
    unfold queueDeletes
    apply ih
    rw [isQueued, isQueued, h]
    split
    · exact h
    · rfl

namespace Orphans

variable {orphaned : List BlobId}

/-- **The removal of nodes** queues what their links leave orphaned. -/
theorem removeStatements (hk : t.Keyed) (hc : t.Counted) {env : Env} {node : Node}
    {recursive : Bool} {removed : List NodeId}
    (e : Archive.removeStatements env owner node recursive t = (.ok (removed, orphaned), t')) :
    Orphans owner orphaned t t' := by
  have hnodes := removeNodes_frame owner node recursive t
  have hkeyed : (Archive.removeNodes owner node recursive t).2.Keyed := by
    unfold Archive.removeNodes
    split
    · exact hk.removeSubtree owner node
    · exact hk.removeLeaf owner node
  obtain ⟨t₁, hn, rfl, rfl⟩ := Archive.removeStatements_steps e
  rw [hn] at hnodes hkeyed
  have hblobs : t₁.blobs = t.blobs := blobs_of_nodes hnodes
  have hlinks : (removed, t₁).2.links = t.links := by rw [hnodes]
  have hcounted : t₁.Counted := hc.of_eq hblobs hlinks
  have hpending : (Archive.unlinkNodes owner removed t₁).2.pending = t.pending :=
    (pending_unlinkNodes owner removed t₁).trans (pending_of_nodes hnodes)
  refine ⟨nodup_unlinkNodes hkeyed hcounted owner removed, ?_, env.now 0, ?_⟩
  · intro r hr
    rw [queueDeletes_frame]
    exact left_unlinkNodes hkeyed hcounted owner removed (hblobs ▸ hr)
  · exact pending_queueDeletes_congr hpending _ _ _

/-- **The removal of a version** queues its blob if it was the last one with it. -/
theorem removeVersionStatements (hk : t.Keyed) (hc : t.Counted) {env : Env} {node : NodeId}
    {blob : BlobId}
    (e : Archive.removeVersionStatements env owner node blob t = (.ok orphaned, t')) :
    Orphans owner orphaned t t' := by
  obtain ⟨ho, hdrop, rfl, rfl⟩ := Archive.removeVersionStatements_steps e
  refine ⟨Counted.nodup_orphans_unlink, ?_, env.now 0, ?_⟩
  · intro r hr
    rw [queueDeletes_frame]
    by_cases hstay : r ∈ (t.unlink owner node blob).2.blobs
    · exact .inl hstay
    · have hsub : ∀ b ∈ (t.unlink owner node blob).2.blobs, b ∈ t.blobs := by
        rw [hdrop]
        exact blobs_dropLinks_subset
      have hgone : (t.unlink owner node blob).2.hasBlob r.id = false :=
        hk.hasBlob_of_left hsub hr hstay
      refine .inr ⟨hc.mem_orphans_unlink.2 ⟨hasBlob_iff.2 ⟨r, hr, rfl⟩, hgone⟩, ?_⟩
      rw [hdrop] at hstay
      refine hk.owner_of_left ?_ hr hstay
      intro l _ hp
      rw [Bool.and_eq_true, beq_iff_eq, beq_iff_eq] at hp
      rw [hp.2]
      exact ho
  · refine pending_queueDeletes_congr ?_ _ _ _
    rw [hdrop]
    rfl

end Orphans

end Tables

/-! ## Entries of the ledger by owner -/

namespace Archive

/-- Duplicates are erased. -/
lemma nodup_eraseDups {α : Type} [BEq α] [LawfulBEq α] (as : List α) : as.eraseDups.Nodup := by
  induction hlen : as.length using Nat.strong_induction_on generalizing as with
  | _ k ih =>
    subst hlen
    cases as with
    | nil => exact List.nodup_nil
    | cons a rest =>
      have hshort : (rest.filter fun b => !b == a).length < (a :: rest).length :=
        Nat.lt_succ_of_le (List.length_filter_le _ _)
      rw [List.eraseDups_cons, List.nodup_cons]
      refine ⟨?_, ih _ hshort _ rfl⟩
      rw [List.mem_eraseDups, List.mem_filter]
      simp

/-- **A sweep** names every owner once. -/
lemma nodup_byOwner (entries : List PendingDelete) : ((byOwner entries).map Prod.fst).Nodup := by
  have howners : (byOwner entries).map Prod.fst =
      (entries.map PendingDelete.owner).eraseDups.mergeSort fun a b => (a.order b).isLE := by
    rw [byOwner, List.map_map]
    exact List.map_id _
  rw [howners, List.nodup_mergeSort]
  exact nodup_eraseDups _

/-- A sweep names every blob of an owner once. -/
lemma nodup_of_mem_byOwner {entries : List PendingDelete}
    (hn : (entries.map PendingDelete.key).Nodup) {entry : OwnerId × List BlobId}
    (h : entry ∈ byOwner entries) : entry.2.Nodup := by
  obtain ⟨owner, -, rfl⟩ := List.mem_map.1 h
  have hentries : entries.Nodup := hn.of_map
  refine List.Nodup.map_on ?_ (hentries.filter _)
  intro p hp q hq hblob
  obtain ⟨hp, hpo⟩ := List.mem_filter.1 hp
  obtain ⟨hq, hqo⟩ := List.mem_filter.1 hq
  rw [beq_iff_eq] at hpo hqo
  refine List.inj_on_of_nodup_map hn hp hq ?_
  rw [PendingDelete.key, PendingDelete.key, hpo, hqo, hblob]

/-- The oldest entries of the ledger are different ones. -/
lemma nodup_pendingDeletes {t : Tables} (hn : (t.pending.map PendingDelete.key).Nodup)
    (limit : Nat) : ((t.pendingDeletes limit).map PendingDelete.key).Nodup := by
  have hsub : (t.pendingDeletes limit).Sublist
      (t.pending.mergeSort fun a b => (a.order b).isLE) := List.take_sublist _ _
  have hperm := List.mergeSort_perm t.pending fun a b => (a.order b).isLE
  exact ((hperm.map PendingDelete.key).nodup_iff.2 hn).sublist (hsub.map _)

end Archive

end VersionedTree
