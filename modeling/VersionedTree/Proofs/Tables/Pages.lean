import VersionedTree.Proofs.Id
import VersionedTree.Proofs.Tables.Versions

/-!
# Pages of histories

The history of a node is strictly ordered by three keys, so that a page can be told by the version
before it, whether this is still there or not. Statements let versions go, and bring in new ones
at the times that they are given; they never change one.

## Main results

* `VersionedTree.Tables.Keyed.history_sorted` — histories descend strictly.
* `VersionedTree.Tables.Counted.mem_versions_run`,
  `VersionedTree.Tables.Counted.mem_versions_runAll` — new versions are linked at the time of a
  statement.
-/

set_option autoImplicit false

namespace VersionedTree

namespace Version

variable {u v w : Version}

/-! ## The strict order of listings -/

/-- What comes later than a later version comes later. -/
lemma order_trans (huv : u.order v = .lt) (hvw : v.order w = .lt) : u.order w = .lt :=
  Std.TransCmp.lt_trans huv hvw

/-- What comes later in listings was not linked later. -/
lemma linkedAt_le_of_order (h : v.order w = .lt) : v.linkedAt.micros ≤ w.linkedAt.micros := by
  rcases Ordering.then_eq_lt.1 h with hlt | ⟨heq, -⟩
  · exact Int.le_of_lt (Int.compare_eq_lt.1 hlt)
  · exact Int.le_of_eq (Int.compare_eq_eq.1 heq)

/-- Versions that are not told apart have one blob. -/
lemma blob_eq_of_order (h : v.order w = .eq) : v.blob = w.blob := by
  obtain ⟨-, hrest⟩ := Ordering.then_eq_eq.1 h
  obtain ⟨-, hblob⟩ := Ordering.then_eq_eq.1 hrest
  exact Id.eq_of_order hblob

end Version

namespace Tables

variable {t t' : Tables} {owner : OwnerId} {node : NodeId} {v : Version}

/-- The history of a node is made of its versions. -/
lemma mem_history : v ∈ t.history owner node ↔ v ∈ t.versionsOf owner node :=
  List.mem_mergeSort

/-- A history is as long as the count of versions says. -/
lemma length_history : (t.history owner node).length = t.countVersions owner node :=
  List.length_mergeSort _

/-- **Histories descend strictly.** Two versions of a node have different blobs, and so they differ
in the last key at least. -/
theorem Keyed.history_sorted (h : t.Keyed) (owner : OwnerId) (node : NodeId) :
    (t.history owner node).Pairwise fun v w => w.order v = .lt := by
  have hblobs := List.pairwise_map.1 (h.nodup_blobs_versionsOf owner node)
  refine pairwise_lt_mergeSort (hblobs.imp ?_)
  intro v w hne heq
  exact hne (Version.blob_eq_of_order heq).symm

/-! ## New versions -/

/-- Links that are inserted together bring in versions of their own times. -/
lemma mem_versions_insertLinks {ls : List Link} (hi : t.insertLinks ls = .ok t')
    (hv : v ∈ t'.versions) : v ∈ t.versions ∨ v.toLink ∈ ls := by
  rw [eq_of_insertLinks hi, mem_versions] at hv
  rcases List.mem_append.1 hv.1 with hl | hl
  · exact .inr (List.mem_reverse.1 hl)
  · exact .inl (mem_versions.2 ⟨hl, hv.2⟩)

/-- Versions that are linked to another node are linked at the time given. -/
lemma linkedAt_of_insertLinks {time : Instant} {vs : List Version}
    (hi : t.insertLinks (vs.map fun v => ⟨node, v.blob, time⟩) = .ok t') (hv : v ∈ t'.versions) :
    v ∈ t.versions ∨ v.linkedAt = time := by
  refine (mem_versions_insertLinks hi hv).imp_right ?_
  intro hl
  obtain ⟨u, -, e⟩ := List.mem_map.1 hl
  exact (congrArg Link.linkedAt e).symm

/-- **What a statement does to versions**: those after it were there before, or have been linked at
a time that it was given.

**Proof sketch.** A version is a link together with its blob. Of the statements that insert links
one inserts a blob, and no older link can have waited for it. -/
theorem Counted.mem_versions_run (hc : t.Counted) (fresh : Fresh) (owner : OwnerId) (s : Statement)
    (hv : v ∈ (s.run fresh owner t).2.versions) :
    v ∈ t.versions ∨ ∃ i, v.linkedAt = fresh.now i := by
  cases hs : s.isOnNodes with
  | true =>
    rw [Statement.run_of_isOnNodes hs] at hv
    exact .inl hv
  | false =>
    cases s with
    | addVersion node id info =>
      change v ∈ (t.addVersion _ _ owner node _ info).2.versions at hv
      rcases hc.addVersion_eq owner (fresh.now 1) (fresh.now 0) node (id.getD fresh.blobId) info
        with ⟨_, -, e⟩ | ⟨-, -, hnew, e⟩ <;> rw [e] at hv
      · exact .inl hv
      · rcases (Listed.mem_versions_cons hc hnew rfl rfl rfl).1 hv with rfl | hold
        · exact .inr ⟨1, rfl⟩
        · exact .inl hold
    | link node id =>
      change v ∈ (t.link _ owner node id).2.versions at hv
      rcases link_cases owner (fresh.now 0) node id t with e | ⟨-, -, -, e⟩ <;> rw [e] at hv
      · exact .inl hv
      · obtain ⟨hl, hb⟩ := mem_versions.1 hv
        rcases List.mem_cons.1 hl with hl | hl
        · exact .inr ⟨0, congrArg Link.linkedAt hl⟩
        · exact .inl (mem_versions.2 ⟨hl, hb⟩)
    | unlink node id =>
      change v ∈ (t.unlink owner node id).2.versions at hv
      rcases unlink_cases owner node id t with e | ⟨-, -, e⟩ <;> rw [e] at hv
      · exact .inl hv
      · exact .inl (Listed.mem_versions_dropLinks.1 hv).1
    | unlinkAll node => exact .inl (Listed.mem_versions_dropLinks.1 hv).1
    | linkNewest source target =>
      change v ∈ (t.linkNewest _ owner source target).2.versions at hv
      rcases linkNewest_cases owner (fresh.now 0) source target t with e | ⟨-, hi⟩
      · rw [e] at hv
        exact .inl hv
      · exact (linkedAt_of_insertLinks hi hv).imp_right fun e => ⟨0, e⟩
    | linkAll source target =>
      change v ∈ (t.linkAll _ owner source target).2.versions at hv
      rcases linkAll_cases owner (fresh.now 0) source target t with e | ⟨-, hi⟩
      · rw [e] at hv
        exact .inl hv
      · exact (linkedAt_of_insertLinks hi hv).imp_right fun e => ⟨0, e⟩
    | queueDeletes blobs =>
      change v ∈ (t.queueDeletes _ owner blobs).versions at hv
      rw [queueDeletes_frame owner (fresh.now 0) t blobs] at hv
      exact .inl hv
    | createNode | moveFile | moveDirectory | copyFile | copyDirectory | removeLeaf
    | removeSubtree => cases hs
    | _ => exact .inl hv

/-- **What a run does to versions**: those after it were there before, or have been linked at a
time that one of its statements was given. -/
theorem Counted.mem_versions_runAll (hc : t.Counted) {calls : List (Fresh × OwnerId × Statement)}
    (hv : v ∈ (Statement.runAll calls t).versions) :
    v ∈ t.versions ∨ ∃ call ∈ calls, ∃ i, v.linkedAt = call.1.now i := by
  induction calls generalizing t with
  | nil => exact .inl hv
  | cons call rest ih =>
    obtain ⟨fresh, caller, s⟩ := call
    rcases ih (hc.run fresh caller s) hv with hold | ⟨call, hcall, hnew⟩
    · rcases hc.mem_versions_run fresh caller s hold with hold | hnew
      · exact .inl hold
      · exact .inr ⟨_, List.mem_cons_self, hnew⟩
    · exact .inr ⟨call, List.mem_cons_of_mem _ hcall, hnew⟩

end Tables

end VersionedTree
