import VersionedTree.Proofs.Tables.Keys
import VersionedTree.Proofs.Tables.Session

/-!
# Blobs and their links

A blob exists exactly as long as a link refers to it, after every single statement: also between
the removal of nodes and that of their links, when links lead to no node. The statements that
remove links say of each blob whether it is gone, so that over any run of statements the blobs that
came and the blobs that went balance.

## Main definitions

* `VersionedTree.Tables.Counted` — blobs are those that some link refers to.
* `VersionedTree.Statement.insertions`, `VersionedTree.Statement.orphanings` — the blobs that the
  statements of a run report as new, and as orphaned.

## Main results

* `VersionedTree.Tables.Counted.run` — every statement keeps the blobs counted.
* `VersionedTree.Tables.Counted.addVersion_eq` — a new blob is never left without its link.
* `VersionedTree.Statement.balance` — new blobs and orphaned blobs balance over a run.
* `VersionedTree.Session.references_exact` — all of this in every state of a session.
-/

set_option autoImplicit false

namespace VersionedTree

namespace Tables

variable {t t' : Tables} {blob : BlobId}

/-- Blobs are exactly those that some link refers to. -/
def Counted (t : Tables) : Prop := ∀ blob, t.hasBlob blob = t.isLinked blob

namespace Counted

/-- Tables without rows have no blob, and no link to one. -/
lemma empty : Counted .empty := fun _ => rfl

/-- Only blobs and links matter. -/
lemma of_eq (h : t.Counted) (hb : t'.blobs = t.blobs) (hl : t'.links = t.links) : t'.Counted := by
  intro blob
  simpa only [hasBlob, isLinked, hb, hl] using h blob

/-- Nodes have no part in the count of blobs. -/
lemma withNodes (h : t.Counted) {nodes : List Node} : Counted { t with nodes := nodes } :=
  h.of_eq rfl rfl

/-- A link to a blob that is there may be added. -/
lemma consLink (h : t.Counted) {l : Link} (hl : t.hasBlob l.blob = true) :
    Counted { t with links := l :: t.links } := by
  intro blob
  by_cases e : l.blob = blob
  · subst e
    exact hl.trans (by simp [isLinked])
  · simpa [hasBlob, isLinked, beq_false_of_ne e] using h blob

/-- Links to blobs that are there may be added one after the other. -/
lemma insertLinks (h : t.Counted) {ls : List Link} (hls : ∀ l ∈ ls, t.hasBlob l.blob = true)
    (hi : t.insertLinks ls = .ok t') : t'.Counted := by
  induction ls generalizing t with
  | nil =>
    simp only [Tables.insertLinks, Except.ok.injEq] at hi
    exact hi ▸ h
  | cons l rest ih =>
    unfold Tables.insertLinks at hi
    split at hi
    · next t₁ h₁ =>
      obtain ⟨-, rfl⟩ := insertLink_eq_ok.1 h₁
      exact ih (h.consLink (hls l List.mem_cons_self))
        (fun k hk => hls k (List.mem_cons_of_mem _ hk)) hi
    · cases hi

end Counted

/-! ## Removal of links -/

/-- A blob stays if it has lost no link, or has a link left. -/
lemma mem_blobs_dropLinks {p : Link → Bool} {b : Blob} :
    b ∈ (t.dropLinks p).blobs ↔
      b ∈ t.blobs ∧ ((∃ l ∈ t.links, p l = true ∧ l.blob = b.id) →
        ∃ l ∈ t.links, p l = false ∧ l.blob = b.id) := by
  simp only [dropLinks, List.mem_filter, Bool.not_and, Bool.not_not, Bool.or_eq_true,
    Bool.not_eq_true', List.any_eq_false, List.any_eq_true, beq_iff_eq, and_imp]
  refine and_congr_right fun _ => ⟨?_, fun h => ?_⟩
  · rintro (hnone | ⟨l, ⟨hl, hp⟩, e⟩) ⟨k, hk, hpk, ek⟩
    · exact absurd ek (hnone k hk hpk)
    · exact ⟨l, hl, hp, e⟩
  · by_cases hd : ∃ l ∈ t.links, p l = true ∧ l.blob = b.id
    · obtain ⟨l, hl, hp, e⟩ := h hd
      exact .inr ⟨l, ⟨hl, hp⟩, e⟩
    · exact .inl fun l hl hp e => hd ⟨l, hl, hp, e⟩

/-- A blob is linked after a removal if one of the links that stay refers to it. -/
lemma isLinked_dropLinks {p : Link → Bool} :
    (t.dropLinks p).isLinked blob = true ↔ ∃ l ∈ t.links, p l = false ∧ l.blob = blob := by
  simp [isLinked_iff, and_assoc]

/-- **Removal of links keeps the blobs counted.** Those that it releases are those without a link
left. -/
lemma Counted.dropLinks (h : t.Counted) (p : Link → Bool) : (t.dropLinks p).Counted := by
  intro blob
  rw [Bool.eq_iff_iff, hasBlob_iff, isLinked_dropLinks]
  constructor
  · rintro ⟨b, hb, rfl⟩
    obtain ⟨hbt, hkept⟩ := mem_blobs_dropLinks.1 hb
    have hlinked := h b.id
    rw [hasBlob_iff.2 ⟨b, hbt, rfl⟩] at hlinked
    obtain ⟨l, hl, e⟩ := isLinked_iff.1 hlinked.symm
    by_cases hp : p l = true
    · exact hkept ⟨l, hl, hp, e⟩
    · exact ⟨l, hl, by simpa using hp, e⟩
  · rintro ⟨l, hl, hp, rfl⟩
    have hblob := h l.blob
    rw [isLinked_iff.2 ⟨l, hl, rfl⟩] at hblob
    obtain ⟨b, hb, e⟩ := hasBlob_iff.1 hblob
    exact ⟨b, mem_blobs_dropLinks.2 ⟨hb, fun _ => ⟨l, hl, hp, e.symm⟩⟩, e⟩

/-- No blob is new after a removal of links. -/
lemma hasBlob_of_dropLinks {p : Link → Bool} (h : (t.dropLinks p).hasBlob blob = true) :
    t.hasBlob blob = true := by
  obtain ⟨b, hb, e⟩ := hasBlob_iff.1 h
  exact hasBlob_iff.2 ⟨b, (mem_blobs_dropLinks.1 hb).1, e⟩

/-- A blob that no removed link refers to stays as it was. -/
lemma Counted.hasBlob_dropLinks (h : t.Counted) (blob : BlobId) {p : Link → Bool}
    (hp : ∀ l ∈ t.links, p l = true → l.blob ≠ blob) :
    (t.dropLinks p).hasBlob blob = t.hasBlob blob := by
  rw [h.dropLinks p blob, h blob, Bool.eq_iff_iff, isLinked_dropLinks, isLinked_iff]
  constructor
  · rintro ⟨l, hl, -, e⟩
    exact ⟨l, hl, e⟩
  · rintro ⟨l, hl, e⟩
    exact ⟨l, hl, by simpa using fun hpl => hp l hl hpl e, e⟩

/-- A blob whose links to one node are removed stays exactly if it is linked elsewhere. -/
lemma Counted.hasBlob_dropLinks_of_node (h : t.Counted) (node : NodeId) {p : Link → Bool}
    (hp : ∀ l ∈ t.links, l.blob = blob → (p l = true ↔ l.node = node)) :
    (t.dropLinks p).hasBlob blob = t.isLinkedElsewhere node blob := by
  rw [h.dropLinks p blob, Bool.eq_iff_iff, isLinked_dropLinks]
  simp only [isLinkedElsewhere, List.any_eq_true, Bool.and_eq_true, beq_iff_eq, bne_iff_ne]
  constructor
  · rintro ⟨l, hl, hpl, e⟩
    exact ⟨l, hl, e, fun hn => by simp [(hp l hl e).2 hn] at hpl⟩
  · rintro ⟨l, hl, e, hn⟩
    exact ⟨l, hl, by simpa using mt (hp l hl e).1 hn, e⟩

/-! ## Linking -/

/-- Versions are made of blobs. -/
lemma hasBlob_of_mem_versionsOf {owner : OwnerId} {node : NodeId} {v : Version}
    (hv : v ∈ t.versionsOf owner node) : t.hasBlob v.blob = true := by
  simp only [versionsOf, versions, List.mem_filter, List.mem_flatMap, List.mem_map] at hv
  obtain ⟨⟨l, -, b, ⟨hb, -⟩, rfl⟩, -⟩ := hv
  exact hasBlob_iff.2 ⟨b, hb, rfl⟩

/-- The newest versions of a node are among its versions. -/
lemma mem_versionsOf_of_mem_newestVersions {owner : OwnerId} {node : NodeId} {limit : Nat}
    {v : Version} (hv : v ∈ t.newestVersions owner node limit) : v ∈ t.versionsOf owner node :=
  List.mem_mergeSort.1 (List.mem_of_mem_take hv)

/-- A blob that an owner has is there. -/
lemma hasBlob_of_ownsBlob {owner : OwnerId} (h : t.ownsBlob owner blob = true) :
    t.hasBlob blob = true := by
  obtain ⟨b, hb, e, -⟩ := ownsBlob_iff.1 h
  exact hasBlob_iff.2 ⟨b, hb, e⟩

namespace Counted

section Statements

variable (owner : OwnerId) (time : Instant)

/-- A new link refers to a blob that is there. -/
lemma link (h : t.Counted) (node : NodeId) (blob : BlobId) :
    (t.link time owner node blob).2.Counted := by
  rcases link_cases owner time node blob t with e | ⟨hb, -, -, e⟩ <;> rw [e]
  · exact h
  · exact h.consLink (hasBlob_of_ownsBlob hb)

/-- **A new version** is refused without a trace, or its blob is new and linked at once: no link
to a blob can be there before the blob. -/
lemma addVersion_eq (h : t.Counted) (uploaded : Instant) (node : NodeId) (blob : BlobId)
    (info : BlobInfo) :
    (∃ e, e ≠ .insertFailure "link" ∧
      t.addVersion uploaded time owner node blob info = (.error e, t)) ∨
      t.hasKind owner node .file = true ∧ 0 ≤ info.size ∧ t.hasBlob blob = false ∧
        t.addVersion uploaded time owner node blob info =
          (.ok ⟨node, blob, info.checksum, info.size, owner, uploaded, time⟩,
            { t with
              blobs := ⟨blob, info.checksum, info.size, owner, uploaded⟩ :: t.blobs
              links := ⟨node, blob, time⟩ :: t.links }) := by
  rcases addVersion_cases owner time node blob t uploaded info with he | ⟨hk, hs, hb, e⟩
  · exact .inl he
  refine .inr ⟨hk, hs, hb, ?_⟩
  have hfree : t.hasLink node blob = false := by
    have hl := h blob
    rw [hb] at hl
    simp only [isLinked, eq_comm (a := false), List.any_eq_false, beq_iff_eq] at hl
    simp only [hasLink, List.any_eq_false, Bool.and_eq_true, beq_iff_eq, not_and]
    exact fun l hmem _ => hl l hmem
  have hk' : Tables.hasKind { t with blobs := ⟨blob, info.checksum, info.size, owner, uploaded⟩ ::
      t.blobs } owner node .file = true := hk
  have hfree' : Tables.hasLink { t with
      blobs := ⟨blob, info.checksum, info.size, owner, uploaded⟩ :: t.blobs } node blob = false :=
    hfree
  rw [e]
  simp [Tables.link, ownsBlob, hk', insertLink, hfree']

/-- A new version brings its blob and the link to it. -/
lemma addVersion (h : t.Counted) (uploaded : Instant) (node : NodeId) (blob : BlobId)
    (info : BlobInfo) : (t.addVersion uploaded time owner node blob info).2.Counted := by
  rcases h.addVersion_eq owner time uploaded node blob info with ⟨_, -, e⟩ | ⟨-, -, -, e⟩ <;> rw [e]
  · exact h
  · intro c
    by_cases ec : blob = c
    · simp [hasBlob, isLinked, ec]
    · simpa [hasBlob, isLinked, beq_false_of_ne ec] using h c

/-- Links to the newest version refer to a blob that is there. -/
lemma linkNewest (h : t.Counted) (source target : NodeId) :
    (t.linkNewest time owner source target).2.Counted := by
  rcases linkNewest_cases owner time source target t with e | ⟨-, e⟩
  · rw [e]
    exact h
  · refine h.insertLinks (fun l hl => ?_) e
    obtain ⟨v, hv, rfl⟩ := List.mem_map.1 hl
    exact hasBlob_of_mem_versionsOf (mem_versionsOf_of_mem_newestVersions hv)

/-- Links to all versions refer to blobs that are there. -/
lemma linkAll (h : t.Counted) (source target : NodeId) :
    (t.linkAll time owner source target).2.Counted := by
  rcases linkAll_cases owner time source target t with e | ⟨-, e⟩
  · rw [e]
    exact h
  · refine h.insertLinks (fun l hl => ?_) e
    obtain ⟨v, hv, rfl⟩ := List.mem_map.1 hl
    exact hasBlob_of_mem_versionsOf hv

/-- A blob leaves with the last link to it. -/
lemma unlink (h : t.Counted) (node : NodeId) (blob : BlobId) :
    (t.unlink owner node blob).2.Counted := by
  rcases unlink_cases owner node blob t with e | ⟨-, -, e⟩ <;> rw [e]
  · exact h
  · exact h.dropLinks _

/-- Blobs leave with the last links to them, when all links of a node do. -/
lemma unlinkAll (h : t.Counted) (node : NodeId) : (t.unlinkAll owner node).2.Counted :=
  h.dropLinks _

/-- The ledger has no part in the count of blobs. -/
lemma queueDeletes (h : t.Counted) (blobs : List BlobId) :
    (t.queueDeletes time owner blobs).Counted := by
  rw [queueDeletes_frame]
  exact h.of_eq rfl rfl

end Statements

/-- **Every statement keeps the blobs counted.** Statements on nodes and on the ledger change
neither blobs nor links. -/
theorem run (h : t.Counted) (fresh : Fresh) (owner : OwnerId) (s : Statement) :
    (s.run fresh owner t).2.Counted := by
  cases hs : s.isOnNodes with
  | true =>
    rw [Statement.run_of_isOnNodes hs]
    exact h.withNodes
  | false =>
    cases s with
    | addVersion node blob info => exact h.addVersion owner _ _ node _ info
    | link node blob => exact h.link owner _ node blob
    | unlink node blob => exact h.unlink owner node blob
    | unlinkAll node => exact h.unlinkAll owner node
    | linkNewest source target => exact h.linkNewest owner _ source target
    | linkAll source target => exact h.linkAll owner _ source target
    | queueDeletes blobs => exact h.queueDeletes owner _ blobs
    | clearDeletes blobs => exact h.of_eq rfl rfl
    | createNode | moveFile | moveDirectory | copyFile | copyDirectory | removeLeaf
    | removeSubtree => cases hs
    | _ => exact h

/-- Statements one after the other keep the blobs counted. -/
lemma runAll (h : t.Counted) (calls : List (Fresh × OwnerId × Statement)) :
    (Statement.runAll calls t).Counted := by
  induction calls generalizing t with
  | nil => exact h
  | cons call rest ih => exact ih (h.run _ _ _)

end Counted

/-! ## Orphaned blobs -/

/-- The blobs that removed links report as orphaned. -/
def orphans (us : List Unlinked) : List BlobId := (us.filter Unlinked.orphaned).map Unlinked.blob

namespace Counted

variable {owner : OwnerId} {node : NodeId}

/-- The links that leave with a node, for a blob of the owner. -/
lemma hasBlob_unlinkAll (h : t.Counted) (ho : t.ownsBlob owner blob = true) :
    (t.unlinkAll owner node).2.hasBlob blob = t.isLinkedElsewhere node blob :=
  h.hasBlob_dropLinks_of_node node fun l _ e => by simp [e, ho]

/-- A link removed with all links of a node is reported as orphaned exactly if its blob is gone. -/
lemma orphaned_unlinkAll (h : t.Counted) {u : Unlinked} (hu : u ∈ (t.unlinkAll owner node).1) :
    u.orphaned = true ↔ (t.unlinkAll owner node).2.hasBlob u.blob = false := by
  simp only [Tables.unlinkAll, List.mem_map, List.mem_filter, Bool.and_eq_true] at hu
  obtain ⟨l, ⟨-, -, ho⟩, rfl⟩ := hu
  rw [h.hasBlob_unlinkAll ho]
  simp

/-- A single removed link is reported as orphaned exactly if its blob is gone. -/
lemma orphaned_unlink (h : t.Counted) {u : Unlinked} (hu : u ∈ (t.unlink owner node blob).1) :
    u.orphaned = true ↔ (t.unlink owner node blob).2.hasBlob u.blob = false := by
  rcases unlink_cases owner node blob t with e | ⟨-, -, e⟩ <;> rw [e] at hu ⊢
  · cases hu
  · obtain rfl := Option.mem_some.1 hu
    rw [h.hasBlob_dropLinks_of_node node fun l _ e => by simp [e]]
    simp

/-- The blobs reported with all links of a node are those that go. -/
lemma mem_orphans_unlinkAll (h : t.Counted) :
    blob ∈ orphans (t.unlinkAll owner node).1 ↔
      t.hasBlob blob = true ∧ (t.unlinkAll owner node).2.hasBlob blob = false := by
  simp only [orphans, List.mem_map, List.mem_filter]
  constructor
  · rintro ⟨u, ⟨hu, ho⟩, rfl⟩
    refine ⟨?_, (h.orphaned_unlinkAll hu).1 ho⟩
    simp only [Tables.unlinkAll, List.mem_map, List.mem_filter, Bool.and_eq_true] at hu
    obtain ⟨l, ⟨-, -, hown⟩, rfl⟩ := hu
    exact hasBlob_of_ownsBlob hown
  · rintro ⟨hb, hgone⟩
    by_cases hl : ∃ l ∈ t.links, (l.node == node && t.ownsBlob owner l.blob) = true ∧
        l.blob = blob
    · obtain ⟨l, hl, hp, rfl⟩ := hl
      have hu : ⟨l.blob, !t.isLinkedElsewhere node l.blob⟩ ∈ (t.unlinkAll owner node).1 :=
        List.mem_map.2 ⟨l, List.mem_filter.2 ⟨hl, hp⟩, rfl⟩
      exact ⟨_, ⟨hu, (h.orphaned_unlinkAll hu).2 hgone⟩, rfl⟩
    · -- no link to the blob leaves, so it cannot go
      have hstay := h.hasBlob_dropLinks blob
        (p := fun l => l.node == node && t.ownsBlob owner l.blob)
        fun l hmem hp e => hl ⟨l, hmem, hp, e⟩
      exact absurd (hstay.trans hb) (by simpa [Tables.unlinkAll] using hgone)

/-- The links of one node lead to different blobs. -/
lemma nodup_orphans_unlinkAll (hk : t.Keyed) : (orphans (t.unlinkAll owner node).1).Nodup := by
  have hsub : (orphans (t.unlinkAll owner node).1).Sublist
      ((t.links.filter fun l => l.node == node && t.ownsBlob owner l.blob).map Link.blob) := by
    refine (List.filter_sublist.map Unlinked.blob).trans ?_
    rw [Tables.unlinkAll, List.map_map]
    exact List.Sublist.refl _
  refine List.Nodup.sublist hsub (List.Nodup.map_on ?_ (hk.links.of_map.filter _))
  intro l hl m hm e
  simp only [List.mem_filter, Bool.and_eq_true, beq_iff_eq] at hl hm
  refine List.inj_on_of_nodup_map hk.links hl.1 hm.1 ?_
  simp only [Link.key, hl.2.1, hm.2.1, e]

/-- The blob reported with a single link is the one that goes, if one goes. -/
lemma mem_orphans_unlink (h : t.Counted) {c : BlobId} :
    c ∈ orphans (t.unlink owner node blob).1.toList ↔
      t.hasBlob c = true ∧ (t.unlink owner node blob).2.hasBlob c = false := by
  rcases unlink_cases owner node blob t with e | ⟨-, ho, e⟩
  · simp [e, orphans]
  · rw [e]
    have hb := hasBlob_of_ownsBlob ho
    have hstay : (t.dropLinks fun l => l.node == node && l.blob == blob).hasBlob blob =
        t.isLinkedElsewhere node blob :=
      h.hasBlob_dropLinks_of_node node fun l _ e => by simp [e]
    by_cases hc : c = blob
    · subst hc
      rw [hstay]
      cases hl : t.isLinkedElsewhere node c <;> simp [orphans, hb]
    · have hkeep := h.hasBlob_dropLinks c
        (p := fun l => l.node == node && l.blob == blob) fun l _ hp ec => hc (by
          simp only [Bool.and_eq_true, beq_iff_eq] at hp
          rw [← ec, hp.2])
      rw [hkeep]
      cases hl : t.isLinkedElsewhere node blob <;> simp [orphans, hc]

/-- A blob is not reported twice when one link is removed. -/
lemma nodup_orphans_unlink : (orphans (t.unlink owner node blob).1.toList).Nodup := by
  cases (t.unlink owner node blob).1 with
  | none => exact List.nodup_nil
  | some u =>
    exact ((List.nodup_singleton u.blob).sublist
      ((List.filter_sublist (l := [u])).map Unlinked.blob))

/-- The removal of a link brings no blob. -/
lemma hasBlob_of_unlink {c : BlobId} (h : (t.unlink owner node blob).2.hasBlob c = true) :
    t.hasBlob c = true := by
  rcases unlink_cases owner node blob t with e | ⟨-, -, e⟩ <;> rw [e] at h
  · exact h
  · exact hasBlob_of_dropLinks h

end Counted

end Tables

/-! ## New and orphaned blobs over a run -/

namespace Statement

variable {t : Tables} {blob : BlobId}

/-- The blobs that a statement reports as new. -/
def inserted (s : Statement) (r : Except ArchiveError Answer) : List BlobId :=
  match s, r with
  | addVersion .., .ok (.version (some v)) => [v.blob]
  | _, _ => []

/-- The blobs that a statement reports as orphaned. -/
def orphaned : Except ArchiveError Answer → List BlobId
  | .ok (.unlinked u) => Tables.orphans u.toList
  | .ok (.allUnlinked us) => Tables.orphans us
  | _ => []

/-- The blobs that the statements of a run report as new. -/
def insertions : List (Fresh × OwnerId × Statement) → Tables → List BlobId
  | [], _ => []
  | (fresh, owner, s) :: rest, t =>
    s.inserted (s.run fresh owner t).1 ++ insertions rest (s.run fresh owner t).2

/-- The blobs that the statements of a run report as orphaned. -/
def orphanings : List (Fresh × OwnerId × Statement) → Tables → List BlobId
  | [], _ => []
  | (fresh, owner, s) :: rest, t =>
    orphaned (s.run fresh owner t).1 ++ orphanings rest (s.run fresh owner t).2

/-- Different blobs, which are exactly those that go, are reported once each. -/
lemma count_of_gone {before after : Bool} {gone : List BlobId} (hn : gone.Nodup)
    (hmem : blob ∈ gone ↔ before = true ∧ after = false) (hle : after = true → before = true) :
    before.toNat = gone.count blob + after.toNat := by
  rw [hn.count]
  cases before <;> cases after <;> simp_all

/-- Answers that are not about removed links report nothing as orphaned. -/
lemma orphaned_answer {α : Type} {f : α → Answer} (hf : ∀ a, orphaned (.ok (f a)) = [])
    (r : Except ArchiveError α × Tables) : orphaned (answer f r).1 = [] := by
  obtain ⟨_ | a, t'⟩ := r
  · rfl
  · exact hf a

/-- **One statement**: a blob that is new or was there is orphaned or still there. -/
lemma balance_run (hc : t.Counted) (hk : t.Keyed) (fresh : Fresh) (owner : OwnerId)
    (s : Statement) (blob : BlobId) :
    (s.inserted (s.run fresh owner t).1).count blob + (t.hasBlob blob).toNat =
      (orphaned (s.run fresh owner t).1).count blob +
        ((s.run fresh owner t).2.hasBlob blob).toNat := by
  -- most statements report nothing, and keep the blobs
  have kept {r : Except ArchiveError Answer × Tables} (hi : s.inserted r.1 = [])
      (ho : orphaned r.1 = []) (hb : r.2.blobs = t.blobs) :
      (s.inserted r.1).count blob + (t.hasBlob blob).toNat =
        (orphaned r.1).count blob + (r.2.hasBlob blob).toNat := by
    rw [hi, ho, Tables.hasBlob, Tables.hasBlob, hb]
  cases s with
  | createNode | moveDirectory | copyFile | copyDirectory =>
    exact kept rfl (orphaned_answer (fun _ => rfl) _) (Tables.blobs_of_nodes (run_of_isOnNodes rfl))
  | moveFile | removeLeaf | removeSubtree =>
    exact kept rfl rfl (Tables.blobs_of_nodes (run_of_isOnNodes rfl))
  | addVersion node id info =>
    simp only [run, answer]
    rcases hc.addVersion_eq owner (fresh.now 1) (fresh.now 0) node (id.getD fresh.blobId) info
      with ⟨_, -, e⟩ | ⟨-, -, hb, e⟩ <;> rw [e]
    · rfl
    · by_cases eb : id.getD fresh.blobId = blob
      · subst eb
        rw [hb]
        simp [inserted, orphaned, Except.map, Tables.hasBlob]
      · simp [inserted, orphaned, Except.map, Tables.hasBlob, beq_false_of_ne eb, eb]
  | unlink node id =>
    simp only [run, answered, inserted, orphaned, List.count_nil, Nat.zero_add]
    exact count_of_gone Tables.Counted.nodup_orphans_unlink hc.mem_orphans_unlink
      Tables.Counted.hasBlob_of_unlink
  | unlinkAll node =>
    simp only [run, answered, inserted, orphaned, List.count_nil, Nat.zero_add]
    exact count_of_gone (Tables.Counted.nodup_orphans_unlinkAll hk) hc.mem_orphans_unlinkAll
      Tables.hasBlob_of_dropLinks
  | linkNewest source target =>
    exact kept rfl (orphaned_answer (fun _ => rfl) _)
      (Tables.blobs_of_links (Tables.linkNewest_frame owner _ source target t))
  | linkAll source target =>
    exact kept rfl (orphaned_answer (fun _ => rfl) _)
      (Tables.blobs_of_links (Tables.linkAll_frame owner _ source target t))
  | link node id =>
    exact kept rfl rfl (Tables.blobs_of_links (Tables.link_frame owner _ node id t))
  | queueDeletes blobs =>
    exact kept rfl rfl (by rw [run, Tables.queueDeletes_frame])
  | nodeAt | nodeById | children => exact kept rfl (orphaned_answer (fun _ => rfl) _) rfl
  | _ => exact kept rfl rfl rfl

/-- **Blobs balance over a run**: those that came or were there have been reported as orphaned, or
are still there.

**Proof sketch.** Induction on the run, with the balance of one statement; counts of the reports
add up. -/
theorem balance (hc : t.Counted) (hk : t.Keyed) (calls : List (Fresh × OwnerId × Statement))
    (blob : BlobId) :
    (insertions calls t).count blob + (t.hasBlob blob).toNat =
      (orphanings calls t).count blob + ((runAll calls t).hasBlob blob).toNat := by
  induction calls generalizing t with
  | nil => rfl
  | cons call rest ih =>
    obtain ⟨fresh, owner, s⟩ := call
    have hone := balance_run hc hk fresh owner s blob
    have hrest := ih (hc.run fresh owner s) (hk.run fresh owner s)
    simp only [insertions, orphanings, runAll, List.count_append]
    omega

end Statement

/-! ## Sessions -/

/-- **References are exact in every state of a session**, inside and outside of its transactions.
A blob is there exactly if a link refers to it. A removed link is reported as orphaned exactly if
its blob is gone after the statement, and over every run of statements the reports balance with
the blobs that came. A new version never lacks its link. -/
theorem Session.references_exact (events : List Session.Event) :
    let t := (Session.empty.after events).now
    (∀ blob, (∃ b ∈ t.blobs, b.id = blob) ↔ ∃ l ∈ t.links, l.blob = blob) ∧
    (∀ owner node blob, ∀ u ∈ (t.unlink owner node blob).1,
      (u.orphaned = true ↔ ¬∃ b ∈ (t.unlink owner node blob).2.blobs, b.id = u.blob)) ∧
    (∀ owner node, ∀ u ∈ (t.unlinkAll owner node).1,
      (u.orphaned = true ↔ ¬∃ b ∈ (t.unlinkAll owner node).2.blobs, b.id = u.blob)) ∧
    (∀ calls blob,
      (Statement.insertions calls t).count blob + (t.hasBlob blob).toNat =
        (Statement.orphanings calls t).count blob +
          ((Statement.runAll calls t).hasBlob blob).toNat) ∧
    ∀ uploaded linked owner node blob info,
      (t.addVersion uploaded linked owner node blob info).1 ≠ .error (.insertFailure "link") := by
  intro t
  obtain ⟨hc, hk⟩ : t.Counted ∧ t.Keyed :=
    (invariant (P := fun t => t.Counted ∧ t.Keyed) ⟨.empty, .empty⟩
      fun fresh owner s _ t h => ⟨h.1.run fresh owner s, h.2.run fresh owner s⟩).2
  refine ⟨fun blob => ?_, fun owner node blob u hu => ?_, fun owner node u hu => ?_,
    Statement.balance hc hk, fun uploaded linked owner node blob info => ?_⟩
  · rw [← Tables.hasBlob_iff, ← Tables.isLinked_iff, hc blob]
  · rw [← Tables.hasBlob_iff, Bool.not_eq_true]
    exact hc.orphaned_unlink hu
  · rw [← Tables.hasBlob_iff, Bool.not_eq_true]
    exact hc.orphaned_unlinkAll hu
  · rcases hc.addVersion_eq owner linked uploaded node blob info with ⟨e, he, h⟩ | ⟨-, -, -, h⟩
    · rw [h]
      exact fun heq => he (by simpa using heq)
    · rw [h]
      simp

end VersionedTree
