import VersionedTree.Proofs.Order
import VersionedTree.Proofs.Tables.Linked

/-!
# The versions of a node, newest first

Listings go by the times of links first, and by the times of uploads among links of one time. A
full copy gives all its links one time and so forgets when the source was linked. Its order
survives as long as the two times never disagree: of two versions of a node, the one that was
uploaded later was not linked earlier. The clock of one process sees to it, as it never answers
twice the same and never goes back.

## Main definitions

* `VersionedTree.Instant.readings` — what the clock of a process answers.
* `VersionedTree.Version.Newer` — uploaded later, and not linked earlier.
* `VersionedTree.Tables.Listed` — the versions of a node in this order.

## Main results

* `VersionedTree.Instant.readings_pairwise` — a clock that is set back goes on all the same.
* `VersionedTree.Tables.mem_versions` — a version is a link together with its blob.
* `VersionedTree.Tables.Listed.history_eq` — every listing has this order.
* `VersionedTree.Tables.Listed.cons`, `VersionedTree.Tables.Listed.dropLinks`,
  `VersionedTree.Tables.Listed.relinked` — new versions, removed links, and copies.
-/

set_option autoImplicit false

namespace VersionedTree

/-! ## The clock of a process -/

namespace Instant

/-- Is this instant before that one? -/
def Before (a b : Instant) : Prop := a.micros < b.micros

instance : DecidableRel Before := fun a b => inferInstanceAs (Decidable (a.micros < b.micros))

/-- What the clock of a process answers, one reading after the other, while the wall clock shows
these microseconds. Every answer is at least one microsecond after the last one. -/
def readings : Int → List Int → List Instant
  | _, [] => []
  | last, wall :: walls => ⟨max wall (last + 1)⟩ :: readings (max wall (last + 1)) walls

/-- All answers are after the last one. -/
lemma lt_of_mem_readings {last : Int} {walls : List Int} {i : Instant}
    (h : i ∈ readings last walls) : last < i.micros := by
  induction walls generalizing last with
  | nil => cases h
  | cons wall walls ih =>
    have hlater : last < max wall (last + 1) := by omega
    rcases List.mem_cons.1 h with rfl | h
    · exact hlater
    · exact hlater.trans (ih h)

/-- **The clock of a process goes on**, also when the wall clock is set back. -/
theorem readings_pairwise (last : Int) (walls : List Int) :
    (readings last walls).Pairwise Before := by
  induction walls generalizing last with
  | nil => exact .nil
  | cons wall walls ih => exact .cons (fun _ hi => lt_of_mem_readings hi) (ih _)

end Instant

namespace Version

/-- The link of a version. -/
def toLink (v : Version) : Link := ⟨v.node, v.blob, v.linkedAt⟩

/-- The blob of a version. -/
def toBlob (v : Version) : Blob := ⟨v.blob, v.checksum, v.size, v.owner, v.uploadedAt⟩

/-- The version with its blob linked to another node. -/
def relinked (target : NodeId) (time : Instant) (v : Version) : Version :=
  { v with node := target, linkedAt := time }

/-! ## The order of listings -/

/-- The comparison of versions by three keys. -/
lemma order_eq : order = compareLex (compareOn fun v => v.linkedAt.micros)
    (compareLex (compareOn fun v => v.uploadedAt.micros)
      (compareOn fun v => v.blob.uuid.bits.val)) := rfl

instance : Std.TransCmp order := by
  rw [order_eq]
  infer_instance

/-- Was the version uploaded later than the other one, and not linked earlier? -/
structure Newer (v w : Version) : Prop where
  uploaded : w.uploadedAt.Before v.uploadedAt
  linked : w.linkedAt.micros ≤ v.linkedAt.micros

namespace Newer

variable {v w : Version}

/-- The newer version comes first in listings. -/
lemma order_eq_lt (h : Newer v w) : order w v = .lt := by
  have huploaded : w.uploadedAt.order v.uploadedAt = .lt := Int.compare_eq_lt.2 h.uploaded
  rcases Int.lt_or_eq_of_le h.linked with hlt | heq
  · have hlinked : w.linkedAt.order v.linkedAt = .lt := Int.compare_eq_lt.2 hlt
    simp [order, hlinked]
  · have hlinked : w.linkedAt.order v.linkedAt = .eq := Int.compare_eq_eq.2 heq
    simp [order, hlinked, huploaded]

/-- No version is newer than itself. -/
lemma ne (h : Newer v w) : v ≠ w := by
  rintro rfl
  exact absurd h.uploaded (Int.lt_irrefl _)

/-- Versions that are linked to another node at one time keep their order. -/
lemma relinked (h : Newer v w) (target : NodeId) (time : Instant) :
    Newer (v.relinked target time) (w.relinked target time) :=
  ⟨h.uploaded, Int.le_refl _⟩

end Newer

/-- **Sorting** restores the order of versions whose times agree. -/
lemma mergeSort_eq {vs ws : List Version} (hs : vs.Pairwise Newer) (hp : ws.Perm vs) :
    ws.mergeSort newestFirst = vs :=
  mergeSort_eq_of_perm (hs.imp Newer.order_eq_lt) hp

end Version

namespace Tables

variable {t t' : Tables} {owner : OwnerId} {node : NodeId} {v w : Version} {vs : List Version}

/-! ## Versions -/

/-- A version is a link together with its blob. -/
lemma mem_versions : v ∈ t.versions ↔ v.toLink ∈ t.links ∧ v.toBlob ∈ t.blobs := by
  simp only [versions, List.mem_flatMap, List.mem_map, List.mem_filter, beq_iff_eq]
  constructor
  · rintro ⟨l, hl, b, ⟨hb, hid⟩, rfl⟩
    have hlink : (Version.ofRows l b).toLink = l := by
      simp only [Version.ofRows, Version.toLink, hid]
    exact ⟨hlink ▸ hl, hb⟩
  · rintro ⟨hl, hb⟩
    exact ⟨v.toLink, hl, v.toBlob, ⟨hb, rfl⟩, rfl⟩

/-- The blobs of the versions of a node are those that it is linked to. -/
lemma Counted.exists_version_iff (h : t.Counted) {blob : BlobId} :
    (∃ v ∈ t.versions, v.node = node ∧ v.blob = blob) ↔
      ∃ l ∈ t.links, l.node = node ∧ l.blob = blob := by
  constructor
  · rintro ⟨v, hv, hnode, hblob⟩
    exact ⟨v.toLink, (mem_versions.1 hv).1, hnode, hblob⟩
  · rintro ⟨l, hl, hnode, hblob⟩
    have hthere := h l.blob
    rw [isLinked_iff.2 ⟨l, hl, rfl⟩] at hthere
    obtain ⟨b, hb, hlb⟩ := hasBlob_iff.1 hthere
    have hlink : (Version.ofRows l b).toLink = l := by rw [Version.toLink, Version.ofRows, hlb]
    exact ⟨Version.ofRows l b, mem_versions.2 ⟨hlink.symm ▸ hl, hb⟩, hnode, hlb.trans hblob⟩

/-- The versions of a node that an owner sees are those with this node and this owner. -/
lemma mem_versionsOf :
    v ∈ t.versionsOf owner node ↔ v ∈ t.versions ∧ v.node = node ∧ v.owner = owner := by
  simp [versionsOf]

/-- No version occurs twice. -/
lemma Keyed.nodup_versions (h : t.Keyed) : t.versions.Nodup := by
  refine List.nodup_flatMap.2 ⟨?_, ?_⟩
  · intro l _
    refine List.Nodup.map_on ?_ (h.blobs.of_map.filter _)
    intro b hb c hc e
    exact h.eq_of_blob (List.mem_filter.1 hb).1 (List.mem_filter.1 hc).1
      (congrArg Version.blob e)
  · refine (List.pairwise_map.1 h.links).imp ?_
    intro l k hne v hl hk
    obtain ⟨b, hb, rfl⟩ := List.mem_map.1 hl
    obtain ⟨c, hc, e⟩ := List.mem_map.1 hk
    have hbl : b.id = l.blob := by simpa using (List.mem_filter.1 hb).2
    have hck : c.id = k.blob := by simpa using (List.mem_filter.1 hc).2
    apply hne
    have hnode : k.node = l.node := congrArg Version.node e
    have hblob : c.id = b.id := congrArg Version.blob e
    rw [Link.key, Link.key, hnode, ← hbl, ← hck, hblob]

/-- One blob has one row. -/
lemma Keyed.toBlob_eq (h : t.Keyed) (hv : v ∈ t.versions) (hw : w.toBlob ∈ t.blobs)
    (e : v.blob = w.blob) : v.toBlob = w.toBlob :=
  h.eq_of_blob (mem_versions.1 hv).2 hw e

/-- The versions of a node have different blobs. -/
lemma Keyed.nodup_blobs_versionsOf (h : t.Keyed) (owner : OwnerId) (node : NodeId) :
    ((t.versionsOf owner node).map Version.blob).Nodup := by
  refine List.Nodup.map_on ?_ (h.nodup_versions.filter _)
  intro v hv w hw e
  obtain ⟨hv, hvn, -⟩ := mem_versionsOf.1 hv
  obtain ⟨hw, hwn, -⟩ := mem_versionsOf.1 hw
  have hlink : v.toLink = w.toLink := by
    refine List.inj_on_of_nodup_map h.links (mem_versions.1 hv).1 (mem_versions.1 hw).1 ?_
    exact Prod.ext (hvn.trans hwn.symm) e
  have hrow : v.toBlob = w.toBlob := h.toBlob_eq hv (mem_versions.1 hw).2 e
  calc v = Version.ofRows v.toLink v.toBlob := rfl
    _ = w := by rw [hlink, hrow]; rfl

/-- All versions of a file belong to its owner. -/
lemma Linked.mem_versionsOf (hl : t.Linked) (hk : t.Keyed)
    (hf : t.hasKind owner node .file = true) :
    v ∈ t.versionsOf owner node ↔ v ∈ t.versions ∧ v.node = node := by
  rw [Tables.mem_versionsOf, and_congr_right_iff]
  intro hv
  refine and_iff_left_of_imp ?_
  intro hn
  obtain ⟨hlink, hblob⟩ := mem_versions.1 hv
  obtain ⟨o, ho, hfile⟩ := hl _ hlink
  obtain ⟨b, hb, hid, hbo⟩ := ownsBlob_iff.1 ho
  obtain ⟨m, hm, hmid, hmo, -⟩ := hasKind_iff.1 hfile
  obtain ⟨n, hnmem, hnid, hno, -⟩ := hasKind_iff.1 hf
  have hrow : b = v.toBlob := hk.eq_of_blob hb hblob hid
  have hsame : m = n := hk.nodes.eq_of_id hm hnmem (hmid.trans (hn.trans hnid.symm))
  calc v.owner = b.owner := by rw [hrow]; rfl
    _ = m.owner := hbo.trans hmo.symm
    _ = owner := by rw [hsame, hno]

/-! ## Listings -/

/-- Are these all versions of the node, each of them newer than those that follow it? -/
structure Listed (t : Tables) (node : NodeId) (vs : List Version) : Prop where
  sorted : vs.Pairwise Version.Newer
  mem : ∀ v, v ∈ vs ↔ v ∈ t.versions ∧ v.node = node

namespace Listed

/-- The listing for an owner has the order of the versions. -/
lemma history_eq_filter (h : t.Listed node vs) (hk : t.Keyed) (owner : OwnerId) :
    t.history owner node = vs.filter fun v => v.owner == owner := by
  have hnodup : (t.versionsOf owner node).Nodup := hk.nodup_versions.filter _
  have hvs : vs.Nodup := h.sorted.imp Version.Newer.ne
  refine Version.mergeSort_eq (h.sorted.filter _)
    ((List.perm_ext_iff_of_nodup hnodup (hvs.filter _)).2 ?_)
  intro v
  rw [Tables.mem_versionsOf, List.mem_filter, h.mem, and_assoc, beq_iff_eq]

/-- **Every listing** of a file has the order of its versions. -/
theorem history_eq (h : t.Listed node vs) (hl : t.Linked) (hk : t.Keyed)
    (hf : t.hasKind owner node .file = true) : t.history owner node = vs := by
  rw [h.history_eq_filter hk, List.filter_eq_self]
  intro v hv
  have hmem := (hl.mem_versionsOf hk hf).2 ((h.mem v).1 hv)
  exact beq_iff_eq.2 (Tables.mem_versionsOf.1 hmem).2.2

/-- The count of a listing. -/
lemma countVersions_eq (h : t.Listed node vs) (hl : t.Linked) (hk : t.Keyed)
    (hf : t.hasKind owner node .file = true) : t.countVersions owner node = vs.length := by
  rw [← h.history_eq hl hk hf, history, List.length_mergeSort, countVersions]

/-- Only blobs and links matter. -/
lemma of_eq (h : t.Listed node vs) (hl : t'.links = t.links) (hb : t'.blobs = t.blobs) :
    t'.Listed node vs := by
  refine ⟨h.sorted, ?_⟩
  intro v
  rw [h.mem, mem_versions, mem_versions, hl, hb]

/-- A node without links has no version. -/
lemma nil (h : ∀ l ∈ t.links, l.node ≠ node) : t.Listed node [] := by
  refine ⟨.nil, ?_⟩
  intro v
  have hnone : ¬(v ∈ t.versions ∧ v.node = node) := by
    rintro ⟨hv, hn⟩
    exact h v.toLink (mem_versions.1 hv).1 hn
  simp [hnone]

/-- The blobs of a node differ from each other. -/
lemma nodup_blobs (h : t.Listed node vs) (hk : t.Keyed) : (vs.map Version.blob).Nodup := by
  rw [List.Nodup, List.pairwise_map]
  refine h.sorted.imp_of_mem ?_
  intro v w hv hw hnewer e
  have hrow := hk.toBlob_eq ((h.mem v).1 hv).1 (mem_versions.1 ((h.mem w).1 hw).1).2 e
  have huploaded : v.uploadedAt = w.uploadedAt := congrArg Blob.uploadedAt hrow
  have hlater := hnewer.uploaded
  rw [huploaded] at hlater
  exact absurd hlater (Int.lt_irrefl _)

/-! ### New versions -/

section NewVersion

variable {l : Link} {b : Blob}

/-- The versions after the insertion of a new blob with its first link. -/
lemma mem_versions_cons (hc : t.Counted) (hb : t.hasBlob b.id = false) (hlb : l.blob = b.id)
    (hls : t'.links = l :: t.links) (hbs : t'.blobs = b :: t.blobs) :
    v ∈ t'.versions ↔ v = Version.ofRows l b ∨ v ∈ t.versions := by
  have hrows : ∀ r ∈ t.blobs, r.id ≠ b.id := by
    intro r hr e
    rw [hasBlob_iff.2 ⟨r, hr, e⟩] at hb
    cases hb
  have hlinks : ∀ k ∈ t.links, k.blob ≠ b.id := by
    intro k hk e
    rw [hc b.id, isLinked_iff.2 ⟨k, hk, e⟩] at hb
    cases hb
  rw [mem_versions, mem_versions, hls, hbs, List.mem_cons, List.mem_cons]
  constructor
  · rintro ⟨hl | hl, hr | hr⟩
    · left
      rw [← hl, ← hr]
      rfl
    · have hid : v.toBlob.id = b.id := (congrArg Link.blob hl).trans hlb
      exact absurd hid (hrows _ hr)
    · exact absurd (congrArg Blob.id hr) (hlinks _ hl)
    · exact .inr ⟨hl, hr⟩
  · rintro (rfl | ⟨hl, hr⟩)
    · refine ⟨.inl ?_, .inl rfl⟩
      rw [Version.toLink, Version.ofRows, ← hlb]
    · exact ⟨.inr hl, .inr hr⟩

/-- **A new version** comes in front if all others were uploaded and linked before. -/
theorem cons (h : t.Listed l.node vs) (hc : t.Counted) (hb : t.hasBlob b.id = false)
    (hlb : l.blob = b.id) (hls : t'.links = l :: t.links) (hbs : t'.blobs = b :: t.blobs)
    (hu : ∀ v ∈ vs, v.uploadedAt.Before b.uploadedAt)
    (hk : ∀ v ∈ vs, v.linkedAt.Before l.linkedAt) :
    t'.Listed l.node (Version.ofRows l b :: vs) := by
  refine ⟨List.pairwise_cons.2 ⟨?_, h.sorted⟩, ?_⟩
  · intro v hv
    exact ⟨hu v hv, Int.le_of_lt (hk v hv)⟩
  · intro v
    rw [mem_versions_cons hc hb hlb hls hbs, List.mem_cons, h.mem, or_and_right]
    refine or_congr_left (and_iff_left_of_imp ?_).symm
    rintro rfl
    rfl

/-- Other nodes do not notice a new version. -/
lemma cons_of_ne (h : t.Listed node vs) (hc : t.Counted) (hb : t.hasBlob b.id = false)
    (hlb : l.blob = b.id) (hls : t'.links = l :: t.links) (hbs : t'.blobs = b :: t.blobs)
    (hn : node ≠ l.node) : t'.Listed node vs := by
  refine ⟨h.sorted, ?_⟩
  intro v
  rw [h.mem, mem_versions_cons hc hb hlb hls hbs, or_and_right]
  refine (or_iff_right ?_).symm
  rintro ⟨rfl, e⟩
  exact hn e.symm

end NewVersion

/-! ### Removed links -/

/-- A version stays if its link is not dropped. -/
lemma mem_versions_dropLinks {p : Link → Bool} :
    v ∈ (t.dropLinks p).versions ↔ v ∈ t.versions ∧ p v.toLink = false := by
  rw [mem_versions, mem_versions, mem_blobs_dropLinks, dropLinks_links, List.mem_filter,
    Bool.not_eq_true']
  constructor
  · rintro ⟨⟨hl, hp⟩, hb, -⟩
    exact ⟨⟨hl, hb⟩, hp⟩
  · rintro ⟨⟨hl, hb⟩, hp⟩
    exact ⟨⟨hl, hp⟩, hb, fun _ => ⟨v.toLink, hl, hp, rfl⟩⟩

/-- **Removed links** leave the other versions in their order. -/
theorem dropLinks (h : t.Listed node vs) {p : Link → Bool} {q : BlobId → Bool}
    (hp : ∀ l ∈ t.links, l.node = node → p l = q l.blob) :
    (t.dropLinks p).Listed node (vs.filter fun v => !q v.blob) := by
  refine ⟨h.sorted.filter _, ?_⟩
  intro v
  rw [List.mem_filter, h.mem, mem_versions_dropLinks, and_assoc, and_assoc, and_congr_right_iff]
  intro hv
  rw [and_comm (a := p v.toLink = false), and_congr_right_iff]
  intro hn
  rw [hp v.toLink (mem_versions.1 hv).1 hn, Bool.not_eq_true']
  rfl

/-- A node keeps its versions if none of its links is dropped. -/
lemma dropLinks_of_none (h : t.Listed node vs) {p : Link → Bool}
    (hp : ∀ l ∈ t.links, l.node = node → p l = false) : (t.dropLinks p).Listed node vs := by
  simpa using h.dropLinks (q := fun _ => false) hp

/-! ### Copies -/

section Copies

variable {target : NodeId} {time : Instant} {us ws : List Version}

/-- The versions of a copy are those of its source, with links of one time. -/
lemma mem_versions_relinked (hk : t.Keyed) (hw : ∀ v ∈ ws, v ∈ t.versions)
    (hnew : ∀ l ∈ t.links, l.node ≠ target)
    (hi : t.insertLinks (ws.map fun v => ⟨target, v.blob, time⟩) = .ok t') :
    v ∈ t'.versions ∧ v.node = target ↔ ∃ u ∈ ws, u.relinked target time = v := by
  obtain rfl := eq_of_insertLinks hi
  rw [mem_versions]
  simp only [List.mem_append, List.mem_reverse, List.mem_map]
  constructor
  · rintro ⟨⟨⟨u, hmem, e⟩ | hl, hb⟩, rfl⟩
    · have hblob : u.blob = v.blob := congrArg Link.blob e
      have hrow : u.toBlob = v.toBlob := hk.toBlob_eq (hw u hmem) hb hblob
      have htime : time = v.linkedAt := congrArg Link.linkedAt e
      refine ⟨u, hmem, ?_⟩
      calc u.relinked v.node time = Version.ofRows ⟨v.node, u.blob, time⟩ u.toBlob := rfl
        _ = v := by rw [hrow, htime]; rfl
    · exact absurd rfl (hnew _ hl)
  · rintro ⟨u, hmem, rfl⟩
    exact ⟨⟨.inl ⟨u, hmem, rfl⟩, (mem_versions.1 (hw u hmem)).2⟩, rfl⟩

/-- Other nodes keep their versions. -/
lemma mem_versions_of_ne (hi : t.insertLinks (ws.map fun v => ⟨target, v.blob, time⟩) = .ok t')
    (hn : v.node ≠ target) : v ∈ t'.versions ↔ v ∈ t.versions := by
  obtain rfl := eq_of_insertLinks hi
  rw [mem_versions, mem_versions]
  simp only [List.mem_append, List.mem_reverse, List.mem_map]
  have hold : ¬∃ u ∈ ws, (⟨target, u.blob, time⟩ : Link) = v.toLink := by
    rintro ⟨u, -, e⟩
    exact hn (congrArg Link.node e).symm
  rw [or_iff_right hold]

/-- **A copy** has the blobs of its source in the same order, though all its links are of one time:
the order goes by uploads. -/
theorem relinked (hk : t.Keyed) (hs : us.Pairwise Version.Newer) (hu : ∀ v ∈ us, v ∈ t.versions)
    (hw : ∀ v, v ∈ ws ↔ v ∈ us) (hnew : ∀ l ∈ t.links, l.node ≠ target)
    (hi : t.insertLinks (ws.map fun v => ⟨target, v.blob, time⟩) = .ok t') :
    t'.Listed target (us.map (Version.relinked target time)) := by
  refine ⟨List.pairwise_map.2 (hs.imp fun h => h.relinked target time), ?_⟩
  intro v
  have hversions : ∀ v ∈ ws, v ∈ t.versions := fun v hv => hu v ((hw v).1 hv)
  rw [mem_versions_relinked hk hversions hnew hi, List.mem_map]
  simp only [hw]

/-- Other nodes do not notice a copy. -/
lemma relinked_of_ne (h : t.Listed node vs) (hn : node ≠ target)
    (hi : t.insertLinks (ws.map fun v => ⟨target, v.blob, time⟩) = .ok t') :
    t'.Listed node vs := by
  refine ⟨h.sorted, ?_⟩
  intro v
  rw [h.mem, and_congr_left_iff]
  rintro rfl
  exact (mem_versions_of_ne hi hn).symm

end Copies

end Listed

end Tables

end VersionedTree
