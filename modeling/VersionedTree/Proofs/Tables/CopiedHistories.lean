import VersionedTree.Proofs.Archive.Histories
import VersionedTree.Proofs.Tables.Pages

/-!
# Histories of copies

A full copy gives all its links one time, so that its history goes by uploads. A copy of the newest
version takes the one that was linked last. The two agree with their source as long as what was
uploaded last was linked last, which is the case where links come with uploads, or from copies to
files without versions. A further link to a blob that is there can break it.

## Main definitions

* `VersionedTree.Version.uploadOrder`, `VersionedTree.Tables.uploads` — versions by their uploads.
* `VersionedTree.Tables.IsNewFile` — files without links.
* `VersionedTree.Session.keepsOrder` — events that leave all histories in the order of uploads.

## Main results

* `VersionedTree.Tables.RelinkedTo.history_eq` — the history of a copy.
* `VersionedTree.Tables.Keyed.history_linkCopies`,
  `VersionedTree.Tables.Sound.history_copyStatements` — the histories after full copies.
* `VersionedTree.Statement.follows_run`, `VersionedTree.Session.ordered_after` — histories in the
  order of uploads, statement by statement and in a session.
* `VersionedTree.Session.copied_histories` — both copies of a file, in every state of a session.
* `VersionedTree.Session.linked_again` — a file whose copies disagree.
-/

set_option autoImplicit false

namespace VersionedTree

namespace Version

variable {v w : Version}

/-! ## The order of uploads -/

/-- Versions are ordered by the time of their upload, then by their blob. -/
def uploadOrder (v w : Version) : Ordering :=
  (v.uploadedAt.order w.uploadedAt).then (v.blob.order w.blob)

/-- The comparison of versions by two keys. -/
lemma uploadOrder_eq : uploadOrder = compareLex (compareOn fun v => v.uploadedAt.micros)
    (compareOn fun v => v.blob.uuid.bits.val) := rfl

instance : Std.TransCmp uploadOrder := by
  rw [uploadOrder_eq]
  infer_instance

/-- Links of one time leave the order to uploads. -/
lemma order_relinked (target : NodeId) (time : Instant) :
    (v.relinked target time).order (w.relinked target time) = v.uploadOrder w := by
  have hsame : time.order time = .eq := Int.compare_eq_eq.2 rfl
  rw [order, relinked, relinked, hsame]
  rfl

/-- Versions that the order of uploads does not tell apart have one blob. -/
lemma blob_eq_of_uploadOrder (h : v.uploadOrder w = .eq) : v.blob = w.blob := by
  rw [← order_relinked v.node v.linkedAt] at h
  have hblob := blob_eq_of_order h
  exact hblob

/-- The newer version has the later upload. -/
lemma Newer.uploadOrder_eq_lt (h : Newer v w) : w.uploadOrder v = .lt := by
  have huploaded : w.uploadedAt.order v.uploadedAt = .lt := Int.compare_eq_lt.2 h.uploaded
  rw [uploadOrder, huploaded]
  rfl

end Version

namespace Tables

variable {t t' : Tables} {owner : OwnerId} {source target node : NodeId} {time : Instant}
  {v : Version} {vs us : List Version}

/-- The versions of a node by their uploads, the newest first. -/
def uploads (t : Tables) (owner : OwnerId) (node : NodeId) : List Version :=
  (t.versionsOf owner node).mergeSort fun v w => (w.uploadOrder v).isLE

/-- The history of a node and its uploads are the same versions in two orders. -/
lemma history_perm_uploads (t : Tables) (owner : OwnerId) (node : NodeId) :
    (t.history owner node).Perm (t.uploads owner node) :=
  (List.mergeSort_perm _ _).trans (List.mergeSort_perm _ _).symm

/-- The uploads of a node are its versions. -/
lemma mem_uploads : v ∈ t.uploads owner node ↔ v ∈ t.versionsOf owner node := List.mem_mergeSort

/-- Uploads descend strictly, as the versions of a node have different blobs. -/
lemma Keyed.uploads_sorted (h : t.Keyed) (owner : OwnerId) (node : NodeId) :
    (t.uploads owner node).Pairwise fun v w => w.uploadOrder v = .lt := by
  have hblobs := List.pairwise_map.1 (h.nodup_blobs_versionsOf owner node)
  refine pairwise_lt_mergeSort (hblobs.imp ?_)
  intro v w hne heq
  exact hne (Version.blob_eq_of_uploadOrder heq).symm

/-- A version is found by its blob. -/
lemma Keyed.version?_eq (h : t.Keyed) (hv : v ∈ t.versionsOf owner node) :
    t.version? owner node v.blob = some v := by
  refine find?_eq_some_of_unique hv (beq_self_eq_true _) ?_
  intro w hw e
  exact List.inj_on_of_nodup_map (h.nodup_blobs_versionsOf owner node) hw hv (beq_iff_eq.1 e)

/-- Versions of a node that have the same blobs are the same. -/
lemma Keyed.eq_of_map_blob (h : t.Keyed) (owner : OwnerId) (node : NodeId)
    (hvs : ∀ v ∈ vs, v ∈ t.versionsOf owner node) (hus : ∀ v ∈ us, v ∈ t.versionsOf owner node)
    (e : vs.map Version.blob = us.map Version.blob) : vs = us := by
  have hfound {ws : List Version} (hws : ∀ v ∈ ws, v ∈ t.versionsOf owner node) :
      (ws.map Version.blob).map (t.version? owner node) = ws.map some := by
    rw [List.map_map]
    exact List.map_congr_left fun v hv => h.version?_eq (hws v hv)
  have hsome : vs.map some = us.map some := by rw [← hfound hvs, e, hfound hus]
  exact List.map_injective_iff.2 (Option.some_injective Version) hsome

/-- Pages have the same blobs in both orders if the orders are the same. -/
lemma Keyed.pages_eq_iff (h : t.Keyed) (owner : OwnerId) (node : NodeId) :
    (∀ limit, ((t.uploads owner node).take limit).map Version.blob =
        ((t.history owner node).take limit).map Version.blob) ↔
      t.history owner node = t.uploads owner node := by
  constructor
  · intro e
    have hlength : (t.history owner node).length = (t.uploads owner node).length :=
      (t.history_perm_uploads owner node).length_eq
    have hblobs := e (t.history owner node).length
    rw [List.take_length, hlength, List.take_length] at hblobs
    exact (h.eq_of_map_blob owner node (fun v hv => mem_uploads.1 hv)
      (fun v hv => mem_history.1 hv) hblobs).symm
  · intro e limit
    rw [e]

/-- Both orders begin with one blob if its version was linked last and uploaded last. -/
lemma Keyed.newest_eq_iff (h : t.Keyed) (hsome : 0 < t.countVersions owner node) :
    ((t.uploads owner node).take 1).map Version.blob =
        ((t.history owner node).take 1).map Version.blob ↔
      ∃ v ∈ t.versionsOf owner node, ∀ w ∈ t.versionsOf owner node, w ≠ v →
        w.order v = .lt ∧ w.uploadOrder v = .lt := by
  have hlinked {v : Version} := head?_eq_some_iff_of_pairwise_lt (a := v)
    (h.history_sorted owner node)
  have huploaded {v : Version} := head?_eq_some_iff_of_pairwise_lt (a := v)
    (h.uploads_sorted owner node)
  simp only [mem_history] at hlinked
  simp only [mem_uploads] at huploaded
  constructor
  · intro e
    have hfirst : (t.uploads owner node).take 1 = (t.history owner node).take 1 :=
      h.eq_of_map_blob owner node (fun v hv => mem_uploads.1 (List.mem_of_mem_take hv))
        (fun v hv => mem_history.1 (List.mem_of_mem_take hv)) e
    have hhead : (t.uploads owner node).head? = (t.history owner node).head? := by
      simpa [List.head?_take] using congrArg List.head? hfirst
    obtain ⟨v, hv⟩ : ∃ v, (t.history owner node).head? = some v := by
      rw [← length_history] at hsome
      exact ⟨_, List.head?_eq_some_head (List.length_pos_iff.1 hsome)⟩
    obtain ⟨hmem, hlast⟩ := hlinked.1 hv
    have hlatest := (huploaded.1 (hhead.trans hv)).2
    exact ⟨v, hmem, fun w hw hne => ⟨hlast w hw hne, hlatest w hw hne⟩⟩
  · rintro ⟨v, hmem, hlast⟩
    rw [List.take_one, List.take_one, hlinked.2 ⟨hmem, fun w hw hne => (hlast w hw hne).1⟩,
      huploaded.2 ⟨hmem, fun w hw hne => (hlast w hw hne).2⟩]

/-! ## Copies -/

/-- A file of the owner without links. -/
structure IsNewFile (owner : OwnerId) (node : NodeId) (t : Tables) : Prop where
  isFile : t.hasKind owner node .file = true
  unlinked : ∀ l ∈ t.links, l.node ≠ node

/-- The tables after versions of an owner have been linked to a node at one time. -/
structure RelinkedTo (owner : OwnerId) (vs : List Version) (target : NodeId) (time : Instant)
    (t t' : Tables) : Prop where
  keyed : t'.Keyed
  nodes : t'.nodes = t.nodes
  links : ∀ l ∈ t'.links, l.node = target ∨ l ∈ t.links
  versions : ∀ v, v ∈ t'.versionsOf owner target ↔ ∃ u ∈ vs, u.relinked target time = v
  others : ∀ node, node ≠ target → t'.versionsOf owner node = t.versionsOf owner node

/-- Links to a new file, all of one time, from versions of an owner. -/
lemma Keyed.relinkedTo (h : t.Keyed) (hunlinked : ∀ l ∈ t.links, l.node ≠ target)
    (hvs : ∀ v ∈ vs, v ∈ t.versionsOf owner source)
    (hi : t.insertLinks (vs.map fun v => ⟨target, v.blob, time⟩) = .ok t') :
    RelinkedTo owner vs target time t t' := by
  refine ⟨h.insertLinks hi, ?_, ?_, ?_, ?_⟩
  · rw [eq_of_insertLinks hi]
  · rw [eq_of_insertLinks hi]
    intro l hl
    rcases List.mem_append.1 hl with hl | hl
    · obtain ⟨v, -, rfl⟩ := List.mem_map.1 (List.mem_reverse.1 hl)
      exact .inl rfl
    · exact .inr hl
  · intro v
    have hversions : ∀ v ∈ vs, v ∈ t.versions := fun v hv => (mem_versionsOf.1 (hvs v hv)).1
    rw [← Listed.mem_versions_relinked h hversions hunlinked hi, mem_versionsOf, ← and_assoc,
      and_iff_left_iff_imp, Listed.mem_versions_relinked h hversions hunlinked hi]
    rintro ⟨u, hu, rfl⟩
    exact (mem_versionsOf.1 (hvs u hu)).2.2
  · intro node hne
    exact versionsOf_of_insertLinks owner hi hne

/-- **Versions are linked to a new file**, and nothing is in the way. -/
theorem Keyed.linkVersions_relinkedTo (h : t.Keyed) (hnew : t.IsNewFile owner target)
    (hvs : ∀ v ∈ vs, v ∈ t.versionsOf owner source) (hblobs : (vs.map Version.blob).Nodup)
    (time : Instant) :
    ∃ t', t.linkVersions time target vs = (.ok vs.length, t') ∧
      RelinkedTo owner vs target time t t' := by
  have hi := insertLinks_to_new h time hblobs hnew.unlinked
  refine ⟨_, ?_, h.relinkedTo hnew.unlinked hvs hi⟩
  rw [linkVersions, hi]

namespace RelinkedTo

/-- **The history of a copy** goes by uploads, as its links are of one time. -/
theorem history_eq (h : RelinkedTo owner vs target time t t')
    (hsorted : us.Pairwise fun v w => w.uploadOrder v = .lt) (hus : ∀ v, v ∈ us ↔ v ∈ vs) :
    t'.history owner target = us.map (Version.relinked target time) := by
  have hcopied : (us.map (Version.relinked target time)).Pairwise fun v w => w.order v = .lt := by
    rw [List.pairwise_map]
    refine hsorted.imp ?_
    intro v w hlt
    rwa [Version.order_relinked]
  refine (h.keyed.history_sorted owner target).eq_of_mem_iff hcopied ?_
  intro v
  rw [mem_history, h.versions, List.mem_map]
  simp only [hus]

/-- Other histories stay as they are. -/
lemma history_of_ne (h : RelinkedTo owner vs target time t t') (hne : node ≠ target) :
    t'.history owner node = t.history owner node := by
  rw [history, h.others node hne, history]

/-- Another new file is still one. -/
lemma isNewFile (h : RelinkedTo owner vs target time t t') (hnew : t.IsNewFile owner node)
    (hne : node ≠ target) : t'.IsNewFile owner node := by
  refine ⟨?_, ?_⟩
  · rw [hasKind, h.nodes]
    exact hnew.isFile
  · intro l hl e
    rcases h.links l hl with hl | hl
    · exact hne (e.symm.trans hl)
    · exact hnew.unlinked l hl e

end RelinkedTo

/-- **A full copy** to a new file. -/
theorem Keyed.linkAll_relinkedTo (h : t.Keyed) (hnew : t.IsNewFile owner target)
    (source : NodeId) (time : Instant) :
    ∃ t', t.linkAll time owner source target = (.ok (t.countVersions owner source), t') ∧
      RelinkedTo owner (t.versionsOf owner source) target time t t' := by
  rw [Tables.linkAll, if_pos hnew.isFile]
  exact h.linkVersions_relinkedTo hnew (fun v hv => hv) (h.nodup_blobs_versionsOf owner source) time

/-- **A copy of the newest version** to a new file. -/
theorem Keyed.linkNewest_relinkedTo (h : t.Keyed) (hnew : t.IsNewFile owner target)
    {newest : Version} {rest : List Version} (hsource : t.history owner source = newest :: rest)
    (time : Instant) :
    ∃ t', t.linkNewest time owner source target = (.ok 1, t') ∧
      RelinkedTo owner [newest] target time t t' := by
  have hmem : ∀ v ∈ [newest], v ∈ t.versionsOf owner source := by
    intro v hv
    obtain rfl := List.mem_singleton.1 hv
    exact mem_history.1 (hsource ▸ List.mem_cons_self)
  have hpage : t.newestVersions owner source 1 = [newest] := by
    rw [newestVersions, hsource, List.take_succ_cons, List.take_zero]
  rw [Tables.linkNewest, if_pos hnew.isFile, hpage]
  exact h.linkVersions_relinkedTo hnew hmem (List.nodup_singleton _) time

/-- **Both copies** of a file, one after the other: its history stays, that of the full copy goes by
uploads, and that of the other one is its first version. -/
theorem Keyed.history_copies (h : t.Keyed) {x y : NodeId}
    (hsome : 0 < t.countVersions owner source) (hx : t.IsNewFile owner x)
    (hy : t.IsNewFile owner y) (hne : x ≠ y) (time time' : Instant) :
    let full := t.linkAll time owner source x
    let single := full.2.linkNewest time' owner source y
    full.1 = .ok (t.countVersions owner source) ∧ single.1 = .ok 1 ∧
      single.2.history owner source = t.history owner source ∧
      single.2.history owner x = (t.uploads owner source).map (Version.relinked x time) ∧
      single.2.history owner y =
        ((t.history owner source).take 1).map (Version.relinked y time') := by
  intro full single
  have hapart {target : NodeId} (hnew : t.IsNewFile owner target) : source ≠ target := by
    obtain ⟨v, hv⟩ := List.exists_mem_of_length_pos hsome
    obtain ⟨hmem, rfl, -⟩ := mem_versionsOf.1 hv
    exact hnew.unlinked _ (mem_versions.1 hmem).1
  obtain ⟨t₁, hfull, hcopied⟩ := h.linkAll_relinkedTo hx source time
  have hsource : t₁.history owner source = t.history owner source :=
    hcopied.history_of_ne (hapart hx)
  obtain ⟨newest, rest, hhistory⟩ : ∃ newest rest, t.history owner source = newest :: rest := by
    refine List.exists_cons_of_ne_nil (List.length_pos_iff.1 ?_)
    rwa [length_history]
  obtain ⟨t₂, hsingle, hcopied'⟩ := hcopied.keyed.linkNewest_relinkedTo
    (hcopied.isNewFile hy hne.symm) (hsource.trans hhistory) time'
  have hleft : single = (.ok 1, t₂) := by
    rw [← hsingle]
    exact congrArg (fun r => Tables.linkNewest time' owner source y r.2) hfull
  rw [hleft, show full = _ from hfull]
  refine ⟨rfl, rfl, ?_, ?_, ?_⟩
  · rw [hcopied'.history_of_ne (hapart hy), hsource]
  · rw [hcopied'.history_of_ne hne]
    exact hcopied.history_eq (h.uploads_sorted owner source) fun v => mem_uploads
  · rw [hhistory]
    exact hcopied'.history_eq (List.pairwise_singleton _ _) fun v => Iff.rfl

/-! ### Copies of an operation -/

section LinkCopies

variable {env : Env}

/-- Links of another node leave a history alone, whoever asks for it. -/
lemma history_of_insertLinks
    (hi : t.insertLinks (vs.map fun v => ⟨target, v.blob, time⟩) = .ok t') (hne : node ≠ target)
    (owner : OwnerId) : t'.history owner node = t.history owner node := by
  rw [history, versionsOf_of_insertLinks owner hi hne, history]

/-- They leave the order of uploads alone as well. -/
lemma uploads_of_insertLinks
    (hi : t.insertLinks (vs.map fun v => ⟨target, v.blob, time⟩) = .ok t') (hne : node ≠ target)
    (owner : OwnerId) : t'.uploads owner node = t.uploads owner node := by
  rw [uploads, versionsOf_of_insertLinks owner hi hne, uploads]

/-- **Full copies of files**, linked one after the other. Every copy has the blobs of its source in
the order of their uploads, and all other nodes keep their histories.

**Proof sketch.** Induction on the copies. The links of the first copy are of one time, which leaves
the order to uploads. They leave the sources of the other copies alone, and the links of these leave
the first copy alone. -/
theorem Keyed.history_linkCopies (h : t.Keyed) {k : Nat} {copies : List CopiedNode}
    (hnew : ∀ c ∈ copies, ∀ l ∈ t.links, l.node ≠ c.destination)
    (hnodup : (copies.map CopiedNode.destination).Nodup)
    (hapart : ∀ c ∈ copies, ∀ d ∈ copies, d.source ≠ c.destination)
    (e : Archive.linkCopies env owner false k copies t = (.ok (), t')) :
    (∀ c ∈ copies, (t'.history owner c.destination).map Version.blob =
        (t.uploads owner c.source).map Version.blob) ∧
      ∀ node, (∀ c ∈ copies, node ≠ c.destination) →
        ∀ reader, t'.history reader node = t.history reader node := by
  induction copies generalizing k t with
  | nil =>
    obtain rfl := (Prod.mk.inj e).2
    exact ⟨List.forall_mem_nil _, fun _ _ _ => rfl⟩
  | cons c rest ih =>
    rw [List.forall_mem_cons] at hnew
    rw [List.map_cons, List.nodup_cons] at hnodup
    obtain ⟨t₁, hi, -, hrest⟩ := linkCopies_cons e
    have hi : t.insertLinks ((t.versionsOf owner c.source).map fun v =>
        ⟨c.destination, v.blob, env.now k⟩) = .ok t₁ := hi
    have hcopied := h.relinkedTo hnew.1 (fun v hv => hv) hi
    have hother : ∀ d ∈ rest, c.destination ≠ d.destination :=
      fun d hd heq => hnodup.1 (heq ▸ List.mem_map_of_mem hd)
    have hnew₁ : ∀ d ∈ rest, ∀ l ∈ t₁.links, l.node ≠ d.destination := by
      intro d hd l hl
      rcases hcopied.links l hl with hl | hl
      · rw [hl]
        exact hother d hd
      · exact hnew.2 d hd l hl
    obtain ⟨hcopies, hkept⟩ := ih hcopied.keyed hnew₁ hnodup.2 (fun d hd d' hd' =>
      hapart d (List.mem_cons_of_mem _ hd) d' (List.mem_cons_of_mem _ hd')) hrest
    refine ⟨List.forall_mem_cons.2 ⟨?_, ?_⟩, ?_⟩
    · rw [hkept _ hother, hcopied.history_eq (h.uploads_sorted owner c.source)
        fun v => mem_uploads, List.map_map]
      rfl
    · intro d hd
      rw [hcopies d hd, uploads_of_insertLinks hi
        (hapart c List.mem_cons_self d (List.mem_cons_of_mem _ hd))]
    · intro node hout reader
      rw [hkept node (fun d hd => hout d (List.mem_cons_of_mem _ hd)),
        history_of_insertLinks hi (hout c List.mem_cons_self)]

/-- **The histories after a full copy.** Copies of files have the blobs of their sources in the
order of uploads, and the nodes that were there keep their histories. -/
theorem Sound.history_copyStatements (hs : t.Sound) {n : Node} {target : Path}
    {copies : List CopiedNode}
    (e : Archive.copyStatements env owner n target false t = (.ok copies, t')) :
    (∀ c ∈ copies, c.kind = .file → (t'.history owner c.destination).map Version.blob =
        (t.uploads owner c.source).map Version.blob) ∧
      ∀ m ∈ t.nodes, ∀ reader, t'.history reader m.id = t.history reader m.id := by
  obtain ⟨-, t₁, hcopy, hlink⟩ := copyStatements_steps e
  have hcopied := copyNodes_ok hcopy
  obtain ⟨hnodup, hnew, hapart⟩ := hcopied.apart hs
  obtain ⟨rows, hi, hids, -⟩ := hcopied
  have hold := (hs.keyed.ids_of_insertNodes hi).2
  obtain ⟨hcopies, hkept⟩ := (hs.keyed.insertNodes hi).history_linkCopies
    (fun c hc => hnew c (List.mem_filter.1 hc).1) (hnodup.sublist (List.filter_sublist.map _))
    (fun c hc d hd => hapart c (List.mem_filter.1 hc).1 d (List.mem_filter.1 hd).1) hlink
  -- rows of nodes are no matter to histories
  obtain rfl := eq_of_insertNodes hi
  refine ⟨?_, ?_⟩
  · intro c hc hfile
    exact hcopies c (List.mem_filter.2 ⟨hc, by simp [hfile]⟩)
  · intro m hm
    refine hkept m.id ?_
    intro c hc heq
    refine hold m hm ?_
    rw [hids, heq]
    exact List.mem_map_of_mem (List.mem_filter.1 hc).1

end LinkCopies

/-! ## Histories in the order of uploads -/

namespace Follows

variable {h : Histories} {used : List Instant}

/-- Nothing depends on times that are not given. -/
lemma mono (hf : t.Follows h used) {used' : List Instant} (hused : used ⊆ used') :
    t.Follows h used' :=
  ⟨hf.listed, fun b hb => hused (hf.uploads b hb), fun l hl => hused (hf.links l hl)⟩

/-- A history is in the order of uploads. -/
lemma history_eq_uploads (hf : t.Follows h used) (hk : t.Keyed) (owner : OwnerId) (node : NodeId) :
    t.history owner node = t.uploads owner node := by
  obtain ⟨vs, hvs, -⟩ := hf.listed node
  refine (pairwise_lt_iff_eq (hk.uploads_sorted owner node)
    (t.history_perm_uploads owner node)).1 ?_
  rw [hvs.history_eq_filter hk]
  exact (hvs.sorted.filter _).imp Version.Newer.uploadOrder_eq_lt

/-- A full copy to a node without links. -/
lemma linkAll (hf : t.Follows h used) (hk : t.Keyed) (hnew : ∀ l ∈ t.links, l.node ≠ target)
    (time : Instant) :
    ∃ h', (t.linkAll time owner source target).2.Follows h' (used ++ [time]) := by
  rcases linkAll_cases owner time source target t with e | ⟨-, hi⟩
  · rw [e]
    exact ⟨h, hf.mono (List.subset_append_left _ _)⟩
  · obtain ⟨vs, hvs, -⟩ := hf.listed source
    refine ⟨_, hf.relinked hk (hvs.sorted.filter fun v => v.owner == owner) ?_ ?_ hnew hi⟩
    · intro v hv
      exact ((hvs.mem v).1 (List.mem_of_mem_filter hv)).1
    · intro v
      rw [mem_versionsOf, List.mem_filter, hvs.mem, and_assoc, beq_iff_eq]

/-- A copy of the newest version to a node without links. -/
lemma linkNewest (hf : t.Follows h used) (hk : t.Keyed) (hnew : ∀ l ∈ t.links, l.node ≠ target)
    (time : Instant) :
    ∃ h', (t.linkNewest time owner source target).2.Follows h' (used ++ [time]) := by
  rcases linkNewest_cases owner time source target t with e | ⟨-, hi⟩
  · rw [e]
    exact ⟨h, hf.mono (List.subset_append_left _ _)⟩
  · obtain ⟨vs, hvs, -⟩ := hf.listed source
    have hhistory := hvs.history_eq_filter hk owner
    have hsub : (t.newestVersions owner source 1).Sublist vs := by
      rw [newestVersions, hhistory]
      exact (List.take_sublist _ _).trans List.filter_sublist
    refine ⟨_, hf.relinked hk (hvs.sorted.sublist hsub) ?_ (fun v => Iff.rfl) hnew hi⟩
    intro v hv
    exact ((hvs.mem v).1 (hsub.subset hv)).1

end Follows

end Tables

namespace Statement

/-- The times that a statement gives to an upload and to links, in the order in which they are
taken. -/
def stamps (fresh : Fresh) : Statement → List Instant
  | addVersion .. => [fresh.now 0, fresh.now 1]
  | link .. | linkNewest .. | linkAll .. => [fresh.now 0]
  | _ => []

/-- Does the statement leave histories in the order of uploads? It must not link a blob that is
there, except for copies to a node without links. -/
def keepsOrder (t : Tables) : Statement → Bool
  | link .. => false
  | linkNewest _ target | linkAll _ target => t.links.all fun l => l.node != target
  | _ => true

/-- **Every statement** that leaves histories in the order of uploads.

**Proof sketch.** A new version is later than all others in both respects. A copy is linked at one
time, where the order goes by uploads, and its node has no other version. Other statements only
take links away. -/
theorem follows_run {t : Tables} {h : Histories} {used : List Instant} (hf : t.Follows h used)
    (hk : t.Keyed) (hc : t.Counted) (fresh : Fresh) (owner : OwnerId) {s : Statement}
    (ho : s.keepsOrder t = true) (hclock : (used ++ s.stamps fresh).Pairwise Instant.Before) :
    ∃ h', (s.run fresh owner t).2.Follows h' (used ++ s.stamps fresh) := by
  have hsame {t' : Tables} (hl : t'.links = t.links) (hb : t'.blobs = t.blobs) :
      ∃ h', t'.Follows h' (used ++ s.stamps fresh) :=
    ⟨h, (hf.of_eq hl hb).mono (List.subset_append_left _ _)⟩
  cases hs : s.isOnNodes with
  | true =>
    rw [Statement.run_of_isOnNodes hs]
    exact hsame rfl rfl
  | false =>
    cases s with
    | addVersion node id info =>
      change ∃ h', (t.addVersion _ _ owner node _ info).2.Follows h' _
      cases e : t.addVersion (fresh.now 0) (fresh.now 1) owner node (id.getD fresh.blobId) info with
      | mk r t' =>
        cases r with
        | ok v => exact ⟨_, hf.addVersion hc hclock e⟩
        | error =>
          rcases hc.addVersion_eq owner (fresh.now 1) (fresh.now 0) node (id.getD fresh.blobId)
            info with ⟨_, -, e'⟩ | ⟨-, -, -, e'⟩ <;> rw [e'] at e
          · obtain ⟨-, rfl⟩ := Prod.mk.inj e
            exact hsame rfl rfl
          · cases e
    | link node id => cases ho
    | unlink node id =>
      change ∃ h', (t.unlink owner node id).2.Follows h' _
      rcases Tables.unlink_cases owner node id t with e | ⟨-, -, e⟩ <;> rw [e]
      · exact hsame rfl rfl
      · have hdropped := hf.dropLinks (p := fun l => l.node == node && l.blob == id)
          (q := fun n b => n == node && b == id) fun l _ => rfl
        exact ⟨_, hdropped.mono (List.subset_append_left _ _)⟩
    | unlinkAll node =>
      have hdropped := hf.dropLinks (p := fun l => l.node == node && t.ownsBlob owner l.blob)
        (q := fun n b => n == node && t.ownsBlob owner b) fun l _ => rfl
      exact ⟨_, hdropped.mono (List.subset_append_left _ _)⟩
    | linkNewest source target =>
      exact hf.linkNewest hk (by simpa [keepsOrder] using ho) (fresh.now 0)
    | linkAll source target =>
      exact hf.linkAll hk (by simpa [keepsOrder] using ho) (fresh.now 0)
    | queueDeletes blobs =>
      change ∃ h', (t.queueDeletes _ owner blobs).Follows h' _
      rw [Tables.queueDeletes_frame owner (fresh.now 0) t blobs]
      exact hsame rfl rfl
    | createNode | moveFile | moveDirectory | copyFile | copyDirectory | removeLeaf
    | removeSubtree => cases hs
    | _ => exact hsame rfl rfl

end Statement

/-! ## Sessions -/

/-- Tables with histories in the order of uploads, whose times are among those given. -/
structure Tables.Ordered (used : List Instant) (t : Tables) : Prop where
  keyed : t.Keyed
  counted : t.Counted
  followed : ∃ h, t.Follows h used

/-- Ordered tables stay so when more times have been given. -/
lemma Tables.Ordered.mono {used used' : List Instant} {t : Tables} (h : t.Ordered used)
    (hused : used ⊆ used') : t.Ordered used' := by
  obtain ⟨h', hf⟩ := h.followed
  exact ⟨h.keyed, h.counted, h', hf.mono hused⟩

namespace Session

/-- The times that an event gives to an upload and to links. -/
def Event.stamps : Event → List Instant
  | .call fresh _ statement => statement.stamps fresh
  | _ => []

/-- Does the event leave histories in the order of uploads? -/
def Event.keepsOrder (s : Session) : Event → Bool
  | .call _ _ statement => statement.keepsOrder s.now
  | _ => true

/-- Do the events leave histories in the order of uploads? -/
def keepsOrder : List Event → Session → Bool
  | [], _ => true
  | e :: rest, s => e.keepsOrder s && keepsOrder rest (s.step e)

variable {used : List Instant} {s : Session} {events : List Event}

/-- One event that leaves histories in the order of uploads. -/
lemma ordered_step {e : Event} (hstart : s.start.Ordered used) (hnow : s.now.Ordered used)
    (ho : e.keepsOrder s = true) (hclock : (used ++ e.stamps).Pairwise Instant.Before) :
    (s.step e).start.Ordered (used ++ e.stamps) ∧ (s.step e).now.Ordered (used ++ e.stamps) := by
  have hstart' := hstart.mono (List.subset_append_left used e.stamps)
  have hnow' := hnow.mono (List.subset_append_left used e.stamps)
  cases e with
  | call fresh owner statement =>
    obtain ⟨h, hf⟩ := hnow.followed
    exact ⟨hstart', hnow.keyed.run fresh owner statement, hnow.counted.run fresh owner statement,
      Statement.follows_run hf hnow.keyed hnow.counted fresh owner ho hclock⟩
  | commit =>
    simp only [step, Tables.commit]
    split
    · exact ⟨hnow', hnow'⟩
    · exact ⟨hstart', hstart'⟩
  | rollback => exact ⟨hstart', hstart'⟩

/-- **Events that leave histories in the order of uploads**, while the clock goes on. -/
theorem ordered_after (hstart : s.start.Ordered used) (hnow : s.now.Ordered used)
    (ho : keepsOrder events s = true)
    (hclock : (used ++ events.flatMap Event.stamps).Pairwise Instant.Before) :
    (s.after events).now.Ordered (used ++ events.flatMap Event.stamps) := by
  induction events generalizing s used with
  | nil =>
    rw [List.flatMap_nil, List.append_nil]
    exact hnow
  | cons e rest ih =>
    rw [List.flatMap_cons, ← List.append_assoc] at hclock ⊢
    rw [keepsOrder, Bool.and_eq_true] at ho
    have hstep := ordered_step hstart hnow ho.1 (List.pairwise_append.1 hclock).1
    exact ih hstep.1 hstep.2 ho.2 hclock

/-- **Copies of a file.** In every state of a session, a file with versions is copied to a new file
with its whole history, and to another one with its newest version. Both copies succeed, and its own
history stays. The full copy is listed in the order of uploads, and the other one has the version
that was linked last. So the full copy is listed like the source exactly if the history of the
source is in the order of uploads, and it begins with the other copy exactly if the version that was
linked last was uploaded last. Both hold in sessions whose events leave histories in this order,
while the clock goes on.

**Proof sketch.** Links of one time leave the order to uploads. Every other history stays as it is.
Of two versions of a node, the one that was uploaded later was not linked earlier, as long as a
blob is linked again only by a copy to a node without links. -/
theorem copied_histories (events : List Event) {owner : OwnerId} {source x y : NodeId}
    (hsome : 0 < (empty.after events).now.countVersions owner source)
    (hx : (empty.after events).now.IsNewFile owner x)
    (hy : (empty.after events).now.IsNewFile owner y) (hne : x ≠ y) (time time' : Instant) :
    let t := (empty.after events).now
    let full := t.linkAll time owner source x
    let single := full.2.linkNewest time' owner source y
    let shown (node : NodeId) (limit : Nat) :=
      (single.2.newestVersions owner node limit).map Version.blob
    full.1 = .ok (t.countVersions owner source) ∧ single.1 = .ok 1 ∧
    (∀ limit, single.2.newestVersions owner source limit = t.newestVersions owner source limit) ∧
    (∀ limit, shown x limit = ((t.uploads owner source).take limit).map Version.blob) ∧
    (∀ limit, 0 < limit → shown y limit = shown source 1) ∧
    ((∀ limit, shown x limit = shown source limit) ↔
      t.history owner source = t.uploads owner source) ∧
    (shown x 1 = shown y 1 ↔ ∃ v ∈ t.versionsOf owner source,
      ∀ w ∈ t.versionsOf owner source, w ≠ v → w.order v = .lt ∧ w.uploadOrder v = .lt) ∧
    (keepsOrder events empty = true → (events.flatMap Event.stamps).Pairwise Instant.Before →
      (∀ limit, shown x limit = shown source limit) ∧ shown x 1 = shown y 1) := by
  intro t full single shown
  have hk : t.Keyed :=
    (invariant .empty fun fresh owner statement _ t ht => ht.run fresh owner statement).2
  obtain ⟨hfull, hsingle, hsource, hhistoryx, hhistoryy⟩ :=
    hk.history_copies hsome hx hy hne time time'
  have hshownSource (limit : Nat) :
      shown source limit = ((t.history owner source).take limit).map Version.blob := by
    simp only [shown, Tables.newestVersions, single, full, hsource]
  have hshownx (limit : Nat) :
      shown x limit = ((t.uploads owner source).take limit).map Version.blob := by
    simp only [shown, Tables.newestVersions, single, full, hhistoryx]
    rw [← List.map_take, List.map_map]
    rfl
  have hshowny (limit : Nat) (hlimit : 0 < limit) : shown y limit = shown source 1 := by
    rw [hshownSource]
    simp only [shown, Tables.newestVersions, single, full, hhistoryy]
    rw [← List.map_take, List.take_take, Nat.min_eq_right hlimit, List.map_map]
    rfl
  have hall : (∀ limit, shown x limit = shown source limit) ↔
      t.history owner source = t.uploads owner source := by
    simp only [hshownx, hshownSource]
    exact hk.pages_eq_iff owner source
  have hfirst : shown x 1 = shown y 1 ↔ ∃ v ∈ t.versionsOf owner source,
      ∀ w ∈ t.versionsOf owner source, w ≠ v → w.order v = .lt ∧ w.uploadOrder v = .lt := by
    rw [hshowny 1 Nat.one_pos, hshownSource, hshownx]
    exact hk.newest_eq_iff hsome
  refine ⟨hfull, hsingle, ?_, hshownx, hshowny, hall, hfirst, ?_⟩
  · intro limit
    simp only [Tables.newestVersions, single, full, hsource]
  · intro ho hclock
    have hordered : t.Ordered ([] ++ events.flatMap Event.stamps) :=
      ordered_after ⟨.empty, .empty, _, .empty⟩ ⟨.empty, .empty, _, .empty⟩ ho hclock
    obtain ⟨h, hf⟩ := hordered.followed
    have hsame := hall.2 (hf.history_eq_uploads hk owner source)
    exact ⟨hsame, (hsame 1).trans (hshowny 1 Nat.one_pos).symm⟩

/-! ### Two files with one blob -/

/-- An owner gets a root and four files. Two of them get versions, the second one first. -/
def fourFiles : List Event :=
  let owner : OwnerId := ⟨.ofNat 1⟩
  let call (n : Nat) (statement : Statement) : Event :=
    .call (Env.ticking n).toFresh owner statement
  [call 1 (.createNode .root .root), call 2 (.createNode ⟨"a"⟩ .file),
    call 3 (.createNode ⟨"b"⟩ .file), call 4 (.createNode ⟨"x"⟩ .file),
    call 5 (.createNode ⟨"y"⟩ .file), call 6 (.addVersion ⟨.ofNat 300⟩ none ⟨"sum", 1⟩),
    call 7 (.addVersion ⟨.ofNat 200⟩ none ⟨"sum", 1⟩), .commit]

/-- The first file gets another version. -/
def addAgain : Event :=
  .call (Env.ticking 8).toFresh ⟨.ofNat 1⟩ (.addVersion ⟨.ofNat 200⟩ none ⟨"sum", 1⟩)

/-- The first file is linked to the version of the second one. -/
def linkAgain : Event :=
  .call (Env.ticking 8).toFresh ⟨.ofNat 1⟩ (.link ⟨.ofNat 200⟩ ⟨.ofNat 6⟩)

/-- A file with two uploads is copied in their order. -/
theorem copied_histories_uploads :
    let t := (empty.after (fourFiles ++ [addAgain])).now
    let owner : OwnerId := ⟨.ofNat 1⟩
    let full := t.linkAll ⟨900⟩ owner ⟨.ofNat 200⟩ ⟨.ofNat 400⟩
    let single := full.2.linkNewest ⟨901⟩ owner ⟨.ofNat 200⟩ ⟨.ofNat 500⟩
    let shown (node : NodeId) (limit : Nat) :=
      (single.2.newestVersions owner node limit).map Version.blob
    t.countVersions owner ⟨.ofNat 200⟩ = 2 ∧
      (∀ limit, shown ⟨.ofNat 400⟩ limit = shown ⟨.ofNat 200⟩ limit) ∧
      shown ⟨.ofNat 400⟩ 1 = shown ⟨.ofNat 500⟩ 1 := by
  intro t owner full single shown
  have hx : t.IsNewFile owner ⟨.ofNat 400⟩ := ⟨by decide +kernel, by decide +kernel⟩
  have hy : t.IsNewFile owner ⟨.ofNat 500⟩ := ⟨by decide +kernel, by decide +kernel⟩
  have hcount : t.countVersions owner ⟨.ofNat 200⟩ = 2 := by decide +kernel
  have hsome : 0 < t.countVersions owner ⟨.ofNat 200⟩ := by rw [hcount]; decide
  obtain ⟨-, -, -, -, -, -, -, hagree⟩ := copied_histories (fourFiles ++ [addAgain])
    hsome hx hy (by decide) ⟨900⟩ ⟨901⟩
  exact ⟨hcount, hagree (by decide +kernel) (by decide +kernel)⟩

/-- **A file that is linked again** to a blob of another file. Its copies disagree: the full one
begins with the blob that was uploaded last, and the other one has the blob that was linked last,
with which the file begins. -/
theorem linked_again :
    let events := fourFiles ++ [linkAgain]
    let t := (empty.after events).now
    let owner : OwnerId := ⟨.ofNat 1⟩
    let source : NodeId := ⟨.ofNat 200⟩
    let x : NodeId := ⟨.ofNat 400⟩
    let y : NodeId := ⟨.ofNat 500⟩
    let full := t.linkAll ⟨900⟩ owner source x
    let single := full.2.linkNewest ⟨901⟩ owner source y
    let shown (node : NodeId) := (single.2.newestVersions owner node 9).map Version.blob
    (events.flatMap Event.stamps ++ [Instant.mk 900, ⟨901⟩]).Pairwise Instant.Before ∧
      t.hasKind owner source .file = true ∧ 0 < t.countVersions owner source ∧
      t.IsNewFile owner x ∧ t.IsNewFile owner y ∧ x ≠ y ∧ full.1 = .ok 2 ∧ single.1 = .ok 1 ∧
      shown source = [⟨.ofNat 6⟩, ⟨.ofNat 7⟩] ∧ shown x = [⟨.ofNat 7⟩, ⟨.ofNat 6⟩] ∧
      shown y = [⟨.ofNat 6⟩] := by
  intro events t owner source x y full single shown
  have hk : t.Keyed :=
    (invariant .empty fun fresh owner statement _ t ht => ht.run fresh owner statement).2
  have hcount : t.countVersions owner source = 2 := by decide +kernel
  have hsome : 0 < t.countVersions owner source := by rw [hcount]; decide
  have hx : t.IsNewFile owner x := ⟨by decide +kernel, by decide +kernel⟩
  have hy : t.IsNewFile owner y := ⟨by decide +kernel, by decide +kernel⟩
  let linked : Version := ⟨source, ⟨.ofNat 6⟩, "sum", 1, owner, ⟨600⟩, ⟨800⟩⟩
  let uploaded : Version := ⟨source, ⟨.ofNat 7⟩, "sum", 1, owner, ⟨700⟩, ⟨701⟩⟩
  have hhistory : t.history owner source = [linked, uploaded] :=
    mergeSort_eq_of_perm (by decide +kernel) (by decide +kernel)
  have huploads : t.uploads owner source = [uploaded, linked] :=
    mergeSort_eq_of_perm (by decide +kernel) (by decide +kernel)
  obtain ⟨hfull, hsingle, hsource, hhistoryx, hhistoryy⟩ :=
    hk.history_copies hsome hx hy (by decide) ⟨900⟩ ⟨901⟩
  rw [hcount] at hfull
  rw [hhistory] at hsource hhistoryy
  rw [huploads] at hhistoryx
  refine ⟨by decide +kernel, by decide +kernel, hsome, hx, hy, by decide, hfull, hsingle, ?_⟩
  simp only [shown, Tables.newestVersions, single, full, hsource, hhistoryx, hhistoryy]
  decide

end Session

end VersionedTree
