import VersionedTree.Proofs.Archive.Copies
import VersionedTree.Proofs.Tables.Subtrees

/-!
# Nodes that are copied

A copy inserts rows, and then links the files among them. It finds its rows if the node can be
brought to the place, and links if all files have a version. What it leaves when it succeeds is
known: one row for each node at and below the source, at the place that a move would give it, and
for each file links to the blobs that its source passes on.

## Main definitions

* `VersionedTree.Tables.PassesOn` — the blobs that a copy is linked to.
* `VersionedTree.Tables.HasVersions` — every file at or below a node has a version.
* `VersionedTree.Tables.CopiedTo` — tables before and after a copy.

## Main results

* `VersionedTree.Tables.Transferable.copyNodes_eq` — the copy of nodes to a free place.
* `VersionedTree.Tables.copyNodes_answers` — nothing is copied otherwise.
* `VersionedTree.Tables.links_of_linkCopies` — the links of copies.
* `VersionedTree.Tables.Transferable.copyStatements_eq` — when a copy to a free place succeeds.
* `VersionedTree.Tables.copiedTo_of_copyStatements`,
  `VersionedTree.Tables.Transferable.copyStatements_ok` — what a copy that succeeds has done.
-/

set_option autoImplicit false

namespace VersionedTree.Tables

variable {t t' : Tables} {top node : Node} {target : Path} {env : Env} {owner : OwnerId}
  {onlyNewest : Bool}

/-! ## Rows -/

/-- A copy belongs to a numbered node at or below the top, and has the identifier of that number. -/
lemma mem_copiedNodes {ids : Nat → NodeId} {c : CopiedNode} :
    c ∈ t.copiedNodes ids top ↔
      ∃ m i, (m, i) ∈ t.numbered top.owner top.path ∧ ⟨m.id, ids i, m.kind⟩ = c := by
  simp only [copiedNodes, List.mem_map, Prod.exists]

/-- The sources of copies are the nodes at and below the top. -/
lemma perm_sources (ids : Nat → NodeId) (top : Node) (t : Tables) :
    ((t.copiedNodes ids top).map CopiedNode.source).Perm
      ((t.subtree top.owner top.path).map Node.id) := by
  have hsorted : (t.copiedNodes ids top).map CopiedNode.source =
      (sortedByPath (t.subtree top.owner top.path)).map Node.id := by
    rw [← List.zipIdx_map_fst 0 (sortedByPath _), copiedNodes, List.map_map, List.map_map]
    rfl
  rw [hsorted]
  exact (List.mergeSort_perm _ _).map _

/-- The identifiers of copies are those of their rows. -/
lemma map_destination_copiedNodes (h : t.Rebases top.owner top.path target) (time : Instant)
    (ids : Nat → NodeId) :
    (t.copiedNodes ids top).map CopiedNode.destination =
      (copiedRows top.owner time target t ids top).map Node.id := by
  rw [h.copiedRows_eq, copiedNodes, List.map_map, List.map_map]
  rfl

/-- A file has one copy. -/
lemma copiedNodes_of_file (hf : t.IsForest) (hmem : top ∈ t.nodes) (hfile : top.kind = .file)
    (ids : Nat → NodeId) : t.copiedNodes ids top = [⟨top.id, ids 0, .file⟩] := by
  rw [copiedNodes, numbered_of_file hf hmem hfile, List.map_singleton, ← hfile]

/-- A stored node is copied itself, so that there is a copy at least. -/
lemma copiedNodes_ne_nil (ids : Nat → NodeId) (h : top ∈ t.nodes) :
    t.copiedNodes ids top ≠ [] := by
  obtain ⟨i, htop⟩ := exists_number (mem_subtree.2 ⟨h, rfl, Path.covers_refl _⟩)
  exact List.ne_nil_of_mem (mem_copiedNodes.2 ⟨top, i, htop, rfl⟩)

/-- **The copy of nodes** to a place where they can be brought. -/
theorem Transferable.copyNodes_eq (h : t.Transferable top target) (hf : t.IsForest)
    (hid : node.id = top.id) (hkind : node.kind = top.kind)
    (hids : t.Supplies env.nodeId (t.subtree top.owner top.path).length)
    (hv : ∀ n ∈ t.subtree top.owner top.path, n.path.Valid) :
    Archive.copyNodes env top.owner node target t =
      (.ok (t.copiedNodes env.nodeId top),
        t.withCopies env.nodeId (env.now 0) top target) := by
  unfold Archive.copyNodes
  cases htop : top.kind with
  | file =>
    rw [hkind, htop]
    simp only [h.copyFile_eq (env.now 0) hf hid hkind hids htop]
    rw [copiedNodes_of_file hf h.stored htop, hid, Option.toList_some]
  | dir =>
    rw [hkind, htop]
    exact h.copyDirectory_eq (env.now 0) hf hid hkind hids hv htop
  | root => exact absurd htop h.kind

/-- Rows are not inserted where a node is. -/
lemma Keyed.free_of_insertNodes (hk : t.Keyed) {rows : List Node}
    (hi : t.insertNodes rows = .ok t') {row : Node} (hrow : row ∈ rows) :
    ∀ n ∈ t.nodes, n.owner = row.owner → n.path ≠ row.path := by
  have hplaces := (hk.insertNodes hi).nodes.places
  rw [eq_of_insertNodes hi] at hplaces
  intro n hn ho hp
  obtain rfl := hplaces n (List.mem_append_right _ hn) row
    (List.mem_append_left _ (List.mem_reverse.2 hrow)) ho hp
  exact (hk.ids_of_insertNodes hi).2 n hn (List.mem_map_of_mem hrow)

/-- A file that has been copied could be brought to the place. -/
lemma IsForest.transferable_of_file (hf : t.IsForest) (hmem : top ∈ t.nodes)
    (hfile : top.kind = .file) (hroot : target.isRoot = false)
    (hcontainer : t.hasContainerAt top.owner target.parent = true) {id : NodeId} {time : Instant}
    (hi : t.insertNode ⟨id, .file, target, top.owner, time⟩ = .ok t') :
    t.Transferable top target := by
  have hfree := hf.keyed.free_of_insertNodes (insertNodes_singleton hi)
    (List.mem_singleton_self _)
  have hout := hf.covers_file_eq_false hmem hfile hcontainer (hfree top hmem rfl)
  exact ⟨hmem, by simp [hfile], hroot, hout, hcontainer, hfree⟩

/-- A directory that has been copied could be brought to the place: its copy is inserted there, so
that no node can have been there before. -/
lemma IsForest.transferable_of_dir (hf : t.IsForest) (hmem : top ∈ t.nodes)
    (hdir : top.kind = .dir) (hroot : target.isRoot = false)
    (hout : top.path.covers target = false)
    (hcontainer : t.hasContainerAt top.owner target.parent = true)
    (hr : t.Rebases top.owner top.path target) {ids : Nat → NodeId} {time : Instant}
    (hi : t.insertNodes (copiedRows top.owner time target t ids top) = .ok t') :
    t.Transferable top target := by
  obtain ⟨i, hcopy⟩ := (hr.mem_copiedRows time ids).2
    (mem_subtree.2 ⟨hmem, rfl, Path.covers_refl _⟩)
  have hfree := hf.keyed.free_of_insertNodes hi hcopy
  rw [Path.graft_source] at hfree
  exact ⟨hmem, by simp [hdir], hroot, hout, hcontainer, hfree⟩

/-- **The copy of nodes**: nothing is copied, or there is a node as it is claimed that can be
brought to the place, and it is copied with all that is below it. -/
theorem copyNodes_answers (hf : t.IsForest) (hnode : node.kind ≠ .root) (env : Env)
    (owner : OwnerId) (target : Path) :
    (∃ r, Archive.copyNodes env owner node target t = (r, t) ∧
      (r = .ok [] ∨ ∃ c, r = .error (.database c))) ∨
    ∃ top, top.id = node.id ∧ top.owner = owner ∧ top.kind = node.kind ∧
      t.Transferable top target ∧ t.Rebases top.owner top.path target ∧
      t.insertNodes (copiedRows top.owner (env.now 0) target t env.nodeId top) =
        .ok (t.withCopies env.nodeId (env.now 0) top target) ∧
      Archive.copyNodes env owner node target t =
        (.ok (t.copiedNodes env.nodeId top),
          t.withCopies env.nodeId (env.now 0) top target) := by
  unfold Archive.copyNodes
  cases hclaimed : node.kind with
  | root => exact absurd hclaimed hnode
  | file =>
    rcases copyFile_answers owner (env.now 0) node target t (env.nodeId 0) with
      ⟨r, hr, rfl | ⟨c, rfl⟩⟩ | ⟨t₁, -, hroot, hstored, hcontainer, hi, hr⟩
    · exact .inl ⟨_, by simp only [hr]; rfl, .inl rfl⟩
    · exact .inl ⟨_, by simp only [hr], .inr ⟨c, rfl⟩⟩
    · obtain ⟨top, hmem, hid, rfl, hfile⟩ := hasKind_iff.1 hstored
      have ht := hf.transferable_of_file hmem hfile hroot hcontainer hi
      have hrows := insertNodes_singleton hi
      have hcopies := copiedRows_of_file hf hmem hfile target (env.now 0) env.nodeId
      have ht₁ : t₁ = t.withCopies env.nodeId (env.now 0) top target := by
        rw [eq_of_insertNodes hrows, withCopies, hcopies]
      refine .inr ⟨top, hid, rfl, hfile, ht, rebases_of_file hf hmem hfile target, ?_, ?_⟩
      · rw [hcopies, hrows, ht₁]
      · simp only [hr, ht₁, copiedNodes_of_file hf hmem hfile, hid, Option.toList_some]
  | dir =>
    rcases copyDirectory_answers owner (env.now 0) node target t env.nodeId with
      ⟨r, hr, hnone⟩ | ⟨top, t₁, -, hstored, hroot, hout, hcontainer, hv, hi, hr⟩
    · exact .inl ⟨r, hr, hnone⟩
    · obtain ⟨hmem, hid, rfl, hdir⟩ := mem_of_stored? hstored
      rw [Path.isAncestorOf_eq_covers] at hout
      have hrebases := rebases_of_valid (hf.path_ne_root hmem (by simp [hdir])) hroot hv
      have ht := hf.transferable_of_dir hmem hdir hroot hout hcontainer hrebases hi
      have ht₁ : t₁ = t.withCopies env.nodeId (env.now 0) top target := eq_of_insertNodes hi
      refine .inr ⟨top, hid, rfl, hdir, ht, hrebases, ht₁ ▸ hi, ?_⟩
      rw [hr, hrebases.copiedNodes_eq, ht₁]

/-! ## Links -/

/-- **The links of copies** lead from the copies to the blobs of those versions of their sources
that are copied. -/
theorem links_of_linkCopies {k : Nat} {copies : List CopiedNode}
    (hapart : ∀ c ∈ copies, ∀ d ∈ copies, d.source ≠ c.destination)
    (e : Archive.linkCopies env owner onlyNewest k copies t = (.ok (), t')) :
    ∃ added, t' = { t with links := added ++ t.links } ∧ ∀ node blob,
      (∃ l ∈ added, l.node = node ∧ l.blob = blob) ↔
        ∃ c ∈ copies, c.destination = node ∧
          ∃ v ∈ t.copiedVersions owner onlyNewest c.source, v.blob = blob := by
  induction copies generalizing k t with
  | nil =>
    obtain rfl := (Prod.mk.inj e).2
    exact ⟨[], rfl, by simp⟩
  | cons c rest ih =>
    obtain ⟨t₁, hi, -, hrest⟩ := linkCopies_cons e
    obtain ⟨added, rfl, hadded⟩ := ih (fun d hd d' hd' =>
      hapart d (List.mem_cons_of_mem _ hd) d' (List.mem_cons_of_mem _ hd')) hrest
    have ht₁ := eq_of_insertLinks hi
    refine ⟨added ++ ((t.copiedVersions owner onlyNewest c.source).map fun v =>
      ⟨c.destination, v.blob, env.now k⟩).reverse, ?_, ?_⟩
    · rw [ht₁, List.append_assoc]
    · intro node blob
      -- the other copies find the versions of their sources as they were before this link
      have hlater : (∃ l ∈ added, l.node = node ∧ l.blob = blob) ↔
          ∃ d ∈ rest, d.destination = node ∧
            ∃ v ∈ t.copiedVersions owner onlyNewest d.source, v.blob = blob := by
        rw [hadded]
        refine exists_congr fun d => and_congr_right fun hd => ?_
        rw [copiedVersions_of_insertLinks owner onlyNewest hi
          (hapart c List.mem_cons_self d (List.mem_cons_of_mem _ hd))]
      simp only [List.mem_append, or_and_right, exists_or, List.mem_reverse, List.mem_map,
        List.exists_mem_cons_iff, hlater]
      rw [or_comm]
      refine or_congr_left ?_
      constructor
      · rintro ⟨l, ⟨v, hv, rfl⟩, hnode, hblob⟩
        exact ⟨hnode, v, hv, hblob⟩
      · rintro ⟨hnode, v, hv, hblob⟩
        exact ⟨_, ⟨v, hv, rfl⟩, hnode, hblob⟩

/-- Is a copy of this source linked to the blob? It is linked to all blobs of its source, or to that
of the version alone which is the first one in the listing. -/
def PassesOn (owner : OwnerId) (onlyNewest : Bool) (source : NodeId) (t : Tables)
    (blob : BlobId) : Prop :=
  if onlyNewest then (t.history owner source).head?.map Version.blob = some blob
  else ∃ l ∈ t.links, l.node = source ∧ l.blob = blob

/-- Has every file at or below the node a version? -/
def HasVersions (top : Node) (t : Tables) : Prop :=
  ∀ f ∈ t.subtree top.owner top.path, f.kind = .file → ∃ l ∈ t.links, l.node = f.id

instance (top : Node) (t : Tables) : Decidable (t.HasVersions top) :=
  inferInstanceAs (Decidable (∀ f ∈ t.subtree top.owner top.path, f.kind = .file →
    ∃ l ∈ t.links, l.node = f.id))

namespace Sound

variable {f : Node}

/-- The blobs of the versions of a file are those that it is linked to. -/
lemma exists_versionsOf_iff (h : t.Sound) (hmem : f ∈ t.nodes) (hfile : f.kind = .file)
    {blob : BlobId} :
    (∃ v ∈ t.versionsOf f.owner f.id, v.blob = blob) ↔
      ∃ l ∈ t.links, l.node = f.id ∧ l.blob = blob := by
  rw [← h.counted.exists_version_iff]
  refine exists_congr fun v => ?_
  rw [h.linked.mem_versionsOf h.keyed (hasKind_iff.2 ⟨f, hmem, rfl, rfl, hfile⟩), and_assoc]

/-- A file passes on the blobs of its copied versions. -/
lemma exists_copiedVersions_iff (h : t.Sound) (hmem : f ∈ t.nodes) (hfile : f.kind = .file)
    {blob : BlobId} :
    (∃ v ∈ t.copiedVersions f.owner onlyNewest f.id, v.blob = blob) ↔
      t.PassesOn f.owner onlyNewest f.id blob := by
  unfold copiedVersions PassesOn
  split
  · rw [newestVersions]
    cases t.history f.owner f.id <;> simp
  · exact h.exists_versionsOf_iff hmem hfile

/-- Some version of a file is copied if there is one. -/
lemma copiedVersions_ne_nil_iff (h : t.Sound) (hmem : f ∈ t.nodes) (hfile : f.kind = .file)
    (onlyNewest : Bool) :
    t.copiedVersions f.owner onlyNewest f.id ≠ [] ↔ ∃ l ∈ t.links, l.node = f.id := by
  have hany : t.versionsOf f.owner f.id ≠ [] ↔ ∃ l ∈ t.links, l.node = f.id := by
    constructor
    · intro hne
      obtain ⟨v, hv⟩ := List.exists_mem_of_ne_nil _ hne
      obtain ⟨l, hl, hid, -⟩ := (h.exists_versionsOf_iff hmem hfile).1 ⟨v, hv, rfl⟩
      exact ⟨l, hl, hid⟩
    · rintro ⟨l, hl, hid⟩
      obtain ⟨v, hv, -⟩ := (h.exists_versionsOf_iff hmem hfile).2 ⟨l, hl, hid, rfl⟩
      exact List.ne_nil_of_mem hv
  rw [← hany]
  unfold copiedVersions
  split
  · rw [newestVersions, ne_eq, List.take_eq_nil_iff, ← List.length_eq_zero_iff, history,
      List.length_mergeSort, List.length_eq_zero_iff]
    simp
  · rfl

end Sound

/-! ## Copies -/

/-- A copy is a node of the kind of its source. -/
lemma Rebases.hasKind_withCopies (h : t.Rebases top.owner top.path target) (time : Instant)
    (ids : Nat → NodeId) {m : Node} {i : Nat} (hm : (m, i) ∈ t.numbered top.owner top.path) :
    (t.withCopies ids time top target).hasKind top.owner (ids i) m.kind = true := by
  refine hasKind_iff.2 ⟨⟨ids i, m.kind, m.path.graft top.path target, top.owner, time⟩,
    List.mem_append_left _ (List.mem_reverse.2 ?_), rfl, rfl, rfl⟩
  rw [h.copiedRows_eq]
  exact List.mem_map.2 ⟨(m, i), hm, rfl⟩

/-- **The copies of files** are linked if all files have a version. -/
lemma Rebases.linkCopies_eq (h : t.Rebases top.owner top.path target) (hs : t.Sound)
    (hcopied : Copied top.owner (t.copiedNodes env.nodeId top) t
      (t.withCopies env.nodeId (env.now 0) top target)) :
    (Archive.linkCopies env top.owner onlyNewest 1
      ((t.copiedNodes env.nodeId top).filter fun c => c.kind == .file)
      (t.withCopies env.nodeId (env.now 0) top target)).1 =
      if t.HasVersions top then .ok () else .error (.illegalState "failed to copy a file") := by
  rw [hcopied.linkCopies_eq hs env onlyNewest 1]
  refine if_congr ?_ rfl rfl
  -- whether a copy can be linked is a question of its source in the tables before
  have hlinkable {m : Node} {i : Nat} (hm : (m, i) ∈ t.numbered top.owner top.path)
      (hfile : m.kind = .file) :
      ((t.withCopies env.nodeId (env.now 0) top target).hasKind top.owner (env.nodeId i) .file &&
        !(t.copiedVersions top.owner onlyNewest m.id).isEmpty) = true ↔
        ∃ l ∈ t.links, l.node = m.id := by
    obtain ⟨hmt, ho, -⟩ := mem_subtree.1 (mem_numbered hm).1
    have hcopy := h.hasKind_withCopies (env.now 0) env.nodeId hm
    rw [hfile] at hcopy
    rw [← hs.copiedVersions_ne_nil_iff hmt hfile onlyNewest, hcopy, ho]
    simp
  rw [List.all_eq_true]
  constructor
  · intro hall f hf hfile
    obtain ⟨i, hi⟩ := exists_number hf
    have hcopy : (⟨f.id, env.nodeId i, f.kind⟩ : CopiedNode) ∈
        (t.copiedNodes env.nodeId top).filter fun c => c.kind == .file :=
      List.mem_filter.2 ⟨mem_copiedNodes.2 ⟨f, i, hi, rfl⟩, by simp [hfile]⟩
    exact (hlinkable hi hfile).1 (hall _ hcopy)
  · intro hversions c hc
    obtain ⟨hc, hfile⟩ := List.mem_filter.1 hc
    obtain ⟨m, i, hm, rfl⟩ := mem_copiedNodes.1 hc
    have hfile : m.kind = .file := by simpa using hfile
    exact (hlinkable hm hfile).2 (hversions m (mem_numbered hm).1 hfile)

/-- **A copy to a free place** succeeds if all files have a version. -/
theorem Transferable.copyStatements_eq (h : t.Transferable top target) (hs : t.Sound)
    (hid : node.id = top.id) (hkind : node.kind = top.kind)
    (hids : t.Supplies env.nodeId (t.subtree top.owner top.path).length)
    (hv : ∀ n ∈ t.subtree top.owner top.path, n.path.Valid) (onlyNewest : Bool) :
    (Archive.copyStatements env top.owner node target onlyNewest t).1 =
      if t.HasVersions top then .ok (t.copiedNodes env.nodeId top)
      else .error (.illegalState "failed to copy a file") := by
  have hr := rebases_of_valid (h.isRoot_source hs.forest) h.isRoot hv
  have hcopy := h.copyNodes_eq hs.forest hid hkind hids hv
  rw [copyStatements_of_ok hcopy (copiedNodes_ne_nil _ h.stored)]
  simp only [hr.linkCopies_eq hs (copyNodes_ok hcopy)]
  split <;> rfl

/-- Tables before and after a node has been copied with all that is below it. The copied nodes are
there, and links from the files among them to the blobs that their sources pass on. -/
structure CopiedTo (env : Env) (top : Node) (target : Path) (onlyNewest : Bool)
    (t t' : Tables) : Prop where
  transferable : t.Transferable top target
  rebases : t.Rebases top.owner top.path target
  inserted : t.insertNodes (copiedRows top.owner (env.now 0) target t env.nodeId top) =
    .ok (t.withCopies env.nodeId (env.now 0) top target)
  sound : t'.Sound
  linked : ∃ added,
    t' = { t.withCopies env.nodeId (env.now 0) top target with links := added ++ t.links } ∧
    ∀ node blob, (∃ l ∈ added, l.node = node ∧ l.blob = blob) ↔
      ∃ c ∈ t.copiedNodes env.nodeId top, c.kind = .file ∧ c.destination = node ∧
        t.PassesOn top.owner onlyNewest c.source blob

/-- **What a copy that succeeds has done.** There was a node as it was claimed that could be brought
to the place, and it has been copied. -/
theorem copiedTo_of_copyStatements (hs : t.Sound) {copies : List CopiedNode}
    (e : Archive.copyStatements env owner node target onlyNewest t = (.ok copies, t')) :
    ∃ top, top.id = node.id ∧ top.owner = owner ∧ top.kind = node.kind ∧
      copies = t.copiedNodes env.nodeId top ∧ t.CopiedTo env top target onlyNewest t' := by
  have hsound := hs.ofKeeps (e ▸ Archive.copyStatements_runsTo env owner t node target onlyNewest)
  obtain ⟨hne, t₁, hcopy, hlink⟩ := copyStatements_steps e
  have hnode : node.kind ≠ .root := by
    intro hroot
    rw [Archive.copyNodes, hroot] at hcopy
    cases (Prod.mk.inj hcopy).1
  rcases copyNodes_answers hs.forest hnode env owner target with
    ⟨r, hr, hnone⟩ | ⟨top, hid, rfl, hkind, ht, hrebases, hi, hr⟩ <;> rw [hcopy] at hr
  · obtain ⟨rfl, -⟩ := Prod.mk.inj hr
    rcases hnone with hnone | ⟨c, hnone⟩
    · exact absurd (Except.ok.inj hnone) hne
    · cases hnone
  · obtain ⟨hcopies, rfl⟩ := Prod.mk.inj hr
    obtain rfl := Except.ok.inj hcopies
    obtain ⟨-, -, hapart⟩ := (copyNodes_ok hcopy).apart hs
    obtain ⟨added, rfl, hadded⟩ := links_of_linkCopies (fun c hc d hd =>
      hapart c (List.mem_filter.1 hc).1 d (List.mem_filter.1 hd).1) hlink
    refine ⟨top, hid, rfl, hkind, rfl, ht, hrebases, hi, hsound, added, rfl, ?_⟩
    intro node blob
    rw [hadded]
    refine exists_congr fun c => ?_
    rw [List.mem_filter, beq_iff_eq, and_assoc]
    refine and_congr_right fun hc => and_congr_right fun hfile => and_congr_right fun _ => ?_
    obtain ⟨m, i, hm, rfl⟩ := mem_copiedNodes.1 hc
    obtain ⟨hmt, ho, -⟩ := mem_subtree.1 (mem_numbered hm).1
    rw [← ho]
    exact hs.exists_copiedVersions_iff hmt hfile

namespace CopiedTo

/-- The nodes after a copy are those before it behind the copied rows. -/
lemma nodes_eq (h : t.CopiedTo env top target onlyNewest t') :
    t'.nodes = (t.withCopies env.nodeId (env.now 0) top target).nodes := by
  obtain ⟨added, ht', -⟩ := h.linked
  rw [ht']

/-- A copy brings no blob. -/
lemma blobs_eq (h : t.CopiedTo env top target onlyNewest t') : t'.blobs = t.blobs := by
  obtain ⟨added, ht', -⟩ := h.linked
  rw [ht', withCopies]

/-- A copy leaves the ledger alone. -/
lemma pending_eq (h : t.CopiedTo env top target onlyNewest t') : t'.pending = t.pending := by
  obtain ⟨added, ht', -⟩ := h.linked
  rw [ht', withCopies]

/-- The copies are none of the nodes that were there, and none of them was linked. -/
lemma destination_new (h : t.CopiedTo env top target onlyNewest t') (hs : t.Sound) :
    (∀ n ∈ t.nodes, n.id ∉ (t.copiedNodes env.nodeId top).map CopiedNode.destination) ∧
      ∀ l ∈ t.links, l.node ∉ (t.copiedNodes env.nodeId top).map CopiedNode.destination := by
  rw [map_destination_copiedNodes h.rebases (env.now 0)]
  exact ⟨(hs.keyed.ids_of_insertNodes h.inserted).2,
    hs.linked.not_mem_of_insertNodes hs.keyed h.inserted⟩

end CopiedTo

/-- **A copy to a free place** of a node whose files all have a version. -/
theorem Transferable.copyStatements_ok (h : t.Transferable top target) (hs : t.Sound)
    (hid : node.id = top.id) (hkind : node.kind = top.kind)
    (hids : t.Supplies env.nodeId (t.subtree top.owner top.path).length)
    (hv : ∀ n ∈ t.subtree top.owner top.path, n.path.Valid) (hversions : t.HasVersions top)
    (onlyNewest : Bool) :
    ∃ t', Archive.copyStatements env top.owner node target onlyNewest t =
        (.ok (t.copiedNodes env.nodeId top), t') ∧ t.CopiedTo env top target onlyNewest t' := by
  have hok := h.copyStatements_eq hs hid hkind hids hv onlyNewest
  rw [if_pos hversions] at hok
  have hstatements : Archive.copyStatements env top.owner node target onlyNewest t =
      (.ok (t.copiedNodes env.nodeId top), _) := Prod.ext hok rfl
  obtain ⟨top', hid', -, -, -, hcopied⟩ := copiedTo_of_copyStatements hs hstatements
  obtain rfl := hs.keyed.nodes.eq_of_id hcopied.transferable.stored h.stored (hid'.trans hid)
  exact ⟨_, hstatements, hcopied⟩

end VersionedTree.Tables
