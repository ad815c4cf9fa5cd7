import VersionedTree.Proofs.Archive.Enclosure
import VersionedTree.Proofs.Tables.Insertion
import VersionedTree.Proofs.Tables.Versions

/-!
# Copied nodes and their links

What a copy leaves behind when it succeeds: rows under new identifiers, whose sources belong to the
owner, and then links of the copied files, one file after the other, to versions of their sources.

## Main definitions

* `VersionedTree.Tables.Copied` — rows have been inserted for copies.
* `VersionedTree.Tables.copiedVersions` — the versions that a copy is linked to.

## Main results

* `VersionedTree.Tables.copyNodes_ok` — the copy of a file, or of a directory with all in it.
* `VersionedTree.Tables.linkCopies_cons` — the link of one copy.
* `VersionedTree.Tables.linkCopies_eq` — copies are linked exactly if all sources have a version.
* `VersionedTree.Tables.Keyed.ids_of_insertNodes`,
  `VersionedTree.Tables.Linked.not_mem_of_insertNodes` — new nodes are new, also to links.
-/

set_option autoImplicit false

namespace VersionedTree.Tables

variable {t t' : Tables} {env : Env} {owner : OwnerId} {onlyNewest : Bool}

/-! ## New nodes -/

/-- Inserted nodes have new identifiers, each its own. -/
lemma Keyed.ids_of_insertNodes (hk : t.Keyed) {rows : List Node}
    (hi : t.insertNodes rows = .ok t') :
    (rows.map Node.id).Nodup ∧ ∀ n ∈ t.nodes, n.id ∉ rows.map Node.id := by
  have hnodup := (hk.insertNodes hi).nodes.ids
  rw [eq_of_insertNodes hi, List.map_append, List.map_reverse, List.nodup_append,
    List.nodup_reverse] at hnodup
  refine ⟨hnodup.1, ?_⟩
  intro n hn hnew
  exact hnodup.2.2 n.id (List.mem_reverse.2 hnew) n.id (List.mem_map_of_mem hn) rfl

/-- Links do not lead to new nodes. -/
lemma Linked.not_mem_of_insertNodes (hl : t.Linked) (hk : t.Keyed) {rows : List Node}
    (hi : t.insertNodes rows = .ok t') : ∀ l ∈ t.links, l.node ∉ rows.map Node.id := by
  intro l hmem hnew
  obtain ⟨o, -, hfile⟩ := hl l hmem
  obtain ⟨n, hn, hid, -⟩ := hasKind_iff.1 hfile
  rw [← hid] at hnew
  exact (hk.ids_of_insertNodes hi).2 n hn hnew

/-- A created node is the one that was asked for, and has been inserted. -/
lemma createNode_ok {id : NodeId} {time : Instant} {path : Path} {kind : Kind} {n : Node}
    (e : t.createNode id time owner path kind = (.ok n, t')) :
    t.insertNode n = .ok t' ∧ n = ⟨id, kind, path, owner, time⟩ := by
  unfold createNode at e
  simp only at e
  split at e
  · split at e
    · next t₁ hi =>
      obtain ⟨hr, rfl⟩ := Prod.mk.inj e
      obtain ⟨rfl, -⟩ := Node.of_readBack hr
      exact ⟨hi, rfl⟩
    · cases (Prod.mk.inj e).1
    · cases (Prod.mk.inj e).1
  · cases (Prod.mk.inj e).1

/-! ## Rows of copies -/

/-- Have rows been inserted for these copies of nodes of the owner? -/
def Copied (owner : OwnerId) (copies : List CopiedNode) (t t' : Tables) : Prop :=
  ∃ rows, t.insertNodes rows = .ok t' ∧
    rows.map Node.id = copies.map CopiedNode.destination ∧
    ∀ c ∈ copies, t.hasKind owner c.source c.kind = true

/-- No row is inserted for no copies. -/
lemma Copied.nil (owner : OwnerId) (t : Tables) : Copied owner [] t t := ⟨[], rfl, rfl, by simp⟩

variable {time : Instant} {node : Node} {target : Path}

/-- The copy of a file has its row, if there is a copy. -/
lemma copyFile_ok {id : NodeId} {copy : Option CopiedNode}
    (e : t.copyFile id time owner node target = (.ok copy, t')) :
    Copied owner copy.toList t t' := by
  rcases copyFile_answers owner time node target t id with
    ⟨r, h, hr⟩ | ⟨t₁, -, -, hstored, -, hi, h⟩ <;> rw [e] at h
  · obtain ⟨rfl, rfl⟩ := Prod.mk.inj h
    rcases hr with hr | ⟨c, hr⟩
    · obtain rfl := Except.ok.inj hr
      exact .nil owner _
    · cases hr
  · obtain ⟨hcopy, rfl⟩ := Prod.mk.inj h
    obtain rfl := Except.ok.inj hcopy
    exact ⟨_, insertNodes_singleton hi, rfl, by simpa using hstored⟩

/-- A copy knows the identifier and the kind of its source. -/
lemma exists_of_mem_copiesOf {ids : Nat → NodeId} {source : Path} {k : Nat} {sources : List Node}
    {copy : CopiedNode × Path} (hc : copy ∈ copiesOf ids source target k sources) :
    ∃ n ∈ sources, copy.1.source = n.id ∧ copy.1.kind = n.kind := by
  induction sources generalizing k with
  | nil => cases hc
  | cons n rest ih =>
    unfold copiesOf at hc
    split at hc
    · obtain ⟨m, hm, h⟩ := ih hc
      exact ⟨m, List.mem_cons_of_mem _ hm, h⟩
    · rcases List.mem_cons.1 hc with rfl | hc
      · exact ⟨n, List.mem_cons_self, rfl, rfl⟩
      · obtain ⟨m, hm, h⟩ := ih hc
        exact ⟨m, List.mem_cons_of_mem _ hm, h⟩

/-- The copies of a directory and of what is below it have their rows. -/
lemma copyDirectory_ok {ids : Nat → NodeId} {copies : List CopiedNode}
    (e : t.copyDirectory ids time owner node target = (.ok copies, t')) :
    Copied owner copies t t' := by
  rcases copyDirectory_answers owner time node target t ids with
    ⟨r, h, hr⟩ | ⟨source, t₁, -, -, -, -, -, -, hi, h⟩ <;> rw [e] at h
  · obtain ⟨rfl, rfl⟩ := Prod.mk.inj h
    rcases hr with hr | ⟨c, hr⟩
    · obtain rfl := Except.ok.inj hr
      exact .nil owner _
    · cases hr
  · obtain ⟨hcopies, rfl⟩ := Prod.mk.inj h
    obtain rfl := Except.ok.inj hcopies
    refine ⟨_, hi, by simp [copiedRows, rowsOf], ?_⟩
    intro c hc
    obtain ⟨copy, hcopy, rfl⟩ := List.mem_map.1 hc
    obtain ⟨n, hn, hid, hkind⟩ := exists_of_mem_copiesOf hcopy
    rw [mem_sortedByPath, mem_subtree] at hn
    exact hasKind_iff.2 ⟨n, hn.1, hid.symm, hn.2.1, hkind.symm⟩

/-- **Copied nodes** have their rows, and their sources belong to the owner. -/
lemma copyNodes_ok {copies : List CopiedNode}
    (e : Archive.copyNodes env owner node target t = (.ok copies, t')) :
    Copied owner copies t t' := by
  unfold Archive.copyNodes at e
  split at e
  · split at e
    · next copy t₁ hcopy =>
      obtain ⟨hcopies, rfl⟩ := Prod.mk.inj e
      obtain rfl := Except.ok.inj hcopies
      exact copyFile_ok hcopy
    · cases (Prod.mk.inj e).1
  · exact copyDirectory_ok e
  · cases (Prod.mk.inj e).1

/-! ## Links of copies -/

/-- The versions of its source that a copy is linked to. -/
def copiedVersions (owner : OwnerId) (onlyNewest : Bool) (source : NodeId) (t : Tables) :
    List Version :=
  if onlyNewest then t.newestVersions owner source 1 else t.versionsOf owner source

/-- **One copy is linked** before the others, to at least one version. -/
lemma linkCopies_cons {k : Nat} {c : CopiedNode} {rest : List CopiedNode}
    (e : Archive.linkCopies env owner onlyNewest k (c :: rest) t = (.ok (), t')) :
    ∃ t₁, t.insertLinks ((t.copiedVersions owner onlyNewest c.source).map fun v =>
        ⟨c.destination, v.blob, env.now k⟩) = .ok t₁ ∧
      RunsTo (Statement.KeepsFor owner) t t₁ ∧
      Archive.linkCopies env owner onlyNewest (k + 1) rest t₁ = (.ok (), t') := by
  have hone {vs : List Version} {n : Nat} {t₁ : Tables} (hn : n ≠ 0)
      (h : (if t.hasKind owner c.destination .file = true then
        t.linkVersions (env.now k) c.destination vs else (.ok 0, t)) = (.ok n, t₁)) :
      t.insertLinks (vs.map fun v => ⟨c.destination, v.blob, env.now k⟩) = .ok t₁ := by
    split at h
    · unfold linkVersions at h
      split at h
      · next hi =>
        rw [hi, (Prod.mk.inj h).2]
      · cases (Prod.mk.inj h).1
    · exact absurd (Except.ok.inj (Prod.mk.inj h).1).symm hn
  unfold Archive.linkCopies at e
  simp only at e
  split at e
  · simp at e
  · simp at e
  · next n t₁ hn hlink =>
    refine ⟨t₁, ?_, ?_, e⟩
    · unfold copiedVersions
      cases onlyNewest with
      | true => exact hone hn hlink
      | false => exact hone hn hlink
    · cases onlyNewest with
      | true =>
        have hruns := RunsTo.linkNewest t owner (env.now k) c.source c.destination
        have hlink : t.linkNewest (env.now k) owner c.source c.destination = (.ok n, t₁) := hlink
        rwa [hlink] at hruns
      | false =>
        have hruns := RunsTo.linkAll t owner (env.now k) c.source c.destination
        have hlink : t.linkAll (env.now k) owner c.source c.destination = (.ok n, t₁) := hlink
        rwa [hlink] at hruns

/-- The link of a copy is that of versions of its source, if the copy is a file. -/
lemma linkCopy_eq (time : Instant) (source destination : NodeId) (t : Tables) :
    (if onlyNewest then t.linkNewest time owner source destination
      else t.linkAll time owner source destination) =
      if t.hasKind owner destination .file then
        t.linkVersions time destination (t.copiedVersions owner onlyNewest source)
      else (.ok 0, t) := by
  cases onlyNewest <;> rfl

/-- A copy is linked to different blobs. -/
lemma Keyed.nodup_copiedVersions (hk : t.Keyed) (owner : OwnerId) (onlyNewest : Bool)
    (source : NodeId) : ((t.copiedVersions owner onlyNewest source).map Version.blob).Nodup := by
  have hall := hk.nodup_blobs_versionsOf owner source
  unfold copiedVersions
  split
  · have hsorted : ((t.history owner source).map Version.blob).Nodup :=
      ((List.mergeSort_perm _ _).map _).nodup_iff.2 hall
    exact hsorted.sublist ((List.take_sublist 1 _).map _)
  · exact hall

/-- New links of one node leave the versions of other nodes alone. -/
lemma versionsOf_of_insertLinks (owner : OwnerId) {node target : NodeId} {ws : List Version}
    (hi : t.insertLinks (ws.map fun v => ⟨target, v.blob, time⟩) = .ok t') (hne : node ≠ target) :
    t'.versionsOf owner node = t.versionsOf owner node := by
  obtain rfl := eq_of_insertLinks hi
  unfold versionsOf versions
  rw [List.flatMap_append, List.filter_append, List.filter_eq_nil_iff.2, List.nil_append]
  intro v hv
  simp only [List.mem_flatMap, List.mem_reverse, List.mem_map] at hv
  obtain ⟨l, ⟨w, -, rfl⟩, b, -, rfl⟩ := hv
  simp [Version.ofRows, hne.symm]

/-- The link of a copy leaves other sources alone. -/
lemma copiedVersions_of_insertLinks (owner : OwnerId) (onlyNewest : Bool)
    {source target : NodeId} {ws : List Version}
    (hi : t.insertLinks (ws.map fun v => ⟨target, v.blob, time⟩) = .ok t') (hne : source ≠ target) :
    t'.copiedVersions owner onlyNewest source = t.copiedVersions owner onlyNewest source := by
  unfold copiedVersions newestVersions history
  rw [versionsOf_of_insertLinks owner hi hne]

/-- The copies after the first one are linked if this one is a file and its source has a version. -/
lemma linkCopies_cons_eq {k : Nat} {c : CopiedNode} {rest : List CopiedNode} {t₁ : Tables}
    (hi : t.insertLinks ((t.copiedVersions owner onlyNewest c.source).map fun v =>
      ⟨c.destination, v.blob, env.now k⟩) = .ok t₁) :
    (Archive.linkCopies env owner onlyNewest k (c :: rest) t).1 =
      if t.hasKind owner c.destination .file &&
          !(t.copiedVersions owner onlyNewest c.source).isEmpty then
        (Archive.linkCopies env owner onlyNewest (k + 1) rest t₁).1
      else .error (.illegalState "failed to copy a file") := by
  rw [Archive.linkCopies]
  simp only [linkCopy_eq]
  generalize t.copiedVersions owner onlyNewest c.source = vs at hi
  cases t.hasKind owner c.destination .file with
  | false => rfl
  | true =>
    rw [if_pos rfl, linkVersions, hi]
    cases vs with
    | nil => rfl
    | cons v vs => rfl

/-- **Copies are linked** exactly if all of them are files and all their sources have a version.

**Proof sketch.** Induction on the copies. A copy has no links yet, so that those to the different
blobs of its source are not refused, and the link of one copy leaves the others as they were. -/
theorem linkCopies_eq (hk : t.Keyed) {k : Nat} {copies : List CopiedNode}
    (hnew : ∀ c ∈ copies, ∀ l ∈ t.links, l.node ≠ c.destination)
    (hnodup : (copies.map CopiedNode.destination).Nodup)
    (hapart : ∀ c ∈ copies, ∀ d ∈ copies, d.source ≠ c.destination) :
    (Archive.linkCopies env owner onlyNewest k copies t).1 =
      if copies.all fun c => t.hasKind owner c.destination .file &&
          !(t.copiedVersions owner onlyNewest c.source).isEmpty then
        .ok ()
      else .error (.illegalState "failed to copy a file") := by
  induction copies generalizing k t with
  | nil => rfl
  | cons c rest ih =>
    rw [List.forall_mem_cons] at hnew
    rw [List.map_cons, List.nodup_cons] at hnodup
    have hi := insertLinks_to_new hk (env.now k)
      (hk.nodup_copiedVersions owner onlyNewest c.source) hnew.1
    rw [linkCopies_cons_eq hi, List.all_cons]
    generalize ht₁ : ({ t with links := _ } : Tables) = t₁ at hi
    have hnew₁ : ∀ d ∈ rest, ∀ l ∈ t₁.links, l.node ≠ d.destination := by
      rw [eq_of_insertLinks hi]
      intro d hd l hl
      rcases List.mem_append.1 hl with hl | hl
      · obtain ⟨v, -, rfl⟩ := List.mem_map.1 (List.mem_reverse.1 hl)
        exact fun e => hnodup.1 (List.mem_map.2 ⟨d, hd, e.symm⟩)
      · exact hnew.2 d hd l hl
    have hrest := ih (k := k + 1) (hk.insertLinks hi) hnew₁ hnodup.2 (fun d hd d' hd' =>
      hapart d (List.mem_cons_of_mem _ hd) d' (List.mem_cons_of_mem _ hd'))
    have hall : (rest.all fun d => t₁.hasKind owner d.destination .file &&
          !(t₁.copiedVersions owner onlyNewest d.source).isEmpty) =
        rest.all fun d => t.hasKind owner d.destination .file &&
          !(t.copiedVersions owner onlyNewest d.source).isEmpty := by
      rw [Bool.eq_iff_iff, List.all_eq_true, List.all_eq_true]
      refine forall₂_congr ?_
      intro d hd
      have hversions := copiedVersions_of_insertLinks owner onlyNewest hi
        (hapart c List.mem_cons_self d (List.mem_cons_of_mem _ hd))
      have hkind : t₁.hasKind owner d.destination .file = t.hasKind owner d.destination .file := by
        rw [eq_of_insertLinks hi]
        rfl
      rw [hversions, hkind]
    rw [hrest, hall]
    cases t.hasKind owner c.destination .file &&
      !(t.copiedVersions owner onlyNewest c.source).isEmpty <;> rfl

/-- Nodes that are copied, if there are some, are linked. -/
lemma copyStatements_of_ok {node : Node} {target : Path} {copies : List CopiedNode}
    (hcopy : Archive.copyNodes env owner node target t = (.ok copies, t')) (hne : copies ≠ []) :
    Archive.copyStatements env owner node target onlyNewest t =
      let linked :=
        Archive.linkCopies env owner onlyNewest 1 (copies.filter fun c => c.kind == .file) t'
      (linked.1.map fun _ => copies, linked.2) := by
  unfold Archive.copyStatements
  rw [hcopy]
  split
  · next e => cases (Prod.mk.inj e).1
  · next e => exact absurd (Except.ok.inj (Prod.mk.inj e).1) hne
  · next copies' t₁ _ e =>
    obtain ⟨hc, rfl⟩ := Prod.mk.inj e
    obtain rfl := Except.ok.inj hc
    split <;> next he => rw [he]; rfl

/-- A copy that succeeds has copied some nodes and linked the files among them. -/
lemma copyStatements_steps {node : Node} {target : Path} {copies : List CopiedNode}
    (e : Archive.copyStatements env owner node target onlyNewest t = (.ok copies, t')) :
    copies ≠ [] ∧ ∃ t₁, Archive.copyNodes env owner node target t = (.ok copies, t₁) ∧
      Archive.linkCopies env owner onlyNewest 1 (copies.filter fun c => c.kind == .file) t₁ =
        (.ok (), t') := by
  unfold Archive.copyStatements at e
  split at e
  · cases (Prod.mk.inj e).1
  · cases (Prod.mk.inj e).1
  · next copies' t₁ hne hcopy =>
    split at e
    · cases (Prod.mk.inj e).1
    · next t₂ hlink =>
      obtain ⟨hc, rfl⟩ := Prod.mk.inj e
      obtain rfl := Except.ok.inj hc
      exact ⟨hne, t₁, hcopy, hlink⟩

/-! ## Files among the copies -/

/-- The copies are apart from each other, from all sources and from all links. -/
lemma Copied.apart {copies : List CopiedNode} (h : Copied owner copies t t') (hs : t.Sound) :
    (copies.map CopiedNode.destination).Nodup ∧
      (∀ c ∈ copies, ∀ l ∈ t'.links, l.node ≠ c.destination) ∧
      ∀ c ∈ copies, ∀ d ∈ copies, d.source ≠ c.destination := by
  obtain ⟨rows, hi, hids, hsource⟩ := h
  obtain ⟨hnodup, hold⟩ := hs.keyed.ids_of_insertNodes hi
  have hlinks := hs.linked.not_mem_of_insertNodes hs.keyed hi
  rw [hids] at hnodup hold hlinks
  refine ⟨hnodup, ?_, ?_⟩
  · rw [eq_of_insertNodes hi]
    intro c hc l hl heq
    exact hlinks l hl (heq ▸ List.mem_map_of_mem hc)
  · intro c hc d hd heq
    obtain ⟨n, hn, hid, -⟩ := hasKind_iff.1 (hsource d hd)
    refine hold n hn ?_
    rw [hid, heq]
    exact List.mem_map_of_mem hc

/-- **The files among the copies** are linked exactly if all their sources have a version. -/
theorem Copied.linkCopies_eq {copies : List CopiedNode} (h : Copied owner copies t t')
    (hs : t.Sound) (env : Env) (onlyNewest : Bool) (k : Nat) :
    (Archive.linkCopies env owner onlyNewest k (copies.filter fun c => c.kind == .file) t').1 =
      if (copies.filter fun c => c.kind == .file).all fun c =>
          t'.hasKind owner c.destination .file &&
            !(t'.copiedVersions owner onlyNewest c.source).isEmpty then
        .ok ()
      else .error (.illegalState "failed to copy a file") := by
  obtain ⟨hnodup, hnew, hapart⟩ := h.apart hs
  obtain ⟨rows, hi, -, -⟩ := h
  refine Tables.linkCopies_eq (hs.keyed.insertNodes hi) ?_ ?_ ?_
  · intro c hc
    exact hnew c (List.mem_filter.1 hc).1
  · exact hnodup.sublist (List.filter_sublist.map _)
  · intro c hc d hd
    exact hapart c (List.mem_filter.1 hc).1 d (List.mem_filter.1 hd).1

end VersionedTree.Tables
