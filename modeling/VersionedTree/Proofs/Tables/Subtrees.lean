import VersionedTree.Proofs.Tables.Insertion

/-!
# Subtrees at free places

A node can be brought to a place that is free and in a container outside of it. Nothing is below a
free place, so that all that is below the node finds its new place free as well: moves and copies
need to look at the top only. A copy at such a place stays apart from its source.

## Main definitions

* `VersionedTree.Tables.Transferable` — a node and a free place for it.
* `VersionedTree.Tables.Supplies` — new identifiers, different from each other.
* `VersionedTree.Tables.copiedNodes`, `VersionedTree.Tables.withCopies` — the copies of a node and
  of all that is below it, and the tables with them.
* `VersionedTree.Node.movedAlong` — a node after the move of a place above it.

## Main results

* `VersionedTree.Tables.transferable_of_moveDirectory` — what a directory that has moved tells.
* `VersionedTree.Tables.Transferable.copyDirectory_eq`,
  `VersionedTree.Tables.Transferable.copyFile_eq` — copies.
* `VersionedTree.Tables.Transferable.subtree_after_copy`,
  `VersionedTree.Tables.Transferable.subtree_at_copy` — the copies are not among the sources, and
  nothing else is at or below their place.
-/

set_option autoImplicit false

namespace VersionedTree

/-! ## Keys of two groups of nodes -/

namespace Node.Keyed

variable {ms ns : List Node}

/-- The order of nodes does not matter for their keys. -/
lemma reverse (h : Keyed ns) : Keyed ns.reverse := by
  refine ⟨?_, ?_⟩
  · rw [List.map_reverse, List.nodup_reverse]
    exact h.ids
  · intro m hm n hn
    exact h.places m (List.mem_reverse.1 hm) n (List.mem_reverse.1 hn)

/-- Nodes that share no key with others may join them. -/
lemma append (hm : Keyed ms) (hn : Keyed ns) (hids : ∀ m ∈ ms, ∀ n ∈ ns, n.id ≠ m.id)
    (hplaces : ∀ m ∈ ms, ∀ n ∈ ns, n.owner = m.owner → n.path ≠ m.path) : Keyed (ms ++ ns) := by
  refine ⟨?_, ?_⟩
  · rw [List.map_append, List.nodup_append]
    refine ⟨hm.ids, hn.ids, ?_⟩
    intro id hid id' hid' e
    obtain ⟨m, hmem, rfl⟩ := List.mem_map.1 hid
    obtain ⟨n, hnmem, rfl⟩ := List.mem_map.1 hid'
    exact hids m hmem n hnmem e.symm
  · intro x hx y hy ho hp
    rcases List.mem_append.1 hx with hx | hx <;> rcases List.mem_append.1 hy with hy | hy
    · exact hm.places x hx y hy ho hp
    · exact absurd hp.symm (hplaces x hx y hy ho.symm)
    · exact absurd hp (hplaces y hy x hx ho)
    · exact hn.places x hx y hy ho hp

end Node.Keyed

/-- The node after all that the owner has at and below `source` has moved to `target`. -/
def Node.movedAlong (owner : OwnerId) (source target : Path) (n : Node) : Node :=
  if n.owner = owner ∧ source.covers n.path = true then
    { n with path := n.path.graft source target }
  else n

namespace Node

variable {owner : OwnerId} {source target : Path} {n : Node}

/-- A node that moves along keeps its identifier. -/
@[simp] lemma id_movedAlong : (n.movedAlong owner source target).id = n.id := by
  unfold movedAlong
  split <;> rfl

/-- A node that moves along keeps its kind. -/
@[simp] lemma kind_movedAlong : (n.movedAlong owner source target).kind = n.kind := by
  unfold movedAlong
  split <;> rfl

/-- What the owner has at and below the source is grafted onto the target. -/
lemma movedAlong_of_below (ho : n.owner = owner) (hc : source.covers n.path = true) :
    n.movedAlong owner source target = { n with path := n.path.graft source target } :=
  if_pos ⟨ho, hc⟩

/-- What is not at or below the source, or is of another owner, stays where it is. -/
lemma movedAlong_of_not_below (h : ¬(n.owner = owner ∧ source.covers n.path = true)) :
    n.movedAlong owner source target = n := if_neg h

/-- The node that is moved gets the place to which it is moved. -/
lemma movedAlong_top (n : Node) :
    n.movedAlong n.owner n.path target = { n with path := target } := by
  rw [movedAlong_of_below rfl (Path.covers_refl _), Path.graft_source]

end Node

namespace Tables

variable {t t' : Tables} {top : Node} {target : Path}

/-- May the node be brought to this place? The place is free, in a container, and outside of the
node. -/
structure Transferable (t : Tables) (top : Node) (target : Path) : Prop where
  stored : top ∈ t.nodes
  kind : top.kind ≠ .root
  isRoot : target.isRoot = false
  outside : top.path.covers target = false
  container : t.hasContainerAt top.owner target.parent = true
  free : ∀ n ∈ t.nodes, n.owner = top.owner → n.path ≠ target

namespace Transferable

/-! ## Free places -/

/-- A node that may be brought elsewhere is below the top. -/
lemma isRoot_source (h : t.Transferable top target) (hf : t.IsForest) : top.path.isRoot = false :=
  hf.path_ne_root h.stored h.kind

/-- **Nothing is below a free place.** -/
theorem nothing_below (h : t.Transferable top target) (hf : t.IsForest) {n : Node}
    (hn : n ∈ t.nodes) (ho : n.owner = top.owner) : target.covers n.path = false := by
  rw [Bool.eq_false_iff]
  intro hc
  obtain ⟨m, hm, hmo, hmp, -⟩ := hf.container_above hn hc (Ne.symm (h.free n hn ho))
  exact h.free m hm (hmo.trans ho) hmp

/-- The place that a node gets is not at the top, and is free. -/
lemma graft_free (h : t.Transferable top target) (hf : t.IsForest) {p : Path}
    (hc : top.path.covers p = true) :
    (p.graft top.path target).isRoot = false ∧
      ∀ n ∈ t.nodes, n.owner = top.owner → n.path ≠ p.graft top.path target := by
  have hs := h.isRoot_source hf
  refine ⟨Path.isRoot_graft hs h.isRoot hc, ?_⟩
  intro n hn ho e
  have hbelow : target.covers (p.graft top.path target) = true := Path.covers_graft hs hc
  rw [← e, h.nothing_below hf hn ho] at hbelow
  cases hbelow

/-- What is brought along leaves the node. -/
lemma graft_outside (h : t.Transferable top target) (hf : t.IsForest) {p : Path}
    (hc : top.path.covers p = true) :
    top.path.covers (p.graft top.path target) = false := by
  rw [Bool.eq_false_iff]
  intro hin
  rcases Path.covers_total hin (Path.covers_graft (h.isRoot_source hf) hc) with hc | hc
  · rw [h.outside] at hc
    cases hc
  · rw [h.nothing_below hf h.stored rfl] at hc
    cases hc

end Transferable

/-! ## Moves of directories -/

/-- A node that has moved without a clash has moved to a place that was free: otherwise it would
share the place with what was there before. -/
lemma free_of_moved (hk : t.Keyed)
    (hmoved : Node.Keyed (t.nodes.map (Node.movedAlong top.owner top.path target)))
    (hmem : top ∈ t.nodes) (hout : top.path.covers target = false) :
    ∀ n ∈ t.nodes, n.owner = top.owner → n.path ≠ target := by
  intro n hn ho hp
  have htop : top.movedAlong top.owner top.path target = { top with path := target } :=
    Node.movedAlong_top top
  have hstay : n.movedAlong top.owner top.path target = n := by
    refine Node.movedAlong_of_not_below fun hin => ?_
    rw [hp, hout] at hin
    cases hin.2
  have hboth : { top with path := target } = n :=
    hmoved.places _ (htop ▸ List.mem_map_of_mem hmem) _ (hstay ▸ List.mem_map_of_mem hn)
      ho.symm hp.symm
  have hsame : n = top := hk.nodes.eq_of_id hn hmem (congrArg Node.id hboth).symm
  rw [← hp, hsame, Path.covers_refl] at hout
  cases hout

/-- **A directory that has moved** was transferable, and exactly the owner's nodes at and below it
have moved. -/
theorem transferable_of_moveDirectory (hf : t.IsForest) {owner : OwnerId} {node : Node} {n : Nat}
    (hn : 0 < n) (h : t.moveDirectory owner node target = (.ok (some n), t')) :
    ∃ top, top.id = node.id ∧ top.owner = owner ∧ top.kind = .dir ∧ t.Transferable top target ∧
      n = (t.subtree owner top.path).length ∧
      t' = { t with nodes := t.nodes.map (Node.movedAlong owner top.path target) } := by
  have hkeyed := hf.keyed.moveDirectory owner node target
  rw [h] at hkeyed
  rcases moveDirectory_answers owner node target t with
    ⟨r, hr, hzero⟩ | ⟨top, nodes, hstored, hroot, hout, hcontainer, hmoved, hr⟩ <;> rw [h] at hr
  · obtain ⟨rfl, -⟩ := Prod.mk.inj hr
    exact absurd (hzero n rfl) hn.ne'
  · obtain ⟨hcount, rfl⟩ := Prod.mk.inj hr
    obtain ⟨hmem, hid, rfl, hkind⟩ := mem_of_stored? hstored
    obtain rfl : nodes = t.nodes.map (Node.movedAlong top.owner top.path target) := by
      rw [eq_of_relocate hmoved]
      exact List.map_congr_left fun m hm => moved_subtree hf.keyed.nodes hm
    refine ⟨top, hid, rfl, hkind, ?_, Option.some.inj (Except.ok.inj hcount), rfl⟩
    exact ⟨hmem, by simp [hkind], hroot, hout, hcontainer,
      free_of_moved hf.keyed hkeyed.nodes hmem hout⟩

/-! ## Copies -/

/-- Are the first `count` identifiers of the supply different, and those of no node? -/
structure Supplies (ids : Nat → NodeId) (count : Nat) (t : Tables) : Prop where
  distinct : ∀ i < count, ∀ j < count, ids i = ids j → i = j
  unused : ∀ k < count, ∀ n ∈ t.nodes, n.id ≠ ids k

/-- A supply for many copies is one for fewer. -/
lemma Supplies.mono {ids : Nat → NodeId} {m n : Nat} (h : t.Supplies ids n) (hle : m ≤ n) :
    t.Supplies ids m :=
  ⟨fun i hi j hj => h.distinct i (hi.trans_le hle) j (hj.trans_le hle),
    fun k hk => h.unused k (hk.trans_le hle)⟩

/-- Numbered nodes get different identifiers. -/
lemma Supplies.nodup {ids : Nat → NodeId} {owner : OwnerId} {path : Path}
    (h : t.Supplies ids (t.subtree owner path).length) (hk : t.Keyed) :
    ((t.numbered owner path).map fun p => ids p.2).Nodup := by
  refine (hk.nodup_numbered owner path).map_on ?_
  intro ⟨m, i⟩ hm ⟨n, j⟩ hn e
  obtain rfl := h.distinct i (mem_numbered hm).2 j (mem_numbered hn).2 e
  rw [eq_of_number hm hn]

/-- The copies of the nodes at and below a node, in the order of their sources. -/
def copiedNodes (ids : Nat → NodeId) (top : Node) (t : Tables) : List CopiedNode :=
  (t.numbered top.owner top.path).map fun (m, i) => ⟨m.id, ids i, m.kind⟩

/-- The tables with the copies of a node and of all that is below it. -/
def withCopies (ids : Nat → NodeId) (time : Instant) (top : Node) (target : Path) (t : Tables) :
    Tables :=
  { t with nodes := (copiedRows top.owner time target t ids top).reverse ++ t.nodes }

/-- A file is alone. -/
lemma subtree_of_file (hf : t.IsForest) (hmem : top ∈ t.nodes) (hfile : top.kind = .file) :
    t.subtree top.owner top.path = [top] := by
  have hall : ∀ n ∈ t.subtree top.owner top.path, n = top := by
    intro n hn
    obtain ⟨hnt, ho, hc⟩ := mem_subtree.1 hn
    exact hf.eq_of_covers_of_file hmem hnt hfile ho hc
  have hnodup := hf.keyed.nodup_subtree top.owner top.path
  have hpos : 0 < (t.subtree top.owner top.path).length :=
    List.length_pos_of_mem (mem_subtree.2 ⟨hmem, rfl, Path.covers_refl _⟩)
  have hreplicate := List.eq_replicate_of_mem hall
  rw [hreplicate, List.nodup_replicate] at hnodup
  rw [hreplicate, Nat.le_antisymm hnodup hpos, List.replicate_one]

/-- The only number at a file is its own. -/
lemma numbered_of_file (hf : t.IsForest) (hmem : top ∈ t.nodes) (hfile : top.kind = .file) :
    t.numbered top.owner top.path = [(top, 0)] := by
  rw [numbered, subtree_of_file hf hmem hfile, sortedByPath, List.mergeSort_singleton]
  rfl

/-- A file is rebased, whatever its place is. -/
lemma rebases_of_file (hf : t.IsForest) (hmem : top ∈ t.nodes) (hfile : top.kind = .file)
    (target : Path) : t.Rebases top.owner top.path target := by
  intro m hm
  rw [subtree_of_file hf hmem hfile, List.mem_singleton] at hm
  rw [hm, Path.rebase_self, Path.graft_source]

/-- A file has one copy. -/
lemma copiedRows_of_file (hf : t.IsForest) (hmem : top ∈ t.nodes) (hfile : top.kind = .file)
    (target : Path) (time : Instant) (ids : Nat → NodeId) :
    copiedRows top.owner time target t ids top =
      [⟨ids 0, .file, target, top.owner, time⟩] := by
  rw [(rebases_of_file hf hmem hfile target).copiedRows_eq, numbered_of_file hf hmem hfile]
  simp [hfile]

/-- What is reported of the copies. -/
lemma Rebases.copiedNodes_eq (h : t.Rebases top.owner top.path target) (ids : Nat → NodeId) :
    (copiesOf ids top.path target 0 (sortedByPath (t.subtree top.owner top.path))).map Prod.fst =
      t.copiedNodes ids top := by
  rw [h.copiesOf_eq, List.map_map]
  rfl

namespace Transferable

variable {ids : Nat → NodeId} (time : Instant)

/-- The copies share no key, neither with each other nor with the nodes that are there. -/
lemma keyed_copiedRows (h : t.Transferable top target) (hf : t.IsForest)
    (hr : t.Rebases top.owner top.path target)
    (hids : t.Supplies ids (t.subtree top.owner top.path).length) :
    Node.Keyed ((copiedRows top.owner time target t ids top).reverse ++ t.nodes) := by
  have hs := h.isRoot_source hf
  rw [hr.copiedRows_eq time ids]
  refine Node.Keyed.append (Node.Keyed.reverse ⟨?_, ?_⟩) hf.keyed.nodes ?_ ?_
  · rw [List.map_map]
    exact hids.nodup hf.keyed
  · intro x hx y hy _ hp
    obtain ⟨⟨m, i⟩, hm, rfl⟩ := List.mem_map.1 hx
    obtain ⟨⟨n, j⟩, hn, rfl⟩ := List.mem_map.1 hy
    obtain ⟨hmt, hmo, hmc⟩ := mem_subtree.1 (mem_numbered hm).1
    obtain ⟨hnt, hno, hnc⟩ := mem_subtree.1 (mem_numbered hn).1
    have hpath : m.path = n.path := Path.graft_inj hs hmc hnc hp
    obtain rfl := hf.keyed.nodes.places m hmt n hnt (hmo.trans hno.symm) hpath
    rw [hf.keyed.number_unique hm hn]
  · intro x hx n hn
    obtain ⟨⟨m, i⟩, hm, rfl⟩ := List.mem_map.1 (List.mem_reverse.1 hx)
    exact hids.unused i (mem_numbered hm).2 n hn
  · intro x hx n hn ho hp
    obtain ⟨⟨m, i⟩, hm, rfl⟩ := List.mem_map.1 (List.mem_reverse.1 hx)
    exact (h.graft_free hf (mem_subtree.1 (mem_numbered hm).1).2.2).2 n hn ho hp

/-- The copies are inserted. -/
lemma insert_copiedRows (h : t.Transferable top target) (hf : t.IsForest)
    (hr : t.Rebases top.owner top.path target)
    (hids : t.Supplies ids (t.subtree top.owner top.path).length) :
    t.insertNodes (copiedRows top.owner time target t ids top) =
      .ok (t.withCopies ids time top target) :=
  insertNodes_of_keyed (hr.isWellPlaced_copiedRows time ids hf (h.isRoot_source hf) h.isRoot)
    (h.keyed_copiedRows time hf hr hids)

section Statements

variable {node : Node} (h : t.Transferable top target) (hf : t.IsForest) (hid : node.id = top.id)
  (hkind : node.kind = top.kind)
  (hids : t.Supplies ids (t.subtree top.owner top.path).length)

include h hf hid hkind hids

/-- **The copy of a directory** to a place where it can be brought. -/
theorem copyDirectory_eq (hv : ∀ n ∈ t.subtree top.owner top.path, n.path.Valid)
    (hdir : top.kind = .dir) :
    t.copyDirectory ids time top.owner node target =
      (.ok (t.copiedNodes ids top),
        t.withCopies ids time top target) := by
  have hr := rebases_of_valid (h.isRoot_source hf) h.isRoot hv
  have hstored : t.stored? top.owner node.id .dir = some top := by
    rw [hid, ← hdir]
    exact hf.keyed.stored?_of_mem h.stored
  have hinsert := h.insert_copiedRows time hf hr hids
  unfold copyDirectory
  rw [hkind, hdir, h.isRoot, hstored]
  simp only [bne_self_eq_false, Bool.or_false, Bool.false_eq_true, if_false]
  rw [Node.readBackAll_of_valid fun n hn => hv n (mem_sortedByPath.1 hn),
    Path.isAncestorOf_eq_covers, h.outside, h.container]
  simp only [Bool.false_eq_true, if_false, if_true]
  rw [copiedRows] at hinsert
  rw [hinsert, hr.copiedNodes_eq]

/-- **The copy of a file** to a place where it can be brought. -/
theorem copyFile_eq (hfile : top.kind = .file) :
    t.copyFile (ids 0) time top.owner node target =
      (.ok (some ⟨node.id, ids 0, .file⟩),
        t.withCopies ids time top target) := by
  have hr := rebases_of_file hf h.stored hfile target
  have hstored : t.hasKind top.owner node.id .file = true :=
    hasKind_iff.2 ⟨top, h.stored, hid.symm, rfl, hfile⟩
  have hplaced := hr.isWellPlaced_copiedRows time ids hf (h.isRoot_source hf) h.isRoot
  have hkeyed := h.keyed_copiedRows time hf hr hids
  rw [withCopies, copiedRows_of_file hf h.stored hfile]
  rw [copiedRows_of_file hf h.stored hfile] at hplaced hkeyed
  have hinsert := insertNode_of_keyed (hplaced _ (List.mem_singleton_self _)) hkeyed
  unfold copyFile
  rw [hkind, hfile, h.isRoot, hstored, h.container]
  simp only [bne_self_eq_false, Bool.or_false, Bool.and_self, Bool.false_eq_true, if_false, if_true,
    hinsert]
  rfl

end Statements

/-- **The copies are not among the sources**: below the source is what was there. -/
theorem subtree_after_copy (h : t.Transferable top target) (hf : t.IsForest)
    (hr : t.Rebases top.owner top.path target)
    (hn : t'.nodes = (t.withCopies ids time top target).nodes) :
    t'.subtree top.owner top.path = t.subtree top.owner top.path := by
  have hnone : ((copiedRows top.owner time target t ids top).reverse.filter fun n =>
      n.owner == top.owner && top.path.covers n.path) = [] := by
    refine List.filter_eq_nil_iff.2 ?_
    intro n hmem
    rw [hr.copiedRows_eq time ids] at hmem
    obtain ⟨⟨m, i⟩, hm, rfl⟩ := List.mem_map.1 (List.mem_reverse.1 hmem)
    simp [h.graft_outside hf (mem_subtree.1 (mem_numbered hm).1).2.2]
  rw [subtree, hn, withCopies, List.filter_append, hnone, List.nil_append, subtree]

/-- **The copies are what is at and below the new place.** -/
theorem subtree_at_copy (h : t.Transferable top target) (hf : t.IsForest)
    (hr : t.Rebases top.owner top.path target)
    (hn : t'.nodes = (t.withCopies ids time top target).nodes) :
    t'.subtree top.owner target = (copiedRows top.owner time target t ids top).reverse := by
  have hall : ((copiedRows top.owner time target t ids top).reverse.filter fun n =>
      n.owner == top.owner && target.covers n.path) =
        (copiedRows top.owner time target t ids top).reverse := by
    refine List.filter_eq_self.2 ?_
    intro n hmem
    rw [hr.copiedRows_eq time ids] at hmem
    obtain ⟨⟨m, i⟩, hm, rfl⟩ := List.mem_map.1 (List.mem_reverse.1 hmem)
    have hbelow : target.covers (m.path.graft top.path target) = true :=
      Path.covers_graft (h.isRoot_source hf) (mem_subtree.1 (mem_numbered hm).1).2.2
    simp [hbelow]
  have hnone : (t.nodes.filter fun n => n.owner == top.owner && target.covers n.path) = [] := by
    refine List.filter_eq_nil_iff.2 ?_
    intro n hmem
    simp only [Bool.and_eq_true, beq_iff_eq, not_and, Bool.not_eq_true]
    exact h.nothing_below hf hmem
  rw [subtree, hn, withCopies, List.filter_append, hall, hnone, List.append_nil]

end Transferable

end Tables

end VersionedTree
