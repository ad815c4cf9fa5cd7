import VersionedTree.Proofs.Tables.Subtrees

/-!
# Moves

A node moves with all that is below it. If the place is free, then so are the places that all other
nodes get, and each of them can get its place before or after any other one. From its new place the
node can go back, which restores all nodes.

## Main definitions

* `VersionedTree.Tables.Movable` — a node and a place where its move is accepted.
* `VersionedTree.Tables.afterMove` — the tables after a move.
* `VersionedTree.Tables.replaced` — the number of nodes that have another place.

## Main results

* `VersionedTree.Tables.Transferable.relocate_eq` — nodes get their new places in any order.
* `VersionedTree.Tables.Movable.moveFile_eq`, `VersionedTree.Tables.Movable.moveDirectory_eq` —
  moves that are accepted.
* `VersionedTree.Tables.moveFile_of_not_movable`,
  `VersionedTree.Tables.moveDirectory_of_not_movable` — moves that are not.
* `VersionedTree.Tables.Movable.replaced_eq` — how many nodes get another place.
* `VersionedTree.Tables.Movable.back`, `VersionedTree.Tables.Movable.afterMove_back` — the way back.
-/

set_option autoImplicit false

namespace VersionedTree

namespace Tables

variable {t : Tables} {top node n : Node} {owner : OwnerId} {target : Path}

/-! ## Places in any order -/

/-- **Nodes get places one after the other** if these are free for their owner and different from
each other, and neither nodes nor places are at the top. -/
theorem relocate_ok {moves : List (NodeId × Path)} {nodes : List Node}
    (hplace : ∀ move ∈ moves, move.2.isRoot = false)
    (hkind : ∀ move ∈ moves, ∀ n ∈ nodes, n.id = move.1 → n.kind ≠ .root)
    (hfree : ∀ move ∈ moves, ∀ n ∈ nodes, n.owner = owner → n.path ≠ move.2)
    (hne : moves.Pairwise fun x y => x.2 ≠ y.2) :
    relocate owner moves nodes = .ok (nodes.map (moved moves)) := by
  induction moves generalizing nodes with
  | nil => exact congrArg Except.ok (List.map_id nodes).symm
  | cons move rest ih =>
    obtain ⟨id, path⟩ := move
    rw [List.forall_mem_cons] at hplace hkind hfree
    rw [List.pairwise_cons] at hne
    have hfits : isMisplaced nodes id path = false := by
      simp only [isMisplaced, List.any_eq_false, Bool.and_eq_true, beq_iff_eq,
        Bool.not_eq_true', not_and, Bool.not_eq_false]
      intro n hn hid
      rw [Node.isWellPlaced_iff]
      simp [hkind.1 n hn hid, hplace.1]
    have hopen : isTaken nodes owner id path = false := by
      simp only [isTaken, List.any_eq_false, Bool.and_eq_true, beq_iff_eq, not_and]
      exact fun n hn h => hfree.1 n hn h.2
    have hlater : relocate owner rest (place nodes id path) =
        .ok ((place nodes id path).map (moved rest)) := by
      refine ih hplace.2 ?_ ?_ hne.2 <;> intro move hm n hn <;>
        obtain ⟨m, hmem, rfl⟩ := mem_place.1 hn
      · intro hid
        split at hid <;> split <;> exact hkind.2 move hm m hmem hid
      · -- a node that has got its place has not got that of a later one
        split
        · exact fun _ => hne.1 move hm
        · exact hfree.2 move hm m hmem
    rw [relocate, hfits, hopen, if_neg Bool.false_ne_true, if_neg Bool.false_ne_true, hlater, place,
      List.map_map]
    rfl

/-- The order of moves of different nodes does not matter. -/
lemma moved_perm {moves moves' : List (NodeId × Path)} (h : moves.Perm moves')
    (hn : (moves'.map Prod.fst).Nodup) (n : Node) : moved moves n = moved moves' n := by
  by_cases hmem : ∃ path, (n.id, path) ∈ moves'
  · obtain ⟨path, hmem⟩ := hmem
    rw [moved_of_mem hn hmem, moved_of_mem ((h.map Prod.fst).nodup_iff.2 hn) (h.mem_iff.2 hmem)]
  · have hout : ∀ move ∈ moves', move.1 ≠ n.id := by
      intro move hm e
      exact hmem ⟨move.2, e ▸ hm⟩
    rw [moved_of_not_mem hout, moved_of_not_mem fun move hm => hout move (h.mem_iff.1 hm)]

namespace Transferable

/-- Different nodes get different places. -/
lemma movedPlaces_pairwise (h : t.Transferable top target) (hf : t.IsForest) :
    (movedPlaces (t.subtree top.owner top.path) top.path target).Pairwise
      fun x y => x.2 ≠ y.2 := by
  have hnodup := hf.keyed.nodup_subtree top.owner top.path
  refine List.pairwise_map.2 (hnodup.pairwise_of_forall_ne ?_)
  intro m hm n hn hne e
  obtain ⟨hmt, hmo, hmc⟩ := mem_subtree.1 hm
  obtain ⟨hnt, hno, hnc⟩ := mem_subtree.1 hn
  exact hne (hf.keyed.nodes.places m hmt n hnt (hmo.trans hno.symm)
    (Path.graft_inj (h.isRoot_source hf) hmc hnc e))

/-- **The nodes at and below a node get their new places in any order.**

**Proof sketch.** Nothing is below a free place, so that all new places are free at the beginning.
Different nodes get different places, so that those still to come stay free. -/
theorem relocate_eq (h : t.Transferable top target) (hf : t.IsForest)
    {moves : List (NodeId × Path)}
    (hp : moves.Perm (movedPlaces (t.subtree top.owner top.path) top.path target)) :
    relocate top.owner moves t.nodes =
      .ok (t.nodes.map (Node.movedAlong top.owner top.path target)) := by
  have hmoves : ∀ move ∈ moves, ∃ m ∈ t.nodes, m.owner = top.owner ∧
      top.path.covers m.path = true ∧ move = (m.id, m.path.graft top.path target) := by
    intro move hm
    obtain ⟨m, hsub, rfl⟩ := List.mem_map.1 (hp.mem_iff.1 hm)
    obtain ⟨hmt, hmo, hmc⟩ := mem_subtree.1 hsub
    exact ⟨m, hmt, hmo, hmc, rfl⟩
  have hids : ((movedPlaces (t.subtree top.owner top.path) top.path target).map
      Prod.fst).Nodup := by
    rw [movedPlaces, List.map_map]
    exact hf.keyed.nodes.ids.sublist (List.filter_sublist.map _)
  have hok : relocate top.owner moves t.nodes = .ok (t.nodes.map (moved moves)) := by
    refine relocate_ok ?_ ?_ ?_ (hp.symm.pairwise (h.movedPlaces_pairwise hf) fun e => e.symm)
    · intro move hm
      obtain ⟨m, -, -, hmc, rfl⟩ := hmoves move hm
      exact (h.graft_free hf hmc).1
    · intro move hm n hn hid
      obtain ⟨m, hmt, -, hmc, rfl⟩ := hmoves move hm
      obtain rfl := hf.keyed.nodes.eq_of_id hn hmt hid
      exact hf.kind_ne_root hn (h.isRoot_source hf) hmc
    · intro move hm
      obtain ⟨m, -, -, hmc, rfl⟩ := hmoves move hm
      exact (h.graft_free hf hmc).2
  rw [hok]
  refine congrArg Except.ok (List.map_congr_left fun n hn => ?_)
  rw [moved_perm hp hids, moved_subtree hf.keyed.nodes hn, Node.movedAlong]

end Transferable

/-! ## Moves that are accepted -/

/-- Is the move of a node to this place accepted? The node can be brought there, or it is a file
that is there already. -/
def Movable (t : Tables) (top : Node) (target : Path) : Prop :=
  t.Transferable top target ∨ top ∈ t.nodes ∧ top.kind = .file ∧ target = top.path

/-- The tables after a node has moved with all that is below it. -/
def afterMove (t : Tables) (top : Node) (target : Path) : Tables :=
  { t with nodes := t.nodes.map (Node.movedAlong top.owner top.path target) }

/-- A directory moves to another place. -/
lemma movable_iff_of_dir (hdir : top.kind = .dir) :
    t.Movable top target ↔ t.Transferable top target :=
  or_iff_left fun h => by simp [hdir] at h

namespace Movable

/-- A node whose move is accepted is stored. -/
lemma stored (h : t.Movable top target) : top ∈ t.nodes := h.elim (·.stored) And.left

/-- A node whose move is accepted is no root. -/
lemma kind (h : t.Movable top target) : top.kind ≠ .root := by
  rcases h with h | ⟨-, hfile, -⟩
  · exact h.kind
  · simp [hfile]

/-- A node whose move is accepted is below the top. -/
lemma isRoot_source (h : t.Movable top target) (hf : t.IsForest) : top.path.isRoot = false :=
  hf.path_ne_root h.stored h.kind

/-- The place of an accepted move is below the top. -/
lemma isRoot_target (h : t.Movable top target) (hf : t.IsForest) : target.isRoot = false := by
  rcases h with h | ⟨hmem, hfile, rfl⟩
  · exact h.isRoot
  · exact hf.path_ne_root hmem (by simp [hfile])

/-- The place of an accepted move is in a container of the owner. -/
lemma container (h : t.Movable top target) (hf : t.IsForest) :
    t.hasContainerAt top.owner target.parent = true := by
  rcases h with h | ⟨hmem, hfile, rfl⟩
  · exact h.container
  · obtain ⟨q, hq⟩ := Path.exists_parent (hf.path_ne_root hmem (by simp [hfile]))
    obtain ⟨m, hm, ho, hp, hk⟩ := hf.attached top hmem q hq
    rw [hq]
    exact hasContainerAt_some.2 ⟨m, hm, ho, hp, hk⟩

/-- The place is free, or the node is there itself. -/
lemma eq_of_path (h : t.Movable top target) (hf : t.IsForest) (hn : n ∈ t.nodes)
    (ho : n.owner = top.owner) (hp : n.path = target) : n = top := by
  rcases h with h | ⟨hmem, -, rfl⟩
  · exact absurd hp (h.free n hn ho)
  · exact hf.keyed.nodes.places n hn top hmem ho hp

end Movable

/-! ### Files -/

/-- A file is at or above no other node, so that it moves alone. -/
lemma place_eq_map (hf : t.IsForest) (hmem : top ∈ t.nodes) (hfile : top.kind = .file) :
    place t.nodes top.id target = t.nodes.map (Node.movedAlong top.owner top.path target) := by
  refine List.map_congr_left fun n hn => ?_
  by_cases e : n.id = top.id
  · obtain rfl := hf.keyed.nodes.eq_of_id hn hmem e
    rw [if_pos (beq_self_eq_true _), Node.movedAlong_top]
  · rw [if_neg (by simpa using e), Node.movedAlong_of_not_below]
    rintro ⟨ho, hc⟩
    exact e (congrArg Node.id (hf.eq_of_covers_of_file hmem hn hfile ho hc))

/-- A place is not taken if no other node of the owner is there. -/
lemma isTaken_eq_false {id : NodeId} : isTaken t.nodes owner id target = false ↔
    ∀ n ∈ t.nodes, n.owner = owner → n.path = target → n.id = id := by
  simp only [isTaken, List.any_eq_false, Bool.and_eq_true, bne_iff_ne, beq_iff_eq, and_assoc,
    not_and]
  exact ⟨fun h n hn ho hp => by_contra fun hid => h n hn hid ho hp,
    fun h n hn hid ho hp => hid (h n hn ho hp)⟩

/-- **The move of a file** that is accepted. -/
theorem Movable.moveFile_eq (h : t.Movable top target) (hf : t.IsForest) (hfile : top.kind = .file)
    (hid : node.id = top.id) (hkind : node.kind = .file) :
    t.moveFile top.owner node target =
      (some (t.subtree top.owner top.path).length, t.afterMove top target) := by
  have hstored : t.hasKind top.owner node.id .file = true :=
    hasKind_iff.2 ⟨top, h.stored, hid.symm, rfl, hfile⟩
  have hopen : isTaken t.nodes top.owner node.id target = false :=
    isTaken_eq_false.2 fun n hn ho hp => hid ▸ congrArg Node.id (h.eq_of_path hf hn ho hp)
  rw [subtree_of_file hf h.stored hfile, List.length_singleton, afterMove,
    ← place_eq_map hf h.stored hfile, moveFile,
    hkind, h.isRoot_target hf, hstored, h.container hf, hopen, hid]
  rfl

/-- A file that is not accepted at a place stays. -/
theorem moveFile_of_not_movable (hf : t.IsForest) (hkind : node.kind = .file)
    (hnone : ∀ top, top.id = node.id → top.owner = owner → top.kind = .file →
      ¬t.Movable top target) : t.moveFile owner node target = (some 0, t) := by
  unfold moveFile
  rw [hkind, if_neg (by decide)]
  split
  · rfl
  · next hroot =>
    refine if_neg fun hguard => ?_
    simp only [Bool.and_eq_true, Bool.not_eq_true'] at hguard
    obtain ⟨⟨hstored, hcontainer⟩, hopen⟩ := hguard
    obtain ⟨f, hmem, hid, rfl, hfile⟩ := hasKind_iff.1 hstored
    refine hnone f hid rfl hfile ?_
    by_cases e : target = f.path
    · exact .inr ⟨hmem, hfile, e⟩
    · have hroot : target.isRoot = false := by simpa using hroot
      refine .inl ⟨hmem, by simp [hfile], hroot,
        hf.covers_file_eq_false hmem hfile hcontainer (Ne.symm e), hcontainer, ?_⟩
      intro n hn ho hp
      have hsame := isTaken_eq_false.1 hopen n hn ho hp
      rw [hf.keyed.nodes.eq_of_id hn hmem (hsame.trans hid.symm)] at hp
      exact e hp.symm

/-! ### Directories -/

/-- **The move of a directory** that is accepted. -/
theorem Movable.moveDirectory_eq (h : t.Movable top target) (hf : t.IsForest)
    (hdir : top.kind = .dir) (hid : node.id = top.id) (hkind : node.kind = .dir) :
    t.moveDirectory top.owner node target =
      (.ok (some (t.subtree top.owner top.path).length), t.afterMove top target) := by
  have ht := (movable_iff_of_dir hdir).1 h
  have hstored : t.stored? top.owner node.id .dir = some top := by
    rw [hid, ← hdir]
    exact hf.keyed.stored?_of_mem h.stored
  unfold moveDirectory
  rw [hkind, h.isRoot_target hf, hstored]
  simp only [bne_self_eq_false, Bool.false_eq_true, if_false, ht.outside, h.container hf,
    Bool.not_false, Bool.and_self, if_true, ht.relocate_eq hf (.refl _)]
  rfl

/-- Nodes below a directory are refused for taken places only, which is no error. -/
lemma moveDirectory_counts (hf : t.IsForest) (hkind : node.kind = .dir) (owner : OwnerId)
    (target : Path) : ∃ count, (t.moveDirectory owner node target).1 = .ok (some count) := by
  unfold moveDirectory
  rw [hkind, if_neg (by decide)]
  split
  · exact ⟨0, rfl⟩
  · next hroot =>
    split
    · exact ⟨0, rfl⟩
    · next source hsource =>
      obtain ⟨hmem, -, -, hdir⟩ := mem_of_stored? hsource
      have hsr : source.path.isRoot = false := hf.path_ne_root hmem (by simp [hdir])
      split
      · simp only
        split
        · exact ⟨_, rfl⟩
        · exact ⟨0, rfl⟩
        · next c hne hc =>
          refine absurd (eq_unique_of_relocate ?_ ?_ hc) hne
          · intro move hmove
            obtain ⟨n, hn, rfl⟩ := List.mem_map.1 hmove
            exact Path.isRoot_graft hsr (by simpa using hroot) (mem_subtree.1 hn).2.2
          · intro move hmove n hn hid
            obtain ⟨m, hm, rfl⟩ := List.mem_map.1 hmove
            obtain ⟨hmt, -, hc⟩ := mem_subtree.1 hm
            obtain rfl := hf.keyed.nodes.eq_of_id hn hmt hid
            exact hf.kind_ne_root hmt hsr hc
      · exact ⟨0, rfl⟩

/-- A directory that is not accepted at a place stays. -/
theorem moveDirectory_of_not_movable (hf : t.IsForest) (hkind : node.kind = .dir)
    (hnone : ∀ top, top.id = node.id → top.owner = owner → top.kind = .dir →
      ¬t.Movable top target) : t.moveDirectory owner node target = (.ok (some 0), t) := by
  rcases moveDirectory_answers owner node target t with
    ⟨r, hr, hzero⟩ | ⟨top, nodes, hstored, -, -, -, -, hr⟩
  · obtain ⟨count, hcount⟩ := moveDirectory_counts hf hkind owner target
    rw [hr] at hcount ⊢
    obtain rfl : r = .ok (some count) := hcount
    rw [hzero count rfl]
  · obtain ⟨hmem, -, ho, -⟩ := mem_of_stored? hstored
    have hpos : 0 < (t.subtree owner top.path).length :=
      List.length_pos_of_mem (mem_subtree.2 ⟨hmem, ho, Path.covers_refl _⟩)
    obtain ⟨d, hid, hdo, hdir, ht, -⟩ := transferable_of_moveDirectory hf hpos hr
    exact absurd (.inl ht) (hnone d hid hdo hdir)

/-! ## Nodes at other places -/

/-- The number of nodes that are stored at another place in the second tables, or are not there. -/
def replaced (t t' : Tables) : Nat :=
  t.nodes.countP fun n => !t'.nodes.any fun m => m.id == n.id && m.path == n.path

/-- A move to the place of the node changes nothing. -/
lemma afterMove_self (hs : top.path.isRoot = false) : t.afterMove top top.path = t := by
  have hnodes : ∀ n ∈ t.nodes, n.movedAlong top.owner top.path top.path = n := by
    intro n _
    by_cases hin : n.owner = top.owner ∧ top.path.covers n.path = true
    · rw [Node.movedAlong_of_below hin.1 hin.2, Path.graft_self hs hin.2]
    · exact Node.movedAlong_of_not_below hin
  rw [afterMove, List.map_congr_left hnodes, List.map_id']

/-- **All nodes at and below a node get another place** by its move to another place, and no other
node does. -/
theorem Movable.replaced_eq (h : t.Movable top target) (hf : t.IsForest) (hne : top.path ≠ target) :
    t.replaced (t.afterMove top target) = (t.subtree top.owner top.path).length := by
  rw [replaced, subtree, ← List.countP_eq_length_filter]
  refine List.countP_congr fun n hn => ?_
  have hthere : ((t.afterMove top target).nodes.any fun m =>
      m.id == n.id && m.path == n.path) = true ↔
        (n.movedAlong top.owner top.path target).path = n.path := by
    rw [List.any_eq_true]
    constructor
    · rintro ⟨m, hm, hsame⟩
      obtain ⟨x, hx, rfl⟩ := List.mem_map.1 hm
      simp only [Node.id_movedAlong, Bool.and_eq_true, beq_iff_eq] at hsame
      rw [hf.keyed.nodes.eq_of_id hx hn hsame.1] at hsame
      exact hsame.2
    · intro e
      exact ⟨_, List.mem_map_of_mem hn, by simp [e]⟩
  simp only [Bool.not_eq_true', ← Bool.not_eq_true, hthere, Bool.and_eq_true, beq_iff_eq]
  by_cases hin : n.owner = top.owner ∧ top.path.covers n.path = true
  · rw [Node.movedAlong_of_below hin.1 hin.2]
    exact iff_of_true (Path.graft_ne (h.isRoot_source hf) hin.2 hne) hin
  · rw [Node.movedAlong_of_not_below hin]
    exact iff_of_false (fun e => e rfl) hin

/-! ## The way back -/

namespace Movable

/-- The node at its new place. -/
lemma mem_afterMove (h : t.Movable top target) :
    { top with path := target } ∈ (t.afterMove top target).nodes :=
  List.mem_map.2 ⟨top, h.stored, Node.movedAlong_top top⟩

/-- What is at or below the new place has moved there. -/
lemma not_below_target (h : t.Movable top target) (hf : t.IsForest) (hn : n ∈ t.nodes)
    (hout : ¬(n.owner = top.owner ∧ top.path.covers n.path = true)) :
    ¬(n.owner = top.owner ∧ target.covers n.path = true) := by
  rcases h with h | ⟨-, -, rfl⟩
  · rintro ⟨ho, hc⟩
    rw [h.nothing_below hf hn ho] at hc
    cases hc
  · exact hout

/-- **The way back is open.** The old place has become free, and its container has not moved.

**Proof sketch.** What has moved is at or below the new place, which is not above the old one, and
what is at or below the old place has moved. The container is neither. -/
theorem back (h : t.Movable top target) (hf : t.IsForest) :
    (t.afterMove top target).Movable { top with path := target } top.path := by
  rcases h with ht | ⟨hmem, hfile, rfl⟩
  · have hs := ht.isRoot_source hf
    have hclear : target.covers top.path = false := ht.nothing_below hf ht.stored rfl
    refine .inl ⟨mem_afterMove (.inl ht), ht.kind, hs, hclear, ?_, ?_⟩
    · obtain ⟨q, hq⟩ := Path.exists_parent hs
      obtain ⟨m, hm, ho, rfl, hk⟩ := hf.attached top ht.stored q hq
      have hstay : m.movedAlong top.owner top.path target = m := by
        refine Node.movedAlong_of_not_below fun hin => ?_
        exact ((Path.covers_parent_iff hq).1 hin.2).2 rfl
      rw [hq]
      exact hasContainerAt_some.2 ⟨m, hstay ▸ List.mem_map_of_mem hm, ho, rfl, hk⟩
    · intro x hx ho e
      obtain ⟨n, hn, rfl⟩ := List.mem_map.1 hx
      by_cases hin : n.owner = top.owner ∧ top.path.covers n.path = true
      · rw [Node.movedAlong_of_below hin.1 hin.2] at e
        have e : n.path.graft top.path target = top.path := e
        have hbelow : target.covers (n.path.graft top.path target) = true :=
          Path.covers_graft hs hin.2
        rw [e, hclear] at hbelow
        cases hbelow
      · rw [Node.movedAlong_of_not_below hin] at ho e
        exact hin ⟨ho, e ▸ Path.covers_refl _⟩
  · exact .inr ⟨mem_afterMove (.inr ⟨hmem, hfile, rfl⟩), hfile, rfl⟩

/-- **The way back restores the tables.** -/
theorem afterMove_back (h : t.Movable top target) (hf : t.IsForest) :
    (t.afterMove top target).afterMove { top with path := target } top.path = t := by
  have hnodes : ∀ n ∈ t.nodes, (n.movedAlong top.owner top.path target).movedAlong top.owner target
      top.path = n := by
    intro n hn
    by_cases hin : n.owner = top.owner ∧ top.path.covers n.path = true
    · have hs := h.isRoot_source hf
      let moved : Node := { n with path := n.path.graft top.path target }
      have hmoved : moved.movedAlong top.owner target top.path =
          { n with path := (n.path.graft top.path target).graft target top.path } :=
        Node.movedAlong_of_below (n := moved) hin.1 (Path.covers_graft hs hin.2)
      rw [Node.movedAlong_of_below hin.1 hin.2, hmoved, Path.graft_graft hs hin.2]
    · rw [Node.movedAlong_of_not_below hin,
        Node.movedAlong_of_not_below (h.not_below_target hf hn hin)]
  have hid : t.nodes.map (Node.movedAlong top.owner target top.path ∘
      Node.movedAlong top.owner top.path target) = t.nodes :=
    (List.map_congr_left hnodes).trans (List.map_id t.nodes)
  rw [afterMove, afterMove, List.map_map, hid]

/-- As many nodes go back as have come. -/
lemma length_subtree_back (h : t.Movable top target) (hf : t.IsForest) :
    ((t.afterMove top target).subtree top.owner target).length =
      (t.subtree top.owner top.path).length := by
  have hsame : ∀ n ∈ t.nodes, ((n.movedAlong top.owner top.path target).owner = top.owner ∧
      target.covers (n.movedAlong top.owner top.path target).path = true) ↔
        n.owner = top.owner ∧ top.path.covers n.path = true := by
    intro n hn
    by_cases hin : n.owner = top.owner ∧ top.path.covers n.path = true
    · rw [Node.movedAlong_of_below hin.1 hin.2]
      exact iff_of_true ⟨hin.1, Path.covers_graft (h.isRoot_source hf) hin.2⟩ hin
    · rw [Node.movedAlong_of_not_below hin]
      exact iff_of_false (h.not_below_target hf hn hin) hin
  rw [subtree, afterMove, List.filter_map, List.length_map, subtree]
  refine congrArg List.length (List.filter_congr fun n hn => ?_)
  rw [Bool.eq_iff_iff, Function.comp_apply]
  simpa only [Bool.and_eq_true, beq_iff_eq] using hsame n hn

end Movable

end Tables

end VersionedTree
