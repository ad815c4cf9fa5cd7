import VersionedTree.Proofs.Tables.Forest

/-!
# Insertions that are not refused

Rows are refused for their own placement, or for a key that they share with another row. If neither
is the case, they are inserted.

## Main results

* `VersionedTree.Tables.insertNodes_of_keyed` — nodes that keep the keys are inserted.
* `VersionedTree.Tables.insertLinks_of_nodup`, `VersionedTree.Tables.insertLinks_to_new` — links
  that keep the keys are inserted, such as those from a node without links.
* `VersionedTree.Tables.eq_unique_of_insertNodes`, `VersionedTree.Tables.eq_unique_of_relocate` —
  nodes that are well placed are refused for their keys only.
-/

set_option autoImplicit false

namespace VersionedTree.Tables

variable {t : Tables} {c : Constraint}

/-! ## Nodes -/

/-- A node is inserted if it is well placed and shares no key with the nodes that are there. -/
lemma insertNode_of_keyed {n : Node} (hw : n.isWellPlaced = true)
    (hk : Node.Keyed (n :: t.nodes)) : t.insertNode n = .ok { t with nodes := n :: t.nodes } := by
  refine insertNode_eq_ok.2 ⟨hw, ?_, rfl⟩
  have hid : ∀ m ∈ t.nodes, m.id ≠ n.id := by
    have hnodup := hk.ids
    rw [List.map_cons, List.nodup_cons] at hnodup
    exact fun m hm e => hnodup.1 (e ▸ List.mem_map_of_mem hm)
  rw [clashes, List.any_eq_false]
  intro m hm
  simp only [Bool.or_eq_true, beq_iff_eq, Bool.and_eq_true, not_or, not_and]
  refine ⟨hid m hm, ?_⟩
  intro ho hp
  obtain rfl := hk.places m (List.mem_cons_of_mem _ hm) n List.mem_cons_self ho hp
  exact hid m hm rfl

/-- **Nodes are inserted** if they are well placed and share no key, neither with each other nor
with the nodes that are there. -/
theorem insertNodes_of_keyed {rows : List Node} (hw : ∀ n ∈ rows, n.isWellPlaced = true)
    (hk : Node.Keyed (rows.reverse ++ t.nodes)) :
    t.insertNodes rows = .ok { t with nodes := rows.reverse ++ t.nodes } := by
  induction rows generalizing t with
  | nil => rfl
  | cons n rest ih =>
    rw [List.forall_mem_cons] at hw
    rw [List.reverse_cons, List.append_assoc, List.singleton_append] at hk ⊢
    have hfirst : Node.Keyed (n :: t.nodes) := hk.sublist (List.sublist_append_right _ _)
    rw [insertNodes, insertNode_of_keyed hw.1 hfirst]
    exact ih hw.2 hk

/-- Well-placed nodes are refused for their keys only. -/
lemma eq_unique_of_insertNode {n : Node} (hw : n.isWellPlaced = true)
    (h : t.insertNode n = .error c) : c = .unique := by
  unfold insertNode at h
  rw [hw, Bool.not_true, if_neg Bool.false_ne_true] at h
  split at h
  · exact (Except.error.inj h).symm
  · cases h

/-- A list of well-placed nodes is refused for their keys only. -/
lemma eq_unique_of_insertNodes {rows : List Node} (hw : ∀ n ∈ rows, n.isWellPlaced = true)
    (h : t.insertNodes rows = .error c) : c = .unique := by
  induction rows generalizing t with
  | nil => cases h
  | cons n rest ih =>
    rw [List.forall_mem_cons] at hw
    unfold insertNodes at h
    split at h
    · exact ih hw.2 h
    · next c' hn =>
      obtain rfl := Except.error.inj h
      exact eq_unique_of_insertNode hw.1 hn

/-- Nodes other than roots that get places other than the top are refused for their keys only. -/
lemma eq_unique_of_relocate {owner : OwnerId} {moves : List (NodeId × Path)} {nodes : List Node}
    (hplace : ∀ move ∈ moves, move.2.isRoot = false)
    (hkind : ∀ move ∈ moves, ∀ n ∈ nodes, n.id = move.1 → n.kind ≠ .root)
    (h : relocate owner moves nodes = .error c) : c = .unique := by
  induction moves generalizing nodes with
  | nil => cases h
  | cons move rest ih =>
    obtain ⟨id, path⟩ := move
    rw [List.forall_mem_cons] at hplace hkind
    have hfits : isMisplaced nodes id path = false := by
      simp only [isMisplaced, List.any_eq_false, Bool.and_eq_true, beq_iff_eq,
        Bool.not_eq_true', not_and, Bool.not_eq_false]
      intro n hn hid
      rw [Node.isWellPlaced_iff]
      simp [hkind.1 n hn hid, hplace.1]
    unfold relocate at h
    rw [hfits, if_neg Bool.false_ne_true] at h
    split at h
    · exact (Except.error.inj h).symm
    · refine ih hplace.2 ?_ h
      intro move hm n hn hid
      -- a node that has got its place has its kind still
      obtain ⟨m, hmem, rfl⟩ := mem_place.1 hn
      split at hid <;> split <;> exact hkind.2 move hm m hmem hid

/-! ## Links -/

/-- **Links are inserted** if they share no key, neither with each other nor with the links that are
there. -/
theorem insertLinks_of_nodup {ls : List Link} (h : ((ls.reverse ++ t.links).map Link.key).Nodup) :
    t.insertLinks ls = .ok { t with links := ls.reverse ++ t.links } := by
  induction ls generalizing t with
  | nil => rfl
  | cons l rest ih =>
    rw [List.reverse_cons, List.append_assoc, List.singleton_append] at h ⊢
    have hfirst : ((l :: t.links).map Link.key).Nodup :=
      h.sublist ((List.sublist_append_right _ _).map _)
    rw [List.map_cons, List.nodup_cons] at hfirst
    have hfree : t.hasLink l.node l.blob = false := by
      simp only [hasLink, List.any_eq_false, Bool.and_eq_true, beq_iff_eq, not_and]
      intro k hk hnode hblob
      refine hfirst.1 (List.mem_map.2 ⟨k, hk, ?_⟩)
      rw [Link.key, Link.key, hnode, hblob]
    rw [insertLinks, insertLink_eq_ok.2 ⟨hfree, rfl⟩]
    exact ih h

/-- Links from a node without links to different blobs are inserted. -/
lemma insertLinks_to_new (hk : t.Keyed) {node : NodeId} (time : Instant) {vs : List Version}
    (hblobs : (vs.map Version.blob).Nodup) (hnew : ∀ l ∈ t.links, l.node ≠ node) :
    t.insertLinks (vs.map fun v => ⟨node, v.blob, time⟩) =
      .ok { t with links := (vs.map fun v => ⟨node, v.blob, time⟩).reverse ++ t.links } := by
  refine insertLinks_of_nodup ?_
  rw [List.map_append, List.map_reverse, List.map_map]
  refine List.nodup_append.2 ⟨?_, hk.links, ?_⟩
  · rw [List.nodup_reverse]
    have hkeys : (vs.map Version.blob).map (Prod.mk node) =
        vs.map (Link.key ∘ fun v => ⟨node, v.blob, time⟩) := List.map_map
    rw [← hkeys]
    exact hblobs.map fun _ _ e => congrArg Prod.snd e
  · intro key hnewKey key' hold e
    obtain ⟨v, -, rfl⟩ := List.mem_map.1 (List.mem_reverse.1 hnewKey)
    obtain ⟨l, hl, rfl⟩ := List.mem_map.1 hold
    exact hnew l hl (congrArg Prod.fst e).symm

end VersionedTree.Tables
