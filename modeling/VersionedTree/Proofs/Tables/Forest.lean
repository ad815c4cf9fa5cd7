import VersionedTree.Proofs.Tables.Keys
import VersionedTree.Proofs.Tables.Session

/-!
# The trees of owners

Nodes form a forest: the root of an owner, and only it, is at the top, and every other node has a
root or directory of its owner at the parent of its place. Every statement keeps this, whatever
nodes and places its caller claims, and changes nothing of a node that stays but its place.

## Main definitions

* `VersionedTree.Tables.IsForest` — nodes under their containers.
* `VersionedTree.Tables.numbered` — the nodes at and below a place in the order of a copy.
* `VersionedTree.Tables.Rebases` — copies get the places that a move would give them.
* `VersionedTree.Tables.moved` — a node after others have got new places one after the other.
* `VersionedTree.Statement.target?` — the place that a statement is to fill.

## Main results

* `VersionedTree.Tables.IsForest.container_above` — all places above a node hold containers.
* `VersionedTree.Tables.IsForest.run` — every statement keeps the forest.
* `VersionedTree.Statement.nodes_run` — nodes come in front, or places change, or nodes leave.
* `VersionedTree.Session.forest` — all of this in every state of a session.
-/

set_option autoImplicit false

namespace VersionedTree

namespace Node

/-- A root, and only a root, is at the top. -/
lemma isWellPlaced_iff {n : Node} :
    n.isWellPlaced = true ↔ (n.kind = .root ↔ n.path.isRoot = true) := by
  rw [isWellPlaced, beq_iff_eq, Bool.eq_iff_iff, beq_iff_eq]

end Node

namespace Tables

variable {t t' : Tables} {nodes nodes' : List Node}

/-- Keys hold, and nodes are under their containers. -/
structure IsForest (t : Tables) : Prop where
  keyed : t.Keyed
  placed : ∀ n ∈ t.nodes, n.isWellPlaced = true
  attached : ∀ n ∈ t.nodes, ∀ q, n.path.parent = some q →
    ∃ m ∈ t.nodes, m.owner = n.owner ∧ m.path = q ∧ m.kind.isContainer = true

namespace IsForest

/-- Tables without rows are a forest. -/
lemma empty : IsForest .empty := ⟨.empty, by simp [Tables.empty], by simp [Tables.empty]⟩

/-- Of the nodes of a forest, the roots are those at the top. -/
lemma isRoot_path (h : t.IsForest) {n : Node} (hn : n ∈ t.nodes) :
    n.kind = .root ↔ n.path.isRoot = true :=
  Node.isWellPlaced_iff.1 (h.placed n hn)

/-- A node of a forest that is no root is below the top. -/
lemma path_ne_root (h : t.IsForest) {n : Node} (hn : n ∈ t.nodes) (hk : n.kind ≠ .root) :
    n.path.isRoot = false := by
  simpa using mt (h.isRoot_path hn).2 hk

/-- No root is at or below a place other than the top. -/
lemma kind_ne_root (h : t.IsForest) {n : Node} (hn : n ∈ t.nodes) {top : Path}
    (ht : top.isRoot = false) (hc : top.covers n.path = true) : n.kind ≠ .root := fun hk => by
  rw [Path.isRoot_of_covers hc ((h.isRoot_path hn).1 hk)] at ht
  cases ht

/-- **All places above a node hold containers** of its owner.

**Proof sketch.** Induction on the length of the place. The parent holds a container; a place
above the node is the parent, or above the parent. -/
theorem container_above (h : t.IsForest) {n : Node} (hn : n ∈ t.nodes) {a : Path}
    (hc : a.covers n.path = true) (hne : a ≠ n.path) :
    ∃ m ∈ t.nodes, m.owner = n.owner ∧ m.path = a ∧ m.kind.isContainer = true := by
  induction hlen : n.path.chars.length using Nat.strong_induction_on generalizing n with
  | _ k ih =>
    subst hlen
    obtain ⟨q, hq⟩ := Path.exists_parent (Path.isRoot_of_covers_ne hc hne)
    obtain ⟨m, hm, ho, rfl, hk⟩ := h.attached n hn q hq
    by_cases e : a = m.path
    · exact ⟨m, hm, ho, e.symm, hk⟩
    · obtain ⟨c, hc', ho', hp', hk'⟩ := ih _ (Path.length_chars_parent_lt hq) hm
        ((Path.covers_parent_iff hq).2 ⟨hc, hne⟩) e rfl
      exact ⟨c, hc', ho'.trans ho, hp', hk'⟩

/-- Nothing is below a file. -/
lemma eq_of_covers_of_file (h : t.IsForest) {f n : Node} (hf : f ∈ t.nodes) (hn : n ∈ t.nodes)
    (hk : f.kind = .file) (ho : n.owner = f.owner) (hc : f.path.covers n.path = true) : n = f := by
  by_cases hne : f.path = n.path
  · exact h.keyed.nodes.places n hn f hf ho hne.symm
  · obtain ⟨m, hm, hmo, hmp, hmk⟩ := h.container_above hn hc hne
    obtain rfl := h.keyed.nodes.places m hm f hf (hmo.trans ho) hmp
    rw [hk] at hmk
    cases hmk

/-- No place in a container is below a file. -/
lemma covers_file_eq_false (h : t.IsForest) {f : Node} (hf : f ∈ t.nodes) (hk : f.kind = .file)
    {p : Path} (hp : t.hasContainerAt f.owner p.parent = true) (hne : f.path ≠ p) :
    f.path.covers p = false := by
  rw [Bool.eq_false_iff]
  intro hc
  obtain ⟨q, hq⟩ := Path.exists_parent (Path.isRoot_of_covers_ne hc hne)
  rw [hq] at hp
  obtain ⟨m, hm, hmo, rfl, hmk⟩ := hasContainerAt_some.1 hp
  -- the container of a place below the file would be at or below the file
  have hbelow := (Path.covers_parent_iff hq).2 ⟨hc, hne⟩
  rw [h.eq_of_covers_of_file hf hm hk hmo hbelow, hk] at hmk
  cases hmk

end IsForest

/-! ## New nodes -/

/-- Inserted nodes are well placed. -/
lemma isWellPlaced_of_insertNodes {rows : List Node} (h : t.insertNodes rows = .ok t') :
    ∀ n ∈ rows, n.isWellPlaced = true := by
  induction rows generalizing t with
  | nil => simp
  | cons n rest ih =>
    unfold insertNodes at h
    split at h
    · next t₁ h₁ =>
      exact List.forall_mem_cons.2 ⟨(insertNode_eq_ok.1 h₁).1, ih h⟩
    · cases h

/-- One node is inserted like a list of one. -/
lemma insertNodes_singleton {n : Node} (h : t.insertNode n = .ok t') :
    t.insertNodes [n] = .ok t' := by
  simp [insertNodes, h]

/-- The owner's nodes at and below a place, numbered in the order of their stored paths. -/
def numbered (t : Tables) (owner : OwnerId) (top : Path) : List (Node × Nat) :=
  (sortedByPath (t.subtree owner top)).zipIdx

/-- A numbered node is at or below the place, and its number is less than the number of nodes there.
-/
lemma mem_numbered {owner : OwnerId} {top : Path} {n : Node} {k : Nat}
    (h : (n, k) ∈ t.numbered owner top) :
    n ∈ t.subtree owner top ∧ k < (t.subtree owner top).length := by
  have hlength : (sortedByPath (t.subtree owner top)).length = (t.subtree owner top).length :=
    List.length_mergeSort _
  obtain ⟨hk, e⟩ := List.getElem?_eq_some_iff.1 (List.mk_mem_zipIdx_iff_getElem?.1 h)
  exact ⟨mem_sortedByPath.1 (e ▸ List.getElem_mem hk), hlength ▸ hk⟩

/-- Every node has a number. -/
lemma exists_number {owner : OwnerId} {top : Path} {n : Node} (h : n ∈ t.subtree owner top) :
    ∃ k, (n, k) ∈ t.numbered owner top := by
  obtain ⟨k, hk⟩ := List.mem_iff_getElem?.1 (mem_sortedByPath.2 h)
  exact ⟨k, List.mk_mem_zipIdx_iff_getElem?.2 hk⟩

/-- A number belongs to one node. -/
lemma eq_of_number {owner : OwnerId} {top : Path} {m n : Node} {k : Nat}
    (hm : (m, k) ∈ t.numbered owner top) (hn : (n, k) ∈ t.numbered owner top) : m = n :=
  Option.some.inj ((List.mk_mem_zipIdx_iff_getElem?.1 hm).symm.trans
    (List.mk_mem_zipIdx_iff_getElem?.1 hn))

/-- No node is twice among those at and below a place. -/
lemma Keyed.nodup_subtree (h : t.Keyed) (owner : OwnerId) (top : Path) :
    (t.subtree owner top).Nodup :=
  h.nodes.ids.of_map.filter _

/-- No node is twice among those at and below a place when they are sorted. -/
lemma Keyed.nodup_sortedByPath (h : t.Keyed) (owner : OwnerId) (top : Path) :
    (sortedByPath (t.subtree owner top)).Nodup :=
  (List.mergeSort_perm _ _).nodup_iff.2 (h.nodup_subtree owner top)

/-- A node has one number. -/
lemma Keyed.number_unique (h : t.Keyed) {owner : OwnerId} {top : Path} {n : Node} {i j : Nat}
    (hi : (n, i) ∈ t.numbered owner top) (hj : (n, j) ∈ t.numbered owner top) : i = j := by
  rw [numbered, List.mk_mem_zipIdx_iff_getElem?] at hi hj
  obtain ⟨hlt, -⟩ := List.getElem?_eq_some_iff.1 hi
  exact (List.getElem?_inj hlt (h.nodup_sortedByPath owner top)).1 (hi.trans hj.symm)

/-- No numbered node occurs twice. -/
lemma Keyed.nodup_numbered (h : t.Keyed) (owner : OwnerId) (top : Path) :
    (t.numbered owner top).Nodup := by
  refine List.Nodup.of_map Prod.fst ?_
  rw [numbered, List.zipIdx_map_fst]
  exact h.nodup_sortedByPath owner top

/-- Copies of nodes that all find their places are numbered in turn. -/
lemma copiesOf_eq {ids : Nat → NodeId} {source target : Path} {sources : List Node}
    (h : ∀ m ∈ sources, m.path.rebase source target = some (m.path.graft source target))
    (k : Nat) :
    copiesOf ids source target k sources = (sources.zipIdx k).map fun (m, i) =>
      (⟨m.id, ids i, m.kind⟩, m.path.graft source target) := by
  induction sources generalizing k with
  | nil => rfl
  | cons m rest ih =>
    rw [List.forall_mem_cons] at h
    rw [copiesOf, h.1, List.zipIdx_cons, List.map_cons, ← ih h.2]

/-- Do all of the owner's nodes at and below a place find the places that a move would give them? -/
def Rebases (t : Tables) (owner : OwnerId) (source target : Path) : Prop :=
  ∀ m ∈ t.subtree owner source, m.path.rebase source target = some (m.path.graft source target)

/-- Valid places are rebased. -/
lemma rebases_of_valid {owner : OwnerId} {source target : Path} (hs : source.isRoot = false)
    (ht : target.isRoot = false) (hv : ∀ n ∈ t.subtree owner source, n.path.Valid) :
    t.Rebases owner source target :=
  fun m hm => Path.rebase_eq_graft hs ht (hv m hm) (mem_subtree.1 hm).2.2

namespace Rebases

variable {owner : OwnerId} {target : Path} {source n : Node}
  (h : t.Rebases owner source.path target) (time : Instant) (ids : Nat → NodeId)

include h

/-- **The copies** of all nodes at and below the source, each at the place that a move would give
it. -/
lemma copiesOf_eq :
    copiesOf ids source.path target 0 (sortedByPath (t.subtree owner source.path)) =
      (t.numbered owner source.path).map fun (m, i) =>
        (⟨m.id, ids i, m.kind⟩, m.path.graft source.path target) :=
  Tables.copiesOf_eq (fun m hm => h m (mem_sortedByPath.1 hm)) 0

/-- The rows of the copies. -/
lemma copiedRows_eq :
    copiedRows owner time target t ids source =
      (t.numbered owner source.path).map fun (m, i) =>
        ⟨ids i, m.kind, m.path.graft source.path target, owner, time⟩ := by
  rw [copiedRows, h.copiesOf_eq, rowsOf, List.map_map]
  rfl

/-- The copies that are inserted: one for each node at or below the source, with its kind, and at
the place that a move would give it. -/
lemma mem_copiedRows :
    (n ∈ copiedRows owner time target t ids source →
      ∃ m ∈ t.subtree owner source.path, ∃ k,
        n = ⟨ids k, m.kind, m.path.graft source.path target, owner, time⟩) ∧
    (n ∈ t.subtree owner source.path →
      ∃ k, ⟨ids k, n.kind, n.path.graft source.path target, owner, time⟩ ∈
        copiedRows owner time target t ids source) := by
  rw [h.copiedRows_eq]
  constructor
  · intro hn
    obtain ⟨⟨m, k⟩, hm, rfl⟩ := List.mem_map.1 hn
    exact ⟨m, (mem_numbered hm).1, k, rfl⟩
  · intro hn
    obtain ⟨k, hk⟩ := exists_number hn
    exact ⟨k, List.mem_map.2 ⟨(n, k), hk, rfl⟩⟩

/-- The rows of copies are well placed. -/
lemma isWellPlaced_copiedRows (hf : t.IsForest) (hs : source.path.isRoot = false)
    (ht : target.isRoot = false) :
    ∀ n ∈ copiedRows owner time target t ids source, n.isWellPlaced = true := by
  intro n hn
  obtain ⟨m, hm, k, rfl⟩ := (h.mem_copiedRows time ids).1 hn
  obtain ⟨hmt, -, hc⟩ := mem_subtree.1 hm
  rw [Node.isWellPlaced_iff]
  simp [hf.kind_ne_root hmt hs hc, Path.isRoot_graft hs ht hc]

end Rebases

/-! ## New places -/

/-- A node after nodes have got new places one after the other. -/
def moved (moves : List (NodeId × Path)) (n : Node) : Node :=
  moves.foldl (fun n move => if n.id == move.1 then { n with path := move.2 } else n) n

/-- The first move is made before the others. -/
lemma moved_cons (id : NodeId) (path : Path) (moves : List (NodeId × Path)) (n : Node) :
    moved ((id, path) :: moves) n =
      moved moves (if n.id == id then { n with path := path } else n) := rfl

/-- Nodes that are relocated keep their number and order. -/
lemma eq_of_relocate {owner : OwnerId} {moves : List (NodeId × Path)}
    (h : relocate owner moves nodes = .ok nodes') : nodes' = nodes.map (moved moves) := by
  induction moves generalizing nodes with
  | nil =>
    obtain rfl := Except.ok.inj h
    exact (List.map_id nodes).symm
  | cons move rest ih =>
    obtain ⟨id, path⟩ := move
    unfold relocate at h
    split at h
    · cases h
    · split at h
      · cases h
      · rw [ih h, place, List.map_map]
        rfl

/-- Only the place of a node is new. -/
lemma moved_eq (moves : List (NodeId × Path)) (n : Node) :
    moved moves n = { n with path := (moved moves n).path } := by
  induction moves generalizing n with
  | nil => rfl
  | cons move rest ih =>
    rw [moved_cons]
    split
    · exact ih _
    · exact ih n

/-- A node that no move is about stays where it is. -/
lemma moved_of_not_mem {moves : List (NodeId × Path)} {n : Node}
    (h : ∀ move ∈ moves, move.1 ≠ n.id) : moved moves n = n := by
  induction moves with
  | nil => rfl
  | cons move rest ih =>
    rw [List.forall_mem_cons] at h
    rw [moved_cons, if_neg (by simpa using h.1.symm), ih h.2]

/-- A node that moves once gets the place of that move. -/
lemma moved_of_mem {moves : List (NodeId × Path)} {n : Node} {path : Path}
    (hn : (moves.map Prod.fst).Nodup) (h : (n.id, path) ∈ moves) :
    moved moves n = { n with path := path } := by
  induction moves with
  | nil => cases h
  | cons move rest ih =>
    rw [List.map_cons, List.nodup_cons] at hn
    rw [moved_cons]
    rcases List.mem_cons.1 h with rfl | h
    · rw [if_pos (beq_self_eq_true _)]
      refine moved_of_not_mem fun move hm e => hn.1 ?_
      exact List.mem_map.2 ⟨move, hm, e⟩
    · have hne : n.id ≠ move.1 := fun e => hn.1 (e ▸ List.mem_map.2 ⟨_, h, rfl⟩)
      rw [if_neg (by simpa using hne), ih hn.2 h]

/-- The move of a directory takes along the owner's nodes at and below it, and no other one. -/
lemma moved_subtree (hk : Node.Keyed t.nodes) {owner : OwnerId} {source target : Path} {n : Node}
    (hn : n ∈ t.nodes) :
    moved (movedPlaces (t.subtree owner source) source target) n =
      if n.owner = owner ∧ source.covers n.path = true then
        { n with path := n.path.graft source target }
      else n := by
  split
  · next h =>
    refine moved_of_mem ?_ (List.mem_map.2 ⟨n, mem_subtree.2 ⟨hn, h⟩, rfl⟩)
    rw [movedPlaces, List.map_map]
    exact hk.ids.sublist (List.filter_sublist.map _)
  · next h =>
    refine moved_of_not_mem fun move hm e => h ?_
    obtain ⟨m, hsub, rfl⟩ := List.mem_map.1 hm
    obtain ⟨hmt, hmc⟩ := mem_subtree.1 hsub
    rwa [hk.eq_of_id hmt hn e] at hmc

/-! ## Statements keep the forest -/

namespace IsForest

/-- Only keys and nodes matter. -/
lemma of_nodes_eq (h : t.IsForest) (hk : t'.Keyed) (hn : t'.nodes = t.nodes) : t'.IsForest :=
  ⟨hk, hn ▸ h.placed, hn ▸ h.attached⟩

/-- Nodes may be inserted that have a container, old or new, at the parents of their places. -/
lemma insertNodes (h : t.IsForest) {rows : List Node} (hi : t.insertNodes rows = .ok t')
    (hp : ∀ n ∈ rows, ∀ q, n.path.parent = some q → ∃ m, (m ∈ rows ∨ m ∈ t.nodes) ∧
      m.owner = n.owner ∧ m.path = q ∧ m.kind.isContainer = true) : t'.IsForest := by
  have hmem : ∀ n, n ∈ t'.nodes ↔ n ∈ rows ∨ n ∈ t.nodes := fun n => by
    rw [eq_of_insertNodes hi, List.mem_append, List.mem_reverse]
  refine ⟨h.keyed.insertNodes hi, fun n hn => ?_, fun n hn q hq => ?_⟩
  · rcases (hmem n).1 hn with hn | hn
    · exact isWellPlaced_of_insertNodes hi n hn
    · exact h.placed n hn
  · rcases (hmem n).1 hn with hn | hn
    · obtain ⟨m, hm, hc⟩ := hp n hn q hq
      exact ⟨m, (hmem m).2 hm, hc⟩
    · obtain ⟨m, hm, hc⟩ := h.attached n hn q hq
      exact ⟨m, (hmem m).2 (.inr hm), hc⟩

/-- A node may be inserted that has a container at the parent of its place. -/
lemma insertNode (h : t.IsForest) {n : Node} (hi : t.insertNode n = .ok t')
    (hp : n.path.isRoot = true ∨ t.hasContainerAt n.owner n.path.parent = true) :
    t'.IsForest := by
  refine h.insertNodes (insertNodes_singleton hi) fun m hm q hq => ?_
  obtain rfl := List.mem_singleton.1 hm
  rcases hp with hr | hc
  · simp [(Path.chars_of_parent hq).1] at hr
  · rw [hq, hasContainerAt_some] at hc
    obtain ⟨c, hc, hco⟩ := hc
    exact ⟨c, .inr hc, hco⟩

/-- Nodes may leave that take along all that is below them. -/
lemma filter (h : t.IsForest) {p : Node → Bool}
    (hp : ∀ m ∈ t.nodes, ∀ n ∈ t.nodes, p m = false → n.owner = m.owner →
      m.path.covers n.path = true → p n = false) :
    IsForest { t with nodes := t.nodes.filter p } := by
  refine ⟨h.keyed.withNodes (h.keyed.nodes.sublist List.filter_sublist), fun n hn => ?_,
    fun n hn q hq => ?_⟩
  · exact h.placed n (List.mem_filter.1 hn).1
  · obtain ⟨hn, hkept⟩ := List.mem_filter.1 hn
    obtain ⟨m, hm, ho, rfl, hk⟩ := h.attached n hn q hq
    refine ⟨m, List.mem_filter.2 ⟨hm, ?_⟩, ho, rfl, hk⟩
    by_contra hgone
    rw [hp m hm n hn (by simpa using hgone) ho.symm (Path.covers_of_parent hq)] at hkept
    cases hkept

section Statements

variable (owner : OwnerId) (time : Instant)

/-- A new node is below its container, or there is none. -/
lemma createNode (h : t.IsForest) (id : NodeId) (path : Path) (kind : Kind) :
    (t.createNode id time owner path kind).2.IsForest := by
  rcases createNode_cases owner time t id path kind with e | ⟨hm, hi⟩
  · rw [e]
    exact h
  · refine h.insertNode hi ?_
    unfold mayCreate at hm
    split at hm
    · exact .inl hm
    · exact .inr hm

/-- The move of a file: files are not the containers of other nodes. -/
lemma moveFile (h : t.IsForest) (node : Node) (target : Path) :
    (t.moveFile owner node target).2.IsForest := by
  rcases moveFile_cases owner node target t with e | ⟨hk, hcont, -, htr, e⟩
  · rw [e]
    exact h
  · have hkeyed := h.keyed.moveFile owner node target
    rw [e] at hkeyed ⊢
    obtain ⟨f, hf, hid, ho, hkind⟩ := hasKind_iff.1 hk
    have hfile : ∀ m ∈ t.nodes, m.id = node.id → m = f := fun m hm e =>
      h.keyed.nodes.eq_of_id hm hf (e.trans hid.symm)
    have hstay : ∀ m ∈ t.nodes, m.kind.isContainer = true → m ∈ place t.nodes node.id target := by
      intro m hm hc
      refine mem_place.2 ⟨m, hm, (if_neg fun e => ?_).symm⟩
      rw [hfile m hm e, hkind] at hc
      cases hc
    refine ⟨hkeyed, fun n hn => ?_, fun n hn q hq => ?_⟩
    · obtain ⟨m, hm, rfl⟩ := mem_place.1 hn
      split
      · next e =>
        rw [Node.isWellPlaced_iff, hfile m hm e]
        simp [hkind, htr]
      · exact h.placed m hm
    · obtain ⟨m, hm, rfl⟩ := mem_place.1 hn
      split at hq
      · next e =>
        rw [hq, hasContainerAt_some] at hcont
        obtain ⟨c, hc, hco, hcp, hck⟩ := hcont
        refine ⟨c, hstay c hc hck, ?_, hcp, hck⟩
        rw [if_pos e, hco, hfile m hm e, ho]
      · next e =>
        obtain ⟨c, hc, hco, hcp, hck⟩ := h.attached m hm q hq
        exact ⟨c, hstay c hc hck, by rw [if_neg e, hco], hcp, hck⟩

/-- **The move of a directory.** What is below it moves along and stays below it. The container at
the destination stays, as it is not below the directory. -/
lemma moveDirectory (h : t.IsForest) (node : Node) (target : Path) :
    (t.moveDirectory owner node target).2.IsForest := by
  rcases moveDirectory_cases owner node target t with
    e | ⟨source, nodes, hs, htr, hout, hcont, hr, e⟩
  · rw [e]
    exact h
  · have hkeyed := h.keyed.moveDirectory owner node target
    rw [e] at hkeyed ⊢
    obtain ⟨hsource, -, hso, hskind⟩ := mem_of_stored? hs
    have hsr : source.path.isRoot = false := h.path_ne_root hsource (by simp [hskind])
    have hmem : ∀ n, n ∈ nodes ↔ ∃ m ∈ t.nodes,
        (if m.owner = owner ∧ source.path.covers m.path = true then
          { m with path := m.path.graft source.path target } else m) = n := fun n => by
      rw [eq_of_relocate hr, List.mem_map]
      exact exists_congr fun m => and_congr_right fun hm => by rw [moved_subtree h.keyed.nodes hm]
    refine ⟨hkeyed, fun n hn => ?_, fun n hn q hq => ?_⟩
    · obtain ⟨m, hm, rfl⟩ := (hmem n).1 hn
      split
      · next hc =>
        rw [Node.isWellPlaced_iff]
        simp [h.kind_ne_root hm hsr hc.2, Path.isRoot_graft hsr htr hc.2]
      · exact h.placed m hm
    · obtain ⟨m, hm, rfl⟩ := (hmem n).1 hn
      by_cases hc : m.owner = owner ∧ source.path.covers m.path = true
      · rw [if_pos hc] at hq ⊢
        by_cases htop : m.path = source.path
        · -- the directory itself, whose new container is outside of it
          rw [htop, Path.graft_source] at hq
          rw [hq, hasContainerAt_some] at hcont
          obtain ⟨c, hcm, hco, rfl, hck⟩ := hcont
          refine ⟨c, (hmem c).2 ⟨c, hcm, if_neg fun hin => ?_⟩, hco.trans hc.1.symm, rfl, hck⟩
          rw [Path.covers_trans hin.2 (Path.covers_of_parent hq)] at hout
          cases hout
        · -- a node below it, whose container moves along
          obtain ⟨p, hp⟩ := Path.exists_parent (by
            rw [Bool.eq_false_iff]
            exact fun hr => by simp [Path.isRoot_of_covers hc.2 hr] at hsr)
          obtain ⟨c, hcm, hco, rfl, hck⟩ := h.attached m hm p hp
          have hin := (Path.covers_parent_iff hp).2 ⟨hc.2, fun e => htop e.symm⟩
          refine ⟨_, (hmem _).2 ⟨c, hcm, if_pos ⟨hco.trans hc.1, hin⟩⟩, hco, ?_, hck⟩
          rw [Path.parent_graft hsr hin hp] at hq
          exact Option.some.inj hq
      · rw [if_neg hc] at hq ⊢
        obtain ⟨c, hcm, hco, rfl, hck⟩ := h.attached m hm q hq
        refine ⟨c, (hmem c).2 ⟨c, hcm, if_neg fun hin => hc ?_⟩, hco, rfl, hck⟩
        exact ⟨hco ▸ hin.1, Path.covers_trans hin.2 (Path.covers_of_parent hq)⟩

/-- The copy of a file is below its container, or there is none. -/
lemma copyFile (h : t.IsForest) (id : NodeId) (node : Node) (target : Path) :
    (t.copyFile id time owner node target).2.IsForest := by
  rcases copyFile_cases owner time node target t id with e | ⟨-, hc, hi⟩
  · rw [e]
    exact h
  · exact h.insertNode hi (.inr hc)

/-- **The copy of a directory.** A copy is below the copy of its container, and the copy of the
directory is in a container that was there. -/
lemma copyDirectory (h : t.IsForest) (ids : Nat → NodeId) (node : Node) (target : Path) :
    (t.copyDirectory ids time owner node target).2.IsForest := by
  rcases copyDirectory_cases owner time node target t ids with
    e | ⟨source, hs, htr, -, hcont, hv, hi⟩
  · rw [e]
    exact h
  · obtain ⟨hsource, -, -, hskind⟩ := mem_of_stored? hs
    have hsr : source.path.isRoot = false := h.path_ne_root hsource (by simp [hskind])
    have hrebases := rebases_of_valid hsr htr hv
    refine h.insertNodes hi fun n hn q hq => ?_
    obtain ⟨m, hm, k, rfl⟩ := (hrebases.mem_copiedRows time ids).1 hn
    obtain ⟨hmt, hmo, hmc⟩ := mem_subtree.1 hm
    by_cases htop : m.path = source.path
    · simp only [htop, Path.graft_source] at hq
      rw [hq, hasContainerAt_some] at hcont
      obtain ⟨c, hc, hco⟩ := hcont
      exact ⟨c, .inr hc, hco⟩
    · obtain ⟨p, hp⟩ := Path.exists_parent (by
        rw [Bool.eq_false_iff]
        exact fun hr => by simp [Path.isRoot_of_covers hmc hr] at hsr)
      obtain ⟨c, hc, hco, rfl, hck⟩ := h.attached m hmt p hp
      have hin := (Path.covers_parent_iff hp).2 ⟨hmc, fun e => htop e.symm⟩
      obtain ⟨k', hrow⟩ : ∃ k', (⟨ids k', c.kind, c.path.graft source.path target, owner, time⟩ :
          Node) ∈ copiedRows owner time target t ids source :=
        (hrebases.mem_copiedRows time ids).2 (mem_subtree.2 ⟨hc, hco.trans hmo, hin⟩)
      refine ⟨_, .inl hrow, rfl, ?_, hck⟩
      rw [Path.parent_graft hsr hin hp] at hq
      exact Option.some.inj hq

/-- The removal of a node without others below it. -/
lemma removeLeaf (h : t.IsForest) (node : Node) : (t.removeLeaf owner node).2.IsForest := by
  rcases removeLeaf_cases owner node t with e | ⟨top, hr, hone, e⟩ <;> rw [e]
  · exact h
  · obtain ⟨htop, -, hto, -⟩ := mem_of_removable? hr
    refine h.filter fun m hm n hn hgone ho hc => ?_
    obtain rfl := h.keyed.nodes.eq_of_id hm htop (by simpa using hgone)
    obtain ⟨x, hx⟩ := List.length_eq_one_iff.1 hone
    have hn' : n ∈ t.subtree owner m.path := mem_subtree.2 ⟨hn, ho.trans hto, hc⟩
    have hm' : m ∈ t.subtree owner m.path := mem_subtree.2 ⟨hm, hto, Path.covers_refl _⟩
    rw [hx, List.mem_singleton] at hn' hm'
    simp [hn', hm']

/-- The removal of a node with all that is below it. -/
lemma removeSubtree (h : t.IsForest) (node : Node) :
    (t.removeSubtree owner node).2.IsForest := by
  rcases removeSubtree_cases owner node t with e | ⟨top, -, e⟩ <;> rw [e]
  · exact h
  · refine h.filter fun m _ n _ hgone ho hc => ?_
    simp only [Bool.not_eq_false', Bool.and_eq_true, beq_iff_eq] at hgone ⊢
    exact ⟨ho.trans hgone.1, Path.covers_trans hgone.2 hc⟩

end Statements

/-- **Every statement keeps the forest.** Statements on blobs, links and the ledger do not touch
nodes. -/
theorem run (h : t.IsForest) (fresh : Fresh) (owner : OwnerId) (s : Statement) :
    (s.run fresh owner t).2.IsForest := by
  cases hs : s.isOnNodes with
  | false =>
    exact h.of_nodes_eq (h.keyed.run fresh owner s) (Statement.nodes_run_of_not_isOnNodes hs)
  | true =>
    cases s with
    | createNode path kind => exact h.createNode owner _ _ path kind
    | moveFile node target => exact h.moveFile owner node target
    | moveDirectory node target => exact h.moveDirectory owner node target
    | copyFile node target => exact h.copyFile owner _ _ node target
    | copyDirectory node target => exact h.copyDirectory owner _ _ node target
    | removeLeaf node => exact h.removeLeaf owner node
    | removeSubtree node => exact h.removeSubtree owner node
    | _ => cases hs

/-- Statements one after the other keep the forest. -/
lemma runAll (h : t.IsForest) (calls : List (Fresh × OwnerId × Statement)) :
    (Statement.runAll calls t).IsForest := by
  induction calls generalizing t with
  | nil => exact h
  | cons call rest ih => exact ih (h.run _ _ _)

end IsForest

end Tables

/-! ## What stays of a node -/

/-- What a statement may do to the nodes: add some, under new identifiers; give some a new place;
or remove some. Roots stay where they are. -/
inductive NodeChange (ids : Nat → NodeId) (before after : List Node) : Prop where
  | added (rows : List Node) (new : ∀ n ∈ rows, ∃ k, n.id = ids k) (eq : after = rows ++ before)
  | placed (path : Node → Path) (roots : ∀ n ∈ before, n.kind = .root → path n = n.path)
    (eq : after = before.map fun n => { n with path := path n })
  | removed (roots : ∀ n ∈ before, n.kind = .root → n ∈ after) (sub : after.Sublist before)

namespace NodeChange

variable {ids : Nat → NodeId} {before after : List Node} {n n' : Node}

/-- Nodes that stay as they are have changed by nothing. -/
lemma refl (nodes : List Node) : NodeChange ids nodes nodes := .added [] (by simp) rfl

/-- A node that stays keeps all but its place. -/
lemma eq_of_id (h : NodeChange ids before after) (hb : Node.Keyed before) (ha : Node.Keyed after)
    (hn : n ∈ before) (hn' : n' ∈ after) (e : n'.id = n.id) : n' = { n with path := n'.path } := by
  cases h with
  | added rows _ eq =>
    have hn₁ : n ∈ after := eq ▸ List.mem_append_right _ hn
    rw [ha.eq_of_id hn' hn₁ e]
  | placed path _ eq =>
    rw [eq] at hn'
    obtain ⟨m, hm, rfl⟩ := List.mem_map.1 hn'
    rw [hb.eq_of_id hm hn e]
  | removed _ sub => rw [hb.eq_of_id (sub.subset hn') hn e]

/-- Another node is new, and has a new identifier. -/
lemma exists_id (h : NodeChange ids before after) (hn' : n' ∈ after) :
    (∃ n ∈ before, n.id = n'.id) ∨ ∃ k, n'.id = ids k := by
  cases h with
  | added rows new eq =>
    rw [eq, List.mem_append] at hn'
    rcases hn' with hn' | hn'
    · exact .inr (new n' hn')
    · exact .inl ⟨n', hn', rfl⟩
  | placed path _ eq =>
    rw [eq] at hn'
    obtain ⟨m, hm, rfl⟩ := List.mem_map.1 hn'
    exact .inl ⟨m, hm, rfl⟩
  | removed _ sub => exact .inl ⟨n', sub.subset hn', rfl⟩

/-- A root stays as it is. -/
lemma root_mem (h : NodeChange ids before after) (hn : n ∈ before) (hk : n.kind = .root) :
    n ∈ after := by
  cases h with
  | added rows _ eq => exact eq ▸ List.mem_append_right _ hn
  | placed path roots eq =>
    rw [eq]
    exact List.mem_map.2 ⟨n, hn, by rw [roots n hn hk]⟩
  | removed roots _ => exact roots n hn hk

end NodeChange

namespace Statement

variable {t : Tables}

/-- An inserted node is one more, under a new identifier. -/
lemma nodeChange_of_insertNode {ids : Nat → NodeId} {n : Node} {t' : Tables} {k : Nat}
    (h : t.insertNode n = .ok t') (hid : n.id = ids k) : NodeChange ids t.nodes t'.nodes := by
  refine .added [n] (fun m hm => ⟨k, ?_⟩) ?_
  · rw [List.mem_singleton.1 hm, hid]
  · rw [(Tables.insertNode_eq_ok.1 h).2.2]
    rfl

/-- **What a statement does to nodes**: it adds some, or gives some a new place, or removes
some. -/
theorem nodes_run (h : t.IsForest) (fresh : Fresh) (owner : OwnerId) (s : Statement) :
    NodeChange fresh.nodeId t.nodes (s.run fresh owner t).2.nodes := by
  cases hs : s.isOnNodes with
  | false =>
    rw [nodes_run_of_not_isOnNodes hs]
    exact .refl _
  | true =>
    cases s with
    | createNode path kind =>
      change NodeChange _ _ (t.createNode _ _ owner path kind).2.nodes
      rcases Tables.createNode_cases owner (fresh.now 0) t (fresh.nodeId 0) path kind
        with e | ⟨-, hi⟩
      · rw [e]
        exact .refl _
      · exact nodeChange_of_insertNode hi rfl
    | moveFile node target =>
      change NodeChange _ _ (t.moveFile owner node target).2.nodes
      rcases Tables.moveFile_cases owner node target t with e | ⟨hk, -, -, -, e⟩ <;> rw [e]
      · exact .refl _
      · obtain ⟨f, hf, hid, -, hkind⟩ := Tables.hasKind_iff.1 hk
        refine .placed (fun n => if n.id = node.id then target else n.path) (fun n hn hr => ?_) ?_
        · refine if_neg fun e => ?_
          rw [h.keyed.nodes.eq_of_id hn hf (e.trans hid.symm), hkind] at hr
          cases hr
        · refine List.map_congr_left fun n _ => ?_
          by_cases e : n.id = node.id <;> simp [e]
    | moveDirectory node target =>
      change NodeChange _ _ (t.moveDirectory owner node target).2.nodes
      rcases Tables.moveDirectory_cases owner node target t with
        e | ⟨source, nodes, hs, -, -, -, hr, e⟩ <;> rw [e]
      · exact .refl _
      · obtain ⟨hsource, -, -, hskind⟩ := Tables.mem_of_stored? hs
        have hsr : source.path.isRoot = false := h.path_ne_root hsource (by simp [hskind])
        refine .placed (fun n => (Tables.moved _ n).path) (fun n hn hk => ?_)
          ((Tables.eq_of_relocate hr).trans (List.map_congr_left fun n _ => Tables.moved_eq _ n))
        rw [Tables.moved_subtree h.keyed.nodes hn, if_neg fun hc => h.kind_ne_root hn hsr hc.2 hk]
    | copyFile node target =>
      change NodeChange _ _ (t.copyFile _ _ owner node target).2.nodes
      rcases Tables.copyFile_cases owner (fresh.now 0) node target t (fresh.nodeId 0)
        with e | ⟨-, -, hi⟩
      · rw [e]
        exact .refl _
      · exact nodeChange_of_insertNode hi rfl
    | copyDirectory node target =>
      change NodeChange _ _ (t.copyDirectory _ _ owner node target).2.nodes
      rcases Tables.copyDirectory_cases owner (fresh.now 0) node target t fresh.nodeId
        with e | ⟨source, hs, htr, -, -, hv, hi⟩
      · rw [e]
        exact .refl _
      · obtain ⟨hsource, -, -, hskind⟩ := Tables.mem_of_stored? hs
        have hsr : source.path.isRoot = false := h.path_ne_root hsource (by simp [hskind])
        rw [Tables.eq_of_insertNodes hi]
        refine .added _ (fun n hn => ?_) rfl
        obtain ⟨m, -, k, rfl⟩ :=
          ((Tables.rebases_of_valid hsr htr hv).mem_copiedRows _ _).1 (List.mem_reverse.1 hn)
        exact ⟨k, rfl⟩
    | removeLeaf node =>
      change NodeChange _ _ (t.removeLeaf owner node).2.nodes
      rcases Tables.removeLeaf_cases owner node t with e | ⟨top, hr, -, e⟩ <;> rw [e]
      · exact .refl _
      · obtain ⟨htop, -, -, hk⟩ := Tables.mem_of_removable? hr
        refine .removed (fun n hn hroot => List.mem_filter.2 ⟨hn, bne_iff_ne.2 fun e => hk ?_⟩)
          List.filter_sublist
        rw [← h.keyed.nodes.eq_of_id hn htop e, hroot]
    | removeSubtree node =>
      change NodeChange _ _ (t.removeSubtree owner node).2.nodes
      rcases Tables.removeSubtree_cases owner node t with e | ⟨top, hr, e⟩ <;> rw [e]
      · exact .refl _
      · obtain ⟨htop, -, -, hk⟩ := Tables.mem_of_removable? hr
        refine .removed (fun n hn hroot => List.mem_filter.2 ⟨hn, ?_⟩) List.filter_sublist
        simp only [Bool.not_eq_true', Bool.and_eq_false_iff]
        refine .inr (Bool.eq_false_iff.2 fun hc => ?_)
        exact h.kind_ne_root hn (h.path_ne_root htop hk) hc hroot
    | _ => cases hs

/-! ## Properties of places -/

/-- The place that a statement is to fill. -/
def target? : Statement → Option Path
  | createNode path _ => some path
  | moveFile _ target | moveDirectory _ target | copyFile _ target | copyDirectory _ target =>
    some target
  | _ => none

/-- **Inherited properties** of places are kept if the place that a statement is to fill has them.
Places below a moved or copied directory are made of it and of labels that were there. -/
lemma inherited_run {P : Path → Prop} (hP : Path.Inherited P) (h : t.IsForest)
    (hv : ∀ n ∈ t.nodes, P n.path) {s : Statement} (ht : ∀ p ∈ s.target?, P p) (fresh : Fresh)
    (owner : OwnerId) : ∀ n ∈ (s.run fresh owner t).2.nodes, P n.path := by
  have cons {n : Node} {t' : Tables} (hi : t.insertNode n = .ok t') (hn : P n.path) :
      ∀ m ∈ t'.nodes, P m.path := by
    rw [(Tables.insertNode_eq_ok.1 hi).2.2]
    exact List.forall_mem_cons.2 ⟨hn, hv⟩
  cases hs : s.isOnNodes with
  | false =>
    rw [nodes_run_of_not_isOnNodes hs]
    exact hv
  | true =>
    cases s with
    | createNode path kind =>
      change ∀ n ∈ (t.createNode _ _ owner path kind).2.nodes, _
      rcases Tables.createNode_cases owner (fresh.now 0) t (fresh.nodeId 0) path kind
        with e | ⟨-, hi⟩
      · rwa [e]
      · exact cons hi (ht _ rfl)
    | moveFile node target =>
      change ∀ n ∈ (t.moveFile owner node target).2.nodes, _
      rcases Tables.moveFile_cases owner node target t with e | ⟨-, -, -, -, e⟩ <;> rw [e]
      · exact hv
      · intro n hn
        obtain ⟨m, hm, rfl⟩ := Tables.mem_place.1 hn
        split
        · exact ht _ rfl
        · exact hv m hm
    | moveDirectory node target =>
      change ∀ n ∈ (t.moveDirectory owner node target).2.nodes, _
      rcases Tables.moveDirectory_cases owner node target t with
        e | ⟨source, nodes, hs, htr, -, -, hr, e⟩ <;> rw [e]
      · exact hv
      · obtain ⟨hsource, -, -, hskind⟩ := Tables.mem_of_stored? hs
        have hsr : source.path.isRoot = false := h.path_ne_root hsource (by simp [hskind])
        intro n hn
        rw [Tables.eq_of_relocate hr] at hn
        obtain ⟨m, hm, rfl⟩ := List.mem_map.1 hn
        rw [Tables.moved_subtree h.keyed.nodes hm]
        split
        · next hc => exact hP.graft hsr htr hc.2 (hv m hm) (ht _ rfl)
        · exact hv m hm
    | copyFile node target =>
      change ∀ n ∈ (t.copyFile _ _ owner node target).2.nodes, _
      rcases Tables.copyFile_cases owner (fresh.now 0) node target t (fresh.nodeId 0)
        with e | ⟨-, -, hi⟩
      · rwa [e]
      · exact cons hi (ht _ rfl)
    | copyDirectory node target =>
      change ∀ n ∈ (t.copyDirectory _ _ owner node target).2.nodes, _
      rcases Tables.copyDirectory_cases owner (fresh.now 0) node target t fresh.nodeId
        with e | ⟨source, hs, htr, -, -, hvs, hi⟩
      · rwa [e]
      · obtain ⟨hsource, -, -, hskind⟩ := Tables.mem_of_stored? hs
        have hsr : source.path.isRoot = false := h.path_ne_root hsource (by simp [hskind])
        intro n hn
        rw [Tables.eq_of_insertNodes hi, List.mem_append, List.mem_reverse] at hn
        rcases hn with hn | hn
        · obtain ⟨m, hm, k, rfl⟩ := ((Tables.rebases_of_valid hsr htr hvs).mem_copiedRows _ _).1 hn
          obtain ⟨hmt, -, hmc⟩ := Tables.mem_subtree.1 hm
          exact hP.graft hsr htr hmc (hv m hmt) (ht _ rfl)
        · exact hv n hn
    | removeLeaf node =>
      change ∀ n ∈ (t.removeLeaf owner node).2.nodes, _
      rcases Tables.removeLeaf_cases owner node t with e | ⟨top, -, -, e⟩ <;> rw [e]
      · exact hv
      · exact fun n hn => hv n (List.mem_filter.1 hn).1
    | removeSubtree node =>
      change ∀ n ∈ (t.removeSubtree owner node).2.nodes, _
      rcases Tables.removeSubtree_cases owner node t with e | ⟨top, -, e⟩ <;> rw [e]
      · exact hv
      · exact fun n hn => hv n (List.mem_filter.1 hn).1
    | _ => cases hs

/-- **Nodes stay at valid paths** if the place that a statement is to fill is valid. -/
lemma valid_run (h : t.IsForest) (hv : ∀ n ∈ t.nodes, n.path.Valid) {s : Statement}
    (ht : ∀ p ∈ s.target?, p.Valid) (fresh : Fresh) (owner : OwnerId) :
    ∀ n ∈ (s.run fresh owner t).2.nodes, n.path.Valid :=
  inherited_run Path.inherited_valid h hv ht fresh owner

end Statement

/-! ## Sessions -/

namespace Session

/-- The place that an event is to fill. -/
def Event.target? : Event → Option Path
  | .call _ _ statement => statement.target?
  | _ => none

/-- **Nodes form a forest in every state of a session**, inside and outside of its transactions,
and for places of any text. If the places to be filled are valid, all places are. The next
statement, whatever it is, changes nothing of a node that stays but its place, adds nodes under new
identifiers only, and leaves roots alone. -/
theorem forest (events : List Event) :
    let t := (empty.after events).now
    (∀ m ∈ t.nodes, ∀ n ∈ t.nodes, m.owner = n.owner → m.path = n.path → m = n) ∧
    (∀ n ∈ t.nodes, (n.kind = .root ↔ n.path = .root)) ∧
    (∀ m ∈ t.nodes, ∀ n ∈ t.nodes, m.kind = .root → n.kind = .root → m.owner = n.owner →
      m = n) ∧
    ((∀ e ∈ events, ∀ p ∈ e.target?, p.Valid) → ∀ n ∈ t.nodes, n.path.Valid) ∧
    (∀ n ∈ t.nodes, n.kind ≠ .root → ∃ q, n.path.parent = some q ∧
      ∃ m ∈ t.nodes, m.owner = n.owner ∧ m.path = q ∧ (m.kind = .root ∨ m.kind = .dir)) ∧
    (∀ n ∈ t.nodes, ∀ q ∈ n.path.ancestors,
      ∃ m ∈ t.nodes, m.owner = n.owner ∧ m.path = q ∧ (m.kind = .root ∨ m.kind = .dir)) ∧
    (∀ f ∈ t.nodes, f.kind = .file → ∀ n ∈ t.nodes, n.owner = f.owner →
      f.path ∉ n.path.ancestors) ∧
    ∀ (fresh : Fresh) (owner : OwnerId) (s : Statement), let t' := (s.run fresh owner t).2
      (∀ n ∈ t.nodes, ∀ n' ∈ t'.nodes, n'.id = n.id →
        n'.owner = n.owner ∧ n'.kind = n.kind ∧ n'.createdAt = n.createdAt) ∧
      (∀ n' ∈ t'.nodes, (∃ n ∈ t.nodes, n.id = n'.id) ∨ ∃ k, n'.id = fresh.nodeId k) ∧
      ∀ n ∈ t.nodes, n.kind = .root → n ∈ t'.nodes := by
  intro t
  have h : t.IsForest := (invariant .empty fun fresh owner s _ t h => h.run fresh owner s).2
  have hroot : ∀ n ∈ t.nodes, (n.kind = .root ↔ n.path = .root) := fun n hn => by
    rw [h.isRoot_path hn]
    exact ⟨Path.eq_root, fun e => by rw [e]; rfl⟩
  have hcontainer {k : Kind} (hk : k.isContainer = true) : k = .root ∨ k = .dir := by
    cases k <;> simp [Kind.isContainer] at hk ⊢
  refine ⟨h.keyed.nodes.places, hroot, fun m hm n hn hkm hkn ho => ?_, fun hev => ?_,
    fun n hn hk => ?_, fun n hn q hq => ?_, fun f hf hk n hn ho hq => ?_, fun fresh owner s => ?_⟩
  · refine h.keyed.nodes.places m hm n hn ho ?_
    rw [(hroot m hm).1 hkm, (hroot n hn).1 hkn]
  · refine (@invariant (fun t => t.IsForest ∧ ∀ n ∈ t.nodes, n.path.Valid) events
      ⟨.empty, by simp [Tables.empty]⟩ fun fresh owner s hs t h => ?_).2.2
    exact ⟨h.1.run fresh owner s, s.valid_run h.1 h.2 (hev _ hs) fresh owner⟩
  · obtain ⟨q, hq⟩ := Path.exists_parent (h.path_ne_root hn hk)
    obtain ⟨m, hm, ho, hp, hc⟩ := h.attached n hn q hq
    exact ⟨q, hq, m, hm, ho, hp, hcontainer hc⟩
  · obtain ⟨hc, hne⟩ := Path.mem_ancestors.1 hq
    obtain ⟨m, hm, ho, hp, hk⟩ := h.container_above hn hc hne
    exact ⟨m, hm, ho, hp, hcontainer hk⟩
  · obtain ⟨hc, hne⟩ := Path.mem_ancestors.1 hq
    exact hne (by rw [h.eq_of_covers_of_file hf hn hk ho hc])
  · have hchange := s.nodes_run h fresh owner
    refine ⟨fun n hn n' hn' e => ?_, fun n' hn' => hchange.exists_id hn',
      fun n hn hk => hchange.root_mem hn hk⟩
    rw [hchange.eq_of_id h.keyed.nodes (h.run fresh owner s).keyed.nodes hn hn' e]
    exact ⟨rfl, rfl, rfl⟩

end Session

end VersionedTree
