import VersionedTree.Proofs.Archive.Reachable
import VersionedTree.Proofs.Archive.Relocation
import VersionedTree.Proofs.Tables.Moves

/-!
# Moves in archives

A move is accepted or changes nothing, and which of the two can be told from the nodes. One that is
accepted gives new places to exactly the nodes at and below the one that moves, counts them, and can
be taken back. A file that is moved to its own place is counted, too, although nothing changes.

## Main results

* `VersionedTree.Archive.move_of_movable`, `VersionedTree.Archive.move_of_not_movable` — moves that
  are accepted, and moves that are not.
* `VersionedTree.Archive.directory_moves` — when directories move, and where all nodes get.
* `VersionedTree.Archive.move_counts` — what the count of a move tells.
* `VersionedTree.Archive.move_undone` — moves back.
-/

set_option autoImplicit false

namespace VersionedTree

/-- Links refer to nodes by identifiers, which stay. -/
lemma Tables.referencesHold_afterMove (t : Tables) (top : Node) (target : Path) :
    (t.afterMove top target).referencesHold = t.referencesHold := by
  simp [referencesHold, afterMove, Function.comp_def]

namespace Archive

variable {a : Archive} {top node : Node} {owner : OwnerId} {target : Path} {n : Nat}

/-! ## Acceptance -/

/-- **A move that is accepted** counts the nodes at and below the one that moves. -/
theorem move_of_movable (ha : a.Reachable) (h : a.tables.Movable top target)
    (hid : top.id = node.id) (hkind : top.kind = node.kind) :
    a.move top.owner node target =
      (.ok (a.tables.subtree top.owner top.path).length,
        { a with tables := a.tables.afterMove top target }) := by
  have hpos : 0 < (a.tables.subtree top.owner top.path).length :=
    List.length_pos_of_mem (Tables.mem_subtree.2 ⟨h.stored, rfl, Path.covers_refl _⟩)
  have hstatement : moveStatement top.owner node target a.tables =
      (.ok (a.tables.subtree top.owner top.path).length, a.tables.afterMove top target) := by
    unfold moveStatement
    cases hk : node.kind with
    | file =>
      simp only [h.moveFile_eq ha.isForest (hkind.trans hk) hid.symm hk, requireMoved, hpos,
        if_true]
    | dir =>
      simp only [h.moveDirectory_eq ha.isForest (hkind.trans hk) hid.symm hk, requireMoved, hpos,
        if_true]
    | root => exact absurd (hkind.trans hk) h.kind
  exact a.withTables_transact_of_ok hstatement
    ((a.tables.referencesHold_afterMove top target).trans ha.referencesHold)

/-- **A move that is not accepted** changes nothing. -/
theorem move_of_not_movable (ha : a.Reachable) (hkind : node.kind ≠ .root)
    (hnone : ∀ top, top.id = node.id → top.owner = owner → top.kind = node.kind →
      ¬a.tables.Movable top target) :
    a.move owner node target = (.error (.updateFailure "tree"), a) := by
  have hstatement : moveStatement owner node target a.tables =
      (.error (.updateFailure "tree"), a.tables) := by
    unfold moveStatement
    cases hk : node.kind with
    | file =>
      rw [hk] at hnone
      simp only [Tables.moveFile_of_not_movable ha.isForest hk hnone, requireMoved, lt_irrefl,
        if_false]
    | dir =>
      rw [hk] at hnone
      simp only [Tables.moveDirectory_of_not_movable ha.isForest hk hnone, requireMoved, lt_irrefl,
        if_false]
    | root => exact absurd hk hkind
  exact a.withTables_transact_of_error hstatement

/-- A move that succeeds has been accepted for a stored node of the claimed kind. -/
lemma movable_of_move (ha : a.Reachable) (h : (a.move owner node target).1 = .ok n) :
    ∃ top, top.id = node.id ∧ top.owner = owner ∧ top.kind = node.kind ∧
      a.tables.Movable top target ∧ n = (a.tables.subtree owner top.path).length ∧
      a.move owner node target = (.ok n, { a with tables := a.tables.afterMove top target }) := by
  by_cases hnone : ∀ top, top.id = node.id → top.owner = owner → top.kind = node.kind →
      ¬a.tables.Movable top target
  · by_cases hk : node.kind = .root
    · have hroot : moveStatement owner node target a.tables =
          (.error (.ofKind "FILE or DIR" node.kind), a.tables) := by rw [moveStatement, hk]
      rw [move, a.withTables_transact_of_error hroot] at h
      cases h
    · rw [move_of_not_movable ha hk hnone] at h
      cases h
  · push Not at hnone
    obtain ⟨top, hid, rfl, hkind, hm⟩ := hnone
    have hmoved := move_of_movable ha hm hid hkind
    rw [hmoved] at h
    obtain rfl := Except.ok.inj h
    exact ⟨top, hid, rfl, hkind, hm, rfl, hmoved⟩

/-! ## Directories -/

/-- A directory that can be brought to a place moves there. -/
lemma move_of_transferable (ha : a.Reachable) (hdir : node.kind = .dir) (hid : top.id = node.id)
    (hkind : top.kind = .dir) (ht : a.tables.Transferable top target) :
    a.move top.owner node target = (.ok (a.tables.subtree top.owner top.path).length,
      { a with tables := { a.tables with
        nodes := a.tables.nodes.map (Node.movedAlong top.owner top.path target) } }) :=
  move_of_movable ha (.inl ht) hid (hkind.trans hdir.symm)

/-- Without such a directory nothing changes. -/
lemma move_of_not_transferable (ha : a.Reachable) (hdir : node.kind = .dir)
    (hnone : ¬∃ d, d.id = node.id ∧ d.owner = owner ∧ d.kind = .dir ∧
      a.tables.Transferable d target) :
    a.move owner node target = (.error (.updateFailure "tree"), a) := by
  refine move_of_not_movable ha (by simp [hdir]) fun d hid ho hkind hm => hnone ?_
  rw [hdir] at hkind
  exact ⟨d, hid, ho, hkind, (Tables.movable_iff_of_dir hkind).1 hm⟩

/-- **Directories move** exactly when they should, and take along exactly what is at and below them.
In every reachable archive, the move of a node that is claimed to be a directory succeeds if and
only if the owner has a directory of this identifier that can be brought to the place: the place is
not at the top, not at or below the directory, free, and its parent is a root or directory of the
owner. Otherwise the answer is an update failure and nothing changes.

A move that succeeds counts the owner's nodes at and below the directory, which are those at places
of further labels after that of the directory. Each of them is at the new place followed by these
labels afterwards, and otherwise as it was. So are all other nodes, the other tables and the
payloads. In whatever order the nodes get their new places, none of these is taken.

**Proof sketch.** Nothing is below a free place, so that all new places are free at the beginning,
and they are different from each other. -/
theorem directory_moves (ha : a.Reachable) (owner : OwnerId) (hdir : node.kind = .dir)
    (target : Path) :
    let t := a.tables
    ((∃ count, (a.move owner node target).1 = .ok count) ↔
      ∃ d, d.id = node.id ∧ d.owner = owner ∧ d.kind = .dir ∧ t.Transferable d target) ∧
    ((∀ count, (a.move owner node target).1 ≠ .ok count) →
      a.move owner node target = (.error (.updateFailure "tree"), a)) ∧
    ∀ d, d.id = node.id → d.owner = owner → d.kind = .dir → t.Transferable d target →
      let subtree := t.subtree owner d.path
      let moved := Node.movedAlong owner d.path target
      a.move owner node target =
        (.ok subtree.length, { a with tables := { t with nodes := t.nodes.map moved } }) ∧
      (∀ n, n ∈ subtree ↔ n ∈ t.nodes ∧ n.owner = owner ∧ ∃ labels : List (List Char),
        (∀ label ∈ labels, '.' ∉ label) ∧ n.path = labels.foldl Path.join d.path) ∧
      (∀ n ∈ subtree, ∀ labels : List (List Char), n.path = labels.foldl Path.join d.path →
        moved n = { n with path := labels.foldl Path.join target }) ∧
      (∀ n ∈ t.nodes, n ∉ subtree → moved n = n) ∧
      ∀ moves : List (NodeId × Path), moves.Perm (Tables.movedPlaces subtree d.path target) →
        Tables.relocate owner moves t.nodes = .ok (t.nodes.map moved) := by
  intro t
  refine ⟨⟨?_, ?_⟩, ?_, ?_⟩
  · rintro ⟨count, hok⟩
    by_contra hnone
    rw [move_of_not_transferable ha hdir hnone] at hok
    cases hok
  · rintro ⟨d, hid, rfl, hkind, ht⟩
    exact ⟨_, congrArg Prod.fst (move_of_transferable ha hdir hid hkind ht)⟩
  · intro hfails
    refine move_of_not_transferable ha hdir ?_
    rintro ⟨d, hid, rfl, hkind, ht⟩
    exact hfails _ (congrArg Prod.fst (move_of_transferable ha hdir hid hkind ht))
  · rintro d hid rfl hkind ht subtree moved
    have hs := ht.isRoot_source ha.isForest
    refine ⟨move_of_transferable ha hdir hid hkind ht, ?_, ?_, ?_, ?_⟩
    · intro n
      rw [Tables.mem_subtree, Path.covers_iff_foldl_join hs]
    · intro n hn labels e
      obtain ⟨-, hno, hc⟩ := Tables.mem_subtree.1 hn
      have hmoved : moved n = { n with path := n.path.graft d.path target } :=
        Node.movedAlong_of_below hno hc
      rw [hmoved, e, Path.graft_foldl_join hs ht.isRoot]
    · intro n hn hout
      exact Node.movedAlong_of_not_below fun hin => hout (Tables.mem_subtree.2 ⟨hn, hin⟩)
    · exact fun moves hp => ht.relocate_eq ha.isForest hp

/-- A directory with three nodes below it moves. -/
theorem directory_moves_nested :
    let a := empty.after Step.nestDirectories
    let owner : OwnerId := ⟨.ofNat 1⟩
    a.Reachable ∧ Step.outerDirectory.kind = .dir ∧
      (a.move owner Step.outerDirectory ⟨"x"⟩).1 = .ok 4 := by
  intro a owner
  have ha : a.Reachable := Reachable.empty.after _
  let d : Node := { Step.outerDirectory with createdAt := ⟨200⟩ }
  have ht : a.tables.Transferable d ⟨"x"⟩ :=
    ⟨by decide +kernel, by decide, by decide, by decide, by decide +kernel, by decide +kernel⟩
  have hdir : Step.outerDirectory.kind = .dir := rfl
  obtain ⟨-, -, hmoves⟩ := directory_moves ha owner hdir ⟨"x"⟩
  obtain ⟨hmoved, -⟩ := hmoves d rfl rfl rfl ht
  have hcount : (a.tables.subtree owner d.path).length = 4 := by decide +kernel
  refine ⟨ha, hdir, ?_⟩
  rw [hmoved, hcount]

/-! ## Counts -/

/-- **What the count of a move tells.** In every reachable archive, a move that succeeds counts one
node at least, and the place was not taken but by a file that has been moved to its own place. This
counts as one node, and nothing changes. The count of any other move is that of the nodes that are
stored at another place afterwards. -/
theorem move_counts (ha : a.Reachable) (h : (a.move owner node target).1 = .ok n) :
    let t := a.tables
    let a' := (a.move owner node target).2
    let inPlace := ∃ f ∈ t.nodes, f.id = node.id ∧ f.kind = .file ∧ f.path = target
    1 ≤ n ∧ (¬inPlace → t.replaced a'.tables = n) ∧
      (inPlace → node.kind = .file ∧ n = 1 ∧ a' = a) ∧
      ((∃ m ∈ t.nodes, m.owner = owner ∧ m.path = target) → inPlace) := by
  intro t a' inPlace
  obtain ⟨top, hid, rfl, hkind, hm, rfl, hmoved⟩ := movable_of_move ha h
  have ha' : a' = { a with tables := t.afterMove top target } := congrArg Prod.snd hmoved
  have hpos : 0 < (t.subtree top.owner top.path).length :=
    List.length_pos_of_mem (Tables.mem_subtree.2 ⟨hm.stored, rfl, Path.covers_refl _⟩)
  have hplace : inPlace ↔ top.kind = .file ∧ target = top.path := by
    constructor
    · rintro ⟨f, hf, hfid, hfile, rfl⟩
      obtain rfl := ha.isForest.keyed.nodes.eq_of_id hf hm.stored (hfid.trans hid.symm)
      exact ⟨hfile, rfl⟩
    · rintro ⟨hfile, rfl⟩
      exact ⟨top, hm.stored, hid, hfile, rfl⟩
  refine ⟨hpos, ?_, ?_, ?_⟩
  · intro hother
    rw [ha']
    refine hm.replaced_eq ha.isForest fun e => ?_
    rcases hm with ht | ⟨-, hfile, -⟩
    · exact ht.free top ht.stored rfl e
    · exact hother (hplace.2 ⟨hfile, e.symm⟩)
  · intro hin
    obtain ⟨hfile, rfl⟩ := hplace.1 hin
    refine ⟨hkind.symm.trans hfile,
      congrArg List.length (Tables.subtree_of_file ha.isForest hm.stored hfile), ?_⟩
    rw [ha', Tables.afterMove_self (hm.isRoot_source ha.isForest)]
  · rintro ⟨m, hmem, ho, hp⟩
    obtain rfl := hm.eq_of_path ha.isForest hmem ho hp
    rcases hm with ht | ⟨-, hfile, -⟩
    · exact absurd hp (ht.free m hmem rfl)
    · exact ⟨m, hmem, hid, hfile, hp⟩

/-- The directory and the three nodes below it get another place. -/
theorem move_counts_nested :
    let a := empty.after Step.nestDirectories
    let moved := a.move ⟨.ofNat 1⟩ Step.outerDirectory ⟨"x"⟩
    moved.1 = .ok 4 ∧ a.tables.replaced moved.2.tables = 4 := by
  intro a moved
  have hok : moved.1 = .ok 4 := by decide +kernel
  obtain ⟨-, hcount, -⟩ := move_counts (Reachable.empty.after Step.nestDirectories) hok
  exact ⟨hok, hcount (by decide +kernel)⟩

/-- A file that is moved to its own place is counted, and no node gets another place. -/
theorem moved_onto_itself :
    let a := empty.after Step.nestDirectories
    let moved := a.move ⟨.ofNat 1⟩ (Step.fileAt 400 "d.e.f") ⟨"d.e.f"⟩
    a.Reachable ∧ moved.1 = .ok 1 ∧ a.tables.replaced moved.2.tables = 0 :=
  ⟨Reachable.empty.after _, by decide +kernel⟩

/-! ## Moves back -/

/-- **Every move can be undone.** In every reachable archive, suppose that the move of a node
succeeds, and that the node is stored at some place before. Then the move of the same node, as it
was claimed, back to this place succeeds with the same count, and the archive is what it was before
both. On the way nothing but nodes has changed.

**Proof sketch.** The old place has become free, and its container has not moved. What is at or
below the new place has moved there, so that it moves back, and texts of places are exchanged in the
opposite way. -/
theorem move_undone (ha : a.Reachable) (h : (a.move owner node target).1 = .ok n) :
    let moved := (a.move owner node target).2
    moved = { a with tables := { a.tables with nodes := moved.tables.nodes } } ∧
    (∃ s ∈ a.tables.nodes, s.id = node.id) ∧
    ∀ s ∈ a.tables.nodes, s.id = node.id → moved.move owner node s.path = (.ok n, a) := by
  intro moved
  obtain ⟨top, hid, rfl, hkind, hm, rfl, hmoved⟩ := movable_of_move ha h
  have hafter : moved = { a with tables := a.tables.afterMove top target } :=
    congrArg Prod.snd hmoved
  refine ⟨hafter ▸ rfl, ⟨top, hm.stored, hid⟩, ?_⟩
  intro s hs hsid
  obtain rfl := ha.isForest.keyed.nodes.eq_of_id hs hm.stored (hsid.trans hid.symm)
  have hreach : Reachable { a with tables := a.tables.afterMove s target } :=
    hafter ▸ ha.step ⟨.numbered 0, s.owner, .move node target⟩
  have hback := move_of_movable hreach (hm.back ha.isForest) hid hkind
  rw [hafter, hback]
  simp only [hm.afterMove_back ha.isForest, hm.length_subtree_back ha.isForest]

/-- A directory with three nodes below it moves, and moves back. -/
theorem move_undone_nested :
    let a := empty.after Step.nestDirectories
    let owner : OwnerId := ⟨.ofNat 1⟩
    let moved := a.move owner Step.outerDirectory ⟨"x"⟩
    moved.1 = .ok 4 ∧ moved.2.move owner Step.outerDirectory ⟨"d"⟩ = (.ok 4, a) := by
  intro a owner moved
  have hok : moved.1 = .ok 4 := by decide +kernel
  obtain ⟨-, -, hback⟩ := move_undone (Reachable.empty.after Step.nestDirectories) hok
  have hstored : { Step.outerDirectory with createdAt := ⟨200⟩ } ∈ a.tables.nodes := by
    decide +kernel
  exact ⟨hok, hback _ hstored rfl⟩

end Archive

end VersionedTree
