import VersionedTree.Proofs.Archive.Enclosure
import VersionedTree.Proofs.Archive.Retention

/-!
# Nodes of another kind than claimed

A caller names a node by its identifier and claims what kind of node it is. Moves and copies do
nothing for a node that is not stored under that kind. Removals do not ask for the kind: they are
decided by the identifier and the owner alone.

## Main definitions

* `VersionedTree.Tables.Removes` — identifiers whose node a removal takes away.

## Main results

* `VersionedTree.Tables.moveFile_of_unclaimed` and its kin — moves and copies of nodes that are not
  stored as claimed.
* `VersionedTree.Archive.remove_refused_iff` — the removals that are refused.
* `VersionedTree.Archive.claimed_kind` — both, after every history.
* `VersionedTree.Archive.removed_under_other_kind` — a directory is removed as a file.
-/

set_option autoImplicit false

namespace VersionedTree

namespace Tables

variable {owner : OwnerId} {node : Node} {t : Tables}

/-! ## Moves and copies -/

/-- No row is found under a kind that the node does not have. -/
lemma stored?_eq_none {id : NodeId} {kind : Kind} (h : t.hasKind owner id kind = false) :
    t.stored? owner id kind = none := by
  cases hs : t.stored? owner id kind with
  | none => rfl
  | some n =>
    have hkind : t.hasKind owner id kind = true := hasKind_iff.2 ⟨n, mem_of_stored? hs⟩
    rw [h] at hkind
    cases hkind

section Unclaimed

variable (h : t.hasKind owner node.id node.kind = false) (target : Path)

include h

/-- A file that is not one moves nowhere. -/
lemma moveFile_of_unclaimed :
    t.moveFile owner node target = (if node.kind = .file then some 0 else none, t) := by
  unfold moveFile
  by_cases hk : node.kind = .file
  · rw [hk] at h
    simp [hk, h]
  · simp [hk]

/-- A directory that is not one moves nowhere. -/
lemma moveDirectory_of_unclaimed :
    t.moveDirectory owner node target = (.ok (if node.kind = .dir then some 0 else none), t) := by
  unfold moveDirectory
  by_cases hk : node.kind = .dir
  · rw [hk] at h
    simp [hk, stored?_eq_none h]
  · simp [hk]

/-- A file that is not one has no copy. -/
lemma copyFile_of_unclaimed (id : NodeId) (time : Instant) :
    t.copyFile id time owner node target = (.ok none, t) := by
  unfold copyFile
  by_cases hk : node.kind = .file
  · rw [hk] at h
    simp [h]
  · simp [hk]

/-- A directory that is not one has no copies. -/
lemma copyDirectory_of_unclaimed (ids : Nat → NodeId) (time : Instant) :
    t.copyDirectory ids time owner node target = (.ok [], t) := by
  unfold copyDirectory
  by_cases hk : node.kind = .dir
  · rw [hk] at h
    simp [stored?_eq_none h]
  · simp [hk]

end Unclaimed

/-! ## Removals -/

/-- Does a removal take away the node of this identifier? It must be stored for the owner and not
be a root, and it must have nothing below it unless what is below is to be removed as well. -/
def Removes (owner : OwnerId) (id : NodeId) (recursive : Bool) (t : Tables) : Prop :=
  ∃ n ∈ t.nodes, n.id = id ∧ n.owner = owner ∧ n.kind ≠ .root ∧
    (recursive = true ∨
      ∀ m ∈ t.nodes, m.owner = owner → n.path.covers m.path = true → m = n)

/-- There is one node at and below a stored one exactly if there is no other one. -/
lemma Keyed.length_subtree_eq_one (h : t.Keyed) {n : Node} (hn : n ∈ t.nodes)
    (ho : n.owner = owner) :
    (t.subtree owner n.path).length = 1 ↔
      ∀ m ∈ t.nodes, m.owner = owner → n.path.covers m.path = true → m = n := by
  have hmem : n ∈ t.subtree owner n.path := mem_subtree.2 ⟨hn, ho, n.path.covers_refl⟩
  have hnodup : (t.subtree owner n.path).Nodup :=
    List.Nodup.of_map _ (h.nodes.ids.sublist (List.filter_sublist.map _))
  constructor
  · intro hlength m hm hmo hcovers
    obtain ⟨k, hk⟩ := List.length_eq_one_iff.1 hlength
    have hmem' : m ∈ t.subtree owner n.path := mem_subtree.2 ⟨hm, hmo, hcovers⟩
    rw [hk, List.mem_singleton] at hmem hmem'
    rw [hmem, hmem']
  · intro halone
    have hall : ∀ m ∈ t.subtree owner n.path, m = n := by
      intro m hm
      obtain ⟨hm, hmo, hcovers⟩ := mem_subtree.1 hm
      exact halone m hm hmo hcovers
    have hreplicate := List.eq_replicate_of_mem hall
    rw [hreplicate, List.nodup_replicate] at hnodup
    have hpos := List.length_pos_of_mem hmem
    omega

end Tables

namespace Archive

variable {env : Env} {owner : OwnerId} {node : Node} {recursive : Bool}

/-- The statement of a removal takes nodes away exactly if there is one to take away. -/
lemma removeNodes_eq_nil_iff {t : Tables} (h : t.Keyed) :
    (removeNodes owner node recursive t).1 = [] ↔ ¬t.Removes owner node.id recursive := by
  unfold removeNodes Tables.removeLeaf Tables.removeSubtree
  cases hr : t.removable? owner node.id with
  | none =>
    have hnone : ¬t.Removes owner node.id recursive := by
      rintro ⟨n, hn, hid, ho, hk, -⟩
      have hfound := h.removable?_of_mem hn hk
      rw [hid, ho, hr] at hfound
      cases hfound
    simp only [Option.toList_none, ite_self, hnone, not_false_eq_true]
  | some top =>
    obtain ⟨htop, hid, ho, hk⟩ := Tables.mem_of_removable? hr
    have hsome : t.Removes owner node.id recursive ↔
        recursive = true ∨ (t.subtree owner top.path).length = 1 := by
      rw [h.length_subtree_eq_one htop ho]
      constructor
      · rintro ⟨n, hn, hnid, -, -, halone⟩
        obtain rfl := h.nodes.eq_of_id hn htop (hnid.trans hid.symm)
        exact halone
      · intro halone
        exact ⟨top, htop, hid, ho, hk, halone⟩
    rw [hsome]
    cases recursive with
    | true =>
      have hmem : top ∈ t.subtree owner top.path :=
        Tables.mem_subtree.2 ⟨htop, ho, top.path.covers_refl⟩
      have hne := List.ne_nil_of_mem hmem
      simp [hne]
    | false =>
      by_cases hlength : (t.subtree owner top.path).length = 1 <;> simp [hlength]

/-- **The removals that are refused** are those of nodes that are not stored for the owner, of
roots, and without `recursive` of nodes with something below them. -/
theorem remove_refused_iff {a : Archive} (h : a.tables.Sound) :
    a.remove env owner node recursive = (.error (.deleteFailure "tree"), a) ↔
      ¬a.tables.Removes owner node.id recursive := by
  rw [← removeNodes_eq_nil_iff h.keyed]
  cases hn : removeNodes owner node recursive a.tables with
  | mk removed t' =>
    cases removed with
    | nil =>
      have hb : removeStatements env owner node recursive a.tables =
          (.error (.deleteFailure "tree"), t') := by
        simp only [removeStatements, hn]
      simp only [remove, Tables.transact_of_error hb]
    | cons id rest =>
      have hb := removeStatements_of_ne_nil env hn (List.cons_ne_nil id rest)
      simp [remove_of_ok h hb]

/-- **Nodes of another kind than claimed.** After every history, if no node of the claimed
identifier, owner and kind is stored, then the statements that move and copy change nothing and
report nothing, and moves and copies fail and leave the archive as it was. The same is true of a
removal exactly if there is no node that it takes away, for which the claimed kind is not asked.

**Proof sketch.** Each of the statements on moves and copies looks for the node together with its
claimed kind. Removals look for a node that is no root. -/
theorem claimed_kind (history : List Step) (owner : OwnerId) (node : Node)
    (h : ∀ n ∈ (empty.after history).tables.nodes,
      n.id = node.id → n.owner = owner → n.kind ≠ node.kind) (env : Env) (target : Path)
    (onlyNewest recursive : Bool) :
    let a := empty.after history
    let t := a.tables
    t.moveFile owner node target = (if node.kind = .file then some 0 else none, t) ∧
    t.moveDirectory owner node target = (.ok (if node.kind = .dir then some 0 else none), t) ∧
    t.copyFile (env.nodeId 0) (env.now 0) owner node target = (.ok none, t) ∧
    t.copyDirectory env.nodeId (env.now 0) owner node target = (.ok [], t) ∧
    a.move owner node target =
      (.error (if node.kind = .root then .ofKind "FILE or DIR" .root else .updateFailure "tree"),
        a) ∧
    a.copy env owner node target onlyNewest =
      (.error (if node.kind = .root then .ofKind "FILE or DIR" .root else .insertFailure "tree"),
        a) ∧
    (a.remove env owner node recursive = (.error (.deleteFailure "tree"), a) ↔
      ¬t.Removes owner node.id recursive) := by
  intro a t
  have hnone : t.hasKind owner node.id node.kind = false := by
    rw [Bool.eq_false_iff]
    intro hkind
    obtain ⟨n, hn, hid, ho, hk⟩ := Tables.hasKind_iff.1 hkind
    exact h n hn hid ho hk
  have hmoveFile := Tables.moveFile_of_unclaimed hnone target
  have hmoveDirectory := Tables.moveDirectory_of_unclaimed hnone target
  have hcopyFile := Tables.copyFile_of_unclaimed hnone target (env.nodeId 0) (env.now 0)
  have hcopyDirectory := Tables.copyDirectory_of_unclaimed hnone target env.nodeId (env.now 0)
  refine ⟨hmoveFile, hmoveDirectory, hcopyFile, hcopyDirectory, ?_, ?_,
    remove_refused_iff (sound history)⟩
  · have hstatement : moveStatement owner node target t =
        (.error (if node.kind = .root then .ofKind "FILE or DIR" .root
          else .updateFailure "tree"), t) := by
      unfold moveStatement
      cases hk : node.kind with
      | root => rfl
      | file => simp [hmoveFile, hk, requireMoved]
      | dir => simp [hmoveDirectory, hk, requireMoved]
    exact a.withTables_transact_of_error hstatement
  · have hstatements : copyStatements env owner node target onlyNewest t =
        (.error (if node.kind = .root then .ofKind "FILE or DIR" .root
          else .insertFailure "tree"), t) := by
      unfold copyStatements copyNodes
      cases hk : node.kind with
      | root => rfl
      | file => simp [hcopyFile]
      | dir => simp [hcopyDirectory]
    exact a.withTables_transact_of_error hstatements

end Archive

/-! ### A directory that is claimed to be a file -/

namespace Step

/-- An owner begins a tree and adds a directory. -/
def beginDirectory : List Step :=
  beginTree ++ [⟨.numbered 2, ⟨.ofNat 1⟩, .createDirectory ⟨"d"⟩⟩]

/-- The directory, as a file. -/
def claimedFile : Node := ⟨⟨.ofNat 200⟩, .file, ⟨"d"⟩, ⟨.ofNat 1⟩, default⟩

end Step

namespace Archive

/-- The directory is not moved as a file, and a removal would take it away. -/
theorem claimed_kind_file :
    let a := empty.after Step.beginDirectory
    let owner : OwnerId := ⟨.ofNat 1⟩
    (∀ n ∈ a.tables.nodes, n.id = Step.claimedFile.id → n.owner = owner →
      n.kind ≠ Step.claimedFile.kind) ∧
    a.move owner Step.claimedFile ⟨"e"⟩ = (.error (.updateFailure "tree"), a) ∧
    a.remove (.numbered 3) owner Step.claimedFile false ≠ (.error (.deleteFailure "tree"), a) := by
  intro a owner
  have hunclaimed : ∀ n ∈ a.tables.nodes, n.id = Step.claimedFile.id → n.owner = owner →
      n.kind ≠ Step.claimedFile.kind := by
    decide +kernel
  obtain ⟨-, -, -, -, hmove, -, hremove⟩ := claimed_kind Step.beginDirectory owner
    Step.claimedFile hunclaimed (.numbered 3) ⟨"e"⟩ false false
  refine ⟨hunclaimed, hmove, ?_⟩
  rw [Ne, hremove, not_not]
  refine ⟨⟨⟨.ofNat 200⟩, .dir, ⟨"d"⟩, owner, default⟩, ?_⟩
  decide +kernel

/-- **A node of another kind than claimed is removed.** No file of this identifier is stored, but a
directory. Both statements of removals take it away when it is claimed to be a file, and so does a
removal. -/
theorem removed_under_other_kind :
    let a := empty.after Step.beginDirectory
    let owner : OwnerId := ⟨.ofNat 1⟩
    let claimed := Step.claimedFile
    (∀ n ∈ a.tables.nodes, n.id = claimed.id → n.owner = owner → n.kind ≠ claimed.kind) ∧
    (a.tables.removeLeaf owner claimed).1 = some claimed.id ∧
    (a.tables.removeLeaf owner claimed).2 ≠ a.tables ∧
    (a.tables.removeSubtree owner claimed).1 = [claimed.id] ∧
    (a.tables.removeSubtree owner claimed).2 ≠ a.tables ∧
    (∀ recursive : Bool, ((a.remove (.numbered 3) owner claimed recursive).1.map
      Removal.removed).toOption = some [claimed.id]) ∧
    ∀ recursive : Bool, (a.remove (.numbered 3) owner claimed recursive).2.tables ≠ a.tables := by
  decide +kernel

end Archive

end VersionedTree
