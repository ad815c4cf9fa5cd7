import Mathlib.Data.List.Nodup
import Mathlib.Tactic.Lemma
import VersionedTree.Proofs.Path.Valid
import VersionedTree.Tables.Statement

/-!
# What statements do to rows

Every statement on the tables is inverted once: it leaves the tables as they are, or its guards
hold and its rows change in one stated way. Later modules reason from these inversions and do not
open the statements again.

## Main results

* `VersionedTree.Tables.createNode_cases`, `VersionedTree.Tables.moveFile_cases`,
  `VersionedTree.Tables.moveDirectory_cases`, `VersionedTree.Tables.copyFile_answers`,
  `VersionedTree.Tables.copyDirectory_answers`, `VersionedTree.Tables.removeLeaf_cases`,
  `VersionedTree.Tables.removeSubtree_cases` — the statements on nodes.
* `VersionedTree.Tables.addVersion_cases`, `VersionedTree.Tables.link_cases`,
  `VersionedTree.Tables.linkNewest_cases`, `VersionedTree.Tables.linkAll_cases`,
  `VersionedTree.Tables.unlink_cases` — the statements on blobs and links.
-/

set_option autoImplicit false

namespace VersionedTree

/-- A row that is read back is the stored one, and holds a path. -/
lemma Node.of_readBack {n m : Node} (h : n.readBack = .ok m) : m = n ∧ n.path.Valid := by
  unfold readBack at h
  split at h
  · next p hp =>
    obtain ⟨hv, he⟩ := Path.valid_of_fromEncoded hp
    obtain rfl : p = n.path := Path.eq_of_chars (by rw [Path.chars, he, Path.chars])
    exact ⟨(Except.ok.inj h).symm, hv⟩
  · cases h

/-- Rows that are read back are the stored ones, and hold paths. -/
lemma Node.of_readBackAll :
    ∀ {ns ms : List Node}, readBackAll ns = .ok ms → ms = ns ∧ ∀ n ∈ ns, n.path.Valid
  | [], _, h => ⟨(Except.ok.inj h).symm, by simp⟩
  | n :: rest, ms, h => by
    unfold readBackAll at h
    split at h
    · cases h
    · cases h
    · next m ms' hn hrest =>
      obtain ⟨rfl, hv⟩ := of_readBack hn
      obtain ⟨rfl, hvs⟩ := of_readBackAll hrest
      exact ⟨(Except.ok.inj h).symm, List.forall_mem_cons.2 ⟨hv, hvs⟩⟩

/-- Rows that cannot be read back are refused as rows of the tables. -/
lemma Node.readBackAll_error {ns : List Node} {e : ArchiveError} (h : readBackAll ns = .error e) :
    ∃ c, e = .database c := by
  have hone {n : Node} {e : ArchiveError} (h : n.readBack = .error e) : ∃ c, e = .database c := by
    unfold readBack at h
    split at h
    · cases h
    · exact ⟨_, (Except.error.inj h).symm⟩
  induction ns generalizing e with
  | nil => cases h
  | cons n rest ih =>
    unfold readBackAll at h
    split at h
    · next e' he =>
      obtain rfl := Except.error.inj h
      exact hone he
    · next e' he _ =>
      obtain rfl := Except.error.inj h
      exact ih he
    · cases h

/-- Rows at valid places are read back as they are. -/
lemma Node.readBack_of_valid {n : Node} (h : n.path.Valid) : n.readBack = .ok n := by
  have hread : Path.fromEncoded n.path.encoded = .ok n.path := h
  rw [readBack, hread]

/-- Several rows at valid places are read back as they are. -/
lemma Node.readBackAll_of_valid {ns : List Node} (h : ∀ n ∈ ns, n.path.Valid) :
    readBackAll ns = .ok ns := by
  induction ns with
  | nil => rfl
  | cons n rest ih =>
    rw [List.forall_mem_cons] at h
    simp only [readBackAll, readBack_of_valid h.1, ih h.2]

namespace Tables

variable {t t' : Tables}

/-! ## Insertion of rows -/

/-- Is there a blob of this identifier? -/
def hasBlob (t : Tables) (id : BlobId) : Bool := t.blobs.any fun b => b.id == id

/-- Is some node linked to this blob? -/
def isLinked (t : Tables) (blob : BlobId) : Bool := t.links.any fun l => l.blob == blob

/-- A node is inserted, in front of the others, exactly if it is well placed and clashes with none.
-/
lemma insertNode_eq_ok {n : Node} :
    t.insertNode n = .ok t' ↔
      n.isWellPlaced = true ∧ t.clashes n = false ∧ t' = { t with nodes := n :: t.nodes } := by
  unfold insertNode
  by_cases hw : n.isWellPlaced = true <;> by_cases hc : t.clashes n = true <;>
    simp [hw, hc, eq_comm (a := t')]

/-- Rows are inserted in front, the last one first. -/
lemma eq_of_insertNodes {rows : List Node} :
    t.insertNodes rows = .ok t' → t' = { t with nodes := rows.reverse ++ t.nodes } := by
  induction rows generalizing t with
  | nil => simp [insertNodes, eq_comm (a := t')]
  | cons n rest ih =>
    intro h
    unfold insertNodes at h
    split at h
    · next t₁ h₁ =>
      obtain ⟨-, -, rfl⟩ := insertNode_eq_ok.1 h₁
      simpa using ih h
    · cases h

/-- A blob is inserted exactly if its size is not negative and its identifier is new. -/
lemma insertBlob_eq_ok {b : Blob} :
    t.insertBlob b = .ok t' ↔
      0 ≤ b.size ∧ t.hasBlob b.id = false ∧ t' = { t with blobs := b :: t.blobs } := by
  change (if b.size < 0 then _ else if t.hasBlob b.id = true then _ else _) = _ ↔ _
  by_cases hs : b.size < 0
  · simp [hs, Int.not_le.2 hs]
  · by_cases hb : t.hasBlob b.id = true <;> simp [hs, hb, Int.not_lt.1 hs, eq_comm (a := t')]

/-- A link is inserted exactly if there is none between its node and its blob. -/
lemma insertLink_eq_ok {l : Link} :
    t.insertLink l = .ok t' ↔
      t.hasLink l.node l.blob = false ∧ t' = { t with links := l :: t.links } := by
  unfold insertLink
  by_cases hl : t.hasLink l.node l.blob = true <;> simp [hl, eq_comm (a := t')]

/-- Links are inserted in front, the last one first. -/
lemma eq_of_insertLinks {ls : List Link} :
    t.insertLinks ls = .ok t' → t' = { t with links := ls.reverse ++ t.links } := by
  induction ls generalizing t with
  | nil => simp [insertLinks, eq_comm (a := t')]
  | cons l rest ih =>
    intro h
    unfold insertLinks at h
    split at h
    · next t₁ h₁ =>
      obtain ⟨-, rfl⟩ := insertLink_eq_ok.1 h₁
      simpa using ih h
    · cases h

/-! ## Rows found -/

/-- A node is found by its identifier, owner and kind. -/
lemma hasKind_iff {owner : OwnerId} {id : NodeId} {kind : Kind} :
    t.hasKind owner id kind = true ↔
      ∃ n ∈ t.nodes, n.id = id ∧ n.owner = owner ∧ n.kind = kind := by
  simp [hasKind, and_assoc]

/-- A blob is found by its identifier and owner. -/
lemma ownsBlob_iff {owner : OwnerId} {blob : BlobId} :
    t.ownsBlob owner blob = true ↔ ∃ b ∈ t.blobs, b.id = blob ∧ b.owner = owner := by
  simp [ownsBlob]

/-- A blob is found by its identifier. -/
lemma hasBlob_iff {id : BlobId} : t.hasBlob id = true ↔ ∃ b ∈ t.blobs, b.id = id := by
  simp [hasBlob]

/-- A blob is linked if some link refers to it. -/
lemma isLinked_iff {blob : BlobId} : t.isLinked blob = true ↔ ∃ l ∈ t.links, l.blob = blob := by
  simp [isLinked]

/-- A container of an owner is found at its path. -/
lemma hasContainerAt_some {owner : OwnerId} {path : Path} :
    t.hasContainerAt owner (some path) = true ↔
      ∃ n ∈ t.nodes, n.owner = owner ∧ n.path = path ∧ n.kind.isContainer = true := by
  simp [hasContainerAt, and_assoc]

/-- A node that is found is stored, under this identifier and for this owner, and has this kind. -/
lemma mem_of_stored? {owner : OwnerId} {id : NodeId} {kind : Kind} {n : Node}
    (h : t.stored? owner id kind = some n) :
    n ∈ t.nodes ∧ n.id = id ∧ n.owner = owner ∧ n.kind = kind := by
  have hp := List.find?_some h
  simp only [Bool.and_eq_true, beq_iff_eq] at hp
  exact ⟨List.mem_of_find?_eq_some h, hp.1.1, hp.1.2, hp.2⟩

/-- A node that may be removed is stored, under this identifier and for this owner, and is no root.
-/
lemma mem_of_removable? {owner : OwnerId} {id : NodeId} {n : Node}
    (h : t.removable? owner id = some n) :
    n ∈ t.nodes ∧ n.id = id ∧ n.owner = owner ∧ n.kind ≠ .root := by
  have hp := List.find?_some h
  simp only [Bool.and_eq_true, beq_iff_eq, bne_iff_ne] at hp
  exact ⟨List.mem_of_find?_eq_some h, hp.1.1, hp.1.2, hp.2⟩

/-- The nodes at and below a place are those of the owner whose paths it covers. -/
lemma mem_subtree {owner : OwnerId} {top : Path} {n : Node} :
    n ∈ t.subtree owner top ↔ n ∈ t.nodes ∧ n.owner = owner ∧ top.covers n.path = true := by
  simp [subtree]

/-- What a removal of all at and below a place leaves. -/
lemma mem_outside {nodes : List Node} {owner : OwnerId} {top : Path} {n : Node} :
    n ∈ nodes.filter (fun n => !(n.owner == owner && top.covers n.path)) ↔
      n ∈ nodes ∧ ¬(n.owner = owner ∧ top.covers n.path = true) := by
  rw [List.mem_filter, Bool.not_eq_true', Bool.eq_false_iff, ne_eq, Bool.and_eq_true, beq_iff_eq]

/-- Sorting keeps the nodes. -/
lemma mem_sortedByPath {ns : List Node} {n : Node} : n ∈ sortedByPath ns ↔ n ∈ ns :=
  List.mem_mergeSort

/-! ## Rows that stay -/

/-- Tables that differ in their nodes only have the same blobs. -/
lemma blobs_of_nodes {nodes : List Node} (h : t' = { t with nodes := nodes }) :
    t'.blobs = t.blobs := by rw [h]

/-- Tables that differ in their nodes only have the same ledger. -/
lemma pending_of_nodes {nodes : List Node} (h : t' = { t with nodes := nodes }) :
    t'.pending = t.pending := by rw [h]

/-- Tables that differ in their links only have the same blobs. -/
lemma blobs_of_links {links : List Link} (h : t' = { t with links := links }) :
    t'.blobs = t.blobs := by rw [h]

/-! ## Statements on nodes -/

section Nodes

variable (owner : OwnerId) (time : Instant) (node : Node) (target : Path) (t : Tables)

/-- Creation: the node is inserted where it may be created. -/
lemma createNode_cases (id : NodeId) (path : Path) (kind : Kind) :
    (t.createNode id time owner path kind).2 = t ∨
      t.mayCreate owner path kind = true ∧
        t.insertNode ⟨id, kind, path, owner, time⟩ =
          .ok (t.createNode id time owner path kind).2 := by
  unfold createNode
  by_cases hm : t.mayCreate owner path kind = true
  · simp only [hm, if_true, true_and]
    split
    · next h => exact .inr h
    · exact .inl rfl
    · exact .inl rfl
  · simp [hm]

/-- The move of a file: the file gets a free place in a container. -/
lemma moveFile_cases :
    (t.moveFile owner node target).2 = t ∨
      t.hasKind owner node.id .file = true ∧ t.hasContainerAt owner target.parent = true ∧
        isTaken t.nodes owner node.id target = false ∧ target.isRoot = false ∧
        (t.moveFile owner node target).2 = { t with nodes := place t.nodes node.id target } := by
  unfold moveFile
  split
  · exact .inl rfl
  · split
    · exact .inl rfl
    · split
      · next hr h =>
        simp only [Bool.and_eq_true, Bool.not_eq_true'] at h
        exact .inr ⟨h.1.1, h.1.2, h.2, by simpa using hr, rfl⟩
      · exact .inl rfl

/-- The move of a directory: no node is counted, or the nodes at and below a stored directory are
relocated into a container outside of it. -/
lemma moveDirectory_answers :
    (∃ r, t.moveDirectory owner node target = (r, t) ∧ ∀ count, r = .ok (some count) → count = 0) ∨
      ∃ source nodes, t.stored? owner node.id .dir = some source ∧ target.isRoot = false ∧
        source.path.covers target = false ∧ t.hasContainerAt owner target.parent = true ∧
        relocate owner (movedPlaces (t.subtree owner source.path) source.path target) t.nodes
          = .ok nodes ∧
        t.moveDirectory owner node target =
          (.ok (some (t.subtree owner source.path).length), { t with nodes := nodes }) := by
  have hzero : ∀ count, (.ok (some 0) : Except ArchiveError (Option Nat)) = .ok (some count) →
      count = 0 := by
    intro count h
    exact (Option.some.inj (Except.ok.inj h)).symm
  unfold moveDirectory
  split
  · exact .inl ⟨_, rfl, by simp⟩
  · split
    · exact .inl ⟨_, rfl, hzero⟩
    · next hr =>
      cases hs : t.stored? owner node.id .dir with
      | none => exact .inl ⟨_, rfl, hzero⟩
      | some source =>
        by_cases hg : (!source.path.covers target && t.hasContainerAt owner target.parent) = true
        · simp only [hg, if_true]
          simp only [Bool.and_eq_true, Bool.not_eq_true'] at hg
          split
          · next nodes h => exact .inr ⟨source, nodes, rfl, by simpa using hr, hg.1, hg.2, h, rfl⟩
          · exact .inl ⟨_, rfl, hzero⟩
          · exact .inl ⟨_, rfl, by simp⟩
        · simp only [hg, Bool.false_eq_true, if_false]
          exact .inl ⟨_, rfl, hzero⟩

/-- The nodes after the move of a directory. -/
lemma moveDirectory_cases :
    (t.moveDirectory owner node target).2 = t ∨
      ∃ source nodes, t.stored? owner node.id .dir = some source ∧ target.isRoot = false ∧
        source.path.covers target = false ∧ t.hasContainerAt owner target.parent = true ∧
        relocate owner (movedPlaces (t.subtree owner source.path) source.path target) t.nodes
          = .ok nodes ∧
        (t.moveDirectory owner node target).2 = { t with nodes := nodes } := by
  rcases moveDirectory_answers owner node target t with
    ⟨r, h, -⟩ | ⟨source, nodes, hs, hr, hout, hc, hmoved, h⟩
  · exact .inl (congrArg Prod.snd h)
  · exact .inr ⟨source, nodes, hs, hr, hout, hc, hmoved, congrArg Prod.snd h⟩

/-- The copy of a file: nothing is copied, or a new file is inserted into a container. -/
lemma copyFile_answers (id : NodeId) :
    (∃ r, t.copyFile id time owner node target = (r, t) ∧
      (r = .ok none ∨ ∃ c, r = .error (.database c))) ∨
      ∃ t', node.kind = .file ∧ target.isRoot = false ∧ t.hasKind owner node.id .file = true ∧
        t.hasContainerAt owner target.parent = true ∧
        t.insertNode ⟨id, .file, target, owner, time⟩ = .ok t' ∧
        t.copyFile id time owner node target = (.ok (some ⟨node.id, id, .file⟩), t') := by
  unfold copyFile
  split
  · exact .inl ⟨_, rfl, .inl rfl⟩
  · next hk =>
    simp only [Bool.or_eq_true, bne_iff_ne, ne_eq, not_or, not_not, Bool.not_eq_true] at hk
    by_cases hg : (t.hasKind owner node.id .file && t.hasContainerAt owner target.parent) = true
    · simp only [hg, if_true]
      rw [Bool.and_eq_true] at hg
      split
      · next t' h => exact .inr ⟨t', hk.1, hk.2, hg.1, hg.2, h, rfl⟩
      · exact .inl ⟨_, rfl, .inl rfl⟩
      · exact .inl ⟨_, rfl, .inr ⟨_, rfl⟩⟩
    · rw [if_neg hg]
      exact .inl ⟨_, rfl, .inl rfl⟩

/-- The copy of a file: a new file is inserted into a container. -/
lemma copyFile_cases (id : NodeId) :
    (t.copyFile id time owner node target).2 = t ∨
      t.hasKind owner node.id .file = true ∧ t.hasContainerAt owner target.parent = true ∧
        t.insertNode ⟨id, .file, target, owner, time⟩ =
          .ok (t.copyFile id time owner node target).2 := by
  rcases copyFile_answers owner time node target t id with ⟨r, h, -⟩ | ⟨t', -, -, hs, hc, hi, h⟩
  · exact .inl (congrArg Prod.snd h)
  · rw [h]
    exact .inr ⟨hs, hc, hi⟩

/-- The rows that a copy of the directory `source` inserts. -/
def copiedRows (ids : Nat → NodeId) (source : Node) : List Node :=
  rowsOf owner time
    (copiesOf ids source.path target 0 (sortedByPath (t.subtree owner source.path)))

/-- The copy of a directory: nothing is copied, or copies of the nodes at and below a stored
directory, which all hold paths, are inserted into a container outside of it. -/
lemma copyDirectory_answers (ids : Nat → NodeId) :
    (∃ r, t.copyDirectory ids time owner node target = (r, t) ∧
      (r = .ok [] ∨ ∃ c, r = .error (.database c))) ∨
      ∃ source t', node.kind = .dir ∧ t.stored? owner node.id .dir = some source ∧
        target.isRoot = false ∧ source.path.isAncestorOf target = false ∧
        t.hasContainerAt owner target.parent = true ∧
        (∀ n ∈ t.subtree owner source.path, n.path.Valid) ∧
        t.insertNodes (copiedRows owner time target t ids source) = .ok t' ∧
        t.copyDirectory ids time owner node target =
          (.ok ((copiesOf ids source.path target 0
            (sortedByPath (t.subtree owner source.path))).map Prod.fst), t') := by
  have hnone {r : Except ArchiveError (List CopiedNode)} (hr : r = .ok []) :
      ∃ r', ((r, t) : Except ArchiveError (List CopiedNode) × Tables) = (r', t) ∧
        (r' = .ok [] ∨ ∃ c, r' = .error (.database c)) := ⟨r, rfl, .inl hr⟩
  unfold copyDirectory
  split
  · exact .inl (hnone rfl)
  · next hk =>
    simp only [Bool.or_eq_true, bne_iff_ne, ne_eq, not_or, not_not, Bool.not_eq_true] at hk
    cases hs : t.stored? owner node.id .dir with
    | none => exact .inl (hnone rfl)
    | some source =>
      cases hr : Node.readBackAll (sortedByPath (t.subtree owner source.path)) with
      | error e =>
        obtain ⟨c, rfl⟩ := Node.readBackAll_error hr
        exact .inl ⟨_, by simp only [hr], .inr ⟨c, rfl⟩⟩
      | ok sources =>
        obtain ⟨rfl, hv⟩ := Node.of_readBackAll hr
        simp only [hr]
        split
        · exact .inl (hnone rfl)
        · next ha =>
          split
          · next hc =>
            split
            · next t' h =>
              exact .inr ⟨source, t', hk.1, rfl, hk.2, by simpa using ha, hc,
                fun n hn => hv n (mem_sortedByPath.2 hn), h, rfl⟩
            · exact .inl (hnone rfl)
            · exact .inl ⟨_, rfl, .inr ⟨_, rfl⟩⟩
          · exact .inl (hnone rfl)

/-- The nodes after the copy of a directory. -/
lemma copyDirectory_cases (ids : Nat → NodeId) :
    (t.copyDirectory ids time owner node target).2 = t ∨
      ∃ source, t.stored? owner node.id .dir = some source ∧ target.isRoot = false ∧
        source.path.isAncestorOf target = false ∧ t.hasContainerAt owner target.parent = true ∧
        (∀ n ∈ t.subtree owner source.path, n.path.Valid) ∧
        t.insertNodes (copiedRows owner time target t ids source) =
          .ok (t.copyDirectory ids time owner node target).2 := by
  rcases copyDirectory_answers owner time node target t ids with
    ⟨r, h, -⟩ | ⟨source, t', -, hs, hr, hout, hc, hv, hi, h⟩
  · exact .inl (congrArg Prod.snd h)
  · rw [h]
    exact .inr ⟨source, hs, hr, hout, hc, hv, hi⟩

/-- The removal of one node: it is no root, and nothing else is at or below its place. -/
lemma removeLeaf_cases :
    (t.removeLeaf owner node).2 = t ∨
      ∃ top, t.removable? owner node.id = some top ∧ (t.subtree owner top.path).length = 1 ∧
        (t.removeLeaf owner node).2 =
          { t with nodes := t.nodes.filter fun n => n.id != top.id } := by
  unfold removeLeaf
  cases hr : t.removable? owner node.id with
  | none => exact .inl rfl
  | some top =>
    simp only
    split
    · next h => exact .inr ⟨top, rfl, h, rfl⟩
    · exact .inl rfl

/-- The removal of a node with all that is below it; it is no root. -/
lemma removeSubtree_cases :
    (t.removeSubtree owner node).2 = t ∨
      ∃ top, t.removable? owner node.id = some top ∧
        (t.removeSubtree owner node).2 =
          { t with nodes := t.nodes.filter fun n =>
              !(n.owner == owner && top.path.covers n.path) } := by
  unfold removeSubtree
  cases hr : t.removable? owner node.id with
  | none => exact .inl rfl
  | some top => exact .inr ⟨top, rfl, rfl⟩

/-! ### The other rows -/

/-- A new node leaves all rows but the nodes as they are. -/
lemma createNode_frame (id : NodeId) (path : Path) (kind : Kind) :
    (t.createNode id time owner path kind).2 =
      { t with nodes := (t.createNode id time owner path kind).2.nodes } := by
  rcases createNode_cases owner time t id path kind with h | ⟨-, h⟩
  · rw [h]
  · rw [(insertNode_eq_ok.1 h).2.2]

/-- The move of a file leaves all rows but the nodes as they are. -/
lemma moveFile_frame :
    (t.moveFile owner node target).2 =
      { t with nodes := (t.moveFile owner node target).2.nodes } := by
  rcases moveFile_cases owner node target t with h | ⟨-, -, -, -, h⟩ <;> rw [h]

/-- The move of a directory leaves all rows but the nodes as they are. -/
lemma moveDirectory_frame :
    (t.moveDirectory owner node target).2 =
      { t with nodes := (t.moveDirectory owner node target).2.nodes } := by
  rcases moveDirectory_cases owner node target t with h | ⟨_, _, -, -, -, -, -, h⟩ <;> rw [h]

/-- The copy of a file leaves all rows but the nodes as they are. -/
lemma copyFile_frame (id : NodeId) :
    (t.copyFile id time owner node target).2 =
      { t with nodes := (t.copyFile id time owner node target).2.nodes } := by
  rcases copyFile_cases owner time node target t id with h | ⟨-, -, h⟩
  · rw [h]
  · rw [(insertNode_eq_ok.1 h).2.2]

/-- The copies of a directory leave all rows but the nodes as they are. -/
lemma copyDirectory_frame (ids : Nat → NodeId) :
    (t.copyDirectory ids time owner node target).2 =
      { t with nodes := (t.copyDirectory ids time owner node target).2.nodes } := by
  rcases copyDirectory_cases owner time node target t ids with h | ⟨_, -, -, -, -, -, h⟩
  · rw [h]
  · rw [eq_of_insertNodes h]

/-- The removal of a single node leaves all rows but the nodes as they are. -/
lemma removeLeaf_frame :
    (t.removeLeaf owner node).2 = { t with nodes := (t.removeLeaf owner node).2.nodes } := by
  rcases removeLeaf_cases owner node t with h | ⟨_, -, -, h⟩ <;> rw [h]

/-- The removal of a node with all that is below it leaves all rows but the nodes as they are. -/
lemma removeSubtree_frame :
    (t.removeSubtree owner node).2 =
      { t with nodes := (t.removeSubtree owner node).2.nodes } := by
  rcases removeSubtree_cases owner node t with h | ⟨_, -, h⟩ <;> rw [h]

end Nodes

/-! ## Statements on blobs and links -/

section Links

variable (owner : OwnerId) (time : Instant) (node source target : NodeId) (blob : BlobId)
  (t : Tables)

/-- A link joins a file of the owner with a blob of the owner to which it was not linked. -/
lemma link_cases :
    t.link time owner node blob = (none, t) ∨
      t.ownsBlob owner blob = true ∧ t.hasKind owner node .file = true ∧
        t.hasLink node blob = false ∧
        t.link time owner node blob =
          (some ⟨node, blob, time⟩, { t with links := ⟨node, blob, time⟩ :: t.links }) := by
  unfold link
  by_cases hg : (t.ownsBlob owner blob && t.hasKind owner node .file) = true
  · simp only [hg, if_true]
    simp only [Bool.and_eq_true] at hg
    by_cases hl : t.hasLink node blob = true
    · simp [insertLink, hl]
    · simp [insertLink, hl, hg]
  · simp [hg]

/-- A new version: its blob is inserted, and then linked to a file of the owner. -/
lemma addVersion_cases (uploaded : Instant) (info : BlobInfo) :
    (∃ e, e ≠ .insertFailure "link" ∧
      t.addVersion uploaded time owner node blob info = (.error e, t)) ∨
      t.hasKind owner node .file = true ∧ 0 ≤ info.size ∧ t.hasBlob blob = false ∧
        t.addVersion uploaded time owner node blob info =
          match Tables.link time owner node blob
            { t with blobs := ⟨blob, info.checksum, info.size, owner, uploaded⟩ :: t.blobs } with
          | (none, t'') => (.error (.insertFailure "link"), t'')
          | (some l, t'') =>
            (.ok ⟨node, blob, info.checksum, info.size, owner, uploaded, l.linkedAt⟩, t'') := by
  unfold addVersion
  by_cases hk : t.hasKind owner node .file = true
  · simp only [hk, if_true, true_and]
    split
    · next c hc => exact .inl ⟨.database c, by simp, rfl⟩
    · next t' h =>
      obtain ⟨hs, hb, rfl⟩ := insertBlob_eq_ok.1 h
      exact .inr ⟨hs, hb, rfl⟩
  · exact .inl ⟨.insertFailure "file", by simp, by simp [hk]⟩

/-- Versions are linked to a node together, or none of them. -/
lemma linkVersions_cases (vs : List Version) :
    (t.linkVersions time target vs).2 = t ∨
      t.insertLinks (vs.map fun v => ⟨target, v.blob, time⟩) =
        .ok (t.linkVersions time target vs).2 := by
  unfold linkVersions
  split
  · next h => exact .inr h
  · exact .inl rfl

/-- The newest version of a node is linked to a file of the owner. -/
lemma linkNewest_cases :
    (t.linkNewest time owner source target).2 = t ∨
      t.hasKind owner target .file = true ∧
        t.insertLinks ((t.newestVersions owner source 1).map fun v => ⟨target, v.blob, time⟩) =
          .ok (t.linkNewest time owner source target).2 := by
  unfold linkNewest
  by_cases hk : t.hasKind owner target .file = true
  · simpa [hk] using linkVersions_cases time target t _
  · simp [hk]

/-- Every version of a node is linked to a file of the owner. -/
lemma linkAll_cases :
    (t.linkAll time owner source target).2 = t ∨
      t.hasKind owner target .file = true ∧
        t.insertLinks ((t.versionsOf owner source).map fun v => ⟨target, v.blob, time⟩) =
          .ok (t.linkAll time owner source target).2 := by
  unfold linkAll
  by_cases hk : t.hasKind owner target .file = true
  · simpa [hk] using linkVersions_cases time target t _
  · simp [hk]

/-- One link to a blob of the owner is removed. -/
lemma unlink_cases :
    t.unlink owner node blob = (none, t) ∨
      t.hasLink node blob = true ∧ t.ownsBlob owner blob = true ∧
        t.unlink owner node blob =
          (some ⟨blob, !t.isLinkedElsewhere node blob⟩,
            t.dropLinks fun l => l.node == node && l.blob == blob) := by
  unfold unlink
  by_cases hg : (t.hasLink node blob && t.ownsBlob owner blob) = true
  · simp only [Bool.and_eq_true] at hg
    simp [hg]
  · simp [hg]

/-! ### The other rows -/

/-- The removal of links leaves the nodes as they are. -/
@[simp] lemma dropLinks_nodes (p : Link → Bool) : (t.dropLinks p).nodes = t.nodes := rfl

/-- The removal of links leaves the ledger as it is. -/
@[simp] lemma dropLinks_pending (p : Link → Bool) : (t.dropLinks p).pending = t.pending := rfl

/-- The links that stay are those that are not removed. -/
@[simp] lemma dropLinks_links (p : Link → Bool) :
    (t.dropLinks p).links = t.links.filter (!p ·) := rfl

/-- A new link leaves all rows but the links as they are. -/
lemma link_frame :
    (t.link time owner node blob).2 =
      { t with links := (t.link time owner node blob).2.links } := by
  rcases link_cases owner time node blob t with h | ⟨-, -, -, h⟩ <;> rw [h]

/-- A new version leaves the nodes and the ledger as they are. -/
lemma addVersion_frame (uploaded : Instant) (info : BlobInfo) :
    (t.addVersion uploaded time owner node blob info).2 =
      { t with
        blobs := (t.addVersion uploaded time owner node blob info).2.blobs
        links := (t.addVersion uploaded time owner node blob info).2.links } := by
  rcases addVersion_cases owner time node blob t uploaded info with ⟨e, -, h⟩ | ⟨-, -, -, h⟩
  · rw [h]
  · rw [h]
    rcases link_cases owner time node blob
      { t with blobs := ⟨blob, info.checksum, info.size, owner, uploaded⟩ :: t.blobs }
      with hl | ⟨-, -, -, hl⟩
    · rw [hl]
    · rw [hl]

/-- Links to the newest version leave all rows but the links as they are. -/
lemma linkNewest_frame :
    (t.linkNewest time owner source target).2 =
      { t with links := (t.linkNewest time owner source target).2.links } := by
  rcases linkNewest_cases owner time source target t with h | ⟨-, h⟩
  · rw [h]
  · rw [eq_of_insertLinks h]

/-- Links to all versions leave all rows but the links as they are. -/
lemma linkAll_frame :
    (t.linkAll time owner source target).2 =
      { t with links := (t.linkAll time owner source target).2.links } := by
  rcases linkAll_cases owner time source target t with h | ⟨-, h⟩
  · rw [h]
  · rw [eq_of_insertLinks h]

/-- The removal of a link leaves the nodes and the ledger as they are. -/
lemma unlink_frame :
    (t.unlink owner node blob).2 =
      { t with
        blobs := (t.unlink owner node blob).2.blobs
        links := (t.unlink owner node blob).2.links } := by
  rcases unlink_cases owner node blob t with h | ⟨-, -, h⟩
  · rw [h]
  · rw [h]
    rfl

/-- New entries of the ledger leave all other rows as they are. -/
lemma queueDeletes_frame (blobs : List BlobId) :
    t.queueDeletes time owner blobs =
      { t with pending := (t.queueDeletes time owner blobs).pending } := by
  induction blobs generalizing t with
  | nil => rfl
  | cons b rest ih =>
    unfold queueDeletes
    split
    · exact ih t
    · rw [ih]

end Links

end Tables

/-! ## Statements on nodes and others -/

namespace Statement

/-- Does the statement let all nodes stay? -/
def keepsNodes : Statement → Bool
  | removeLeaf _ | removeSubtree _ => false
  | _ => true

/-- Is this a statement that changes nodes? -/
def isOnNodes : Statement → Bool
  | createNode .. | moveFile .. | moveDirectory .. | copyFile .. | copyDirectory ..
  | removeLeaf .. | removeSubtree .. => true
  | _ => false

variable {s : Statement} {t : Tables} {fresh : Fresh} {owner : OwnerId}

/-- Statements that change nodes change nothing else. -/
lemma run_of_isOnNodes (h : s.isOnNodes = true) :
    (s.run fresh owner t).2 = { t with nodes := (s.run fresh owner t).2.nodes } := by
  cases s with
  | createNode path kind => exact Tables.createNode_frame owner _ t _ path kind
  | moveFile node target => exact Tables.moveFile_frame owner node target t
  | moveDirectory node target => exact Tables.moveDirectory_frame owner node target t
  | copyFile node target => exact Tables.copyFile_frame owner _ node target t _
  | copyDirectory node target => exact Tables.copyDirectory_frame owner _ node target t _
  | removeLeaf node => exact Tables.removeLeaf_frame owner node t
  | removeSubtree node => exact Tables.removeSubtree_frame owner node t
  | _ => cases h

/-- The other statements keep all nodes. -/
lemma nodes_run_of_not_isOnNodes (h : s.isOnNodes = false) :
    (s.run fresh owner t).2.nodes = t.nodes := by
  cases s with
  | addVersion node id info =>
    simp only [run, answer]
    rw [Tables.addVersion_frame]
  | link node id =>
    simp only [run, answered]
    rw [Tables.link_frame]
  | unlink node id =>
    simp only [run, answered]
    rw [Tables.unlink_frame]
  | linkNewest source target =>
    simp only [run, answer]
    rw [Tables.linkNewest_frame]
  | linkAll source target =>
    simp only [run, answer]
    rw [Tables.linkAll_frame]
  | queueDeletes blobs => rw [run, Tables.queueDeletes_frame]
  | createNode | moveFile | moveDirectory | copyFile | copyDirectory | removeLeaf
  | removeSubtree => cases h
  | _ => rfl

end Statement

end VersionedTree
