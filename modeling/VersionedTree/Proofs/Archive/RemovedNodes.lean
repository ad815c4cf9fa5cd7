import VersionedTree.Proofs.Archive.ClaimedKinds
import VersionedTree.Proofs.Archive.Orphans
import VersionedTree.Proofs.Tables.Unlinking

/-!
# The tables after a removal

The statements of a removal take the nodes away first and their links later, node by node, and name
the blobs that lose their last link on the way. In tables whose links stay within an owner this is
the same as to leave out the nodes: which blobs are named, and which are left, does not depend on
the order of the nodes.

## Main definitions

* `VersionedTree.Tables.Removable` — nodes that a removal takes away.
* `VersionedTree.Tables.subtreeIds` — the identifiers of the nodes that go with a node.
* `VersionedTree.Tables.OwnsNodes` — identifiers of nodes of an owner.
* `VersionedTree.Tables.orphansOf` — the blobs that nodes leave orphaned.

## Main results

* `VersionedTree.Tables.Removable.removeNodes_eq` — the nodes that leave.
* `VersionedTree.Tables.Sound.mem_orphansOf` — the blobs that are named are those all of whose links
  come from the nodes.
* `VersionedTree.Tables.Sound.unlinkNodes_perm` — the order of the nodes does not matter.
* `VersionedTree.Tables.Removable.removeStatements_eq` — the statements of a removal.
* `VersionedTree.Archive.remove_of_orphansOf_nil` — removals that orphan nothing.
-/

set_option autoImplicit false

namespace VersionedTree.Tables

variable {t : Tables} {owner : OwnerId} {top node : Node} {recursive : Bool}
  {ids ids' : List NodeId} {blob : BlobId}

/-! ## Nodes that leave -/

/-- Does a removal take this node away? It must be stored and not be a root, and it must have
nothing below it unless what is below is to be removed as well. -/
structure Removable (t : Tables) (top : Node) (recursive : Bool) : Prop where
  stored : top ∈ t.nodes
  kind : top.kind ≠ .root
  alone : recursive = true ∨
    ∀ m ∈ t.nodes, m.owner = top.owner → top.path.covers m.path = true → m = top

/-- A removal finds what to remove if some node with the identifier may be taken away. -/
lemma removes_iff {id : NodeId} :
    t.Removes owner id recursive ↔
      ∃ top, t.Removable top recursive ∧ top.id = id ∧ top.owner = owner := by
  constructor
  · rintro ⟨top, hmem, hid, rfl, hkind, halone⟩
    exact ⟨top, ⟨hmem, hkind, halone⟩, hid, rfl⟩
  · rintro ⟨top, ⟨hmem, hkind, halone⟩, hid, rfl⟩
    exact ⟨top, hmem, hid, rfl, hkind, halone⟩

/-- Are these identifiers of nodes of the owner? -/
def OwnsNodes (owner : OwnerId) (ids : List NodeId) (t : Tables) : Prop :=
  ∀ id ∈ ids, ∃ n ∈ t.nodes, n.id = id ∧ n.owner = owner

/-- The identifiers of the nodes at and below a node. -/
def subtreeIds (t : Tables) (top : Node) : List NodeId :=
  (t.subtree top.owner top.path).map Node.id

/-- No identifier is removed twice. -/
lemma Keyed.nodup_subtreeIds (h : t.Keyed) (top : Node) : (t.subtreeIds top).Nodup :=
  h.nodes.ids.sublist (List.filter_sublist.map _)

/-- The removed identifiers are those of the nodes at and below the node. -/
lemma mem_subtreeIds {id : NodeId} :
    id ∈ t.subtreeIds top ↔
      ∃ n ∈ t.nodes, n.id = id ∧ n.owner = top.owner ∧ top.path.covers n.path = true := by
  simp only [subtreeIds, List.mem_map, mem_subtree]
  constructor
  · rintro ⟨n, ⟨hn, hbelow⟩, rfl⟩
    exact ⟨n, hn, rfl, hbelow⟩
  · rintro ⟨n, hn, rfl, hbelow⟩
    exact ⟨n, ⟨hn, hbelow⟩, rfl⟩

/-- All removed nodes belong to the owner of the top. -/
lemma ownsNodes_subtreeIds (t : Tables) (top : Node) :
    t.OwnsNodes top.owner (t.subtreeIds top) := by
  intro id hid
  obtain ⟨n, hn, hnid, ho, -⟩ := mem_subtreeIds.1 hid
  exact ⟨n, hn, hnid, ho⟩

/-- Identifiers tell which nodes are at or below a place. -/
lemma Keyed.id_mem_subtreeIds (h : t.Keyed) {n : Node} (hn : n ∈ t.nodes) :
    n.id ∈ t.subtreeIds top ↔ n.owner = top.owner ∧ top.path.covers n.path = true := by
  rw [Tables.mem_subtreeIds]
  constructor
  · rintro ⟨m, hm, hid, hbelow⟩
    rwa [h.nodes.eq_of_id hm hn hid] at hbelow
  · intro hbelow
    exact ⟨n, hn, rfl, hbelow⟩

/-- The node itself is among the removed ones. -/
lemma self_mem_subtreeIds (h : top ∈ t.nodes) : top.id ∈ t.subtreeIds top :=
  List.mem_map_of_mem (mem_subtree.2 ⟨h, rfl, Path.covers_refl _⟩)

/-- A node that has nothing below it leaves alone. -/
lemma Keyed.subtreeIds_of_alone (h : t.Keyed) (hmem : top ∈ t.nodes)
    (halone : ∀ m ∈ t.nodes, m.owner = top.owner → top.path.covers m.path = true → m = top) :
    t.subtreeIds top = [top.id] := by
  obtain ⟨n, hn⟩ := List.length_eq_one_iff.1 ((h.length_subtree_eq_one hmem rfl).2 halone)
  have htop : top ∈ t.subtree top.owner top.path :=
    mem_subtree.2 ⟨hmem, rfl, Path.covers_refl _⟩
  rw [hn, List.mem_singleton] at htop
  rw [subtreeIds, hn, htop, List.map_singleton]

/-- Nodes are outside of the subtree by their places, or by their identifiers. -/
lemma Keyed.outside_subtree (h : t.Keyed) (top : Node) :
    (t.nodes.filter fun n => !(n.owner == top.owner && top.path.covers n.path)) =
      t.nodes.filter fun n => !(t.subtreeIds top).contains n.id := by
  refine List.filter_congr ?_
  intro n hn
  congr 1
  rw [Bool.eq_iff_iff, Bool.and_eq_true, beq_iff_eq, List.contains_iff_mem,
    h.id_mem_subtreeIds hn]

/-- **The nodes that leave**, recursively or not, are those at and below the node. -/
theorem Removable.removeNodes_eq (h : t.Removable top recursive) (hk : t.Keyed)
    (hid : node.id = top.id) :
    Archive.removeNodes top.owner node recursive t = (t.subtreeIds top,
      { t with nodes := t.nodes.filter fun n => !(t.subtreeIds top).contains n.id }) := by
  have hfound := hk.removable?_of_mem h.stored h.kind
  rw [← hid] at hfound
  unfold Archive.removeNodes
  by_cases hr : recursive = true
  · rw [if_pos hr, removeSubtree, hfound]
    simp only [hk.outside_subtree top]
    rfl
  · have halone := h.alone.resolve_left hr
    have hlength := (hk.length_subtree_eq_one h.stored rfl).2 halone
    have hnodes : (t.nodes.filter fun n => n.id != top.id) =
        t.nodes.filter fun n => !(t.subtreeIds top).contains n.id := by
      rw [hk.subtreeIds_of_alone h.stored halone]
      refine List.filter_congr ?_
      intro n _
      rw [List.contains_cons, List.contains_nil, Bool.or_false, bne]
    rw [if_neg hr, removeLeaf, hfound]
    simp only [hlength, if_true, Option.toList_some, hnodes]
    rw [hk.subtreeIds_of_alone h.stored halone]

/-! ## Blobs that leave -/

/-- The blobs that lose their last link when nodes of the owner are unlinked in this order. -/
def orphansOf (t : Tables) (owner : OwnerId) (ids : List NodeId) : List BlobId :=
  (Archive.unlinkNodes owner ids t).1

/-- The blobs that are named are those that go. -/
lemma Keyed.mem_orphansOf_iff (hk : t.Keyed) (hc : t.Counted) :
    blob ∈ t.orphansOf owner ids ↔
      t.hasBlob blob = true ∧ (Archive.unlinkNodes owner ids t).2.hasBlob blob = false := by
  constructor
  · exact (Releases.unlinkNodes hc owner ids).gone blob
  · rintro ⟨hthere, hgone⟩
    obtain ⟨b, hb, rfl⟩ := hasBlob_iff.1 hthere
    rcases left_unlinkNodes hk hc owner ids hb with hstays | ⟨hmem, -⟩
    · exact absurd rfl (hasBlob_eq_false.1 hgone b hstays)
    · exact hmem

/-- No blob is named twice. -/
lemma Keyed.nodup_orphansOf (hk : t.Keyed) (hc : t.Counted) : (t.orphansOf owner ids).Nodup :=
  nodup_unlinkNodes hk hc owner ids

namespace Sound

/-- The links from the nodes of an owner lead to blobs of that owner. -/
lemma ownsBlob_of_node (h : t.Sound) {n : Node} (hn : n ∈ t.nodes) {l : Link} (hl : l ∈ t.links)
    (hid : l.node = n.id) : t.ownsBlob n.owner l.blob = true := by
  obtain ⟨o, hb, hfile⟩ := h.linked l hl
  obtain ⟨m, hm, hmid, rfl, -⟩ := hasKind_iff.1 hfile
  rwa [h.keyed.nodes.eq_of_id hm hn (hmid.trans hid)] at hb

section Unlinked

variable (h : t.Sound) (hids : t.OwnsNodes owner ids)

include h hids

/-- The links from nodes of the owner lead to blobs of the owner. -/
lemma ownsBlob_of_mem : ∀ l ∈ t.links, l.node ∈ ids → t.ownsBlob owner l.blob = true := by
  intro l hl hmem
  obtain ⟨n, hn, hid, rfl⟩ := hids _ hmem
  exact h.ownsBlob_of_node hn hl hid.symm

/-- **The blobs that nodes of an owner leave orphaned** are those all of whose links come from these
nodes. -/
theorem mem_orphansOf :
    blob ∈ t.orphansOf owner ids ↔
      (∃ l ∈ t.links, l.blob = blob) ∧ ∀ l ∈ t.links, l.blob = blob → l.node ∈ ids := by
  rw [h.keyed.mem_orphansOf_iff h.counted, h.counted.unlinkNodes_eq (h.ownsBlob_of_mem hids),
    ← Bool.not_eq_true, h.counted.hasBlob_dropLinks_iff, h.counted blob, isLinked_iff]
  refine and_congr_right fun _ => ?_
  constructor
  · intro hnone l hl hblob
    by_contra hout
    exact hnone ⟨l, hl, by simpa using hout, hblob⟩
  · rintro hall ⟨l, hl, hout, hblob⟩
    have hin := hall l hl hblob
    simp [hin] at hout

/-- Their file rows are those that go. -/
lemma blobs_without_eq :
    (t.without ids).blobs = t.blobs.filter fun b => !(t.orphansOf owner ids).contains b.id := by
  rw [blobs_without]
  refine List.filter_congr ?_
  intro b hb
  have hlinked : ∃ l ∈ t.links, l.blob = b.id := by
    rw [← isLinked_iff, ← h.counted b.id]
    exact hasBlob_iff.2 ⟨b, hb, rfl⟩
  rw [Bool.eq_iff_iff, h.counted.hasBlob_without, Bool.not_eq_true', ← Bool.not_eq_true,
    List.contains_iff_mem, h.mem_orphansOf hids]
  constructor
  · rintro ⟨l, hl, hout, hblob⟩ ⟨-, hall⟩
    exact hout (hall l hl hblob)
  · intro hnot
    by_contra hnone
    refine hnot ⟨hlinked, fun l hl hblob => ?_⟩
    by_contra hout
    exact hnone ⟨l, hl, hout, hblob⟩

/-- All blobs stay if none is orphaned. -/
lemma blobs_without_of_orphansOf_nil (hnone : t.orphansOf owner ids = []) :
    (t.without ids).blobs = t.blobs := by
  rw [h.blobs_without_eq hids, hnone]
  exact List.filter_eq_self.2 fun _ _ => rfl

/-- Nodes that have left are unlinked. -/
lemma unlinkNodes_without :
    Archive.unlinkNodes owner ids { t with nodes := t.nodes.filter fun n => !ids.contains n.id } =
      (t.orphansOf owner ids, t.without ids) := by
  rw [unlinkNodes_withNodes, h.counted.unlinkNodes_eq (h.ownsBlob_of_mem hids)]
  rfl

/-- **The order of the nodes does not matter** when they are unlinked one after the other. -/
theorem unlinkNodes_perm (hperm : ids'.Perm ids) :
    (t.orphansOf owner ids').Perm (t.orphansOf owner ids) ∧
      (Archive.unlinkNodes owner ids' t).2 = (Archive.unlinkNodes owner ids t).2 := by
  have hids' : t.OwnsNodes owner ids' := by
    intro id hid
    exact hids id (hperm.mem_iff.1 hid)
  constructor
  · refine (List.perm_ext_iff_of_nodup (h.keyed.nodup_orphansOf h.counted)
      (h.keyed.nodup_orphansOf h.counted)).2 ?_
    intro blob
    rw [h.mem_orphansOf hids', h.mem_orphansOf hids]
    simp only [hperm.mem_iff]
  · rw [h.counted.unlinkNodes_eq (h.ownsBlob_of_mem hids'),
      h.counted.unlinkNodes_eq (h.ownsBlob_of_mem hids)]
    refine dropLinks_congr ?_
    intro l _
    rw [Bool.eq_iff_iff, List.contains_iff_mem, List.contains_iff_mem, hperm.mem_iff]

end Unlinked

end Sound

/-- **The statements of a removal** leave the tables without the nodes, and queue the blobs that
these leave orphaned. -/
theorem Removable.removeStatements_eq (h : t.Removable top recursive) (hs : t.Sound) (env : Env)
    (hid : node.id = top.id) :
    Archive.removeStatements env top.owner node recursive t =
      (.ok (t.subtreeIds top, t.orphansOf top.owner (t.subtreeIds top)),
        (t.without (t.subtreeIds top)).queueDeletes (env.now 0) top.owner
          (t.orphansOf top.owner (t.subtreeIds top))) := by
  have hne : t.subtreeIds top ≠ [] := List.ne_nil_of_mem (self_mem_subtreeIds h.stored)
  rw [Archive.removeStatements_of_ne_nil env (h.removeNodes_eq hs.keyed hid) hne,
    hs.unlinkNodes_without (ownsNodes_subtreeIds t top)]

end VersionedTree.Tables

/-! ## Removals that orphan nothing -/

namespace VersionedTree.Archive

variable {a : Archive} {top node : Node} {recursive : Bool}

/-- There is nothing to be released. -/
lemma release_nil (env : Env) (owner : OwnerId) (a : Archive) :
    a.release env owner [] = ([], a) := by
  simp [release, Payloads.deleteMany, Payloads.deleteKeys, DeleteReport.ofDeletions,
    Tables.clearDeletes]

/-- **A removal that orphans nothing** leaves the tables without the nodes, and has nothing to
release. -/
theorem remove_of_orphansOf_nil (h : a.tables.Sound) (ht : a.tables.Removable top recursive)
    (hnone : a.tables.orphansOf top.owner (a.tables.subtreeIds top) = []) (env : Env)
    (hid : node.id = top.id) :
    a.remove env top.owner node recursive =
      (.ok ⟨a.tables.subtreeIds top, [], []⟩,
        { a with tables := a.tables.without (a.tables.subtreeIds top) }) := by
  rw [remove_of_ok h (ht.removeStatements_eq h env hid), hnone, Tables.queueDeletes, release_nil]

end VersionedTree.Archive
