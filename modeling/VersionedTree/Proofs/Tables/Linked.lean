import VersionedTree.Archive.Removal
import VersionedTree.Proofs.Tables.Owners

/-!
# Links within an owner

A link joins a file and a blob of one owner. No statement checks this as a whole: some look at the
owner of the file, some at that of the blob. It holds between transactions, and what a removal of
nodes leaves over for a moment are links of the same owner, which its later statements take away.

## Main definitions

* `VersionedTree.Tables.Linked` — every link joins a file and a blob of one owner.
* `VersionedTree.Tables.LinkedBut` — the same during the removal of nodes.
* `VersionedTree.Tables.LinkChange` — what a statement may do to links.

## Main results

* `VersionedTree.Tables.Counted.linkChange_run` — links stay with their blobs, or are new and
  guarded.
* `VersionedTree.Tables.Linked.referencesHold` — such links pass the end of a transaction.
* `VersionedTree.Tables.Linked.run` — statements that let nodes stay keep the links so.
* `VersionedTree.Tables.LinkedBut.unlinkNodes` — unlinking removed nodes ends their removal.
-/

set_option autoImplicit false

namespace VersionedTree.Tables

/-- Does every link join a file and a blob of one owner? -/
def Linked (t : Tables) : Prop :=
  ∀ l ∈ t.links, ∃ o, t.ownsBlob o l.blob = true ∧ t.hasKind o l.node .file = true

/-- The links of tables from which nodes of an owner have been removed: where the file of a link
is gone it is among these, and the blob belongs to that owner. -/
def LinkedBut (owner : OwnerId) (ids : List NodeId) (t : Tables) : Prop :=
  ∀ l ∈ t.links, ∃ o, t.ownsBlob o l.blob = true ∧
    (t.hasKind o l.node .file = true ∨ o = owner ∧ l.node ∈ ids)

variable {t t' : Tables} {owner : OwnerId} {ids : List NodeId}

/-! ## What statements do to links -/

/-- What a statement on behalf of an owner may do to links. One that was there keeps its blob with
its owner; a new one joins a file and a blob of the owner. Whether the file of an old link is still
there is not said. -/
def LinkChange (owner : OwnerId) (t t' : Tables) : Prop :=
  ∀ l ∈ t'.links,
    (l ∈ t.links ∧ ∀ o, t.ownsBlob o l.blob = true → t'.ownsBlob o l.blob = true) ∨
      t'.ownsBlob owner l.blob = true ∧ t'.hasKind owner l.node .file = true

namespace LinkChange

/-- Links and blobs stay. -/
lemma of_eq (hl : t'.links = t.links) (hb : t'.blobs = t.blobs) : LinkChange owner t t' := by
  intro l h
  refine .inl ⟨hl ▸ h, fun o ho => ?_⟩
  rwa [ownsBlob, hb]

/-- Links stay if the tables do. -/
lemma refl (owner : OwnerId) (t : Tables) : LinkChange owner t t := of_eq rfl rfl

/-- Links leave, and blobs with them, but no blob of a link that stays. -/
lemma dropLinks (owner : OwnerId) (t : Tables) (p : Link → Bool) :
    LinkChange owner t (t.dropLinks p) := by
  intro l hl
  obtain ⟨hl, hp⟩ := List.mem_filter.1 hl
  have hp : p l = false := by simpa using hp
  exact .inl ⟨hl, fun o ho => (ownsBlob_dropLinks hl hp o).trans ho⟩

/-- Links from a file of the owner to blobs of the owner come in front. -/
lemma insertLinks {ls : List Link} (hi : t.insertLinks ls = .ok t')
    (hls : ∀ l ∈ ls, t.ownsBlob owner l.blob = true ∧ t.hasKind owner l.node .file = true) :
    LinkChange owner t t' := by
  rw [eq_of_insertLinks hi]
  intro l hl
  rcases List.mem_append.1 hl with hl | hl
  · exact .inr (hls l (List.mem_reverse.1 hl))
  · exact .inl ⟨hl, fun _ ho => ho⟩

end LinkChange

/-- **What a statement does to links**, whatever it is asked for: the statements that insert links
check the owner of the file, or that of the blob, or take the blob from a link of the owner. -/
theorem Counted.linkChange_run (hc : t.Counted) (fresh : Fresh) (owner : OwnerId) (s : Statement) :
    LinkChange owner t (s.run fresh owner t).2 := by
  cases hs : s.isOnNodes with
  | true =>
    have hframe : (s.run fresh owner t).2 = { t with nodes := (s.run fresh owner t).2.nodes } :=
      Statement.run_of_isOnNodes hs
    exact .of_eq (by rw [hframe]) (by rw [hframe])
  | false =>
    cases s with
    | addVersion node id info =>
      change LinkChange owner t (t.addVersion _ _ owner node _ info).2
      rcases hc.addVersion_eq owner (fresh.now 1) (fresh.now 0) node (id.getD fresh.blobId) info
        with ⟨_, -, e⟩ | ⟨hk, -, hb, e⟩ <;> rw [e]
      · exact .refl owner t
      · intro l hl
        rcases List.mem_cons.1 hl with rfl | hl
        · exact .inr ⟨ownsBlob_iff.2 ⟨_, List.mem_cons_self, rfl, rfl⟩, hk⟩
        · refine .inl ⟨hl, fun o ho => ?_⟩
          obtain ⟨b, hb, hid⟩ := ownsBlob_iff.1 ho
          exact ownsBlob_iff.2 ⟨b, List.mem_cons_of_mem _ hb, hid⟩
    | link node id =>
      change LinkChange owner t (t.link _ owner node id).2
      rcases link_cases owner (fresh.now 0) node id t with e | ⟨ho, hk, -, e⟩ <;> rw [e]
      · exact .refl owner t
      · intro l hl
        rcases List.mem_cons.1 hl with rfl | hl
        · exact .inr ⟨ho, hk⟩
        · exact .inl ⟨hl, fun _ ho => ho⟩
    | unlink node id =>
      change LinkChange owner t (t.unlink owner node id).2
      rcases unlink_cases owner node id t with e | ⟨-, -, e⟩ <;> rw [e]
      · exact .refl owner t
      · exact .dropLinks owner t _
    | unlinkAll node => exact .dropLinks owner t _
    | linkNewest source target =>
      change LinkChange owner t (t.linkNewest _ owner source target).2
      rcases linkNewest_cases owner (fresh.now 0) source target t with e | ⟨hk, hi⟩
      · rw [e]
        exact .refl owner t
      · refine .insertLinks hi fun l hl => ?_
        obtain ⟨v, hv, rfl⟩ := List.mem_map.1 hl
        exact ⟨ownsBlob_of_mem_versionsOf (mem_versionsOf_of_mem_newestVersions hv), hk⟩
    | linkAll source target =>
      change LinkChange owner t (t.linkAll _ owner source target).2
      rcases linkAll_cases owner (fresh.now 0) source target t with e | ⟨hk, hi⟩
      · rw [e]
        exact .refl owner t
      · refine .insertLinks hi fun l hl => ?_
        obtain ⟨v, hv, rfl⟩ := List.mem_map.1 hl
        exact ⟨ownsBlob_of_mem_versionsOf hv, hk⟩
    | queueDeletes blobs =>
      change LinkChange owner t (t.queueDeletes _ owner blobs)
      rw [queueDeletes_frame owner (fresh.now 0) t blobs]
      exact .of_eq rfl rfl
    | clearDeletes blobs => exact .of_eq rfl rfl
    | createNode | moveFile | moveDirectory | copyFile | copyDirectory | removeLeaf
    | removeSubtree => cases hs
    | _ => exact .refl owner t

/-! ## Links between transactions -/

namespace LinkedBut

/-- Links that stay are as they were. -/
lemma dropLinks (h : t.LinkedBut owner ids) (p : Link → Bool) :
    (t.dropLinks p).LinkedBut owner ids := by
  intro l hl
  obtain ⟨hl, hp⟩ := List.mem_filter.1 hl
  have hp : p l = false := by simpa using hp
  obtain ⟨o, ho, hn⟩ := h l hl
  exact ⟨o, (ownsBlob_dropLinks hl hp o).trans ho, hn⟩

/-- One node less is missing once it is unlinked. -/
lemma unlinkAll {id : NodeId} (h : t.LinkedBut owner (id :: ids)) :
    (t.unlinkAll owner id).2.LinkedBut owner ids := by
  intro l hl
  obtain ⟨o, ho, hn⟩ := h.dropLinks _ l hl
  refine ⟨o, ho, hn.imp_right fun ⟨e, hm⟩ => ⟨e, ?_⟩⟩
  subst e
  -- a link that stays is from another node, since its blob is of the owner
  obtain ⟨hl, hp⟩ := List.mem_filter.1 hl
  have hleft : (l.node == id && t.ownsBlob o l.blob) = false := by
    rwa [Bool.not_eq_true'] at hp
  rw [ownsBlob_dropLinks hl hleft] at ho
  rw [ho, Bool.and_true, beq_eq_false_iff_ne] at hleft
  exact (List.mem_cons.1 hm).resolve_left hleft

end LinkedBut

namespace Linked

/-- Where no node has been removed, all links are within an owner. -/
lemma linkedBut_nil (owner : OwnerId) : t.LinkedBut owner [] ↔ t.Linked := by
  simp [Linked, LinkedBut]

/-- Tables without rows have no link that could be wrong. -/
lemma empty : Linked .empty := fun _ hl => by cases hl

/-- **The end of a transaction** finds nothing to object to. -/
lemma referencesHold (h : t.Linked) : t.referencesHold = true := by
  refine List.all_eq_true.2 fun l hl => ?_
  obtain ⟨o, hb, hn⟩ := h l hl
  obtain ⟨n, hn, hid, -⟩ := hasKind_iff.1 hn
  obtain ⟨b, hb, hblob, -⟩ := ownsBlob_iff.1 hb
  rw [Bool.and_eq_true, List.any_eq_true, List.any_eq_true]
  exact ⟨⟨n, hn, beq_iff_eq.2 hid⟩, ⟨b, hb, beq_iff_eq.2 hblob⟩⟩

/-- Nodes that stay files of their owners keep their links. -/
lemma withNodes (h : t.Linked) {nodes : List Node}
    (hn : ∀ n ∈ t.nodes, ∃ m ∈ nodes, m.id = n.id ∧ m.owner = n.owner ∧ m.kind = n.kind) :
    Linked { t with nodes := nodes } := by
  intro l hl
  obtain ⟨o, hb, hk⟩ := h l hl
  refine ⟨o, hb, ?_⟩
  obtain ⟨n, hmem, hid, ho, hkind⟩ := hasKind_iff.1 hk
  obtain ⟨m, hm, hid', ho', hkind'⟩ := hn n hmem
  exact hasKind_iff.2 ⟨m, hm, hid'.trans hid, ho'.trans ho, hkind'.trans hkind⟩

/-- Links stay or are new, and all nodes stay. -/
lemma ofChange (h : t.Linked) (hl : LinkChange owner t t') (hn : t'.nodes = t.nodes) :
    t'.Linked := by
  intro l hmem
  rcases hl l hmem with ⟨hold, hkeep⟩ | ⟨hb, hk⟩
  · obtain ⟨o, ho, hk⟩ := h l hold
    refine ⟨o, hkeep o ho, ?_⟩
    rwa [hasKind, hn]
  · exact ⟨owner, hb, hk⟩

/-- New nodes do no harm to links. -/
lemma insertNodes (h : t.Linked) {rows : List Node} (hi : t.insertNodes rows = .ok t') :
    t'.Linked := by
  rw [eq_of_insertNodes hi]
  exact h.withNodes fun n hn => ⟨n, List.mem_append_right _ hn, rfl, rfl, rfl⟩

/-- One new node does no harm to links. -/
lemma insertNode (h : t.Linked) {n : Node} (hi : t.insertNode n = .ok t') : t'.Linked :=
  h.insertNodes (insertNodes_singleton hi)

/-- **Statements that let nodes stay** keep every link within an owner. -/
theorem run (h : t.Linked) (hc : t.Counted) (fresh : Fresh) (owner : OwnerId) {s : Statement}
    (hs : s.keepsNodes = true) : (s.run fresh owner t).2.Linked := by
  cases hon : s.isOnNodes with
  | false =>
    exact h.ofChange (hc.linkChange_run fresh owner s) (Statement.nodes_run_of_not_isOnNodes hon)
  | true =>
    cases s with
    | createNode path kind =>
      change (t.createNode _ _ owner path kind).2.Linked
      rcases createNode_cases owner (fresh.now 0) t (fresh.nodeId 0) path kind with e | ⟨-, hi⟩
      · rwa [e]
      · exact h.insertNode hi
    | moveFile node target =>
      change (t.moveFile owner node target).2.Linked
      rcases moveFile_cases owner node target t with e | ⟨-, -, -, -, e⟩ <;> rw [e]
      · exact h
      · refine h.withNodes fun n hn => ⟨_, mem_place.2 ⟨n, hn, rfl⟩, ?_⟩
        split <;> exact ⟨rfl, rfl, rfl⟩
    | moveDirectory node target =>
      change (t.moveDirectory owner node target).2.Linked
      rcases moveDirectory_cases owner node target t with
        e | ⟨source, nodes, -, -, -, -, hr, e⟩ <;> rw [e]
      · exact h
      · rw [eq_of_relocate hr]
        refine h.withNodes fun n hn => ⟨_, List.mem_map_of_mem hn, ?_⟩
        rw [moved_eq]
        exact ⟨rfl, rfl, rfl⟩
    | copyFile node target =>
      change (t.copyFile _ _ owner node target).2.Linked
      rcases copyFile_cases owner (fresh.now 0) node target t (fresh.nodeId 0) with e | ⟨-, -, hi⟩
      · rwa [e]
      · exact h.insertNode hi
    | copyDirectory node target =>
      change (t.copyDirectory _ _ owner node target).2.Linked
      rcases copyDirectory_cases owner (fresh.now 0) node target t fresh.nodeId with
        e | ⟨source, -, -, -, -, -, hi⟩
      · rwa [e]
      · exact h.insertNodes hi
    | removeLeaf node => cases hs
    | removeSubtree node => cases hs
    | _ => cases hon

/-! ## The removal of nodes -/

/-- Files that go are nodes of the owner, and named. -/
lemma filterNodes (h : t.Linked) {p : Node → Bool}
    (hp : ∀ n ∈ t.nodes, p n = false → n.owner = owner ∧ n.id ∈ ids) :
    LinkedBut owner ids { t with nodes := t.nodes.filter p } := by
  intro l hl
  obtain ⟨o, hb, hk⟩ := h l hl
  refine ⟨o, hb, ?_⟩
  obtain ⟨n, hn, hid, ho, hkind⟩ := hasKind_iff.1 hk
  cases hpn : p n with
  | true => exact .inl (hasKind_iff.2 ⟨n, List.mem_filter.2 ⟨hn, hpn⟩, hid, ho, hkind⟩)
  | false =>
    obtain ⟨howner, hmem⟩ := hp n hn hpn
    exact .inr ⟨ho.symm.trans howner, hid ▸ hmem⟩

/-- The statement that removes nodes names all of them. -/
lemma removeNodes (h : t.Linked) (hk : t.Keyed) (owner : OwnerId) (node : Node) (recursive : Bool) :
    (Archive.removeNodes owner node recursive t).2.LinkedBut owner
      (Archive.removeNodes owner node recursive t).1 := by
  have hkept (ids : List NodeId) : t.LinkedBut owner ids := by
    intro l hl
    obtain ⟨o, hb, hn⟩ := h l hl
    exact ⟨o, hb, .inl hn⟩
  unfold Archive.removeNodes
  cases recursive with
  | true =>
    simp only [if_true]
    unfold Tables.removeSubtree
    cases t.removable? owner node.id with
    | none => exact hkept _
    | some top =>
      refine h.filterNodes fun n hn hp => ?_
      have hbelow : n.owner = owner ∧ top.path.covers n.path = true := by simpa using hp
      exact ⟨hbelow.1, List.mem_map_of_mem (mem_subtree.2 ⟨hn, hbelow⟩)⟩
  | false =>
    simp only [Bool.false_eq_true, if_false]
    unfold Tables.removeLeaf
    cases hr : t.removable? owner node.id with
    | none => exact hkept _
    | some top =>
      simp only
      split
      · refine h.filterNodes fun n hn hp => ?_
        obtain ⟨htop, -, ho, -⟩ := mem_of_removable? hr
        have hid : n.id = top.id := by simpa using hp
        obtain rfl := hk.nodes.eq_of_id hn htop hid
        exact ⟨ho, by simp⟩
      · exact hkept _

end Linked

/-- **Unlinking ends a removal**: no link to a removed node is left over. -/
theorem LinkedBut.unlinkNodes (h : t.LinkedBut owner ids) :
    (Archive.unlinkNodes owner ids t).2.Linked := by
  induction ids generalizing t with
  | nil => exact (Linked.linkedBut_nil owner).1 h
  | cons id rest ih => exact ih h.unlinkAll

end VersionedTree.Tables
