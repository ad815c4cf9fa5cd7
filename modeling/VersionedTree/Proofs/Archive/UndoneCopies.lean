import VersionedTree.Proofs.Archive.ExactCopies
import VersionedTree.Proofs.Archive.Removals

/-!
# Copies that are removed again

A copy takes nothing away: it adds nodes, and links from them to blobs that are there. Each of these
blobs has a link of its own, as no blob is there without one, and keeps it when the copies go. So a
copy that is removed, with all that is below its top, leaves no trace.

## Main results

* `VersionedTree.Tables.CopiedTo.subtreeIds_copy` — at and below the copy of the top are the copies.
* `VersionedTree.Tables.CopiedTo.orphansOf_copies` — the copies orphan nothing.
* `VersionedTree.Tables.CopiedTo.without_copies` — the tables without the copies are as before.
* `VersionedTree.Archive.copy_undone` — copies and their removals after every history.
-/

set_option autoImplicit false

namespace VersionedTree

namespace Tables.CopiedTo

variable {t t' : Tables} {top : Node} {target : Path} {env : Env} {onlyNewest : Bool}

section Copies

variable (h : t.CopiedTo env top target onlyNewest t') (hs : t.Sound)

include h

/-- The copy of the top is stored at the new place. -/
lemma mem_copy {i : Nat} (hi : (top, i) ∈ t.numbered top.owner top.path) :
    ⟨env.nodeId i, top.kind, target, top.owner, env.now 0⟩ ∈ t'.nodes := by
  rw [h.nodes_eq]
  refine List.mem_append_left _ (List.mem_reverse.2 ?_)
  rw [h.rebases.copiedRows_eq]
  exact List.mem_map.2 ⟨(top, i), hi, by simp only [Path.graft_source]⟩

include hs

/-- **At and below the copy** of the top are the copies. -/
lemma subtreeIds_copy (copy : Node) (ho : copy.owner = top.owner) (hp : copy.path = target) :
    t'.subtreeIds copy =
      ((t.copiedNodes env.nodeId top).map CopiedNode.destination).reverse := by
  have hsubtree := h.transferable.subtree_at_copy (env.now 0) hs.forest h.rebases h.nodes_eq
  rw [subtreeIds, ho, hp, hsubtree, List.map_reverse,
    map_destination_copiedNodes h.rebases (env.now 0)]

/-- **The copies orphan nothing**: all blobs have the links that they had before. -/
theorem orphansOf_copies {ids : List NodeId}
    (hids : ∀ id ∈ ids, id ∈ (t.copiedNodes env.nodeId top).map CopiedNode.destination)
    (howned : t'.OwnsNodes top.owner ids) :
    t'.orphansOf top.owner ids = [] := by
  refine List.eq_nil_iff_forall_not_mem.2 ?_
  intro blob hblob
  obtain ⟨⟨k, hk, rfl⟩, hall⟩ := (h.sound.mem_orphansOf howned).1 hblob
  have hthere := (h.sound.counted k.blob).trans (isLinked_iff.2 ⟨k, hk, rfl⟩)
  rw [hasBlob, h.blobs_eq] at hthere
  obtain ⟨l, hl, hlblob⟩ := isLinked_iff.1 ((hs.counted k.blob).symm.trans hthere)
  -- the blob was there before the copy, and so was a link to it
  obtain ⟨added, ht', -⟩ := h.linked
  have hl' : l ∈ t'.links := by
    rw [ht']
    exact List.mem_append_right _ hl
  exact (h.destination_new hs).2 l hl (hids _ (hall l hl' hlblob))

/-- **The tables without the copies** are those from before. -/
theorem without_copies {ids : List NodeId}
    (hids : ∀ id, id ∈ ids ↔ id ∈ (t.copiedNodes env.nodeId top).map CopiedNode.destination)
    (howned : t'.OwnsNodes top.owner ids) :
    t'.without ids = t := by
  obtain ⟨hnodes, hlinks⟩ := h.destination_new hs
  obtain ⟨added, ht', hadded⟩ := h.linked
  have hleftNodes : (t'.without ids).nodes = t.nodes := by
    rw [without_nodes, h.nodes_eq, withCopies, List.filter_append, List.filter_eq_nil_iff.2,
      List.nil_append, List.filter_eq_self.2]
    · intro n hn
      simpa using fun hmem => hnodes n hn ((hids _).1 hmem)
    · intro row hrow
      have hcopy : row.id ∈ ids := by
        rw [hids, map_destination_copiedNodes h.rebases (env.now 0)]
        exact List.mem_map_of_mem (List.mem_reverse.1 hrow)
      simpa using hcopy
  have hleftLinks : (t'.without ids).links = t.links := by
    rw [without_links, ht', List.filter_append, List.filter_eq_nil_iff.2, List.nil_append,
      List.filter_eq_self.2]
    · intro l hl
      simpa using fun hmem => hlinks l hl ((hids _).1 hmem)
    · intro l hl
      obtain ⟨c, hc, -, hdestination, -⟩ := (hadded l.node l.blob).1 ⟨l, hl, rfl, rfl⟩
      have hcopy : l.node ∈ ids := (hids _).2 (hdestination ▸ List.mem_map_of_mem hc)
      simpa using hcopy
  have hleftBlobs : (t'.without ids).blobs = t.blobs :=
    (h.sound.blobs_without_of_orphansOf_nil howned
      (h.orphansOf_copies hs (fun id => (hids id).1) howned)).trans h.blobs_eq
  calc t'.without ids
      = ⟨(t'.without ids).nodes, (t'.without ids).blobs, (t'.without ids).links, t'.pending⟩ := rfl
    _ = t := by rw [hleftNodes, hleftBlobs, hleftLinks, h.pending_eq]

end Copies

end Tables.CopiedTo

/-! ## Copies and removals -/

namespace Archive

/-- **A copy is undone by its removal.** After every history, if a copy succeeds then there is one
copy of the node itself, and its recursive removal succeeds, whatever is claimed of the copy besides
its identifier, and however the payload store behaves. The removed nodes are the copies, no blob is
orphaned and none is pending, and the archive is the one from before the copy.

**Proof sketch.** Nothing was below the new place, so that the copies are what is at and below the
copy of the node. A blob that is linked to a copy was there before the copy, and so was a link to
it, which does not come from a copy and stays. -/
theorem copy_undone (history : List Step) (env env' : Env) (owner : OwnerId) (node : Node)
    (target : Path) (onlyNewest : Bool) (copies : List CopiedNode)
    (hcopy : ((empty.after history).copy env owner node target onlyNewest).1 = .ok copies) :
    let a := empty.after history
    let copied := (a.copy env owner node target onlyNewest).2
    (∃ c ∈ copies, c.source = node.id) ∧
    ∀ c ∈ copies, c.source = node.id → ∀ claimed : Node, claimed.id = c.destination →
      ∃ removed, removed.Perm (copies.map CopiedNode.destination) ∧
        copied.remove env' owner claimed true = (.ok ⟨removed, [], []⟩, a) := by
  intro a copied
  have hs : a.tables.Sound := sound history
  obtain ⟨top, t, hid, rfl, -, rfl, hto, hresult⟩ := copiedTo_of_copy hs hcopy
  have hcopied : copied = { a with tables := t } := congrArg Prod.snd hresult
  have hmem := hto.transferable.stored
  constructor
  · obtain ⟨i, hi⟩ := Tables.exists_number (Tables.mem_subtree.2 ⟨hmem, rfl, Path.covers_refl _⟩)
    exact ⟨_, Tables.mem_copiedNodes.2 ⟨top, i, hi, rfl⟩, hid⟩
  · intro c hc hsource claimed hclaimed
    obtain ⟨m, i, hm, rfl⟩ := Tables.mem_copiedNodes.1 hc
    obtain ⟨hmt, -⟩ := Tables.mem_subtree.1 (Tables.mem_numbered hm).1
    obtain rfl : m = top := hs.keyed.nodes.eq_of_id hmt hmem (hsource.trans hid.symm)
    -- the copy of the top, whatever is claimed of it
    let copy : Node := ⟨env.nodeId i, m.kind, target, m.owner, env.now 0⟩
    have hremovable : t.Removable copy true := ⟨hto.mem_copy hm, hto.transferable.kind, .inl rfl⟩
    have hids : t.subtreeIds copy =
        ((a.tables.copiedNodes env.nodeId m).map CopiedNode.destination).reverse :=
      hto.subtreeIds_copy hs copy rfl rfl
    have hcopies : ∀ id, id ∈ t.subtreeIds copy ↔
        id ∈ (a.tables.copiedNodes env.nodeId m).map CopiedNode.destination := by
      intro id
      rw [hids, List.mem_reverse]
    have howned := Tables.ownsNodes_subtreeIds t copy
    have hnone := hto.orphansOf_copies hs (fun id => (hcopies id).1) howned
    have hremove := remove_of_orphansOf_nil (a := { a with tables := t }) hto.sound hremovable hnone
      env' hclaimed
    refine ⟨t.subtreeIds copy, hids ▸ List.reverse_perm _, ?_⟩
    rw [hcopied, hremove, hto.without_copies hs hcopies howned]

/-- The first directory is copied with the three nodes below it, and the copies are removed from a
store that would refuse to delete a payload. -/
theorem copy_undone_nested :
    let a := empty.after Step.nestDirectories
    let owner : OwnerId := ⟨.ofNat 1⟩
    let copied := a.copy (.ticking 7) owner Step.outerDirectory ⟨"x"⟩ false
    ∃ copies, copied.1 = .ok copies ∧ ∃ c ∈ copies, c.source = Step.outerDirectory.id ∧
      ∃ removed, removed.Perm (copies.map CopiedNode.destination) ∧
        copied.2.remove (.refusing ⟨.ofNat 4⟩ 8) owner
            { Step.outerDirectory with id := c.destination } true =
          (.ok ⟨removed, [], []⟩, a) := by
  intro a owner copied
  obtain ⟨hvalid, hids, ht, hversions⟩ := copyable_outerDirectory
  have hcopy : copied.1 = .ok _ :=
    copy_of_transferable (sound _) (valid_after _ hvalid) ht rfl rfl hids false hversions
  obtain ⟨⟨c, hc, hsource⟩, hundone⟩ := copy_undone Step.nestDirectories (.ticking 7)
    (.refusing ⟨.ofNat 4⟩ 8) owner Step.outerDirectory ⟨"x"⟩ false _ hcopy
  obtain ⟨removed, hremoved, hafter⟩ :=
    hundone c hc hsource { Step.outerDirectory with id := c.destination } rfl
  exact ⟨_, hcopy, c, hc, hsource, removed, hremoved, hafter⟩

end Archive

end VersionedTree
