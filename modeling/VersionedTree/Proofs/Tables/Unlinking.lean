import VersionedTree.Proofs.Tables.Linked

/-!
# Links that leave together

Links can be dropped in several rounds or all at once: a blob that is counted by its links is left
exactly if one of them is. So the nodes of a removal can be unlinked one after the other and in
every order. What they leave is the tables without these nodes.

## Main definitions

* `VersionedTree.Tables.without` — the tables without nodes, their links, and the blobs that are
  left without a link.

## Main results

* `VersionedTree.Tables.Counted.dropLinks_dropLinks` — two rounds are one.
* `VersionedTree.Tables.Counted.without_without` — nodes that leave in two groups.
* `VersionedTree.Tables.Counted.unlinkNodes_eq` — nodes that are unlinked one after the other.
-/

set_option autoImplicit false

namespace VersionedTree.Tables

variable {t : Tables} {owner : OwnerId} {ids ids' : List NodeId} {blob : BlobId}

/-! ## Rounds of removed links -/

/-- Only the links that are there matter. -/
lemma dropLinks_congr {p q : Link → Bool} (h : ∀ l ∈ t.links, p l = q l) :
    t.dropLinks p = t.dropLinks q := by
  have hdropped : t.links.filter p = t.links.filter q := List.filter_congr h
  have hkept : t.links.filter (!p ·) = t.links.filter (!q ·) :=
    List.filter_congr fun l hl => by rw [h l hl]
  simp only [dropLinks, hdropped, hkept]

/-- Which blobs stay is a question of their identifiers. -/
lemma blobs_dropLinks (t : Tables) (p : Link → Bool) :
    (t.dropLinks p).blobs = t.blobs.filter fun b => (t.dropLinks p).hasBlob b.id := by
  refine List.filter_congr ?_
  intro b hb
  have hmem := mem_blobs_dropLinks (t := t) (p := p) (b := b)
  rw [dropLinks, List.mem_filter, and_congr_right_iff] at hmem
  rw [Bool.eq_iff_iff, hmem hb, hasBlob_iff]
  constructor
  · intro hstays
    exact ⟨b, mem_blobs_dropLinks.2 ⟨hb, hstays⟩, rfl⟩
  · rintro ⟨c, hc, hid⟩
    have hstays := (mem_blobs_dropLinks.1 hc).2
    rwa [hid] at hstays

/-- A counted blob stays if a link to it does. -/
lemma Counted.hasBlob_dropLinks_iff (h : t.Counted) {p : Link → Bool} :
    (t.dropLinks p).hasBlob blob = true ↔ ∃ l ∈ t.links, p l = false ∧ l.blob = blob := by
  rw [h.dropLinks p blob, isLinked_dropLinks]

/-- **Two rounds of removed links are one.** -/
theorem Counted.dropLinks_dropLinks (h : t.Counted) (p q : Link → Bool) :
    (t.dropLinks p).dropLinks q = t.dropLinks fun l => p l || q l := by
  have hlinks : ((t.dropLinks p).dropLinks q).links =
      (t.dropLinks fun l => p l || q l).links := by
    simp only [dropLinks_links, List.filter_filter, Bool.not_or, Bool.and_comm]
  have hboth (blob : BlobId) : ((t.dropLinks p).dropLinks q).hasBlob blob =
      (t.dropLinks fun l => p l || q l).hasBlob blob := by
    rw [(h.dropLinks p).dropLinks q blob, h.dropLinks _ blob, isLinked, isLinked, hlinks]
  have hblobs : ((t.dropLinks p).dropLinks q).blobs =
      (t.dropLinks fun l => p l || q l).blobs := by
    rw [blobs_dropLinks, blobs_dropLinks t p, List.filter_filter, blobs_dropLinks t]
    refine List.filter_congr ?_
    intro b _
    rw [hboth, Bool.and_eq_left_iff_imp, h.hasBlob_dropLinks_iff, h.hasBlob_dropLinks_iff]
    rintro ⟨l, hl, hstays, hblob⟩
    exact ⟨l, hl, (Bool.or_eq_false_iff.1 hstays).1, hblob⟩
  calc (t.dropLinks p).dropLinks q
      = ⟨t.nodes, ((t.dropLinks p).dropLinks q).blobs, ((t.dropLinks p).dropLinks q).links,
          t.pending⟩ := rfl
    _ = t.dropLinks fun l => p l || q l := by
        rw [hblobs, hlinks]
        rfl

/-! ## Tables without nodes -/

/-- The tables without the nodes of these identifiers, without the links from them, and without the
blobs that are left without a link. -/
def without (t : Tables) (ids : List NodeId) : Tables :=
  dropLinks { t with nodes := t.nodes.filter fun n => !ids.contains n.id }
    fun l => ids.contains l.node

/-- The other nodes stay. -/
@[simp] lemma without_nodes (t : Tables) (ids : List NodeId) :
    (t.without ids).nodes = t.nodes.filter fun n => !ids.contains n.id := rfl

/-- The links of the other nodes stay. -/
@[simp] lemma without_links (t : Tables) (ids : List NodeId) :
    (t.without ids).links = t.links.filter fun l => !ids.contains l.node := rfl

/-- The ledger stays. -/
@[simp] lemma without_pending (t : Tables) (ids : List NodeId) :
    (t.without ids).pending = t.pending := rfl

/-- Without no nodes the tables are the same. -/
@[simp] lemma without_nil (t : Tables) : t.without [] = t := by
  have hnodes : (t.nodes.filter fun n => !([] : List NodeId).contains n.id) = t.nodes :=
    List.filter_eq_self.2 fun _ _ => rfl
  rw [without, hnodes]
  exact dropLinks_of_none fun _ _ => rfl

/-- A node stays if it has none of the identifiers. -/
lemma mem_nodes_without {n : Node} :
    n ∈ (t.without ids).nodes ↔ n ∈ t.nodes ∧ n.id ∉ ids := by
  simp

/-- Only the set of identifiers matters. -/
lemma without_congr (h : ∀ id, id ∈ ids ↔ id ∈ ids') : t.without ids = t.without ids' := by
  have hcontains : ids.contains = ids'.contains := by
    funext id
    rw [Bool.eq_iff_iff, List.contains_iff_mem, List.contains_iff_mem, h id]
  rw [without, without, hcontains]

/-- A blob stays if it is linked to a node that does. -/
lemma Counted.hasBlob_without (h : t.Counted) :
    (t.without ids).hasBlob blob = true ↔ ∃ l ∈ t.links, l.node ∉ ids ∧ l.blob = blob := by
  rw [Tables.without, (h.withNodes).hasBlob_dropLinks_iff]
  simp only [List.contains_eq_mem, decide_eq_false_iff_not]

/-- Of the blobs, those stay that are still there. -/
lemma blobs_without (t : Tables) (ids : List NodeId) :
    (t.without ids).blobs = t.blobs.filter fun b => (t.without ids).hasBlob b.id :=
  blobs_dropLinks _ _

/-- **Nodes that leave in two groups** leave the same tables as all of them at once. -/
theorem Counted.without_without (h : t.Counted) (ids ids' : List NodeId) :
    (t.without ids).without ids' = t.without (ids ++ ids') := by
  have hnodes : ((t.nodes.filter fun n => !ids.contains n.id).filter fun n =>
      !ids'.contains n.id) = t.nodes.filter fun n => !(ids ++ ids').contains n.id := by
    rw [List.filter_filter]
    refine List.filter_congr ?_
    intro n _
    rw [List.contains_append, Bool.not_or, Bool.and_comm]
  let t' : Tables := { t with nodes := t.nodes.filter fun n => !(ids ++ ids').contains n.id }
  have hcounted : t'.Counted := h.withNodes
  calc (t.without ids).without ids'
      = (t'.dropLinks fun l => ids.contains l.node).dropLinks fun l => ids'.contains l.node := by
        rw [Tables.without, without_nodes, hnodes]
        rfl
    _ = t'.dropLinks fun l => ids.contains l.node || ids'.contains l.node :=
        hcounted.dropLinks_dropLinks _ _
    _ = t.without (ids ++ ids') := by
        simp only [← List.contains_append]
        rfl

/-! ## Nodes that are unlinked one after the other -/

/-- The links of nodes whose blobs are all of the owner. -/
lemma unlinkAll_eq {id : NodeId}
    (ho : ∀ l ∈ t.links, l.node = id → t.ownsBlob owner l.blob = true) :
    (t.unlinkAll owner id).2 = t.dropLinks fun l => l.node == id := by
  refine dropLinks_congr ?_
  intro l hl
  rw [Bool.and_eq_left_iff_imp, beq_iff_eq]
  exact ho l hl

/-- **Nodes are unlinked one after the other** with the outcome of dropping all their links, if all
blobs of these links belong to the owner. -/
theorem Counted.unlinkNodes_eq (h : t.Counted)
    (ho : ∀ l ∈ t.links, l.node ∈ ids → t.ownsBlob owner l.blob = true) :
    (Archive.unlinkNodes owner ids t).2 = t.dropLinks fun l => ids.contains l.node := by
  induction ids generalizing t with
  | nil => exact (dropLinks_of_none fun _ _ => rfl).symm
  | cons id rest ih =>
    have hfirst : (t.unlinkAll owner id).2 = t.dropLinks fun l => l.node == id := by
      refine unlinkAll_eq fun l hl hid => ho l hl ?_
      rw [hid]
      exact List.mem_cons_self
    change (Archive.unlinkNodes owner rest (t.unlinkAll owner id).2).2 = _
    rw [hfirst, ih (h.dropLinks _), h.dropLinks_dropLinks]
    · exact dropLinks_congr fun l _ => List.contains_cons.symm
    · intro l hl hmem
      obtain ⟨hl, hstays⟩ := List.mem_filter.1 hl
      rw [ownsBlob_dropLinks hl (by simpa using hstays)]
      exact ho l hl (List.mem_cons_of_mem _ hmem)

/-- Nodes do not matter to their links. -/
lemma unlinkNodes_withNodes (nodes : List Node) (ids : List NodeId) (t : Tables) :
    Archive.unlinkNodes owner ids { t with nodes := nodes } =
      ((Archive.unlinkNodes owner ids t).1,
        { (Archive.unlinkNodes owner ids t).2 with nodes := nodes }) := by
  induction ids generalizing t with
  | nil => rfl
  | cons id rest ih =>
    have hrest := ih (t.unlinkAll owner id).2
    change ((orphans (t.unlinkAll owner id).1 ++ (Archive.unlinkNodes owner rest
      { (t.unlinkAll owner id).2 with nodes := nodes }).1), (Archive.unlinkNodes owner rest
      { (t.unlinkAll owner id).2 with nodes := nodes }).2) = _
    rw [hrest]
    rfl

end VersionedTree.Tables
