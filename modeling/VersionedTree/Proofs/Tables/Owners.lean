import VersionedTree.Proofs.Tables.Forest
import VersionedTree.Proofs.Tables.References

/-!
# The rows of one owner

Tables are restricted to what belongs to one owner: its nodes, its blobs, the links to its blobs
and its entries of the ledger. A statement on behalf of an owner sees nothing else: on the
restricted tables it gives the same answer, and what it does to them is what it does to the whole
ones, restricted. It leaves alone what belongs to others.

## Main definitions

* `VersionedTree.Tables.only` — the rows of one owner.
* `VersionedTree.Tables.Local` — a function of tables that sees the rows of one owner only.
* `VersionedTree.Tables.LeavesOthers` — tables that differ in the rows of one owner only.

## Main results

* `VersionedTree.Tables.Local.createNode` and its kin — statements see the rows of their owner.
* `VersionedTree.Tables.LeavesOthers.run` — statements change the rows of their owner.
-/

set_option autoImplicit false

namespace VersionedTree.Tables

/-- What belongs to one owner. A link belongs to the owner of its blob. -/
def only (owner : OwnerId) (t : Tables) : Tables where
  nodes := t.nodes.filter fun n => n.owner == owner
  blobs := t.blobs.filter fun b => b.owner == owner
  links := t.links.filter fun l => t.ownsBlob owner l.blob
  pending := t.pending.filter fun p => p.owner == owner

variable {t t' : Tables} {owner : OwnerId}

/-! ## Reading -/

section Reading

variable (owner t)

/-- What is sought among the rows of an owner only is not missed after a restriction to them. -/
lemma any_filter_of_imp {α : Type} {p q : α → Bool} (l : List α)
    (h : ∀ x ∈ l, p x = true → q x = true) : (l.filter q).any p = l.any p := by
  rw [List.any_filter, Bool.eq_iff_iff]
  simp only [List.any_eq_true, Bool.and_eq_true]
  exact exists_congr fun x => and_congr_right fun hx => and_iff_right_of_imp (h x hx)

/-- What is found among the rows of an owner only is found after a restriction to them. -/
lemma find?_filter_of_imp {α : Type} {p q : α → Bool} (l : List α)
    (h : ∀ x, p x = true → q x = true) : (l.filter q).find? p = l.find? p := by
  rw [List.find?_filter]
  congr 1
  funext x
  rw [Bool.eq_iff_iff, decide_eq_true_iff]
  exact and_iff_right_of_imp (h x)

/-- Rows that are all of an owner are the same after a restriction to its rows. -/
lemma filter_filter_of_imp {α : Type} {p q : α → Bool} (l : List α)
    (h : ∀ x, p x = true → q x = true) : (l.filter q).filter p = l.filter p := by
  rw [List.filter_filter]
  congr 1
  funext x
  rw [Bool.eq_iff_iff, Bool.and_eq_true]
  exact and_iff_left_of_imp (h x)

/-- An owner sees the kinds of its nodes among its own rows. -/
@[simp] lemma hasKind_only (id : NodeId) (kind : Kind) :
    (t.only owner).hasKind owner id kind = t.hasKind owner id kind :=
  any_filter_of_imp _ fun n _ h => by
    simp only [Bool.and_eq_true] at h
    exact h.1.2

/-- An owner sees its containers among its own rows. -/
@[simp] lemma hasContainerAt_only (path : Option Path) :
    (t.only owner).hasContainerAt owner path = t.hasContainerAt owner path := by
  cases path with
  | none => rfl
  | some path =>
    refine any_filter_of_imp _ fun n _ h => ?_
    simp only [Bool.and_eq_true] at h
    exact h.1.1

/-- An owner finds its nodes of a kind among its own rows. -/
@[simp] lemma stored?_only (id : NodeId) (kind : Kind) :
    (t.only owner).stored? owner id kind = t.stored? owner id kind :=
  find?_filter_of_imp _ fun n h => by
    simp only [Bool.and_eq_true] at h
    exact h.1.2

/-- An owner finds the nodes that it may remove among its own rows. -/
@[simp] lemma removable?_only (id : NodeId) :
    (t.only owner).removable? owner id = t.removable? owner id :=
  find?_filter_of_imp _ fun n h => by
    simp only [Bool.and_eq_true] at h
    exact h.1.2

/-- An owner sees among its own rows all that it has at and below a place. -/
@[simp] lemma subtree_only (top : Path) :
    (t.only owner).subtree owner top = t.subtree owner top :=
  filter_filter_of_imp _ fun n h => by
    simp only [Bool.and_eq_true] at h
    exact h.1

/-- A node is found by its place among the rows of its owner. -/
lemma nodeAt?_only (path : Path) : (t.only owner).nodeAt? owner path = t.nodeAt? owner path :=
  congrArg readBack? <| find?_filter_of_imp _ fun n h => by
    simp only [Bool.and_eq_true] at h
    exact h.1

/-- A node is found by its identifier among the rows of its owner. -/
lemma node?_only (id : NodeId) : (t.only owner).node? owner id = t.node? owner id :=
  congrArg readBack? <| find?_filter_of_imp _ fun n h => by
    simp only [Bool.and_eq_true] at h
    exact h.1

/-- The children of a container are seen among the rows of its owner. -/
lemma children_only (id : NodeId) : (t.only owner).children owner id = t.children owner id := by
  have hfind : (t.only owner).nodes.find?
      (fun n => n.id == id && n.owner == owner && n.kind.isContainer) =
      t.nodes.find? fun n => n.id == id && n.owner == owner && n.kind.isContainer :=
    find?_filter_of_imp _ fun n h => by
      simp only [Bool.and_eq_true] at h
      exact h.1.2
  simp only [children, hfind, subtree_only]

/-- An owner sees its blobs among its own rows. -/
@[simp] lemma ownsBlob_only (blob : BlobId) :
    (t.only owner).ownsBlob owner blob = t.ownsBlob owner blob :=
  any_filter_of_imp _ fun b _ h => by
    simp only [Bool.and_eq_true] at h
    exact h.2

/-- An owner sees among its own rows which places are taken. -/
lemma isTaken_only (id : NodeId) (path : Path) :
    isTaken (t.only owner).nodes owner id path = isTaken t.nodes owner id path :=
  any_filter_of_imp _ fun n _ h => by
    simp only [Bool.and_eq_true] at h
    exact h.1.2

/-- An owner sees its part of the ledger among its own rows. -/
lemma isQueued_only (blob : BlobId) :
    (t.only owner).isQueued owner blob = t.isQueued owner blob :=
  any_filter_of_imp _ fun p _ h => by
    simp only [Bool.and_eq_true] at h
    exact h.1

/-- Of the links, those to blobs of the owner are seen. -/
lemma any_links_only (p : Link → Bool) :
    (t.only owner).links.any p = t.links.any fun l => t.ownsBlob owner l.blob && p l := by
  simp only [only, List.any_filter]

/-- A link is seen by the owner of its blob. -/
lemma hasLink_only (node : NodeId) (blob : BlobId) :
    (t.only owner).hasLink node blob = (t.hasLink node blob && t.ownsBlob owner blob) := by
  rw [hasLink, any_links_only, Bool.eq_iff_iff]
  simp only [hasLink, List.any_eq_true, Bool.and_eq_true, beq_iff_eq]
  constructor
  · rintro ⟨l, hl, ho, hn, rfl⟩
    exact ⟨⟨l, hl, hn, rfl⟩, ho⟩
  · rintro ⟨⟨l, hl, hn, rfl⟩, ho⟩
    exact ⟨l, hl, ho, hn, rfl⟩

/-- The owner of a blob sees all links to it. -/
lemma isLinkedElsewhere_only {blob : BlobId} (h : t.ownsBlob owner blob = true) (node : NodeId) :
    (t.only owner).isLinkedElsewhere node blob = t.isLinkedElsewhere node blob := by
  rw [isLinkedElsewhere, any_links_only, Bool.eq_iff_iff]
  simp only [isLinkedElsewhere, List.any_eq_true, Bool.and_eq_true, beq_iff_eq, bne_iff_ne]
  constructor
  · rintro ⟨l, hl, -, hb, hn⟩
    exact ⟨l, hl, hb, hn⟩
  · rintro ⟨l, hl, rfl, hn⟩
    exact ⟨l, hl, h, rfl, hn⟩

/-- The versions of a node are made of links that are seen, and of blobs that are seen. -/
@[simp] lemma versionsOf_only (node : NodeId) :
    (t.only owner).versionsOf owner node = t.versionsOf owner node := by
  have hlink : ∀ l : Link,
      (((t.only owner).blobs.filter fun b => b.id == l.blob).map (Version.ofRows l)).filter
          (fun v => v.node == node && v.owner == owner) =
        ((t.blobs.filter fun b => b.id == l.blob).map (Version.ofRows l)).filter
          fun v => v.node == node && v.owner == owner := by
    intro l
    rw [List.filter_map, List.filter_map, only, List.filter_filter, List.filter_filter,
      List.filter_filter]
    congr 2
    funext b
    simp only [Function.comp_apply, Version.ofRows]
    cases b.owner == owner <;> simp
  have hnone : ∀ l : Link, t.ownsBlob owner l.blob = false →
      ((t.blobs.filter fun b => b.id == l.blob).map (Version.ofRows l)).filter
        (fun v => v.node == node && v.owner == owner) = [] := by
    intro l hl
    simp only [ownsBlob, List.any_eq_false, Bool.and_eq_true, beq_iff_eq, not_and] at hl
    rw [List.filter_eq_nil_iff]
    intro v hv
    obtain ⟨b, hb, rfl⟩ := List.mem_map.1 hv
    obtain ⟨hb, hid⟩ := List.mem_filter.1 hb
    simp only [Version.ofRows, Bool.and_eq_true, beq_iff_eq, not_and]
    exact fun _ => hl b hb (by simpa using hid)
  simp only [versionsOf, versions, List.filter_flatMap, hlink]
  simp only [only]
  generalize t.links = links
  induction links with
  | nil => rfl
  | cons l rest ih =>
    rw [List.filter_cons, List.flatMap_cons, ← ih]
    cases hl : t.ownsBlob owner l.blob with
    | false => simp [hnone l hl]
    | true => simp

/-- The newest versions of a node are seen among the rows of its owner. -/
lemma newestVersions_only (node : NodeId) (limit : Nat) :
    (t.only owner).newestVersions owner node limit = t.newestVersions owner node limit := by
  simp only [newestVersions, history, versionsOf_only]

/-- The versions of a node are counted among the rows of its owner. -/
lemma countVersions_only (node : NodeId) :
    (t.only owner).countVersions owner node = t.countVersions owner node := by
  simp only [countVersions, versionsOf_only]

/-- The versions after a given one are seen among the rows of the owner. -/
lemma versionsAfter_only (last : Version) (limit : Nat) :
    (t.only owner).versionsAfter owner last limit = t.versionsAfter owner last limit := by
  simp only [versionsAfter, history, versionsOf_only]

/-- A version is found among the rows of its owner. -/
lemma version?_only (node : NodeId) (blob : BlobId) :
    (t.only owner).version? owner node blob = t.version? owner node blob := by
  simp only [version?, versionsOf_only]

end Reading

/-! ## Statements on nodes -/

/-- A function of tables that sees the rows of one owner only: on these alone it gives the same
answer, and does what it does to them among the others. -/
def Local {α : Type} (owner : OwnerId) (f : Tables → α × Tables) (t : Tables) : Prop :=
  f (t.only owner) = ((f t).1, (f t).2.only owner)

/-- Rows of other owners do not have the identifier. -/
def IsFreshNode (t : Tables) (owner : OwnerId) (id : NodeId) : Prop :=
  ∀ n ∈ t.nodes, n.owner ≠ owner → n.id ≠ id

/-- Of other nodes, those of the owner are seen. -/
lemma only_withNodes (nodes : List Node) : only owner { t with nodes := nodes } =
    { t.only owner with nodes := nodes.filter fun n => n.owner == owner } := rfl

/-- An owner inserts a node among its own rows as it does among all, if no other owner has the
identifier. -/
lemma insertNode_only {n : Node} (ho : n.owner = owner) (hf : t.IsFreshNode owner n.id) :
    (t.only owner).insertNode n = (t.insertNode n).map (only owner) := by
  have hc : (t.only owner).clashes n = t.clashes n := by
    refine any_filter_of_imp _ fun m hm h => ?_
    simp only [Bool.or_eq_true, Bool.and_eq_true, beq_iff_eq] at h ⊢
    rcases h with h | h
    · exact Classical.byContradiction fun hne => hf m hm hne h
    · exact h.1.trans ho
  unfold insertNode
  rw [hc]
  split
  · rfl
  · split
    · rfl
    · simp [Except.map, only_withNodes, ho]
      rfl

/-- A node of the owner takes no identifier from another one. -/
lemma IsFreshNode.cons {n : Node} {id : NodeId} (h : t.IsFreshNode owner id)
    (ho : n.owner = owner) : IsFreshNode { t with nodes := n :: t.nodes } owner id := by
  intro m hm hne
  rcases List.mem_cons.1 hm with rfl | hm
  · exact absurd ho hne
  · exact h m hm hne

/-- An owner inserts several nodes among its own rows as it does among all, if no other owner has
their identifiers. -/
lemma insertNodes_only {rows : List Node} (ho : ∀ n ∈ rows, n.owner = owner)
    (hf : ∀ n ∈ rows, t.IsFreshNode owner n.id) :
    (t.only owner).insertNodes rows = (t.insertNodes rows).map (only owner) := by
  induction rows generalizing t with
  | nil => rfl
  | cons n rest ih =>
    rw [List.forall_mem_cons] at ho hf
    unfold insertNodes
    rw [insertNode_only ho.1 hf.1]
    cases hi : t.insertNode n with
    | error c => rfl
    | ok t₁ =>
      obtain ⟨-, -, rfl⟩ := insertNode_eq_ok.1 hi
      exact ih ho.2 fun m hm => (hf.2 m hm).cons ho.1

/-- What is placed is of the same owner as before. -/
lemma filter_place (owner : OwnerId) (nodes : List Node) (id : NodeId) (path : Path) :
    (place nodes id path).filter (fun n => n.owner == owner) =
      place (nodes.filter fun n => n.owner == owner) id path := by
  rw [place, List.filter_map, place]
  congr 2
  funext n
  simp only [Function.comp_apply]
  split <;> rfl

/-- An owner relocates its nodes among its own rows as it does among all. -/
lemma relocate_filter {moves : List (NodeId × Path)} {nodes : List Node}
    (h : ∀ move ∈ moves, ∀ n ∈ nodes, n.id = move.1 → n.owner = owner) :
    relocate owner moves (nodes.filter fun n => n.owner == owner) =
      (relocate owner moves nodes).map (List.filter fun n => n.owner == owner) := by
  induction moves generalizing nodes with
  | nil => rfl
  | cons move rest ih =>
    obtain ⟨id, path⟩ := move
    have hm : isMisplaced (nodes.filter fun n => n.owner == owner) id path =
        isMisplaced nodes id path := by
      refine any_filter_of_imp _ fun n hn hp => ?_
      simp only [Bool.and_eq_true, beq_iff_eq] at hp ⊢
      exact h (id, path) List.mem_cons_self n hn hp.1
    have ht : isTaken (nodes.filter fun n => n.owner == owner) owner id path =
        isTaken nodes owner id path := by
      refine any_filter_of_imp _ fun n _ hp => ?_
      simp only [Bool.and_eq_true] at hp
      exact hp.1.2
    unfold relocate
    rw [hm, ht]
    split
    · rfl
    · split
      · rfl
      · rw [← filter_place]
        refine ih fun move hmove n hn e => ?_
        obtain ⟨m, hm, rfl⟩ := mem_place.1 hn
        split at e <;> split <;> exact h move (List.mem_cons_of_mem _ hmove) m hm e

namespace Local

section Nodes

variable (time : Instant) (node : Node) (target : Path)

/-- A node is created among the rows of its owner. -/
lemma createNode {id : NodeId} (hf : t.IsFreshNode owner id) (path : Path) (kind : Kind) :
    Local owner (createNode id time owner path kind) t := by
  have hm : (t.only owner).mayCreate owner path kind = t.mayCreate owner path kind := by
    simp only [mayCreate, hasContainerAt_only]
  unfold Local Tables.createNode
  simp only [hm, insertNode_only (n := ⟨id, kind, path, owner, time⟩) rfl hf]
  split
  · cases t.insertNode ⟨id, kind, path, owner, time⟩ with
    | ok t' => rfl
    | error c => cases c <;> rfl
  · rfl

/-- A file moves among the rows of its owner. -/
lemma moveFile : Local owner (moveFile owner node target) t := by
  unfold Local Tables.moveFile
  simp only [hasKind_only, hasContainerAt_only, isTaken_only]
  split
  · rfl
  · split
    · rfl
    · split
      · exact Prod.ext rfl (congrArg (fun nodes => { t.only owner with nodes := nodes })
          (filter_place owner t.nodes node.id target).symm)
      · rfl

/-- A directory moves among the rows of its owner, as its nodes have no identifiers of others. -/
lemma moveDirectory (hk : t.Keyed) : Local owner (moveDirectory owner node target) t := by
  unfold Local Tables.moveDirectory
  simp only [stored?_only, hasContainerAt_only, subtree_only]
  split
  · rfl
  · split
    · rfl
    · cases t.stored? owner node.id .dir with
      | none => rfl
      | some source =>
        simp only
        split
        · have hr : relocate owner (movedPlaces (t.subtree owner source.path) source.path target)
              (t.only owner).nodes =
                (relocate owner (movedPlaces (t.subtree owner source.path) source.path target)
                  t.nodes).map (List.filter fun n => n.owner == owner) := by
            refine relocate_filter fun move hm n hn e => ?_
            obtain ⟨m, hsub, rfl⟩ := List.mem_map.1 hm
            obtain ⟨hmt, ho, -⟩ := mem_subtree.1 hsub
            rw [hk.nodes.eq_of_id hn hmt e, ho]
          rw [hr]
          cases relocate owner (movedPlaces (t.subtree owner source.path) source.path target)
            t.nodes with
          | ok nodes => rfl
          | error c => cases c <;> rfl
        · rfl

/-- A file is copied among the rows of its owner. -/
lemma copyFile {id : NodeId} (hf : t.IsFreshNode owner id) :
    Local owner (copyFile id time owner node target) t := by
  unfold Local Tables.copyFile
  simp only [hasKind_only, hasContainerAt_only,
    insertNode_only (n := ⟨id, .file, target, owner, time⟩) rfl hf]
  split
  · rfl
  · split
    · cases t.insertNode ⟨id, .file, target, owner, time⟩ with
      | ok t' => rfl
      | error c => cases c <;> rfl
    · rfl

/-- Copies belong to the owner and have identifiers from the supply. -/
lemma mem_rowsOf {ids : Nat → NodeId} {source : Path} {k : Nat} {sources : List Node} {n : Node}
    (h : n ∈ rowsOf owner time (copiesOf ids source target k sources)) :
    n.owner = owner ∧ ∃ j, n.id = ids j := by
  induction sources generalizing k with
  | nil => cases h
  | cons m rest ih =>
    unfold copiesOf at h
    split at h
    · exact ih h
    · rcases List.mem_cons.1 h with rfl | h
      · exact ⟨rfl, k, rfl⟩
      · exact ih h

/-- A directory is copied among the rows of its owner. -/
lemma copyDirectory {ids : Nat → NodeId} (hf : ∀ k, t.IsFreshNode owner (ids k)) :
    Local owner (copyDirectory ids time owner node target) t := by
  unfold Local Tables.copyDirectory
  simp only [stored?_only, hasContainerAt_only, subtree_only]
  split
  · rfl
  · cases t.stored? owner node.id .dir with
    | none => rfl
    | some source =>
      simp only
      cases Node.readBackAll (sortedByPath (t.subtree owner source.path)) with
      | error e => rfl
      | ok sources =>
        simp only
        split
        · rfl
        · split
          · rw [insertNodes_only (fun n hn => (mem_rowsOf time target hn).1) fun n hn => by
              obtain ⟨-, j, e⟩ := mem_rowsOf time target hn
              exact e ▸ hf j]
            cases t.insertNodes (rowsOf owner time (copiesOf ids source.path target 0 sources)) with
            | ok t' => rfl
            | error c => cases c <;> rfl
          · rfl

/-- A node is removed from among the rows of its owner. -/
lemma removeLeaf : Local owner (removeLeaf owner node) t := by
  unfold Local Tables.removeLeaf
  simp only [removable?_only, subtree_only]
  cases t.removable? owner node.id with
  | none => rfl
  | some top =>
    simp only
    split
    · refine Prod.ext rfl (congrArg (fun nodes => { t.only owner with nodes := nodes }) ?_)
      exact List.filter_comm _ _ _
    · rfl

/-- A node is removed with all that is below it from among the rows of its owner. -/
lemma removeSubtree : Local owner (removeSubtree owner node) t := by
  unfold Local Tables.removeSubtree
  simp only [removable?_only, subtree_only]
  cases t.removable? owner node.id with
  | none => rfl
  | some top =>
    refine Prod.ext rfl (congrArg (fun nodes => { t.only owner with nodes := nodes }) ?_)
    exact List.filter_comm _ _ _

end Nodes

end Local

/-! ## Statements on blobs and links -/

/-- Of other links, those to blobs of the owner are seen. -/
lemma only_withLinks (links : List Link) : only owner { t with links := links } =
    { t.only owner with links := links.filter fun l => t.ownsBlob owner l.blob } := rfl

/-- A link to a blob of the owner is inserted among its rows as it is among all. -/
lemma insertLink_only {l : Link} (ho : t.ownsBlob owner l.blob = true) :
    (t.only owner).insertLink l = (t.insertLink l).map (only owner) := by
  unfold insertLink
  rw [hasLink_only, ho, Bool.and_true]
  split
  · rfl
  · simp [Except.map, only_withLinks, ho]
    rfl

/-- Links to blobs of the owner are inserted among its rows as they are among all. -/
lemma insertLinks_only {ls : List Link} (ho : ∀ l ∈ ls, t.ownsBlob owner l.blob = true) :
    (t.only owner).insertLinks ls = (t.insertLinks ls).map (only owner) := by
  induction ls generalizing t with
  | nil => rfl
  | cons l rest ih =>
    rw [List.forall_mem_cons] at ho
    unfold insertLinks
    rw [insertLink_only ho.1]
    cases hi : t.insertLink l with
    | error c => rfl
    | ok t₁ =>
      obtain ⟨-, rfl⟩ := insertLink_eq_ok.1 hi
      exact ih ho.2

/-- A link that stays keeps its blob. -/
lemma ownsBlob_dropLinks {p : Link → Bool} {l : Link} (hl : l ∈ t.links) (hp : p l = false)
    (o : OwnerId) : (t.dropLinks p).ownsBlob o l.blob = t.ownsBlob o l.blob := by
  rw [Bool.eq_iff_iff, ownsBlob_iff, ownsBlob_iff]
  refine exists_congr fun b => ?_
  rw [mem_blobs_dropLinks]
  constructor
  · rintro ⟨⟨hb, -⟩, hid, ho⟩
    exact ⟨hb, hid, ho⟩
  · rintro ⟨hb, hid, ho⟩
    exact ⟨⟨hb, fun _ => ⟨l, hl, hp, hid.symm⟩⟩, hid, ho⟩

/-- Links to blobs of the owner are what its blobs are released by. -/
lemma dropLinks_only (p : Link → Bool) :
    (t.only owner).dropLinks p = (t.dropLinks p).only owner := by
  have hany {b : Blob} (hb : b ∈ t.blobs) (ho : b.owner = owner) (q : Link → Bool) :
      ((t.only owner).links.filter q).any (fun l => l.blob == b.id) =
        (t.links.filter q).any fun l => l.blob == b.id := by
    rw [List.any_filter, any_links_only, List.any_filter, Bool.eq_iff_iff]
    simp only [List.any_eq_true, Bool.and_eq_true, beq_iff_eq]
    refine exists_congr fun l => and_congr_right fun _ => and_iff_right_of_imp fun h => ?_
    exact ownsBlob_iff.2 ⟨b, hb, h.2.symm, ho⟩
  have hblobs : ((t.only owner).dropLinks p).blobs = ((t.dropLinks p).only owner).blobs := by
    change (t.blobs.filter fun b => b.owner == owner).filter (fun b =>
        !(((t.only owner).links.filter p).any (fun l => l.blob == b.id) &&
          !((t.only owner).links.filter (!p ·)).any fun l => l.blob == b.id)) =
      (t.blobs.filter fun b => !((t.links.filter p).any (fun l => l.blob == b.id) &&
        !(t.links.filter (!p ·)).any fun l => l.blob == b.id)).filter fun b => b.owner == owner
    rw [List.filter_filter, List.filter_filter]
    refine List.filter_congr fun b hb => ?_
    cases ho : b.owner == owner with
    | false => simp
    | true =>
      have ho' : b.owner = owner := by simpa using ho
      rw [hany hb ho', hany hb ho', Bool.and_true, Bool.true_and]
  have hlinks : ((t.only owner).dropLinks p).links = ((t.dropLinks p).only owner).links := by
    simp only [dropLinks_links, only]
    rw [List.filter_filter, List.filter_filter]
    refine List.filter_congr fun l hl => ?_
    cases hp : p l with
    | true => simp
    | false =>
      rw [Bool.not_false, Bool.true_and, Bool.and_true, ownsBlob_dropLinks hl hp]
  calc (t.only owner).dropLinks p
      = ⟨(t.only owner).nodes, ((t.only owner).dropLinks p).blobs,
          ((t.only owner).dropLinks p).links, (t.only owner).pending⟩ := rfl
    _ = (t.dropLinks p).only owner := by
        rw [hblobs, hlinks]
        rfl

/-- Rows of other owners do not have the identifier. -/
def IsFreshBlob (t : Tables) (owner : OwnerId) (id : BlobId) : Prop :=
  ∀ b ∈ t.blobs, b.owner ≠ owner → b.id ≠ id

/-- A new blob: no link refers to it yet. -/
lemma insertBlob_only {b : Blob} (hc : t.Counted) (ho : b.owner = owner)
    (hf : t.IsFreshBlob owner b.id) :
    (t.only owner).insertBlob b = (t.insertBlob b).map (only owner) := by
  have hany : (t.only owner).blobs.any (fun c => c.id == b.id) = t.hasBlob b.id := by
    refine any_filter_of_imp _ fun c hmem h => ?_
    simp only [beq_iff_eq] at h ⊢
    exact Classical.byContradiction fun hne => hf c hmem hne h
  unfold insertBlob
  rw [hany]
  split
  · rfl
  · change (if t.hasBlob b.id = true then _ else _) =
      Except.map _ (if t.hasBlob b.id = true then _ else _)
    split
    · rfl
    · next hb =>
      have hlinks : ∀ l ∈ t.links,
          ownsBlob { t with blobs := b :: t.blobs } owner l.blob = t.ownsBlob owner l.blob := by
        intro l hl
        have hne : b.id ≠ l.blob := fun e => hb (by
          rw [hc]
          exact isLinked_iff.2 ⟨l, hl, e.symm⟩)
        simp only [ownsBlob, List.any_cons, beq_false_of_ne hne, Bool.false_and, Bool.false_or]
      simp only [Except.map, Except.ok.injEq, only, List.filter_congr hlinks]
      simp [ho]

/-- The blobs of the versions that an owner sees are its own. -/
lemma ownsBlob_of_mem_versionsOf {node : NodeId} {v : Version}
    (h : v ∈ t.versionsOf owner node) : t.ownsBlob owner v.blob = true := by
  simp only [versionsOf, versions, List.mem_filter, List.mem_flatMap, List.mem_map,
    Bool.and_eq_true, beq_iff_eq] at h
  obtain ⟨⟨l, -, b, ⟨hb, -⟩, rfl⟩, -, ho⟩ := h
  exact ownsBlob_iff.2 ⟨b, hb, rfl, ho⟩

/-- The ledger is queued for one owner only. -/
lemma queueDeletes_only (time : Instant) (blobs : List BlobId) (t : Tables) :
    (t.only owner).queueDeletes time owner blobs =
      (t.queueDeletes time owner blobs).only owner := by
  induction blobs generalizing t with
  | nil => rfl
  | cons blob rest ih =>
    unfold queueDeletes
    rw [isQueued_only, ← ih]
    congr 1
    split
    · rfl
    · simp [only]
      rfl

namespace Local

section Links

variable (time : Instant) (node source target : NodeId)

/-- A blob is linked among the rows of its owner. -/
lemma link (blob : BlobId) : Local owner (link time owner node blob) t := by
  unfold Local Tables.link
  simp only [ownsBlob_only, hasKind_only]
  split
  · next h =>
    simp only [Bool.and_eq_true] at h
    rw [insertLink_only h.1]
    cases t.insertLink ⟨node, blob, time⟩ <;> rfl
  · rfl

/-- A version is added among the rows of its owner, if no other owner has the identifier of its
blob. -/
lemma addVersion {blob : BlobId} (hc : t.Counted) (hf : t.IsFreshBlob owner blob)
    (uploaded : Instant) (info : BlobInfo) :
    Local owner (addVersion uploaded time owner node blob info) t := by
  unfold Local Tables.addVersion
  simp only [hasKind_only]
  split
  · have hi : (t.only owner).insertBlob ⟨blob, info.checksum, info.size, owner, uploaded⟩ =
        (t.insertBlob ⟨blob, info.checksum, info.size, owner, uploaded⟩).map (only owner) :=
      insertBlob_only hc rfl hf
    rw [hi]
    cases t.insertBlob ⟨blob, info.checksum, info.size, owner, uploaded⟩ with
    | error c => rfl
    | ok t₁ =>
      have hl : Local owner (Tables.link time owner node blob) t₁ := link time node blob
      simp only [Except.map]
      rw [hl]
      obtain ⟨_ | l, t₂⟩ := t₁.link time owner node blob <;> rfl
  · rfl

/-- Versions are linked among the rows of the owner of their blobs. -/
lemma linkVersions {vs : List Version} (h : ∀ v ∈ vs, t.ownsBlob owner v.blob = true) :
    Local owner (linkVersions time target vs) t := by
  unfold Local Tables.linkVersions
  rw [insertLinks_only fun l hl => ?_]
  · cases t.insertLinks (vs.map fun v => ⟨target, v.blob, time⟩) <;> rfl
  · obtain ⟨v, hv, rfl⟩ := List.mem_map.1 hl
    exact h v hv

/-- The newest version is linked among the rows of its owner. -/
lemma linkNewest : Local owner (linkNewest time owner source target) t := by
  unfold Local Tables.linkNewest
  simp only [hasKind_only, newestVersions_only]
  split
  · exact linkVersions time target fun v hv =>
      ownsBlob_of_mem_versionsOf (mem_versionsOf_of_mem_newestVersions hv)
  · rfl

/-- All versions are linked among the rows of their owner. -/
lemma linkAll : Local owner (linkAll time owner source target) t := by
  unfold Local Tables.linkAll
  simp only [hasKind_only, versionsOf_only]
  split
  · exact linkVersions time target fun v hv => ownsBlob_of_mem_versionsOf hv
  · rfl

/-- A link is removed from among the rows of the owner of its blob. -/
lemma unlink (blob : BlobId) : Local owner (unlink owner node blob) t := by
  unfold Local Tables.unlink
  simp only [hasLink_only, ownsBlob_only]
  by_cases ho : t.ownsBlob owner blob = true
  · simp only [ho, Bool.and_true, isLinkedElsewhere_only t owner ho, dropLinks_only]
    split <;> rfl
  · simp [ho]

/-- All links of a node are removed from among the rows of the owner of their blobs. -/
lemma unlinkAll : Local owner (unlinkAll owner node) t := by
  unfold Local Tables.unlinkAll
  simp only [ownsBlob_only, dropLinks_only]
  refine Prod.ext ?_ rfl
  have hlinks : (t.only owner).links.filter (fun l => l.node == node && t.ownsBlob owner l.blob) =
      t.links.filter fun l => l.node == node && t.ownsBlob owner l.blob :=
    filter_filter_of_imp _ fun l h => by
      simp only [Bool.and_eq_true] at h
      exact h.2
  simp only [hlinks]
  refine List.map_congr_left fun l hl => ?_
  have ho := (List.mem_filter.1 hl).2
  simp only [Bool.and_eq_true] at ho
  rw [isLinkedElsewhere_only t owner ho.2]

/-- Entries are cleared from the part of the ledger that is of their owner. -/
lemma clearDeletes (blobs : List BlobId) : Local owner (clearDeletes owner blobs) t := by
  unfold Local Tables.clearDeletes
  refine Prod.ext ?_ (congrArg (fun pending => { t.only owner with pending := pending }) ?_)
  · simp only [only, List.countP_filter]
    refine List.countP_congr fun p _ => ?_
    simp only [Bool.and_eq_true]
    exact ⟨fun h => h.1, fun h => ⟨h, h.1⟩⟩
  · exact List.filter_comm _ _ _

end Links

end Local

/-! ## The rows of others -/

/-- Do the tables differ in the rows of one owner only? -/
def LeavesOthers (owner : OwnerId) (t t' : Tables) : Prop :=
  ∀ other, other ≠ owner → t'.only other = t.only other

/-- A blob has one owner. -/
lemma Keyed.ownsBlob_eq_false (h : t.Keyed) {blob : BlobId} {other : OwnerId}
    (ho : t.ownsBlob owner blob = true) (hne : other ≠ owner) : t.ownsBlob other blob = false := by
  rw [Bool.eq_false_iff]
  intro h'
  obtain ⟨b, hb, hid, hbo⟩ := ownsBlob_iff.1 ho
  obtain ⟨c, hc, hid', hco⟩ := ownsBlob_iff.1 h'
  obtain rfl := h.eq_of_blob hc hb (hid'.trans hid.symm)
  exact hne (hco.symm.trans hbo)

/-- Without a link to drop nothing changes. -/
lemma dropLinks_of_none {p : Link → Bool} (h : ∀ l ∈ t.links, p l = false) : t.dropLinks p = t := by
  have hdropped : t.links.filter p = [] := List.filter_eq_nil_iff.2 fun l hl => by simp [h l hl]
  have hkept : t.links.filter (!p ·) = t.links := List.filter_eq_self.2 fun l hl => by simp [h l hl]
  simp [dropLinks, hdropped, hkept]

namespace LeavesOthers

variable {t'' : Tables}

/-- Tables that stay as they are leave the others alone. -/
lemma refl (owner : OwnerId) (t : Tables) : LeavesOthers owner t t := fun _ _ => rfl

/-- Two changes for one owner leave the others alone if each of them does. -/
lemma trans (h : LeavesOthers owner t t') (h' : LeavesOthers owner t' t'') :
    LeavesOthers owner t t'' :=
  fun other hne => (h' other hne).trans (h other hne)

/-- Only nodes of the owner come, or change. -/
lemma withNodes {nodes : List Node} (h : ∀ other, other ≠ owner →
    nodes.filter (fun n => n.owner == other) = t.nodes.filter fun n => n.owner == other) :
    LeavesOthers owner t { t with nodes := nodes } := fun other hne => by
  rw [only_withNodes, h other hne]
  rfl

/-- New nodes of an owner leave the others alone. -/
lemma insertNodes {rows : List Node} (ho : ∀ n ∈ rows, n.owner = owner)
    (hi : t.insertNodes rows = .ok t') : LeavesOthers owner t t' := by
  rw [eq_of_insertNodes hi]
  refine withNodes fun other hne => ?_
  rw [List.filter_append, List.filter_eq_nil_iff.2 fun n hn => ?_, List.nil_append]
  rw [ho n (List.mem_reverse.1 hn)]
  simpa using hne.symm

/-- One new node of an owner leaves the others alone. -/
lemma insertNode {n : Node} (ho : n.owner = owner) (hi : t.insertNode n = .ok t') :
    LeavesOthers owner t t' :=
  insertNodes (fun _ hm => (List.mem_singleton.1 hm).symm ▸ ho) (insertNodes_singleton hi)

/-- Only nodes of the owner get new places. -/
lemma mapNodes {f : Node → Node} (ho : ∀ n ∈ t.nodes, (f n).owner = n.owner)
    (hf : ∀ n ∈ t.nodes, n.owner ≠ owner → f n = n) :
    LeavesOthers owner t { t with nodes := t.nodes.map f } := by
  refine withNodes fun other hne => ?_
  generalize t.nodes = nodes at ho hf
  induction nodes with
  | nil => rfl
  | cons n rest ih =>
    rw [List.forall_mem_cons] at ho hf
    rw [List.map_cons, List.filter_cons, List.filter_cons, ih ho.2 hf.2, ho.1]
    by_cases hn : n.owner = owner
    · have hno : (n.owner == other) = false := by simpa [hn] using hne.symm
      simp [hno]
    · rw [hf.1 hn]

/-- Only nodes of the owner leave. -/
lemma filterNodes {p : Node → Bool} (hp : ∀ n ∈ t.nodes, n.owner ≠ owner → p n = true) :
    LeavesOthers owner t { t with nodes := t.nodes.filter p } := by
  refine withNodes fun other hne => ?_
  rw [List.filter_filter]
  refine List.filter_congr fun n hn => ?_
  by_cases ho : n.owner = other
  · rw [hp n hn (ho ▸ hne), Bool.and_true]
  · simp [ho]

/-- Only blobs of the owner are linked. -/
lemma insertLinks (hk : t.Keyed) {ls : List Link} (ho : ∀ l ∈ ls, t.ownsBlob owner l.blob = true)
    (hi : t.insertLinks ls = .ok t') : LeavesOthers owner t t' := by
  rw [eq_of_insertLinks hi]
  intro other hne
  rw [only_withLinks, List.filter_append, List.filter_eq_nil_iff.2 fun l hl => ?_,
    List.nil_append]
  · rfl
  · rw [hk.ownsBlob_eq_false (ho l (List.mem_reverse.1 hl)) hne]
    simp

/-- Only links to blobs of the owner are dropped. -/
lemma dropLinks (hk : t.Keyed) {p : Link → Bool}
    (hp : ∀ l ∈ t.links, p l = true → t.ownsBlob owner l.blob = true) :
    LeavesOthers owner t (t.dropLinks p) := fun other hne => by
  rw [← dropLinks_only]
  refine dropLinks_of_none fun l hl => ?_
  obtain ⟨hl, ho⟩ := List.mem_filter.1 hl
  rw [Bool.eq_false_iff]
  intro hpl
  rw [hk.ownsBlob_eq_false (hp l hl hpl) hne] at ho
  cases ho

/-- A new blob of the owner, with its link. -/
lemma consVersion {b : Blob} {l : Link} (ho : b.owner = owner) (hb : t.hasBlob b.id = false)
    (hl : l.blob = b.id) :
    LeavesOthers owner t { t with blobs := b :: t.blobs, links := l :: t.links } := by
  intro other hne
  have howns (blob : BlobId) :
      ownsBlob { t with blobs := b :: t.blobs, links := l :: t.links } other blob =
        t.ownsBlob other blob := by
    have hbo : (b.owner == other) = false := by simpa [ho] using hne.symm
    simp only [ownsBlob, List.any_cons, hbo, Bool.and_false, Bool.false_or]
  have hnew : t.ownsBlob other l.blob = false := by
    rw [Bool.eq_false_iff]
    intro h
    rw [hl] at h
    rw [hasBlob_of_ownsBlob h] at hb
    cases hb
  have hbo : (b.owner == other) = false := by simpa [ho] using hne.symm
  simp only [only, howns, List.filter_cons, hnew, hbo]
  simp

/-- Only the owner's part of the ledger changes. -/
lemma withPending {pending : List PendingDelete} (h : ∀ other, other ≠ owner →
    pending.filter (fun p => p.owner == other) = t.pending.filter fun p => p.owner == other) :
    LeavesOthers owner t { t with pending := pending } := fun other hne =>
  congrArg (fun pending => { t.only other with pending := pending }) (h other hne)

/-- New entries of the ledger leave the other owners alone. -/
lemma queueDeletes (time : Instant) (blobs : List BlobId) (t : Tables) :
    LeavesOthers owner t (t.queueDeletes time owner blobs) := by
  induction blobs generalizing t with
  | nil => exact refl owner t
  | cons blob rest ih =>
    unfold Tables.queueDeletes
    split
    · exact ih t
    · refine trans (withPending fun other hne => ?_) (ih _)
      rw [List.filter_cons, if_neg (by simpa using hne.symm)]

/-- Entries that are cleared leave the other owners alone. -/
lemma clearDeletes (blobs : List BlobId) (t : Tables) :
    LeavesOthers owner t (t.clearDeletes owner blobs).2 := by
  refine withPending fun other hne => ?_
  rw [List.filter_filter]
  refine List.filter_congr fun p _ => ?_
  by_cases ho : p.owner = other
  · have hpo : (p.owner == owner) = false := by simpa [ho] using hne
    simp [hpo]
  · simp [ho]

/-- **Statements change the rows of their owner only**, whatever they are asked for. -/
theorem run (hk : t.Keyed) (hc : t.Counted) (fresh : Fresh) (owner : OwnerId) (s : Statement) :
    LeavesOthers owner t (s.run fresh owner t).2 := by
  cases s with
  | createNode path kind =>
    change LeavesOthers owner t (t.createNode _ _ owner path kind).2
    rcases createNode_cases owner (fresh.now 0) t (fresh.nodeId 0) path kind with e | ⟨-, hi⟩
    · rw [e]
      exact refl owner t
    · exact insertNode rfl hi
  | moveFile node target =>
    change LeavesOthers owner t (t.moveFile owner node target).2
    rcases moveFile_cases owner node target t with e | ⟨hf, -, -, -, e⟩ <;> rw [e]
    · exact refl owner t
    · obtain ⟨f, hf, hid, ho, -⟩ := hasKind_iff.1 hf
      refine mapNodes (fun n _ => by split <;> rfl) fun n hn hne => if_neg fun e => hne ?_
      rw [hk.nodes.eq_of_id hn hf ((beq_iff_eq.1 e).trans hid.symm), ho]
  | moveDirectory node target =>
    change LeavesOthers owner t (t.moveDirectory owner node target).2
    rcases moveDirectory_cases owner node target t with
      e | ⟨source, nodes, -, -, -, -, hr, e⟩ <;> rw [e]
    · exact refl owner t
    · rw [eq_of_relocate hr]
      refine mapNodes (fun n _ => by rw [moved_eq]) fun n hn hne => ?_
      rw [moved_subtree hk.nodes hn, if_neg fun h => hne h.1]
  | copyFile node target =>
    change LeavesOthers owner t (t.copyFile _ _ owner node target).2
    rcases copyFile_cases owner (fresh.now 0) node target t (fresh.nodeId 0) with e | ⟨-, -, hi⟩
    · rw [e]
      exact refl owner t
    · exact insertNode rfl hi
  | copyDirectory node target =>
    change LeavesOthers owner t (t.copyDirectory _ _ owner node target).2
    rcases copyDirectory_cases owner (fresh.now 0) node target t fresh.nodeId with
      e | ⟨source, -, -, -, -, -, hi⟩
    · rw [e]
      exact refl owner t
    · exact insertNodes (fun n hn => (Local.mem_rowsOf _ _ hn).1) hi
  | removeLeaf node =>
    change LeavesOthers owner t (t.removeLeaf owner node).2
    rcases removeLeaf_cases owner node t with e | ⟨top, hr, -, e⟩ <;> rw [e]
    · exact refl owner t
    · obtain ⟨htop, -, ho, -⟩ := mem_of_removable? hr
      refine filterNodes fun n hn hne => bne_iff_ne.2 fun e => hne ?_
      rw [hk.nodes.eq_of_id hn htop e, ho]
  | removeSubtree node =>
    change LeavesOthers owner t (t.removeSubtree owner node).2
    rcases removeSubtree_cases owner node t with e | ⟨top, -, e⟩ <;> rw [e]
    · exact refl owner t
    · refine filterNodes fun n _ hne => ?_
      simp [hne]
  | addVersion node id info =>
    change LeavesOthers owner t (t.addVersion _ _ owner node _ info).2
    rcases hc.addVersion_eq owner (fresh.now 1) (fresh.now 0) node (id.getD fresh.blobId) info with
      ⟨_, -, e⟩ | ⟨-, -, hb, e⟩ <;> rw [e]
    · exact refl owner t
    · exact consVersion rfl hb rfl
  | link node id =>
    change LeavesOthers owner t (t.link _ owner node id).2
    rcases link_cases owner (fresh.now 0) node id t with e | ⟨ho, -, hl, e⟩ <;> rw [e]
    · exact refl owner t
    · have hi : t.insertLinks [⟨node, id, fresh.now 0⟩] =
          .ok { t with links := ⟨node, id, fresh.now 0⟩ :: t.links } := by
        simp [Tables.insertLinks, insertLink, hl]
      refine insertLinks hk (fun l hl => ?_) hi
      rwa [List.mem_singleton.1 hl]
  | unlink node id =>
    change LeavesOthers owner t (t.unlink owner node id).2
    rcases unlink_cases owner node id t with e | ⟨-, ho, e⟩ <;> rw [e]
    · exact refl owner t
    · refine dropLinks hk fun l _ hp => ?_
      simp only [Bool.and_eq_true, beq_iff_eq] at hp
      rwa [hp.2]
  | unlinkAll node =>
    refine dropLinks hk fun l _ hp => ?_
    simp only [Bool.and_eq_true] at hp
    exact hp.2
  | linkNewest source target =>
    change LeavesOthers owner t (t.linkNewest _ owner source target).2
    rcases linkNewest_cases owner (fresh.now 0) source target t with e | ⟨-, hi⟩
    · rw [e]
      exact refl owner t
    · refine insertLinks hk (fun l hl => ?_) hi
      obtain ⟨v, hv, rfl⟩ := List.mem_map.1 hl
      exact ownsBlob_of_mem_versionsOf (mem_versionsOf_of_mem_newestVersions hv)
  | linkAll source target =>
    change LeavesOthers owner t (t.linkAll _ owner source target).2
    rcases linkAll_cases owner (fresh.now 0) source target t with e | ⟨-, hi⟩
    · rw [e]
      exact refl owner t
    · refine insertLinks hk (fun l hl => ?_) hi
      obtain ⟨v, hv, rfl⟩ := List.mem_map.1 hl
      exact ownsBlob_of_mem_versionsOf hv
  | queueDeletes blobs => exact queueDeletes _ blobs t
  | clearDeletes blobs => exact clearDeletes blobs t
  | _ => exact refl owner t

end LeavesOthers

end VersionedTree.Tables
