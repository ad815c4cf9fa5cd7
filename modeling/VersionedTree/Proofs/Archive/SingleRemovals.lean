import VersionedTree.Proofs.Archive.Removals

/-!
# Nodes that are removed one by one

A node can be removed with all that is below it at once, or its nodes can be removed one by one,
children before their parents. The first way takes the nodes away in one statement and unlinks them
afterwards; the second one is a transaction and a release for every node. In each of its states the
nodes form a forest, so that a node without children has nothing below it and may be removed. Both
ways end alike: nodes and links that leave in groups leave the same as all of them at once, and a
blob is orphaned by the removal that takes its last link.

## Main definitions

* `VersionedTree.Archive.removeEach` — removals of single nodes in turn.

## Main results

* `VersionedTree.Tables.IsForest.alone_of_childless` — nothing is below a node without children.
* `VersionedTree.Archive.Intact.removed_each` — the outcome of single removals.
* `VersionedTree.Archive.remove_each_eq_remove` — both ways after every history.
-/

set_option autoImplicit false

namespace VersionedTree

namespace Tables

variable {t t' : Tables} {owner : OwnerId} {n : Node} {id : NodeId} {ids : List NodeId}

/-! ## Nodes without children -/

/-- **Nothing is below a node without children.**

**Proof sketch.** Induction on the length of the place below. Its parent holds a node, which is the
one without children, or is below it as well. -/
theorem IsForest.alone_of_childless (h : t.IsForest) (hn : n ∈ t.nodes)
    (hnone : ∀ m ∈ t.nodes, m.owner = n.owner → m.path.parent ≠ some n.path) :
    ∀ m ∈ t.nodes, m.owner = n.owner → n.path.covers m.path = true → m = n := by
  intro m hm ho hc
  induction hlen : m.path.chars.length using Nat.strong_induction_on generalizing m with
  | _ k ih =>
    subst hlen
    by_contra hne
    have hpath : n.path ≠ m.path := fun e => hne (h.keyed.nodes.places m hm n hn ho e.symm)
    obtain ⟨q, hq⟩ := Path.exists_parent (Path.isRoot_of_covers_ne hc hpath)
    obtain ⟨p, hp, hpo, rfl, -⟩ := h.attached m hm q hq
    have hbelow : n.path.covers p.path = true := (Path.covers_parent_iff hq).2 ⟨hc, hpath⟩
    obtain rfl := ih _ (Path.length_chars_parent_lt hq) p hp (hpo.trans ho) hbelow rfl
    exact hnone m hm ho hq

/-! ## Blobs that leave with the first of many nodes -/

/-- Only blobs and links matter to what is orphaned. -/
lemma orphansOf_congr (hb : t.blobs = t'.blobs) (hl : t.links = t'.links) :
    t.orphansOf owner ids = t'.orphansOf owner ids := by
  induction ids generalizing t t' with
  | nil => rfl
  | cons id rest ih =>
    have hfirst : (t.unlinkAll owner id).1 = (t'.unlinkAll owner id).1 := by
      simp only [unlinkAll, ownsBlob, isLinkedElsewhere, hb, hl]
    have hrest : (t.unlinkAll owner id).2.orphansOf owner rest =
        (t'.unlinkAll owner id).2.orphansOf owner rest := by
      apply ih <;> simp only [unlinkAll, dropLinks, ownsBlob, hb, hl]
    change orphans (t.unlinkAll owner id).1 ++ (t.unlinkAll owner id).2.orphansOf owner rest =
      orphans (t'.unlinkAll owner id).1 ++ (t'.unlinkAll owner id).2.orphansOf owner rest
    rw [hfirst, hrest]

/-- Nodes that are unlinked in two groups orphan the blobs of the first group before those of the
second one. -/
lemma unlinkNodes_append (owner : OwnerId) (ids ids' : List NodeId) (t : Tables) :
    Archive.unlinkNodes owner (ids ++ ids') t =
      (t.orphansOf owner ids ++ (Archive.unlinkNodes owner ids t).2.orphansOf owner ids',
        (Archive.unlinkNodes owner ids' (Archive.unlinkNodes owner ids t).2).2) := by
  induction ids generalizing t with
  | nil => rfl
  | cons id rest ih =>
    have hrest := ih (t.unlinkAll owner id).2
    rw [List.cons_append, Archive.unlinkNodes]
    simp only [hrest, orphansOf, Archive.unlinkNodes, List.append_assoc]

/-- **The blobs that two groups of nodes leave orphaned** are those of the first one, and those of
the second one in the tables without the first one. -/
theorem Sound.orphansOf_append (h : t.Sound)
    (hids : t.OwnsNodes owner ids) (ids' : List NodeId) :
    t.orphansOf owner (ids ++ ids') =
      t.orphansOf owner ids ++ (t.without ids).orphansOf owner ids' := by
  have hsecond : (Archive.unlinkNodes owner ids t).2.orphansOf owner ids' =
      (t.without ids).orphansOf owner ids' := by
    rw [h.counted.unlinkNodes_eq (h.ownsBlob_of_mem hids)]
    exact orphansOf_congr rfl rfl
  rw [← hsecond, orphansOf, unlinkNodes_append]

end Tables

namespace Archive

/-! ## Groups of removals -/

/-- What removals do that together take away these nodes of an owner: they orphan what the nodes
leave orphaned, and leave the tables without the nodes. Blobs whose deletions fail are pending and
enter the ledger, and the payloads of the others are gone. The times of entries are left open. -/
structure Removed (b : Backend) (owner : OwnerId) (ids : List NodeId) (rs : List Removal)
    (a a' : Archive) : Prop where
  removed : rs.flatMap Removal.removed = ids
  orphaned : rs.flatMap Removal.orphaned = a.tables.orphansOf owner ids
  pending : rs.flatMap Removal.pending =
    (rs.flatMap Removal.orphaned).filter fun blob => b.refuses ⟨owner, blob⟩
  tables : a'.tables = { a.tables.without ids with pending := a'.tables.pending }
  ledger : a'.tables.pending.map PendingDelete.key =
    ((rs.flatMap Removal.pending).map (Key.mk owner)).reverse ++
      a.tables.pending.map PendingDelete.key
  payloads : a'.payloads = a.payloads.without (((rs.flatMap Removal.orphaned).filter fun blob =>
    !b.refuses ⟨owner, blob⟩).map (Key.mk owner))

namespace Removed

variable {a a' a'' : Archive} {b : Backend} {owner : OwnerId} {ids ids' : List NodeId}
  {rs rs' : List Removal}

/-- Nothing is removed. -/
lemma nil (b : Backend) (owner : OwnerId) (a : Archive) : Removed b owner [] [] a a where
  removed := rfl
  orphaned := rfl
  pending := rfl
  tables := by rw [Tables.without_nil]
  ledger := rfl
  payloads := (Payloads.without_nil _).symm

/-- **Two groups of removals** are one. -/
theorem append (hs : a.tables.Sound)
    (hids : a.tables.OwnsNodes owner ids) (h : Removed b owner ids rs a a')
    (h' : Removed b owner ids' rs' a' a'') :
    Removed b owner (ids ++ ids') (rs ++ rs') a a'' := by
  have horphaned : a'.tables.orphansOf owner ids' =
      (a.tables.without ids).orphansOf owner ids' := by
    rw [h.tables]
    exact Tables.orphansOf_congr rfl rfl
  refine ⟨?_, ?_, ?_, ?_, ?_, ?_⟩
  · rw [List.flatMap_append, h.removed, h'.removed]
  · rw [List.flatMap_append, h.orphaned, h'.orphaned, hs.orphansOf_append hids, horphaned]
  · rw [List.flatMap_append, List.flatMap_append, List.filter_append, h.pending, h'.pending]
  · rw [h'.tables, ← hs.counted.without_without, h.tables]
    rfl
  · rw [h'.ledger, h.ledger, List.flatMap_append, List.map_append, List.reverse_append,
      List.append_assoc]
  · rw [h'.payloads, h.payloads, ← Payloads.without_append, List.flatMap_append,
      List.filter_append, List.map_append]

/-- **Two ways to remove the same nodes** end alike, whatever their order. -/
theorem agree (hs : a.tables.Sound)
    (hids : a.tables.OwnsNodes owner ids) (h : Removed b owner ids rs a a')
    (h' : Removed b owner ids' rs' a a'') (hperm : ids'.Perm ids) :
    (rs'.flatMap Removal.orphaned).Perm (rs.flatMap Removal.orphaned) ∧
    (rs'.flatMap Removal.pending).Perm (rs.flatMap Removal.pending) ∧
    a''.tables.nodes = a'.tables.nodes ∧ a''.tables.links = a'.tables.links ∧
    a''.tables.blobs = a'.tables.blobs ∧ a''.payloads = a'.payloads ∧
    (a''.tables.pending.map PendingDelete.key).Perm (a'.tables.pending.map PendingDelete.key) := by
  have horphaned : (rs'.flatMap Removal.orphaned).Perm (rs.flatMap Removal.orphaned) := by
    rw [h.orphaned, h'.orphaned]
    exact (hs.unlinkNodes_perm hids hperm).1
  have hpending : (rs'.flatMap Removal.pending).Perm (rs.flatMap Removal.pending) := by
    rw [h.pending, h'.pending]
    exact horphaned.filter _
  have hwithout : a.tables.without ids' = a.tables.without ids :=
    Tables.without_congr fun _ => hperm.mem_iff
  refine ⟨horphaned, hpending, ?_, ?_, ?_, ?_, ?_⟩
  · rw [h.tables, h'.tables, hwithout]
  · rw [h.tables, h'.tables, hwithout]
  · rw [h.tables, h'.tables, hwithout]
  · rw [h.payloads, h'.payloads]
    exact Payloads.without_congr fun _ => ((horphaned.filter _).map _).mem_iff
  · rw [h.ledger, h'.ledger]
    refine List.Perm.append_right _ ?_
    exact (List.reverse_perm _).trans ((hpending.map _).trans (List.reverse_perm _).symm)

end Removed

/-! ## Single removals -/

/-- Removals of single nodes in turn, each with what it takes from outside. -/
def removeEach (owner : OwnerId) :
    List (Env × Node) → Archive → List (Except ArchiveError Removal) × Archive
  | [], a => ([], a)
  | (env, node) :: rest, a =>
    let (result, a') := a.remove env owner node false
    let (results, a'') := removeEach owner rest a'
    (result :: results, a'')

/-- May these nodes be removed one by one? They are different nodes of the owner, none of them a
root, all children of these nodes are among them, and children come before their parents. -/
structure BottomUp (t : Tables) (owner : OwnerId) (ns : List Node) : Prop where
  stored : ∀ n ∈ ns, n ∈ t.nodes ∧ n.owner = owner ∧ n.kind ≠ .root
  distinct : ns.Nodup
  children : ∀ n ∈ ns, ∀ m ∈ t.nodes, m.owner = owner → m.path.parent = some n.path → m ∈ ns
  order : ns.Pairwise fun m n => n.path.parent ≠ some m.path

namespace BottomUp

variable {t t' : Tables} {owner : OwnerId} {n : Node} {ns : List Node}

/-- The first node may be removed. -/
lemma removable (h : BottomUp t owner (n :: ns)) (hf : t.IsForest) : t.Removable n false := by
  obtain ⟨hn, ho, hkind⟩ := h.stored n List.mem_cons_self
  refine ⟨hn, hkind, .inr (hf.alone_of_childless hn ?_)⟩
  intro m hm hmo hparent
  rcases List.mem_cons.1 (h.children n List.mem_cons_self m hm (hmo.trans ho) hparent) with
    rfl | hmem
  · exact Path.ne_of_parent hparent rfl
  · exact (List.pairwise_cons.1 h.order).1 m hmem hparent

/-- The other nodes may be removed after the first one. -/
lemma tail (h : BottomUp t owner (n :: ns)) (hk : t.Keyed)
    (hnodes : t'.nodes = (t.without [n.id]).nodes) : BottomUp t' owner ns := by
  have hstays {m : Node} : m ∈ t'.nodes ↔ m ∈ t.nodes ∧ m ≠ n := by
    obtain ⟨hn, -⟩ := h.stored n List.mem_cons_self
    rw [hnodes, Tables.mem_nodes_without, List.mem_singleton, and_congr_right_iff]
    intro hm
    exact not_congr ⟨hk.nodes.eq_of_id hm hn, congrArg Node.id⟩
  have hfirst := (List.nodup_cons.1 h.distinct).1
  refine ⟨?_, (List.nodup_cons.1 h.distinct).2, ?_, (List.pairwise_cons.1 h.order).2⟩
  · intro m hm
    obtain ⟨hmem, howner, hkind⟩ := h.stored m (List.mem_cons_of_mem _ hm)
    exact ⟨hstays.2 ⟨hmem, fun e => hfirst (e ▸ hm)⟩, howner, hkind⟩
  · intro p hp m hm ho hparent
    obtain ⟨hm, hne⟩ := hstays.1 hm
    exact (List.mem_cons.1 (h.children p (List.mem_cons_of_mem _ hp) m hm ho hparent)).resolve_left
      hne

end BottomUp

/-- The nodes at and below a node that is no root may be removed in every order in which children
come before their parents. -/
lemma bottomUp_subtree {t : Tables} (h : t.IsForest) {top : Node} (htop : top ∈ t.nodes)
    (hkind : top.kind ≠ .root) {ns : List Node} (hperm : ns.Perm (t.subtree top.owner top.path))
    (horder : ns.Pairwise fun m n => n.path.parent ≠ some m.path) : BottomUp t top.owner ns := by
  have hsubtree := h.keyed.nodup_subtree top.owner top.path
  have hmem {n : Node} :
      n ∈ ns ↔ n ∈ t.nodes ∧ n.owner = top.owner ∧ top.path.covers n.path = true := by
    rw [hperm.mem_iff, Tables.mem_subtree]
  refine ⟨?_, hperm.nodup_iff.2 hsubtree, ?_, horder⟩
  · intro n hn
    obtain ⟨hn, ho, hc⟩ := hmem.1 hn
    refine ⟨hn, ho, ?_⟩
    rw [ne_eq, h.isRoot_path hn, Path.isRoot_below (h.path_ne_root htop hkind) hc]
    exact Bool.false_ne_true
  · intro n hn m hm ho hparent
    obtain ⟨-, -, hc⟩ := hmem.1 hn
    exact hmem.2 ⟨hm, ho, Path.covers_trans hc (Path.covers_of_parent hparent)⟩

namespace Intact

variable {a : Archive} {used : List BlobId} {owner : OwnerId} {b : Backend} {top node : Node}
  {recursive : Bool}

/-- One removal that is accepted. -/
lemma removed (h : a.Intact used) (ht : a.tables.Removable top recursive) {env : Env}
    (hid : node.id = top.id) (hrefuses : ∀ k, env.backend.refuses k = b.refuses k) :
    ∃ r, (a.remove env top.owner node recursive).1 = .ok r ∧
      Removed b top.owner (a.tables.subtreeIds top) [r] a
        (a.remove env top.owner node recursive).2 := by
  have hbackend : env.backend.refuses = b.refuses := funext hrefuses
  rw [h.remove_eq ht env hid, hbackend]
  refine ⟨_, rfl, List.flatMap_singleton _ _, List.flatMap_singleton _ _, ?_, rfl, ?_, ?_⟩
  · rw [List.flatMap_singleton, List.flatMap_singleton]
  · rw [List.flatMap_singleton]
    simp only [PendingDelete.entries, List.map_append, List.map_reverse, List.map_map]
    rfl
  · rw [List.flatMap_singleton]

/-- **Single removals**, children before their parents, all succeed.

**Proof sketch.** Induction on the nodes. The first one has no children left, so that it may be
removed, and leaves an archive that is intact and from which the others may be removed. -/
theorem removed_each (h : a.Intact used) {calls : List (Env × Node)}
    (hcalls : BottomUp a.tables owner (calls.map Prod.snd))
    (hrefuses : ∀ call ∈ calls, ∀ k, call.1.backend.refuses k = b.refuses k) :
    ∃ rs : List Removal, (removeEach owner calls a).1 = rs.map .ok ∧
      Removed b owner (calls.map fun call => call.2.id) rs a (removeEach owner calls a).2 := by
  induction calls generalizing a with
  | nil => exact ⟨[], rfl, .nil b owner a⟩
  | cons call rest ih =>
    obtain ⟨env, n⟩ := call
    rw [List.map_cons] at hcalls
    rw [List.forall_mem_cons] at hrefuses
    obtain ⟨hn, rfl, -⟩ := hcalls.stored n List.mem_cons_self
    have hremovable := hcalls.removable h.sound.forest
    obtain ⟨r, hr, hone⟩ := h.removed hremovable rfl hrefuses.1
    rw [h.sound.keyed.subtreeIds_of_alone hn (hremovable.alone.resolve_left (by simp))] at hone
    have hnodes : (a.remove env n.owner n false).2.tables.nodes =
        (a.tables.without [n.id]).nodes := by rw [hone.tables]
    obtain ⟨rs, hrs, hrest⟩ := ih (h.remove env n.owner n false)
      (hcalls.tail h.sound.keyed hnodes) hrefuses.2
    refine ⟨r :: rs, ?_, ?_⟩
    · simp only [removeEach, hr, hrs, List.map_cons]
    · refine hone.append h.sound ?_ hrest
      intro id hid
      exact ⟨n, hn, (List.mem_singleton.1 hid).symm, rfl⟩

end Intact

/-- **A recursive removal is that of its nodes one by one.** After every history whose blob
identifiers are taken once only, let a stored node be given that is no root, the nodes at and below
it in an order in which children come before their parents, and a set of blobs whose deletions fail.
Then the removals of the single nodes in this order all succeed, and so does the recursive removal
of the given node. Both end with the same nodes, links, blobs and payloads, and with the same
payloads in the ledger. What the single removals report as orphaned is, taken together, what the
recursive one does, up to the order, and so is what they report as pending.

**Proof sketch.** Both ways take away the same nodes. What is left, and what is orphaned, depends
on these nodes and not on their order. -/
theorem remove_each_eq_remove (history : List Step)
    (hfresh : (history.filterMap Step.newBlob?).Nodup) (top node : Node)
    (htop : top ∈ (empty.after history).tables.nodes) (hkind : top.kind ≠ .root)
    (hid : node.id = top.id) (env : Env) (calls : List (Env × Node))
    (hnodes : (calls.map Prod.snd).Perm
      ((empty.after history).tables.subtree top.owner top.path))
    (horder : (calls.map Prod.snd).Pairwise fun m n => n.path.parent ≠ some m.path)
    (hrefuses : ∀ call ∈ calls, ∀ k, call.1.backend.refuses k = env.backend.refuses k) :
    let a := empty.after history
    let each := removeEach top.owner calls a
    let whole := a.remove env top.owner node true
    ∃ (rs : List Removal) (r : Removal), each.1 = rs.map .ok ∧ whole.1 = .ok r ∧
      each.2.tables.nodes = whole.2.tables.nodes ∧ each.2.tables.links = whole.2.tables.links ∧
      each.2.tables.blobs = whole.2.tables.blobs ∧ each.2.payloads = whole.2.payloads ∧
      (each.2.tables.pending.map PendingDelete.key).Perm
        (whole.2.tables.pending.map PendingDelete.key) ∧
      (rs.flatMap Removal.orphaned).Perm r.orphaned ∧
      (rs.flatMap Removal.pending).Perm r.pending := by
  intro a each whole
  have h : a.Intact ([] ++ history.filterMap Step.newBlob?) :=
    Intact.empty.after history (by rwa [List.nil_append])
  have hcalls := bottomUp_subtree h.sound.forest htop hkind hnodes horder
  obtain ⟨rs, hrs, heach⟩ := h.removed_each hcalls hrefuses
  have hremovable : a.tables.Removable top true := ⟨htop, hkind, .inl rfl⟩
  obtain ⟨r, hr, hwhole⟩ := h.removed hremovable hid fun _ => rfl
  have hids : (calls.map fun call => call.2.id).Perm (a.tables.subtreeIds top) := by
    have hperm := hnodes.map Node.id
    rwa [List.map_map] at hperm
  obtain ⟨horphaned, hpending, hn, hl, hb, hp, hledger⟩ :=
    hwhole.agree h.sound (Tables.ownsNodes_subtreeIds _ _) heach hids
  rw [List.flatMap_singleton] at horphaned hpending
  exact ⟨rs, r, hrs, hr, hn, hl, hb, hp, hledger, horphaned, hpending⟩

end Archive

/-! ### Four nodes one by one -/

namespace Step

/-- The first directory, as it is stored. -/
def storedDirectory : Node := ⟨⟨.ofNat 200⟩, .dir, ⟨"d"⟩, ⟨.ofNat 1⟩, ⟨200⟩⟩

/-- Removals of this directory and of what is below it, children first. -/
def nestedRemovals (env : Env) : List (Env × Node) :=
  let owner : OwnerId := ⟨.ofNat 1⟩
  [(env, ⟨⟨.ofNat 400⟩, .file, ⟨"d.e.f"⟩, owner, ⟨400⟩⟩),
    (env, ⟨⟨.ofNat 300⟩, .dir, ⟨"d.e"⟩, owner, ⟨300⟩⟩),
    (env, ⟨⟨.ofNat 500⟩, .file, ⟨"d.g"⟩, owner, ⟨500⟩⟩),
    (env, storedDirectory)]

end Step

namespace Archive

/-- Two files share a blob, which is orphaned by the removal of the second one. Its deletion fails,
so that it is pending on both ways. -/
theorem remove_each_eq_remove_nested :
    let a := empty.after Step.nestDirectories
    let owner := Step.storedDirectory.owner
    let env := Env.refusing ⟨.ofNat 4⟩ 7
    ∃ (rs : List Removal) (r : Removal),
      (removeEach owner (Step.nestedRemovals env) a).1 = rs.map .ok ∧
      (a.remove env owner Step.outerDirectory true).1 = .ok r ∧ r.pending = [⟨.ofNat 4⟩] ∧
      (rs.flatMap Removal.orphaned).Perm r.orphaned ∧
      (rs.flatMap Removal.pending).Perm r.pending := by
  intro a owner env
  have hfresh : (Step.nestDirectories.filterMap Step.newBlob?).Nodup := by decide +kernel
  have htop : Step.storedDirectory ∈ a.tables.nodes := by decide +kernel
  have hnodes : ((Step.nestedRemovals env).map Prod.snd).Perm
      (a.tables.subtree Step.storedDirectory.owner Step.storedDirectory.path) := by
    decide +kernel
  have horder : ((Step.nestedRemovals env).map Prod.snd).Pairwise
      fun m n => n.path.parent ≠ some m.path := by
    decide +kernel
  have hrefuses : ∀ call ∈ Step.nestedRemovals env, ∀ k,
      call.1.backend.refuses k = env.backend.refuses k := by
    simp [Step.nestedRemovals]
  obtain ⟨rs, r, hrs, hr, -, -, -, -, -, horphaned, hpending⟩ :=
    remove_each_eq_remove Step.nestDirectories hfresh Step.storedDirectory Step.outerDirectory htop
      (by decide) rfl env (Step.nestedRemovals env) hnodes horder hrefuses
  have hone : ((a.remove env owner Step.outerDirectory true).1.map Removal.pending) =
      .ok [⟨.ofNat 4⟩] := by decide +kernel
  rw [hr] at hone
  exact ⟨rs, r, hrs, hr, Except.ok.inj hone, horphaned, hpending⟩

end Archive

end VersionedTree
