import Mathlib.Data.List.Chain
import VersionedTree.Proofs.Archive.Acceptance
import VersionedTree.Proofs.Archive.Directories
import VersionedTree.Proofs.Tables.Subtrees

/-!
# New directories, all or none

A directory that is asked for together with the missing ones above it is made one transaction after
the other. What is in the way of one of them is in the way of the first: nothing is below a place
without a node, so the places that are missing are the last ones of those that lead to the path,
and each of them but the first lies in the directory made before.

## Main definitions

* `VersionedTree.Tables.isFilled` — does an owner have a node at a place?
* `VersionedTree.Archive.adding` — an archive with more nodes.
* `VersionedTree.Archive.newDirectories` — directories under new identifiers.

## Main results

* `VersionedTree.Path.steps_chain` — each place that leads to a path is the parent of the next one.
* `VersionedTree.Archive.createDirectory_eq` — a directory in a container, at a free place.
* `VersionedTree.Archive.createMissing_of_missing` — free places that are filled in turn.
* `VersionedTree.Archive.makeDirectory_eq` — all missing directories are made, or none.
* `VersionedTree.Command.directories_all_or_none` — what the user is told about it.
-/

set_option autoImplicit false

namespace VersionedTree

/-! ## The places that lead to a path -/

namespace Path

variable {p q r : Path}

/-- The places above a path are its parent and the places above this one. -/
lemma ancestors_of_parent (h : p.parent = some q) : p.ancestors = q :: q.ancestors := by
  rw [ancestors]
  split
  · next hnone => rw [h] at hnone; cases hnone
  · next r hr =>
    rw [h] at hr
    obtain rfl := Option.some.inj hr
    rfl

/-- The places that lead to a path lead to its parent, and to it. -/
lemma steps_of_parent (h : p.parent = some q) (hq : q.isRoot = false) :
    p.steps = q.steps ++ [p] := by
  simp [steps, ancestors_of_parent h, hq]

/-- Nothing else leads to a place at the top of the tree. -/
lemma steps_of_parent_root (h : p.parent = some q) (hq : q.isRoot = true) : p.steps = [p] := by
  have hnone : q.parent = none := by simp [parent, hq]
  have hanc : q.ancestors = [] := by
    rw [ancestors]
    split
    · rfl
    · next r hr =>
      rw [hnone] at hr
      cases hr
  simp [steps, ancestors_of_parent h, hq, hanc]

/-- **Each place that leads to a path** is the parent of the next one, and the root that of the
first.

**Proof sketch.** Induction on the length of the path: what leads to its parent comes before it. -/
theorem steps_chain (hp : p.isRoot = false) :
    (root :: p.steps).IsChain fun q r => r.parent = some q := by
  induction hlen : p.chars.length using Nat.strong_induction_on generalizing p with
  | _ k ih =>
    subst hlen
    obtain ⟨q, hq⟩ := exists_parent hp
    cases hr : q.isRoot with
    | true =>
      obtain rfl := eq_root hr
      rw [steps_of_parent_root hq hr]
      exact List.isChain_pair.2 hq
    | false =>
      have hchain := ih _ (length_chars_parent_lt hq) hr rfl
      rw [steps_of_parent hq hr, ← List.cons_append]
      refine hchain.append (List.isChain_singleton p) ?_
      intro x hx y hy
      have hlast : (root :: q.steps).getLast? = some q := by
        rw [steps, ← List.cons_append, List.getLast?_concat]
      rw [hlast] at hx
      obtain rfl : q = x := Option.some.inj hx
      obtain rfl : p = y := Option.some.inj hy
      exact hq

/-- What is above an ancestor is above the place. -/
lemma ancestors_pairwise (p : Path) : (p :: p.ancestors).Pairwise fun q r => r ∈ q.ancestors := by
  fun_induction ancestors p with
  | case1 p h => exact List.pairwise_singleton _ _
  | case2 p q h ih =>
    refine List.pairwise_cons.2 ⟨fun r hr => ?_, ih⟩
    rwa [ancestors_of_parent h]

/-- The places that lead to a path come in the order from the top. -/
lemma steps_pairwise (p : Path) : p.steps.Pairwise fun q r => q ∈ r.ancestors := by
  have hreverse : p.steps = (p :: p.ancestors.filter (!·.isRoot)).reverse := by simp [steps]
  rw [hreverse, List.pairwise_reverse]
  exact p.ancestors_pairwise.sublist (List.filter_sublist.cons_cons p)

/-- The places that lead to a path other than the root are all but the root at or above it. -/
lemma mem_steps_iff (hp : p.isRoot = false) :
    q ∈ p.steps ↔ q.isRoot = false ∧ q.isAncestorOf p = true := by
  rw [steps, List.mem_append, List.mem_reverse, List.mem_filter, mem_ancestors, List.mem_singleton,
    isAncestorOf_eq_covers]
  constructor
  · rintro (⟨⟨hc, -⟩, hr⟩ | rfl)
    · exact ⟨by simpa using hr, hc⟩
    · exact ⟨hp, covers_refl q⟩
  · rintro ⟨hr, hc⟩
    by_cases e : q = p
    · exact .inr e
    · exact .inl ⟨⟨hc, e⟩, by simpa using hr⟩

end Path

/-! ## Places with and without a node -/

namespace Tables

variable {t : Tables} {owner : OwnerId} {p q : Path}

/-- Does the owner have a node at this place? -/
def isFilled (t : Tables) (owner : OwnerId) (path : Path) : Bool :=
  t.nodes.any fun n => n.owner == owner && n.path == path

/-- A place is filled by a node of the owner. -/
lemma isFilled_iff : t.isFilled owner p = true ↔ ∃ n ∈ t.nodes, n.owner = owner ∧ n.path = p := by
  simp [isFilled]

/-- A place is free if no node of the owner is there. -/
lemma isFilled_eq_false :
    t.isFilled owner p = false ↔ ∀ n ∈ t.nodes, n.owner = owner → n.path ≠ p := by
  simp [isFilled]

/-- **Nothing is below a place without a node.** -/
lemma IsForest.isFilled_of_covers (h : t.IsForest) (hc : q.covers p = true)
    (hp : t.isFilled owner p = true) : t.isFilled owner q = true := by
  obtain ⟨n, hn, rfl, rfl⟩ := isFilled_iff.1 hp
  by_cases e : q = n.path
  · exact isFilled_iff.2 ⟨n, hn, rfl, e.symm⟩
  · obtain ⟨m, hm, ho, hm', -⟩ := h.container_above hn hc e
    exact isFilled_iff.2 ⟨m, hm, ho, hm'⟩

/-- **The places that lead to a path** have nodes up to a place, and none from there on.

**Proof sketch.** The first place without a node is at or above all that follow, and its parent is
the place before it, or the root. -/
theorem IsForest.steps_split (h : t.IsForest) (hroot : t.isFilled owner .root = true) (p : Path) :
    (∀ q ∈ p.steps, t.isFilled owner q = true) ∨
      ∃ (filled : List Path) (above first : Path) (rest : List Path),
        p.steps = filled ++ first :: rest ∧ (∀ q ∈ filled, t.isFilled owner q = true) ∧
          t.isFilled owner above = true ∧ (∀ q ∈ first :: rest, t.isFilled owner q = false) ∧
          (above :: first :: rest).IsChain fun q r => r.parent = some q := by
  have hsplit := List.takeWhile_append_dropWhile (p := t.isFilled owner) (l := p.steps)
  have hfilled : ∀ q ∈ p.steps.takeWhile (t.isFilled owner), t.isFilled owner q = true :=
    fun q hq => List.mem_takeWhile_imp hq
  have hstop := List.head?_dropWhile_not (t.isFilled owner) p.steps
  cases hdrop : p.steps.dropWhile (t.isFilled owner) with
  | nil =>
    rw [hdrop, List.append_nil] at hsplit
    exact .inl (hsplit ▸ hfilled)
  | cons first rest =>
    set filled := p.steps.takeWhile (t.isFilled owner)
    rw [hdrop] at hsplit hstop
    have hfirst : t.isFilled owner first = false := hstop
    have hp : p.isRoot = false := by
      rw [Bool.eq_false_iff]
      intro hr
      obtain rfl := Path.eq_root hr
      have hmem : first ∈ Path.root.steps := hsplit ▸ by simp
      rcases Path.mem_steps hmem with rfl | hmem
      · rw [hroot] at hfirst
        cases hfirst
      · obtain ⟨hc, hne⟩ := Path.mem_ancestors.1 hmem
        exact hne (Path.eq_root (Path.isRoot_of_covers hc hr))
    have hbelow : ∀ q ∈ rest, first ∈ q.ancestors := by
      have hpairs := p.steps_pairwise
      rw [← hsplit, List.pairwise_append, List.pairwise_cons] at hpairs
      exact hpairs.2.1.1
    obtain ⟨above, habove⟩ : ∃ above, (Path.root :: filled).getLast? = some above :=
      ⟨_, List.getLast?_cons⟩
    have hchain := Path.steps_chain hp
    rw [← hsplit, ← List.cons_append, List.isChain_append] at hchain
    refine .inr ⟨filled, above, first, rest, hsplit.symm, hfilled, ?_, ?_, ?_⟩
    · rcases List.mem_cons.1 (List.mem_of_getLast? habove) with rfl | hmem
      · exact hroot
      · exact hfilled above hmem
    · refine List.forall_mem_cons.2 ⟨hfirst, fun q hq => ?_⟩
      rw [Bool.eq_false_iff]
      intro hf
      rw [h.isFilled_of_covers (Path.mem_ancestors.1 (hbelow q hq)).1 hf] at hfirst
      cases hfirst
    · exact List.isChain_cons_cons.2 ⟨hchain.2.2 above habove first rfl, hchain.2.1⟩

/-- A container at a place with a node is this node. -/
lemma IsForest.container_of_mem (h : t.IsForest) {m : Node} (hm : m ∈ t.nodes) :
    t.hasContainerAt m.owner (some m.path) = m.kind.isContainer := by
  rw [Bool.eq_iff_iff, hasContainerAt_some]
  constructor
  · rintro ⟨n, hn, ho, hp, hk⟩
    obtain rfl := h.keyed.nodes.places n hn m hm ho hp
    exact hk
  · intro hk
    exact ⟨m, hm, rfl, rfl, hk⟩

end Tables

namespace Archive

section Single

variable {a : Archive} {env : Env} {owner : OwnerId} {path : Path}

/-- A valid place with a node is resolved. -/
lemma resolve_of_isFilled (h : a.tables.Keyed) (hf : a.tables.isFilled owner path = true)
    (hv : path.Valid) : ∃ n, a.resolve owner path = .ok n := by
  obtain ⟨n, hn, rfl, rfl⟩ := Tables.isFilled_iff.1 hf
  exact ⟨n, resolve_of_mem h hn hv⟩

/-- A place without a node is not found, and the error shows the place. -/
lemma resolve_of_not_isFilled (hf : a.tables.isFilled owner path = false) :
    a.resolve owner path = .error (.notFound path.display) := by
  have hfind : (a.tables.nodes.find? fun n => n.owner == owner && n.path == path) = none := by
    rw [List.find?_eq_none]
    intro n hn
    simpa using Tables.isFilled_eq_false.1 hf n hn
  rw [resolve, Tables.nodeAt?, hfind]
  rfl

/-! ## One directory -/

/-- The archive with more nodes, which come in front. -/
def adding (rows : List Node) (a : Archive) : Archive :=
  { a with tables := { a.tables with nodes := rows ++ a.tables.nodes } }

/-- No rows make no difference. -/
@[simp] lemma adding_nil : a.adding [] = a := rfl

/-- Added rows come in front. -/
@[simp] lemma nodes_adding (rows : List Node) :
    (a.adding rows).tables.nodes = rows ++ a.tables.nodes := rfl

/-- Rows that are added later come further in front. -/
@[simp] lemma adding_adding (rows more : List Node) :
    (a.adding rows).adding more = a.adding (more ++ rows) := by
  simp [adding]

/-- References of links do not mind more nodes. -/
lemma referencesHold_adding (rows : List Node) (h : a.tables.referencesHold = true) :
    (a.adding rows).tables.referencesHold = true := by
  simp only [Tables.referencesHold, List.all_eq_true, Bool.and_eq_true] at h ⊢
  intro l hl
  obtain ⟨hnode, hblob⟩ := h l hl
  exact ⟨by rw [nodes_adding, List.any_append, hnode, Bool.or_true], hblob⟩

/-- **A node that may be created**, under a new identifier and at a free place, is added. -/
lemma createNode_eq {kind : Kind} (ha : a.Reachable) (hv : path.Valid)
    (hmay : a.tables.mayCreate owner path kind = true)
    (hfree : a.tables.isFilled owner path = false)
    (hid : ∀ n ∈ a.tables.nodes, n.id ≠ env.nodeId 0) :
    a.createNode env owner path kind =
      (.ok ⟨env.nodeId 0, kind, path, owner, env.now 0⟩,
        a.adding [⟨env.nodeId 0, kind, path, owner, env.now 0⟩]) := by
  set n : Node := ⟨env.nodeId 0, kind, path, owner, env.now 0⟩
  have hclash : a.tables.clashes n = false := by
    simp only [Tables.clashes, List.any_eq_false, Bool.or_eq_true, beq_iff_eq, Bool.and_eq_true,
      not_or, not_and]
    exact fun m hm => ⟨hid m hm, Tables.isFilled_eq_false.1 hfree m hm⟩
  have hinsert : a.tables.insertNode n = .ok (a.adding [n]).tables :=
    Tables.insertNode_eq_ok.2 ⟨Tables.isWellPlaced_of_mayCreate hmay, hclash, rfl⟩
  refine withTables_transact_of_ok a ?_ (referencesHold_adding [n] ha.referencesHold)
  simp only [Tables.createNode, hmay, if_true]
  rw [hinsert]
  exact congrArg (·, (a.adding [n]).tables) (Node.readBack_of_valid hv)

/-- A directory is refused in what is no container. -/
lemma createDirectory_refused (h : a.tables.hasContainerAt owner path.parent = false) :
    a.createDirectory env owner path = (.error (.insertFailure "tree"), a) := by
  have hstatement : a.tables.createNode (env.nodeId 0) (env.now 0) owner path .dir =
      (.error (.insertFailure "tree"), a.tables) := by
    simp [Tables.createNode, Tables.mayCreate, h]
  exact withTables_transact_of_error a hstatement

end Single

/-! ## Directories in turn -/

/-- The rows of new directories at the given places, the `k`-th surroundings first. -/
def newDirectories (env : Nat → Env) (owner : OwnerId) : Nat → List Path → List Node
  | _, [] => []
  | k, path :: rest =>
    ⟨(env k).nodeId 0, .dir, path, owner, (env k).now 0⟩ :: newDirectories env owner (k + 1) rest

section Missing

variable {a : Archive} {env : Nat → Env} {owner : OwnerId} {k : Nat} {places rest : List Path}
  {first above : Path}

/-- New directories are at the given places, in their order. -/
@[simp] lemma map_path_newDirectories (k : Nat) (places : List Path) :
    (newDirectories env owner k places).map Node.path = places := by
  induction places generalizing k with
  | nil => rfl
  | cons q rest ih => rw [newDirectories, List.map_cons, ih]

/-- New directories belong to the owner and are directories. -/
lemma of_mem_newDirectories {n : Node} (hn : n ∈ newDirectories env owner k places) :
    n.owner = owner ∧ n.kind = .dir := by
  induction places generalizing k with
  | nil => cases hn
  | cons q rest ih =>
    rcases List.mem_cons.1 hn with rfl | hn
    · exact ⟨rfl, rfl⟩
    · exact ih hn

/-- A free place that is in no container ends the run. -/
lemma createMissing_refused (hfree : a.tables.isFilled owner first = false)
    (h : a.tables.hasContainerAt owner first.parent = false) :
    createMissing env owner k (first :: rest) a =
      (.error ⟨first, .insertFailure "tree"⟩, a) := by
  rw [createMissing, resolve_of_not_isFilled hfree, createDirectory_refused h]

/-- When the first identifier of a supply is taken, the others are left. -/
lemma supplies_adding {ids : Nat → NodeId} {count : Nat} {rows : List Node}
    (h : a.tables.Supplies ids (count + 1)) (hrows : ∀ n ∈ rows, n.id = ids 0) :
    (a.adding rows).tables.Supplies (fun i => ids (i + 1)) count := by
  refine ⟨fun i hi j hj e => ?_, fun i hi n hn e => ?_⟩
  · exact Nat.succ.inj
      (h.distinct (i + 1) (Nat.succ_lt_succ hi) (j + 1) (Nat.succ_lt_succ hj) e)
  · rcases List.mem_append.1 hn with hn | hn
    · have hsame := h.distinct 0 (Nat.succ_pos _) (i + 1) (Nat.succ_lt_succ hi)
        ((hrows n hn).symm.trans e)
      omega
    · exact h.unused (i + 1) (Nat.succ_lt_succ hi) n hn e

/-- **Free places that are filled in turn**, each one inside the one before, all get directories.

**Proof sketch.** Induction on the places. The first one is in a container, so it gets a directory,
and this is the container of the next one. -/
theorem createMissing_of_missing (ha : a.Reachable)
    (habove : a.tables.hasContainerAt owner (some above) = true)
    (hchain : (above :: places).IsChain fun q r => r.parent = some q)
    (hnodup : places.Nodup) (hfree : ∀ q ∈ places, a.tables.isFilled owner q = false)
    (hv : ∀ q ∈ places, q.Valid)
    (hids : a.tables.Supplies (fun i => (env (k + i)).nodeId 0) places.length) :
    createMissing env owner k places a =
      (.ok (newDirectories env owner k places),
        a.adding (newDirectories env owner k places).reverse) := by
  induction places generalizing a k above with
  | nil => rfl
  | cons first rest ih =>
    obtain ⟨hparent, hchain⟩ := List.isChain_cons_cons.1 hchain
    obtain ⟨hfirst, hnodup⟩ := List.nodup_cons.1 hnodup
    rw [List.forall_mem_cons] at hfree hv
    set d : Node := ⟨(env k).nodeId 0, .dir, first, owner, (env k).now 0⟩ with hd
    have hmade : a.createDirectory (env k) owner first = (.ok d, a.adding [d]) := by
      refine createNode_eq ha hv.1 ?_ hfree.1 (hids.unused 0 (Nat.succ_pos _))
      simpa [Tables.mayCreate, hparent] using habove
    have hreach : (a.adding [d]).Reachable := by
      have hafter : (Step.mk (env k) owner (.createDirectory first)).apply a = a.adding [d] :=
        congrArg Prod.snd hmade
      exact hafter ▸ ha.step _
    have hinside : (a.adding [d]).tables.hasContainerAt owner (some first) = true :=
      Tables.hasContainerAt_some.2 ⟨d, List.mem_cons_self, rfl, rfl, rfl⟩
    have hstill : ∀ q ∈ rest, (a.adding [d]).tables.isFilled owner q = false := by
      intro q hq
      refine Tables.isFilled_eq_false.2 (List.forall_mem_cons.2 ⟨?_, ?_⟩)
      · rintro - rfl
        exact hfirst hq
      · exact Tables.isFilled_eq_false.1 (hfree.2 q hq)
    have hmore : (a.adding [d]).tables.Supplies (fun i => (env (k + 1 + i)).nodeId 0)
        rest.length := by
      have hshift (i : Nat) : k + 1 + i = k + (i + 1) := by omega
      simp only [hshift]
      exact supplies_adding hids fun n hn => congrArg Node.id (List.mem_singleton.1 hn)
    rw [createMissing, resolve_of_not_isFilled hfree.1, hmade]
    simp only [ih hreach hinside hchain hnodup hstill hv.2 hmore]
    simp [newDirectories, ← hd]

/-- Does a file of the owner lie above the path? -/
def isBlocked (a : Archive) (owner : OwnerId) (path : Path) : Prop :=
  ∃ f ∈ a.tables.nodes, f.owner = owner ∧ f.kind = .file ∧ f.path ∈ path.ancestors

/-- The places without a node among those that lead to a path. -/
def missingSteps (a : Archive) (owner : OwnerId) (path : Path) : List Path :=
  path.steps.filter fun q => !a.tables.isFilled owner q

/-- No file is above a place with a node. -/
lemma not_isBlocked_of_isFilled {path : Path} (ha : a.tables.IsForest)
    (h : a.tables.isFilled owner path = true) : ¬a.isBlocked owner path := by
  rintro ⟨f, hf, rfl, hk, habove⟩
  obtain ⟨hc, hne⟩ := Path.mem_ancestors.1 habove
  obtain ⟨n, hn, ho, rfl⟩ := Tables.isFilled_iff.1 h
  exact hne (congrArg Node.path (ha.eq_of_covers_of_file hf hn hk ho hc).symm)

/-- **All missing directories are made, or none**, below a root that is there.

**Proof sketch.** The parent of the first missing place has a node. If this is a file, the first
directory is refused. If it is a container, all of them are made, and no file is above the path: it
would be at or above this container. -/
theorem createMissing_steps {path : Path} (ha : a.Reachable) (hv : path.Valid)
    (hroot : a.tables.isFilled owner .root = true)
    (hids : a.tables.Supplies (fun i => (env (k + i)).nodeId 0) path.steps.length) :
    (a.isBlocked owner path ∧
        ∃ e, createMissing env owner k path.steps a = (.error e, a)) ∨
      (¬a.isBlocked owner path ∧ createMissing env owner k path.steps a =
        (.ok (newDirectories env owner k (a.missingSteps owner path)),
          a.adding (newDirectories env owner k (a.missingSteps owner path)).reverse)) := by
  have hforest := ha.isForest
  have hvalid : ∀ q ∈ path.steps, q.Valid := by
    intro q hq
    rcases Path.mem_steps hq with rfl | hq
    · exact hv
    · exact hv.of_mem_ancestors hq
  have hresolve {places : List Path} (hsub : ∀ q ∈ places, q ∈ path.steps)
      (hf : ∀ q ∈ places, a.tables.isFilled owner q = true) :
      ∀ q ∈ places, ∃ n, a.resolve owner q = .ok n :=
    fun q hq => resolve_of_isFilled hforest.keyed (hf q hq) (hvalid q (hsub q hq))
  rcases hforest.steps_split hroot path with
    hall | ⟨filled, above, first, rest, hsteps, hfilled, habove, hfree, hchain⟩
  · have hnone : a.missingSteps owner path = [] :=
      List.filter_eq_nil_iff.2 fun q hq => by simp [hall q hq]
    rw [hnone, createMissing_of_present (hresolve (fun q hq => hq) hall)]
    exact .inr ⟨not_isBlocked_of_isFilled hforest (hall path path.self_mem_steps), rfl⟩
  · have hmissing : a.missingSteps owner path = first :: rest := by
      have hpassed : filled.filter (fun q => !a.tables.isFilled owner q) = [] :=
        List.filter_eq_nil_iff.2 fun q hq => by simp [hfilled q hq]
      have hkept : (first :: rest).filter (fun q => !a.tables.isFilled owner q) = first :: rest :=
        List.filter_eq_self.2 fun q hq => by simp [hfree q hq]
      rw [missingSteps, hsteps, List.filter_append, hpassed, hkept, List.nil_append]
    have hsub : ∀ q ∈ first :: rest, q ∈ path.steps :=
      fun q hq => hsteps ▸ List.mem_append_right filled hq
    have hpass : createMissing env owner k (filled ++ first :: rest) a =
        createMissing env owner k (first :: rest) a :=
      createMissing_append (hresolve (fun q hq => hsteps ▸ List.mem_append_left _ hq) hfilled)
    have hparent : first.parent = some above := (List.isChain_cons_cons.1 hchain).1
    have hfirst : first.covers path = true := by
      rcases Path.mem_steps (hsub first List.mem_cons_self) with rfl | hq
      · exact Path.covers_refl _
      · exact (Path.mem_ancestors.1 hq).1
    obtain ⟨m, hm, rfl, rfl⟩ := Tables.isFilled_iff.1 habove
    rw [hmissing, hsteps, hpass]
    cases hk : m.kind.isContainer with
    | false =>
      refine .inl ⟨⟨m, hm, rfl, ?_, Path.mem_ancestors.2 ⟨?_, ?_⟩⟩, _,
        createMissing_refused (hfree first List.mem_cons_self) ?_⟩
      · cases e : m.kind <;> simp [e, Kind.isContainer] at hk ⊢
      · exact Path.covers_trans (Path.covers_of_parent hparent) hfirst
      · rintro e
        rw [← e, Path.not_covers_parent hparent] at hfirst
        cases hfirst
      · rw [hparent, hforest.container_of_mem hm, hk]
    | true =>
      refine .inr ⟨?_, createMissing_of_missing ha ?_ hchain ?_ hfree
        (fun q hq => hvalid q (hsub q hq)) (hids.mono ?_)⟩
      · rintro ⟨f, hf, ho, hfile, hanc⟩
        have hfp := (Path.mem_ancestors.1 hanc).1
        -- the first missing place is below the file, or above it
        rcases Path.covers_total hfp hfirst with hc | hc
        · have hne : f.path ≠ first :=
            Tables.isFilled_eq_false.1 (hfree first List.mem_cons_self) f hf ho
          have hcm := (Path.covers_parent_iff hparent).2 ⟨hc, hne⟩
          obtain rfl := hforest.eq_of_covers_of_file hf hm hfile ho.symm hcm
          rw [hfile] at hk
          cases hk
        · have hf' := hforest.isFilled_of_covers hc (Tables.isFilled_iff.2 ⟨f, hf, ho, rfl⟩)
          rw [hfree first List.mem_cons_self] at hf'
          cases hf'
      · rw [hforest.container_of_mem hm, hk]
      · have hnodup : path.steps.Nodup :=
          path.steps_pairwise.imp fun h e => (Path.mem_ancestors.1 h).2 e
        exact hnodup.sublist (hsteps ▸ List.sublist_append_right _ _)
      · rw [hsteps, List.length_append]
        omega

/-- The root that a directory is made with: a new one, unless the owner has a root. -/
def newRoot (a : Archive) (env : Env) (owner : OwnerId) : List Node :=
  if a.tables.isFilled owner .root then []
  else [⟨env.nodeId 0, .root, .root, owner, env.now 0⟩]

/-- The owner has a root afterwards, whether it is new or not. -/
lemma ensureRoot_eq {env : Env} (owner : OwnerId) (ha : a.Reachable)
    (hid : ∀ n ∈ a.tables.nodes, n.id ≠ env.nodeId 0) :
    a.ensureRoot env owner = (.ok (), a.adding (a.newRoot env owner)) ∧
      (a.adding (a.newRoot env owner)).Reachable := by
  cases hf : a.tables.isFilled owner .root with
  | true =>
    obtain ⟨n, hn⟩ := resolve_of_isFilled ha.isForest.keyed hf rfl
    simp only [newRoot, hf, if_true, adding_nil, ensureRoot, hn]
    exact ⟨trivial, ha⟩
  | false =>
    have hmade : a.createRoot env owner = (.ok ⟨env.nodeId 0, .root, .root, owner, env.now 0⟩,
        a.adding [⟨env.nodeId 0, .root, .root, owner, env.now 0⟩]) :=
      createNode_eq ha rfl rfl hf hid
    have hafter : (Step.mk env owner .createRoot).apply a =
        a.adding [⟨env.nodeId 0, .root, .root, owner, env.now 0⟩] := congrArg Prod.snd hmade
    simp only [newRoot, hf, Bool.false_eq_true, if_false, ensureRoot, resolve_of_not_isFilled hf,
      hmade]
    exact ⟨trivial, hafter ▸ ha.step _⟩

/-- With the root, the owner has a node at the top, and where one was. -/
lemma isFilled_newRoot (env : Env) (q : Path) :
    (a.adding (a.newRoot env owner)).tables.isFilled owner q =
      (q.isRoot || a.tables.isFilled owner q) := by
  unfold newRoot
  cases hr : q.isRoot with
  | true =>
    obtain rfl := Path.eq_root hr
    split
    · next hf => exact hf
    · exact Tables.isFilled_iff.2 ⟨_, List.mem_cons_self, rfl, rfl⟩
  | false =>
    have hne : Path.root ≠ q := by
      rintro rfl
      cases hr
    split
    · rfl
    · simp [Tables.isFilled, hne]

/-- With the root, the missing places are all but the root at or above the path that have no
node. -/
lemma mem_missingSteps_newRoot (env : Env) (path q : Path) :
    q ∈ (a.adding (a.newRoot env owner)).missingSteps owner path ↔
      q.isRoot = false ∧ q.isAncestorOf path = true ∧ a.tables.isFilled owner q = false := by
  rw [missingSteps, List.mem_filter, isFilled_newRoot, Bool.not_eq_true', Bool.or_eq_false_iff]
  cases hp : path.isRoot with
  | false =>
    rw [Path.mem_steps_iff hp]
    exact ⟨fun ⟨h, h'⟩ => ⟨h.1, h.2, h'.2⟩, fun ⟨hr, hc, hf⟩ => ⟨⟨hr, hc⟩, hr, hf⟩⟩
  | true =>
    -- only the root is at or above the root
    have hroot (hc : q.covers path = true) : q.isRoot = true := Path.isRoot_of_covers hc hp
    constructor
    · rintro ⟨hq, hr, -⟩
      rcases Path.mem_steps hq with rfl | hq
      · rw [hp] at hr
        cases hr
      · rw [hroot (Path.mem_ancestors.1 hq).1] at hr
        cases hr
    · rintro ⟨hr, hc, -⟩
      rw [hroot (Path.isAncestorOf_eq_covers ▸ hc)] at hr
      cases hr

/-- Files above a path do not become more or less with a root. -/
lemma isBlocked_newRoot {path : Path} {env : Env} :
    (a.adding (a.newRoot env owner)).isBlocked owner path ↔ a.isBlocked owner path := by
  unfold newRoot
  split
  · rfl
  · simp [isBlocked]

/-- A new root has the first identifier of its surroundings. -/
lemma id_of_mem_newRoot {env : Env} {n : Node} (hn : n ∈ a.newRoot env owner) :
    n.id = env.nodeId 0 := by
  unfold newRoot at hn
  split at hn
  · cases hn
  · exact congrArg Node.id (List.mem_singleton.1 hn)

/-- Above a file there is a root. -/
lemma newRoot_of_isBlocked {path : Path} {env : Env} (ha : a.tables.IsForest)
    (h : a.isBlocked owner path) : a.newRoot env owner = [] := by
  obtain ⟨f, hf, ho, -, -⟩ := h
  have htop : Path.root.covers f.path = true := Path.covers_iff.2 (.inl rfl)
  exact if_pos (ha.isFilled_of_covers htop (Tables.isFilled_iff.2 ⟨f, hf, ho, rfl⟩))

/-- **All missing directories are made, or none.** -/
theorem makeDirectory_eq {path : Path} (owner : OwnerId) (ha : a.Reachable) (hv : path.Valid)
    (hids : a.tables.Supplies (fun k => (env k).nodeId 0) (path.steps.length + 1)) :
    let roots := a.newRoot (env 0) owner
    let made := newDirectories env owner 1 ((a.adding roots).missingSteps owner path)
    (a.isBlocked owner path ∧ ∃ e, a.makeDirectory env owner path true = (.error e, a)) ∨
      (¬a.isBlocked owner path ∧ a.makeDirectory env owner path true =
        (.ok made, a.adding (made.reverse ++ roots))) := by
  intro roots made
  obtain ⟨hensure, hreach⟩ := ensureRoot_eq owner ha (hids.unused 0 (Nat.succ_pos _))
  have hroot : (a.adding roots).tables.isFilled owner .root = true := by
    rw [isFilled_newRoot]
    rfl
  have hmore : (a.adding roots).tables.Supplies (fun i => (env (1 + i)).nodeId 0)
      path.steps.length := by
    simp only [Nat.add_comm 1]
    exact supplies_adding hids fun n hn => id_of_mem_newRoot hn
  rw [makeDirectory, hensure]
  simp only [if_true]
  rcases createMissing_steps hreach hv hroot hmore with ⟨hb, e, h⟩ | ⟨hb, h⟩
  · rw [isBlocked_newRoot] at hb
    rw [h, newRoot_of_isBlocked ha.isForest hb]
    exact .inl ⟨hb, e, rfl⟩
  · rw [isBlocked_newRoot] at hb
    rw [h, adding_adding]
    exact .inr ⟨hb, rfl⟩

end Missing

end Archive

/-! ## Requests of users -/

namespace Command

/-- **All directories, or none.** After every history of operations and transactions, let the
directory of a user's path be made together with the missing ones above it, under new identifiers.
This fails exactly if a file of the owner lies above the path, and then nothing has changed. If it
succeeds, then besides the owner's root, in case it was missing, each place at or above the path
without a node has got one directory, and nothing else has changed. The answer has a line for each
of them, from the top down.

**Proof sketch.** The missing places are the last ones of those that lead to the path, so the first
one of them decides. -/
theorem directories_all_or_none {a : Archive} (ha : a.Reachable) (env : Nat → Env)
    (owner : OwnerId) {input : String} {p : Path} (hp : Path.parse input = .ok p)
    (hids : a.tables.Supplies (fun k => (env k).nodeId 0) (p.steps.length + 1)) :
    let result := performMakeDirectory env owner p true a
    let isMissing (q : Path) : Prop := ∀ n ∈ a.tables.nodes, n.owner = owner → n.path ≠ q
    ((∃ e, result.1 = .error e) ↔
        ∃ f ∈ a.tables.nodes, f.owner = owner ∧ f.kind = .file ∧ f.path ∈ p.ancestors) ∧
      (∀ e, result.1 = .error e → result.2 = a) ∧
      ∀ report, result.1 = .ok report → ∃ roots made : List Node,
        result.2 = { a with tables :=
          { a.tables with nodes := made.reverse ++ roots ++ a.tables.nodes } } ∧
        (roots = [] ∨ isMissing .root ∧
          ∃ n, roots = [n] ∧ n.owner = owner ∧ n.path = .root ∧ n.kind = .root) ∧
        (∀ n ∈ made, n.owner = owner ∧ n.kind = .dir) ∧
        (∀ q, q ∈ made.map Node.path ↔
          q.isRoot = false ∧ q.isAncestorOf p = true ∧ isMissing q) ∧
        (made.map Node.path).Pairwise (fun q r => q.isAncestorOf r = true ∧ q ≠ r) ∧
        (made = [] → report = p.display ++ " already exists") ∧
        (made ≠ [] → report = Report.lines (made.map Report.created)) := by
  intro result isMissing
  have hv : p.Valid := Path.valid_of_parse hp
  rcases Archive.makeDirectory_eq owner ha hv hids with ⟨hb, e, h⟩ | ⟨hb, h⟩
  · have hresult : result = (.error (.refused (.makeDirectory e.place) e.cause), a) := by
      simp only [result, performMakeDirectory, h]
    rw [hresult]
    exact ⟨iff_of_true ⟨_, rfl⟩ hb, fun _ _ => rfl, fun _ h => by cases h⟩
  · set roots := a.newRoot (env 0) owner with hroots
    set made := Archive.newDirectories env owner 1 ((a.adding roots).missingSteps owner p)
    have hresult : result = (.ok (Report.createdDirectories p made),
        a.adding (made.reverse ++ roots)) := by
      simp only [result, performMakeDirectory, h]
    rw [hresult]
    refine ⟨iff_of_false (by rintro ⟨e, h⟩; cases h) hb, fun e h => (by cases h), ?_⟩
    rintro report hreport
    obtain rfl := Except.ok.inj hreport
    refine ⟨roots, made, rfl, ?_, fun n hn => Archive.of_mem_newDirectories hn, fun q => ?_, ?_,
      fun hnone => ?_, fun hsome => ?_⟩
    · cases hf : a.tables.isFilled owner .root with
      | true => exact .inl (if_pos hf)
      | false =>
        have hnew : roots = [⟨(env 0).nodeId 0, .root, .root, owner, (env 0).now 0⟩] :=
          if_neg (by simp [hf])
        exact .inr ⟨Tables.isFilled_eq_false.1 hf, _, hnew, rfl, rfl, rfl⟩
    · rw [Archive.map_path_newDirectories, Archive.mem_missingSteps_newRoot,
        Tables.isFilled_eq_false]
    · rw [Archive.map_path_newDirectories]
      refine (p.steps_pairwise.sublist List.filter_sublist).imp fun h => ?_
      rw [Path.isAncestorOf_eq_covers]
      exact Path.mem_ancestors.1 h
    · simp [Report.createdDirectories, hnone]
    · simp [Report.createdDirectories, hsome]

/-- Beside a file, two directories are made. Below it, none is. -/
theorem directories_all_or_none_beside_file :
    let a := Archive.empty.after (Step.beginTree ++ [Step.uploadParts])
    let make (p : Path) := performMakeDirectory (fun k => .numbered (k + 3)) ⟨.ofNat 1⟩ p true a
    (make ⟨"a.x.y"⟩).2 = a ∧ (∃ report, (make ⟨"x.y"⟩).1 = .ok report) ∧
      (make ⟨"x.y"⟩).2.tables.nodes.map Node.path = [⟨"x.y"⟩, ⟨"x"⟩, ⟨"a"⟩, .root] := by
  intro a make
  have ha : a.Reachable := Archive.Reachable.empty.after _
  have hparse : Path.parse "/a/x/y" = .ok ⟨"a.x.y"⟩ ∧ Path.parse "/x/y" = .ok ⟨"x.y"⟩ := by
    decide +kernel
  have hids : a.tables.Supplies (fun k => (Env.numbered (k + 3)).nodeId 0) 4 :=
    ⟨by decide +kernel, by decide +kernel⟩
  obtain ⟨hfails, hsame, -⟩ := directories_all_or_none ha _ ⟨.ofNat 1⟩ hparse.1
    (hids.mono (by decide +kernel))
  obtain ⟨hbeside, -⟩ := directories_all_or_none ha _ ⟨.ofNat 1⟩ hparse.2
    (hids.mono (by decide +kernel))
  obtain ⟨e, he⟩ := hfails.2 (by decide +kernel)
  refine ⟨hsame e he, ?_, by decide +kernel⟩
  cases hr : (make ⟨"x.y"⟩).1 with
  | ok report => exact ⟨report, rfl⟩
  | error e => exact absurd (hbeside.1 ⟨e, hr⟩) (by decide +kernel)

end Command

end VersionedTree
