import Mathlib.Data.List.Perm.Basic
import VersionedTree.Proofs.Archive.Relocation

/-!
# Trees from listings

A tree is explored by listings: that of its top, and in turn those of the containers that are shown.
What is below a place is at or below one of its children, and only one, so that each node is shown
once, and the listings come to an end.

## Main definitions

* `VersionedTree.Archive.expand` — listings, with those of the containers that they show.
* `VersionedTree.Archive.Expansion` — listings that show what is below a node.

## Main results

* `VersionedTree.Tables.IsForest.subtree_perm` — a tree consists of its top and of the trees of the
  children.
* `VersionedTree.Archive.exists_expansion` — every node has an expansion.
* `VersionedTree.Archive.expand_root` — the listings from the root.
* `VersionedTree.Archive.listings_enumerate` — the tree of an owner, after every history.
-/

set_option autoImplicit false

namespace VersionedTree

/-! ## Trees and the trees of children -/

namespace Tables.IsForest

variable {t : Tables} {top : Node} {ns : List Node}

/-- **What is below a node** is at or below one of its children.

**Proof sketch.** Induction on the length of the place. The parent of the place is the node itself,
or it is below the node. -/
theorem exists_child (h : t.IsForest) (htop : top ∈ t.nodes) {m : Node}
    (hm : m ∈ t.subtree top.owner top.path) (hne : m ≠ top) :
    ∃ c ∈ t.nodes, c.owner = top.owner ∧ c.path.parent = some top.path ∧
      c.path.covers m.path = true := by
  induction hlen : m.path.chars.length using Nat.strong_induction_on generalizing m with
  | _ k ih =>
    subst hlen
    obtain ⟨hm, ho, hc⟩ := mem_subtree.1 hm
    have hplace : top.path ≠ m.path := by
      intro e
      exact hne (h.keyed.nodes.places m hm top htop ho e.symm)
    obtain ⟨q, hq⟩ := Path.exists_parent (Path.isRoot_of_covers_ne hc hplace)
    obtain ⟨m', hm', ho', rfl, -⟩ := h.attached m hm q hq
    by_cases e : m' = top
    · exact ⟨m, hm, ho, e ▸ hq, m.path.covers_refl⟩
    · have hbelow : m' ∈ t.subtree top.owner top.path :=
        mem_subtree.2 ⟨hm', ho'.trans ho, (Path.covers_parent_iff hq).2 ⟨hc, hplace⟩⟩
      obtain ⟨c, hcmem, hco, hcp, hcc⟩ := ih _ (Path.length_chars_parent_lt hq) hbelow e rfl
      exact ⟨c, hcmem, hco, hcp, Path.covers_trans hcc (Path.covers_of_parent hq)⟩

/-- **A tree** consists of its top and of the trees of the children. -/
theorem subtree_perm (h : t.IsForest) (htop : top ∈ t.nodes) (hns : ns.Nodup)
    (hmem : ∀ m, m ∈ ns ↔
      m ∈ t.nodes ∧ m.owner = top.owner ∧ m.path.parent = some top.path) :
    (t.subtree top.owner top.path).Perm
      (top :: ns.flatMap fun c => t.subtree top.owner c.path) := by
  have hnodup := h.keyed.nodup_subtree top.owner
  refine (List.perm_ext_iff_of_nodup (hnodup top.path) ?_).2 ?_
  · refine List.nodup_cons.2 ⟨?_, List.nodup_flatMap.2 ⟨fun c _ => hnodup c.path, ?_⟩⟩
    · intro hin
      obtain ⟨c, hc, hin⟩ := List.mem_flatMap.1 hin
      obtain ⟨-, -, hcovers⟩ := mem_subtree.1 hin
      rw [Path.not_covers_parent ((hmem c).1 hc).2.2] at hcovers
      cases hcovers
    · refine List.Pairwise.imp_of_mem ?_ hns
      intro c c' hc hc' hne m hm hm'
      obtain ⟨hct, hco, hcp⟩ := (hmem c).1 hc
      obtain ⟨hct', hco', hcp'⟩ := (hmem c').1 hc'
      have hplace : c.path = c'.path :=
        Path.eq_of_siblings_cover hcp hcp' (mem_subtree.1 hm).2.2 (mem_subtree.1 hm').2.2
      exact hne (h.keyed.nodes.places c hct c' hct' (hco.trans hco'.symm) hplace)
  · intro m
    rw [List.mem_cons, List.mem_flatMap]
    constructor
    · intro hm
      refine or_iff_not_imp_left.2 fun hne => ?_
      obtain ⟨c, hc, hco, hcp, hcovers⟩ := h.exists_child htop hm hne
      obtain ⟨hmt, hmo, -⟩ := mem_subtree.1 hm
      exact ⟨c, (hmem c).2 ⟨hc, hco, hcp⟩, mem_subtree.2 ⟨hmt, hmo, hcovers⟩⟩
    · rintro (rfl | ⟨c, hc, hm⟩)
      · exact mem_subtree.2 ⟨htop, rfl, m.path.covers_refl⟩
      · obtain ⟨hmt, hmo, hcovers⟩ := mem_subtree.1 hm
        have habove : top.path.covers c.path = true :=
          Path.covers_of_parent ((hmem c).1 hc).2.2
        exact mem_subtree.2 ⟨hmt, hmo, Path.covers_trans habove hcovers⟩

/-- The tree of the root consists of all that the owner has. -/
lemma subtree_root (h : t.IsForest) (htop : top ∈ t.nodes) (hk : top.kind = .root) :
    t.subtree top.owner top.path = t.nodes.filter fun n => n.owner == top.owner := by
  refine List.filter_congr fun n _ => ?_
  rw [Path.covers_iff.2 (.inl ((h.isRoot_path htop).1 hk)), Bool.and_true]

/-- An owner has one root. -/
lemma eq_of_root (h : t.IsForest) {m n : Node} (hm : m ∈ t.nodes) (hn : n ∈ t.nodes)
    (ho : m.owner = n.owner) (hmk : m.kind = .root) (hnk : n.kind = .root) : m = n := by
  have hplace : m.path = n.path := by
    rw [Path.eq_root ((h.isRoot_path hm).1 hmk), Path.eq_root ((h.isRoot_path hn).1 hnk)]
  exact h.keyed.nodes.places m hm n hn ho hplace

end Tables.IsForest

namespace Archive

/-! ## Expansions -/

/-- The places of the containers among nodes. -/
def innerPlaces (nodes : List Node) : List Path :=
  (nodes.filter fun n => n.kind.isContainer).map Node.path

/-- The listings of places in turn, each of them followed by those of the containers that it shows.
There is no answer if one of them fails, or if there are more of them than the limit. -/
def expand (owner : OwnerId) (a : Archive) : Nat → List Path → Option (List (Path × List Entry))
  | _, [] => some []
  | 0, _ :: _ => none
  | limit + 1, path :: rest =>
    match a.list owner path with
    | .error _ => none
    | .ok entries =>
      (expand owner a limit (innerPlaces (entries.map Entry.node) ++ rest)).map
        ((path, entries) :: ·)

/-- The nodes that listings show. -/
def shown (found : List (Path × List Entry)) : List Node :=
  found.flatMap fun listing => listing.2.map Entry.node

variable {a : Archive} {top : Node} {owner : OwnerId} {ns : List Node}

/-- These listings follow the entry of a node, one for each container at or below it, and with the
node itself they show what is at or below it. -/
structure Expansion (a : Archive) (top : Node) (found : List (Path × List Entry)) : Prop where
  runs : ∀ limit rest,
    a.expand top.owner (limit + found.length) (innerPlaces [top] ++ rest) =
      (a.expand top.owner limit rest).map (found ++ ·)
  places : (found.map Prod.fst).Perm (innerPlaces (a.tables.subtree top.owner top.path))
  nodes : (top :: shown found).Perm (a.tables.subtree top.owner top.path)

/-- The inner places of two lists are those of the one and those of the other. -/
lemma innerPlaces_append (ms ns : List Node) :
    innerPlaces (ms ++ ns) = innerPlaces ms ++ innerPlaces ns := by
  unfold innerPlaces
  rw [List.filter_append, List.map_append]

/-- The inner places of nodes that are found in turn are found in turn. -/
lemma innerPlaces_flatMap (ns : List Node) (f : Node → List Node) :
    innerPlaces (ns.flatMap f) = ns.flatMap fun n => innerPlaces (f n) := by
  unfold innerPlaces
  rw [List.filter_flatMap, List.map_flatMap]

/-- The order of nodes is that of their inner places. -/
lemma innerPlaces_perm {ms ns : List Node} (h : ms.Perm ns) :
    (innerPlaces ms).Perm (innerPlaces ns) :=
  (h.filter _).map _

/-- Every listing of an expansion is what its place shows. -/
lemma list_of_mem_expand {limit : Nat} {paths : List Path} {found : List (Path × List Entry)}
    (h : a.expand owner limit paths = some found) :
    ∀ listing ∈ found, a.list owner listing.1 = .ok listing.2 := by
  fun_induction expand owner a limit paths generalizing found with
  | case1 =>
    obtain rfl := Option.some.inj h
    simp
  | case2 => cases h
  | case3 => cases h
  | case4 limit path rest entries hlist ih =>
    obtain ⟨others, hothers, rfl⟩ := Option.map_eq_some_iff.1 h
    rw [List.forall_mem_cons]
    exact ⟨hlist, ih hothers⟩

/-- Nodes are expanded one after the other. -/
lemma expand_all {f : Node → List (Path × List Entry)}
    (hf : ∀ c ∈ ns, c.owner = owner ∧ a.Expansion c (f c)) (limit : Nat) (rest : List Path) :
    a.expand owner (limit + (ns.flatMap f).length) (innerPlaces ns ++ rest) =
      (a.expand owner limit rest).map (ns.flatMap f ++ ·) := by
  induction ns with
  | nil => simp [innerPlaces]
  | cons c cs ih =>
    rw [List.forall_mem_cons] at hf
    obtain ⟨⟨rfl, hc⟩, hcs⟩ := hf
    have hplaces : innerPlaces (c :: cs) = innerPlaces [c] ++ innerPlaces cs :=
      innerPlaces_append [c] cs
    have hlength : limit + ((c :: cs).flatMap f).length =
        limit + (cs.flatMap f).length + (f c).length := by
      rw [List.flatMap_cons, List.length_append]
      omega
    rw [hplaces, hlength, List.append_assoc, hc.runs, ih hcs, Option.map_map]
    congr 1
    funext found
    simp

namespace Expansion

/-- A file has no listing, and nothing is below it. -/
lemma of_file (h : a.tables.IsForest) (htop : top ∈ a.tables.nodes) (hk : top.kind = .file) :
    a.Expansion top [] := by
  have hplaces : innerPlaces [top] = [] := by simp [innerPlaces, hk, Kind.isContainer]
  have hsub : a.tables.subtree top.owner top.path = [top] := Tables.subtree_of_file h htop hk
  refine ⟨fun limit rest => ?_, ?_, ?_⟩
  · rw [hplaces]
    simp
  · rw [hsub, hplaces]
    rfl
  · rw [hsub]
    rfl

/-- The listing of a container is followed by what follows its entries. -/
lemma of_children {f : Node → List (Path × List Entry)} (hc : top.kind.isContainer = true)
    (hlist : a.list top.owner top.path = .ok (ns.map (a.entry top.owner)))
    (hsub : (a.tables.subtree top.owner top.path).Perm
      (top :: ns.flatMap fun c => a.tables.subtree top.owner c.path))
    (hf : ∀ c ∈ ns, c.owner = top.owner ∧ a.Expansion c (f c)) :
    a.Expansion top ((top.path, ns.map (a.entry top.owner)) :: ns.flatMap f) := by
  have hnodes : (ns.map (a.entry top.owner)).map Entry.node = ns := by
    simp [List.map_map, Function.comp_def, entry_node]
  have hplaces : innerPlaces [top] = [top.path] := by simp [innerPlaces, hc]
  refine ⟨fun limit rest => ?_, ?_, ?_⟩
  · have hlength : limit + ((top.path, ns.map (a.entry top.owner)) :: ns.flatMap f).length =
        limit + (ns.flatMap f).length + 1 := by
      rw [List.length_cons]
      omega
    rw [hplaces, hlength, List.singleton_append, expand, hlist]
    simp only
    rw [hnodes, expand_all hf, Option.map_map]
    rfl
  · have hbelow : ((ns.flatMap f).map Prod.fst).Perm
        (innerPlaces (ns.flatMap fun c => a.tables.subtree top.owner c.path)) := by
      rw [innerPlaces_flatMap, List.map_flatMap]
      refine List.Perm.flatMap_left ns fun c hc => ?_
      rw [← (hf c hc).1]
      exact (hf c hc).2.places
    refine List.Perm.trans ?_ (innerPlaces_perm hsub.symm)
    rw [← List.singleton_append (x := top), innerPlaces_append, hplaces]
    exact hbelow.cons top.path
  · have hbelow : (ns ++ shown (ns.flatMap f)).Perm
        (ns.flatMap fun c => a.tables.subtree top.owner c.path) := by
      have hsplit := List.map_append_flatMap_perm ns id fun c => shown (f c)
      rw [List.map_id] at hsplit
      rw [shown, List.flatMap_assoc]
      refine hsplit.trans (List.Perm.flatMap_left ns fun c hc => ?_)
      rw [← (hf c hc).1]
      exact (hf c hc).2.nodes
    have hshown : shown ((top.path, ns.map (a.entry top.owner)) :: ns.flatMap f) =
        ns ++ shown (ns.flatMap f) := by
      rw [shown, List.flatMap_cons, hnodes]
      rfl
    rw [hshown]
    exact (hbelow.cons top).trans hsub.symm

end Expansion

/-- **Every node has an expansion** in a forest with valid places.

**Proof sketch.** Induction on the number of nodes at and below the node. A container shows its
children, and the tree of each of them is a part of what is below the container. -/
theorem exists_expansion (h : a.tables.IsForest) (hv : ∀ n ∈ a.tables.nodes, n.path.Valid)
    (htop : top ∈ a.tables.nodes) : ∃ found, a.Expansion top found := by
  induction hlen : (a.tables.subtree top.owner top.path).length using Nat.strong_induction_on
    generalizing top with
  | _ k ih =>
    subst hlen
    obtain hk | hc : top.kind = .file ∨ top.kind.isContainer = true := by
      cases top.kind <;> decide
    · exact ⟨[], .of_file h htop hk⟩
    · obtain ⟨ns, hlist, hsorted, hmem⟩ := list_container h hv htop hc
      have hns : ns.Nodup := hsorted.nodup
      have hsub := h.subtree_perm htop hns hmem
      have hchild : ∀ c ∈ ns, ∃ found, a.Expansion c found := by
        intro c hcn
        obtain ⟨hct, hco, -⟩ := (hmem c).1 hcn
        refine ih _ ?_ hct rfl
        have hpart : (a.tables.subtree top.owner c.path).Sublist
            (ns.flatMap fun c => a.tables.subtree top.owner c.path) :=
          List.sublist_flatten_of_mem (List.mem_map.2 ⟨c, hcn, rfl⟩)
        rw [hsub.length_eq, List.length_cons, hco]
        exact Nat.lt_succ_of_le hpart.length_le
      choose! f hf using hchild
      exact ⟨_, .of_children hc hlist hsub fun c hcn => ⟨((hmem c).1 hcn).2.1, hf c hcn⟩⟩

/-! ## Listings from the root -/

/-- **The listings from the root** show the owner's other nodes once, one listing for each of the
owner's containers. -/
theorem expand_root (hf : a.tables.IsForest) (hv : ∀ n ∈ a.tables.nodes, n.path.Valid)
    (htop : top ∈ a.tables.nodes) (hk : top.kind = .root) :
    ∃ found,
      (∀ limit, a.expand top.owner (limit + found.length) [.root] = some found) ∧
      (found.map Prod.fst).Perm
        (innerPlaces (a.tables.nodes.filter fun n => n.owner == top.owner)) ∧
      (shown found).Nodup ∧
      ∀ n, n ∈ shown found ↔ n ∈ a.tables.nodes ∧ n.owner = top.owner ∧ n.kind ≠ .root := by
  obtain ⟨found, hruns, hplaces, hnodes⟩ := exists_expansion hf hv htop
  have hnodup : (top :: shown found).Nodup :=
    hnodes.nodup_iff.2 (hf.keyed.nodup_subtree top.owner top.path)
  rw [hf.subtree_root htop hk] at hplaces hnodes
  obtain ⟨htop', hshown⟩ := List.nodup_cons.1 hnodup
  refine ⟨found, ?_, hplaces, hshown, ?_⟩
  · intro limit
    have hstart : innerPlaces [top] = [.root] := by
      simp [innerPlaces, hk, Kind.isContainer, Path.eq_root ((hf.isRoot_path htop).1 hk)]
    have hrun := hruns limit []
    rw [hstart, expand] at hrun
    simpa using hrun
  · intro n
    have hmem : n = top ∨ n ∈ shown found ↔ n ∈ a.tables.nodes ∧ n.owner = top.owner := by
      rw [← List.mem_cons, hnodes.mem_iff]
      simp
    constructor
    · intro hn
      obtain ⟨hnt, ho⟩ := hmem.1 (.inr hn)
      refine ⟨hnt, ho, fun hnk => htop' ?_⟩
      rwa [← hf.eq_of_root hnt htop ho hnk hk]
    · rintro ⟨hnt, ho, hnk⟩
      exact (hmem.2 ⟨hnt, ho⟩).resolve_left fun e => hnk (e ▸ hk)

/-- **All that an owner has is found** from the root, each node once.

The root is listed first, and then every container that a listing shows, which comes to an end with
one listing for each of the owner's containers. No other place shows a node than its parent, and
siblings are shown in the order of the bytes of their last labels. -/
theorem listings_enumerate (history : List Step)
    (ht : ∀ s ∈ history, ∀ p ∈ s.operation.target?, p.Valid) {r : Node}
    (hr : r ∈ (empty.after history).tables.nodes) (hk : r.kind = .root) :
    let a := empty.after history
    (∃ found,
      (∀ limit, a.expand r.owner (limit + found.length) [.root] = some found) ∧
      (∀ listing ∈ found, a.list r.owner listing.1 = .ok listing.2) ∧
      (found.map Prod.fst).Perm
        (innerPlaces (a.tables.nodes.filter fun n => n.owner == r.owner)) ∧
      (shown found).Nodup ∧
      ∀ n, n ∈ shown found ↔ n ∈ a.tables.nodes ∧ n.owner = r.owner ∧ n.kind ≠ .root) ∧
    (∀ n ∈ a.tables.nodes, n.owner = r.owner → n.kind ≠ .root → ∀ q,
      (∃ entries, a.list r.owner q = .ok entries ∧ n ∈ entries.map Entry.node) ↔
        n.path.parent = some q) ∧
    ∀ q entries, a.list r.owner q = .ok entries →
      entries.Pairwise fun e e' => e.node.path.lastLabelBytes < e'.node.path.lastLabelBytes := by
  intro a
  have hf : a.tables.IsForest := (sound history).forest
  have hv : ∀ n ∈ a.tables.nodes, n.path.Valid := valid_after history ht
  refine ⟨?_, ?_, fun q entries hlist => (list_spec hf hv hlist).2⟩
  · obtain ⟨found, hruns, hplaces, hnodup, hmem⟩ := expand_root hf hv hr hk
    exact ⟨found, hruns, list_of_mem_expand (hruns 0), hplaces, hnodup, hmem⟩
  · intro n hn ho hne q
    constructor
    · rintro ⟨entries, hlist, hmem⟩
      exact (((list_spec hf hv hlist).1 n).1 hmem).2.2
    · intro hq
      obtain ⟨q', entries, hq', hlist, e, he, rfl⟩ := list_above hf hv hn hne
      obtain rfl : q' = q := Option.some.inj (hq'.symm.trans hq)
      exact ⟨entries, ho ▸ hlist, List.mem_map_of_mem he⟩

/-- Three containers are listed, and show the two directories and the two files. -/
theorem listings_enumerate_nested :
    let a := empty.after Step.nestDirectories
    let owner : OwnerId := ⟨.ofNat 1⟩
    ∃ found, a.expand owner 3 [.root] = some found ∧
      (found.map Prod.fst).Perm [.root, ⟨"d"⟩, ⟨"d.e"⟩] ∧
      ((shown found).map Node.path).Perm [⟨"d"⟩, ⟨"d.e"⟩, ⟨"d.e.f"⟩, ⟨"d.g"⟩] ∧
      ∀ listing ∈ found, listing.2.Pairwise fun e e' =>
        e.node.path.lastLabelBytes < e'.node.path.lastLabelBytes := by
  intro a owner
  have hvalid : ∀ s ∈ Step.nestDirectories, ∀ p ∈ s.operation.target?, p.Valid := by
    decide +kernel
  obtain ⟨r, hr, hk, ho⟩ : ∃ r ∈ a.tables.nodes, r.kind = .root ∧ r.owner = owner := by
    decide +kernel
  obtain ⟨⟨found, hruns, hlist, hplaces, hnodup, hmem⟩, -, hsorted⟩ :=
    listings_enumerate Step.nestDirectories hvalid hr hk
  rw [ho] at hruns hlist hplaces hmem hsorted
  have hcontainers : (innerPlaces (a.tables.nodes.filter fun n => n.owner == owner)).Perm
      [.root, ⟨"d"⟩, ⟨"d.e"⟩] := by decide +kernel
  have hcount : found.length = 3 := by
    rw [← List.length_map (f := Prod.fst), hplaces.length_eq, hcontainers.length_eq]
    rfl
  have hothers : (shown found).Perm (a.tables.nodes.filter fun n => n.kind != .root) := by
    have hall : ∀ n ∈ a.tables.nodes, n.owner = owner := by decide +kernel
    have hdistinct : (a.tables.nodes.filter fun n => n.kind != .root).Nodup := by decide +kernel
    refine (List.perm_ext_iff_of_nodup hnodup hdistinct).2 fun n => ?_
    rw [hmem, List.mem_filter, bne_iff_ne]
    exact and_congr_right fun hn => and_iff_right (hall n hn)
  have hpaths : ((a.tables.nodes.filter fun n => n.kind != .root).map Node.path).Perm
      [⟨"d"⟩, ⟨"d.e"⟩, ⟨"d.e.f"⟩, ⟨"d.g"⟩] := by decide +kernel
  have hrun := hruns 0
  rw [hcount] at hrun
  exact ⟨found, hrun, hplaces.trans hcontainers,
    (hothers.map _).trans hpaths, fun listing hl => hsorted _ _ (hlist listing hl)⟩

end Archive

end VersionedTree
