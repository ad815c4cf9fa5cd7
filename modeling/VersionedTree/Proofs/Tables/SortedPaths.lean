import VersionedTree.Proofs.Order
import VersionedTree.Proofs.Tables.Transfers

/-!
# Sorted paths

Rows are sorted by their stored paths, and so a tree is listed as it is walked: a place comes before
all that is below it, and nothing else comes in between.

## Main results

* `VersionedTree.Path.Valid.order_eq_bytes` — stored paths are compared by their bytes.
* `VersionedTree.Path.Valid.order_of_isAncestorOf` — ancestors come first.
* `VersionedTree.Path.Valid.isAncestorOf_of_between` — subtrees have no gaps.
* `VersionedTree.Path.tree_order` — the order of stored paths is that of the tree.
-/

set_option autoImplicit false

namespace VersionedTree.Path

variable {a p q r : Path} {ps : List Path}

/-! ## The comparison of paths -/

instance : Std.TransCmp order := inferInstanceAs (Std.TransCmp (compareOn Path.encoded))

/-- Paths that are not ordered are the same. -/
lemma eq_of_order (h : p.order q = .eq) : p = q := by
  have hencoded : p.encoded = q.encoded := Std.LawfulEqOrd.eq_of_compare h
  cases p
  cases q
  exact congrArg Path.mk hencoded

/-- **Stored paths** are compared by their bytes. -/
theorem Valid.order_eq_bytes (hp : p.Valid) (hq : q.Valid) :
    p.order q = compare p.bytes q.bytes := by
  rw [hp.bytes_eq, hq.bytes_eq, compare_map_toUInt8 hp.byte hq.byte]
  exact compare_toList p.encoded q.encoded

/-- A sorted list of distinct paths ascends strictly. -/
lemma pairwise_order (hn : ps.Nodup) (hs : ps.Pairwise fun p q => p.le q = true) :
    ps.Pairwise fun p q => p.order q = .lt :=
  hs.imp₂ (fun _ _ hle hne => cmp_eq_lt_of_isLE hle fun e => hne (eq_of_order e)) hn

/-! ## Subtrees in the order of paths -/

/-- **Ancestors come first.** -/
theorem Valid.order_of_isAncestorOf (ha : a.Valid) (hp : p.Valid) (h : a.isAncestorOf p = true)
    (hne : a ≠ p) : a.order p = .lt := by
  obtain ⟨more, hmore⟩ := (ha.isAncestorOf_iff hp).1 h
  refine cmp_eq_lt_of_isLE ?_ fun e => hne (eq_of_order e)
  have hcompare : a.order p = compare [] more := by
    rw [ha.order_eq hp, ← hmore, ← compare_append_left a.labels [] more, List.append_nil]
  rw [hcompare]
  cases more <;> rfl

/-- **Subtrees have no gaps**: what is between two places at or below a third one is there too. -/
theorem Valid.isAncestorOf_of_between (ha : a.Valid) (hp : p.Valid) (hq : q.Valid) (hr : r.Valid)
    (hap : a.isAncestorOf p = true) (har : a.isAncestorOf r = true) (hpq : p.order q = .lt)
    (hqr : q.order r = .lt) : a.isAncestorOf q = true := by
  obtain ⟨more, hmore⟩ := (ha.isAncestorOf_iff hp).1 hap
  obtain ⟨more', hmore'⟩ := (ha.isAncestorOf_iff hr).1 har
  rw [hp.order_eq hq, ← hmore] at hpq
  rw [hq.order_eq hr, ← hmore'] at hqr
  exact (ha.isAncestorOf_iff hq).2 (isPrefix_of_between (by rw [hpq]; rfl) (by rw [hqr]; rfl))

section sorted

variable (hv : ∀ p ∈ ps, p.Valid) (hn : ps.Nodup) (hs : ps.Pairwise fun p q => p.le q = true)

include hv hn hs

/-- In a sorted list no place is below one that comes later. -/
lemma le_of_isAncestorOf {i j : Nat} (hi : i < ps.length) (hj : j < ps.length)
    (h : ps[i].isAncestorOf ps[j] = true) : i ≤ j := by
  by_contra hij
  have hbefore : ps[j].order ps[i] = .lt :=
    List.pairwise_iff_getElem.1 (pairwise_order hn hs) j i hj hi (Nat.lt_of_not_le hij)
  have hne : ps[i] ≠ ps[j] := by
    intro e
    rw [e] at hbefore
    exact cmp_lt_irrefl _ hbefore
  have hafter : ps[i].order ps[j] = .lt :=
    (hv _ (List.getElem_mem hi)).order_of_isAncestorOf (hv _ (List.getElem_mem hj)) h hne
  exact cmp_lt_asymm hbefore hafter

/-- In a sorted list the places at or below a place are next to each other. -/
lemma filter_isAncestorOf_isInfix (ha : a.Valid) : ps.filter a.isAncestorOf <:+: ps :=
  filter_isInfix (pairwise_order hn hs) fun p hp q hq r hr hpq hqr hap har =>
    ha.isAncestorOf_of_between (hv p hp) (hv q hq) (hv r hr) hap har hpq hqr

/-- In a sorted list a place is the first one of those at or below it. -/
lemma head?_filter_isAncestorOf (ha : a ∈ ps) :
    (ps.filter a.isAncestorOf).head? = some a := by
  have hself : a.isAncestorOf a = true := by
    rw [isAncestorOf_eq_covers]
    exact covers_refl a
  refine (head?_eq_some_iff_of_pairwise_lt ((pairwise_order hn hs).filter _)).2
    ⟨List.mem_filter.2 ⟨ha, hself⟩, fun p hp hne => ?_⟩
  obtain ⟨hp, hap⟩ := List.mem_filter.1 hp
  exact (hv a ha).order_of_isAncestorOf (hv p hp) hap hne.symm

end sorted

end VersionedTree.Path

namespace VersionedTree

/-! ## Sorted rows -/

namespace Tables

instance : Std.TransCmp fun m n : Node => m.path.order n.path :=
  inferInstanceAs (Std.TransCmp (compareOn fun m : Node => m.path.encoded))

/-- The paths of sorted rows are sorted. -/
lemma pairwise_sortedByPath (rows : List Node) :
    ((sortedByPath rows).map Node.path).Pairwise fun p q => p.le q = true := by
  rw [List.pairwise_map]
  exact pairwise_isLE_mergeSort rows

end Tables

namespace Path

/-- **The order of stored paths is that of the tree.** Texts that are accepted as paths are compared
by their bytes, which is to compare their lists of labels, label by label, and labels by bytes. So
in a sorted list of distinct paths every ancestor comes before what is below it. The places at or
below any place are next to each other, and this place is the first of them if it is in the list.
The statements sort their rows in this way.

**Proof sketch.** The labels of an ancestor begin the labels of what is below it, and what is
between two lists with one beginning has this beginning too. -/
theorem tree_order :
    (∀ (ptext qtext : String) (p q : Path), fromEncoded ptext = .ok p →
      fromEncoded qtext = .ok q →
        p.order q = compare p.bytes q.bytes ∧ p.order q = compare p.labelBytes q.labelBytes) ∧
    (∀ ps : List Path, (∀ p ∈ ps, fromEncoded p.encoded = .ok p) → ps.Nodup →
      ps.Pairwise (fun p q => p.le q = true) →
        (∀ (i j : Nat) (hi : i < ps.length) (hj : j < ps.length),
          ps[i].isAncestorOf ps[j] = true → i ≤ j) ∧
        ∀ (atext : String) (a : Path), fromEncoded atext = .ok a →
          ps.filter a.isAncestorOf <:+: ps ∧
          (a ∈ ps → (ps.filter a.isAncestorOf).head? = some a)) ∧
    ∀ rows : List Node, (Tables.sortedByPath rows).Perm rows ∧
      ((Tables.sortedByPath rows).map Node.path).Pairwise fun p q => p.le q = true := by
  refine ⟨?_, ?_, ?_⟩
  · intro ptext qtext p q hp hq
    have hpv : p.Valid := (valid_of_fromEncoded hp).1
    have hqv : q.Valid := (valid_of_fromEncoded hq).1
    exact ⟨hpv.order_eq_bytes hqv, hpv.order_eq_labelBytes hqv⟩
  · intro ps hv hn hs
    refine ⟨fun i j hi hj => le_of_isAncestorOf hv hn hs hi hj, fun atext a ha => ?_⟩
    exact ⟨filter_isAncestorOf_isInfix hv hn hs (valid_of_fromEncoded ha).1,
      head?_filter_isAncestorOf hv hn hs⟩
  · intro rows
    exact ⟨List.mergeSort_perm _ _, Tables.pairwise_sortedByPath rows⟩

/-- Names that begin with each other: `a`, `ab`, `a` and a control character, `a b`, `a.b`. The
escape of the control character has a sign, which comes before the dot, but no label ends before
it. -/
theorem tree_order_beginnings :
    let ps : List Path :=
      [⟨""⟩, ⟨"a"⟩, ⟨"a.b"⟩, ⟨"ab"⟩, ⟨"a~+5"⟩, ⟨"a~+5.b"⟩, ⟨"a~20b"⟩, ⟨"a~2eb"⟩]
    (∀ p ∈ ps, fromEncoded p.encoded = .ok p) ∧ ps.Nodup ∧
      ps.Pairwise (fun p q => p.le q = true) ∧
      (order ⟨"a.b"⟩ ⟨"a~+5"⟩ = compare (labelBytes ⟨"a.b"⟩) (labelBytes ⟨"a~+5"⟩) ∧
        ps.filter (isAncestorOf ⟨"a~+5"⟩) <:+: ps ∧
        (ps.filter (isAncestorOf ⟨"a"⟩)).head? = some ⟨"a"⟩) ∧
      ¬ isAncestorOf ⟨"a"⟩ ⟨""⟩ = true := by
  intro ps
  have hv : ∀ p ∈ ps, fromEncoded p.encoded = .ok p := by decide +kernel
  have hn : ps.Nodup := by decide +kernel
  have hs : ps.Pairwise fun p q => p.le q = true := by decide +kernel
  have hmem : ⟨"a"⟩ ∈ ps ∧ ⟨"a.b"⟩ ∈ ps ∧ ⟨"a~+5"⟩ ∈ ps := by decide +kernel
  obtain ⟨hbytes, hsorted, -⟩ := tree_order
  obtain ⟨hfirst, hparts⟩ := hsorted ps hv hn hs
  refine ⟨hv, hn, hs, ⟨?_, ?_, ?_⟩, ?_⟩
  · exact (hbytes _ _ _ _ (hv _ hmem.2.1) (hv _ hmem.2.2)).2
  · exact (hparts _ _ (hv _ hmem.2.2)).1
  · exact (hparts _ _ (hv _ hmem.1)).2 hmem.1
  · exact fun h => absurd (hfirst 1 0 (by decide) (by decide) h) (by decide)

end Path

end VersionedTree
