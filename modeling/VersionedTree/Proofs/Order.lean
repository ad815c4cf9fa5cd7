import Mathlib.Data.List.Sort
import Mathlib.Tactic.Lemma

/-!
# Sorting by a comparison

Listings are sorted by comparisons of several keys. Where no two entries of a list are equal in all
keys, the sorted list ascends strictly, and then it is known from its entries alone.

## Main results

* `VersionedTree.pairwise_lt_mergeSort` — sorting gives a list that ascends strictly.
* `VersionedTree.mergeSort_eq_of_perm` — sorting restores a list that ascends strictly.
* `VersionedTree.pairwise_lt_iff_eq` — the only list that ascends strictly is the sorted one.
* `VersionedTree.head?_eq_some_iff_of_pairwise_lt` — what such a list begins with.
* `VersionedTree.mem_take_or_of_pairwise` — the beginning of a list and what comes later.
* `VersionedTree.filter_isInfix` — what has no gap in a list is a part of it.
-/

set_option autoImplicit false

namespace VersionedTree

section Comparison

variable {α : Type} {cmp : α → α → Ordering} {l l' : List α} {a b : α}

/-- What does not come later comes before, unless it is equal in all keys. -/
lemma cmp_eq_lt_of_isLE (h : (cmp a b).isLE = true) (hne : cmp a b ≠ .eq) : cmp a b = .lt := by
  cases hcmp : cmp a b with
  | lt => rfl
  | eq => exact absurd hcmp hne
  | gt =>
    rw [hcmp] at h
    cases h

variable [Std.TransCmp cmp]

/-- Nothing comes before itself. -/
lemma cmp_lt_irrefl (a : α) : cmp a a ≠ .lt := by
  have hself : cmp a a = .eq := Std.ReflCmp.compare_self
  rw [hself]
  decide

/-- Of two elements, not both come before the other one. -/
lemma cmp_lt_asymm (h : cmp a b = .lt) : cmp b a ≠ .lt :=
  fun h' => cmp_lt_irrefl a (Std.TransCmp.lt_trans h h')

instance cmpLt_irrefl : Std.Irrefl fun a b => cmp a b = .lt := ⟨cmp_lt_irrefl⟩

instance cmpLt_antisymm : Std.Antisymm fun a b => cmp a b = .lt :=
  ⟨fun _ _ hab hba => absurd hba (cmp_lt_asymm hab)⟩

/-- Sorting gives a list that ascends. -/
lemma pairwise_isLE_mergeSort (l : List α) :
    (l.mergeSort fun a b => (cmp a b).isLE).Pairwise fun a b => (cmp a b).isLE = true := by
  have htrans (a b c : α) (hab : (cmp a b).isLE = true) (hbc : (cmp b c).isLE = true) :
      (cmp a c).isLE = true := Std.TransCmp.isLE_trans hab hbc
  have htotal (a b : α) : ((cmp a b).isLE || (cmp b a).isLE) = true := by
    have hswap : cmp a b = (cmp b a).swap := Std.OrientedCmp.eq_swap
    rw [hswap]
    cases cmp b a <;> rfl
  exact List.pairwise_mergeSort htrans htotal l

/-- **Sorting gives a list that ascends strictly** if no two elements are equal in all keys. -/
theorem pairwise_lt_mergeSort (hl : l.Pairwise fun a b => cmp a b ≠ .eq) :
    (l.mergeSort fun a b => (cmp a b).isLE).Pairwise fun a b => cmp a b = .lt := by
  have hne : (l.mergeSort fun a b => (cmp a b).isLE).Pairwise fun a b => cmp a b ≠ .eq :=
    (List.mergeSort_perm l _).symm.pairwise hl fun h e => h (Std.OrientedCmp.eq_comm.1 e)
  exact (pairwise_isLE_mergeSort l).imp₂ (fun _ _ => cmp_eq_lt_of_isLE) hne

/-- **Sorting restores** a list that ascends strictly. -/
theorem mergeSort_eq_of_perm (hl : l.Pairwise fun a b => cmp a b = .lt) (hp : l'.Perm l) :
    l'.mergeSort (fun a b => (cmp a b).isLE) = l := by
  have hne : l.Pairwise fun a b => cmp a b ≠ .eq := by
    refine hl.imp ?_
    intro a b hlt heq
    rw [hlt] at heq
    cases heq
  have hne' : l'.Pairwise fun a b => cmp a b ≠ .eq :=
    hp.symm.pairwise hne fun h e => h (Std.OrientedCmp.eq_comm.1 e)
  refine (pairwise_lt_mergeSort hne').eq_of_mem_iff hl ?_
  intro a
  rw [List.mem_mergeSort, hp.mem_iff]

/-- The only arrangement that ascends strictly is the sorted one. -/
lemma pairwise_lt_iff_eq (hl : l.Pairwise fun a b => cmp a b = .lt) (hp : l'.Perm l) :
    (l'.Pairwise fun a b => cmp a b = .lt) ↔ l' = l := by
  constructor
  · intro hl'
    exact hl'.eq_of_mem_iff hl fun a => hp.mem_iff
  · rintro rfl
    exact hl

/-- A list that ascends strictly begins with the element that is before all others. -/
lemma head?_eq_some_iff_of_pairwise_lt (hl : l.Pairwise fun a b => cmp a b = .lt) :
    l.head? = some a ↔ a ∈ l ∧ ∀ b ∈ l, b ≠ a → cmp a b = .lt := by
  cases l with
  | nil => simp
  | cons first rest =>
    rw [List.head?_cons, Option.some.injEq]
    have hfirst := (List.pairwise_cons.1 hl).1
    constructor
    · rintro rfl
      exact ⟨List.mem_cons_self, fun b hb hne => hfirst b ((List.mem_cons.1 hb).resolve_left hne)⟩
    · rintro ⟨ha, hbefore⟩
      by_contra hne
      have hrest : a ∈ rest := (List.mem_cons.1 ha).resolve_left (Ne.symm hne)
      exact cmp_lt_asymm (hfirst a hrest) (hbefore first List.mem_cons_self hne)

end Comparison

/-! ## Beginnings of ordered lists -/

section Beginning

variable {α : Type} {R : α → α → Prop} {l : List α} {x : α} {count : Nat}

/-- What is not at the beginning of a list comes later. -/
lemma mem_drop_of_not_mem_take (hx : x ∈ l) (hlater : x ∉ l.take count) : x ∈ l.drop count := by
  rw [← List.take_append_drop count l, List.mem_append] at hx
  exact hx.resolve_left hlater

/-- The beginning of a list with order is in front of all that comes later. -/
lemma take_before_drop (h : l.Pairwise R) (count : Nat) :
    ∀ x ∈ l.take count, ∀ y ∈ l.drop count, R x y := by
  rw [← List.take_append_drop count l] at h
  exact (List.pairwise_append.1 h).2.2

/-- In a list with order, an element of it is among the first ones or comes after all of them. -/
lemma mem_take_or_of_pairwise (h : l.Pairwise R) (hx : x ∈ l) (count : Nat) :
    x ∈ l.take count ∨ ∀ y ∈ l.take count, R y x := by
  refine or_iff_not_imp_left.2 fun hlater y hy => ?_
  exact take_before_drop h count y hy x (mem_drop_of_not_mem_take hx hlater)

end Beginning

/-! ## Neighbours in ordered lists -/

section Neighbours

variable {α : Type} {R : α → α → Prop} {f : α → Bool} {l : List α}

/-- What is found without a gap from the beginning of a list is a beginning of it. -/
lemma filter_isPrefix (h : l.Pairwise R)
    (hf : ∀ y ∈ l, ∀ z ∈ l, R y z → f z = true → f y = true) : l.filter f <+: l := by
  induction l with
  | nil => exact List.prefix_rfl
  | cons x rest ih =>
    obtain ⟨hx, hrest⟩ := List.pairwise_cons.1 h
    cases hfx : f x with
    | true =>
      rw [List.filter_cons_of_pos hfx]
      exact List.cons_prefix_cons.2 ⟨rfl, ih hrest fun y hy z hz =>
        hf y (List.mem_cons_of_mem x hy) z (List.mem_cons_of_mem x hz)⟩
    | false =>
      have hnone : (x :: rest).filter f = [] := by
        refine List.filter_eq_nil_iff.2 fun z hz hfz => ?_
        rcases List.mem_cons.1 hz with rfl | hrz
        · simp [hfx] at hfz
        · simp [hf x List.mem_cons_self z hz (hx z hrz) hfz] at hfx
      rw [hnone]
      exact List.nil_prefix

/-- **What has no gap in a list** is a part of it: what is between two elements that are found is
found as well. -/
theorem filter_isInfix (h : l.Pairwise R)
    (hf : ∀ x ∈ l, ∀ y ∈ l, ∀ z ∈ l, R x y → R y z → f x = true → f z = true → f y = true) :
    l.filter f <:+: l := by
  induction l with
  | nil => exact List.infix_rfl
  | cons x rest ih =>
    obtain ⟨hx, hrest⟩ := List.pairwise_cons.1 h
    cases hfx : f x with
    | true =>
      rw [List.filter_cons_of_pos hfx]
      refine (List.cons_prefix_cons.2 ⟨rfl, filter_isPrefix hrest ?_⟩).isInfix
      intro y hy z hz hyz hfz
      exact hf x List.mem_cons_self y (List.mem_cons_of_mem x hy) z (List.mem_cons_of_mem x hz)
        (hx y hy) hyz hfx hfz
    | false =>
      rw [List.filter_cons_of_neg (by simp [hfx])]
      refine List.infix_cons (ih hrest fun u hu y hy z hz => ?_)
      exact hf u (List.mem_cons_of_mem x hu) y (List.mem_cons_of_mem x hy) z
        (List.mem_cons_of_mem x hz)

end Neighbours

end VersionedTree
