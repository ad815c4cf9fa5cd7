import VersionedTree.Proofs.Path.LabelOrder

/-!
# Siblings

Two places with one parent differ in their last label only, and they are ordered by the bytes of
these labels.

## Main definitions

* `VersionedTree.Path.lastLabelBytes` — the stored spelling of a place's last label, in bytes.

## Main results

* `VersionedTree.Path.parent_eq_some_iff` — the places directly below a place are its children.
* `VersionedTree.Path.eq_of_siblings_cover` — nothing is at or below two siblings.
* `VersionedTree.Path.Valid.labels_of_parent` — the last label of a place.
* `VersionedTree.Path.order_eq_lt_iff` — the order of siblings.
-/

set_option autoImplicit false

namespace VersionedTree.Path

variable {p q a : Path}

/-! ## Places directly below -/

/-- No further label is between a place and the one that it is directly below. -/
lemma parent_of_isDirectlyBelow (hc : a.covers p = true) (hne : a ≠ p)
    (h : a.isDirectlyBelow p = true) : p.parent = some a := by
  have hp : p.isRoot = false := isRoot_of_covers_ne hc hne
  rw [parent, if_neg (by simp [hp]), Option.some.injEq]
  refine eq_of_chars ?_
  rw [chars_ofChars]
  cases hroot : a.isRoot with
  | true =>
    have ha : a.chars = [] := isRoot_iff.1 hroot
    rw [ha]
    refine beforeLastDot_of_not_mem ?_
    simpa [isDirectlyBelow, ha] using h
  | false =>
    rcases covers_iff.1 hc with hr | rfl | ⟨rest, e⟩
    · rw [hroot] at hr
      cases hr
    · exact absurd rfl hne
    · have ha : a.chars ≠ [] := fun ha => by simp [isRoot_iff.2 ha] at hroot
      have hdot : '.' ∉ rest := by simpa [isDirectlyBelow, ha, e] using h
      rw [e, beforeLastDot_append a.chars hdot]

/-- **The places directly below a place** are its children, among valid ones. -/
theorem parent_eq_some_iff (hp : p.Valid) :
    p.parent = some a ↔ a.covers p = true ∧ a ≠ p ∧ a.isDirectlyBelow p = true := by
  constructor
  · intro h
    exact ⟨covers_of_parent h, (ne_of_parent h).symm, isDirectlyBelow_of_parent hp h⟩
  · rintro ⟨hc, hne, h⟩
    exact parent_of_isDirectlyBelow hc hne h

/-! ## Places below siblings -/

/-- No place covers its parent. -/
lemma not_covers_parent (h : p.parent = some a) : p.covers a = false := by
  rw [Bool.eq_false_iff]
  intro hc
  exact ((covers_parent_iff h).1 hc).2 rfl

/-- **Siblings cover different places.** -/
theorem eq_of_siblings_cover (hp : p.parent = some a) (hq : q.parent = some a) {m : Path}
    (hpm : p.covers m = true) (hqm : q.covers m = true) : p = q := by
  by_contra hne
  rcases covers_total hpm hqm with hc | hc
  · have habove : p.covers a = true := (covers_parent_iff hq).2 ⟨hc, hne⟩
    simp [not_covers_parent hp] at habove
  · have habove : q.covers a = true := (covers_parent_iff hp).2 ⟨hc, Ne.symm hne⟩
    simp [not_covers_parent hq] at habove

/-! ## Last labels -/

/-- The stored spelling of a place's last label, in bytes; there are none for the root. -/
def lastLabelBytes (p : Path) : List UInt8 :=
  (String.ofList (p.labels.getLast?.getD [])).toUTF8.data.toList

/-- **The last label** of a place follows the labels of its parent. -/
lemma Valid.labels_of_parent (hp : p.Valid) (h : p.parent = some a) :
    ∃ label, IsLabel label ∧ p.labels = a.labels ++ [label] := by
  obtain ⟨hr, label, hdot, hchars⟩ := chars_of_parent h
  have hlabels := (valid_iff.1 hp).resolve_left (by simp [hr])
  have hsingle : label.splitOn '.' = [label] := List.splitOn_eq_singleton hdot
  obtain ⟨before, hsplit, hbefore⟩ : ∃ before, p.chars.splitOn '.' = before ++ [label] ∧
      before.filter (fun l => !l.isEmpty) = a.labels := by
    rcases hchars with ⟨hroot, e⟩ | e
    · refine ⟨[], by rw [e, hsingle]; rfl, ?_⟩
      rw [eq_root hroot]
      rfl
    · exact ⟨a.chars.splitOn '.', by rw [e, List.splitOn_append_cons_self, hsingle], rfl⟩
  have hlabel : IsLabel label := by
    rw [hsplit, List.forall_mem_append] at hlabels
    exact hlabels.2 label (List.mem_singleton_self label)
  have hkept : [label].filter (fun l => !l.isEmpty) = [label] :=
    filter_isLabel (List.forall_mem_singleton.2 hlabel)
  exact ⟨label, hlabel, by rw [labels, hsplit, List.filter_append, hbefore, hkept]⟩

/-! ## The order of siblings -/

/-- **Siblings are ordered** by the bytes of their last labels. -/
theorem order_eq_lt_iff (hp : p.Valid) (hq : q.Valid) (hpa : p.parent = some a)
    (hqa : q.parent = some a) : p.order q = .lt ↔ p.lastLabelBytes < q.lastLabelBytes := by
  obtain ⟨label, hl, e⟩ := hp.labels_of_parent hpa
  obtain ⟨label', hl', e'⟩ := hq.labels_of_parent hqa
  have hbyte (x y : UInt8) : compare x y = .lt ↔ x < y := compareOfLessAndEq_eq_lt
  calc p.order q = .lt
      ↔ compare label label' = .lt := by
        rw [hp.order_eq hq, e, e', compare_append_left, List.compare_cons_cons,
          List.compare_nil_nil, Ordering.then_eq]
    _ ↔ p.lastLabelBytes < q.lastLabelBytes := by
        rw [← hl.compare_bytes hl', compare_eq_lt_iff hbyte, lastLabelBytes, lastLabelBytes, e, e',
          List.getLast?_concat, List.getLast?_concat, Option.getD_some, Option.getD_some]

end VersionedTree.Path
