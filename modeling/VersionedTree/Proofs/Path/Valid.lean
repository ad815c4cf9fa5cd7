import VersionedTree.Proofs.Path.Ancestry

/-!
# Valid paths

A text is a path if all of its labels are labels. Labels are not empty, so that the transfer of a
path by its labels and that of its text by characters agree.

## Main definitions

* `VersionedTree.Path.IsLabel` — the texts of segments.
* `VersionedTree.Path.Inherited` — properties of places that moves keep.

## Main results

* `VersionedTree.Path.valid_iff` — the root, and texts made of labels, are valid.
* `VersionedTree.Path.isDirectlyBelow_of_parent` — valid places are directly below their parents.
* `VersionedTree.Path.valid_graft` — moves lead to valid paths.
* `VersionedTree.Path.covers_iff_foldl_join` — the places below a place have further labels.
* `VersionedTree.Path.graft_foldl_join` — moves keep the labels that follow.
* `VersionedTree.Path.rebase_eq_graft` — the transfer of paths is that of texts.
-/

set_option autoImplicit false

namespace VersionedTree.Path

variable {p a source target : Path}

instance (p : Path) : Decidable p.Valid :=
  inferInstanceAs (Decidable (fromEncoded p.encoded = .ok p))

/-- Is this the text of a segment? -/
def IsLabel (label : List Char) : Prop := ∃ segment, Label.decode label = .ok segment

/-- No label is empty. -/
lemma IsLabel.ne_nil {label : List Char} (h : IsLabel label) : label ≠ [] := by
  obtain ⟨segment, h⟩ := h
  rintro rfl
  simp [Label.decode] at h

/-- No label is left out for being empty. -/
lemma filter_isLabel {labels : List (List Char)} (h : ∀ label ∈ labels, IsLabel label) :
    labels.filter (fun label => !label.isEmpty) = labels := by
  refine List.filter_eq_self.2 ?_
  intro label hl
  simpa using (h label hl).ne_nil

/-- The check finds nothing wrong if all labels are labels. -/
lemma checkLabels_eq_ok {labels : List (List Char)} :
    checkLabels labels = .ok () ↔ ∀ label ∈ labels, IsLabel label := by
  induction labels with
  | nil => simp [checkLabels]
  | cons label rest ih =>
    unfold checkLabels
    cases h : Label.decode label with
    | ok segment => simp [ih, IsLabel, h]
    | error fault => simp [IsLabel, h]

/-- The root is valid, and other texts are if all their labels are labels. -/
lemma valid_iff : p.Valid ↔ p.isRoot = true ∨ ∀ label ∈ p.chars.splitOn '.', IsLabel label := by
  unfold Valid fromEncoded
  split
  · next hr =>
    obtain rfl := eq_root hr
    exact iff_of_true rfl (.inl rfl)
  · next hr =>
    have hroot : ¬p.isRoot = true := hr
    rw [or_iff_right hroot, ← checkLabels_eq_ok, chars]
    split
    · next h => simp [h]
    · next e h => simp [h]

/-- A text that is accepted is the path. -/
lemma valid_of_fromEncoded {encoded : String} (h : fromEncoded encoded = .ok p) :
    p.Valid ∧ p.encoded = encoded := by
  suffices he : p.encoded = encoded by
    exact ⟨by rw [Valid, he, h], he⟩
  unfold fromEncoded at h
  split at h
  · next hr =>
    obtain rfl := Except.ok.inj h
    obtain rfl : encoded = "" := by simpa using hr
    rfl
  · split at h
    · obtain rfl := Except.ok.inj h
      rfl
    · cases h

/-- No further label is between a valid place and its parent. -/
lemma isDirectlyBelow_of_parent (hp : p.Valid) (h : p.parent = some a) :
    a.isDirectlyBelow p = true := by
  obtain ⟨hr, label, hl, ⟨ha, e⟩ | e⟩ := chars_of_parent h
  · simp [isDirectlyBelow, isRoot_iff.1 ha, e, hl]
  · have hne : a.chars ≠ [] := by
      intro ha
      have hlabels := (valid_iff.1 hp).resolve_left (by simp [hr])
      rw [e, ha, List.splitOn_append_cons_self] at hlabels
      have hempty : IsLabel [] := hlabels [] (by simp)
      exact hempty.ne_nil rfl
    simp [isDirectlyBelow, hne, e, hl]

/-! ## Moves -/

/-- **Moves lead to valid paths**: what follows the moved place are labels still. -/
lemma valid_graft (hs : source.isRoot = false) (hp : p.Valid) (ht : target.Valid)
    (htr : target.isRoot = false) (hc : source.covers p = true) :
    (p.graft source target).Valid := by
  rcases covers_iff.1 hc with h | rfl | ⟨rest, e⟩
  · simp [hs] at h
  · rwa [graft_source]
  · have hpr : ¬p.isRoot = true := by simp [isRoot_below hs hc]
    have hlabels := (valid_iff.1 hp).resolve_left hpr
    rw [e, List.splitOn_append_cons_self] at hlabels
    have htarget := (valid_iff.1 ht).resolve_left (by simp [htr])
    refine valid_iff.2 (.inr fun label hl => ?_)
    rw [chars_graft target e, List.splitOn_append_cons_self, List.mem_append] at hl
    rcases hl with hl | hl
    · exact htarget label hl
    · exact hlabels label (List.mem_append_right _ hl)

/-- A property of places that the top has and that moves keep. -/
structure Inherited (P : Path → Prop) : Prop where
  root : P root
  graft {p source target : Path} (hs : source.isRoot = false) (ht : target.isRoot = false)
    (hc : source.covers p = true) (hp : P p) (htarget : P target) : P (p.graft source target)

/-- Valid places are inherited. -/
lemma inherited_valid : Inherited Valid where
  root := rfl
  graft hs ht hc hp htarget := valid_graft hs hp htarget ht hc

/-- A character that is in no place is not brought about by moves. -/
lemma inherited_not_mem (c : Char) : Inherited fun p => c ∉ p.chars where
  root := List.not_mem_nil
  graft {p source target} _ _ _ hp ht := by
    unfold graft
    split
    · exact ht
    · rw [chars_ofChars, List.mem_append, not_or]
      exact ⟨ht, fun hc => hp (List.mem_of_mem_drop hc)⟩

/-- The labels of a text, each with a dot before it, make up the text with a dot before it. -/
lemma flatMap_splitOn (cs : List Char) :
    (cs.splitOn '.').flatMap (fun label => '.' :: label) = '.' :: cs := by
  induction cs with
  | nil => rfl
  | cons c rest ih =>
    rw [List.splitOn_cons_eq_if_modifyHead]
    by_cases hc : c = '.'
    · simp [hc, ih]
    · obtain ⟨label, more, h⟩ := List.exists_cons_of_ne_nil (List.splitOn_ne_nil '.' rest)
      rw [h] at ih
      simp only [List.flatMap_cons, List.cons_append, List.cons.injEq, true_and] at ih
      simp [h, hc, ih]

/-- Below the root, a label is joined with a dot. -/
lemma chars_join (h : a.isRoot = false) (label : List Char) :
    (a.join label).chars = a.chars ++ '.' :: label := by
  simp [join, h]

/-- A path with a label more is not the root. -/
lemma isRoot_join (h : a.isRoot = false) (label : List Char) : (a.join label).isRoot = false := by
  rw [Bool.eq_false_iff, ne_eq, isRoot_iff, chars_join h]
  simp

/-- Labels that are joined one after the other come with a dot each. -/
lemma chars_foldl_join (labels : List (List Char)) :
    ∀ target : Path, target.isRoot = false → (labels.foldl join target).chars =
      target.chars ++ labels.flatMap (fun label => '.' :: label) := by
  induction labels with
  | nil => simp
  | cons label rest ih =>
    intro target ht
    rw [List.foldl_cons, ih _ (isRoot_join ht label), chars_join ht]
    simp

/-- **The places at and below a place** are those of labels joined to it.

**Proof sketch.** Induction on the length of the text. The parent of a place below is at or below
the place as well, and lacks one label. -/
lemma covers_iff_foldl_join (h : a.isRoot = false) : a.covers p = true ↔
    ∃ labels : List (List Char), (∀ label ∈ labels, '.' ∉ label) ∧ p = labels.foldl join a := by
  constructor
  · intro hc
    induction hlen : p.chars.length using Nat.strong_induction_on generalizing p with
    | _ k ih =>
      subst hlen
      by_cases e : a = p
      · exact ⟨[], by simp, e.symm⟩
      · obtain ⟨q, hq⟩ := exists_parent (isRoot_below h hc)
        have hqc : a.covers q = true := (covers_parent_iff hq).2 ⟨hc, e⟩
        have hqr := isRoot_below h hqc
        obtain ⟨labels, hl, eq⟩ := ih _ (length_chars_parent_lt hq) hqc rfl
        obtain ⟨-, label, hdot, ⟨hroot, -⟩ | ep⟩ := chars_of_parent hq
        · rw [hroot] at hqr
          cases hqr
        · refine ⟨labels ++ [label], List.forall_mem_append.2 ⟨hl, by simpa using hdot⟩, ?_⟩
          rw [List.foldl_append, ← eq]
          exact eq_of_chars (ep.trans (chars_join hqr label).symm)
  · rintro ⟨labels, -, rfl⟩
    have e := chars_foldl_join labels a h
    cases labels with
    | nil => exact covers_refl a
    | cons label rest => exact covers_iff.2 (.inr (.inr ⟨_, e⟩))

/-- **A move keeps labels.** -/
lemma graft_foldl_join (hs : source.isRoot = false) (ht : target.isRoot = false)
    (labels : List (List Char)) :
    (labels.foldl join source).graft source target = labels.foldl join target := by
  cases labels with
  | nil => exact graft_source
  | cons label rest =>
    have e := chars_foldl_join (label :: rest) source hs
    exact eq_of_chars
      ((chars_graft target e).trans (chars_foldl_join (label :: rest) target ht).symm)

/-- **The transfer of a path** by its labels is the transfer of its text. -/
lemma rebase_eq_graft (hs : source.isRoot = false) (ht : target.isRoot = false) (hp : p.Valid)
    (hc : source.covers p = true) : p.rebase source target = some (p.graft source target) := by
  rw [rebase, isAncestorOf_eq_covers, if_pos hc, Option.some.injEq]
  refine eq_of_chars ?_
  rw [chars_foldl_join _ _ ht]
  rcases covers_iff.1 hc with h | rfl | ⟨rest, e⟩
  · simp [hs] at h
  · simp [depth]
  · have hpr : ¬p.isRoot = true := by simp [isRoot_below hs hc]
    have hlabels := (valid_iff.1 hp).resolve_left hpr
    rw [e, List.splitOn_append_cons_self] at hlabels
    have hrest := filter_isLabel fun label hl => hlabels label (List.mem_append_right _ hl)
    have hdrop : p.labels.drop source.depth = rest.splitOn '.' := by
      rw [labels, e, List.splitOn_append_cons_self, List.filter_append, hrest]
      exact List.drop_left
    rw [hdrop, flatMap_splitOn, chars_graft target e]

/-- The place itself becomes the new one, whatever it is. -/
lemma rebase_self (p target : Path) : p.rebase p target = some target := by
  rw [rebase, isAncestorOf_eq_covers, if_pos (covers_refl p)]
  simp [depth]

end VersionedTree.Path
