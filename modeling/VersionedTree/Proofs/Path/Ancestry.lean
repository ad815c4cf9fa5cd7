import Mathlib.Data.List.Pairwise
import Mathlib.Data.List.TakeWhile
import Mathlib.Tactic.Lemma
import VersionedTree.Path.Stored

/-!
# Ancestry on stored texts

The parent of a place cuts its text at the last dot, ancestry compares a text with the beginning of
another, and a move exchanges the beginning of a text. All three speak of the same tree, for
texts of any form: also for those that no path has.

## Main results

* `VersionedTree.Path.covers_iff` — the texts at and below a place.
* `VersionedTree.Path.covers_total` — places above one place are above each other.
* `VersionedTree.Path.covers_parent_iff` — ancestry climbs by parents.
* `VersionedTree.Path.mem_ancestors` — the ancestors are the other places above.
* `VersionedTree.Path.graft_inj`, `VersionedTree.Path.parent_graft` — a move of a directory keeps
  places apart, and keeps parents.
-/

set_option autoImplicit false

namespace VersionedTree.Path

variable {p q a source target : Path}

/-- Paths are equal if their characters are. -/
lemma eq_of_chars (h : p.chars = q.chars) : p = q := by
  rw [← ofChars_chars p, h, ofChars_chars]

/-- The root has no characters. -/
lemma isRoot_iff : p.isRoot = true ↔ p.chars = [] := by
  simp [isRoot]

/-- There is one root. -/
lemma eq_root (h : p.isRoot = true) : p = root :=
  eq_of_chars (isRoot_iff.1 h)

/-! ## Places below a place -/

/-- The root covers every text, another place the texts that are its own or go on from it with a
dot. -/
lemma covers_iff :
    a.covers p = true ↔ a.isRoot = true ∨ p = a ∨ ∃ rest, p.chars = a.chars ++ '.' :: rest := by
  have hchars : p.chars = a.chars ↔ p = a := ⟨eq_of_chars, fun h => h ▸ rfl⟩
  have htake : p.chars.take (a.chars.length + 1) = a.chars ++ ['.'] ↔
      ∃ rest, p.chars = a.chars ++ '.' :: rest := by
    constructor
    · intro h
      refine ⟨p.chars.drop (a.chars.length + 1), ?_⟩
      calc p.chars
          = p.chars.take (a.chars.length + 1) ++ p.chars.drop (a.chars.length + 1) :=
            (List.take_append_drop _ _).symm
        _ = a.chars ++ '.' :: p.chars.drop (a.chars.length + 1) := by rw [h]; simp
    · rintro ⟨rest, h⟩
      rw [h, List.take_length_add_append]
      simp
  simp only [covers, isRoot, Bool.or_eq_true, beq_iff_eq, hchars, htake, or_assoc]

/-- Ancestry of paths is ancestry of stored texts. -/
lemma isAncestorOf_eq_covers : a.isAncestorOf p = a.covers p := by
  rw [Bool.eq_iff_iff, covers_iff, isAncestorOf, Bool.or_eq_true, Bool.or_eq_true, beq_iff_eq,
    or_assoc, eq_comm (a := a)]
  refine or_congr_right (or_congr_right ?_)
  constructor
  · intro h
    split at h
    · next rest he => exact ⟨rest, (List.append_eq_of_isPrefixOf?_eq_some he).symm⟩
    · cases h
  · rintro ⟨rest, h⟩
    have he : a.chars.isPrefixOf? p.chars = some ('.' :: rest) :=
      List.isPrefixOf?_eq_some_iff_append_eq.2 h.symm
    simp only [he]

/-- Every path is at itself. -/
lemma covers_refl (p : Path) : p.covers p = true := covers_iff.2 (.inr (.inl rfl))

/-- Only the root is at or above the root. -/
lemma isRoot_of_covers (h : a.covers p = true) (hp : p.isRoot = true) : a.isRoot = true := by
  rcases covers_iff.1 h with ha | rfl | ⟨rest, e⟩
  · exact ha
  · exact hp
  · rw [isRoot_iff.1 hp] at e
    simp at e

/-- Below a place other than the root is no root. -/
lemma isRoot_below (ha : a.isRoot = false) (h : a.covers p = true) : p.isRoot = false := by
  rw [Bool.eq_false_iff]
  intro hp
  rw [isRoot_of_covers h hp] at ha
  cases ha

/-- Below another place is no root. -/
lemma isRoot_of_covers_ne (h : a.covers p = true) (hne : a ≠ p) : p.isRoot = false := by
  rw [Bool.eq_false_iff]
  intro hp
  exact hne ((eq_root (isRoot_of_covers h hp)).trans (eq_root hp).symm)

/-- **Of two places at or above a third**, one is at or above the other. -/
lemma covers_total (ha : a.covers p = true) (hq : q.covers p = true) :
    a.covers q = true ∨ q.covers a = true := by
  rcases covers_iff.1 ha with hroot | rfl | ⟨r, er⟩
  · exact .inl (covers_iff.2 (.inl hroot))
  · exact .inr hq
  · rcases covers_iff.1 hq with hroot | rfl | ⟨s, es⟩
    · exact .inr (covers_iff.2 (.inl hroot))
    · exact .inl ha
    · have extends_of {x y : Path} {u v more : List Char} (hy : y.chars = x.chars ++ more)
          (hmore : '.' :: u = more ++ '.' :: v) : x.covers y = true := by
        refine covers_iff.2 (.inr ?_)
        cases more with
        | nil => exact .inl (eq_of_chars (by simpa using hy))
        | cons c more =>
          obtain ⟨rfl, -⟩ := List.cons.inj hmore
          exact .inr ⟨more, hy⟩
      rcases List.append_eq_append_iff.1 (er.symm.trans es) with ⟨more, hy, hm⟩ | ⟨more, hy, hm⟩
      · exact .inl (extends_of hy hm)
      · exact .inr (extends_of hy hm)

/-! ## Parents -/

/-- Nothing is before the last dot of a text without one. -/
lemma beforeLastDot_of_not_mem {cs : List Char} (h : '.' ∉ cs) : beforeLastDot cs = [] := by
  have hall : cs.reverse.dropWhile (· != '.') = [] := by
    refine List.dropWhile_eq_nil_iff.2 fun c hc => ?_
    exact bne_iff_ne.2 fun e => h (e ▸ List.mem_reverse.1 hc)
  simp [beforeLastDot, hall]

/-- Before a last label stands what it was joined to. -/
lemma beforeLastDot_append (cs : List Char) {label : List Char} (h : '.' ∉ label) :
    beforeLastDot (cs ++ '.' :: label) = cs := by
  have hskip : (label.reverse ++ '.' :: cs.reverse).dropWhile (· != '.') = '.' :: cs.reverse := by
    rw [List.dropWhile_append_of_pos fun c hc => ?_]
    · simp
    · exact bne_iff_ne.2 fun e => h (e ▸ List.mem_reverse.1 hc)
  simp [beforeLastDot, hskip]

/-- A text with a dot has a last one. -/
lemma exists_last_dot {cs : List Char} (h : '.' ∈ cs) :
    ∃ before label, '.' ∉ label ∧ cs = before ++ '.' :: label := by
  induction cs with
  | nil => cases h
  | cons c rest ih =>
    by_cases hr : '.' ∈ rest
    · obtain ⟨before, label, hl, e⟩ := ih hr
      exact ⟨c :: before, label, hl, by rw [e]; rfl⟩
    · rcases List.mem_cons.1 h with rfl | h
      · exact ⟨[], rest, hr, rfl⟩
      · exact absurd h hr

/-- What goes on from a text with a dot has a parent that is this text, or goes on from it. -/
lemma parent_of_append {cs rest : List Char} (e : p.chars = cs ++ '.' :: rest) :
    p.parent = some (ofChars (beforeLastDot p.chars)) := by
  have hp : p.isRoot = false := by
    rw [Bool.eq_false_iff, ne_eq, isRoot_iff, e]
    simp
  simp [parent, hp]

/-- A place that has a parent is no root, and its text is one label, or that of the parent and a
label. -/
lemma chars_of_parent (h : p.parent = some q) :
    p.isRoot = false ∧ ∃ label, '.' ∉ label ∧
      (q.isRoot = true ∧ p.chars = label ∨ p.chars = q.chars ++ '.' :: label) := by
  unfold parent at h
  split at h
  · cases h
  · next hr =>
    obtain rfl := Option.some.inj h
    refine ⟨by simpa using hr, ?_⟩
    by_cases hd : '.' ∈ p.chars
    · obtain ⟨before, label, hl, e⟩ := exists_last_dot hd
      refine ⟨label, hl, .inr ?_⟩
      rw [e, beforeLastDot_append before hl, chars_ofChars]
    · refine ⟨p.chars, hd, .inl ⟨?_, rfl⟩⟩
      rw [isRoot_iff, beforeLastDot_of_not_mem hd, chars_ofChars]

/-- Every path but the root has a parent. -/
lemma exists_parent (h : p.isRoot = false) : ∃ q, p.parent = some q := by
  simp [parent, h]

/-- A parent covers its children. -/
lemma covers_of_parent (h : p.parent = some q) : q.covers p = true := by
  obtain ⟨-, label, -, ⟨hq, -⟩ | e⟩ := chars_of_parent h
  · exact covers_iff.2 (.inl hq)
  · exact covers_iff.2 (.inr (.inr ⟨label, e⟩))

/-- No path is its own parent. -/
lemma ne_of_parent (h : p.parent = some q) : p ≠ q := by
  rintro rfl
  exact absurd (length_chars_parent_lt h) (Nat.lt_irrefl _)

/-- What is inside of something inside is inside. -/
lemma covers_trans (haq : a.covers q = true) (hqp : q.covers p = true) : a.covers p = true := by
  rcases covers_iff.1 haq with ha | rfl | ⟨r, er⟩
  · exact covers_iff.2 (.inl ha)
  · exact hqp
  · rcases covers_iff.1 hqp with hq | rfl | ⟨s, es⟩
    · rw [isRoot_iff.1 hq] at er
      simp at er
    · exact haq
    · refine covers_iff.2 (.inr (.inr ⟨r ++ '.' :: s, ?_⟩))
      rw [es, er]
      simp

/-- **Ancestry climbs by parents**: above a place is what is at or above its parent.

**Proof sketch.** If `p` goes on from `a` with a dot, then the part after that dot is a single
label, and the parent is `a`, or it has a last dot itself, and the parent goes on from `a`. -/
lemma covers_parent_iff (h : p.parent = some q) :
    a.covers q = true ↔ a.covers p = true ∧ a ≠ p := by
  constructor
  · intro haq
    refine ⟨covers_trans haq (covers_of_parent h), ?_⟩
    rintro rfl
    rcases covers_iff.1 haq with ha | rfl | ⟨rest, e⟩
    · simp [(chars_of_parent h).1] at ha
    · exact ne_of_parent h rfl
    · have := length_chars_parent_lt h
      rw [e, List.length_append, List.length_cons] at this
      omega
  · rintro ⟨hap, hne⟩
    rcases covers_iff.1 hap with ha | rfl | ⟨rest, e⟩
    · exact covers_iff.2 (.inl ha)
    · exact absurd rfl hne
    · rw [parent_of_append e] at h
      obtain rfl := Option.some.inj h
      refine covers_iff.2 (.inr ?_)
      by_cases hd : '.' ∈ rest
      · obtain ⟨before, label, hl, er⟩ := exists_last_dot hd
        refine .inr ⟨before, ?_⟩
        have hcut := beforeLastDot_append (a.chars ++ '.' :: before) hl
        rw [chars_ofChars, e, er]
        simpa using hcut
      · refine .inl (eq_of_chars ?_)
        rw [chars_ofChars, e, beforeLastDot_append a.chars hd]

/-- **The ancestors** of a place are the other places that cover it. -/
lemma mem_ancestors : a ∈ p.ancestors ↔ a.covers p = true ∧ a ≠ p := by
  fun_induction ancestors p with
  | case1 p hp =>
    have hroot : p.isRoot = true := by
      cases hr : p.isRoot with
      | true => rfl
      | false =>
        obtain ⟨q, hq⟩ := exists_parent hr
        simp [hp] at hq
    simp only [List.not_mem_nil, false_iff, not_and, not_not]
    exact fun ha => (eq_root (isRoot_of_covers ha hroot)).trans (eq_root hroot).symm
  | case2 p q hq ih =>
    rw [List.mem_cons, ih, ← covers_parent_iff hq]
    constructor
    · rintro (rfl | ⟨h, -⟩)
      · exact covers_refl _
      · exact h
    · intro h
      by_cases e : a = q
      · exact .inl e
      · exact .inr ⟨h, e⟩

/-! ## Moves -/

/-- A text that goes on from another one is another one. -/
lemma ne_of_append {rest : List Char} (e : p.chars = a.chars ++ '.' :: rest) : p ≠ a := by
  rintro rfl
  simpa using congrArg List.length e

/-- The top itself gets the new place. -/
@[simp] lemma graft_source : source.graft source target = target := by simp [graft]

/-- A text that goes on from the moved one goes on from the new one in the same way. -/
lemma chars_graft (target : Path) {rest : List Char} (e : p.chars = source.chars ++ '.' :: rest) :
    (p.graft source target).chars = target.chars ++ '.' :: rest := by
  simp [graft, ne_of_append e, e]

/-- What moves along to a place other than the root is no root there. -/
lemma isRoot_graft (hs : source.isRoot = false) (ht : target.isRoot = false)
    (hc : source.covers p = true) : (p.graft source target).isRoot = false := by
  rcases covers_iff.1 hc with h | rfl | ⟨rest, e⟩
  · simp [hs] at h
  · rwa [graft_source]
  · rw [Bool.eq_false_iff, ne_eq, isRoot_iff, chars_graft target e]
    simp

/-- What moves along is at or below the new place. -/
lemma covers_graft (hs : source.isRoot = false) (hc : source.covers p = true) :
    target.covers (p.graft source target) = true := by
  rcases covers_iff.1 hc with h | rfl | ⟨rest, e⟩
  · simp [hs] at h
  · rw [graft_source]
    exact covers_refl target
  · exact covers_iff.2 (.inr (.inr ⟨rest, chars_graft target e⟩))

/-- **Different places stay different** when they move along. -/
lemma graft_inj (hs : source.isRoot = false) (hp : source.covers p = true)
    (hq : source.covers q = true) (h : p.graft source target = q.graft source target) :
    p = q := by
  rcases covers_iff.1 hp with hr | rfl | ⟨rest, e⟩
  · simp [hs] at hr
  · rcases covers_iff.1 hq with hr | rfl | ⟨rest, e⟩
    · simp [hs] at hr
    · rfl
    · rw [graft_source] at h
      exact absurd h.symm (ne_of_append (chars_graft target e))
  · rcases covers_iff.1 hq with hr | rfl | ⟨rest', e'⟩
    · simp [hs] at hr
    · rw [graft_source] at h
      exact absurd h (ne_of_append (chars_graft target e))
    · have hchars := congrArg chars h
      rw [chars_graft target e, chars_graft target e', List.append_cancel_left_eq] at hchars
      exact eq_of_chars (by rw [e, e', hchars])

/-- **A move keeps parents** below the place that is moved. -/
lemma parent_graft (hs : source.isRoot = false) (hc : source.covers q = true)
    (h : p.parent = some q) : (p.graft source target).parent = some (q.graft source target) := by
  obtain ⟨-, label, hl, ⟨hq, -⟩ | e⟩ := chars_of_parent h
  · simp [isRoot_of_covers hc hq] at hs
  · rcases covers_iff.1 hc with h | rfl | ⟨rest, er⟩
    · simp [hs] at h
    · have hp := chars_graft target e
      rw [parent_of_append hp, hp, beforeLastDot_append target.chars hl, ofChars_chars,
        graft_source]
    · have e' : p.chars = source.chars ++ '.' :: (rest ++ '.' :: label) := by
        rw [e, er]
        simp
      have hp := chars_graft target e'
      have hcut := beforeLastDot_append (target.chars ++ '.' :: rest) hl
      rw [parent_of_append hp, Option.some.injEq]
      refine eq_of_chars ?_
      rw [chars_ofChars, hp, chars_graft target er]
      simpa using hcut

/-- **A move back** gives back the places. -/
lemma graft_graft (hs : source.isRoot = false) (hc : source.covers p = true) :
    (p.graft source target).graft target source = p := by
  rcases covers_iff.1 hc with hr | rfl | ⟨rest, e⟩
  · simp [hs] at hr
  · rw [graft_source, graft_source]
  · exact eq_of_chars ((chars_graft source (chars_graft target e)).trans e.symm)

/-- What moves along to its own place stays. -/
lemma graft_self (hs : source.isRoot = false) (hc : source.covers p = true) :
    p.graft source source = p := by
  rcases covers_iff.1 hc with hr | rfl | ⟨rest, e⟩
  · simp [hs] at hr
  · exact graft_source
  · exact eq_of_chars ((chars_graft source e).trans e.symm)

/-- What moves along to another place gets another place. -/
lemma graft_ne (hs : source.isRoot = false) (hc : source.covers p = true) (hne : source ≠ target) :
    p.graft source target ≠ p := by
  intro h
  rcases covers_iff.1 hc with hr | rfl | ⟨rest, e⟩
  · simp [hs] at hr
  · exact hne (graft_source.symm.trans h).symm
  · have hchars := (chars_graft target e).symm.trans ((congrArg chars h).trans e)
    exact hne (eq_of_chars (List.append_cancel_right hchars)).symm

end VersionedTree.Path
