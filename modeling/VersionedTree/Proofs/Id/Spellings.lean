import Mathlib.Data.Option.Basic
import VersionedTree.Proofs.Id

/-!
# Spellings of identifiers

An identifier is read from its digits, from the hyphenated form, and from this form in braces or
after the name of the URN scheme. Letters may be in either case. It is read from nothing else.

## Main definitions

* `VersionedTree.Uuid.Spelled` — the texts that spell an identifier.

## Main results

* `VersionedTree.Uuid.ofDigits?_eq_some_iff`, `VersionedTree.Uuid.ofHyphenated?_eq_some_iff` — the
  digits of an identifier, and its hyphenated form.
* `VersionedTree.Uuid.parse?_eq_some_iff` — an identifier is read from its spellings.
-/

set_option autoImplicit false

namespace VersionedTree.Uuid

variable {u : Uuid} {cs : List Char}

/-- The spellings of an identifier: its digits, the hyphenated form, this form in braces, and this
form after the name of the URN scheme, with letters in either case. -/
inductive Spelled (u : Uuid) : List Char → Prop where
  | plain {cs : List Char} (h : cs.map Char.toLower = Hex.ofNat 32 u.bits) : Spelled u cs
  | hyphenated {cs : List Char} (h : cs.map Char.toLower = u.chars) : Spelled u cs
  | braced {cs : List Char} (h : cs.map Char.toLower = u.chars) : Spelled u ('{' :: cs ++ ['}'])
  | urn {mark cs : List Char} (hmark : mark.map Char.toLower = scheme)
    (h : cs.map Char.toLower = u.chars) : Spelled u (mark ++ cs)

/-! ## Digits -/

/-- **The digits** of an identifier are read in either letter case. -/
theorem ofDigits?_eq_some_iff :
    ofDigits? cs = some u ↔ cs.map Char.toLower = Hex.ofNat 32 u.bits := by
  constructor
  · intro h
    unfold ofDigits? at h
    split at h
    · next hlength =>
      obtain ⟨n, hn, rfl⟩ := Option.map_eq_some_iff.1 h
      obtain ⟨hlt, hdigits⟩ := Hex.toNat?_eq_some_iff.1 hn
      rw [hlength] at hlt hdigits
      rw [hdigits]
      exact congrArg (Hex.ofNat 32) (Nat.mod_eq_of_lt hlt).symm
    · cases h
  · intro h
    have hlength : cs.length = 32 := by
      rw [← List.length_map Char.toLower, h, Hex.length_ofNat]
    have hread : Hex.toNat? cs = some u.bits.val :=
      Hex.toNat?_eq_some_iff.2 ⟨hlength ▸ u.bits.isLt, hlength ▸ h⟩
    rw [ofDigits?, if_pos hlength, hread, Option.map_some, ofNat_bits]

/-- No other number of digits is read. -/
lemma ofDigits?_eq_none (h : cs.length ≠ 32) : ofDigits? cs = none := if_neg h

/-! ## Hyphens -/

/-- Hyphens are in no letter case. -/
lemma toLower_eq_hyphen_iff {c : Char} : c.toLower = '-' ↔ c = '-' := by
  by_cases h : c.toNat < 91
  · have hall : ∀ n < 91, (Char.ofNat n).toLower = '-' ↔ Char.ofNat n = '-' := by decide
    have hc := hall c.toNat h
    rwa [Char.ofNat_toNat] at hc
  · rw [(Hex.toLower_eq_self h).1]

/-- Hyphens are found in either letter case of the digits. -/
lemma unhyphenate?_map_toLower (cs : List Char) :
    unhyphenate? (cs.map Char.toLower) = (unhyphenate? cs).map (List.map Char.toLower) := by
  have hhyphen (i : Nat) : (cs.map Char.toLower)[i]? = some '-' ↔ cs[i]? = some '-' := by
    rw [List.getElem?_map]
    cases cs[i]? <;> simp [toLower_eq_hyphen_iff]
  unfold unhyphenate?
  simp only [List.length_map, hhyphen]
  split
  · simp only [Option.map_some, List.map_append, List.map_take, List.map_drop]
  · rfl

/-- What is between the hyphens is hyphenated to the whole. -/
lemma eq_hyphenate_of_unhyphenate? {digits : List Char} (h : unhyphenate? cs = some digits) :
    digits.length = 32 ∧ cs = hyphenate digits := by
  unfold unhyphenate? at h
  split at h
  · next hcs =>
    obtain ⟨hlength, h₈, h₁₃, h₁₈, h₂₃⟩ := hcs
    obtain rfl := Option.some.inj h
    have hcut {i : Nat} (hi : cs[i]? = some '-') : '-' :: cs.drop (i + 1) = cs.drop i := by
      obtain ⟨hlt, e⟩ := List.getElem?_eq_some_iff.1 hi
      rw [List.drop_eq_getElem_cons hlt, e]
    have hpart (n k : Nat) : (cs.drop n).take k ++ cs.drop (n + k) = cs.drop n := by
      rw [← List.drop_drop, List.take_append_drop]
    refine ⟨by simp [hlength], ?_⟩
    simp only [List.append_assoc]
    rw [hyphenate_append _ (by simp [hlength]) (by simp [hlength]) (by simp [hlength])
      (by simp [hlength]), hcut h₂₃, hpart 19 4, hcut h₁₈, hpart 14 4, hcut h₁₃, hpart 9 4, hcut h₈,
      List.take_append_drop]
  · cases h

/-- **The hyphenated form** of an identifier is read in either letter case. -/
theorem ofHyphenated?_eq_some_iff : ofHyphenated? cs = some u ↔ cs.map Char.toLower = u.chars :=
  calc
    ofHyphenated? cs = some u
    _ ↔ ∃ digits, unhyphenate? cs = some digits ∧
        digits.map Char.toLower = Hex.ofNat 32 u.bits := by
      rw [ofHyphenated?, Option.bind_eq_some_iff]
      simp only [ofDigits?_eq_some_iff]
    _ ↔ unhyphenate? (cs.map Char.toLower) = some (Hex.ofNat 32 u.bits) := by
      rw [unhyphenate?_map_toLower, Option.map_eq_some_iff]
    _ ↔ cs.map Char.toLower = u.chars := by
      refine ⟨fun h => (eq_hyphenate_of_unhyphenate? h).2, fun h => ?_⟩
      rw [h, chars, unhyphenate?_hyphenate (Hex.length_ofNat 32 u.bits)]

/-- A text of another length is not read as a hyphenated one. -/
lemma ofHyphenated?_eq_none (h : cs.length ≠ 36) : ofHyphenated? cs = none := by
  rw [ofHyphenated?, unhyphenate?, if_neg fun hcs => h hcs.1, Option.bind_none]

/-! ## Braces and schemes -/

/-- What stands in braces is all between the first character and the last one. -/
lemma unbrace?_eq_some_iff {inner : List Char} :
    unbrace? cs = some inner ↔ cs = '{' :: inner ++ ['}'] := by
  constructor
  · intro h
    unfold unbrace? at h
    split at h
    · split at h
      · next rest hlast =>
        obtain rfl := Option.some.inj h
        rw [List.cons_append, List.dropLast_append_getLast? _ hlast]
      · cases h
    · cases h
  · rintro rfl
    simp [unbrace?]

/-- The scheme is a mark in either letter case of its letters, and the rest comes after it. -/
lemma afterScheme?_eq_some_iff {rest : List Char} :
    afterScheme? cs = some rest ↔ ∃ mark, mark.map Char.toLower = scheme ∧ cs = mark ++ rest := by
  unfold afterScheme?
  constructor
  · intro h
    split at h
    · next hmark =>
      obtain rfl := Option.some.inj h
      exact ⟨_, hmark, (List.take_append_drop _ cs).symm⟩
    · cases h
  · rintro ⟨mark, hmark, rfl⟩
    have hlength : scheme.length = mark.length := by rw [← hmark, List.length_map]
    rw [hlength, List.take_left, List.drop_left, if_pos hmark]

/-! ## Reading -/

/-- The hyphenated form has 36 characters in either letter case. -/
lemma length_of_chars (h : cs.map Char.toLower = u.chars) : cs.length = 36 := by
  rw [← List.length_map Char.toLower, h, chars, length_hyphenate (Hex.length_ofNat 32 u.bits)]

/-- **An identifier is read** from its spellings and from nothing else.

**Proof sketch.** Each reader takes texts of a length of its own, so that none takes a text before
its turn. -/
theorem parse?_eq_some_iff {text : String} : parse? text = some u ↔ u.Spelled text.toList := by
  unfold parse?
  generalize text.toList = cs
  dsimp only
  constructor
  · intro h
    simp only [Option.orElse_eq_some, Option.bind_eq_some_iff] at h
    rcases h with h | ⟨-, h | ⟨-, ⟨inner, hinner, h⟩ | ⟨-, rest, hrest, h⟩⟩⟩
    · exact .plain (ofDigits?_eq_some_iff.1 h)
    · exact .hyphenated (ofHyphenated?_eq_some_iff.1 h)
    · obtain rfl := unbrace?_eq_some_iff.1 hinner
      exact .braced (ofHyphenated?_eq_some_iff.1 h)
    · obtain ⟨mark, hmark, rfl⟩ := afterScheme?_eq_some_iff.1 hrest
      exact .urn hmark (ofHyphenated?_eq_some_iff.1 h)
  · intro h
    cases h with
    | plain h =>
      rw [ofDigits?_eq_some_iff.2 h]
      rfl
    | hyphenated h =>
      have hlength : cs.length = 36 := length_of_chars h
      rw [ofDigits?_eq_none (by omega), ofHyphenated?_eq_some_iff.2 h]
      rfl
    | @braced cs h =>
      have hlength : ('{' :: cs ++ ['}']).length = 38 := by simp [length_of_chars h]
      have hinner : unbrace? ('{' :: cs ++ ['}']) = some cs := unbrace?_eq_some_iff.2 rfl
      rw [ofDigits?_eq_none (by omega), ofHyphenated?_eq_none (by omega), hinner, Option.bind_some,
        ofHyphenated?_eq_some_iff.2 h]
      rfl
    | @urn mark cs hmark h =>
      have hlength : (mark ++ cs).length = 45 := by
        rw [List.length_append, length_of_chars h, ← List.length_map Char.toLower, hmark]
        rfl
      have hbraces : (unbrace? (mark ++ cs)).bind ofHyphenated? = none := by
        rw [Option.bind_eq_none_iff]
        intro inner hinner
        refine ofHyphenated?_eq_none fun hshort => ?_
        rw [unbrace?_eq_some_iff.1 hinner] at hlength
        simp [hshort] at hlength
      have hrest : afterScheme? (mark ++ cs) = some cs :=
        afterScheme?_eq_some_iff.2 ⟨mark, hmark, rfl⟩
      rw [ofDigits?_eq_none (by omega), ofHyphenated?_eq_none (by omega), hbraces, hrest,
        Option.bind_some, ofHyphenated?_eq_some_iff.2 h]
      rfl

end VersionedTree.Uuid
