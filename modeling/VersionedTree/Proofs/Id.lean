import VersionedTree.Payload
import VersionedTree.Proofs.Hex

/-!
# Texts of identifiers and keys

The stored text of an identifier is read as that identifier. It has no dot, so that the blob of a
key is found again in the text of the key.

## Main results

* `VersionedTree.Id.parse?_text` — the stored text of an identifier is read as the identifier.
* `VersionedTree.Key.blobOfLocation?_text` — the text of a key names its blob.
-/

set_option autoImplicit false

namespace VersionedTree

/-! ## Identifiers -/

namespace Uuid

variable {digits : List Char}

/-- Four hyphens come to the digits. -/
lemma length_hyphenate (h : digits.length = 32) : (hyphenate digits).length = 36 := by
  simp [hyphenate, h]

/-- Nothing but hyphens is put in. -/
lemma mem_of_mem_hyphenate {c : Char} (h : c ∈ hyphenate digits) : c = '-' ∨ c ∈ digits := by
  have hpart {n k : Nat} (hc : c ∈ (digits.drop n).take k) : c ∈ digits :=
    List.mem_of_mem_drop (List.mem_of_mem_take hc)
  simp only [hyphenate, List.mem_append, List.mem_cons] at h
  rcases h with h | h | h | h | h | h | h | h | h
  · exact .inr (List.mem_of_mem_take h)
  · exact .inl h
  · exact .inr (hpart h)
  · exact .inl h
  · exact .inr (hpart h)
  · exact .inl h
  · exact .inr (hpart h)
  · exact .inl h
  · exact .inr (List.mem_of_mem_drop h)

/-- The parts between the hyphens, each with its length. -/
lemma exists_parts (h : digits.length = 32) :
    ∃ a b c d e : List Char, digits = a ++ (b ++ (c ++ (d ++ e))) ∧ a.length = 8 ∧ b.length = 4 ∧
      c.length = 4 ∧ d.length = 4 ∧ e.length = 12 := by
  refine ⟨digits.take 8, (digits.drop 8).take 4, (digits.drop 12).take 4,
    (digits.drop 16).take 4, digits.drop 20, ?_, ?_, ?_, ?_, ?_, ?_⟩
  · have h₁ := List.take_append_drop 4 (digits.drop 16)
    have h₂ := List.take_append_drop 4 (digits.drop 12)
    have h₃ := List.take_append_drop 4 (digits.drop 8)
    simp only [List.drop_drop, Nat.reduceAdd] at h₁ h₂ h₃
    rw [h₁, h₂, h₃, List.take_append_drop]
  all_goals simp [h]

/-- The hyphens stand between groups of eight, four, four and four digits and the rest. -/
lemma hyphenate_append {a b c d : List Char} (e : List Char) (ha : a.length = 8)
    (hb : b.length = 4) (hc : c.length = 4) (hd : d.length = 4) :
    hyphenate (a ++ (b ++ (c ++ (d ++ e)))) =
      a ++ '-' :: (b ++ '-' :: (c ++ '-' :: (d ++ '-' :: e))) := by
  simp [hyphenate, List.drop_append, ha, hb, hc, hd, List.drop_of_length_le]

/-- The hyphens are found where they were put. -/
lemma unhyphenate?_hyphenate (h : digits.length = 32) :
    unhyphenate? (hyphenate digits) = some digits := by
  obtain ⟨a, b, c, d, e, rfl, ha, hb, hc, hd, he⟩ := exists_parts h
  rw [hyphenate_append e ha hb hc hd]
  unfold unhyphenate?
  rw [if_pos]
  · simp [List.drop_append, ha, hb, hc, hd, List.drop_of_length_le]
  · simp [ha, hb, hc, hd, he]

/-- An identifier is that of its bits. -/
lemma ofNat_bits (u : Uuid) : ofNat u.bits = u := by
  rw [ofNat]
  simp only [Nat.mod_eq_of_lt u.bits.isLt]

/-- There are enough digits for all bits. -/
lemma bits_mod (u : Uuid) : (u.bits : Nat) % 16 ^ 32 = u.bits := Nat.mod_eq_of_lt u.bits.isLt

/-- **The stored text** of an identifier is read as the identifier. -/
theorem parse?_text (u : Uuid) : parse? u.text = some u := by
  have hlength : (Hex.ofNat 32 u.bits).length = 32 := Hex.length_ofNat 32 u.bits
  have hchars : u.text.toList = hyphenate (Hex.ofNat 32 u.bits) := String.toList_ofList
  have hplain : ofDigits? (hyphenate (Hex.ofNat 32 u.bits)) = none := by
    rw [ofDigits?, if_neg]
    simp [length_hyphenate hlength]
  have hdigits : ofDigits? (Hex.ofNat 32 u.bits) = some u := by
    rw [ofDigits?, if_pos hlength, Hex.toNat?_ofNat, bits_mod, Option.map_some, ofNat_bits]
  have hread : ofHyphenated? (hyphenate (Hex.ofNat 32 u.bits)) = some u := by
    rw [ofHyphenated?, unhyphenate?_hyphenate hlength, Option.bind_some, hdigits]
  unfold parse?
  simp only [hchars, hplain, hread]
  rfl

/-- There is no dot in the stored text. -/
lemma dot_not_mem_text (u : Uuid) : '.' ∉ u.text.toList := by
  rw [text, String.toList_ofList, chars]
  intro h
  rcases mem_of_mem_hyphenate h with e | h
  · exact absurd e (by decide)
  · exact Hex.dot_not_mem_ofNat 32 u.bits h

end Uuid

/-- **The stored text** of an identifier is read as the identifier. -/
theorem Id.parse?_text {subject : Subject} (i : Id subject) : Id.parse? i.text = some i := by
  rw [Id.parse?, Id.text, Uuid.parse?_text]
  rfl

/-- Identifiers that are not ordered are the same. -/
lemma Id.eq_of_order {subject : Subject} {i j : Id subject} (h : i.order j = .eq) : i = j := by
  have hbits : i.uuid.bits.val = j.uuid.bits.val := Nat.compare_eq_eq.1 h
  have huuid : i.uuid = j.uuid := congrArg Uuid.mk (Fin.ext hbits)
  exact congrArg Id.mk huuid

/-! ## Keys -/

namespace Key

/-- What follows the last dot has no dot itself. -/
lemma afterLastDot?_append {cs : List Char} (before : List Char) (h : '.' ∉ cs) :
    afterLastDot? (before ++ '.' :: cs) = some cs := by
  have hdot : (before ++ '.' :: cs).contains '.' = true := by simp
  have hlast : ∀ c ∈ cs.reverse, (c != '.') = true := by
    intro c hc
    rw [bne_iff_ne]
    rintro rfl
    exact h (List.mem_reverse.1 hc)
  unfold afterLastDot?
  rw [if_pos hdot, List.reverse_append, List.reverse_cons, List.append_assoc,
    List.takeWhile_append_of_pos hlast]
  simp

/-- **The text of a key** names its blob. -/
theorem blobOfLocation?_text (k : Key) : blobOfLocation? k.text = some k.blob := by
  have htext : k.text.toList = k.owner.text.toList ++ '.' :: k.blob.text.toList := by
    simp [text]
  have hdot : '.' ∉ k.blob.text.toList := Uuid.dot_not_mem_text k.blob.uuid
  rw [blobOfLocation?, htext, afterLastDot?_append _ hdot, Option.bind_some, String.ofList_toList,
    Id.parse?_text]

end Key

end VersionedTree
