import VersionedTree.Proofs.Path.Labels

/-!
# Spellings of segments

A label is written with plain characters and escapes. The label of a segment is the only text that
is read as the segment, but for one thing: an escape is read as a number, and a number may have a
sign. So `~+5` is accepted as well as `~05`. Without signs, a label is that of its segment, and a
path is the one that has its segments.

## Main definitions

* `VersionedTree.Label.IsSpelled` — plain characters and escapes of two lowercase digits.
* `VersionedTree.Label.unsigned`, `VersionedTree.Path.unsigned` — the digit in the place of a sign.
* `VersionedTree.Path.ofSegments` — the path with the given segments.

## Main results

* `VersionedTree.Label.isSpelled_encode` — the label of a segment is written in this way.
* `VersionedTree.Label.encodeByte_of_decodeEscape` — one escape is written again without its sign.
* `VersionedTree.Label.encode_of_decode` — the segment of a label is written as the label without
  signs.
* `VersionedTree.Path.Valid.ofSegments_segments` — the segments of a path make up the path without
  signs.
* `VersionedTree.Path.Valid.segments_eq_iff` — paths that show the same segments.
-/

set_option autoImplicit false

namespace VersionedTree

/-! ## Labels -/

namespace Label

/-- Is the text made of plain characters and of escapes, each a sign `~` with two lowercase
digits? -/
inductive IsSpelled : List Char → Prop where
  | nil : IsSpelled []
  | plain {c : Char} {rest : List Char} (hc : isPlain c = true) (h : IsSpelled rest) :
    IsSpelled (c :: rest)
  | escape {high low : Nat} {rest : List Char} (hhigh : high < 16) (hlow : low < 16)
      (h : IsSpelled rest) : IsSpelled ('~' :: Hex.digit high :: Hex.digit low :: rest)

/-- **The label of a segment** is made of plain characters and of escapes. -/
theorem isSpelled_encode (segment : String) : IsSpelled (encode segment) := by
  unfold encode
  induction segment.toUTF8.data.toList with
  | nil => exact .nil
  | cons b rest ih =>
    rw [List.flatMap_cons, encodeByte]
    split
    · next h => exact .plain h ih
    · have hb : b.toNat < 256 := b.toNat_lt
      exact .escape (by omega) (by omega) ih

/-- The digit in the place of a sign; other characters stay. -/
def unsigned (c : Char) : Char := if c = '+' then '0' else c

/-- What is no sign stays. -/
lemma unsigned_of_ne {c : Char} (h : c ≠ '+') : unsigned c = c := if_neg h

/-- Digits stay. -/
lemma unsigned_digit {n : Nat} (h : n < 16) : unsigned (Hex.digit n) = Hex.digit n := by
  revert n
  decide

/-- Plain characters stay. -/
lemma unsigned_of_isPlain {c : Char} (h : isPlain c = true) : unsigned c = c := by
  refine unsigned_of_ne ?_
  rintro rfl
  exact absurd h (by decide)

/-- Only texts without a sign are as they are without signs. -/
lemma map_unsigned_eq_self {cs : List Char} : cs.map unsigned = cs ↔ '+' ∉ cs := by
  induction cs with
  | nil => simp
  | cons c rest ih =>
    rw [List.map_cons, List.cons.injEq, ih, List.mem_cons, not_or]
    refine and_congr_left fun _ => ?_
    unfold unsigned
    split
    · next e => simp [e]
    · next e => exact iff_of_true rfl (Ne.symm e)

/-- **An escape that is read as a byte** is the escape of the byte, but for a sign in the place of
its first digit.

**Proof sketch.** The two digits are no capital letters, so that they are the digits of their
numbers. After a sign there is one digit, and the first digit of its number is zero. -/
theorem encodeByte_of_decodeEscape {high low : Char} {b : UInt8}
    (h : decodeEscape high low = .ok b) :
    encodeByte b = '~' :: [high, low].map unsigned := by
  unfold decodeEscape at h
  split at h
  · cases h
  · next hupper =>
    rw [Bool.or_eq_true, not_or, Bool.not_eq_true, Bool.not_eq_true] at hupper
    obtain ⟨hhigh, hlow⟩ := hupper
    split at h
    · cases h
    · next value hvalue =>
      split at h
      · cases h
      · next hplain =>
        obtain rfl := Except.ok.inj h
        rw [encodeByte, if_neg hplain, Hex.ofByte]
        unfold escapeValue? at hvalue
        split at hvalue
        · next hsign =>
          -- a sign and one digit: the number is below sixteen, and its first digit is zero
          obtain ⟨v, hread, rfl⟩ := Option.map_eq_some_iff.1 hvalue
          obtain ⟨hv, rfl⟩ := Hex.eq_digit_of_value? hread hlow
          rw [UInt8.toNat_ofNat_of_lt' (by omega : v < 256), Nat.div_eq_of_lt hv,
            Nat.mod_eq_of_lt hv, hsign, List.map_cons, List.map_singleton, unsigned_digit hv]
          rfl
        · -- two digits, which the division by sixteen takes apart again
          obtain ⟨v, hreadHigh, hvalue⟩ := Option.bind_eq_some_iff.1 hvalue
          obtain ⟨w, hreadLow, hvalue⟩ := Option.bind_eq_some_iff.1 hvalue
          obtain rfl := Option.some.inj hvalue
          obtain ⟨hv, rfl⟩ := Hex.eq_digit_of_value? hreadHigh hhigh
          obtain ⟨hw, rfl⟩ := Hex.eq_digit_of_value? hreadLow hlow
          rw [UInt8.toNat_ofNat_of_lt' (by omega : 16 * v + w < 256), List.map_cons,
            List.map_singleton, unsigned_digit hv, unsigned_digit hw,
            (by omega : (16 * v + w) / 16 = v), (by omega : (16 * v + w) % 16 = w)]

/-- A plain character is the spelling of its byte. -/
lemma encodeByte_toUInt8 {c : Char} (h : isPlain c = true) : encodeByte c.toUInt8 = [c] := by
  have hall : ∀ n < 128, isPlain (Char.ofNat n) = true →
      encodeByte (Char.ofNat n).toUInt8 = [Char.ofNat n] := by
    decide +kernel
  have hc : c.toNat < 128 := by
    have hsize := (Path.byte_of_isPlain h).1
    rw [Char.utf8Size_eq_one_iff, UInt32.le_iff_toNat_le] at hsize
    exact Nat.lt_succ_of_le hsize
  have hbyte := hall c.toNat hc
  rw [Char.ofNat_toNat] at hbyte
  exact hbyte h

/-- **What is read as bytes** is the spelling of the bytes, but for signs. -/
lemma flatMap_encodeByte_of_decodeBytes {label : List Char} {bytes : List UInt8}
    (h : decodeBytes label = .ok bytes) : bytes.flatMap encodeByte = label.map unsigned := by
  fun_induction decodeBytes label generalizing bytes with
  | case1 =>
    obtain rfl := Except.ok.inj h
    rfl
  | case2 high low rest _ ih =>
    cases hescape : decodeEscape high low with
    | error e => simp [hescape, bind, Except.bind] at h
    | ok b =>
      cases hrest : decodeBytes rest with
      | error e => simp [hescape, hrest, bind, Except.bind] at h
      | ok bs =>
        rw [hescape, hrest] at h
        obtain rfl : b :: bs = bytes := Except.ok.inj h
        rw [List.flatMap_cons, encodeByte_of_decodeEscape hescape, ih hrest]
        rfl
  | case8 c rest _ _ _ hplain ih =>
    cases hrest : decodeBytes rest with
    | error e => simp [hrest, bind, Except.bind] at h
    | ok bs =>
      rw [hrest] at h
      obtain rfl : c.toUInt8 :: bs = bytes := Except.ok.inj h
      rw [List.flatMap_cons, encodeByte_toUInt8 hplain, ih hrest, List.map_cons,
        unsigned_of_isPlain hplain]
      rfl
  | _ => cases h

/-- **The segment of a label** is written as the label, but for signs. -/
theorem encode_of_decode {label : List Char} {segment : String}
    (h : decode label = .ok segment) : encode segment = label.map unsigned := by
  unfold decode at h
  split at h
  · cases h
  · cases hbytes : decodeBytes label with
    | error e => simp [hbytes, bind, Except.bind] at h
    | ok bytes =>
      rw [hbytes] at h
      simp only [bind, Except.bind, String.fromUTF8?] at h
      split at h
      · next hread =>
        obtain rfl := Except.ok.inj h
        split at hread
        · obtain rfl := Option.some.inj hread
          exact flatMap_encodeByte_of_decodeBytes hbytes
        · cases hread
      · cases h

/-- A label is the label of its segment if there is no sign in it, and only then. -/
lemma encode_eq_iff_of_decode {label : List Char} {segment : String}
    (h : decode label = .ok segment) : encode segment = label ↔ '+' ∉ label := by
  rw [encode_of_decode h, map_unsigned_eq_self]

/-- The empty segment has no label. -/
lemma toList_ne_nil_of_decode {label : List Char} {segment : String}
    (h : decode label = .ok segment) : segment.toList ≠ [] := by
  intro hempty
  obtain rfl : segment = "" := String.toList_eq_nil_iff.1 hempty
  have hlabel : label.map unsigned = [] := (encode_of_decode h).symm
  rw [List.map_eq_nil_iff.1 hlabel] at h
  cases h

end Label

/-! ## Paths of labels and of segments -/

namespace Path

variable {p q : Path}

/-- The labels of a valid path, other than the root, are the parts between its dots. -/
lemma Valid.labels_eq (hp : p.Valid) (hr : p.isRoot = false) :
    p.labels = p.chars.splitOn '.' :=
  filter_isLabel ((valid_iff.1 hp).resolve_left (by simp [hr]))

/-- **The labels** of a valid path make up the path. -/
lemma Valid.ofLabels_labels (hp : p.Valid) : ofLabels p.labels = p := by
  cases hr : p.isRoot with
  | true =>
    obtain rfl := eq_root hr
    rfl
  | false => rw [hp.labels_eq hr, ofLabels, List.intercalate_splitOn, ofChars_chars]

/-- The path that is made of labels has these labels. -/
lemma labels_ofLabels {labels : List (List Char)} (h : ∀ label ∈ labels, IsLabel label) :
    (ofLabels labels).labels = labels := by
  by_cases hne : labels = []
  · subst hne
    rfl
  · rw [Path.labels, splitOn_ofLabels h hne, filter_isLabel h]

/-- A label shows the segment that it is read as. -/
lemma segmentOf_of_decode {label : List Char} {segment : String}
    (h : Label.decode label = .ok segment) : segmentOf label = segment := by
  rw [segmentOf, h]

/-- A label is read as the segment that it shows. -/
lemma IsLabel.decode_eq {label : List Char} (h : IsLabel label) :
    Label.decode label = .ok (segmentOf label) := by
  obtain ⟨segment, h⟩ := h
  rw [h, segmentOf_of_decode h]

/-- The segments of a valid path are not empty. -/
lemma Valid.segment_ne_nil (hp : p.Valid) : ∀ segment ∈ p.segments, segment.toList ≠ [] := by
  intro segment hs
  obtain ⟨label, hl, rfl⟩ := List.mem_map.1 hs
  exact Label.toList_ne_nil_of_decode (hp.isLabel hl).decode_eq

/-- The path with the given segments. -/
def ofSegments (segments : List String) : Path := ofLabels (segments.map Label.encode)

section ofSegments

variable {segments : List String} (h : ∀ segment ∈ segments, segment.toList ≠ [])

include h

/-- The path that is made of segments has their labels. -/
lemma labels_ofSegments : (ofSegments segments).labels = segments.map Label.encode := by
  refine labels_ofLabels ?_
  intro label hl
  obtain ⟨segment, hs, rfl⟩ := List.mem_map.1 hl
  exact isLabel_encode (h segment hs)

/-- **The path that is made of segments** shows these segments. -/
lemma segments_ofSegments : (ofSegments segments).segments = segments := by
  rw [Path.segments, labels_ofSegments h, List.map_map]
  exact (List.map_congr_left fun segment hs =>
    segmentOf_of_decode (Label.decode_encode (h segment hs))).trans (List.map_id segments)

end ofSegments

/-! ## Paths without signs -/

/-- The path with digits in the places of signs. -/
def unsigned (p : Path) : Path := ofChars (p.chars.map Label.unsigned)

/-- Only paths without a sign are as they are without signs. -/
lemma unsigned_eq_self : p.unsigned = p ↔ '+' ∉ p.chars := by
  rw [← Label.map_unsigned_eq_self, unsigned]
  constructor
  · intro h
    rw [← chars_ofChars (p.chars.map _), h]
  · intro h
    rw [h, ofChars_chars]

/-- Signs are taken from the labels, as none is between them. -/
lemma unsigned_ofLabels (labels : List (List Char)) :
    (ofLabels labels).unsigned = ofLabels (labels.map (List.map Label.unsigned)) := by
  rw [unsigned, ofLabels, chars_ofChars, ofLabels]
  congr 1
  induction labels with
  | nil => rfl
  | cons label rest ih =>
    cases rest with
    | nil => simp
    | cons next more =>
      rw [List.intercalate_cons_cons, List.map_append, List.map_append, ih]
      exact (List.intercalate_cons_cons).symm

/-- **The segments** of a valid path make up the path, but for signs. -/
theorem Valid.ofSegments_segments (hp : p.Valid) : ofSegments p.segments = p.unsigned := by
  have hwritten : p.segments.map Label.encode = p.labels.map (List.map Label.unsigned) := by
    rw [segments, List.map_map]
    exact List.map_congr_left fun label hl =>
      Label.encode_of_decode (hp.isLabel hl).decode_eq
  rw [ofSegments, hwritten, ← unsigned_ofLabels, hp.ofLabels_labels]

/-- **Paths show the same segments** if they differ by signs only. -/
theorem Valid.segments_eq_iff (hp : p.Valid) (hq : q.Valid) :
    p.segments = q.segments ↔ p.unsigned = q.unsigned := by
  rw [← hp.ofSegments_segments, ← hq.ofSegments_segments]
  refine ⟨congrArg ofSegments, fun h => ?_⟩
  rw [← segments_ofSegments hp.segment_ne_nil, h, segments_ofSegments hq.segment_ne_nil]

/-- Paths without signs are the same if they show the same segments. -/
lemma Valid.eq_of_segments_eq (hp : p.Valid) (hq : q.Valid) (hps : '+' ∉ p.chars)
    (hqs : '+' ∉ q.chars) (h : p.segments = q.segments) : p = q := by
  rw [← unsigned_eq_self.2 hps, ← unsigned_eq_self.2 hqs]
  exact (hp.segments_eq_iff hq).1 h

end Path

end VersionedTree
