import VersionedTree.Proofs.Id
import VersionedTree.Proofs.Path.Valid

/-!
# Labels of segments, and the paths made of them

The label of a segment is read back as the segment, byte by byte, and has no dot. So every path
that is made from a user's text, from a stored text or from other paths is valid.

## Main definitions

* `VersionedTree.Path.Made` — the paths that can be had.

## Main results

* `VersionedTree.Label.decodeBytes_encodeByte` — one byte is read back, whatever follows it.
* `VersionedTree.Label.decode_encode` — the label of a segment is read as the segment.
* `VersionedTree.Path.IsLabel.byte` — a label is written in single bytes.
* `VersionedTree.Path.IsLabel.dot_not_mem` — there is no dot in a label.
* `VersionedTree.Path.Made.valid` — every path that can be had is valid.
-/

set_option autoImplicit false

namespace VersionedTree

/-! ## The spelling of bytes -/

/-- The bytes of a text are read as the text. -/
lemma fromUTF8?_toUTF8 (s : String) : String.fromUTF8? s.toUTF8 = some s := by
  simp only [String.fromUTF8?, String.toUTF8_eq_toByteArray, dif_pos s.isValidUTF8]
  rfl

namespace Label

/-- Plain characters are between the digit `0` and the letter `z`. -/
lemma toNat_of_isPlain {c : Char} (h : isPlain c = true) :
    48 ≤ c.val.toNat ∧ c.val.toNat ≤ 122 := by
  delta isPlain Char.isAlphanum Char.isAlpha Char.isUpper Char.isLower Char.isDigit at h
  simp only [Bool.or_eq_true, Bool.and_eq_true, decide_eq_true_eq, beq_iff_eq,
    UInt32.le_iff_toNat_le, ge_iff_le] at h
  rcases h with ((⟨hlow, hhigh⟩ | ⟨hlow, hhigh⟩) | ⟨hlow, hhigh⟩) | rfl
  · exact ⟨Nat.le_trans (by decide) hlow, hhigh.trans (by decide)⟩
  · exact ⟨Nat.le_trans (by decide) hlow, hhigh.trans (by decide)⟩
  · exact ⟨hlow, hhigh.trans (by decide)⟩
  · decide

/-- A plain byte stands for itself, and is neither the sign of an escape nor a dot. -/
lemma plain_byte (b : UInt8) (h : isPlain (Char.ofUInt8 b) = true) :
    (Char.ofUInt8 b).toUInt8 = b ∧ Char.ofUInt8 b ≠ '~' := by
  have hall : ∀ n < 256, isPlain (Char.ofUInt8 (UInt8.ofNat n)) = true →
      (Char.ofUInt8 (UInt8.ofNat n)).toUInt8 = UInt8.ofNat n ∧
        Char.ofUInt8 (UInt8.ofNat n) ≠ '~' := by
    decide +kernel
  have hb := hall b.toNat b.toNat_lt
  rw [UInt8.ofNat_toNat] at hb
  exact hb h

/-- The escape of a byte that is not plain is read as that byte. -/
lemma escaped_byte (b : UInt8) (h : isPlain (Char.ofUInt8 b) = false) :
    ((Hex.digit (b.toNat / 16)).utf8Size = 1 ∧ (Hex.digit (b.toNat % 16)).utf8Size = 1) ∧
      decodeEscape (Hex.digit (b.toNat / 16)) (Hex.digit (b.toNat % 16)) = .ok b := by
  have hall : ∀ n < 256, isPlain (Char.ofUInt8 (UInt8.ofNat n)) = false →
      ((Hex.digit (n / 16)).utf8Size = 1 ∧ (Hex.digit (n % 16)).utf8Size = 1) ∧
        decodeEscape (Hex.digit (n / 16)) (Hex.digit (n % 16)) = .ok (UInt8.ofNat n) := by
    decide +kernel
  have hb := hall b.toNat b.toNat_lt
  rw [UInt8.ofNat_toNat] at hb
  exact hb h

/-- Plain characters are read one by one. -/
lemma decodeBytes_cons_of_isPlain {c : Char} (hc : c ≠ '~') (h : isPlain c = true)
    (rest : List Char) :
    decodeBytes (c :: rest) = (decodeBytes rest).map (c.toUInt8 :: ·) := by
  rw [decodeBytes.eq_4 c rest (fun _ _ _ e _ => hc e) (fun _ e _ => hc e), if_neg hc, if_pos h]
  cases decodeBytes rest <;> rfl

/-- **The spelling of a byte** is read back as the byte, whatever follows it. -/
theorem decodeBytes_encodeByte (b : UInt8) (rest : List Char) :
    decodeBytes (encodeByte b ++ rest) = (decodeBytes rest).map (b :: ·) := by
  unfold encodeByte
  split
  · next h =>
    obtain ⟨hbyte, hescape⟩ := plain_byte b h
    rw [List.singleton_append, decodeBytes_cons_of_isPlain hescape h, hbyte]
  · next h =>
    obtain ⟨hsize, hvalue⟩ := escaped_byte b (by simpa using h)
    change decodeBytes ('~' :: Hex.digit (b.toNat / 16) :: Hex.digit (b.toNat % 16) :: rest) = _
    rw [decodeBytes, if_pos hsize, hvalue]
    cases decodeBytes rest <;> rfl

/-! ## Labels of segments -/

/-- Encoded bytes are decoded to themselves. -/
lemma decodeBytes_flatMap (bytes : List UInt8) :
    decodeBytes (bytes.flatMap encodeByte) = .ok bytes := by
  induction bytes with
  | nil => rfl
  | cons b rest ih =>
    rw [List.flatMap_cons, decodeBytes_encodeByte, ih]
    rfl

/-- Every byte is written with some characters. -/
lemma encodeByte_ne_nil (b : UInt8) : encodeByte b ≠ [] := by
  unfold encodeByte
  split <;> exact List.cons_ne_nil _ _

/-- A segment that is not empty has a label that is not empty. -/
lemma encode_ne_nil {segment : String} (h : segment.toList ≠ []) : encode segment ≠ [] := by
  intro he
  have hbytes : segment.toUTF8.data.toList = [] := by
    refine List.eq_nil_iff_forall_not_mem.2 ?_
    intro b hb
    exact encodeByte_ne_nil b (List.flatMap_eq_nil_iff.1 he b hb)
  have hsize : segment.toUTF8.size = 0 := by
    rw [← ByteArray.size_data, ← Array.length_toList, hbytes]
    rfl
  have hempty : segment = "" := by
    simpa [String.toUTF8_eq_toByteArray] using hsize
  exact h (by simp [hempty])

/-- **The label of a segment** is read back as the segment. -/
theorem decode_encode {segment : String} (h : segment.toList ≠ []) :
    decode (encode segment) = .ok segment := by
  have hbytes : decodeBytes (encode segment) = .ok segment.toUTF8.data.toList :=
    decodeBytes_flatMap _
  unfold decode
  rw [if_neg (by simpa using encode_ne_nil h), hbytes]
  simp only [bind, Except.bind, Array.toArray_toList]
  rw [fromUTF8?_toUTF8]
  rfl

end Label

/-! ## Labels in paths -/

namespace Path

variable {p q source target : Path} {label : List Char}

/-- The label of a segment is a label. -/
lemma isLabel_encode {segment : String} (h : segment.toList ≠ []) :
    IsLabel (Label.encode segment) := ⟨segment, Label.decode_encode h⟩

/-- A dot is no digit of an escape. -/
lemma ne_dot_of_decodeEscape {high low : Char} {b : UInt8}
    (h : Label.decodeEscape high low = .ok b) : high ≠ '.' ∧ low ≠ '.' := by
  have hdot : Hex.value? '.' = none := by decide
  have hvalue : Label.escapeValue? high low ≠ none := by
    intro hnone
    unfold Label.decodeEscape at h
    rw [hnone] at h
    split at h <;> cases h
  refine ⟨?_, ?_⟩
  · rintro rfl
    exact hvalue (by simp [Label.escapeValue?, hdot])
  · rintro rfl
    refine hvalue ?_
    unfold Label.escapeValue?
    rw [hdot]
    split
    · rfl
    · cases Hex.value? high <;> rfl

/-- A plain character is one byte of text, and no dot. -/
lemma byte_of_isPlain {c : Char} (h : Label.isPlain c = true) : c.utf8Size = 1 ∧ c ≠ '.' := by
  have hc := Label.toNat_of_isPlain h
  refine ⟨?_, ?_⟩
  · rw [Char.utf8Size_eq_one_iff, UInt32.le_iff_toNat_le]
    exact hc.2.trans (by decide)
  · rintro rfl
    exact absurd hc.1 (by decide)

/-- **What is read as bytes** are single bytes of text, none of them a dot.

**Proof sketch.** A character is plain, or the sign of an escape, or one of its digits. -/
lemma byte_of_decodeBytes {bytes : List UInt8} (h : Label.decodeBytes label = .ok bytes) :
    ∀ c ∈ label, c.utf8Size = 1 ∧ c ≠ '.' := by
  fun_induction Label.decodeBytes label generalizing bytes with
  | case1 => exact List.forall_mem_nil _
  | case2 high low rest hsize ih =>
    cases hescape : Label.decodeEscape high low with
    | error e => simp [hescape, bind, Except.bind] at h
    | ok b =>
      cases hrest : Label.decodeBytes rest with
      | error e => simp [hescape, hrest, bind, Except.bind] at h
      | ok bs =>
        obtain ⟨hhigh, hlow⟩ := ne_dot_of_decodeEscape hescape
        have hsign : '~'.utf8Size = 1 ∧ '~' ≠ '.' := by decide
        exact List.forall_mem_cons.2 ⟨hsign, List.forall_mem_cons.2 ⟨⟨hsize.1, hhigh⟩,
          List.forall_mem_cons.2 ⟨⟨hsize.2, hlow⟩, ih hrest⟩⟩⟩
  | case8 c rest _ _ _ hplain ih =>
    cases hrest : Label.decodeBytes rest with
    | error e => simp [hrest, bind, Except.bind] at h
    | ok bs => exact List.forall_mem_cons.2 ⟨byte_of_isPlain hplain, ih hrest⟩
  | _ => cases h

/-- A label is read as bytes. -/
lemma IsLabel.exists_bytes (h : IsLabel label) : ∃ bytes, Label.decodeBytes label = .ok bytes := by
  obtain ⟨segment, h⟩ := h
  unfold Label.decode at h
  split at h
  · cases h
  · cases hbytes : Label.decodeBytes label with
    | error e => simp [hbytes, bind, Except.bind] at h
    | ok bytes => exact ⟨bytes, rfl⟩

/-- The characters of a label are single bytes, and no dots. -/
lemma IsLabel.byte (h : IsLabel label) : ∀ c ∈ label, c.utf8Size = 1 ∧ c ≠ '.' := by
  obtain ⟨bytes, hbytes⟩ := h.exists_bytes
  exact byte_of_decodeBytes hbytes

/-- **There is no dot in a label.** -/
theorem IsLabel.dot_not_mem (h : IsLabel label) : '.' ∉ label :=
  fun hdot => (h.byte '.' hdot).2 rfl

/-! ## Paths that can be had -/

/-- One more label keeps a path valid. -/
lemma valid_join (hp : p.Valid) (hl : IsLabel label) : (p.join label).Valid := by
  have hsingle : label.splitOn '.' = [label] := List.splitOn_eq_singleton hl.dot_not_mem
  refine valid_iff.2 (.inr ?_)
  unfold join
  split
  · rw [chars_ofChars, hsingle]
    simpa using hl
  · next hr =>
    have hlabels := (valid_iff.1 hp).resolve_left hr
    rw [chars_ofChars, List.splitOn_append_cons_self, hsingle, List.forall_mem_append]
    exact ⟨hlabels, by simpa using hl⟩

/-- Labels that are joined one after the other keep a path valid. -/
lemma valid_foldl_join {labels : List (List Char)} (hl : ∀ label ∈ labels, IsLabel label) :
    ∀ {target : Path}, target.Valid → (labels.foldl join target).Valid := by
  induction labels with
  | nil => exact fun ht => ht
  | cons label rest ih =>
    rw [List.forall_mem_cons] at hl
    exact fun ht => ih hl.2 (valid_join ht hl.1)

/-- The labels of a valid path are labels. -/
lemma Valid.isLabel (hp : p.Valid) (hl : label ∈ p.labels) : IsLabel label := by
  obtain ⟨hl, hne⟩ := List.mem_filter.1 hl
  rcases valid_iff.1 hp with hr | hlabels
  · rw [isRoot_iff.1 hr, List.splitOn_nil, List.mem_singleton] at hl
    simp [hl] at hne
  · exact hlabels label hl

/-- The place above a valid one is valid. -/
lemma Valid.parent (hp : p.Valid) (h : p.parent = some q) : q.Valid := by
  obtain ⟨hr, label, -, ⟨hq, -⟩ | e⟩ := chars_of_parent h
  · exact valid_iff.2 (.inl hq)
  · have hlabels := (valid_iff.1 hp).resolve_left (by simp [hr])
    rw [e, List.splitOn_append_cons_self, List.forall_mem_append] at hlabels
    exact valid_iff.2 (.inr hlabels.1)

/-- The ancestors of a valid place are valid. -/
lemma Valid.of_mem_ancestors (hp : p.Valid) (hq : q ∈ p.ancestors) : q.Valid := by
  induction hlen : p.chars.length using Nat.strong_induction_on generalizing p with
  | _ k ih =>
    subst hlen
    unfold ancestors at hq
    split at hq
    · cases hq
    · next r hr =>
      rcases List.mem_cons.1 hq with rfl | hq
      · exact hp.parent hr
      · exact ih _ (length_chars_parent_lt hr) (hp.parent hr) hq rfl

/-- Labels are found again in the path that is made of them. -/
lemma splitOn_ofLabels {labels : List (List Char)} (hl : ∀ label ∈ labels, IsLabel label)
    (hne : labels ≠ []) : (ofLabels labels).chars.splitOn '.' = labels := by
  rw [ofLabels, chars_ofChars]
  exact List.splitOn_intercalate '.' (fun label h => (hl label h).dot_not_mem) hne

/-- The path that is made of labels is valid. -/
lemma valid_ofLabels {labels : List (List Char)} (hl : ∀ label ∈ labels, IsLabel label) :
    (ofLabels labels).Valid := by
  by_cases hne : labels = []
  · subst hne
    rfl
  · refine valid_iff.2 (.inr ?_)
    rwa [splitOn_ofLabels hl hne]

/-- What a user's text names is valid. -/
lemma valid_of_parse {text : String} (h : parse text = .ok p) : p.Valid := by
  unfold parse at h
  split at h
  · simp only at h
    split at h
    · obtain rfl := Except.ok.inj h
      rfl
    · split at h
      · cases h
      · next rest _ _ hne =>
        obtain rfl := Except.ok.inj h
        refine valid_ofLabels ?_
        intro label hl
        obtain ⟨s, hs, rfl⟩ := List.mem_map.1 hl
        refine isLabel_encode ?_
        intro hempty
        refine hne (List.any_eq_true.2 ⟨s, hs, ?_⟩)
        rw [String.toList_ofList] at hempty
        simp [hempty]
  · cases h

/-- The paths that can be had: the root, what users' texts and stored texts name, and what is made
of such paths. -/
inductive Made : Path → Prop where
  | root : Made root
  | parse {text : String} {p : Path} (h : parse text = .ok p) : Made p
  | fromEncoded {encoded : String} {p : Path} (h : fromEncoded encoded = .ok p) : Made p
  | child {p q : Path} {name : String} (hp : Made p) (h : p.child name = .ok q) : Made q
  | parent {p q : Path} (hp : Made p) (h : p.parent = some q) : Made q
  | rebase {p q source target : Path} (hp : Made p) (hs : Made source) (ht : Made target)
      (h : p.rebase source target = some q) : Made q

/-- **Every path that can be had** is valid. -/
theorem Made.valid (h : p.Made) : p.Valid := by
  induction h with
  | root => rfl
  | parse h => exact valid_of_parse h
  | fromEncoded h => exact (valid_of_fromEncoded h).1
  | child _ h ih =>
    unfold Path.child at h
    split at h
    · cases h
    · next hne =>
      obtain rfl := Except.ok.inj h
      exact valid_join ih (isLabel_encode (by simpa using hne))
  | parent _ h ih => exact ih.parent h
  | rebase _ _ _ h ihp _ iht =>
    unfold Path.rebase at h
    split at h
    · obtain rfl := Option.some.inj h
      exact valid_foldl_join (fun label hl => ihp.isLabel (List.mem_of_mem_drop hl)) iht
    · cases h

/-- A valid path is had from its stored text. -/
lemma Valid.made (h : p.Valid) : p.Made := .fromEncoded h

end Path

end VersionedTree
