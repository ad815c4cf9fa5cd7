import Mathlib.Data.List.Basic
import VersionedTree.Json.Reader
import VersionedTree.Proofs.Id

/-!
# JSON texts are read back

The text of a value is read as that value, whatever follows it: characters of strings by their
escapes, numbers by their digits, and the items and entries of values one after the other.

## Main definitions

* `VersionedTree.Json.EndsNumber` — texts that do not go on with a number.
* `VersionedTree.Json.Piece.StandsFor` — the parts of strings that a character is written as.
* `VersionedTree.Json.isExact` — values whose numbers are integers of 64 bits.
* `VersionedTree.Json.ReadsBack` — what is read back within a number of steps.

## Main results

* `VersionedTree.Decimal.isGatheredDouble_of_le` — integers of 64 bits are within double precision.
* `VersionedTree.Json.number?_toString` — the digits of a number are read as the number.
* `VersionedTree.Json.pieces?_escapeChar` — one character is read as it is written.
* `VersionedTree.Json.readString?_flatMap` — what is between quotes is read as the string.
* `VersionedTree.Json.parse?_render` — the text of a value is read as the value.

## Design

The reader is bounded by steps, so that its induction is on them and treats values, items and
entries at once: each is read with one step less for its parts. Its bound of twice the length is
more than enough, since every step of nesting has a character.
-/

set_option autoImplicit false

namespace VersionedTree

/-! ## Digits -/

namespace Decimal

/-- The digits of a number write the number. -/
lemma value_toDigits (n : Nat) : value (Nat.toDigits 10 n) = n :=
  Nat.ofDigitChars_toDigits (by decide) (by decide)

/-- More digits make no smaller number. -/
lemma le_ofDigitChars (ds : List Char) (n : Nat) : n ≤ Nat.ofDigitChars 10 ds n := by
  induction ds generalizing n with
  | nil => exact Nat.le_refl n
  | cons d rest ih =>
    have hnext : n ≤ 10 * n + (d.toNat - 48) := by omega
    exact Nat.le_trans hnext (ih _)

/-- All digits find room in a significand if their number does. -/
lemma append_of_le {ds : List Char} {n : Nat} (h : Nat.ofDigitChars 10 ds n ≤ maxSignificand) :
    append n ds = (Nat.ofDigitChars 10 ds n, 0) := by
  induction ds generalizing n with
  | nil => rfl
  | cons d rest ih =>
    have hnext : 10 * n + (d.toNat - 48) ≤ maxSignificand :=
      Nat.le_trans (le_ofDigitChars rest _) h
    rw [append, if_pos hnext]
    exact ih h

/-- Rounding at most doubles a number. -/
lemma roundDouble_le (n : Nat) : roundDouble n ≤ 2 * n := by
  by_cases hn : n = 0
  · subst hn
    decide
  · have hunit : Nat.pow 2 (n.log2 - 52) ≤ n :=
      Nat.le_trans (Nat.pow_le_pow_right (by decide) (Nat.sub_le n.log2 52)) (Nat.log2_self_le hn)
    have hlow : n / Nat.pow 2 (n.log2 - 52) * Nat.pow 2 (n.log2 - 52) ≤ n := Nat.div_mul_le_self _ _
    unfold roundDouble
    simp only
    split
    · omega
    · rw [Nat.add_mul]
      omega

/-- **Integers of 64 bits** are within double precision. -/
theorem isGatheredDouble_of_le {ds : List Char} (h : value ds ≤ maxSignificand) :
    isGatheredDouble ds [] 0 = true := by
  have hbound : roundDouble (value ds) * roundDouble (Nat.pow 10 0) < firstBeyond := by
    have hone : roundDouble (Nat.pow 10 0) = 1 := roundDouble_of_lt (by decide)
    have hlarge : 2 * maxSignificand < firstBeyond := by decide +kernel
    have hround := roundDouble_le (value ds)
    rw [hone]
    omega
  have hscaled : isScaledDouble (value ds) 0 = true := by
    rw [isScaledDouble, Bool.or_eq_true, Bool.and_eq_true]
    exact .inr ⟨rfl, decide_eq_true hbound⟩
  rw [isGatheredDouble, append_of_le h]
  exact hscaled

end Decimal

namespace Json

/-! ## Numbers -/

/-- The text is empty or begins with a character that is in no number. -/
def EndsNumber (rest : List Char) : Prop :=
  ∀ c ∈ rest.head?, c.isDigit = false ∧ c ≠ '.' ∧ c ≠ 'e' ∧ c ≠ 'E'

/-- A number is written with at least one digit. -/
lemma toDigits_cons (n : Nat) : ∃ d ds, Nat.toDigits 10 n = d :: ds ∧ d.isDigit = true := by
  obtain ⟨d, ds, h⟩ := List.exists_cons_of_ne_nil (Nat.toDigits_ne_nil (n := n) (b := 10))
  exact ⟨d, ds, h, Nat.isDigit_of_mem_toDigits (by decide) (by decide) (h ▸ List.mem_cons_self)⟩

/-- No number but zero has a zero in front. -/
lemma head?_toDigits {n : Nat} (hn : 0 < n) : (Nat.toDigits 10 n).head? ≠ some '0' := by
  induction n using Nat.strongRecOn with
  | _ n ih =>
    by_cases hlt : n < 10
    · have hall : ∀ m < 10, 0 < m → [Nat.digitChar m].head? ≠ some '0' := by decide
      rw [Nat.toDigits_of_lt_base hlt]
      exact hall n hlt hn
    · rw [Nat.toDigits_of_base_le (by decide) (by omega),
        List.head?_append_of_ne_nil _ Nat.toDigits_ne_nil]
      exact ih (n / 10) (by omega) (by omega)

/-- The digits of a number are read up to their end. -/
lemma wholeDigits?_append (n : Nat) {rest : List Char} (hr : EndsNumber rest) :
    wholeDigits? (Nat.toDigits 10 n ++ rest) = some (Nat.toDigits 10 n, rest) := by
  have hdigits : ∀ c ∈ Nat.toDigits 10 n, c.isDigit = true := fun c hc =>
    Nat.isDigit_of_mem_toDigits (by decide) (by decide) hc
  have hstop : rest.takeWhile Char.isDigit = [] ∧ rest.dropWhile Char.isDigit = rest := by
    cases rest with
    | nil => exact ⟨rfl, rfl⟩
    | cons c more =>
      have hc := (hr c rfl).1
      simp [hc]
  unfold wholeDigits?
  rw [List.takeWhile_append_of_pos hdigits, List.dropWhile_append_of_pos hdigits, hstop.1,
    hstop.2, List.append_nil]
  split
  · next h => exact absurd h Nat.toDigits_ne_nil
  · next h =>
    by_cases hn : n = 0
    · subst hn
      cases h
    · exact absurd (by rw [h]; rfl) (head?_toDigits (Nat.pos_of_ne_zero hn))
  · rfl

/-- No fraction begins where a number ends. -/
lemma fraction?_of_endsNumber {rest : List Char} (hr : EndsNumber rest) :
    fraction? rest = some ([], rest) := by
  unfold fraction?
  split
  · exact absurd rfl (hr '.' rfl).2.1
  · rfl

/-- No exponent begins where a number ends. -/
lemma exponent?_of_endsNumber {rest : List Char} (hr : EndsNumber rest) :
    exponent? rest = some ([], rest) := by
  cases rest with
  | nil => rfl
  | cons c more =>
    obtain ⟨-, -, he, hE⟩ := hr c rfl
    simp [exponent?, he, hE]

/-- What is read of a number after its sign. -/
lemma number?_toDigits (n : Nat) (hn : n ≤ Decimal.maxSignificand) {rest : List Char}
    (hr : EndsNumber rest) :
    number? (Nat.toDigits 10 n ++ rest) = some (.integer n, rest) ∧
      (0 < n → number? ('-' :: (Nat.toDigits 10 n ++ rest)) = some (.integer (-n), rest)) := by
  have hdouble : Decimal.isGatheredDouble (Nat.toDigits 10 n) [] 0 = true :=
    Decimal.isGatheredDouble_of_le (by rwa [Decimal.value_toDigits])
  have hwhole := wholeDigits?_append n hr
  refine ⟨?_, fun hpos => ?_⟩
  · -- the first digit is no sign, so that all digits are read as those of the whole number
    obtain ⟨d, ds, hd, hdigit⟩ := toDigits_cons n
    have hsign : d ≠ '-' := by
      rintro rfl
      cases hdigit
    have hvalue := Decimal.value_toDigits n
    rw [hd] at hwhole hdouble hvalue
    rw [List.cons_append] at hwhole
    rw [hd, List.cons_append]
    simp [number?, hsign, hwhole, fraction?_of_endsNumber hr, exponent?_of_endsNumber hr,
      exponentValue, hdouble, hvalue]
  · simp [number?, hwhole, fraction?_of_endsNumber hr, exponent?_of_endsNumber hr, exponentValue,
      hdouble, Decimal.value_toDigits, Nat.ne_of_gt hpos]

/-- **The digits of a number** are read as the number, if it has 64 bits at most. -/
theorem number?_toString {n : Int} (hn : n.natAbs ≤ Decimal.maxSignificand) {rest : List Char}
    (hr : EndsNumber rest) : number? ((toString n).toList ++ rest) = some (.integer n, rest) := by
  rw [Int.toString_eq_repr, Int.repr_eq_if]
  split
  · have hread := (number?_toDigits n.toNat (by omega) hr).1
    have hback : (n.toNat : Int) = n := by omega
    rwa [hback, ← Nat.toList_repr] at hread
  · have hread := (number?_toDigits (-n).toNat (by omega) hr).2 (by omega)
    have hback : -((-n).toNat : Int) = n := by omega
    rw [hback, ← Nat.toList_repr] at hread
    rw [String.toList_append]
    exact hread

/-! ## Strings -/

/-- The characters with an escape of one letter. -/
def lettered : List Char := ['"', '\\', '\n', '\r', '\t', '\x08', '\x0c']

/-- Does the part of a string stand for the character? Control characters may be given by their
numbers. -/
def Piece.StandsFor (piece : Piece) (c : Char) : Prop :=
  piece = .char c ∨ (piece = .unit c.toNat ∧ c.toNat < 0x20)

/-- The letter of an escape is read as its character. -/
lemma escapeChar_of_lettered {c : Char} (hc : c ∈ lettered) :
    ∃ e, escapeChar c = ['\\', e] ∧ e ≠ 'u' ∧ letterEscape? e = some c := by
  simp only [lettered, List.mem_cons, List.not_mem_nil, or_false] at hc
  rcases hc with rfl | rfl | rfl | rfl | rfl | rfl | rfl
  all_goals exact ⟨_, rfl, by decide, by decide⟩

/-- Characters without a letter of their own are escaped by their numbers if they are control
characters, and stay otherwise. -/
lemma escapeChar_of_not_lettered {c : Char} (hc : c ∉ lettered) :
    escapeChar c = if c.toNat < 0x20 then '\\' :: 'u' :: Hex.ofNat 4 c.toNat else [c] := by
  simp only [lettered, List.mem_cons, List.not_mem_nil, or_false, not_or] at hc
  obtain ⟨h₁, h₂, h₃, h₄, h₅, h₆, h₇⟩ := hc
  rw [escapeChar, if_neg h₁, if_neg h₂, if_neg h₃, if_neg h₄, if_neg h₅, if_neg h₆, if_neg h₇]

/-- **One character** is read as it is written, whatever follows it.

**Proof sketch.** The character has an escape of one letter, or an escape of four digits, or stands
for itself. -/
theorem pieces?_escapeChar (c : Char) (rest : List Char) :
    ∃ piece : Piece, piece.StandsFor c ∧ pieces? (escapeChar c ++ rest) =
      (pieces? rest).map fun (ps, after) => (piece :: ps, after) := by
  by_cases hl : c ∈ lettered
  · obtain ⟨e, he, hu, hread⟩ := escapeChar_of_lettered hl
    refine ⟨.char c, .inl rfl, ?_⟩
    rw [he, List.cons_append, List.singleton_append, pieces?.eq_4]
    · rw [hread]
      cases pieces? rest <;> rfl
    · rintro _ _ _ _ _ rfl _
      exact hu rfl
  · rw [escapeChar_of_not_lettered hl]
    split
    · next hcontrol =>
      refine ⟨.unit c.toNat, .inr ⟨rfl, hcontrol⟩, ?_⟩
      have hdigits : Hex.toNat? (Hex.ofNat 4 c.toNat) = some c.toNat := by
        rw [Hex.toNat?_ofNat, Nat.mod_eq_of_lt (by omega)]
      change pieces? ('\\' :: 'u' :: (Hex.ofNat 4 c.toNat ++ rest)) = _
      simp only [Hex.ofNat, List.nil_append, List.cons_append] at hdigits ⊢
      rw [pieces?, hdigits]
      cases pieces? rest <;> rfl
    · next hcontrol =>
      refine ⟨.char c, .inl rfl, ?_⟩
      simp only [lettered, List.mem_cons, not_or] at hl
      rw [List.singleton_append, pieces?.eq_5]
      · rw [if_neg (by simp [hcontrol, hl.2.1])]
        cases pieces? rest <;> rfl
      · exact hl.1
      · rintro _ _ _ _ _ rfl _
        exact hl.2.1 rfl
      · rintro _ _ rfl _
        exact hl.2.1 rfl

/-- A part that stands for a character is read as it. -/
lemma assemble?_cons {piece : Piece} {c : Char} (h : piece.StandsFor c) (ps : List Piece) :
    assemble? (piece :: ps) = (assemble? ps).map (c :: ·) := by
  rcases h with rfl | ⟨rfl, hc⟩
  · rfl
  · have hhigh : isHighSurrogate c.toNat = false := by
      rw [isHighSurrogate, Bool.and_eq_false_iff, decide_eq_false_iff_not]
      exact .inl (by omega)
    have hlow : isLowSurrogate c.toNat = false := by
      rw [isLowSurrogate, Bool.and_eq_false_iff, decide_eq_false_iff_not]
      exact .inl (by omega)
    -- a control character is no half of a pair, so that what follows its number does not matter
    have halone (h : ∀ m more, ps = .unit m :: more → False) :
        assemble? (.unit c.toNat :: ps) = (assemble? ps).map (c :: ·) := by
      simp [assemble?.eq_4 _ _ h, hhigh, hlow]
    match ps with
    | [] => exact halone (by simp)
    | .char d :: more => exact halone (by simp)
    | .unit m :: more => simp [assemble?.eq_3, hhigh, hlow]

/-- **What is between quotes** is read as the string, whatever follows it. -/
theorem readString?_flatMap (cs rest : List Char) :
    readString? (cs.flatMap escapeChar ++ '"' :: rest) =
      some (.string (String.ofList cs), rest) := by
  obtain ⟨ps, hps, htext⟩ : ∃ ps,
      pieces? (cs.flatMap escapeChar ++ '"' :: rest) = some (ps, rest) ∧
        assemble? ps = some cs := by
    induction cs with
    | nil => exact ⟨[], rfl, rfl⟩
    | cons c more ih =>
      obtain ⟨ps, hps, htext⟩ := ih
      obtain ⟨piece, hpiece, hread⟩ :=
        pieces?_escapeChar c (more.flatMap escapeChar ++ '"' :: rest)
      refine ⟨piece :: ps, ?_, ?_⟩
      · rw [List.flatMap_cons, List.append_assoc, hread, hps]
        rfl
      · rw [assemble?_cons hpiece, htext]
        rfl
  simp [readString?, hps, htext]

/-! ## Values -/

mutual

/-- Is a value written exactly? Nothing in it is broken, and all its numbers are integers of 64 bits
at most, besides their signs. -/
def isExact : Json → Bool
  | integer n => n.natAbs ≤ Decimal.maxSignificand
  | decimal _ | broken => false
  | array items => areExact items
  | object entries => areExactEntries entries
  | _ => true

/-- Are all these values written exactly? -/
def areExact : List Json → Bool
  | [] => true
  | v :: rest => isExact v && areExact rest

/-- Are the values of all these entries written exactly? -/
def areExactEntries : List (String × Json) → Bool
  | [] => true
  | (_, v) :: rest => isExact v && areExactEntries rest

end

/-- A quoted text is its escaped characters between quotation marks. -/
lemma toList_quote (s : String) (rest : List Char) :
    (quote s).toList ++ rest = '"' :: (s.toList.flatMap escapeChar ++ '"' :: rest) := by
  simp [quote]

/-- A quoted text is read back, whatever comes after it. -/
lemma value?_quote (s : String) (fuel : Nat) (rest : List Char) :
    value? (fuel + 1) ((quote s).toList ++ rest) = some (.string s, rest) := by
  rw [toList_quote, value?]
  change readString? _ = _
  rw [readString?_flatMap, String.ofList_toList]

/-- Blanks, brackets and the characters that begin other values than numbers. -/
def nonNumeric : List Char := ['"', '[', ']', '{', 'n', 't', 'f', ' ', '\n', '\r', '\t']

/-- What may begin a number is no blank. -/
lemma isBlank_of_nonNumeric {c : Char} (hc : c ∉ nonNumeric) : isBlank c = false := by
  simp only [nonNumeric, List.mem_cons, List.not_mem_nil, or_false, not_or] at hc
  simp [isBlank, hc]

/-- No blanks are skipped in front of another character. -/
lemma skipBlank_cons {c : Char} (hc : isBlank c = false) (cs : List Char) :
    skipBlank (c :: cs) = c :: cs := List.dropWhile_cons_of_neg (by simp [hc])

/-- What does not begin like another value is read as a number. -/
lemma value?_cons_of_number {c : Char} (hc : c ∉ nonNumeric) (fuel : Nat) (more : List Char) :
    value? (fuel + 1) (c :: more) = number? (c :: more) := by
  rw [value?, skipBlank_cons (isBlank_of_nonNumeric hc)]
  simp only [nonNumeric, List.mem_cons, List.not_mem_nil, or_false, not_or] at hc
  obtain ⟨h₁, h₂, -, h₄, h₅, h₆, h₇, -⟩ := hc
  simp [h₁, h₂, h₄, h₅, h₆, h₇]

/-- The text of a number begins with a digit or its sign. -/
lemma toString_cons (n : Int) : ∃ c cs, (toString n).toList = c :: cs ∧ c ∉ nonNumeric := by
  have hdigits (m : Nat) : ∃ c cs, Nat.toDigits 10 m = c :: cs ∧ c ∉ nonNumeric := by
    obtain ⟨c, cs, h, hdigit⟩ := toDigits_cons m
    have hall : nonNumeric.all (fun c => !c.isDigit) = true := by decide
    refine ⟨c, cs, h, fun hc => ?_⟩
    have hother := List.all_eq_true.1 hall c hc
    rw [hdigit] at hother
    cases hother
  rw [Int.toString_eq_repr, Int.repr_eq_if]
  split
  · rw [Nat.toList_repr]
    exact hdigits _
  · exact ⟨'-', _, String.toList_append, by decide⟩

/-- An integer is read back up to its end. -/
lemma value?_integer {n : Int} (hn : n.natAbs ≤ Decimal.maxSignificand) (fuel : Nat)
    {rest : List Char} (hr : EndsNumber rest) :
    value? (fuel + 1) ((toString n).toList ++ rest) = some (.integer n, rest) := by
  obtain ⟨c, cs, h, hc⟩ := toString_cons n
  have hread := number?_toString hn hr
  rw [h, List.cons_append] at hread ⊢
  rw [value?_cons_of_number hc, hread]

/-- No text of a value begins with a blank or a closing bracket. -/
lemma render_cons {v : Json} (hv : v.isExact = true) :
    ∃ c cs, (render v).toList = c :: cs ∧ isBlank c = false ∧ c ≠ ']' := by
  cases v with
  | null => exact ⟨'n', _, rfl, by decide⟩
  | bool value =>
    cases value with
    | false => exact ⟨'f', _, rfl, by decide⟩
    | true => exact ⟨'t', _, rfl, by decide⟩
  | integer n =>
    obtain ⟨c, cs, h, hc⟩ := toString_cons n
    refine ⟨c, cs, by rwa [render], isBlank_of_nonNumeric hc, ?_⟩
    rintro rfl
    exact hc (by decide)
  | string s => exact ⟨'"', _, by rw [render, quote, String.toList_ofList]; rfl, by decide⟩
  | array items =>
    exact ⟨'[', _, by rw [render, String.append_assoc, String.toList_append]; rfl, by decide⟩
  | object entries =>
    exact ⟨'{', _, by rw [render, String.append_assoc, String.toList_append]; rfl, by decide⟩
  | decimal text => cases hv
  | broken => cases hv

/-- The texts of two items and more. -/
lemma renderItems_cons_cons (v w : Json) (more : List Json) (rest : List Char) :
    (renderItems (v :: w :: more)).toList ++ rest =
      (render v).toList ++ ',' :: ((renderItems (w :: more)).toList ++ rest) := by
  rw [renderItems]
  · simp
  · simp

/-- The texts of two entries and more. -/
lemma renderEntries_cons_cons (name : String) (v : Json) (e : String × Json)
    (more : List (String × Json)) (rest : List Char) :
    (renderEntries ((name, v) :: e :: more)).toList ++ rest =
      (quote name).toList ++ ':' :: ((render v).toList ++
        ',' :: ((renderEntries (e :: more)).toList ++ rest)) := by
  rw [renderEntries]
  · simp
  · simp

/-- Items begin neither with a blank nor with the bracket that ends them. -/
lemma renderItems_cons {v : Json} {more : List Json} (hv : areExact (v :: more) = true) :
    ∃ c cs, (renderItems (v :: more)).toList = c :: cs ∧ isBlank c = false ∧ c ≠ ']' := by
  obtain ⟨c, cs, h, hc⟩ := render_cons (Bool.and_eq_true_iff.1 hv).1
  cases more with
  | nil => exact ⟨c, cs, by rwa [renderItems], hc⟩
  | cons w rest =>
    have htext := renderItems_cons_cons v w rest []
    rw [List.append_nil, h] at htext
    exact ⟨c, _, htext, hc⟩

/-- Entries begin with the quotation mark of their first name. -/
lemma renderEntries_cons (e : String × Json) (more : List (String × Json)) :
    ∃ cs, (renderEntries (e :: more)).toList = '"' :: cs := by
  obtain ⟨name, v⟩ := e
  cases more with
  | nil =>
    rw [renderEntries, String.append_assoc, String.toList_append, toList_quote]
    exact ⟨_, rfl⟩
  | cons w rest =>
    have htext := renderEntries_cons_cons name v w rest []
    rw [List.append_nil, toList_quote] at htext
    exact ⟨_, htext⟩

/-- An array with items. -/
lemma value?_bracket {c : Char} (hblank : isBlank c = false) (hc : c ≠ ']') (fuel : Nat)
    (cs : List Char) : value? (fuel + 1) ('[' :: c :: cs) =
      (items? fuel (c :: cs)).map fun (vs, after) => (.array vs, after) := by
  rw [value?, skipBlank_cons (by decide)]
  simp [skipBlank_cons hblank, hc]

/-- An object with entries. -/
lemma value?_brace (fuel : Nat) (cs : List Char) : value? (fuel + 1) ('{' :: '"' :: cs) =
    (entries? fuel ('"' :: cs)).map fun (es, after) => (ofEntries es, after) := by
  rw [value?]
  rfl

/-- The object of entries whose names are strings. -/
lemma ofEntries_named (entries : List (String × Json)) :
    ofEntries (entries.map fun e => (.string e.1, e.2)) = .object entries := by
  have hnames : (entries.map fun e => (Json.string e.1, e.2)).mapM (fun e =>
      e.1.string?.map fun name => (name, e.2)) = some entries := by
    induction entries with
    | nil => rfl
    | cons e rest ih =>
      rw [List.map_cons, List.mapM_cons, ih]
      rfl
  rw [ofEntries, hnames]

/-- The text after an item or an entry does not go on with a number. -/
lemma endsNumber_cons {c : Char} (hc : c = ',' ∨ c = ']' ∨ c = '}') (rest : List Char) :
    EndsNumber (c :: rest) := by
  intro d hd
  obtain rfl := Option.some.inj hd
  rcases hc with rfl | rfl | rfl <;> decide

/-- The name of an entry is read up to its value. -/
lemma name?_quote (name : String) (rest : List Char) :
    name? (skipBlank ((quote name).toList ++ rest)) = some (.string name, rest) := by
  rw [toList_quote, skipBlank_cons (by decide), name?, readString?_flatMap, String.ofList_toList]

/-- With so many steps, the texts of values, items and entries are read back, if the steps are as
many as the characters. -/
structure ReadsBack (fuel : Nat) : Prop where
  value {v : Json} (hv : v.isExact = true) {rest : List Char} (hr : EndsNumber rest)
    (hfuel : (render v).toList.length ≤ fuel) :
    value? fuel ((render v).toList ++ rest) = some (v, rest)
  items {items : List Json} (hne : items ≠ []) (hv : areExact items = true) (rest : List Char)
    (hfuel : (renderItems items).toList.length < fuel) :
    items? fuel ((renderItems items).toList ++ ']' :: rest) = some (items, rest)
  entries {entries : List (String × Json)} (hne : entries ≠ [])
    (hv : areExactEntries entries = true) (rest : List Char)
    (hfuel : (renderEntries entries).toList.length < fuel) :
    entries? fuel ((renderEntries entries).toList ++ '}' :: rest) =
      some (entries.map fun e => (.string e.1, e.2), rest)

namespace ReadsBack

variable {fuel : Nat} {rest : List Char}

/-- An array is read back if its items are. -/
lemma array (h : ReadsBack fuel) {items : List Json} (hv : areExact items = true)
    (hfuel : (render (.array items)).toList.length ≤ fuel + 1) :
    value? (fuel + 1) ((render (.array items)).toList ++ rest) = some (.array items, rest) := by
  have htext : (render (.array items)).toList ++ rest =
      '[' :: ((renderItems items).toList ++ ']' :: rest) := by
    rw [render]
    simp
  have hlength := congrArg List.length htext
  simp only [List.length_append, List.length_cons] at hlength
  rw [htext]
  cases items with
  | nil =>
    rw [value?]
    rfl
  | cons v more =>
    have hitems := h.items (List.cons_ne_nil v more) hv rest (by omega)
    obtain ⟨c, cs, hc, hblank, hne⟩ := renderItems_cons hv
    rw [hc, List.cons_append] at hitems ⊢
    rw [value?_bracket hblank hne, hitems]
    rfl

/-- An object is read back if its entries are. -/
lemma object (h : ReadsBack fuel) {entries : List (String × Json)}
    (hv : areExactEntries entries = true)
    (hfuel : (render (.object entries)).toList.length ≤ fuel + 1) :
    value? (fuel + 1) ((render (.object entries)).toList ++ rest) =
      some (.object entries, rest) := by
  have htext : (render (.object entries)).toList ++ rest =
      '{' :: ((renderEntries entries).toList ++ '}' :: rest) := by
    rw [render]
    simp
  have hlength := congrArg List.length htext
  simp only [List.length_append, List.length_cons] at hlength
  rw [htext]
  cases entries with
  | nil =>
    rw [value?]
    rfl
  | cons e more =>
    have hentries := h.entries (List.cons_ne_nil e more) hv rest (by omega)
    obtain ⟨cs, hcs⟩ := renderEntries_cons e more
    rw [hcs, List.cons_append] at hentries ⊢
    rw [value?_brace, hentries]
    exact congrArg some (Prod.ext (ofEntries_named _) rfl)

/-- One more step for values. -/
lemma value_succ (h : ReadsBack fuel) {v : Json} (hv : v.isExact = true) (hr : EndsNumber rest)
    (hfuel : (render v).toList.length ≤ fuel + 1) :
    value? (fuel + 1) ((render v).toList ++ rest) = some (v, rest) := by
  cases v with
  | null =>
    rw [value?]
    rfl
  | bool value =>
    rw [value?]
    cases value <;> rfl
  | integer n =>
    rw [render]
    exact value?_integer (of_decide_eq_true hv) fuel hr
  | string s =>
    rw [render]
    exact value?_quote s fuel rest
  | array items => exact h.array hv hfuel
  | object entries => exact h.object hv hfuel
  | decimal text => cases hv
  | broken => cases hv

/-- One more step for items. -/
lemma items_succ (h : ReadsBack fuel) {items : List Json} (hne : items ≠ [])
    (hv : areExact items = true) (hfuel : (renderItems items).toList.length < fuel + 1) :
    items? (fuel + 1) ((renderItems items).toList ++ ']' :: rest) = some (items, rest) := by
  obtain ⟨v, more, rfl⟩ := List.exists_cons_of_ne_nil hne
  obtain ⟨hfirst, hmore⟩ := Bool.and_eq_true_iff.1 hv
  cases more with
  | nil =>
    rw [renderItems] at hfuel ⊢
    rw [items?, h.value hfirst (endsNumber_cons (by simp) rest) (by omega)]
    rfl
  | cons w more =>
    have htext := renderItems_cons_cons v w more (']' :: rest)
    have hlength := congrArg List.length htext
    simp only [List.length_append, List.length_cons] at hlength
    have hitems := h.items (List.cons_ne_nil w more) hmore rest (by omega)
    rw [htext, items?, h.value hfirst (endsNumber_cons (by simp) _) (by omega)]
    change (items? fuel _).bind _ = _
    rw [hitems]
    rfl

/-- One more step for entries. -/
lemma entries_succ (h : ReadsBack fuel) {entries : List (String × Json)} (hne : entries ≠ [])
    (hv : areExactEntries entries = true)
    (hfuel : (renderEntries entries).toList.length < fuel + 1) :
    entries? (fuel + 1) ((renderEntries entries).toList ++ '}' :: rest) =
      some (entries.map fun e => (.string e.1, e.2), rest) := by
  obtain ⟨⟨name, v⟩, more, rfl⟩ := List.exists_cons_of_ne_nil hne
  obtain ⟨hfirst, hmore⟩ := Bool.and_eq_true_iff.1 hv
  cases more with
  | nil =>
    have htext : (renderEntries [(name, v)]).toList ++ '}' :: rest =
        (quote name).toList ++ ':' :: ((render v).toList ++ '}' :: rest) := by
      rw [renderEntries]
      simp
    have hlength := congrArg List.length htext
    simp only [List.length_append, List.length_cons] at hlength
    rw [htext, entries?, name?_quote]
    change (value? fuel _).bind _ = _
    rw [h.value hfirst (endsNumber_cons (by simp) rest) (by omega)]
    rfl
  | cons e more =>
    have htext := renderEntries_cons_cons name v e more ('}' :: rest)
    have hlength := congrArg List.length htext
    simp only [List.length_append, List.length_cons] at hlength
    have hentries := h.entries (List.cons_ne_nil e more) hmore rest (by omega)
    rw [htext, entries?, name?_quote]
    change (value? fuel _).bind _ = _
    rw [h.value hfirst (endsNumber_cons (by simp) _) (by omega)]
    change (entries? fuel _).bind _ = _
    rw [hentries]
    rfl

end ReadsBack

/-- **All texts are read back**, by induction on the steps as the reader takes them. -/
theorem readsBack (fuel : Nat) : ReadsBack fuel := by
  induction fuel with
  | zero =>
    refine ⟨fun hv _ _ hfuel => ?_, fun _ _ _ hfuel => absurd hfuel (Nat.not_lt_zero _),
      fun _ _ _ hfuel => absurd hfuel (Nat.not_lt_zero _)⟩
    obtain ⟨c, cs, h, -⟩ := render_cons hv
    simp [h] at hfuel
  | succ fuel ih =>
    exact ⟨fun hv _ hr hfuel => ih.value_succ hv hr hfuel,
      fun hne hv _ hfuel => ih.items_succ hne hv hfuel,
      fun hne hv _ hfuel => ih.entries_succ hne hv hfuel⟩

/-- **The text of a value** is read as the value. -/
theorem parse?_render {v : Json} (hv : v.isExact = true) : parse? v.render = some v := by
  have hend : EndsNumber [] := fun c hc => by cases hc
  have hread := (readsBack (2 * v.render.toList.length + 2)).value hv hend (by omega)
  rw [List.append_nil] at hread
  simp [parse?, hread, skipBlank]

end Json

end VersionedTree
