import Mathlib.Algebra.Group.Nat.Defs
import Mathlib.Data.List.Induction
import VersionedTree.Hex
import VersionedTree.Proofs.Lexicographic

/-!
# Digits of numbers

Numbers are written with lowercase digits, in a fixed width, and read from digits of either letter
case. Texts of one width compare like their numbers, and bytes of two digits each make up the digits
of a number.

## Main results

* `VersionedTree.Hex.toNat?_ofNat` — digits are read as the number they were written for.
* `VersionedTree.Hex.toNat?_eq_some_iff` — a number is read from its digits, in either letter case.
* `VersionedTree.Hex.ofBytes_digits` — the digits of the bytes of a number are those of the number.
* `VersionedTree.Hex.compare_ofNat` — digits compare like numbers.
-/

set_option autoImplicit false

namespace VersionedTree.Hex

/-! ## Single digits -/

/-- Capital letters by their numbers. -/
lemma isUpper_iff {c : Char} : c.isUpper = true ↔ 65 ≤ c.toNat ∧ c.toNat ≤ 90 := by
  delta Char.isUpper
  simp only [ge_iff_le, UInt32.le_iff_toNat_le, decide_eq_true_eq]
  exact Iff.rfl

/-- The code of a digit that is no capital letter follows from its number. -/
lemma eq_of_value? {c : Char} {v : Nat} (h : value? c = some v) (hc : c.isUpper = false) :
    v < 16 ∧ c.toNat = if v < 10 then 48 + v else 87 + v := by
  unfold value? at h
  split at h
  · next hd =>
    obtain rfl := Option.some.inj h
    have hlow : 48 ≤ c.toNat := hd.1
    have hhigh : c.toNat ≤ 57 := hd.2
    split <;> omega
  · split at h
    · next hd =>
      obtain rfl := Option.some.inj h
      have hlow : 97 ≤ c.toNat := hd.1
      have hhigh : c.toNat ≤ 102 := hd.2
      split <;> omega
    · split at h
      · next hd =>
        have hlow : 65 ≤ c.toNat := hd.1
        have hhigh : c.toNat ≤ 70 := hd.2
        have hupper : c.isUpper = true := isUpper_iff.2 ⟨hlow, by omega⟩
        rw [hc] at hupper
        cases hupper
      · cases h

/-- A digit that is no capital letter is the digit of its number. -/
lemma eq_digit_of_value? {c : Char} {v : Nat} (h : value? c = some v) (hc : c.isUpper = false) :
    v < 16 ∧ c = digit v := by
  obtain ⟨hv, hn⟩ := eq_of_value? h hc
  refine ⟨hv, ?_⟩
  rw [digit, ← Char.ofNat_toNat c, hn]
  split <;> rfl

/-- Beyond the capital letters nothing has another lowercase form. -/
lemma toLower_eq_self {c : Char} (h : ¬ c.toNat < 91) : c.toLower = c ∧ c.isUpper = false := by
  have hupper : ¬ c.isUpper = true := fun hc => h (Nat.lt_succ_of_le (isUpper_iff.1 hc).2)
  refine ⟨dif_neg fun hc => hupper ?_, eq_false_of_ne_true hupper⟩
  exact isUpper_iff.2 ⟨UInt32.le_iff_toNat_le.1 hc.1, UInt32.le_iff_toNat_le.1 hc.2⟩

/-- The lowercase form of a digit has the same number. -/
lemma value?_toLower (c : Char) : value? c.toLower = value? c ∧ c.toLower.isUpper = false := by
  by_cases h : c.toNat < 91
  · have hall : ∀ n < 91, value? (Char.ofNat n).toLower = value? (Char.ofNat n) ∧
        (Char.ofNat n).toLower.isUpper = false := by
      decide
    have hc := hall c.toNat h
    rwa [Char.ofNat_toNat] at hc
  · obtain ⟨hlower, hupper⟩ := toLower_eq_self h
    rw [hlower]
    exact ⟨rfl, hupper⟩

/-- A digit has the number of its lowercase form. -/
lemma value?_eq_some_iff {c : Char} {v : Nat} :
    value? c = some v ↔ v < 16 ∧ c.toLower = digit v := by
  obtain ⟨hvalue, hupper⟩ := value?_toLower c
  rw [← hvalue]
  constructor
  · exact fun h => eq_digit_of_value? h hupper
  · rintro ⟨hv, e⟩
    rw [e, value?_digit v hv]

/-- A digit is no dot. -/
lemma digit_ne_dot {n : Nat} (h : n < 16) : digit n ≠ '.' := by
  revert n
  decide

/-! ## Reading -/

/-- Digits in two groups are read one group after the other. -/
lemma toNatFrom?_append (acc : Nat) (cs ds : List Char) :
    toNatFrom? acc (cs ++ ds) = (toNatFrom? acc cs).bind fun n => toNatFrom? n ds := by
  induction cs generalizing acc with
  | nil => rfl
  | cons c rest ih =>
    simp only [List.cons_append, toNatFrom?]
    cases value? c with
    | none => rfl
    | some v => exact ih (16 * acc + v)

/-- The digits of a number are read after those of another one. -/
lemma toNatFrom?_ofNat (acc width n : Nat) :
    toNatFrom? acc (ofNat width n) = some (acc * 16 ^ width + n % 16 ^ width) := by
  induction width generalizing n with
  | zero => simp [ofNat, toNatFrom?, Nat.mod_one]
  | succ w ih =>
    have hdigit : n % 16 < 16 := Nat.mod_lt n (by decide)
    have hsplit : n % 16 ^ (w + 1) = 16 * (n / 16 % 16 ^ w) + n % 16 := by
      rw [Nat.pow_succ', Nat.mod_mul]
      omega
    rw [ofNat, toNatFrom?_append, ih]
    simp only [Option.bind_some, toNatFrom?, value?_digit _ hdigit, Option.some.injEq]
    have hshift : acc * 16 ^ (w + 1) = 16 * (acc * 16 ^ w) := by
      rw [Nat.pow_succ', Nat.mul_left_comm]
    omega

/-- **Digits are read** as the number they were written for, if there are enough of them. -/
theorem toNat?_ofNat (width n : Nat) : toNat? (ofNat width n) = some (n % 16 ^ width) := by
  have h := toNatFrom?_ofNat 0 width n
  rwa [Nat.zero_mul, Nat.zero_add] at h

/-- Digits are read in either letter case. -/
lemma toNatFrom?_map_toLower (acc : Nat) (cs : List Char) :
    toNatFrom? acc (cs.map Char.toLower) = toNatFrom? acc cs := by
  induction cs generalizing acc with
  | nil => rfl
  | cons c rest ih =>
    rw [List.map_cons, toNatFrom?, toNatFrom?, (value?_toLower c).1]
    exact congrArg _ (funext fun v => ih (16 * acc + v))

/-- What is read as a number are the digits of the number, in either letter case. -/
lemma map_toLower_of_toNat? {cs : List Char} {n : Nat} (h : toNat? cs = some n) :
    n < 16 ^ cs.length ∧ cs.map Char.toLower = ofNat cs.length n := by
  induction cs using List.reverseRecOn generalizing n with
  | nil =>
    obtain rfl : 0 = n := Option.some.inj h
    exact ⟨by decide, rfl⟩
  | append_singleton rest c ih =>
    rw [toNat?, toNatFrom?_append, Option.bind_eq_some_iff] at h
    obtain ⟨m, hm, h⟩ := h
    obtain ⟨v, hv, h⟩ := Option.bind_eq_some_iff.1 h
    obtain rfl : 16 * m + v = n := Option.some.inj h
    obtain ⟨hlt, hrest⟩ := ih hm
    obtain ⟨hdigit, hc⟩ := value?_eq_some_iff.1 hv
    have hquotient : (16 * m + v) / 16 = m := by omega
    have hremainder : (16 * m + v) % 16 = v := by omega
    rw [List.length_append, List.length_singleton]
    refine ⟨?_, ?_⟩
    · rw [Nat.pow_succ']
      omega
    · rw [ofNat, hquotient, hremainder, List.map_append, hrest, ← hc]
      rfl

/-- **A number is read** from its digits, in either letter case, and from nothing else. -/
theorem toNat?_eq_some_iff {cs : List Char} {n : Nat} :
    toNat? cs = some n ↔ n < 16 ^ cs.length ∧ cs.map Char.toLower = ofNat cs.length n := by
  refine ⟨map_toLower_of_toNat?, ?_⟩
  rintro ⟨hlt, h⟩
  rw [toNat?, ← toNatFrom?_map_toLower, h, ← toNat?, toNat?_ofNat, Nat.mod_eq_of_lt hlt]

/-! ## Writing -/

/-- Numbers are written with digits only. -/
lemma exists_of_mem_ofNat {c : Char} {width n : Nat} (h : c ∈ ofNat width n) :
    ∃ v < 16, c = digit v := by
  induction width generalizing n with
  | zero => cases h
  | succ w ih =>
    rcases List.mem_append.1 h with h | h
    · exact ih h
    · exact ⟨n % 16, Nat.mod_lt n (by decide), List.mem_singleton.1 h⟩

/-- Digits are no dots. -/
lemma dot_not_mem_ofNat (width n : Nat) : '.' ∉ ofNat width n := by
  intro h
  obtain ⟨v, hv, e⟩ := exists_of_mem_ofNat h
  exact digit_ne_dot hv e.symm

/-- Digits are written from the last one on, as in every other base. -/
lemma ofNat_eq_digits (width n : Nat) : ofNat width n = digits digit 16 width n := by
  induction width generalizing n with
  | zero => rfl
  | succ w ih => rw [ofNat, digits, ih]

/-- **Digits compare like numbers**, if there are enough of them. -/
theorem compare_ofNat (width m n : Nat) :
    compare (ofNat width m) (ofNat width n) = compare (m % 16 ^ width) (n % 16 ^ width) := by
  rw [ofNat_eq_digits, ofNat_eq_digits]
  exact compare_digits (by decide) (by decide) width m n

/-! ## Bytes -/

/-- A byte has two digits. -/
lemma ofByte_ofNat {n : Nat} (h : n < 256) :
    ofByte (UInt8.ofNat n) = [digit (n / 16), digit (n % 16)] := by
  rw [ofByte, UInt8.toNat_ofNat_of_lt' h]

/-- **The bytes of a number** are written as the number. -/
theorem ofBytes_digits (width n : Nat) :
    ofBytes (digits UInt8.ofNat 256 width n) = ofNat (2 * width) n := by
  induction width generalizing n with
  | zero => rfl
  | succ w ih =>
    have hbyte : n % 256 < 256 := Nat.mod_lt n (by decide)
    have hhigh : n % 256 / 16 = n / 16 % 16 := by omega
    have hlow : n % 256 % 16 = n % 16 := by omega
    have hquotient : n / 16 / 16 = n / 256 := Nat.div_div_eq_div_mul n 16 16
    have hlast : ofBytes [UInt8.ofNat (n % 256)] = [digit (n / 16 % 16)] ++ [digit (n % 16)] := by
      rw [ofBytes, List.flatMap_singleton, ofByte_ofNat hbyte, hhigh, hlow]
      rfl
    rw [digits, ofBytes, List.flatMap_append, ← ofBytes, ih, ← ofBytes, hlast, ← List.append_assoc,
      Nat.mul_succ, ofNat, ofNat, hquotient]

/-- Bytes compare like their numbers. -/
lemma compare_byte {i j : Nat} (hi : i < 256) (hj : j < 256) :
    compare (UInt8.ofNat i) (UInt8.ofNat j) = compare i j := by
  have hlt : UInt8.ofNat i < UInt8.ofNat j ↔ i < j := by
    rw [UInt8.lt_iff_toNat_lt, UInt8.toNat_ofNat_of_lt' hi, UInt8.toNat_ofNat_of_lt' hj]
  have heq : UInt8.ofNat i = UInt8.ofNat j ↔ i = j := by
    rw [← UInt8.toNat_inj, UInt8.toNat_ofNat_of_lt' hi, UInt8.toNat_ofNat_of_lt' hj]
  simp only [compare, compareOfLessAndEq, hlt, heq]

end VersionedTree.Hex
