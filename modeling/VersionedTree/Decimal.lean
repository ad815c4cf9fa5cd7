/-!
# Decimal numbers at the border of double precision

Numbers are written with decimal digits, and a number of double precision has 53 significant bits.
This module says which written numbers are too large for one, under the two ways of reading them:
all digits at once, or a significand of 64 bits times a power of ten.

## Main definitions

* `VersionedTree.Decimal.value` — the number that digits write.
* `VersionedTree.Decimal.isDouble` — is the written number within double precision?
* `VersionedTree.Decimal.roundDouble` — the nearest number of 53 significant bits.
* `VersionedTree.Decimal.append` — digits that follow a significand of 64 bits.
* `VersionedTree.Decimal.isScaledDouble` — is a rounded significand times a rounded power of ten
  within double precision?

## Main results

* `VersionedTree.Decimal.roundDouble_of_lt` — numbers of 53 bits stay as they are.
-/

set_option autoImplicit false

namespace VersionedTree.Decimal

/-- The number that decimal digits write. -/
def value (ds : List Char) : Nat := ds.foldl (fun n d => 10 * n + (d.toNat - 48)) 0

/-! ## All digits at once -/

/-- The least magnitude that rounds to no number of double precision. -/
def firstBeyond : Nat := Nat.pow 2 1024 - Nat.pow 2 970

/-- Is a number of these digits, the last of which counts `10 ^ exponent`, within double
precision? The places of the digits decide, except close to the border. -/
def isDouble (digits : List Char) (exponent : Int) : Bool :=
  let digits := digits.dropWhile (· == '0')
  let places := digits.length + exponent
  if digits.isEmpty || places < 300 then true
  else if 310 < places then false
  else if 0 ≤ exponent then value digits * Nat.pow 10 exponent.toNat < firstBeyond
  else value digits < firstBeyond * Nat.pow 10 (-exponent).toNat

/-! ## Significand and power -/

/-- The nearest number of 53 significant bits; of two that are equally near, the one whose last
bit is zero. -/
def roundDouble (n : Nat) : Nat :=
  let unit := Nat.pow 2 (n.log2 - 52)
  let low := n / unit
  if 2 * (n % unit) < unit || (2 * (n % unit) == unit && low % 2 == 0) then low * unit
  else (low + 1) * unit

/-- Numbers of 53 bits stay as they are. -/
theorem roundDouble_of_lt {n : Nat} (h : n < Nat.pow 2 53) : roundDouble n = n := by
  have hlog : n.log2 - 52 = 0 := by
    by_cases hn : n = 0
    · subst hn; decide
    · have := (Nat.log2_lt hn).2 h
      omega
  simp [roundDouble, hlog, Nat.mod_one]

/-- The largest significand has 64 bits. -/
def maxSignificand : Nat := 0xffffffffffffffff

/-- The significand after further digits, and the number of those that it has no room for: from
the first such digit on, none is taken. -/
def append (significand : Nat) : List Char → Nat × Nat
  | [] => (significand, 0)
  | d :: ds =>
    let next := 10 * significand + (d.toNat - 48)
    if next ≤ maxSignificand then append next ds else (significand, ds.length + 1)

/-- Is a rounded significand, times the rounded power of ten, within double precision? -/
def isScaledDouble (significand : Nat) (exponent : Int) : Bool :=
  significand == 0 || exponent < 0 ||
    (exponent ≤ 308 &&
      roundDouble significand * roundDouble (Nat.pow 10 exponent.toNat) < firstBeyond)

/-- Is a number within double precision if its digits are gathered in a significand? Digits of
the whole part that find no room raise the exponent, and those of the fraction are left out. -/
def isGatheredDouble (whole fraction : List Char) (exponent : Int) : Bool :=
  let (significand, beyond) := append 0 whole
  let (significand, unused) := append significand fraction
  isScaledDouble significand (exponent + beyond - (fraction.length - unused : Nat))

end VersionedTree.Decimal
