/-!
# Hexadecimal digits

Digits as characters, bytes as two digits, and numbers as a fixed count of digits.

## Main definitions

* `VersionedTree.Hex.digit` — the lowercase digit of a number below sixteen.
* `VersionedTree.Hex.value?` — the number of a digit in either letter case.
* `VersionedTree.Hex.ofByte`, `VersionedTree.Hex.ofNat` — a byte, or a number, in a fixed width.
* `VersionedTree.Hex.toNat?` — the number that a list of digits writes.
-/

set_option autoImplicit false

namespace VersionedTree.Hex

/-- The lowercase digit of a number below sixteen. -/
def digit (n : Nat) : Char :=
  if n < 10 then Char.ofNat (48 + n) else Char.ofNat (87 + n)

/-- The number of a digit, in either letter case. -/
def value? (c : Char) : Option Nat :=
  if '0' ≤ c ∧ c ≤ '9' then some (c.toNat - 48)
  else if 'a' ≤ c ∧ c ≤ 'f' then some (c.toNat - 87)
  else if 'A' ≤ c ∧ c ≤ 'F' then some (c.toNat - 55)
  else none

/-- A byte as two digits. -/
def ofByte (b : UInt8) : List Char := [digit (b.toNat / 16), digit (b.toNat % 16)]

/-- Bytes as digits, two for each. -/
def ofBytes (bs : List UInt8) : List Char := bs.flatMap ofByte

/-- The last `width` digits of a number, leading zeros included. -/
def ofNat : (width : Nat) → Nat → List Char
  | 0, _ => []
  | w + 1, n => ofNat w (n / 16) ++ [digit (n % 16)]

/-- The number that the digits write, after the digits already read. -/
def toNatFrom? (acc : Nat) : List Char → Option Nat
  | [] => some acc
  | c :: cs => (value? c).bind fun v => toNatFrom? (16 * acc + v) cs

/-- The number that the digits write; every character must be a digit. -/
def toNat? (cs : List Char) : Option Nat := toNatFrom? 0 cs

/-- Bytes from digits, two for each; an odd digit or another character is refused. -/
def toBytes? : List Char → Option (List UInt8)
  | [] => some []
  | [_] => none
  | h :: l :: rest => do
    let hi ← value? h
    let lo ← value? l
    return UInt8.ofNat (16 * hi + lo) :: (← toBytes? rest)

/-- The digit of a number below sixteen is read as that number. -/
theorem value?_digit (n : Nat) (h : n < 16) : value? (digit n) = some n := by
  revert n
  decide

/-- A text of `width` digits has that many characters. -/
@[simp] theorem length_ofNat (width n : Nat) : (ofNat width n).length = width := by
  induction width generalizing n with
  | zero => rfl
  | succ w ih => simp [ofNat, ih]

end VersionedTree.Hex
