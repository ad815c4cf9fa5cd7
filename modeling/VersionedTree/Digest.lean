import VersionedTree.Hex

/-!
# The SHA-256 digest

A text of bytes is filled up to whole blocks of sixteen words. Each block is stretched to
sixty-four words, which are mixed one by one into a state of eight words. The digest is the last
state.

## Main definitions

* `VersionedTree.Digest.fill` — the blocks' worth of bytes of a text.
* `VersionedTree.Digest.stretch` — the sixty-four words of a block.
* `VersionedTree.Digest.ofBytes` — the digest of a text.
* `VersionedTree.Digest.text` — the digest in lowercase hexadecimal digits.

## Design

The constants of the standard are binary fractions of roots of the first primes. They are
computed here from that rule.
-/

set_option autoImplicit false

namespace VersionedTree.Digest

/-! ## Constants -/

/-- The integer part of the `k`-th root of `n`, for a root of at most forty bits. -/
def root (k n : Nat) : Nat :=
  (List.range 40).foldr (fun i r => if Nat.pow (r + 1 <<< i) k ≤ n then r + 1 <<< i else r) 0

/-- The first thirty-two binary places of the `k`-th root of `n`. -/
def rootFraction (k n : Nat) : UInt32 := UInt32.ofNat (root k (n <<< (32 * k)))

/-- Has the number no divisor between one and itself? -/
def isPrime (n : Nat) : Bool := 2 ≤ n && (List.range n).all fun d => d < 2 || n % d != 0

/-- The first sixty-four primes. -/
def primes : List Nat := (List.range 312).filter isPrime

/-- One constant for each of the sixty-four steps. -/
def stepConstants : List UInt32 := primes.map (rootFraction 3)

/-! ## Blocks -/

/-- A text, the byte 128, zeros, and the length of the text in bits as a number of eight bytes:
in all a multiple of 64 bytes. -/
def fill (bytes : List UInt8) : List UInt8 :=
  let zeros := (119 - bytes.length % 64) % 64
  let bits := 8 * bytes.length
  let ending : List UInt8 := [56, 48, 40, 32, 24, 16, 8, 0].map fun i => UInt8.ofNat (bits >>> i)
  bytes ++ 128 :: (List.replicate zeros 0 ++ ending)

/-- Words of four bytes each, the most significant byte first. -/
def words : List UInt8 → List UInt32
  | a :: b :: c :: d :: rest =>
    (a.toUInt32 <<< 24 ||| b.toUInt32 <<< 16 ||| c.toUInt32 <<< 8 ||| d.toUInt32) :: words rest
  | _ => []

/-- The word turned to the right by `n` places. -/
def rotate (w : UInt32) (n : UInt32) : UInt32 := w >>> n ||| w <<< (32 - n)

/-- The word that follows sixteen words in the stretched block. -/
def nextWord (window : List UInt32) : UInt32 :=
  let early := window.getD 1 0
  let late := window.getD 14 0
  window.getD 0 0 + (rotate early 7 ^^^ rotate early 18 ^^^ early >>> 3)
    + window.getD 9 0 + (rotate late 17 ^^^ rotate late 19 ^^^ late >>> 10)

/-- The first `count` words of the sequence that goes on from sixteen words. -/
def stretch : (count : Nat) → (window : List UInt32) → List UInt32
  | 0, _ => []
  | count + 1, window =>
    window.headD 0 :: stretch count (window.drop 1 ++ [nextWord window])

/-! ## States -/

/-- Eight words. -/
structure State where
  a : UInt32
  b : UInt32
  c : UInt32
  d : UInt32
  e : UInt32
  f : UInt32
  g : UInt32
  h : UInt32
deriving DecidableEq, Repr

namespace State

/-- The state before the first block. -/
def start : State :=
  ⟨rootFraction 2 2, rootFraction 2 3, rootFraction 2 5, rootFraction 2 7, rootFraction 2 11,
    rootFraction 2 13, rootFraction 2 17, rootFraction 2 19⟩

/-- Mixes in one word, given the constant of its step. -/
def mix (s : State) (constant word : UInt32) : State :=
  let choice := (s.e &&& s.f) ^^^ (~~~s.e &&& s.g)
  let majority := (s.a &&& s.b) ^^^ (s.a &&& s.c) ^^^ (s.b &&& s.c)
  let first := s.h + (rotate s.e 6 ^^^ rotate s.e 11 ^^^ rotate s.e 25) + choice + constant + word
  let second := (rotate s.a 2 ^^^ rotate s.a 13 ^^^ rotate s.a 22) + majority
  ⟨first + second, s.a, s.b, s.c, s.d + first, s.e, s.f, s.g⟩

/-- The sum, word by word. -/
def add (s t : State) : State :=
  ⟨s.a + t.a, s.b + t.b, s.c + t.c, s.d + t.d, s.e + t.e, s.f + t.f, s.g + t.g, s.h + t.h⟩

/-- Mixes in one block. -/
def absorb (s : State) (block : List UInt32) : State :=
  s.add ((stepConstants.zip (stretch 64 block)).foldl (fun t (k, w) => t.mix k w) s)

/-- Mixes in the first `count` blocks of sixty-four bytes. -/
def absorbBlocks (s : State) : (count : Nat) → List UInt8 → State
  | 0, _ => s
  | count + 1, bytes =>
    absorbBlocks (s.absorb (Digest.words (bytes.take 64))) count (bytes.drop 64)

/-- The words of a state. -/
def words (s : State) : List UInt32 := [s.a, s.b, s.c, s.d, s.e, s.f, s.g, s.h]

end State

/-! ## Digests -/

/-- The digest of a text, as a state. -/
def ofBytes (bytes : ByteArray) : State :=
  let filled := fill bytes.data.toList
  State.start.absorbBlocks (filled.length / 64) filled

/-- The digest of a text in lowercase hexadecimal digits. -/
def text (bytes : ByteArray) : String :=
  String.ofList ((ofBytes bytes).words.flatMap fun w => Hex.ofNat 8 w.toNat)

end VersionedTree.Digest
