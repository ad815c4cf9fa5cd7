import VersionedTree.Hex

/-!
# Labels

A label is the stored spelling of one segment of a path. It holds ASCII letters and digits, `_`
and escapes: every other byte of the segment's UTF-8 text is written as `~` and two lowercase
hexadecimal digits. Neither the `/` of a path as written by its user nor the `.` that joins
labels can therefore occur inside a label.

## Main definitions

* `VersionedTree.Label.encode` — the label of a segment.
* `VersionedTree.Label.decode` — the segment of a label, or the fault that refuses it.
* `VersionedTree.Label.Fault` — why a text is no label.
-/

set_option autoImplicit false

namespace VersionedTree.Label

/-- Why a text is not a label. -/
inductive Fault where
  /-- The text is empty. -/
  | empty
  /-- An escape has no two bytes after its sign. -/
  | truncatedEscape
  /-- An escape holds an uppercase letter. -/
  | uppercaseEscape
  /-- An escape is not a number. -/
  | badEscape
  /-- An escape stands for a byte that is written as itself. -/
  | escapedPlain
  /-- A character is neither plain nor the start of an escape. -/
  | illegalCharacter
  /-- The bytes are not UTF-8. -/
  | notUtf8
deriving DecidableEq, Repr

/-- The wording of a fault. -/
def Fault.reason : Fault → String
  | .empty => "empty label"
  | .truncatedEscape => "truncated escape"
  | .uppercaseEscape => "escape must be lowercase hex"
  | .badEscape => "bad escape"
  | .escapedPlain => "escaped a plain character"
  | .illegalCharacter => "illegal character"
  | .notUtf8 => "escapes are not valid UTF-8"

/-- Plain characters are the ASCII letters and digits and `_`; they stand for themselves. -/
def isPlain (c : Char) : Bool := c.isAlphanum || c == '_'

/-- The spelling of one byte. -/
def encodeByte (b : UInt8) : List Char :=
  if isPlain (Char.ofUInt8 b) then [Char.ofUInt8 b] else '~' :: Hex.ofByte b

/-- The label of a segment. -/
def encode (segment : String) : List Char :=
  segment.toUTF8.data.toList.flatMap encodeByte

/-- The number written in an escape: two digits, or a digit after a plus sign. -/
def escapeValue? (high low : Char) : Option UInt8 :=
  if high = '+' then (Hex.value? low).map UInt8.ofNat
  else do
    let h ← Hex.value? high
    let l ← Hex.value? low
    return UInt8.ofNat (16 * h + l)

/-- The byte that the two ASCII characters of an escape stand for. -/
def decodeEscape (high low : Char) : Except Fault UInt8 :=
  if high.isUpper || low.isUpper then .error .uppercaseEscape
  else match escapeValue? high low with
    | none => .error .badEscape
    | some b => if isPlain (Char.ofUInt8 b) then .error .escapedPlain else .ok b

/-- The bytes that a label stands for. An escape takes two bytes of text: two ASCII characters
are read as a number, one character of two bytes is no number, and any other end of the escape
would cut a character. -/
def decodeBytes : List Char → Except Fault (List UInt8)
  | [] => .ok []
  | '~' :: high :: low :: rest =>
    if high.utf8Size = 1 ∧ low.utf8Size = 1 then do
      let b ← decodeEscape high low
      let bs ← decodeBytes rest
      return b :: bs
    else if high.utf8Size = 2 then .error .badEscape
    else .error .truncatedEscape
  | ['~', c] => if c.utf8Size = 2 then .error .badEscape else .error .truncatedEscape
  | c :: rest =>
    if c = '~' then .error .truncatedEscape
    else if isPlain c then do
      let bs ← decodeBytes rest
      return c.toUInt8 :: bs
    else .error .illegalCharacter

/-- The segment that a label stands for. -/
def decode (label : List Char) : Except Fault String :=
  if label.isEmpty then .error .empty
  else do
    let bytes ← decodeBytes label
    match String.fromUTF8? ⟨bytes.toArray⟩ with
    | some segment => return segment
    | none => .error .notUtf8

end VersionedTree.Label
