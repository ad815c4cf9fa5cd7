import VersionedTree.Decimal
import VersionedTree.Json

/-!
# Reading JSON

The grammar of JSON texts. A text is one value with blanks around it and nothing after it.

## Main definitions

* `VersionedTree.Json.parse?` — the value of a text.
-/

set_option autoImplicit false

namespace VersionedTree.Json

/-- The blanks of JSON. -/
def isBlank (c : Char) : Bool := c == ' ' || c == '\n' || c == '\r' || c == '\t'

/-- The text after its leading blanks. -/
def skipBlank (cs : List Char) : List Char := cs.dropWhile isBlank

/-! ## Strings -/

/-- A part of a string: a character, or a unit of 16 bits given by its number. -/
inductive Piece where
  | char (c : Char)
  | unit (n : Nat)
deriving Repr

/-- The character of an escape by a single letter. -/
def letterEscape? (c : Char) : Option Char :=
  if c = '"' ∨ c = '\\' ∨ c = '/' then some c
  else if c = 'b' then some '\x08'
  else if c = 'f' then some '\x0c'
  else if c = 'n' then some '\n'
  else if c = 'r' then some '\r'
  else if c = 't' then some '\t'
  else none

/-- The parts of a string up to its closing quote, and the text after it. -/
def pieces? : List Char → Option (List Piece × List Char)
  | [] => none
  | '"' :: rest => some ([], rest)
  | '\\' :: 'u' :: a :: b :: c :: d :: rest => do
    let n ← Hex.toNat? [a, b, c, d]
    let (ps, after) ← pieces? rest
    return (.unit n :: ps, after)
  | '\\' :: e :: rest => do
    let c ← letterEscape? e
    let (ps, after) ← pieces? rest
    return (.char c :: ps, after)
  | c :: rest =>
    if c.toNat < 0x20 || c == '\\' then none
    else do
      let (ps, after) ← pieces? rest
      return (.char c :: ps, after)

/-- The first half of a character beyond the basic plane. -/
def isHighSurrogate (n : Nat) : Bool := 0xd800 ≤ n && n < 0xdc00

/-- The second half of a character beyond the basic plane. -/
def isLowSurrogate (n : Nat) : Bool := 0xdc00 ≤ n && n < 0xe000

/-- The characters of a string. Units must come in pairs of a first and a second half, or stand
for a character alone. -/
def assemble? : List Piece → Option (List Char)
  | [] => some []
  | .char c :: rest => (assemble? rest).map (c :: ·)
  | .unit n :: .unit m :: rest =>
    if isHighSurrogate n then
      if isLowSurrogate m then
        (assemble? rest).map (Char.ofNat (0x10000 + (n - 0xd800) * 0x400 + (m - 0xdc00)) :: ·)
      else none
    else if isLowSurrogate n then none
    else (assemble? (.unit m :: rest)).map (Char.ofNat n :: ·)
  | .unit n :: rest =>
    if isHighSurrogate n || isLowSurrogate n then none
    else (assemble? rest).map (Char.ofNat n :: ·)

/-- The string after its opening quote. -/
def readString? (cs : List Char) : Option (Json × List Char) := do
  let (ps, after) ← pieces? cs
  match assemble? ps with
  | some text => return (.string (String.ofList text), after)
  | none => return (.broken, after)

/-! ## Numbers -/

/-- The digits of a whole number, without superfluous zeros in front. -/
def wholeDigits? (cs : List Char) : Option (List Char × List Char) :=
  match cs.takeWhile Char.isDigit with
  | [] => none
  | '0' :: _ :: _ => none
  | ds => some (ds, cs.dropWhile Char.isDigit)

/-- The digits after a point; at least one. -/
def fraction? : List Char → Option (List Char × List Char)
  | '.' :: rest =>
    match rest.takeWhile Char.isDigit with
    | [] => none
    | ds => some ('.' :: ds, rest.dropWhile Char.isDigit)
  | cs => some ([], cs)

/-- The sign of an exponent, if it has one. -/
def exponentSign : List Char → List Char × List Char
  | '+' :: rest => (['+'], rest)
  | '-' :: rest => (['-'], rest)
  | cs => ([], cs)

/-- An exponent; at least one digit. -/
def exponent? : List Char → Option (List Char × List Char)
  | [] => some ([], [])
  | e :: rest =>
    if e == 'e' || e == 'E' then
      let (sign, digits) := exponentSign rest
      match digits.takeWhile Char.isDigit with
      | [] => none
      | ds => some (e :: sign ++ ds, digits.dropWhile Char.isDigit)
    else some ([], e :: rest)

/-- The number that an exponent stands for. -/
def exponentValue : List Char → Int
  | _ :: '-' :: ds => -(Decimal.value ds : Int)
  | _ :: '+' :: ds => Decimal.value ds
  | _ :: ds => Decimal.value ds
  | [] => 0

/-- A number, and the text after it. Minus zero is no integer. -/
def number? (cs : List Char) : Option (Json × List Char) := do
  let (sign, rest) := match cs with
    | '-' :: rest => (['-'], rest)
    | _ => ([], cs)
  let (whole, rest) ← wholeDigits? rest
  let (fraction, rest) ← fraction? rest
  let (exponent, rest) ← exponent? rest
  let n := Decimal.value whole
  if !Decimal.isGatheredDouble whole (fraction.drop 1) (exponentValue exponent) then
    return (.broken, rest)
  else if fraction.isEmpty && exponent.isEmpty && (sign.isEmpty || n != 0) then
    return (.integer (if sign.isEmpty then n else -n), rest)
  else return (.decimal (String.ofList (sign ++ whole ++ fraction ++ exponent)), rest)

/-! ## Values -/

/-- The name of an entry, a string or a broken one, and the text after it. -/
def name? : List Char → Option (Json × List Char)
  | '"' :: rest => readString? rest
  | _ => none

/-- The object of the given entries. One broken name breaks it. -/
def ofEntries (entries : List (Json × Json)) : Json :=
  match entries.mapM fun e => e.1.string?.map fun name => (name, e.2) with
  | some entries => .object entries
  | none => .broken

/-- The text after a word that must come next. -/
def word? (word : String) (value : Json) (cs : List Char) : Option (Json × List Char) :=
  (word.toList.isPrefixOf? cs).map fun rest => (value, rest)

mutual

/-- A value and the text after it; `fuel` bounds the steps. -/
def value? : (fuel : Nat) → List Char → Option (Json × List Char)
  | 0, _ => none
  | fuel + 1, cs =>
    match skipBlank cs with
    | '"' :: rest => readString? rest
    | '[' :: rest =>
      match skipBlank rest with
      | ']' :: after => some (.array [], after)
      | rest => (items? fuel rest).map fun (vs, after) => (.array vs, after)
    | '{' :: rest =>
      match skipBlank rest with
      | '}' :: after => some (.object [], after)
      | rest => (entries? fuel rest).map fun (es, after) => (ofEntries es, after)
    | 'n' :: rest => word? "ull" .null rest
    | 't' :: rest => word? "rue" (.bool true) rest
    | 'f' :: rest => word? "alse" (.bool false) rest
    | rest => number? rest

/-- The items of an array up to its closing bracket. -/
def items? : (fuel : Nat) → List Char → Option (List Json × List Char)
  | 0, _ => none
  | fuel + 1, cs => do
    let (v, rest) ← value? fuel cs
    match skipBlank rest with
    | ',' :: rest =>
      let (vs, after) ← items? fuel rest
      return (v :: vs, after)
    | ']' :: after => return ([v], after)
    | _ => none

/-- The entries of an object up to its closing brace. -/
def entries? : (fuel : Nat) → List Char → Option (List (Json × Json) × List Char)
  | 0, _ => none
  | fuel + 1, cs => do
    let (name, rest) ← name? (skipBlank cs)
    match skipBlank rest with
    | ':' :: rest =>
      let (v, rest) ← value? fuel rest
      match skipBlank rest with
      | ',' :: rest =>
        let (es, after) ← entries? fuel rest
        return ((name, v) :: es, after)
      | '}' :: after => return ([(name, v)], after)
      | _ => none
    | _ => none

end

/-- The value of a text. -/
def parse? (text : String) : Option Json :=
  let cs := text.toList
  match value? (2 * cs.length + 2) cs with
  | some (v, rest) => if (skipBlank rest).isEmpty then some v else none
  | none => none

end VersionedTree.Json
