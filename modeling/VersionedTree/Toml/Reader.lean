import VersionedTree.Decimal
import VersionedTree.Toml
import VersionedTree.Toml.Text

/-!
# Reading TOML

The grammar of TOML documents: one statement a line, with blanks and comments around it.

## Main definitions

* `VersionedTree.Toml.statements?` — the statements of a text.
* `VersionedTree.Toml.parse?` — the table of a text.
-/

set_option autoImplicit false

namespace VersionedTree.Toml

/-! ## Ends of lines -/

/-- The text after its leading spaces and tabs. -/
def skipBlank (cs : List Char) : List Char := cs.dropWhile isBlank

/-- The text after a comment, which ends before the line break. -/
def skipComment : List Char → List Char
  | '#' :: rest => rest.dropWhile isPlain
  | cs => cs

/-- The text after the end of a line, which is the end of the document as well. -/
def lineEnd? : List Char → Option (List Char)
  | [] => some []
  | '\n' :: rest => some rest
  | '\r' :: '\n' :: rest => some rest
  | _ => none

/-- The text after the rest of a line, in which only a comment may come. -/
def finishLine? (cs : List Char) : Option (List Char) := lineEnd? (skipComment (skipBlank cs))

/-! ## Keys -/

/-- A character of a name without quotes. -/
def isBare (c : Char) : Bool := c.isAlphanum || c == '_' || c == '-'

/-- A part of a key: a name, with quotes or without. -/
def keyPart? (cs : List Char) : Option (String × List Char) :=
  match readLine? cs with
  | some r => some r
  | none =>
    match cs.takeWhile isBare with
    | [] => none
    | name => some (String.ofList name, cs.dropWhile isBare)

/-- The parts of a key, with blanks around each; `fuel` bounds their number. -/
def keyParts? : (fuel : Nat) → List Char → Option (List String × List Char)
  | 0, _ => none
  | fuel + 1, cs =>
    match keyPart? (skipBlank cs) with
    | none => none
    | some (part, rest) =>
      match skipBlank rest with
      | '.' :: rest => (keyParts? fuel rest).map fun (parts, after) => (part :: parts, after)
      | after => some ([part], after)

/-- A key has fewer than 80 parts. -/
def maxParts : Nat := 79

/-- A key and the text after it. -/
def key? (cs : List Char) : Option (Key × List Char) :=
  match keyParts? maxParts cs with
  | none => none
  | some (parts, after) => some (⟨parts.dropLast, parts.getLastD ""⟩, after)

/-! ## Numbers -/

/-- Digits with single underscores between them; the first character is a digit. -/
def digits? (isDigit : Char → Bool) : List Char → Option (List Char × List Char)
  | [] => none
  | '_' :: _ => none
  | c :: '_' :: rest =>
    if isDigit c then (digits? isDigit rest).map fun (ds, after) => (c :: ds, after) else none
  | c :: rest =>
    if isDigit c then
      match digits? isDigit rest with
      | some (ds, after) => some (c :: ds, after)
      | none => some ([c], rest)
    else none

/-- The number of digits in a base. -/
def number (base : Nat) (ds : List Char) : Nat :=
  ds.foldl (fun n d => base * n + (Hex.value? d).getD 0) 0

/-- An integer must fit into 64 bits, sign included. -/
def integer64? (n : Int) : Option Toml :=
  if -0x8000000000000000 ≤ n ∧ n < 0x8000000000000000 then some (.integer n) else none

/-- An optional sign. -/
def sign : List Char → Bool × List Char
  | '+' :: rest => (false, rest)
  | '-' :: rest => (true, rest)
  | cs => (false, cs)

/-- The digits of a decimal number: a zero alone, or digits that do not begin with one. -/
def decimal? : List Char → Option (List Char × List Char)
  | '0' :: rest => some (['0'], rest)
  | cs => digits? Char.isDigit cs

/-- Is this a digit of the base? -/
def isDigitOf (base : Nat) (c : Char) : Bool := (Hex.value? c).any (· < base)

/-- An integer after the mark of its base. -/
def based? (base : Nat) (cs : List Char) : Option (Toml × List Char) := do
  let (ds, rest) ← digits? (isDigitOf base) cs
  let v ← integer64? (number base ds)
  return (v, rest)

/-- The fraction of a number: the digits after a point. -/
def decimals? : List Char → Option (List Char × List Char)
  | '.' :: rest => digits? Char.isDigit rest
  | cs => some ([], cs)

/-- The exponent of a number. -/
def exponent? : List Char → Option (Int × List Char)
  | 'e' :: rest | 'E' :: rest => do
    let (negative, rest) := sign rest
    let (ds, rest) ← digits? Char.isDigit rest
    return (if negative then -(number 10 ds : Int) else number 10 ds, rest)
  | cs => some (0, cs)

/-- Does a fraction or an exponent come next? -/
def goesOn (cs : List Char) : Bool := cs.head?.any fun c => c == '.' || c == 'e' || c == 'E'

/-- A decimal number: an integer, or any other number if it has a fraction or an exponent. A
positive number must be within double precision. -/
def decimalNumber? (cs : List Char) : Option (Toml × List Char) := do
  let (negative, rest) := sign cs
  let (whole, rest) ← decimal? rest
  if goesOn rest then
    let (fraction, rest) ← decimals? rest
    let (exponent, rest) ← exponent? rest
    if negative || Decimal.isDouble (whole ++ fraction) (exponent - fraction.length) then
      return (.other, rest)
    else none
  else
    let n := number 10 whole
    let v ← integer64? (if negative then -n else n)
    return (v, rest)

/-- Infinity and the absence of a number. -/
def specialNumber? (cs : List Char) : Option (Toml × List Char) :=
  match (sign cs).2 with
  | 'i' :: 'n' :: 'f' :: rest => some (.other, rest)
  | 'n' :: 'a' :: 'n' :: rest => some (.other, rest)
  | _ => none

/-! ## Times -/

/-- A number of exactly `width` digits, and what comes after it. -/
def fixed? (width : Nat) (cs : List Char) : Option (Nat × List Char) :=
  let ds := cs.take width
  if ds.length = width ∧ ds.all Char.isDigit then some (number 10 ds, cs.drop width) else none

/-- The text after a character that must come next. -/
def expect? (c : Char) : List Char → Option (List Char)
  | d :: rest => if d = c then some rest else none
  | [] => none

/-- The length of a month. -/
def daysIn (year month : Nat) : Nat :=
  if month = 2 then
    if year % 4 = 0 ∧ (year % 100 ≠ 0 ∨ year % 400 = 0) then 29 else 28
  else if month = 4 ∨ month = 6 ∨ month = 9 ∨ month = 11 then 30
  else 31

/-- The text after a date. -/
def date? (cs : List Char) : Option (List Char) := do
  let (year, rest) ← fixed? 4 cs
  let (month, rest) ← fixed? 2 (← expect? '-' rest)
  let (day, rest) ← fixed? 2 (← expect? '-' rest)
  if 1 ≤ month ∧ month ≤ 12 ∧ 1 ≤ day ∧ day ≤ daysIn year month then some rest else none

/-- The text after a fraction of a second, if there is one. -/
def fraction? : List Char → Option (List Char)
  | '.' :: rest =>
    match rest.takeWhile Char.isDigit with
    | [] => none
    | _ => some (rest.dropWhile Char.isDigit)
  | cs => some cs

/-- The text after a time of day. -/
def time? (cs : List Char) : Option (List Char) := do
  let (hour, rest) ← fixed? 2 cs
  let (minute, rest) ← fixed? 2 (← expect? ':' rest)
  let (second, rest) ← fixed? 2 (← expect? ':' rest)
  if hour ≤ 23 ∧ minute ≤ 59 ∧ second ≤ 60 then fraction? rest else none

/-- The text after an offset from universal time, if there is one. -/
def offset? : List Char → Option (List Char)
  | 'Z' :: rest | 'z' :: rest => some rest
  | '+' :: rest | '-' :: rest => do
    let (hour, rest) ← fixed? 2 rest
    let (minute, rest) ← fixed? 2 (← expect? ':' rest)
    if hour ≤ 23 ∧ minute ≤ 59 then some rest else none
  | cs => some cs

/-- A date, a time of day, or both. -/
def moment? (cs : List Char) : Option (Toml × List Char) :=
  match date? cs with
  | some rest =>
    match rest with
    | 'T' :: more | 't' :: more => do return (.other, ← offset? (← time? more))
    | ' ' :: more =>
      match more.head? with
      | some c =>
        if c.isDigit then do return (.other, ← offset? (← time? more)) else some (.other, rest)
      | none => some (.other, rest)
    | _ => some (.other, rest)
  | none => (time? cs).map fun rest => (.other, rest)

/-- Does the text begin like a date or a time of day? -/
def looksLikeMoment (cs : List Char) : Bool :=
  match cs.takeWhile Char.isDigit, cs.dropWhile Char.isDigit with
  | [_, _, _, _], '-' :: _ => true
  | [_, _], ':' :: _ => true
  | _, _ => false

/-- A number or a time. -/
def scalar? (cs : List Char) : Option (Toml × List Char) :=
  if looksLikeMoment cs then moment? cs
  else match cs with
    | '0' :: 'x' :: rest => based? 16 rest
    | '0' :: 'o' :: rest => based? 8 rest
    | '0' :: 'b' :: rest => based? 2 rest
    | _ =>
      match decimalNumber? cs with
      | some r => some r
      | none => specialNumber? cs

/-! ## Values -/

/-- The text after blanks, line breaks and comments; `fuel` bounds the steps. -/
def skipLines : (fuel : Nat) → List Char → List Char
  | 0, cs => cs
  | fuel + 1, cs =>
    match skipComment (skipBlank cs) with
    | '\n' :: rest => skipLines fuel rest
    | '\r' :: '\n' :: rest => skipLines fuel rest
    | rest => rest

/-- The text after a word that must come next. -/
def word? (word : String) (cs : List Char) : Option (Toml × List Char) :=
  (word.toList.isPrefixOf? cs).map fun rest => (.other, rest)

/-- Values may be nested fewer than 80 times. -/
def maxDepth : Nat := 79

mutual

/-- A value and the text after it. `fuel` bounds the steps, `depth` the values around others. -/
def value? : (fuel depth : Nat) → List Char → Option (Toml × List Char)
  | 0, _, _ => none
  | fuel + 1, depth, cs =>
    match cs with
    | '"' :: _ | '\'' :: _ => (readString? cs).map fun (s, rest) => (.string s, rest)
    | '[' :: rest =>
      match depth with
      | 0 => none
      | depth + 1 => (items? fuel depth rest).map fun (vs, rest) => (.array vs, rest)
    | '{' :: rest =>
      match depth with
      | 0 => none
      | depth + 1 =>
        match skipBlank rest with
        | '}' :: rest => some (.table .inline [], rest)
        | rest =>
          match pairs? fuel depth rest with
          | none => none
          | some (pairs, rest) =>
            (buildInline? pairs []).map fun entries => (.table .inline entries, rest)
    | 't' :: rest => word? "rue" rest
    | 'f' :: rest => word? "alse" rest
    | _ => scalar? cs

/-- The items of an array up to its closing bracket. Lines may break anywhere between them, and
a comma may follow the last one. -/
def items? : (fuel depth : Nat) → List Char → Option (List Toml × List Char)
  | 0, _, _ => none
  | fuel + 1, depth, cs =>
    match skipLines fuel cs with
    | ']' :: rest => some ([], rest)
    | rest =>
      match value? fuel depth rest with
      | none => none
      | some (v, rest) =>
        match skipLines fuel rest with
        | ',' :: rest => (items? fuel depth rest).map fun (vs, after) => (v :: vs, after)
        | ']' :: after => some ([v], after)
        | _ => none

/-- The entries of a table in braces up to the closing one. -/
def pairs? : (fuel depth : Nat) → List Char → Option (List (Key × Toml) × List Char)
  | 0, _, _ => none
  | fuel + 1, depth, cs =>
    match key? cs with
    | some (key, '=' :: rest) =>
      match value? fuel depth (skipBlank rest) with
      | none => none
      | some (v, rest) =>
        match skipBlank rest with
        | ',' :: rest => (pairs? fuel depth rest).map fun (es, after) => ((key, v) :: es, after)
        | '}' :: after => some ([(key, v)], after)
        | _ => none
    | _ => none

end

/-! ## Statements -/

/-- A header after its opening brackets, and the text after its line. -/
def header? (cs : List Char) : Option (Statement × List Char) :=
  match cs with
  | '[' :: rest =>
    match key? rest with
    | some (key, ']' :: ']' :: rest) => (finishLine? rest).map fun after => (.item key, after)
    | _ => none
  | rest =>
    match key? rest with
    | some (key, ']' :: rest) => (finishLine? rest).map fun after => (.table key, after)
    | _ => none

/-- An entry, and the text after its line. -/
def assignment? (fuel : Nat) (cs : List Char) : Option (Statement × List Char) :=
  match key? cs with
  | some (key, '=' :: rest) =>
    match value? fuel maxDepth (skipBlank rest) with
    | some (value, rest) => (finishLine? rest).map fun after => (.entry key value, after)
    | none => none
  | _ => none

/-- The statements of a text; `fuel` bounds the steps. -/
def statementsFrom? : (fuel : Nat) → List Char → Option (List Statement)
  | 0, _ => none
  | fuel + 1, cs =>
    match skipBlank cs with
    | [] => some []
    | '#' :: rest => (lineEnd? (rest.dropWhile isPlain)).bind (statementsFrom? fuel)
    | '\n' :: rest => statementsFrom? fuel rest
    | '\r' :: '\n' :: rest => statementsFrom? fuel rest
    | '[' :: rest =>
      (header? rest).bind fun (s, after) => (statementsFrom? fuel after).map (s :: ·)
    | rest =>
      (assignment? fuel rest).bind fun (s, after) => (statementsFrom? fuel after).map (s :: ·)

/-- The text after a byte order mark. -/
def skipMark : List Char → List Char
  | '\ufeff' :: rest => rest
  | cs => cs

/-- The statements of a text. -/
def statements? (cs : List Char) : Option (List Statement) :=
  let cs := skipMark cs
  statementsFrom? (2 * cs.length + 2) cs

/-- The table of a text. -/
def parse? (text : String) : Option Entries := (statements? text.toList).bind build?

end VersionedTree.Toml
