import VersionedTree.Hex

/-!
# Strings in TOML

A string stands between quotes: double quotes, with escapes, or single quotes, without; one of
them on a line, three of them around several lines.

## Main definitions

* `VersionedTree.Toml.Style` — the four kinds of quotes.
* `VersionedTree.Toml.Style.choose` — the kind that shows a text best.
* `VersionedTree.Toml.quote` — a text between quotes of the chosen kind.
* `VersionedTree.Toml.readString?` — the text between quotes of any kind.
-/

set_option autoImplicit false

namespace VersionedTree.Toml

/-! ## Characters -/

/-- A control character other than the tab and the line feed. -/
def isControl (c : Char) : Bool :=
  (c.toNat < 0x20 && c != '\t' && c != '\n') || c == '\x7f'

/-- A character that stands for itself on a line. -/
def isPlain (c : Char) : Bool := !isControl c && c != '\n'

/-! ## Writing -/

/-- The kinds of quotes. -/
inductive Style where
  /-- One double quote. -/
  | basic
  /-- One single quote. -/
  | literal
  /-- Three double quotes. -/
  | basicLines
  /-- Three single quotes. -/
  | literalLines
deriving DecidableEq, Repr

/-- The length of the longest run of a character. -/
def longestRun (c : Char) (cs : List Char) : Nat :=
  (cs.foldl (fun (run, best) d => if d == c then (run + 1, max best (run + 1)) else (0, best))
    (0, 0)).2

/-- The kind of quotes for a text: the first one that needs no escape, and otherwise double
quotes, three of them if the text has several lines. -/
def Style.choose (cs : List Char) : Style :=
  let controls := cs.any isControl
  let backslash := cs.contains '\\'
  let lines := cs.contains '\n'
  let doubles := longestRun '"' cs
  let singles := longestRun '\'' cs
  if !controls && !backslash && doubles == 0 && !lines then .basic
  else if !controls && singles == 0 && !lines then .literal
  else if !controls && !backslash && doubles ≤ 2 then .basicLines
  else if !controls && singles ≤ 2 then .literalLines
  else if lines then .basicLines
  else .basic

/-- A character between double quotes, where `run` quotes have come just before it and `allowed`
of them may stand in a row. -/
def escapeChar (lines : Bool) (allowed run : Nat) (c : Char) : List Char :=
  if c = '"' then if run < allowed then [c] else ['\\', '"']
  else if c = '\\' then ['\\', '\\']
  else if c = '\n' then if lines then [c] else ['\\', 'n']
  else if c = '\t' then ['\\', 't']
  else if c = '\x08' then ['\\', 'b']
  else if c = '\x0c' then ['\\', 'f']
  else if c = '\r' then ['\\', 'r']
  else if isControl c then '\\' :: 'u' :: (Hex.ofNat 4 c.toNat).map Char.toUpper
  else [c]

/-- A text between double quotes. An escaped quote begins a new run. -/
def escape (lines : Bool) (allowed : Nat) : (run : Nat) → List Char → List Char
  | _, [] => []
  | run, c :: rest =>
    escapeChar lines allowed run c ++
      escape lines allowed (if c = '"' ∧ run < allowed then run + 1 else 0) rest

/-- A line break in front of a text that has several lines. -/
def openLines (cs : List Char) : List Char := if cs.contains '\n' then ['\n'] else []

/-- A text between quotes of a kind. -/
def quoteAs (style : Style) (cs : List Char) : List Char :=
  match style with
  | .basic => ['"'] ++ escape false 0 0 cs ++ ['"']
  | .literal => ['\''] ++ cs ++ ['\'']
  | .basicLines => ['"', '"', '"'] ++ openLines cs ++ escape true 2 0 cs ++ ['"', '"', '"']
  | .literalLines => ['\'', '\'', '\''] ++ openLines cs ++ cs ++ ['\'', '\'', '\'']

/-- A text between quotes of the chosen kind. -/
def quote (s : String) : String := String.ofList (quoteAs (Style.choose s.toList) s.toList)

/-! ## Reading -/

/-- The character of an escape by a single letter. -/
def letterEscape? (c : Char) : Option Char :=
  if c = '"' ∨ c = '\\' then some c
  else if c = 'b' then some '\x08'
  else if c = 'f' then some '\x0c'
  else if c = 'n' then some '\n'
  else if c = 'r' then some '\r'
  else if c = 't' then some '\t'
  else none

/-- The character of a number, unless it is half of a pair or beyond the last plane. -/
def charOf? (digits : List Char) : Option Char :=
  (Hex.toNat? digits).bind fun n => if n.isValidChar then some (Char.ofNat n) else none

/-- A text in single quotes up to the closing one. -/
def literal? : List Char → Option (List Char × List Char)
  | [] => none
  | c :: rest =>
    if c = '\'' then some ([], rest)
    else if isPlain c then (literal? rest).map fun (cs, after) => (c :: cs, after)
    else none

/-- A text in double quotes up to the closing one. -/
def basic? : List Char → Option (List Char × List Char)
  | [] => none
  | '\\' :: 'u' :: a :: b :: c :: d :: rest => do
    let ch ← charOf? [a, b, c, d]
    let (cs, after) ← basic? rest
    return (ch :: cs, after)
  | '\\' :: 'U' :: a :: b :: c :: d :: e :: f :: g :: h :: rest => do
    let ch ← charOf? [a, b, c, d, e, f, g, h]
    let (cs, after) ← basic? rest
    return (ch :: cs, after)
  | '\\' :: e :: rest => do
    let ch ← letterEscape? e
    let (cs, after) ← basic? rest
    return (ch :: cs, after)
  | c :: rest =>
    if c = '"' then some ([], rest)
    else if isPlain c && c != '\\' then (basic? rest).map fun (cs, after) => (c :: cs, after)
    else none

/-- The quotes that belong to a text and not to the three that close it: at most two. -/
def closing (quote : Char) : List Char → List Char × List Char
  | c :: d :: rest =>
    if c = quote then if d = quote then ([c, d], rest) else ([c], d :: rest)
    else ([], c :: d :: rest)
  | [c] => if c = quote then ([c], []) else ([], [c])
  | [] => ([], [])

/-- A text between three single quotes up to the closing ones. A line may end in two
characters. -/
def literalLines? : List Char → Option (List Char × List Char)
  | [] => none
  | '\'' :: '\'' :: '\'' :: rest => some (closing '\'' rest)
  | '\r' :: '\n' :: rest => (literalLines? rest).map fun (cs, after) => ('\n' :: cs, after)
  | c :: rest =>
    if c = '\n' ∨ isPlain c then (literalLines? rest).map fun (cs, after) => (c :: cs, after)
    else none

/-- Spaces and tabs. -/
def isBlank (c : Char) : Bool := c == ' ' || c == '\t'

/-- Is there nothing but blanks before the end of the line? -/
def endsLine (cs : List Char) : Bool :=
  match cs.dropWhile isBlank with
  | '\n' :: _ => true
  | '\r' :: '\n' :: _ => true
  | _ => false

/-- A text between three double quotes up to the closing ones. A backslash at the end of a line
hides the break and all blanks and breaks after it; `hidden` says that these are being
skipped. -/
def basicLines? : (hidden : Bool) → List Char → Option (List Char × List Char)
  | _, [] => none
  | _, '"' :: '"' :: '"' :: rest => some (closing '"' rest)
  | hidden, '\r' :: '\n' :: rest =>
    if hidden then basicLines? true rest
    else (basicLines? false rest).map fun (cs, after) => ('\n' :: cs, after)
  | _, '\\' :: 'u' :: a :: b :: c :: d :: rest => do
    let ch ← charOf? [a, b, c, d]
    let (cs, after) ← basicLines? false rest
    return (ch :: cs, after)
  | _, '\\' :: 'U' :: a :: b :: c :: d :: e :: f :: g :: h :: rest => do
    let ch ← charOf? [a, b, c, d, e, f, g, h]
    let (cs, after) ← basicLines? false rest
    return (ch :: cs, after)
  | _, '\\' :: e :: rest =>
    if endsLine (e :: rest) then
      if e = '\r' then basicLines? true (e :: rest) else basicLines? true rest
    else do
      let ch ← letterEscape? e
      let (cs, after) ← basicLines? false rest
      return (ch :: cs, after)
  | hidden, c :: rest =>
    if hidden ∧ (isBlank c ∨ c = '\n') then basicLines? true rest
    else if c = '\n' ∨ (isPlain c ∧ c ≠ '\\') then
      (basicLines? false rest).map fun (cs, after) => (c :: cs, after)
    else none

/-- The text after a line break right behind opening quotes. -/
def skipBreak : List Char → List Char
  | '\n' :: rest => rest
  | '\r' :: '\n' :: rest => rest
  | cs => cs

/-- A string on one line. -/
def readLine? : List Char → Option (String × List Char)
  | '"' :: rest => (basic? rest).map fun (cs, after) => (String.ofList cs, after)
  | '\'' :: rest => (literal? rest).map fun (cs, after) => (String.ofList cs, after)
  | _ => none

/-- A string of any kind. -/
def readString? : List Char → Option (String × List Char)
  | '"' :: '"' :: '"' :: rest =>
    (basicLines? false (skipBreak rest)).map fun (cs, after) => (String.ofList cs, after)
  | '\'' :: '\'' :: '\'' :: rest =>
    (literalLines? (skipBreak rest)).map fun (cs, after) => (String.ofList cs, after)
  | cs => readLine? cs

end VersionedTree.Toml
