import VersionedTree.Hex

/-!
# JSON values

A JSON text as a value, the writing of a value without blanks, and the views of a value that
records are read from.

## Main definitions

* `VersionedTree.Json` — values.
* `VersionedTree.Json.render` — the text of a value.
* `VersionedTree.Json.fields?` — the fields of a record, by their names or by their places.

## Design

The entries of an object are kept in their order and with their repetitions: a record refuses
a repeated field, but not a repeated name that it does not know. A string whose escapes do not
form characters, an object with such a name, or a number beyond double precision can be skipped,
but no record can hold it.
-/

set_option autoImplicit false

namespace VersionedTree

/-- A JSON value. -/
inductive Json where
  | null
  | bool (value : Bool)
  /-- A number without fraction and exponent. -/
  | integer (value : Int)
  /-- Any other number, by its text. -/
  | decimal (text : String)
  | string (text : String)
  | array (items : List Json)
  | object (entries : List (String × Json))
  /-- A value that no record can hold: a string with escapes that form no character, an object with
  such a name, or a number beyond double precision. -/
  | broken
deriving Repr, Inhabited

namespace Json

/-! ## Writing -/

/-- One character between the quotes of a string. -/
def escapeChar (c : Char) : List Char :=
  if c = '"' then ['\\', '"']
  else if c = '\\' then ['\\', '\\']
  else if c = '\n' then ['\\', 'n']
  else if c = '\r' then ['\\', 'r']
  else if c = '\t' then ['\\', 't']
  else if c = '\x08' then ['\\', 'b']
  else if c = '\x0c' then ['\\', 'f']
  else if c.toNat < 0x20 then '\\' :: 'u' :: Hex.ofNat 4 c.toNat
  else [c]

/-- A string between its quotes. -/
def quote (s : String) : String := String.ofList ('"' :: s.toList.flatMap escapeChar ++ ['"'])

mutual

/-- The text of a value, without blanks. -/
def render : Json → String
  | null => "null"
  | bool true => "true"
  | bool false => "false"
  | integer n => toString n
  | decimal text => text
  | string s => quote s
  | array items => "[" ++ renderItems items ++ "]"
  | object entries => "\x7b" ++ renderEntries entries ++ "\x7d"
  | broken => "null"

/-- The texts of the items of an array, with commas between them. -/
def renderItems : List Json → String
  | [] => ""
  | [v] => render v
  | v :: rest => render v ++ "," ++ renderItems rest

/-- The texts of the entries of an object, with commas between them. -/
def renderEntries : List (String × Json) → String
  | [] => ""
  | [(name, v)] => quote name ++ ":" ++ render v
  | (name, v) :: rest => quote name ++ ":" ++ render v ++ "," ++ renderEntries rest

end

/-! ## Views -/

/-- The text of a string. -/
def string? : Json → Option String
  | string s => some s
  | _ => none

/-- The value of a truth value. -/
def bool? : Json → Option Bool
  | bool b => some b
  | _ => none

/-- An integer of 64 bits, sign included. -/
def int64? : Json → Option Int
  | integer n => if -0x8000000000000000 ≤ n ∧ n < 0x8000000000000000 then some n else none
  | _ => none

/-- The value of a name in an object; the last one if the name is repeated. -/
def get? (name : String) : Json → Option Json
  | object entries => (entries.reverse.find? fun e => e.1 == name).map Prod.snd
  | _ => none

/-- The only value of a name among entries, or none; a repeated name is refused. -/
def field? (entries : List (String × Json)) (name : String) : Option (Option Json) :=
  match entries.filter fun e => e.1 == name with
  | [] => some none
  | [(_, v)] => some (some v)
  | _ => none

/-- The fields of a record in the order of their names: those of an object, where further names
are skipped, or all items of an array, which must be as many. -/
def fields? (names : List String) : Json → Option (List (Option Json))
  | object entries => names.mapM (field? entries)
  | array items => if items.length = names.length then some (items.map some) else none
  | _ => none

mutual

/-- Can the value be kept before it is known what it is for? Nothing in it is broken, and at most
`depth` arrays and objects are around another. -/
def isWhole (depth : Nat) : Json → Bool
  | broken => false
  | array items =>
    match depth with
    | 0 => false
    | depth + 1 => areWhole depth items
  | object entries =>
    match depth with
    | 0 => false
    | depth + 1 => areWholeEntries depth entries
  | _ => true

/-- Can all these values be kept? -/
def areWhole (depth : Nat) : List Json → Bool
  | [] => true
  | v :: rest => isWhole depth v && areWhole depth rest

/-- Can the values of all these entries be kept? -/
def areWholeEntries (depth : Nat) : List (String × Json) → Bool
  | [] => true
  | (_, v) :: rest => isWhole depth v && areWholeEntries depth rest

end

end Json

end VersionedTree
