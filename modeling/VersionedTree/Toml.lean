/-!
# TOML documents

A document is a table of named values. It is built from its lines in order: headers open
tables, and entries add values to the table that is open.

## Main definitions

* `VersionedTree.Toml` — values.
* `VersionedTree.Toml.Statement` — a header or an entry.
* `VersionedTree.Toml.build?` — the table of a document; none if a name is defined twice.

## Design

A table remembers how it came about, since that decides what may still be added to it. A table
with a header of its own, or written inline, is complete; one that a longer header implies may
still get its header; one made by a dotted key may get more dotted keys.
-/

set_option autoImplicit false

namespace VersionedTree

/-- How a table came about. -/
inductive Toml.Origin where
  /-- By a header, or as the item of an array of tables. -/
  | header
  /-- By the header of a table inside it. -/
  | implied
  /-- By a dotted key. -/
  | dotted
  /-- In braces, as a value. -/
  | inline
deriving DecidableEq, Repr, Inhabited

/-- A TOML value. -/
inductive Toml where
  | string (text : String)
  | integer (value : Int)
  /-- A truth value, a number that is no integer, or a time. -/
  | other
  | array (items : List Toml)
  | table (origin : Toml.Origin) (entries : List (String × Toml))
  /-- An array of tables that headers opened. -/
  | tables (items : List (List (String × Toml)))
deriving Repr, Inhabited

namespace Toml

/-- The entries of a table. -/
abbrev Entries := List (String × Toml)

/-- The value of a name. -/
def find? (name : String) (entries : Entries) : Option Toml :=
  (entries.find? fun e => e.1 == name).map Prod.snd

/-- The entries with another value for a name that is there. -/
def replace (name : String) (value : Toml) (entries : Entries) : Entries :=
  entries.map fun e => if e.1 == name then (name, value) else e

/-- The items with another last one. -/
def replaceLast {α : Type} (items : List α) (last : α) : List α := items.dropLast ++ [last]

/-- Adds a value under a dotted key, whose last part is `name`. -/
def insert? (value : Toml) (name : String) : List String → Entries → Option Entries
  | [], entries =>
    match find? name entries with
    | none => some (entries ++ [(name, value)])
    | some _ => none
  | part :: rest, entries =>
    match find? part entries with
    | none => (insert? value name rest []).map fun es => entries ++ [(part, .table .dotted es)]
    | some (.table .dotted es) =>
      (insert? value name rest es).map fun es => replace part (.table .dotted es) entries
    | some (.table .implied es) =>
      if rest.isEmpty then none
      else (insert? value name rest es).map fun es => replace part (.table .implied es) entries
    | some (.tables items) =>
      if rest.isEmpty then none
      else (insert? value name rest (items.getLastD [])).map fun es =>
        replace part (.tables (replaceLast items es)) entries
    | some _ => none

/-- Opens the table of a header, whose last part is `name`. -/
def openTable? (name : String) : List String → Entries → Option Entries
  | [], entries =>
    match find? name entries with
    | none => some (entries ++ [(name, .table .header [])])
    | some (.table .implied es) => some (replace name (.table .header es) entries)
    | some _ => none
  | part :: rest, entries =>
    match find? part entries with
    | none => (openTable? name rest []).map fun es => entries ++ [(part, .table .implied es)]
    | some (.table .inline _) => none
    | some (.table origin es) =>
      (openTable? name rest es).map fun es => replace part (.table origin es) entries
    | some (.tables items) =>
      (openTable? name rest (items.getLastD [])).map fun es =>
        replace part (.tables (replaceLast items es)) entries
    | some _ => none

/-- Opens a new item in the array of tables of a header, whose last part is `name`. -/
def openItem? (name : String) : List String → Entries → Option Entries
  | [], entries =>
    match find? name entries with
    | none => some (entries ++ [(name, .tables [[]])])
    | some (.tables items) => some (replace name (.tables (items ++ [[]])) entries)
    | some _ => none
  | part :: rest, entries =>
    match find? part entries with
    | none => (openItem? name rest []).map fun es => entries ++ [(part, .table .implied es)]
    | some (.table .inline _) => none
    | some (.table origin es) =>
      (openItem? name rest es).map fun es => replace part (.table origin es) entries
    | some (.tables items) =>
      (openItem? name rest (items.getLastD [])).map fun es =>
        replace part (.tables (replaceLast items es)) entries
    | some _ => none

/-- Changes the table that is open at a path. -/
def within? (change : Entries → Option Entries) : List String → Entries → Option Entries
  | [], entries => change entries
  | part :: rest, entries =>
    match find? part entries with
    | some (.table origin es) =>
      (within? change rest es).map fun es => replace part (.table origin es) entries
    | some (.tables items) =>
      (within? change rest (items.getLastD [])).map fun es =>
        replace part (.tables (replaceLast items es)) entries
    | _ => none

/-- A name that may have several parts: those before the last one, and the last one. -/
structure Key where
  path : List String
  name : String
deriving DecidableEq, Repr, Inhabited

/-- All parts of a key. -/
def Key.parts (k : Key) : List String := k.path ++ [k.name]

/-- A line of a document that says something. -/
inductive Statement where
  /-- The header of a table. -/
  | table (key : Key)
  /-- The header of an item of an array of tables. -/
  | item (key : Key)
  /-- A value under a key. -/
  | entry (key : Key) (value : Toml)
deriving Repr, Inhabited

/-- Builds a table from statements, with the path of the open table and what there is so far. -/
def buildFrom? : List Statement → (openPath : List String) → Entries → Option Entries
  | [], _, entries => some entries
  | .table key :: rest, _, entries =>
    (openTable? key.name key.path entries).bind (buildFrom? rest key.parts)
  | .item key :: rest, _, entries =>
    (openItem? key.name key.path entries).bind (buildFrom? rest key.parts)
  | .entry key value :: rest, openPath, entries =>
    (within? (insert? value key.name key.path) openPath entries).bind
      (buildFrom? rest openPath)

/-- The table of a document. -/
def build? (statements : List Statement) : Option Entries := buildFrom? statements [] []

/-- The entries of a table in braces. -/
def buildInline? : List (Key × Toml) → Entries → Option Entries
  | [], entries => some entries
  | (key, value) :: rest, entries =>
    (insert? value key.name key.path entries).bind (buildInline? rest)

end Toml

end VersionedTree
