/-!
# Columns

A cell of a listing is filled with spaces up to the width of its column; a longer cell keeps
all its characters.

## Main definitions

* `VersionedTree.Text.padEnd` — text at the left edge of its column.
* `VersionedTree.Text.padStart` — text at the right edge of its column.
-/

set_option autoImplicit false

namespace VersionedTree.Text

/-- The text at the left edge of a column. -/
def padEnd (width : Nat) (s : String) : String :=
  s ++ String.ofList (List.replicate (width - s.length) ' ')

/-- The text at the right edge of a column. -/
def padStart (width : Nat) (s : String) : String :=
  String.ofList (List.replicate (width - s.length) ' ') ++ s

end VersionedTree.Text
