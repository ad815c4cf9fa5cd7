/-!
# Blank characters

The characters of the Unicode property `White_Space`, and texts without blanks at their end.

## Main definitions

* `VersionedTree.Text.isBlank` — the property `White_Space`.
* `VersionedTree.Text.trimEnd` — a text without the blanks at its end.
-/

set_option autoImplicit false

namespace VersionedTree.Text

/-- The Unicode property `White_Space`. -/
def isBlank (c : Char) : Bool :=
  let n := c.toNat
  (9 ≤ n && n ≤ 13) || n == 0x20 || n == 0x85 || n == 0xa0 || n == 0x1680
    || (0x2000 ≤ n && n ≤ 0x200a) || n == 0x2028 || n == 0x2029 || n == 0x202f || n == 0x205f
    || n == 0x3000

/-- The characters without the blanks at their end. -/
def dropBlankEnd (cs : List Char) : List Char := (cs.reverse.dropWhile isBlank).reverse

/-- The text without the blanks at its end. -/
def trimEnd (s : String) : String := String.ofList (dropBlankEnd s.toList)

end VersionedTree.Text
