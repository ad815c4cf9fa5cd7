import VersionedTree.Hex
import VersionedTree.Text.Unshown

/-!
# Quoted text

Messages show a text between double quotes. The quote and the backslash are escaped, and so is
every character that would leave no mark of its own.

## Main definitions

* `VersionedTree.Text.shownChar` — how one character appears between the quotes.
* `VersionedTree.Text.quoted` — the whole text, quotes included.
-/

set_option autoImplicit false

namespace VersionedTree.Text

/-- The hexadecimal digits of a number without leading zeros; zero has one digit. -/
def shortHex (n : Nat) : List Char :=
  match (Hex.ofNat 8 n).dropWhile (· == '0') with
  | [] => ['0']
  | ds => ds

/-- One character as it appears between the quotes. -/
def shownChar (c : Char) : List Char :=
  if c = '"' then ['\\', '"']
  else if c = '\\' then ['\\', '\\']
  else if c = '\n' then ['\\', 'n']
  else if c = '\r' then ['\\', 'r']
  else if c = '\t' then ['\\', 't']
  else if c = '\x00' then ['\\', '0']
  else if isUnshown c then ['\\', 'u', '{'] ++ shortHex c.toNat ++ ['}']
  else [c]

/-- A text between double quotes, on one line and with every character visible. -/
def quoted (s : String) : String :=
  String.ofList ('"' :: s.toList.flatMap shownChar ++ ['"'])

end VersionedTree.Text
