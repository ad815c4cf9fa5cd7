import VersionedTree.Hex

/-!
# Identifiers

Nodes, blobs and owners are named by universally unique identifiers of 128 bits. Their stored
text is the hyphenated form in lowercase; three further spellings are read.

## Main definitions

* `VersionedTree.Uuid` — 128 bits, ordered as a number.
* `VersionedTree.Uuid.text` — the hyphenated form.
* `VersionedTree.Uuid.parse?` — reading of the hyphenated, plain, braced and URN forms.
* `VersionedTree.Id` — an identifier of one kind of subject, so that a blob is never taken for a
  node: `VersionedTree.NodeId`, `VersionedTree.BlobId`, `VersionedTree.OwnerId`.
-/

set_option autoImplicit false

namespace VersionedTree

/-- The count of all identifiers, two to the power of 128. -/
def Uuid.total : Nat := 0x100000000000000000000000000000000

/-- A universally unique identifier. -/
structure Uuid where
  /-- The bits, most significant first, as a number. -/
  bits : Fin Uuid.total
deriving DecidableEq, Repr

namespace Uuid

/-- The identifier whose bits are the last 128 ones of a number. -/
def ofNat (n : Nat) : Uuid := ⟨⟨n % total, Nat.mod_lt n (by decide)⟩⟩

instance : Inhabited Uuid := ⟨ofNat 0⟩

/-- Thirty-two digits with hyphens after the 8th, 12th, 16th and 20th. -/
def hyphenate (digits : List Char) : List Char :=
  digits.take 8 ++ '-' :: ((digits.drop 8).take 4 ++ '-' :: ((digits.drop 12).take 4
    ++ '-' :: ((digits.drop 16).take 4 ++ '-' :: digits.drop 20)))

/-- The characters of the stored text. -/
def chars (u : Uuid) : List Char := hyphenate (Hex.ofNat 32 u.bits)

/-- The stored text: lowercase and hyphenated. -/
def text (u : Uuid) : String := String.ofList u.chars

/-- The characters between the hyphens of a hyphenated text. -/
def unhyphenate? (cs : List Char) : Option (List Char) :=
  if cs.length = 36 ∧ cs[8]? = some '-' ∧ cs[13]? = some '-' ∧ cs[18]? = some '-'
      ∧ cs[23]? = some '-' then
    some (cs.take 8 ++ (cs.drop 9).take 4 ++ (cs.drop 14).take 4 ++ (cs.drop 19).take 4
      ++ cs.drop 24)
  else none

/-- The identifier of thirty-two digits. -/
def ofDigits? (digits : List Char) : Option Uuid :=
  if digits.length = 32 then (Hex.toNat? digits).map ofNat else none

/-- The identifier of a hyphenated text. -/
def ofHyphenated? (cs : List Char) : Option Uuid := (unhyphenate? cs).bind ofDigits?

/-- The text inside braces. -/
def unbrace? : List Char → Option (List Char)
  | '{' :: rest => if rest.getLast? = some '}' then some rest.dropLast else none
  | _ => none

/-- The name of the URN scheme. -/
def scheme : List Char := "urn:uuid:".toList

/-- The text after the name of the URN scheme, which may be in any letter case. -/
def afterScheme? (cs : List Char) : Option (List Char) :=
  if (cs.take scheme.length).map Char.toLower = scheme then some (cs.drop scheme.length) else none

/-- Reads the four spellings: thirty-two digits, hyphenated, hyphenated in braces, and hyphenated
after the name of the URN scheme. Letters may be in either case. -/
def parse? (text : String) : Option Uuid :=
  let cs := text.toList
  ofDigits? cs <|> ofHyphenated? cs <|> (unbrace? cs).bind ofHyphenated?
    <|> (afterScheme? cs).bind ofHyphenated?

/-- Identifiers are compared by their bits. -/
def order (a b : Uuid) : Ordering := compare a.bits.val b.bits.val

end Uuid

/-- What an identifier can name. -/
inductive Subject where
  | node
  | blob
  | owner
deriving DecidableEq, Repr

/-- An identifier of one kind of subject. -/
structure Id (subject : Subject) where
  /-- The identifier itself. -/
  uuid : Uuid
deriving DecidableEq, Repr, Inhabited

/-- Names a node of the tree. -/
abbrev NodeId := Id .node

/-- Names the payload of one version. -/
abbrev BlobId := Id .blob

/-- Names the owner of a tree. -/
abbrev OwnerId := Id .owner

namespace Id

variable {subject : Subject}

/-- The stored text. -/
def text (i : Id subject) : String := i.uuid.text

/-- Reads any of the accepted spellings. -/
def parse? (s : String) : Option (Id subject) := (Uuid.parse? s).map Id.mk

/-- Identifiers are compared by their bits. -/
def order (a b : Id subject) : Ordering := a.uuid.order b.uuid

end Id

end VersionedTree
