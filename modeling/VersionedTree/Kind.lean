/-!
# Kinds of nodes

A node is the root of its owner's tree, a directory or a file. Its kind is fixed at creation.

## Main definitions

* `VersionedTree.Kind` — the three kinds.
* `VersionedTree.Kind.isContainer` — may nodes of this kind have children?
* `VersionedTree.Kind.text`, `VersionedTree.Kind.parse?` — the name of a kind and its reading.
-/

set_option autoImplicit false

namespace VersionedTree

/-- What a node of the tree is. -/
inductive Kind where
  | root
  | dir
  | file
deriving DecidableEq, Repr, Inhabited

namespace Kind

/-- The name of a kind. -/
def text : Kind → String
  | root => "ROOT"
  | dir => "DIR"
  | file => "FILE"

/-- The kind of a name, which is in capital letters. -/
def parse? (s : String) : Option Kind :=
  if s = "ROOT" then some root
  else if s = "DIR" then some dir
  else if s = "FILE" then some file
  else none

/-- The wording of the refusal of another name. -/
def unknownMessage (s : String) : String := "unknown object type: " ++ s

/-- Roots and directories may have children. -/
def isContainer : Kind → Bool
  | root | dir => true
  | file => false

end Kind

end VersionedTree
