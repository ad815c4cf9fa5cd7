import VersionedTree.Path

/-!
# Subtrees on stored texts

The tables know paths as texts only. Their statements decide ancestry, cut the part below a
directory and find the children of a node by counting characters of the stored texts.

## Main definitions

* `VersionedTree.Path.covers` — ancestry, decided on the texts.
* `VersionedTree.Path.graft` — the text of a path after the move of a directory above it.
* `VersionedTree.Path.isDirectlyBelow` — no further label between a node and its parent.
-/

set_option autoImplicit false

namespace VersionedTree.Path

/-- Is `p` inside or at `a`? The text of `a` is empty, or that of `p`, or the text of `p` begins
with the text of `a` and a dot. -/
def covers (a p : Path) : Bool :=
  a.chars.isEmpty || p.chars == a.chars
    || p.chars.take (a.chars.length + 1) == a.chars ++ ['.']

/-- The place of `p` after the directory at `source` has moved to `target`: the characters of
`source` give way to those of `target`. -/
def graft (p source target : Path) : Path :=
  if p = source then target else ofChars (target.chars ++ p.chars.drop source.chars.length)

/-- The text of `p` has no dot after the text of `a` and the separator that follows it. -/
def isDirectlyBelow (a p : Path) : Bool :=
  let rest := if a.chars.isEmpty then p.chars else p.chars.drop (a.chars.length + 1)
  !rest.contains '.'

end VersionedTree.Path
