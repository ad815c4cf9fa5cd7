import VersionedTree.Disk

/-!
# Written names of files

A file or directory is named by parts with slashes between them. The part `.` stays in a
directory, and `..` goes back to the one around it.

## Main definitions

* `VersionedTree.WrittenName` — a name taken apart.
* `VersionedTree.WrittenName.ofText` — the parts of a text, or why no file can be named so.
* `VersionedTree.WrittenName.inside` — the name of a file in a directory.
* `VersionedTree.WrittenName.waypoints` — the places that a name passes.
* `VersionedTree.Place.text` — the shortest name of a place.

## Design

The parts of a name are kept with the last one in front, since a name is made shorter from its
end: the name of the directory around a file is the rest of the list.
-/

set_option autoImplicit false

namespace VersionedTree

/-- A written name taken apart. -/
structure WrittenName where
  /-- Does it begin at the root? -/
  isAbsolute : Bool
  /-- The parts between slashes, the last one first. Empty ones are left out. -/
  parts : List String
  /-- Does it end in a slash, as the name of a directory? -/
  endsInSlash : Bool
deriving DecidableEq, Repr

namespace WrittenName

/-- The most bytes of a name. -/
def maxBytes : Nat := 4095

/-- The most bytes of one part of a name. -/
def maxPartBytes : Nat := 255

/-- The parts of a text. -/
def ofText (text : String) : Except DiskFault WrittenName :=
  let cs := text.toList
  if cs.contains '\x00' then .error .nulInName
  else if cs.isEmpty then .error .notFound
  else if maxBytes < text.utf8ByteSize then .error .nameTooLong
  else .ok {
    isAbsolute := cs.head? == some '/'
    parts := ((cs.splitOn '/').filter (!·.isEmpty)).reverse.map String.ofList
    endsInSlash := cs.getLast? == some '/' }

/-- The written name of a file inside the directory of a written name. -/
def inside (directory name : String) : String :=
  match directory.toList.getLast? with
  | none => name
  | some '/' => directory ++ name
  | some _ => directory ++ "/" ++ name

end WrittenName

/-! ## Places -/

namespace Place

/-- The place that one part of a name leads to. -/
def follow (p : Place) (part : String) : Place :=
  if part = "." then p else if part = ".." then p.dropLast else p ++ [part]

/-- The places that the parts of a name lead to, one after another. -/
def followAll (p : Place) : List String → List Place
  | [] => []
  | part :: rest => p.follow part :: followAll (p.follow part) rest

/-- The shortest name of a place. -/
def text (p : Place) : String := "/" ++ "/".intercalate p

end Place

/-- The places that a name passes, its end included, if it begins in the directory `working` or at
the root. -/
def WrittenName.waypoints (n : WrittenName) (working : Place) : List Place :=
  Place.followAll (if n.isAbsolute then [] else working) n.parts.reverse

end VersionedTree
