import VersionedTree.Disk.Name

/-!
# Files by their written names

What a written name leads to is found by a walk from the root: each part but the last one must
be a directory that is there, whatever comes after it. So `a/../b` leads nowhere without a
directory `a`.

## Main definitions

* `VersionedTree.Trail` — the directories that a walk has entered.
* `VersionedTree.Disk.walk` — a walk along parts of a name.
* `VersionedTree.Disk.aim` — the walk along all of a name but its end.
* `VersionedTree.Disk.find`, `VersionedTree.Disk.stat`, `VersionedTree.Disk.read`,
  `VersionedTree.Disk.write`, `VersionedTree.Disk.makeDirectories` — operations on a disk.
-/

set_option autoImplicit false

namespace VersionedTree

/-! ## Walks -/

/-- The directories that a walk has entered, each with its name, innermost first. The walk begins
at the root with an empty trail. -/
abbrev Trail := List (String × DiskEntry)

/-- The place at the end of a trail. -/
def Trail.place (t : Trail) : Place := (t.map Prod.fst).reverse

namespace Disk

/-- The directory at the end of a trail. -/
def here (d : Disk) : Trail → DiskEntry
  | [] => d.root
  | (_, e) :: _ => e

/-- What the directory at the end of a trail holds under a name. -/
def peek (d : Disk) (t : Trail) (name : String) : Except DiskFault (Option DiskEntry) :=
  if WrittenName.maxPartBytes < name.utf8ByteSize then .error .nameTooLong
  else .ok ((d.here t).get? name)

/-- The walk goes on by one part of a name. There is nothing above the root. -/
def step (d : Disk) (t : Trail) (part : String) : Except DiskFault Trail :=
  if part = "." then .ok t
  else if part = ".." then .ok t.tail
  else match d.peek t part with
    | .error fault => .error fault
    | .ok none => .error .notFound
    | .ok (some (.file _)) => .error .notDirectory
    | .ok (some (.directory es)) => .ok ((part, .directory es) :: t)

/-- A walk along the parts of a name. -/
def walk (d : Disk) (t : Trail) : List String → Except DiskFault Trail
  | [] => .ok t
  | part :: rest =>
    match d.step t part with
    | .error fault => .error fault
    | .ok t' => d.walk t' rest

/-- Where a name ends. -/
inductive Aim where
  /-- In a directory that has been entered: the root, or one that `.` or `..` leads to. -/
  | entered (trail : Trail)
  /-- At a name in a directory that has been entered. Something may stand there or not. -/
  | inside (trail : Trail) (name : String)

/-- The walk along a name up to its end. -/
def aim (d : Disk) (n : WrittenName) : Except DiskFault Aim :=
  match d.walk [] (if n.isAbsolute then [] else d.working) with
  | .error fault => .error fault
  | .ok start =>
    match n.parts with
    | [] => .ok (.entered start)
    | last :: before =>
      if last = "." ∨ last = ".." then
        (d.walk start (last :: before).reverse).map Aim.entered
      else (d.walk start before.reverse).map fun t => .inside t last

/-! ## Looking -/

/-- What a name leads to, and its place. Only the name of a directory may end in a slash. -/
def findName (d : Disk) (n : WrittenName) : Except DiskFault (Place × DiskEntry) :=
  match d.aim n with
  | .error fault => .error fault
  | .ok (.entered t) => .ok (t.place, d.here t)
  | .ok (.inside t name) =>
    match d.peek t name with
    | .error fault => .error fault
    | .ok none => .error .notFound
    | .ok (some (.file bytes)) =>
      if n.endsInSlash then .error .notDirectory else .ok (t.place ++ [name], .file bytes)
    | .ok (some (.directory es)) => .ok (t.place ++ [name], .directory es)

/-- Does a name lead to a directory? -/
def isDirectory (d : Disk) (n : WrittenName) : Bool :=
  match d.findName n with
  | .ok (_, .directory _) => true
  | _ => false

/-- What a text leads to, and its place. -/
def find (d : Disk) (text : String) : Except DiskFault (Place × DiskEntry) :=
  (WrittenName.ofText text).bind d.findName

/-- What a text leads to. -/
def stat (d : Disk) (text : String) : Except DiskFault DiskEntry := (d.find text).map Prod.snd

/-- Does a text lead anywhere? -/
def contains (d : Disk) (text : String) : Bool := (d.stat text).toOption.isSome

/-- The bytes of a file. -/
def read (d : Disk) (text : String) : Except DiskFault ByteArray :=
  match d.stat text with
  | .error fault => .error fault
  | .ok (.directory _) => .error .isDirectory
  | .ok (.file bytes) => .ok bytes

/-! ## Changing -/

/-- Makes a file of the given bytes, in place of a file that is there. The name must not end as
that of a directory. -/
def writeName (d : Disk) (n : WrittenName) (bytes : ByteArray) : Except DiskFault Disk :=
  match d.aim n with
  | .error fault => .error fault
  | .ok (.entered _) => .error .isDirectory
  | .ok (.inside t name) =>
    if n.endsInSlash then .error .isDirectory
    else match d.peek t name with
      | .error fault => .error fault
      | .ok (some (.directory _)) => .error .isDirectory
      | .ok _ => .ok (d.set (t.place ++ [name]) (.file bytes))

/-- Makes a file of the given bytes at the end of a text. -/
def write (d : Disk) (text : String) (bytes : ByteArray) : Except DiskFault Disk :=
  (WrittenName.ofText text).bind fun n => d.writeName n bytes

/-- Makes a directory at a name at which nothing stands. -/
def makeDirectory (d : Disk) (n : WrittenName) : Except DiskFault Disk :=
  match d.aim n with
  | .error fault => .error fault
  | .ok (.entered _) => .error .occupied
  | .ok (.inside t name) =>
    match d.peek t name with
    | .error fault => .error fault
    | .ok (some _) => .error .occupied
    | .ok none => .ok (d.set (t.place ++ [name]) (.directory []))

/-- Makes a directory, or keeps the one that is there. -/
def makeOrKeep (d : Disk) (n : WrittenName) : Except DiskFault Unit × Disk :=
  match d.makeDirectory n with
  | .ok d' => (.ok (), d')
  | .error fault => (if d.isDirectory n then .ok () else .error fault, d)

/-- Makes a directory, or keeps the one that is there. If something on the way is missing,
`before` comes first. What it has made stays, whatever becomes of the rest. -/
def makeAfter (d : Disk) (n : WrittenName) (before : Disk → Except DiskFault Unit × Disk) :
    Except DiskFault Unit × Disk :=
  match d.makeDirectory n with
  | .ok d' => (.ok (), d')
  | .error .notFound =>
    match before d with
    | (.ok (), d') => d'.makeOrKeep n
    | failed => failed
  | .error fault => (if d.isDirectory n then .ok () else .error fault, d)

/-- Makes the directory of some parts of a name, the last one first, and the missing ones on the
way to it. A part `.` at the end does not count. -/
def makeParts (isAbsolute : Bool) : List String → Disk → Except DiskFault Unit × Disk
  | [], d => (.ok (), d)
  | part :: rest, d =>
    if part = "." then makeParts isAbsolute rest d
    else d.makeAfter ⟨isAbsolute, part :: rest, false⟩ fun d => makeParts isAbsolute rest d

/-- Makes the directory of a text and the missing ones on the way to it. The way is taken by the
text: before `a/../b`, the directory `a` is made. Nothing is made for an empty text. -/
def makeDirectories (d : Disk) (text : String) : Except DiskFault Unit × Disk :=
  if text.isEmpty then (.ok (), d)
  else match WrittenName.ofText text with
    | .error fault => (.error fault, d)
    | .ok n => d.makeAfter n (makeParts n.isAbsolute (n.parts.dropWhile (· == ".")).tail)

end Disk

end VersionedTree
