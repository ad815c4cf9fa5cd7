/-!
# Files on a disk

A disk is a tree: a directory holds files and directories under names. This module has the tree
and its places; what a written name leads to is in `VersionedTree.Disk.Access`.

## Main definitions

* `VersionedTree.Place` — the names on the way from the root.
* `VersionedTree.DiskEntry` — a file, or a directory with what it holds.
* `VersionedTree.DiskEntry.find?`, `VersionedTree.DiskEntry.set`,
  `VersionedTree.DiskEntry.remove` — what stands at a place, and changes of it.
* `VersionedTree.Disk` — the tree and the directory in which relative names begin.
* `VersionedTree.DiskFault` — why an operation failed.

## Main results

* `VersionedTree.DiskEntry.find?_set_self` — what is set at a place stands there.
* `VersionedTree.DiskEntry.find?_set_of_apart` — places beside that one keep their entries.
-/

set_option autoImplicit false

namespace VersionedTree

/-! ## Faults -/

/-- Why an operation on a disk failed. -/
inductive DiskFault where
  /-- Nothing stands at the place. -/
  | notFound
  /-- A file stands where a directory is needed. -/
  | notDirectory
  /-- A directory stands where a file is needed. -/
  | isDirectory
  /-- Something stands where a directory is to be made. -/
  | occupied
  /-- A name, or one part of it, has too many bytes. -/
  | nameTooLong
  /-- A name has a character that ends names. -/
  | nulInName
deriving DecidableEq, Repr

/-- The wording of a fault, with its number if the system has one. -/
def DiskFault.message : DiskFault → String
  | notFound => "No such file or directory (os error 2)"
  | notDirectory => "Not a directory (os error 20)"
  | isDirectory => "Is a directory (os error 21)"
  | occupied => "File exists (os error 17)"
  | nameTooLong => "File name too long (os error 36)"
  | nulInName => "file name contained an unexpected NUL byte"

/-! ## The tree -/

/-- The names on the way from the root to a file or directory. -/
abbrev Place := List String

/-- What stands at a place. -/
inductive DiskEntry where
  | file (bytes : ByteArray)
  | directory (entries : List (String × DiskEntry))

namespace DiskEntry

instance : Inhabited DiskEntry := ⟨.directory []⟩

/-- What a directory holds, each under its name. A file holds nothing. -/
def entries : DiskEntry → List (String × DiskEntry)
  | .file _ => []
  | .directory es => es

/-- What a directory holds under a name. -/
def get? (e : DiskEntry) (name : String) : Option DiskEntry := e.entries.lookup name

/-- The directory with another entry under a name. -/
def insert (e : DiskEntry) (name : String) (inner : DiskEntry) : DiskEntry :=
  .directory ((name, inner) :: e.entries.filter fun f => f.1 != name)

/-- The directory without the entry under a name. -/
def erase (e : DiskEntry) (name : String) : DiskEntry :=
  .directory (e.entries.filter fun f => f.1 != name)

/-- What stands at a place below. -/
def find? : DiskEntry → Place → Option DiskEntry
  | e, [] => some e
  | e, name :: rest => (e.get? name).bind fun inner => inner.find? rest

/-- Sets what stands at a place below. Directories that are missing on the way are made. -/
def set (new : DiskEntry) : DiskEntry → Place → DiskEntry
  | _, [] => new
  | e, name :: rest => e.insert name (set new ((e.get? name).getD (.directory [])) rest)

/-- The tree without what stands at a place below. -/
def remove : DiskEntry → Place → DiskEntry
  | e, [] => e
  | e, name :: rest =>
    match e.get? name, rest with
    | none, _ => e
    | some _, [] => e.erase name
    | some inner, next :: rest => e.insert name (inner.remove (next :: rest))

/-- Leaving a name out does not change what other names lead to. -/
theorem lookup_filter_ne {name other : String} (h : other ≠ name)
    (es : List (String × DiskEntry)) :
    (es.filter fun f => f.1 != name).lookup other = es.lookup other := by
  induction es with
  | nil => rfl
  | cons f rest ih =>
    by_cases hf : f.1 = name
    · have hne : (other == f.1) = false := by simpa [hf] using h
      rw [List.filter_cons_of_neg (by simpa using hf), ih, List.lookup_cons, hne]
    · rw [List.filter_cons_of_pos (by simpa using hf), List.lookup_cons, List.lookup_cons, ih]

/-- Only the name that is set has another entry. -/
theorem get?_insert (e inner : DiskEntry) (name other : String) :
    (e.insert name inner).get? other = if other = name then some inner else e.get? other := by
  by_cases h : other = name
  · simp [get?, insert, entries, h]
  · have hne : (other == name) = false := by simpa using h
    simp only [get?, insert, entries, List.lookup_cons, hne, if_neg h]
    exact lookup_filter_ne h _

/-- What is set at a place stands there. -/
theorem find?_set_self (new e : DiskEntry) (p : Place) : (set new e p).find? p = some new := by
  induction p generalizing e with
  | nil => rfl
  | cons name rest ih => simp [set, find?, get?_insert, ih]

/-- Places beside the one that is set keep their entries. -/
theorem find?_set_of_apart (new e : DiskEntry) {p q : Place} (hpq : ¬ p <+: q)
    (hqp : ¬ q <+: p) : (set new e p).find? q = e.find? q := by
  induction p generalizing e q with
  | nil => exact absurd List.nil_prefix hpq
  | cons name rest ih =>
    cases q with
    | nil => exact absurd List.nil_prefix hqp
    | cons other more =>
      by_cases h : other = name
      · subst h
        have hrest := ih ((e.get? other).getD (.directory []))
          (fun h => hpq (List.cons_prefix_cons.2 ⟨rfl, h⟩))
          (fun h => hqp (List.cons_prefix_cons.2 ⟨rfl, h⟩))
        simp only [set, find?, get?_insert, if_true, Option.bind_some, hrest]
        cases e.get? other with
        | some inner => rfl
        | none =>
          cases more with
          | nil => exact absurd (List.cons_prefix_cons.2 ⟨rfl, List.nil_prefix⟩) hqp
          | cons next more => rfl
      · simp [set, find?, get?_insert, h]

end DiskEntry

/-! ## Disks -/

/-- Files and directories. -/
structure Disk where
  /-- The directory at the top. -/
  root : DiskEntry
  /-- Where names begin that do not begin at the top. -/
  working : Place
deriving Inhabited

namespace Disk

/-- A disk with nothing on it. -/
def empty : Disk := ⟨.directory [], []⟩

/-- What stands at a place. -/
def entry (d : Disk) (p : Place) : Option DiskEntry := d.root.find? p

/-- The disk with the given entry at a place. -/
def set (d : Disk) (p : Place) (e : DiskEntry) : Disk := { d with root := e.set d.root p }

/-- The disk without what stands at a place. -/
def remove (d : Disk) (p : Place) : Disk := { d with root := d.root.remove p }

end Disk

end VersionedTree
