import VersionedTree.Error
import VersionedTree.Id

/-!
# The payload store

Payloads are bytes under keys. A key names an owner and a blob; no part of it comes from a path.
The store may refuse puts, reads and deletions, and it may report the deletion of a missing key
as a success or as a missing object.

## Main definitions

* `VersionedTree.Key` — the name of a payload.
* `VersionedTree.Payloads` — the stored payloads.
* `VersionedTree.Backend` — how the store behaves during an operation.
* `VersionedTree.Payloads.putStream`, `VersionedTree.Payloads.read`,
  `VersionedTree.Payloads.deleteMany` — operations under a behaviour.
* `VersionedTree.DeleteReport.ofDeletions` — the blobs that a stream of results confirms.
-/

set_option autoImplicit false

namespace VersionedTree

/-- The name of a payload. -/
structure Key where
  owner : OwnerId
  blob : BlobId
deriving DecidableEq, Repr

namespace Key

/-- The text of a key: owner and blob with a dot between them. -/
def text (k : Key) : String := k.owner.text ++ "." ++ k.blob.text

/-- The text after the last dot. -/
def afterLastDot? (cs : List Char) : Option (List Char) :=
  if cs.contains '.' then some (cs.reverse.takeWhile (· != '.')).reverse else none

/-- The blob of a location that ends in a key. -/
def blobOfLocation? (location : String) : Option BlobId :=
  (afterLastDot? location.toList).bind fun cs => Id.parse? (String.ofList cs)

end Key

/-- A part of an incoming payload: bytes, or the failure of the stream. -/
inductive Chunk where
  | data (bytes : ByteArray)
  | failure (what : String)

/-- All bytes of a stream, or its first failure. -/
def Chunk.received : List Chunk → Except String ByteArray
  | [] => .ok .empty
  | .failure what :: _ => .error what
  | .data bytes :: rest =>
    match received rest with
    | .ok more => .ok (bytes ++ more)
    | .error what => .error what

/-- The stored payloads. -/
structure Payloads where
  /-- Keys and bytes, one entry for each key. -/
  entries : List (Key × ByteArray)
deriving Inhabited

/-- How the store behaves during an operation. -/
structure Backend where
  /-- The fault that every put meets, if there is one. -/
  putFault : Option String
  /-- The fault that every read meets, if there is one. -/
  readFault : Option String
  /-- The fault that the deletion of a key meets, if there is one. -/
  deleteFault : Key → Option String
  /-- The location at which the deletion of a missing key reports a missing object; without it
  that deletion succeeds. -/
  missingAt : Option (Key → String)

/-- A store that does what it is asked for. -/
def Backend.reliable : Backend := ⟨none, none, fun _ => none, none⟩

/-- The result of the deletion of one key. -/
inductive Deletion where
  /-- The object at this location is deleted. -/
  | deleted (location : String)
  /-- There is no object at this location. -/
  | missing (location : String)
  /-- The deletion failed. -/
  | failed (what : String)
deriving DecidableEq, Repr

/-- The blob that a result confirms to be gone. -/
def Deletion.confirmed? : Deletion → Option BlobId
  | .deleted location => Key.blobOfLocation? location
  | .missing location => Key.blobOfLocation? location
  | .failed _ => none

/-- Blobs split into those that are gone and those that may remain. -/
structure DeleteReport where
  deleted : List BlobId
  failed : List BlobId
deriving DecidableEq, Repr, Inhabited

/-- Splits blobs, in their order, by the results that arrived. -/
def DeleteReport.ofDeletions (blobs : List BlobId) (results : List Deletion) : DeleteReport :=
  let confirmed := results.filterMap Deletion.confirmed?
  ⟨blobs.filter confirmed.contains, blobs.filter (!confirmed.contains ·)⟩

namespace Payloads

/-- A store without payloads. -/
def empty : Payloads := ⟨[]⟩

/-- The bytes under a key. -/
def get? (p : Payloads) (k : Key) : Option ByteArray :=
  (p.entries.find? fun e => e.1 == k).map Prod.snd

/-- The payloads without that of a key. -/
def erase (p : Payloads) (k : Key) : Payloads := ⟨p.entries.filter fun e => e.1 != k⟩

/-- The payloads with the given bytes under a key. -/
def insert (p : Payloads) (k : Key) (bytes : ByteArray) : Payloads :=
  ⟨(k, bytes) :: (p.erase k).entries⟩

/-- A store without payloads has nothing under any key. -/
@[simp] theorem get?_empty (k : Key) : empty.get? k = none := rfl

/-- The erased key alone has no bytes any more. -/
theorem get?_erase (p : Payloads) (k j : Key) :
    (p.erase k).get? j = if j = k then none else p.get? j := by
  unfold get? erase
  rw [List.find?_filter]
  by_cases h : j = k
  · subst h
    simp
  · simp only [if_neg h]
    congr 2
    funext e
    by_cases hj : e.1 = j <;> simp_all

/-- The inserted key alone has new bytes. -/
theorem get?_insert (p : Payloads) (k j : Key) (bytes : ByteArray) :
    (p.insert k bytes).get? j = if j = k then some bytes else p.get? j := by
  by_cases h : j = k
  · subst h
    simp [get?, insert]
  · rw [if_neg h]
    have e := get?_erase p k j
    rw [if_neg h] at e
    rw [← e]
    simp [get?, insert, Ne.symm h]

/-- Puts bytes under a key. -/
def put (b : Backend) (k : Key) (bytes : ByteArray) (p : Payloads) :
    Except ArchiveError Unit × Payloads :=
  match b.putFault with
  | some what => (.error (.objectStore what), p)
  | none => (.ok (), p.insert k bytes)

/-- Puts the bytes of a stream under a key, with their count. Nothing is stored if the stream
fails before its end. -/
def putStream (b : Backend) (k : Key) (stream : List Chunk) (p : Payloads) :
    Except ArchiveError Nat × Payloads :=
  match Chunk.received stream with
  | .error what => (.error (.io what), p)
  | .ok bytes =>
    match b.putFault with
    | some what => (.error (.io what), p)
    | none => (.ok bytes.size, p.insert k bytes)

/-- Reads the bytes under a key. -/
def read (b : Backend) (k : Key) (p : Payloads) : Except ArchiveError (Option ByteArray) :=
  match b.readFault with
  | some what => .error (.objectStore what)
  | none => .ok (p.get? k)

/-- Is there a payload under this key? -/
def exist (b : Backend) (k : Key) (p : Payloads) : Except ArchiveError Bool :=
  (p.read b k).map Option.isSome

/-- Deletes one key. -/
def deleteKey (b : Backend) (k : Key) (p : Payloads) : Deletion × Payloads :=
  match b.deleteFault k with
  | some what => (.failed what, p)
  | none =>
    match p.get? k, b.missingAt with
    | none, some location => (.missing (location k), p)
    | _, _ => (.deleted k.text, p.erase k)

/-- Deletes one payload. A missing one counts as deleted. -/
def delete (b : Backend) (k : Key) (p : Payloads) : Except ArchiveError Unit × Payloads :=
  match p.deleteKey b k with
  | (.failed what, p') => (.error (.objectStore what), p')
  | (_, p') => (.ok (), p')

/-- Deletes keys in turn. -/
def deleteKeys (b : Backend) : List Key → Payloads → List Deletion × Payloads
  | [], p => ([], p)
  | k :: rest, p =>
    let (result, p') := p.deleteKey b k
    let (results, p'') := deleteKeys b rest p'
    (result :: results, p'')

/-- Deletes payloads of one owner. Failures are part of the report. -/
def deleteMany (b : Backend) (owner : OwnerId) (blobs : List BlobId) (p : Payloads) :
    DeleteReport × Payloads :=
  let (results, p') := deleteKeys b (blobs.map (Key.mk owner)) p
  (.ofDeletions blobs results, p')

end Payloads

end VersionedTree
