import VersionedTree.Kind
import VersionedTree.Path

/-!
# Errors of the archive

Every refusal is a cause. Its wording and its status, as an answer over a network would carry it,
are functions of the cause.

## Main definitions

* `VersionedTree.Constraint` — what the tables refuse by themselves.
* `VersionedTree.ArchiveError` — why an operation failed.
* `VersionedTree.ArchiveError.message`, `VersionedTree.ArchiveError.status` — wording and status.
-/

set_option autoImplicit false

namespace VersionedTree

/-- What the tables refuse by themselves. -/
inductive Constraint where
  /-- Two rows would share a key. -/
  | unique
  /-- A row breaks the rule on its own columns. -/
  | check
  /-- At the end of a transaction a link has lost its node or its blob. -/
  | foreignKey
  /-- A stored path is not a path. -/
  | undecodable (error : PathError)
deriving DecidableEq, Repr

/-- The wording of a violated constraint. -/
def Constraint.message : Constraint → String
  | .unique => "unique constraint failed"
  | .check => "check constraint failed"
  | .foreignKey => "foreign key constraint failed"
  | .undecodable e => e.message

/-- Why an operation failed. -/
inductive ArchiveError where
  /-- A path, a node, a version or a payload is not there for this owner. -/
  | notFound (what : String)
  /-- A node is of a kind that the operation does not take. -/
  | illegalType (expected found : String)
  /-- A required insertion added nothing. -/
  | insertFailure (table : String)
  /-- A required change changed nothing. -/
  | updateFailure (table : String)
  /-- A required removal removed nothing. -/
  | deleteFailure (table : String)
  /-- A rule that the operation relies on does not hold. -/
  | illegalState (what : String)
  /-- A payload does not agree with what was declared about it. -/
  | invalidUpload (what : String)
  /-- A path is refused. -/
  | invalidPath (error : PathError)
  /-- The tables refuse a row or a transaction. -/
  | database (constraint : Constraint)
  /-- The payload store failed. -/
  | objectStore (what : String)
  /-- A stream failed. -/
  | io (what : String)
  /-- The configuration cannot be used. -/
  | invalidConfig (what : String)
  /-- The bucket of the payload store is missing. -/
  | bucketNotFound (bucket : String)
deriving DecidableEq, Repr

namespace ArchiveError

/-- The wording of an error. -/
def message : ArchiveError → String
  | notFound what => "record not found: " ++ what
  | illegalType expected found =>
    "illegal object type: expected " ++ expected ++ " but found " ++ found
  | insertFailure table => "insert failure: " ++ table
  | updateFailure table => "update failure: " ++ table
  | deleteFailure table => "delete failure: " ++ table
  | illegalState what => "illegal state: " ++ what
  | invalidUpload what => "invalid upload: " ++ what
  | invalidPath e => e.message
  | database c => "database error: " ++ c.message
  | objectStore what => "object storage error: " ++ what
  | io what => "IO error: " ++ what
  | invalidConfig what => "invalid configuration: " ++ what
  | bucketNotFound bucket =>
    "S3 bucket '" ++ bucket ++ "' does not exist. Create it before starting."

/-- The status of an error: 404 for what is missing, 400 for what the caller got wrong, 500 for
all else. -/
def status : ArchiveError → Nat
  | notFound _ => 404
  | illegalType .. | insertFailure _ | updateFailure _ | deleteFailure _ | invalidUpload _
  | invalidPath _ => 400
  | illegalState _ | database _ | objectStore _ | io _ | invalidConfig _ | bucketNotFound _ => 500

/-- The refusal of a node of the wrong kind. -/
def ofKind (expected : String) (found : Kind) : ArchiveError := illegalType expected found.text

end ArchiveError

end VersionedTree
