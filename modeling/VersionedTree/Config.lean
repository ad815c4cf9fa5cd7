import VersionedTree.Id

/-!
# Configuration

What the command line keeps in its state directory: the owner it acts as, how much it logs, and
where payloads are stored.

## Main definitions

* `VersionedTree.BlobStore` — a place for payloads.
* `VersionedTree.Config` — the configuration.
* `VersionedTree.LogLevel` — how much is logged, with `VersionedTree.LogLevel.ofText`.
-/

set_option autoImplicit false

namespace VersionedTree

/-- A place for payloads. -/
inductive BlobStore where
  /-- Kept in memory, and lost at the end. -/
  | memory
  /-- A directory with one file for each payload. -/
  | directory (path : String)
  /-- A bucket of an S3 service. -/
  | bucket (endpoint accessKey secretKey bucket : String) (region : Option String)
deriving DecidableEq, Repr, Inhabited

/-- The configuration of the command line. -/
structure Config where
  /-- Commands act as this owner unless they name another one. -/
  owner : OwnerId
  logLevel : String
  /-- Log files are written here, if anywhere. -/
  logDir : Option String
  /-- Payloads are stored here, by default in a directory of the state directory. -/
  blobStore : Option BlobStore
deriving DecidableEq, Repr, Inhabited

/-- The log level of a configuration that does not give one. -/
def Config.defaultLogLevel : String := "info"

/-- How much is logged. -/
inductive LogLevel where
  | off
  | error
  | warn
  | info
  | debug
  | trace
deriving DecidableEq, Repr, Inhabited

namespace LogLevel

/-- The name of a level. -/
def text : LogLevel → String
  | off => "off"
  | error => "error"
  | warn => "warn"
  | info => "info"
  | debug => "debug"
  | trace => "trace"

/-- All levels, each at the place of its number. -/
def all : List LogLevel := [off, error, warn, info, debug, trace]

/-- The number that decimal digits write, with or without a plus sign. -/
def number? (cs : List Char) : Option Nat :=
  let digits := match cs with
    | '+' :: rest => rest
    | _ => cs
  if digits.isEmpty || !digits.all Char.isDigit then none
  else some (digits.foldl (fun n d => 10 * n + (d.toNat - 48)) 0)

/-- The level of a number or of a name in any letter case; the empty name is that of errors. -/
def parse? (s : String) : Option LogLevel :=
  match (number? s.toList).bind (all[·]?) with
  | some level => some level
  | none =>
    if s.toList.isEmpty then some error
    else all.find? fun level => level.text.toList == s.toList.map Char.toLower

/-- The level of a text; one that names no level stands for `info`. -/
def ofText (s : String) : LogLevel := (parse? s).getD info

end LogLevel

end VersionedTree
