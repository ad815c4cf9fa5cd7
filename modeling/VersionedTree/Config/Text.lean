import VersionedTree.Config
import VersionedTree.Toml.Reader

/-!
# The text of a configuration

A configuration is kept as a TOML document: its simple fields on a line each, and the place for
payloads as a table at the end.

## Main definitions

* `VersionedTree.Config.render` — the document of a configuration.
* `VersionedTree.Config.parse?` — the configuration of a document.
-/

set_option autoImplicit false

namespace VersionedTree

open Toml

/-! ## Writing -/

/-- A line that gives a string a name. -/
def fieldLine (name text : String) : String := name ++ " = " ++ Toml.quote text ++ "\n"

/-- A line for a string that may be absent. -/
def optionalLine (name : String) : Option String → String
  | none => ""
  | some text => fieldLine name text

/-- The lines of a place for payloads. -/
def BlobStore.lines : BlobStore → String
  | memory => fieldLine "type" "memory"
  | directory path => fieldLine "type" "local" ++ fieldLine "path" path
  | bucket endpoint accessKey secretKey name region =>
    fieldLine "type" "s3" ++ fieldLine "endpoint" endpoint ++ fieldLine "access_key" accessKey
      ++ fieldLine "secret_key" secretKey ++ fieldLine "bucket" name
      ++ optionalLine "region" region

/-- The document of a configuration. Absent fields are left out. -/
def Config.render (c : Config) : String :=
  fieldLine "owner_id" c.owner.text ++ fieldLine "log_level" c.logLevel
    ++ optionalLine "log_dir" c.logDir
    ++ match c.blobStore with
      | none => ""
      | some store => "\n[blob_store]\n" ++ store.lines

/-! ## Reading -/

/-- A string value. -/
def textOf? : Toml → Option String
  | .string s => some s
  | _ => none

/-- A number of one byte. -/
def byteOf? : Toml → Option Nat
  | .integer n => if 0 ≤ n ∧ n < 256 then some n.toNat else none
  | _ => none

/-- An identifier: its text in any spelling, or sixteen bytes at the beginning of an array. -/
def idOf? {subject : Subject} : Toml → Option (Id subject)
  | .string s => Id.parse? s
  | .array items =>
    if items.length < 16 then none
    else ((items.take 16).mapM byteOf?).map fun bytes =>
      ⟨.ofNat (bytes.foldl (fun n b => 256 * n + b) 0)⟩
  | _ => none

/-- A field that may be absent. -/
def fieldOf? {α : Type} (read : Toml → Option α) (name : String) (entries : Entries) :
    Option (Option α) :=
  match find? name entries with
  | none => some none
  | some v => (read v).map some

/-- A field that must be there. -/
def requiredOf? {α : Type} (read : Toml → Option α) (name : String) (entries : Entries) :
    Option α :=
  (find? name entries).bind read

/-- A place for payloads from the entries of its table. -/
def BlobStore.ofEntries? (entries : Entries) : Option BlobStore :=
  match requiredOf? textOf? "type" entries with
  | none => none
  | some type =>
    if type = "memory" then some .memory
    else if type = "local" then (requiredOf? textOf? "path" entries).map .directory
    else if type = "s3" then do
      return .bucket (← requiredOf? textOf? "endpoint" entries)
        (← requiredOf? textOf? "access_key" entries) (← requiredOf? textOf? "secret_key" entries)
        (← requiredOf? textOf? "bucket" entries) (← fieldOf? textOf? "region" entries)
    else none

/-- A place for payloads from an array of its type and its fields in order. -/
def BlobStore.ofItems? : List Toml → Option BlobStore
  | [.string "memory"] => some .memory
  | [.string "local", .string path] => some (.directory path)
  | [.string "s3", .string endpoint, .string accessKey, .string secretKey, .string name,
      .string region] => some (.bucket endpoint accessKey secretKey name (some region))
  | _ => none

/-- A place for payloads. -/
def BlobStore.ofToml? : Toml → Option BlobStore
  | .table _ entries => BlobStore.ofEntries? entries
  | .array items => BlobStore.ofItems? items
  | _ => none

/-- The configuration of a table. Further names are skipped. -/
def Config.ofEntries? (entries : Entries) : Option Config := do
  let owner ← requiredOf? idOf? "owner_id" entries
  let level ← fieldOf? textOf? "log_level" entries
  let dir ← fieldOf? textOf? "log_dir" entries
  let store ← fieldOf? BlobStore.ofToml? "blob_store" entries
  return ⟨owner, level.getD Config.defaultLogLevel, dir, store⟩

/-- The configuration of a document. -/
def Config.parse? (text : String) : Option Config := (Toml.parse? text).bind Config.ofEntries?

end VersionedTree
