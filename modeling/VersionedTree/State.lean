import VersionedTree.Archive
import VersionedTree.Config.Text
import VersionedTree.Disk.Access
import VersionedTree.Tables.Text

/-!
# The state directory

Between commands everything is kept in one directory: the configuration, the tables, and the
payloads unless the configuration puts them elsewhere.

## Main definitions

* `VersionedTree.State` — a state directory and its configuration.
* `VersionedTree.State.init`, `VersionedTree.State.load` — a new directory, and an old one.
* `VersionedTree.State.openArchive`, `VersionedTree.State.save` — the archive in a directory.
* `VersionedTree.StateError`, `VersionedTree.OpenError` — why that failed.
-/

set_option autoImplicit false

namespace VersionedTree

/-! ## Errors -/

/-- Why a state directory cannot be used. -/
inductive StateError where
  /-- No directory is named, and the user has no home directory. -/
  | noHomeDirectory
  | notInitialized
  | alreadyInitialized
  | missingFile (name : String)
  /-- The disk refused something. -/
  | disk (fault : DiskFault)
  /-- The configuration is not a text. -/
  | notText
  /-- The text is not a configuration. -/
  | notConfiguration
deriving DecidableEq, Repr

/-- The wording of a state error. -/
def StateError.message : StateError → String
  | noHomeDirectory => "no home directory found"
  | notInitialized => "doctree directory not initialized. Run 'doctree init' first"
  | alreadyInitialized => "doctree directory already initialized"
  | missingFile name => "missing required file: " ++ name
  | disk fault => "IO error: " ++ fault.message
  | notText => "IO error: stream did not contain valid UTF-8"
  | notConfiguration => "TOML deserialization error: not a configuration"

/-- Why the archive of a state directory cannot be opened. -/
inductive OpenError where
  /-- The file of the tables holds something else. -/
  | notTables
  /-- The file of the tables cannot be read. -/
  | unreadableTables
  /-- The directory of the payloads cannot be made. -/
  | disk (fault : DiskFault)
  /-- The directory of the payloads has a name that leads nowhere. -/
  | nowhere (name : String)
  /-- There is no way to the bucket of the payloads. -/
  | bucket (name : String)
deriving DecidableEq, Repr

/-- The wording of an opening error. -/
def OpenError.message : OpenError → String
  | notTables =>
    "database error: error returned from database: (code: 26) file is not a database"
  | unreadableTables =>
    "database error: error returned from database: (code: 14) unable to open database file"
  | disk fault => (ArchiveError.io fault.message).message
  | nowhere name =>
    (ArchiveError.invalidConfig
      ("Generic LocalFileSystem error: Unable to canonicalize filesystem root: " ++ name)).message
  | bucket name => (ArchiveError.bucketNotFound name).message

/-! ## Names -/

/-- A state directory and its configuration. -/
structure State where
  /-- The written name of the directory. -/
  directory : String
  config : Config
deriving DecidableEq, Repr

namespace State

/-- The name of the file with the configuration. -/
def configName : String := "config.toml"

/-- The name of the file with the tables. -/
def tablesName : String := "db.sqlite"

/-- The name of the directory with the payloads. -/
def payloadsName : String := "blobs"

/-- The state directory inside the home directory. -/
def defaultName : String := ".doctree"

/-- The written name of a file in a state directory. -/
def fileName (s : State) (name : String) : String := WrittenName.inside s.directory name

/-- Where payloads are stored. -/
def blobStore (s : State) : BlobStore :=
  s.config.blobStore.getD (.directory (s.fileName payloadsName))

/-! ## Configurations -/

/-- The configuration of a new state directory names the place of its payloads. -/
def initialConfig (directory : String) (config : Config) : Config :=
  let store := config.blobStore.getD (.directory (WrittenName.inside directory payloadsName))
  { config with blobStore := some store }

/-- Begins a state directory, which must not be there yet. -/
def init (directory : String) (config : Config) (d : Disk) : Except StateError State × Disk :=
  if d.contains directory then (.error .alreadyInitialized, d)
  else match d.makeDirectories directory with
    | (.error fault, d) => (.error (.disk fault), d)
    | (.ok (), d) =>
      match d.makeDirectories (WrittenName.inside directory payloadsName) with
      | (.error fault, d) => (.error (.disk fault), d)
      | (.ok (), d) =>
        let config := initialConfig directory config
        match d.write (WrittenName.inside directory configName) config.render.toUTF8 with
        | .error fault => (.error (.disk fault), d)
        | .ok d => (.ok ⟨directory, config⟩, d)

/-- The configuration of a state directory. -/
def load (directory : String) (d : Disk) : Except StateError State :=
  let file := WrittenName.inside directory configName
  if !d.contains directory then .error .notInitialized
  else if !d.contains file then .error (.missingFile configName)
  else match d.read file with
    | .error fault => .error (.disk fault)
    | .ok bytes =>
      match String.fromUTF8? bytes with
      | none => .error .notText
      | some text =>
        match Config.parse? text with
        | none => .error .notConfiguration
        | some config => .ok ⟨directory, config⟩

/-! ## Archives -/

/-- The key that a file name in the directory of payloads spells. -/
def keyOfName? (name : String) : Option Key :=
  match name.toList.splitOn '.' with
  | [owner, blob] => do
    let key : Key := ⟨← Id.parse? (String.ofList owner), ← Id.parse? (String.ofList blob)⟩
    if key.text = name then return key else none
  | _ => none

/-- The payload that an entry of the directory of payloads holds. -/
def payloadOf? (entry : String × DiskEntry) : Option (Key × ByteArray) :=
  match entry with
  | (name, .file bytes) => (keyOfName? name).map fun key => (key, bytes)
  | (_, .directory _) => none

/-- The payloads in a directory: its files with the names of keys. -/
def payloadsIn (e : DiskEntry) : Payloads := ⟨e.entries.filterMap payloadOf?⟩

/-- A directory of payloads reports where a missing one was looked for, and cannot delete what is
a directory itself. -/
def directoryBackend (place : Place) (e : DiskEntry) : Backend where
  putFault := none
  readFault := none
  deleteFault := fun key =>
    match e.get? key.text with
    | some (.directory _) => some DiskFault.isDirectory.message
    | _ => none
  missingAt := some fun key => Place.text (place ++ [key.text])

/-- The most bytes of the name of a file with tables. -/
def maxTablesBytes : Nat := 504

/-- The most bytes of the name of a place on the way to a file with tables. -/
def maxWayBytes : Nat := 511

/-- Can tables be kept in a file? The shortest name of its place must not be long, nor those of
the places that its written name passes. -/
def canHoldTables (file : String) (d : Disk) : Bool :=
  match WrittenName.ofText file with
  | .error _ => false
  | .ok n =>
    let ways := (n.waypoints d.working).map fun p => p.text.utf8ByteSize
    ways.all (· ≤ maxWayBytes) && ways.getLastD 0 ≤ maxTablesBytes

/-- The tables in the bytes of a file. One byte alone holds nothing. -/
def tablesOf (bytes : ByteArray) : Except OpenError Tables :=
  if bytes.size < 2 then .ok .empty
  else match (String.fromUTF8? bytes).bind Tables.parse? with
    | some t => .ok t
    | none => .error .notTables

/-- The tables of a state directory. -/
def tables (s : State) (d : Disk) : Except OpenError Tables :=
  let file := s.fileName tablesName
  if !canHoldTables file d then .error .unreadableTables
  else match d.read file with
    | .ok bytes => tablesOf bytes
    | .error .notFound => .ok .empty
    | .error _ => .error .unreadableTables

/-- The names of the payloads that tables know, if they are in a directory. -/
def payloadNames (s : State) (t : Tables) : List String :=
  match s.blobStore with
  | .directory path =>
    let keys := t.blobs.map (fun b => Key.mk b.owner b.id)
      ++ t.pending.map (fun p => Key.mk p.owner p.blob)
    keys.map fun key => WrittenName.inside path key.text
  | _ => []

/-- Puts tables into the file of a state directory. -/
def saveTables (s : State) (t : Tables) (d : Disk) : Disk :=
  match d.write (s.fileName tablesName) t.render.toUTF8 with
  | .ok d => d
  | .error _ => d

/-- The archive of a state directory, and how its payload store behaves. The file of the tables
and the directory of the payloads are made if they are missing. -/
def openArchive (s : State) (d : Disk) : Except OpenError (Archive × Backend) × Disk :=
  match s.tables d with
  | .error e => (.error e, d)
  | .ok t =>
    let d := s.saveTables t d
    match s.blobStore with
    | .memory => (.ok (⟨t, .empty⟩, .reliable), d)
    | .bucket _ _ _ name _ => (.error (.bucket name), d)
    | .directory path =>
      match d.makeDirectories path with
      | (.error fault, d) => (.error (.disk fault), d)
      | (.ok (), d) =>
        match d.find path with
        | .error _ => (.error (.nowhere path), d)
        | .ok (place, e) => (.ok (⟨t, payloadsIn e⟩, directoryBackend place e), d)

/-- Puts payloads into a directory: a file for each key, and no file for other keys. -/
def savePayloads (place : Place) (p : Payloads) (e : DiskEntry) (d : Disk) : Disk :=
  let old := (payloadsIn e).entries.map fun f => place ++ [f.1.text]
  p.entries.foldl (fun d f => d.set (place ++ [f.1.text]) (.file f.2)) (old.foldl Disk.remove d)

/-- Keeps the archive in its state directory. -/
def save (s : State) (a : Archive) (d : Disk) : Disk :=
  let d := s.saveTables a.tables d
  match s.blobStore with
  | .directory path =>
    match d.find path with
    | .ok (place, e) => savePayloads place a.payloads e d
    | .error _ => d
  | _ => d

end State

end VersionedTree
