import Std.Time.DateTime.Timestamp
import VersionedTree.Command.Run
import VersionedTree.Command.Words

/-!
# The command line

Reads what a command may look at from the disk, runs the command, and writes back what it
changed. All decisions are made in `VersionedTree.Invocation.ofWords` and
`VersionedTree.Invocation.run`.
-/

set_option autoImplicit false

namespace VersionedTree.CommandLine

/-- What stands at a place of the real disk. A directory on the way that cannot be read is still
a directory. -/
def probe (p : Place) (isOnTheWay : Bool) : IO (Option DiskEntry) := do
  try
    return some (.file (← IO.FS.readBinFile p.text))
  catch
    | .inappropriateType none 21 _ => return some (.directory [])
    | .permissionDenied .. => return if isOnTheWay then some (.directory []) else none
    | _ => return none

/-- Adds the places of the real disk that a written name passes. -/
def look (d : Disk) (name : String) : IO Disk := do
  let .ok n := WrittenName.ofText name | return d
  let places := n.waypoints d.working
  let mut d := d
  for p in places do
    if (d.entry p).isNone then
      if let some e := ← probe p (some p != places.getLast?) then d := d.set p e
  return d

/-- Adds everything that an invocation may look at. -/
def lookFor (i : Invocation) (directory : Option String) : IO Disk := do
  let working ← IO.currentDir
  let mut d := Disk.empty
  if let .ok n := WrittenName.ofText working.toString then
    d := { d with working := n.parts.reverse }
  d ← look d working.toString
  for file in i.command.localFiles do
    d ← look d file
  let some directory := directory | return d
  for name in [State.configName, State.tablesName, State.payloadsName] do
    d ← look d (WrittenName.inside directory name)
  let .ok state := State.load directory d | return d
  let .ok tables := state.tables d | return d
  if let .directory path := state.blobStore then
    d ← look d path
  for name in state.payloadNames tables do
    d ← look d name
  return d

/-- Brings what stands at a place of the real disk from one state to another. -/
partial def keep (p : Place) (before : Option DiskEntry) (after : DiskEntry) : IO Unit := do
  match before, after with
  | some (.file old), .file new =>
    if old.data != new.data then IO.FS.writeBinFile p.text new
  | _, .file new => IO.FS.writeBinFile p.text new
  | _, .directory es =>
    if before.isNone then IO.FS.createDirAll p.text
    for (name, _) in (before.getD (.directory [])).entries do
      if (after.get? name).isNone then IO.FS.removeFile (Place.text (p ++ [name]))
    for (name, e) in es do
      keep (p ++ [name]) (before.bind (·.get? name)) e

/-- The time. -/
def now : IO Instant := do
  let t ← Std.Time.Timestamp.now
  return ⟨t.val.second.val * 1000000 + t.val.nano.val / 1000⟩

/-- Runs an invocation on the real disk. The answer is the status of the process. -/
def execute (i : Invocation) : IO UInt32 := do
  let home ← IO.getEnv "HOME"
  let host := Host.ofSeed (← IO.getRandomBytes 16) (← now)
    (home.map fun h => WrittenName.inside h State.defaultName)
  let d ← lookFor i (i.stateDirectory <|> host.stateDirectory)
  let (answer, d') := i.run host d
  keep [] (some d.root) d'.root
  match answer with
  | .ok text =>
    IO.println text
    return 0
  | .error e =>
    IO.eprintln ("Error: " ++ e.message)
    return 1

end VersionedTree.CommandLine

open VersionedTree in
/-- The program: its words name a command. -/
def main (words : List String) : IO UInt32 := do
  match Invocation.ofWords words with
  | .ok i => CommandLine.execute i
  | .error .helpWanted =>
    IO.println Words.Misuse.helpWanted.message
    return 0
  | .error e =>
    IO.eprintln ("error: " ++ e.message)
    return 2
