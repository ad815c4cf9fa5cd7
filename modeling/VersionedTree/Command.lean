import VersionedTree.State

/-!
# Commands

What a user can ask for, and the wording of the answers and of the failures.

## Main definitions

* `VersionedTree.Command` — the commands with their arguments.
* `VersionedTree.CommandError` — why a command failed.
* `VersionedTree.Invocation` — a command with what is said about all commands.
-/

set_option autoImplicit false

namespace VersionedTree

/-- What a user can ask for. -/
inductive Command where
  /-- Begin a state directory. -/
  | init (logLevel : String)
  /-- Show the children of a container. -/
  | list (path : Path)
  /-- Make a directory, and with `parents` the missing ones above it. -/
  | makeDirectory (path : Path) (parents : Bool)
  /-- Add a file with the bytes of a local file. -/
  | put (file : String) (path : Path) (checksum : Option String)
  /-- Add the bytes of a local file as a version. -/
  | addVersion (file : String) (path : Path) (checksum : Option String)
  /-- Show a version, or write its bytes into a local file. -/
  | read (path : Path) (version : Option BlobId) (output : Option String)
  /-- Show a page of the history of a file. -/
  | versions (path : Path) (limit : Nat) (after : Option BlobId)
  | move (source target : Path)
  | copy (source target : Path) (onlyNewest : Bool)
  | remove (path : Path) (recursive : Bool)
  | removeVersion (path : Path) (version : BlobId)
  /-- Try pending deletions again. -/
  | sweep (limit : Nat)
deriving DecidableEq, Repr

/-- The local files that a command reads or writes. -/
def Command.localFiles : Command → List String
  | put file _ _ | addVersion file _ _ => [file]
  | read _ _ (some file) => [file]
  | _ => []

/-- A command with what is said about all commands. -/
structure Invocation where
  /-- The written name of the state directory, unless it is the usual one. -/
  stateDirectory : Option String
  /-- The owner to act for, unless it is the configured one. -/
  owner : Option OwnerId
  command : Command
deriving DecidableEq, Repr

/-- What a command was doing when the archive refused. -/
inductive Task where
  | list (path : Path)
  | makeDirectory (path : Path)
  | put (path : Path)
  | addVersion (path : Path)
  | read (path : Path)
  | versions (path : Path)
  | move (source : Path)
  | copy (source : Path)
  | remove (path : Path)
  | removeVersion (path : Path) (version : BlobId)
  | sweep
deriving DecidableEq, Repr

/-- The wording of a task that failed. -/
def Task.failure : Task → String
  | list path => "failed to list " ++ path.display
  | makeDirectory path => "cannot create " ++ path.display
  | put path => "failed to create " ++ path.display
  | addVersion path => "failed to add version to " ++ path.display
  | read path => "failed to read " ++ path.display
  | versions path => "failed to list versions of " ++ path.display
  | move source => "cannot move " ++ source.display
  | copy source => "cannot copy " ++ source.display
  | remove path => "cannot remove " ++ path.display
  | removeVersion path version => "cannot remove version " ++ version.text ++ " of " ++ path.display
  | sweep => "sweep failed"

/-- Why a command failed. -/
inductive CommandError where
  /-- The state directory cannot be begun. -/
  | initialization (cause : StateError)
  /-- The archive of a new state directory cannot be made. -/
  | creation (cause : OpenError)
  /-- The first node of a new archive cannot be made. -/
  | creationRoot (cause : ArchiveError)
  /-- The state directory cannot be used. -/
  | state (cause : StateError)
  /-- The archive of the state directory cannot be opened. -/
  | opening (cause : OpenError)
  /-- The archive refuses the task. -/
  | refused (task : Task) (cause : ArchiveError)
  /-- The file has no version to read. -/
  | noVersions (path : Path)
  /-- A local file cannot be read. -/
  | unreadable (file : String) (cause : DiskFault)
  /-- A local file cannot be written. -/
  | unwritable (file : String) (cause : DiskFault)
deriving DecidableEq, Repr

/-- The wording of a failed command. -/
def CommandError.message : CommandError → String
  | initialization cause => "init failed: " ++ cause.message
  | creation cause => "failed to create store: " ++ cause.message
  | creationRoot cause => "failed to create store: " ++ cause.message
  | state cause => cause.message
  | opening cause => "failed to open store: " ++ cause.message
  | refused task cause => task.failure ++ ": " ++ cause.message
  | noVersions path => path.display ++ " has no versions"
  | unreadable file cause => "failed to read " ++ file ++ ": " ++ cause.message
  | unwritable file cause => "failed to write " ++ file ++ ": " ++ cause.message

end VersionedTree
