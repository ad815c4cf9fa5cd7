import VersionedTree.Archive.Directories
import VersionedTree.Archive.Transfer
import VersionedTree.Command
import VersionedTree.Command.Report
import VersionedTree.Digest

/-!
# Running commands

A command opens the archive of its state directory, acts on it for one owner, keeps it, and
answers with a text.

## Main definitions

* `VersionedTree.Host` — what a command takes from outside, the disk apart.
* `VersionedTree.Upload` — a local file on its way into the archive.
* `VersionedTree.Command.performList` and its kin — a command on an open archive.
* `VersionedTree.Invocation.run` — a command on a disk.
-/

set_option autoImplicit false

namespace VersionedTree

/-- What a command takes from outside, the disk apart. -/
structure Host where
  /-- The identifier of a new owner. -/
  newOwner : OwnerId
  /-- The state directory of a user who does not name one. -/
  stateDirectory : Option String
  /-- What the operations of a command take, in turn. -/
  call : Nat → Env

/-- An identifier made from a seed: the first digits of a digest, marked as random. -/
def Uuid.ofSeed (seed : ByteArray) (use : String) : Uuid :=
  let digits := (Digest.text (seed ++ use.toUTF8)).toList
  (Uuid.ofDigits? (digits.take 12 ++ '4' :: (digits.drop 13).take 3
    ++ 'a' :: (digits.drop 17).take 15)).getD default

/-- A supply that draws on a seed and on the time at which a command begins. Each operation has a
thousand readings of the clock before the next one. -/
def Host.ofSeed (seed : ByteArray) (time : Instant) (stateDirectory : Option String) : Host where
  newOwner := ⟨Uuid.ofSeed seed "owner"⟩
  stateDirectory := stateDirectory
  call := fun k => {
    nodeId := fun j => ⟨Uuid.ofSeed seed ("node " ++ toString k ++ " " ++ toString j)⟩
    blobId := ⟨Uuid.ofSeed seed ("blob " ++ toString k)⟩
    now := fun j => ⟨time.micros + 1000 * (k : Int) + (j : Int)⟩
    backend := .reliable }

/-- The surroundings of an operation with the given payload store. -/
def Env.withBackend (env : Env) (b : Backend) : Env := { env with backend := b }

/-! ## Local files -/

/-- A local file on its way into the archive. -/
structure Upload where
  info : BlobInfo
  stream : List Chunk

/-- The size of a directory. -/
def directorySize : Int := 4096

/-- The upload of a local file. Without a checksum its bytes are digested. A directory has a size,
but its bytes cannot be read. -/
def Upload.ofFile (d : Disk) (file : String) (checksum : Option String) :
    Except DiskFault Upload :=
  match d.stat file, checksum with
  | .error fault, _ => .error fault
  | .ok (.file bytes), _ =>
    .ok ⟨⟨checksum.getD (Digest.text bytes), bytes.size⟩, [.data bytes]⟩
  | .ok (.directory _), some checksum =>
    .ok ⟨⟨checksum, directorySize⟩, [.failure DiskFault.isDirectory.message]⟩
  | .ok (.directory _), none => .error .isDirectory

namespace Command

/-! ## Commands on an open archive -/

/-- The outcome of an operation as that of a task. -/
def during {α : Type} (task : Task) (r : Except ArchiveError α × Archive) :
    Except CommandError α × Archive :=
  (r.1.mapError (.refused task), r.2)

/-- A step on the node at a place. -/
def onNode {α : Type} (task : Task) (owner : OwnerId) (path : Path) (a : Archive)
    (step : Node → Except CommandError α × Archive) : Except CommandError α × Archive :=
  match a.resolve owner path with
  | .error e => (.error (.refused task e), a)
  | .ok node => step node

/-- Shows the children of a container. -/
def performList (owner : OwnerId) (path : Path) (a : Archive) :
    Except CommandError String × Archive :=
  ((during (.list path) (a.list owner path, a)).1.map Report.listing, a)

/-- Makes directories. -/
def performMakeDirectory (env : Nat → Env) (owner : OwnerId) (path : Path) (parents : Bool)
    (a : Archive) : Except CommandError String × Archive :=
  match a.makeDirectory env owner path parents with
  | (.error e, a') => (.error (.refused (.makeDirectory e.place) e.cause), a')
  | (.ok nodes, a') => (.ok (Report.createdDirectories path nodes), a')

/-- Adds a file. -/
def performPut (env : Nat → Env) (owner : OwnerId) (path : Path) (upload : Upload)
    (a : Archive) : Except CommandError String × Archive :=
  match during (.put .root) (a.ensureRoot (env 0) owner) with
  | (.error e, a') => (.error e, a')
  | (.ok (), a') =>
    match during (.put path) (a'.createFile (env 1) owner path upload.info upload.stream) with
    | (.error e, a'') => (.error e, a'')
    | (.ok c, a'') => (.ok (Report.lines [Report.created c.node, Report.versionLine c.version]), a'')

/-- Adds a version. -/
def performAddVersion (env : Nat → Env) (owner : OwnerId) (path : Path) (upload : Upload)
    (a : Archive) : Except CommandError String × Archive :=
  onNode (.addVersion path) owner path a fun node =>
    match during (.addVersion path)
        (a.addVersion (env 0) owner node upload.info upload.stream) with
    | (.error e, a') => (.error e, a')
    | (.ok version, a') => (.ok (Report.versionLine version), a')

/-- The version to read: the given one, or else the newest one. -/
def versionToRead (owner : OwnerId) (path : Path) (node : Node) (blob : Option BlobId)
    (a : Archive) : Except CommandError Version :=
  match blob with
  | some blob => (a.findVersion owner node blob).mapError (.refused (.read path))
  | none =>
    match a.firstPage owner node 1 with
    | .error e => .error (.refused (.read path) e)
    | .ok page =>
      match page.versions with
      | [] => .error (.noVersions path)
      | version :: _ => .ok version

/-- A version with its node and its bytes. -/
structure Content where
  node : Node
  version : Version
  bytes : ByteArray

/-- Reads a version. -/
def performRead (env : Nat → Env) (owner : OwnerId) (path : Path) (blob : Option BlobId)
    (a : Archive) : Except CommandError Content :=
  match a.resolve owner path with
  | .error e => .error (.refused (.read path) e)
  | .ok node =>
    match versionToRead owner path node blob a with
    | .error e => .error e
    | .ok version =>
      match a.readVersion (env 0) owner version with
      | .error e => .error (.refused (.read path) e)
      | .ok bytes => .ok ⟨node, version, bytes⟩

/-- Shows a page of a history: the first one, or the one after a version. -/
def performVersions (owner : OwnerId) (path : Path) (limit : Nat) (after : Option BlobId)
    (a : Archive) : Except ArchiveError String :=
  match a.resolve owner path with
  | .error e => .error e
  | .ok node =>
    match after with
    | none => (a.firstPage owner node limit).map (Report.history node)
    | some blob =>
      (a.findVersion owner node blob).map fun last =>
        Report.lines (Report.page (a.nextPage owner last limit))

/-- Moves a node. -/
def performMove (owner : OwnerId) (source target : Path) (a : Archive) :
    Except CommandError String × Archive :=
  onNode (.move source) owner source a fun node =>
    match during (.move source) (a.move owner node target) with
    | (.error e, a') => (.error e, a')
    | (.ok count, a') => (.ok (Report.moved source target count), a')

/-- Copies a node. -/
def performCopy (env : Nat → Env) (owner : OwnerId) (source target : Path) (onlyNewest : Bool)
    (a : Archive) : Except CommandError String × Archive :=
  onNode (.copy source) owner source a fun node =>
    match during (.copy source) (a.copy (env 0) owner node target onlyNewest) with
    | (.error e, a') => (.error e, a')
    | (.ok copies, a') => (.ok (Report.copied source target copies.length), a')

/-- Removes a node. -/
def performRemove (env : Nat → Env) (owner : OwnerId) (path : Path) (recursive : Bool)
    (a : Archive) : Except CommandError String × Archive :=
  onNode (.remove path) owner path a fun node =>
    match during (.remove path) (a.remove (env 0) owner node recursive) with
    | (.error e, a') => (.error e, a')
    | (.ok removal, a') => (.ok (Report.removal removal), a')

/-- Removes a version. -/
def performRemoveVersion (env : Nat → Env) (owner : OwnerId) (path : Path) (blob : BlobId)
    (a : Archive) : Except CommandError String × Archive :=
  let task := Task.removeVersion path blob
  onNode task owner path a fun node =>
    match during task (a.removeVersion (env 0) owner node blob) with
    | (.error e, a') => (.error e, a')
    | (.ok removal, a') => (.ok (Report.removal removal), a')

/-! ## Commands on a disk -/

/-- An open archive, the owner it is used by, and how to call its operations. -/
structure Session where
  archive : Archive
  owner : OwnerId
  env : Nat → Env

/-- Opens the archive of a state directory for an action, and keeps it afterwards. -/
def withSession {α : Type} (host : Host) (directory : Option String) (owner : Option OwnerId)
    (d : Disk) (action : Session → Except CommandError α × Archive) :
    Except CommandError α × Disk :=
  match (directory.elim (.error .noHomeDirectory) fun name => State.load name d) with
  | .error e => (.error (.state e), d)
  | .ok state =>
    match state.openArchive d with
    | (.error e, d') => (.error (.opening e), d')
    | (.ok (archive, backend), d') =>
      let env (k : Nat) : Env := (host.call k).withBackend backend
      let (answer, archive') := action ⟨archive, owner.getD state.config.owner, env⟩
      (answer, state.save archive' d')

/-- The names of a new state directory, its owner and the first node. -/
def initReport (s : State) (root : Node) : String := Report.lines [
  "Initialized doctree directory at: " ++ s.directory,
  "- Database: " ++ s.fileName State.tablesName,
  "- Blobs: " ++ s.fileName State.payloadsName,
  "- Config: " ++ s.fileName State.configName,
  "- Owner: " ++ s.config.owner.text,
  "- Root: " ++ root.id.text]

/-- Begins a state directory, and the tree of its owner. -/
def runInit (host : Host) (directory : Option String) (owner : Option OwnerId)
    (logLevel : String) (d : Disk) : Except CommandError String × Disk :=
  let config : Config := ⟨owner.getD host.newOwner, logLevel, none, none⟩
  match (directory.elim (.error .noHomeDirectory, d) fun name => State.init name config d) with
  | (.error e, d') => (.error (.initialization e), d')
  | (.ok state, d') =>
    match state.openArchive d' with
    | (.error e, d'') => (.error (.creation e), d'')
    | (.ok (archive, backend), d'') =>
      match archive.createRoot ((host.call 0).withBackend backend) state.config.owner with
      | (.error e, archive') => (.error (.creationRoot e), state.save archive' d'')
      | (.ok root, archive') =>
        (.ok (initReport state root), state.save archive' d'')

/-- Shows a version, or writes its bytes into a local file. -/
def runRead (host : Host) (directory : Option String) (owner : Option OwnerId) (path : Path)
    (blob : Option BlobId) (output : Option String) (d : Disk) :
    Except CommandError String × Disk :=
  match withSession host directory owner d fun s =>
      (performRead s.env s.owner path blob s.archive, s.archive) with
  | (.error e, d') => (.error e, d')
  | (.ok content, d') =>
    match output with
    | none => (.ok (Report.content content.node content.version content.bytes), d')
    | some file =>
      match d'.write file content.bytes with
      | .error fault => (.error (.unwritable file fault), d')
      | .ok d'' => (.ok (Report.written content.version content.bytes file), d'')

/-- Runs a command in a state directory. Local files are looked at before the archive is opened. -/
def run (host : Host) (directory : Option String) (owner : Option OwnerId) (c : Command)
    (d : Disk) : Except CommandError String × Disk :=
  let session (action : Session → Except CommandError String × Archive) :=
    withSession host directory owner d action
  match c with
  | .init logLevel => runInit host directory owner logLevel d
  | .list path => session fun s => performList s.owner path s.archive
  | .makeDirectory path parents =>
    session fun s => performMakeDirectory s.env s.owner path parents s.archive
  | .put file path checksum =>
    match Upload.ofFile d file checksum with
    | .error fault => (.error (.unreadable file fault), d)
    | .ok upload => session fun s => performPut s.env s.owner path upload s.archive
  | .addVersion file path checksum =>
    match Upload.ofFile d file checksum with
    | .error fault => (.error (.unreadable file fault), d)
    | .ok upload => session fun s => performAddVersion s.env s.owner path upload s.archive
  | .read path version output => runRead host directory owner path version output d
  | .versions path limit after =>
    session fun s => during (.versions path)
      (performVersions s.owner path limit after s.archive, s.archive)
  | .move source target => session fun s => performMove s.owner source target s.archive
  | .copy source target onlyNewest =>
    session fun s => performCopy s.env s.owner source target onlyNewest s.archive
  | .remove path recursive =>
    session fun s => performRemove s.env s.owner path recursive s.archive
  | .removeVersion path version =>
    session fun s => performRemoveVersion s.env s.owner path version s.archive
  | .sweep limit =>
    session fun s =>
      let (report, archive) := s.archive.sweep (s.env 0) limit
      (.ok (Report.sweep report), archive)

end Command

/-- Runs an invocation. -/
def Invocation.run (host : Host) (i : Invocation) (d : Disk) : Except CommandError String × Disk :=
  i.command.run host (i.stateDirectory <|> host.stateDirectory) i.owner d

end VersionedTree
