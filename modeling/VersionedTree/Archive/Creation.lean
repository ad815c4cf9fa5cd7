import VersionedTree.Archive

/-!
# Creation of nodes and versions

A payload is uploaded before the transaction that records it, and removed again if that
transaction does not come about.

## Main definitions

* `VersionedTree.Archive.createRoot`, `VersionedTree.Archive.createDirectory` — containers.
* `VersionedTree.Archive.createFile` — a file with its first version.
* `VersionedTree.Archive.addVersion` — a further version of a file.
-/

set_option autoImplicit false

namespace VersionedTree

/-- A new file with its first version. -/
structure CreatedFile where
  node : Node
  version : Version
deriving DecidableEq, Repr

/-- A declared payload has a checksum, and its size is not negative. -/
def BlobInfo.validate (info : BlobInfo) : Except ArchiveError Unit :=
  if info.checksum.toList.isEmpty then .error (.invalidUpload "missing checksum")
  else if info.size < 0 then .error (.invalidUpload ("negative size " ++ toString info.size))
  else .ok ()

namespace Archive

/-- The archive with other tables. -/
def withTables {α : Type} (a : Archive) (r : Except ArchiveError α × Tables) :
    Except ArchiveError α × Archive :=
  (r.1, { a with tables := r.2 })

/-- Adds one node in a transaction of its own. -/
def createNode (env : Env) (owner : OwnerId) (path : Path) (kind : Kind) (a : Archive) :
    Except ArchiveError Node × Archive :=
  a.withTables <| a.tables.transact (Tables.createNode (env.nodeId 0) (env.now 0) owner path kind)

/-- Begins the owner's tree. -/
def createRoot (env : Env) (owner : OwnerId) (a : Archive) :
    Except ArchiveError Node × Archive :=
  a.createNode env owner .root .root

/-- Adds a directory. -/
def createDirectory (env : Env) (owner : OwnerId) (path : Path) (a : Archive) :
    Except ArchiveError Node × Archive :=
  a.createNode env owner path .dir

/-- Removes an uploaded payload that is not recorded. A failure to do so is not reported. -/
def discard (env : Env) (key : Key) (a : Archive) : Archive :=
  { a with payloads := (a.payloads.delete env.backend key).2 }

/-- Stores the payload of a stream and checks its length. After a failure the payload is
discarded. -/
def upload (env : Env) (owner : OwnerId) (info : BlobInfo) (stream : List Chunk) (a : Archive) :
    Except ArchiveError Unit × Archive :=
  let key : Key := ⟨owner, env.blobId⟩
  match a.payloads.putStream env.backend key stream with
  | (.error e, payloads) => (.error e, { a with payloads := payloads }.discard env key)
  | (.ok written, payloads) =>
    if (written : Int) = info.size then (.ok (), { a with payloads := payloads })
    else
      (.error (.invalidUpload ("declared size " ++ toString info.size ++ " but received "
        ++ toString written ++ " bytes")), { a with payloads := payloads }.discard env key)

/-- Keeps an uploaded payload only if its record succeeded. -/
def keepIfRecorded {α : Type} (env : Env) (owner : OwnerId)
    (r : Except ArchiveError α × Archive) : Except ArchiveError α × Archive :=
  match r with
  | (.ok x, a) => (.ok x, a)
  | (.error e, a) => (.error e, a.discard env ⟨owner, env.blobId⟩)

/-- The statements that record a new file and its first version. -/
def recordFile (env : Env) (owner : OwnerId) (path : Path) (info : BlobInfo) (t : Tables) :
    Except ArchiveError CreatedFile × Tables :=
  match t.createNode (env.nodeId 0) (env.now 0) owner path .file with
  | (.error e, t') => (.error e, t')
  | (.ok node, t') =>
    match t'.addVersion (env.now 1) (env.now 2) owner node.id env.blobId info with
    | (.error e, t'') => (.error e, t'')
    | (.ok version, t'') => (.ok ⟨node, version⟩, t'')

/-- Adds a file with its first version. -/
def createFile (env : Env) (owner : OwnerId) (path : Path) (info : BlobInfo)
    (stream : List Chunk) (a : Archive) : Except ArchiveError CreatedFile × Archive :=
  match info.validate with
  | .error e => (.error e, a)
  | .ok () =>
    match a.upload env owner info stream with
    | (.error e, a') => (.error e, a')
    | (.ok (), a') =>
      keepIfRecorded env owner <|
        a'.withTables (a'.tables.transact (recordFile env owner path info))

/-- Adds a version to a file. Nothing is uploaded for a node that cannot take it. -/
def addVersion (env : Env) (owner : OwnerId) (node : Node) (info : BlobInfo)
    (stream : List Chunk) (a : Archive) : Except ArchiveError Version × Archive :=
  if node.kind != .file then (.error (.ofKind "FILE" node.kind), a)
  else match info.validate with
    | .error e => (.error e, a)
    | .ok () =>
      if !a.tables.hasKind owner node.id .file then (.error (.insertFailure "file"), a)
      else match a.upload env owner info stream with
        | (.error e, a') => (.error e, a')
        | (.ok (), a') =>
          keepIfRecorded env owner <|
            a'.withTables <| a'.tables.transact
              (Tables.addVersion (env.now 0) (env.now 1) owner node.id env.blobId info)

end Archive

end VersionedTree
