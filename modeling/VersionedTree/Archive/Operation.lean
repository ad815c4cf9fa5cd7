import VersionedTree.Archive.Removal
import VersionedTree.Archive.Transfer

/-!
# Operations as values

Every operation on the archive as a value, so that the history of an archive is a list of them.

## Main definitions

* `VersionedTree.Operation` — the operations with their arguments.
* `VersionedTree.Operation.Answer` — what an operation answers.
* `VersionedTree.Operation.run` — one operation on behalf of an owner.
* `VersionedTree.Archive.after` — the archive after a history.
-/

set_option autoImplicit false

namespace VersionedTree

/-- An operation on the archive. Nodes and versions are as the caller claims them. -/
inductive Operation where
  | createRoot
  | createDirectory (path : Path)
  | createFile (path : Path) (info : BlobInfo) (stream : List Chunk)
  | addVersion (node : Node) (info : BlobInfo) (stream : List Chunk)
  | resolve (path : Path)
  | nodeById (id : NodeId)
  | list (path : Path)
  | firstPage (node : Node) (limit : Nat)
  | nextPage (last : Version) (limit : Nat)
  | findVersion (node : Node) (blob : BlobId)
  | readVersion (version : Version)
  | move (node : Node) (target : Path)
  | copy (node : Node) (target : Path) (onlyNewest : Bool)
  | remove (node : Node) (recursive : Bool)
  | removeVersion (node : Node) (blob : BlobId)
  /-- Tries pending deletions of all owners again. -/
  | sweep (limit : Nat)

namespace Operation

/-- What an operation answers. -/
inductive Answer where
  | node (n : Node)
  | file (f : CreatedFile)
  | version (v : Version)
  | entries (es : List Entry)
  | page (p : VersionPage)
  | versions (vs : List Version)
  | bytes (b : ByteArray)
  | moved (n : Nat)
  | copies (cs : List CopiedNode)
  | removal (r : Removal)
  | report (r : DeleteReport)

/-- A result with its value as an answer. -/
def answer {α : Type} (f : α → Answer) (r : Except ArchiveError α × Archive) :
    Except ArchiveError Answer × Archive :=
  (r.1.map f, r.2)

/-- One operation on behalf of an owner. -/
def run (env : Env) (owner : OwnerId) (op : Operation) (a : Archive) :
    Except ArchiveError Answer × Archive :=
  match op with
  | createRoot => answer .node (a.createRoot env owner)
  | createDirectory path => answer .node (a.createDirectory env owner path)
  | createFile path info stream => answer .file (a.createFile env owner path info stream)
  | addVersion node info stream => answer .version (a.addVersion env owner node info stream)
  | resolve path => answer .node (a.resolve owner path, a)
  | nodeById id => answer .node (a.node owner id, a)
  | list path => answer .entries (a.list owner path, a)
  | firstPage node limit => answer .page (a.firstPage owner node limit, a)
  | nextPage last limit => (.ok (.versions (a.nextPage owner last limit)), a)
  | findVersion node blob => answer .version (a.findVersion owner node blob, a)
  | readVersion version => answer .bytes (a.readVersion env owner version, a)
  | move node target => answer .moved (a.move owner node target)
  | copy node target onlyNewest => answer .copies (a.copy env owner node target onlyNewest)
  | remove node recursive => answer .removal (a.remove env owner node recursive)
  | removeVersion node blob => answer .removal (a.removeVersion env owner node blob)
  | sweep limit => answer .report ((a.sweep env limit).map .ok id)

end Operation

/-- A step of a history: an operation, its owner, and what it took from outside. -/
structure Step where
  env : Env
  owner : OwnerId
  operation : Operation

/-- The archive after a step, whether it succeeded or not. -/
def Step.apply (s : Step) (a : Archive) : Archive := (s.operation.run s.env s.owner a).2

/-- The archive after a history. -/
def Archive.after (history : List Step) (a : Archive) : Archive :=
  history.foldl (fun a s => s.apply a) a

/-- The pages of a history after a version, up to the first empty one and `count` at most. -/
def Archive.pagesAfter (owner : OwnerId) (limit : Nat) (a : Archive) :
    (count : Nat) → Version → List (List Version)
  | 0, _ => []
  | count + 1, last =>
    let page := a.nextPage owner last limit
    match page.getLast? with
    | none => []
    | some last => page :: pagesAfter owner limit a count last

/-- All pages of a first page and those that follow it. -/
def Archive.pages (owner : OwnerId) (limit : Nat) (first : VersionPage) (a : Archive) :
    List (List Version) :=
  match first.versions.getLast? with
  | none => []
  | some last => first.versions :: a.pagesAfter owner limit first.total last

end VersionedTree
