import VersionedTree.Fresh
import VersionedTree.Tables.Ledger
import VersionedTree.Tables.Versions

/-!
# Statements as values

Every statement on the tables as a value, so that a run of statements is a list, and a
transaction is a run that is kept or undone as a whole.

## Main definitions

* `VersionedTree.Statement` — the statements with their arguments.
* `VersionedTree.Statement.Answer` — what a statement answers.
* `VersionedTree.Statement.run` — one statement on behalf of an owner.
* `VersionedTree.Statement.runAll` — statements in turn, each on behalf of its owner.
-/

set_option autoImplicit false

namespace VersionedTree

/-- A statement on the tables. Nodes and versions are as the caller claims them. -/
inductive Statement where
  | createNode (path : Path) (kind : Kind)
  | nodeAt (path : Path)
  | nodeById (id : NodeId)
  | hasKind (id : NodeId) (kind : Kind)
  | children (id : NodeId)
  | moveFile (node : Node) (target : Path)
  | moveDirectory (node : Node) (target : Path)
  | copyFile (node : Node) (target : Path)
  | copyDirectory (node : Node) (target : Path)
  | removeLeaf (node : Node)
  | removeSubtree (node : Node)
  | addVersion (node : NodeId) (blob : Option BlobId) (info : BlobInfo)
  | link (node : NodeId) (blob : BlobId)
  | unlink (node : NodeId) (blob : BlobId)
  | unlinkAll (node : NodeId)
  | linkNewest (source target : NodeId)
  | linkAll (source target : NodeId)
  | newestVersions (node : NodeId) (limit : Nat)
  | versionsAfter (last : Version) (limit : Nat)
  | versionOf (node : NodeId) (blob : BlobId)
  | countVersions (node : NodeId)
  | queueDeletes (blobs : List BlobId)
  | clearDeletes (blobs : List BlobId)
  | pendingDeletes (limit : Nat)
deriving DecidableEq, Repr

namespace Statement

/-- What a statement answers. -/
inductive Answer where
  | done
  | truth (b : Bool)
  | count (n : Nat)
  /-- The count of moved nodes, if the statement applies to the claimed kind. -/
  | moved (n : Option Nat)
  | node (n : Option Node)
  | nodes (ns : List Node)
  | copy (c : Option CopiedNode)
  | copies (cs : List CopiedNode)
  | removedLeaf (id : Option NodeId)
  | removed (ids : List NodeId)
  | version (v : Option Version)
  | versions (vs : List Version)
  | link (l : Option Link)
  | unlinked (u : Option Unlinked)
  | allUnlinked (us : List Unlinked)
  | pending (ps : List PendingDelete)
deriving DecidableEq, Repr

/-- A result with its value as an answer. -/
def answer {α : Type} (f : α → Answer) (r : Except ArchiveError α × Tables) :
    Except ArchiveError Answer × Tables :=
  (r.1.map f, r.2)

/-- A result that cannot fail, with its value as an answer. -/
def answered {α : Type} (f : α → Answer) (r : α × Tables) :
    Except ArchiveError Answer × Tables :=
  (.ok (f r.1), r.2)

/-- One statement on behalf of an owner. -/
def run (fresh : Fresh) (owner : OwnerId) (s : Statement) (t : Tables) :
    Except ArchiveError Answer × Tables :=
  match s with
  | createNode path kind =>
    answer (.node ∘ some) (t.createNode (fresh.nodeId 0) (fresh.now 0) owner path kind)
  | nodeAt path => answer .node (t.nodeAt? owner path, t)
  | nodeById id => answer .node (t.node? owner id, t)
  | hasKind id kind => answered .truth (t.hasKind owner id kind, t)
  | children id => answer .nodes (t.children owner id, t)
  | moveFile node target => answered .moved (t.moveFile owner node target)
  | moveDirectory node target => answer .moved (t.moveDirectory owner node target)
  | copyFile node target =>
    answer .copy (t.copyFile (fresh.nodeId 0) (fresh.now 0) owner node target)
  | copyDirectory node target =>
    answer .copies (t.copyDirectory fresh.nodeId (fresh.now 0) owner node target)
  | removeLeaf node => answered .removedLeaf (t.removeLeaf owner node)
  | removeSubtree node => answered .removed (t.removeSubtree owner node)
  | addVersion node blob info =>
    answer (.version ∘ some)
      (t.addVersion (fresh.now 0) (fresh.now 1) owner node (blob.getD fresh.blobId) info)
  | link node blob => answered .link (t.link (fresh.now 0) owner node blob)
  | unlink node blob => answered .unlinked (t.unlink owner node blob)
  | unlinkAll node => answered .allUnlinked (t.unlinkAll owner node)
  | linkNewest source target =>
    answer .count (t.linkNewest (fresh.now 0) owner source target)
  | linkAll source target => answer .count (t.linkAll (fresh.now 0) owner source target)
  | newestVersions node limit => answered .versions (t.newestVersions owner node limit, t)
  | versionsAfter last limit => answered .versions (t.versionsAfter owner last limit, t)
  | versionOf node blob => answered .version (t.version? owner node blob, t)
  | countVersions node => answered .count (t.countVersions owner node, t)
  | queueDeletes blobs => (.ok .done, t.queueDeletes (fresh.now 0) owner blobs)
  | clearDeletes blobs => answered .count (t.clearDeletes owner blobs)
  | pendingDeletes limit => answered .pending (t.pendingDeletes limit, t)

/-- Statements in turn, each with its supply and owner. One that fails leaves no trace, and the
others go on. -/
def runAll : List (Fresh × OwnerId × Statement) → Tables → Tables
  | [], t => t
  | (fresh, owner, s) :: rest, t => runAll rest (s.run fresh owner t).2

end Statement

end VersionedTree
