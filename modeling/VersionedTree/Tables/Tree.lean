import VersionedTree.Path.Stored
import VersionedTree.Tables

/-!
# The tree of an owner

Statements on the nodes. Each one names its owner and guards its own changes: a node whose
claimed kind is not the stored one, a missing or childless parent, or a taken destination makes
it change nothing.

## Main definitions

* `VersionedTree.Tables.createNode` — a new node.
* `VersionedTree.Tables.nodeAt?`, `VersionedTree.Tables.node?`, `VersionedTree.Tables.children` —
  reading.
* `VersionedTree.Tables.moveFile`, `VersionedTree.Tables.moveDirectory` — change of place.
* `VersionedTree.Tables.copyFile`, `VersionedTree.Tables.copyDirectory` — copies under new
  identifiers.
* `VersionedTree.Tables.removeLeaf`, `VersionedTree.Tables.removeSubtree` — removal.
-/

set_option autoImplicit false

namespace VersionedTree.Tables

/-! ## Guards -/

/-- Does the owner have a root or directory at this place? Above the root there is no place. -/
def hasContainerAt (t : Tables) (owner : OwnerId) : Option Path → Bool
  | none => false
  | some path =>
    t.nodes.any fun n => n.owner == owner && n.path == path && n.kind.isContainer

/-- Does the owner have a node of this identifier and kind? -/
def hasKind (t : Tables) (owner : OwnerId) (id : NodeId) (kind : Kind) : Bool :=
  t.nodes.any fun n => n.id == id && n.owner == owner && n.kind == kind

/-- The owner's node of this identifier and kind. -/
def stored? (t : Tables) (owner : OwnerId) (id : NodeId) (kind : Kind) : Option Node :=
  t.nodes.find? fun n => n.id == id && n.owner == owner && n.kind == kind

/-- The owner's nodes at or below a place. -/
def subtree (t : Tables) (owner : OwnerId) (top : Path) : List Node :=
  t.nodes.filter fun n => n.owner == owner && top.covers n.path

/-- Nodes in the order of their stored paths. -/
def sortedByPath (nodes : List Node) : List Node :=
  nodes.mergeSort fun m n => m.path.le n.path

/-! ## Creation -/

/-- A root may be created at the top, any other node where its parent may have children. -/
def mayCreate (t : Tables) (owner : OwnerId) (path : Path) (kind : Kind) : Bool :=
  if kind == .root then path.isRoot else t.hasContainerAt owner path.parent

/-- Adds a node. It fails if the place is taken, its parent is missing or a file, or a root is
asked for elsewhere than at the top. -/
def createNode (id : NodeId) (time : Instant) (owner : OwnerId) (path : Path) (kind : Kind)
    (t : Tables) : Except ArchiveError Node × Tables :=
  let node : Node := ⟨id, kind, path, owner, time⟩
  if t.mayCreate owner path kind then
    match t.insertNode node with
    | .ok t' => (node.readBack, t')
    | .error .unique => (.error (.insertFailure "tree"), t)
    | .error c => (.error (.database c), t)
  else (.error (.insertFailure "tree"), t)

/-! ## Reading -/

/-- Reads back a row that may be missing. -/
def readBack? : Option Node → Except ArchiveError (Option Node)
  | none => .ok none
  | some n => n.readBack.map some

/-- The owner's node at a place. -/
def nodeAt? (t : Tables) (owner : OwnerId) (path : Path) : Except ArchiveError (Option Node) :=
  readBack? (t.nodes.find? fun n => n.owner == owner && n.path == path)

/-- The owner's node of an identifier. -/
def node? (t : Tables) (owner : OwnerId) (id : NodeId) : Except ArchiveError (Option Node) :=
  readBack? (t.nodes.find? fun n => n.owner == owner && n.id == id)

/-- The direct children of a node that may have some, in the order of their stored paths. -/
def children (t : Tables) (owner : OwnerId) (id : NodeId) : Except ArchiveError (List Node) :=
  match t.nodes.find? fun n => n.id == id && n.owner == owner && n.kind.isContainer with
  | none => .ok []
  | some top =>
    Node.readBackAll <| sortedByPath <|
      (t.subtree owner top.path).filter fun n => n.id != id && top.path.isDirectlyBelow n.path

/-! ## Moves -/

/-- Gives one node a new place. -/
def place (nodes : List Node) (id : NodeId) (path : Path) : List Node :=
  nodes.map fun n => if n.id == id then { n with path := path } else n

/-- Is the place taken by a node of the owner other than the one given? -/
def isTaken (nodes : List Node) (owner : OwnerId) (id : NodeId) (path : Path) : Bool :=
  nodes.any fun n => n.id != id && n.owner == owner && n.path == path

/-- Moves one file. None is the answer for a node that is not claimed to be a file, otherwise the
count of moved nodes. A file moved onto its own place counts. -/
def moveFile (owner : OwnerId) (node : Node) (target : Path) (t : Tables) :
    Option Nat × Tables :=
  if node.kind != .file then (none, t)
  else if target.isRoot then (some 0, t)
  else if t.hasKind owner node.id .file && t.hasContainerAt owner target.parent
      && !isTaken t.nodes owner node.id target then
    (some 1, { t with nodes := place t.nodes node.id target })
  else (some 0, t)

/-- Would the new place break the check on the node? -/
def isMisplaced (nodes : List Node) (id : NodeId) (path : Path) : Bool :=
  nodes.any fun n => n.id == id && !{ n with path := path }.isWellPlaced

/-- Gives nodes of one owner new places, one after the other. -/
def relocate (owner : OwnerId) : List (NodeId × Path) → List Node →
    Except Constraint (List Node)
  | [], nodes => .ok nodes
  | (id, path) :: rest, nodes =>
    if isMisplaced nodes id path then .error .check
    else if isTaken nodes owner id path then .error .unique
    else relocate owner rest (place nodes id path)

/-- The places that the nodes at and below a directory get by its move. -/
def movedPlaces (nodes : List Node) (source target : Path) : List (NodeId × Path) :=
  nodes.map fun n => (n.id, n.path.graft source target)

/-- Moves a directory with all that is below it. None is the answer for a node that is not
claimed to be a directory, otherwise the count of moved nodes: zero if the destination lies
inside the directory, has no parent that may have children, or is taken. -/
def moveDirectory (owner : OwnerId) (node : Node) (target : Path) (t : Tables) :
    Except ArchiveError (Option Nat) × Tables :=
  if node.kind != .dir then (.ok none, t)
  else if target.isRoot then (.ok (some 0), t)
  else match t.stored? owner node.id .dir with
    | none => (.ok (some 0), t)
    | some source =>
      if !source.path.covers target && t.hasContainerAt owner target.parent then
        let moving := t.subtree owner source.path
        match relocate owner (movedPlaces moving source.path target) t.nodes with
        | .ok nodes => (.ok (some moving.length), { t with nodes := nodes })
        | .error .unique => (.ok (some 0), t)
        | .error c => (.error (.database c), t)
      else (.ok (some 0), t)

/-! ## Copies -/

/-- Copies one file. None is the answer if nothing was copied. -/
def copyFile (id : NodeId) (time : Instant) (owner : OwnerId) (node : Node) (target : Path)
    (t : Tables) : Except ArchiveError (Option CopiedNode) × Tables :=
  if node.kind != .file || target.isRoot then (.ok none, t)
  else if t.hasKind owner node.id .file && t.hasContainerAt owner target.parent then
    match t.insertNode ⟨id, .file, target, owner, time⟩ with
    | .ok t' => (.ok (some ⟨node.id, id, .file⟩), t')
    | .error .unique => (.ok none, t)
    | .error c => (.error (.database c), t)
  else (.ok none, t)

/-- The copies of nodes below `source`, numbered from `k`, each with its new place. -/
def copiesOf (ids : Nat → NodeId) (source target : Path) :
    Nat → List Node → List (CopiedNode × Path)
  | _, [] => []
  | k, n :: rest =>
    match n.path.rebase source target with
    | none => copiesOf ids source target k rest
    | some path => (⟨n.id, ids k, n.kind⟩, path) :: copiesOf ids source target (k + 1) rest

/-- The rows of copies. -/
def rowsOf (owner : OwnerId) (time : Instant) (copies : List (CopiedNode × Path)) : List Node :=
  copies.map fun (copy, path) => ⟨copy.destination, copy.kind, path, owner, time⟩

/-- Copies a directory with all that is below it, in the order of stored paths. The answer is
empty if nothing was copied: the node is not an owned directory, the destination lies inside it
or has no parent that may have children, or a place is taken. -/
def copyDirectory (ids : Nat → NodeId) (time : Instant) (owner : OwnerId) (node : Node)
    (target : Path) (t : Tables) : Except ArchiveError (List CopiedNode) × Tables :=
  if node.kind != .dir || target.isRoot then (.ok [], t)
  else match t.stored? owner node.id .dir with
    | none => (.ok [], t)
    | some source =>
      match Node.readBackAll (sortedByPath (t.subtree owner source.path)) with
      | .error e => (.error e, t)
      | .ok sources =>
        if source.path.isAncestorOf target then (.ok [], t)
        else if t.hasContainerAt owner target.parent then
          let copies := copiesOf ids source.path target 0 sources
          match t.insertNodes (rowsOf owner time copies) with
          | .ok t' => (.ok (copies.map Prod.fst), t')
          | .error .unique => (.ok [], t)
          | .error c => (.error (.database c), t)
        else (.ok [], t)

/-! ## Removal -/

/-- The owner's node of an identifier, unless it is a root. -/
def removable? (t : Tables) (owner : OwnerId) (id : NodeId) : Option Node :=
  t.nodes.find? fun n => n.id == id && n.owner == owner && n.kind != .root

/-- Removes a node that is not a root and has nothing below it. -/
def removeLeaf (owner : OwnerId) (node : Node) (t : Tables) : Option NodeId × Tables :=
  match t.removable? owner node.id with
  | none => (none, t)
  | some top =>
    if (t.subtree owner top.path).length = 1 then
      (some top.id, { t with nodes := t.nodes.filter fun n => n.id != top.id })
    else (none, t)

/-- Removes a node that is not a root, and all that is below it. -/
def removeSubtree (owner : OwnerId) (node : Node) (t : Tables) : List NodeId × Tables :=
  match t.removable? owner node.id with
  | none => ([], t)
  | some top =>
    ((t.subtree owner top.path).map Node.id,
      { t with nodes := t.nodes.filter fun n => !(n.owner == owner && top.path.covers n.path) })

end VersionedTree.Tables
