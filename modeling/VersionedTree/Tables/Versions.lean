import VersionedTree.Tables.Tree

/-!
# Versions of files

Statements on blobs and on the links that attach them to files. A blob exists exactly as long as
a link refers to it: the removal of its last link removes it as well, and says so.

## Main definitions

* `VersionedTree.Tables.addVersion` — a new blob, linked to a file.
* `VersionedTree.Tables.link` — a further link to an existing blob.
* `VersionedTree.Tables.unlink`, `VersionedTree.Tables.unlinkAll` — removal of links.
* `VersionedTree.Tables.linkNewest`, `VersionedTree.Tables.linkAll` — the versions of one file
  linked to another.
* `VersionedTree.Tables.newestVersions`, `VersionedTree.Tables.versionsAfter` — pages of the
  history of a file, newest first.
-/

set_option autoImplicit false

namespace VersionedTree.Tables

/-! ## Reading -/

/-- All versions: every link together with its blob. -/
def versions (t : Tables) : List Version :=
  t.links.flatMap fun l => (t.blobs.filter fun b => b.id == l.blob).map (Version.ofRows l)

/-- The versions of a node whose blobs belong to the owner. -/
def versionsOf (t : Tables) (owner : OwnerId) (node : NodeId) : List Version :=
  t.versions.filter fun v => v.node == node && v.owner == owner

/-- The history of a node, newest first. -/
def history (t : Tables) (owner : OwnerId) (node : NodeId) : List Version :=
  (t.versionsOf owner node).mergeSort Version.newestFirst

/-- The first page of the history. -/
def newestVersions (t : Tables) (owner : OwnerId) (node : NodeId) (limit : Nat) : List Version :=
  (t.history owner node).take limit

/-- The page of the history that follows a version, which need not exist any more. -/
def versionsAfter (t : Tables) (owner : OwnerId) (last : Version) (limit : Nat) :
    List Version :=
  ((t.history owner last.node).filter fun v => v.order last == .lt).take limit

/-- One version of a node. -/
def version? (t : Tables) (owner : OwnerId) (node : NodeId) (blob : BlobId) : Option Version :=
  (t.versionsOf owner node).find? fun v => v.blob == blob

/-- The length of the history. -/
def countVersions (t : Tables) (owner : OwnerId) (node : NodeId) : Nat :=
  (t.versionsOf owner node).length

/-! ## Linking -/

/-- Does the blob belong to the owner? -/
def ownsBlob (t : Tables) (owner : OwnerId) (blob : BlobId) : Bool :=
  t.blobs.any fun b => b.id == blob && b.owner == owner

/-- Links a blob of the owner to a file of the owner. None is the answer if nothing was linked,
also for a link that exists. -/
def link (time : Instant) (owner : OwnerId) (node : NodeId) (blob : BlobId) (t : Tables) :
    Option Link × Tables :=
  if t.ownsBlob owner blob && t.hasKind owner node .file then
    match t.insertLink ⟨node, blob, time⟩ with
    | .ok t' => (some ⟨node, blob, time⟩, t')
    | .error _ => (none, t)
  else (none, t)

/-- Adds a blob and links it to a file of the owner. The blob stays if only its link is
refused. -/
def addVersion (uploaded linked : Instant) (owner : OwnerId) (node : NodeId) (id : BlobId)
    (info : BlobInfo) (t : Tables) : Except ArchiveError Version × Tables :=
  if t.hasKind owner node .file then
    match t.insertBlob ⟨id, info.checksum, info.size, owner, uploaded⟩ with
    | .error c => (.error (.database c), t)
    | .ok t' =>
      match t'.link linked owner node id with
      | (none, t'') => (.error (.insertFailure "link"), t'')
      | (some l, t'') =>
        (.ok ⟨node, id, info.checksum, info.size, owner, uploaded, l.linkedAt⟩, t'')
  else (.error (.insertFailure "file"), t)

/-- Links versions to another file, all at one time. -/
def linkVersions (time : Instant) (target : NodeId) (vs : List Version) (t : Tables) :
    Except ArchiveError Nat × Tables :=
  match t.insertLinks (vs.map fun v => ⟨target, v.blob, time⟩) with
  | .ok t' => (.ok vs.length, t')
  | .error c => (.error (.database c), t)

/-- Links the newest version of `source` to the file `target`. -/
def linkNewest (time : Instant) (owner : OwnerId) (source target : NodeId) (t : Tables) :
    Except ArchiveError Nat × Tables :=
  if t.hasKind owner target .file then
    linkVersions time target (t.newestVersions owner source 1) t
  else (.ok 0, t)

/-- Links every version of `source` to the file `target`. -/
def linkAll (time : Instant) (owner : OwnerId) (source target : NodeId) (t : Tables) :
    Except ArchiveError Nat × Tables :=
  if t.hasKind owner target .file then
    linkVersions time target (t.versionsOf owner source) t
  else (.ok 0, t)

/-! ## Unlinking -/

/-- Is the blob linked to a node other than this one? -/
def isLinkedElsewhere (t : Tables) (node : NodeId) (blob : BlobId) : Bool :=
  t.links.any fun l => l.blob == blob && l.node != node

/-- Removes one link. None is the answer if the owner has no such link. -/
def unlink (owner : OwnerId) (node : NodeId) (blob : BlobId) (t : Tables) :
    Option Unlinked × Tables :=
  if t.hasLink node blob && t.ownsBlob owner blob then
    (some ⟨blob, !t.isLinkedElsewhere node blob⟩,
      t.dropLinks fun l => l.node == node && l.blob == blob)
  else (none, t)

/-- Removes every link from a node to a blob of the owner. The node itself may be gone. -/
def unlinkAll (owner : OwnerId) (node : NodeId) (t : Tables) : List Unlinked × Tables :=
  let isLeaving (l : Link) : Bool := l.node == node && t.ownsBlob owner l.blob
  ((t.links.filter isLeaving).map fun l => ⟨l.blob, !t.isLinkedElsewhere node l.blob⟩,
    t.dropLinks isLeaving)

end VersionedTree.Tables
