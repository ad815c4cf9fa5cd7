import VersionedTree.Config
import VersionedTree.Json.Reader
import VersionedTree.Record

/-!
# Records in JSON

Each record is an object of its fields. It is read from such an object, in which further names
are skipped and a field must not be repeated, or from an array of its fields in order.

## Main definitions

* `toJson` and `ofJson?` in the namespaces of `VersionedTree.Node`, `VersionedTree.Version` and
  the other records — writing and reading.
-/

set_option autoImplicit false

namespace VersionedTree

/-! ## Single values -/

/-- An identifier is written as its text. -/
def Id.toJson {subject : Subject} (i : Id subject) : Json := .string i.text

/-- An identifier is read from any of its spellings. -/
def Id.ofJson? {subject : Subject} (v : Json) : Option (Id subject) := v.string?.bind Id.parse?

/-- A path is written in its user's form. -/
def Path.toJson (p : Path) : Json := .string p.display

/-- A path is read from its user's form. -/
def Path.ofJson? (v : Json) : Option Path := v.string?.bind fun s => (Path.parse s).toOption

/-- An instant is written as its count of microseconds. -/
def Instant.toJson (t : Instant) : Json := .integer t.micros

/-- An instant is read from its count of microseconds. -/
def Instant.ofJson? (v : Json) : Option Instant := v.int64?.map Instant.mk

/-- A kind is written as its name. -/
def Kind.toJson (k : Kind) : Json := .string k.text

/-- A kind is read from its name, alone or as the only name of an object without a value. -/
def Kind.ofJson? : Json → Option Kind
  | .string s => Kind.parse? s
  | .object [(name, .null)] => Kind.parse? name
  | _ => none

/-! ## Records -/

/-- A node as an object. -/
def Node.toJson (n : Node) : Json := .object [("object_id", n.id.toJson),
  ("object_type", n.kind.toJson), ("path", n.path.toJson), ("owner_id", n.owner.toJson),
  ("created_at", n.createdAt.toJson)]

/-- Reads a node. -/
def Node.ofJson? (v : Json) : Option Node := do
  match ← v.fields? ["object_id", "object_type", "path", "owner_id", "created_at"] with
  | [some id, some kind, some path, some owner, some time] =>
    return ⟨← Id.ofJson? id, ← Kind.ofJson? kind, ← Path.ofJson? path, ← Id.ofJson? owner,
      ← Instant.ofJson? time⟩
  | _ => none

/-- A declaration as an object. -/
def BlobInfo.toJson (b : BlobInfo) : Json :=
  .object [("checksum", .string b.checksum), ("size", .integer b.size)]

/-- Reads a declaration. -/
def BlobInfo.ofJson? (v : Json) : Option BlobInfo := do
  match ← v.fields? ["checksum", "size"] with
  | [some checksum, some size] => return ⟨← checksum.string?, ← size.int64?⟩
  | _ => none

/-- A version as an object. -/
def Version.toJson (v : Version) : Json := .object [("object_id", v.node.toJson),
  ("file_id", v.blob.toJson), ("checksum", .string v.checksum), ("size", .integer v.size),
  ("owner_id", v.owner.toJson), ("uploaded_at", v.uploadedAt.toJson),
  ("linked_at", v.linkedAt.toJson)]

/-- Reads a version. -/
def Version.ofJson? (v : Json) : Option Version := do
  match ← v.fields? ["object_id", "file_id", "checksum", "size", "owner_id", "uploaded_at",
    "linked_at"] with
  | [some node, some blob, some checksum, some size, some owner, some uploaded, some linked] =>
    return ⟨← Id.ofJson? node, ← Id.ofJson? blob, ← checksum.string?, ← size.int64?,
      ← Id.ofJson? owner, ← Instant.ofJson? uploaded, ← Instant.ofJson? linked⟩
  | _ => none

/-- A link as an object. -/
def Link.toJson (l : Link) : Json := .object [("object_id", l.node.toJson),
  ("file_id", l.blob.toJson), ("linked_at", l.linkedAt.toJson)]

/-- Reads a link. -/
def Link.ofJson? (v : Json) : Option Link := do
  match ← v.fields? ["object_id", "file_id", "linked_at"] with
  | [some node, some blob, some linked] =>
    return ⟨← Id.ofJson? node, ← Id.ofJson? blob, ← Instant.ofJson? linked⟩
  | _ => none

/-- A removed link as an object. -/
def Unlinked.toJson (u : Unlinked) : Json :=
  .object [("file_id", u.blob.toJson), ("orphaned", .bool u.orphaned)]

/-- Reads a removed link. -/
def Unlinked.ofJson? (v : Json) : Option Unlinked := do
  match ← v.fields? ["file_id", "orphaned"] with
  | [some blob, some orphaned] => return ⟨← Id.ofJson? blob, ← orphaned.bool?⟩
  | _ => none

/-- A copied node as an object. -/
def CopiedNode.toJson (c : CopiedNode) : Json := .object [("source_id", c.source.toJson),
  ("destination_id", c.destination.toJson), ("object_type", c.kind.toJson)]

/-- Reads a copied node. -/
def CopiedNode.ofJson? (v : Json) : Option CopiedNode := do
  match ← v.fields? ["source_id", "destination_id", "object_type"] with
  | [some source, some destination, some kind] =>
    return ⟨← Id.ofJson? source, ← Id.ofJson? destination, ← Kind.ofJson? kind⟩
  | _ => none

/-- A pending deletion as an object. -/
def PendingDelete.toJson (p : PendingDelete) : Json := .object [("owner_id", p.owner.toJson),
  ("file_id", p.blob.toJson), ("queued_at", p.queuedAt.toJson)]

/-- Reads a pending deletion. -/
def PendingDelete.ofJson? (v : Json) : Option PendingDelete := do
  match ← v.fields? ["owner_id", "file_id", "queued_at"] with
  | [some owner, some blob, some queued] =>
    return ⟨← Id.ofJson? owner, ← Id.ofJson? blob, ← Instant.ofJson? queued⟩
  | _ => none

/-! ## Configuration -/

/-- A value that may be absent. -/
def optional {α : Type} (read : Json → Option α) : Option Json → Option (Option α)
  | none | some .null => some none
  | some v => (read v).map some

/-- A place for payloads as an object with its type. -/
def BlobStore.toJson : BlobStore → Json
  | memory => .object [("type", .string "memory")]
  | directory path => .object [("type", .string "local"), ("path", .string path)]
  | bucket endpoint accessKey secretKey name region =>
    .object [("type", .string "s3"), ("endpoint", .string endpoint),
      ("access_key", .string accessKey), ("secret_key", .string secretKey),
      ("bucket", .string name), ("region", (region.map Json.string).getD .null)]

/-- The fields of a place for payloads, for the given type. -/
def BlobStore.ofFields? (type : String) (v : Json) : Option BlobStore :=
  if type = "memory" then
    match v with
    | .array (_ :: _) => none
    | _ => some .memory
  else if type = "local" then do
    match ← v.fields? ["path"] with
    | [some path] => return .directory (← path.string?)
    | _ => none
  else if type = "s3" then do
    match ← v.fields? ["endpoint", "access_key", "secret_key", "bucket", "region"] with
    | [some endpoint, some accessKey, some secretKey, some name, region] =>
      return .bucket (← endpoint.string?) (← accessKey.string?) (← secretKey.string?)
        (← name.string?) (← optional Json.string? region)
    | _ => none
  else none

/-- At most so many arrays and objects are around another in a value that is kept. -/
def Json.maxDepth : Nat := 127

/-- Reads a place for payloads: an object whose field `type` tells which fields it has, or an
array that begins with the type. All of it is kept until the type is known. -/
def BlobStore.ofJson? (v : Json) : Option BlobStore :=
  if !v.isWhole Json.maxDepth then none
  else match v with
    | .object entries =>
      match Json.field? entries "type" with
      | some (some (.string type)) =>
        ofFields? type (.object (entries.filter fun e => e.1 != "type"))
      | _ => none
    | .array (.string type :: rest) => ofFields? type (.array rest)
    | _ => none

/-- A configuration as an object. -/
def Config.toJson (c : Config) : Json := .object [("owner_id", c.owner.toJson),
  ("log_level", .string c.logLevel), ("log_dir", (c.logDir.map Json.string).getD .null),
  ("blob_store", (c.blobStore.map BlobStore.toJson).getD .null)]

/-- The fields of a configuration; all but the owner may be absent, at the end of an array as
well. -/
def Config.fields? : Json → Option (List (Option Json))
  | .object entries =>
    ["owner_id", "log_level", "log_dir", "blob_store"].mapM (Json.field? entries)
  | .array items =>
    if items.length ≤ 4 then
      some (items.map some ++ List.replicate (4 - items.length) none)
    else none
  | _ => none

/-- Reads a configuration. -/
def Config.ofJson? (v : Json) : Option Config := do
  match ← Config.fields? v with
  | [some owner, level, dir, store] =>
    let level ← match level with
      | none => some Config.defaultLogLevel
      | some l => l.string?
    return ⟨← Id.ofJson? owner, level, ← optional Json.string? dir,
      ← optional BlobStore.ofJson? store⟩
  | _ => none

end VersionedTree
