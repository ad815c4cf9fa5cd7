import VersionedTree.Json.Record
import VersionedTree.Tables

/-!
# The text of tables

Tables are kept in a file as one JSON object with the rows of each table. Paths are kept in their
stored form.

## Main definitions

* `VersionedTree.Tables.render` — the text of tables.
* `VersionedTree.Tables.parse?` — the tables of a text.
-/

set_option autoImplicit false

namespace VersionedTree

/-! ## Rows -/

/-- A node as a row. -/
def Node.toRow (n : Node) : Json :=
  .array [n.id.toJson, n.kind.toJson, .string n.path.encoded, n.owner.toJson, n.createdAt.toJson]

/-- The node of a row. -/
def Node.ofRow? : Json → Option Node
  | .array [id, kind, .string path, owner, time] => do
    return ⟨← Id.ofJson? id, ← Kind.ofJson? kind, ⟨path⟩, ← Id.ofJson? owner,
      ← Instant.ofJson? time⟩
  | _ => none

/-- A blob as a row. -/
def Blob.toRow (b : Blob) : Json :=
  .array [b.id.toJson, .string b.checksum, .integer b.size, b.owner.toJson, b.uploadedAt.toJson]

/-- The blob of a row. -/
def Blob.ofRow? : Json → Option Blob
  | .array [id, .string checksum, .integer size, owner, time] => do
    return ⟨← Id.ofJson? id, checksum, size, ← Id.ofJson? owner, ← Instant.ofJson? time⟩
  | _ => none

/-! ## Tables -/

/-- The rows of one table. -/
def rowsOf? {α : Type} (row? : Json → Option α) (name : String) (v : Json) : Option (List α) :=
  match v.get? name with
  | some (.array rows) => rows.mapM row?
  | _ => none

namespace Tables

/-- Tables as an object. -/
def toJson (t : Tables) : Json := .object [
  ("tree", .array (t.nodes.map Node.toRow)),
  ("blobs", .array (t.blobs.map Blob.toRow)),
  ("links", .array (t.links.map Link.toJson)),
  ("pending", .array (t.pending.map PendingDelete.toJson))]

/-- The tables of an object. -/
def ofJson? (v : Json) : Option Tables := do
  return ⟨← rowsOf? Node.ofRow? "tree" v, ← rowsOf? Blob.ofRow? "blobs" v,
    ← rowsOf? Link.ofJson? "links" v, ← rowsOf? PendingDelete.ofJson? "pending" v⟩

/-- The text of tables. -/
def render (t : Tables) : String := t.toJson.render

/-- The tables of a text. The empty text has none. -/
def parse? (text : String) : Option Tables :=
  if text.toList.isEmpty then some .empty else (Json.parse? text).bind ofJson?

end Tables

end VersionedTree
