import VersionedTree.Archive.Removal
import VersionedTree.Text.Blank
import VersionedTree.Text.Column

/-!
# Reports

The texts in which commands answer.

## Main definitions

* `VersionedTree.Report.listing` — the children of a container, a line each.
* `VersionedTree.Report.history` — a page of the history of a file.
* `VersionedTree.Report.content` — a version, as text or as bytes.
* `VersionedTree.Report.removal` — what a removal touched.
-/

set_option autoImplicit false

namespace VersionedTree.Report

/-- Lines with a line feed between them. -/
def lines (ls : List String) : String := "\n".intercalate ls

/-- The last segment of the path of a node; nothing for the root. -/
def nameOf (n : Node) : String := n.path.name.getD ""

/-- The line of a child: its kind, the size and time of its newest version, and its name. The name
of a container is followed by a slash. -/
def entryLine (e : Entry) : String :=
  match e.node.kind, e.newest with
  | .file, some v =>
    Text.padEnd 5 "FILE" ++ " " ++ Text.padStart 10 (toString v.size) ++ "  " ++ v.linkedAt.text
      ++ "  " ++ nameOf e.node
  | .file, none =>
    Text.padEnd 5 "FILE" ++ " " ++ Text.padStart 10 "-" ++ "  " ++ nameOf e.node
  | kind, _ =>
    Text.padEnd 5 kind.text ++ " " ++ Text.padStart 10 "" ++ "  " ++ nameOf e.node ++ "/"

/-- The lines of the children. The text has no blanks at its end. -/
def listing (es : List Entry) : String :=
  if es.isEmpty then "No items found"
  else Text.trimEnd (String.join (es.map fun e => entryLine e ++ "\n"))

/-- The line of a version: its blob, size, time and checksum. -/
def versionLine (v : Version) : String :=
  v.blob.text ++ "  " ++ Text.padStart 10 (toString v.size) ++ "  " ++ v.linkedAt.text ++ "  "
    ++ v.checksum

/-- The lines of a page of versions. -/
def page (vs : List Version) : List String :=
  if vs.isEmpty then ["No more versions"] else vs.map versionLine

/-- A first page, under the length of the whole history. -/
def history (n : Node) (p : VersionPage) : String :=
  lines ((toString p.total ++ " versions of " ++ n.path.display) :: page p.versions)

/-- The line of a new node. -/
def created (n : Node) : String := "Created " ++ n.path.display ++ " (" ++ n.id.text ++ ")"

/-- The new directories; none were needed if the path was there. -/
def createdDirectories (path : Path) (ns : List Node) : String :=
  if ns.isEmpty then path.display ++ " already exists" else lines (ns.map created)

/-- Bytes as pairs of hexadecimal digits with spaces between them. -/
def hexPairs (bytes : ByteArray) : String :=
  " ".intercalate (bytes.data.toList.map fun b => String.ofList (Hex.ofByte b))

/-- A version under its heading: its text, or its bytes if they are no text. -/
def content (n : Node) (v : Version) (bytes : ByteArray) : String :=
  let heading := "File: " ++ n.path.display ++ "\nVersion: " ++ v.blob.text ++ "\nSize: "
    ++ toString v.size ++ " bytes\n"
  match String.fromUTF8? bytes with
  | some text => heading ++ "\n" ++ text
  | none => heading ++ "Binary content (hex): " ++ hexPairs bytes

/-- What was written into a local file. -/
def written (v : Version) (bytes : ByteArray) (file : String) : String :=
  "Wrote " ++ toString bytes.size ++ " bytes of " ++ v.blob.text ++ " to " ++ file

/-- The count of moved nodes. -/
def moved (source target : Path) (count : Nat) : String :=
  "Moved " ++ source.display ++ " to " ++ target.display ++ " (" ++ toString count ++ " nodes)"

/-- The count of copied nodes. -/
def copied (source target : Path) (count : Nat) : String :=
  "Copied " ++ source.display ++ " to " ++ target.display ++ " (" ++ toString count ++ " nodes)"

/-- What a removal touched, and what is left to do. -/
def removal (r : Removal) : String :=
  "Removed " ++ toString r.removed.length ++ " nodes, released "
    ++ toString (r.orphaned.length - r.pending.length) ++ " blobs"
    ++ if r.pending.isEmpty then ""
      else "\n" ++ toString r.pending.length ++ " blob deletes pending, run 'doctree gc' to retry"

/-- What a sweep reached. -/
def sweep (r : DeleteReport) : String :=
  "Deleted " ++ toString r.deleted.length ++ " blobs, " ++ toString r.failed.length
    ++ " still pending"

end VersionedTree.Report
