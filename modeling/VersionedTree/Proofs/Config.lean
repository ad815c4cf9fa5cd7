import VersionedTree.Proofs.Id
import VersionedTree.Proofs.Toml.Documents

/-!
# Configurations are read back

The document of a configuration is a list of lines that name strings, with a table at its end if
there is a place for payloads. So it is read as the same configuration, whatever the strings are.

## Main definitions

* `VersionedTree.Config.fields`, `VersionedTree.BlobStore.fields` — the named strings.

## Main results

* `VersionedTree.BlobStore.ofEntries?_fields` — places for payloads are read back.
* `VersionedTree.Config.parse?_render` — configurations are read back.
-/

set_option autoImplicit false

namespace VersionedTree

open Toml

/-- A field that may be absent. -/
def optionalField (name : String) (text : Option String) : List (String × String) :=
  text.toList.map fun text => (name, text)

/-- The named strings of a place for payloads. -/
def BlobStore.fields : BlobStore → List (String × String)
  | memory => [("type", "memory")]
  | directory path => [("type", "local"), ("path", path)]
  | bucket endpoint accessKey secretKey name region =>
    [("type", "s3"), ("endpoint", endpoint), ("access_key", accessKey),
      ("secret_key", secretKey), ("bucket", name)] ++ optionalField "region" region

/-- The named strings of a configuration in front of the table. -/
def Config.fields (c : Config) : List (String × String) :=
  [("owner_id", c.owner.text), ("log_level", c.logLevel)] ++ optionalField "log_dir" c.logDir

/-- The lines of a configuration. -/
def Config.documentLines (c : Config) : List Line :=
  c.fields.map (fun field => .field field.1 field.2) ++
    match c.blobStore with
    | none => []
    | some store =>
      [.blank, .header "blob_store"] ++ store.fields.map fun field => .field field.1 field.2

/-- A configuration is written line by line. -/
lemma Config.toList_render (c : Config) :
    c.render.toList = c.documentLines.flatMap fun l => l.text.toList := by
  obtain ⟨owner, level, dir, store⟩ := c
  cases dir <;> rcases store with _ | _ | path | ⟨endpoint, accessKey, secretKey, name, _ | region⟩
  all_goals
    simp [Config.render, Config.documentLines, Config.fields, BlobStore.fields, BlobStore.lines,
      optionalField, optionalLine, Line.text]

/-- No name needs quotes, and none is used twice. -/
lemma BlobStore.fields_named (store : BlobStore) :
    (∀ name ∈ store.fields.map Prod.fst, IsName name) ∧ (store.fields.map Prod.fst).Nodup := by
  rcases store with _ | path | ⟨endpoint, accessKey, secretKey, name, _ | region⟩
  all_goals
    simp only [BlobStore.fields, optionalField, Option.toList, List.map_cons, List.map_nil,
      List.cons_append, List.nil_append]
    decide

/-- The fields of a configuration have names, which differ from each other and from that of the
table for the store. -/
lemma Config.fields_named (c : Config) :
    (∀ name ∈ c.fields.map Prod.fst, IsName name) ∧
      (c.fields.map Prod.fst ++ ["blob_store"]).Nodup := by
  obtain ⟨owner, level, dir, store⟩ := c
  cases dir
  all_goals
    simp only [Config.fields, optionalField, Option.toList, List.map_cons, List.map_nil,
      List.cons_append, List.nil_append]
    decide

/-- All names are written without quotes. -/
lemma Config.isNamed_documentLines (c : Config) : ∀ l ∈ c.documentLines, l.IsNamed := by
  have hfields {named : List (String × String)} (h : ∀ name ∈ named.map Prod.fst, IsName name) :
      ∀ l ∈ named.map fun field => Line.field field.1 field.2, l.IsNamed := by
    rw [List.forall_mem_map]
    exact fun field hf => h _ (List.mem_map_of_mem hf)
  unfold documentLines
  rw [List.forall_mem_append]
  refine ⟨hfields c.fields_named.1, ?_⟩
  cases c.blobStore with
  | none => exact List.forall_mem_nil _
  | some store =>
    have hheader : IsName "blob_store" := by decide
    exact List.forall_mem_append.2 ⟨by simpa [Line.IsNamed] using hheader,
      hfields store.fields_named.1⟩

/-- The entries of a document. -/
def Config.entries (c : Config) : Entries :=
  match c.blobStore with
  | none => Toml.fields c.fields
  | some store => withTable "blob_store" (Toml.fields c.fields) (Toml.fields store.fields)

/-- **The document** of a configuration is read as a table of its named strings.

**Proof sketch.** The strings in front of the table are added to the document, and those of the
table to the table. No name is there before. -/
theorem Config.toml_parse?_render (c : Config) : Toml.parse? c.render = some c.entries := by
  have hstrings (named : List (String × String)) :
      (named.map fun field => Line.field field.1 field.2).filterMap Line.statement? =
        assignments named := by
    rw [List.filterMap_map]
    exact congrFun List.filterMap_eq_map named
  have hput (change : Entries → Option Entries) (entries : Entries) :
      within? change [] (id entries) = (change entries).map id := by
    rw [Option.map_id]
    rfl
  have hnodup := List.nodup_append.1 c.fields_named.2
  have hfirst (more : List Toml.Statement) :
      buildFrom? (assignments c.fields ++ more) [] [] =
        buildFrom? more [] (Toml.fields c.fields) :=
    buildFrom?_assignments hput c.fields more hnodup.1
  have htitle : "blob_store" ∉ (Toml.fields c.fields).map Prod.fst := by
    rw [Toml.fields, List.map_map]
    exact fun h => hnodup.2.2 _ h _ List.mem_cons_self rfl
  rw [Toml.parse?, c.toList_render, statements?_flatMap c.isNamed_documentLines, Option.bind_some,
    documentLines, List.filterMap_append, hstrings, build?, hfirst, entries]
  cases c.blobStore with
  | none => rfl
  | some store =>
    have hnew : (([] : Entries).map Prod.fst ++ store.fields.map Prod.fst).Nodup :=
      store.fields_named.2
    have hsecond := buildFrom?_assignments (within?_withTable htitle) store.fields [] hnew
    have hheader : List.filterMap Line.statement? ([Line.blank, Line.header "blob_store"] ++
        store.fields.map fun field => Line.field field.1 field.2) =
          .table ⟨[], "blob_store"⟩ :: assignments store.fields := by
      rw [List.filterMap_append, hstrings]
      rfl
    have hopen : openTable? "blob_store" [] (Toml.fields c.fields) =
        some (withTable "blob_store" (Toml.fields c.fields) []) := by
      rw [openTable?, find?_eq_none htitle, withTable]
    simp only [hheader]
    rw [buildFrom?, hopen, Option.bind_some]
    rw [List.append_nil] at hsecond
    exact hsecond

/-- **Places for payloads** are read back. -/
theorem BlobStore.ofEntries?_fields (store : BlobStore) :
    BlobStore.ofEntries? (Toml.fields store.fields) = some store := by
  rcases store with _ | path | ⟨endpoint, accessKey, secretKey, name, _ | region⟩
  all_goals
    simp [BlobStore.ofEntries?, BlobStore.fields, Toml.fields, optionalField, requiredOf?,
      fieldOf?, textOf?, find?]

/-- **Configurations** are read back. -/
theorem Config.parse?_render (c : Config) : Config.parse? c.render = some c := by
  rw [Config.parse?, c.toml_parse?_render, Option.bind_some]
  obtain ⟨owner, level, dir, store⟩ := c
  cases store with
  | none =>
    cases dir
    all_goals
      simp [Config.ofEntries?, Config.entries, Config.fields, Toml.fields, optionalField,
        requiredOf?, fieldOf?, find?, idOf?, Id.parse?_text, textOf?]
  | some store =>
    have hstore := store.ofEntries?_fields
    change Config.ofEntries? (withTable "blob_store" _ (Toml.fields store.fields)) = _
    generalize Toml.fields store.fields = table at hstore ⊢
    cases dir
    all_goals
      simp [Config.ofEntries?, Config.fields, Toml.fields, optionalField, withTable, requiredOf?,
        fieldOf?, find?, idOf?, Id.parse?_text, textOf?, BlobStore.ofToml?, hstore]

end VersionedTree
