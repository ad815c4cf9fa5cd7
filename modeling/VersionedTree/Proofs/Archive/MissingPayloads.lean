import VersionedTree.Proofs.Archive.Transactions
import VersionedTree.Proofs.Payload

/-!
# The report of a missing payload is not observed

A payload store may report the deletion of a missing key as a success, or as an object that is
missing at some location. As long as the location ends in the text of the key, no operation tells
the two apart: not by its answer, not by the tables, and not by the payloads that it leaves.

## Main definitions

* `VersionedTree.Key.Ends` — locations that end in the text of a key.
* `VersionedTree.Step.reporting` — a step over a store with another report of missing keys.
* `VersionedTree.Archive.answers` — the answers to the steps of a history.

## Main results

* `VersionedTree.Key.blobOfLocation?_of_ends` — a location that ends in a key names its blob,
  whatever dots and slashes come before.
* `VersionedTree.Payloads.deleteMany_silent` — a batch of deletions, with repeated and missing
  keys, has one report and one outcome.
* `VersionedTree.Operation.run_silent` — the same of an operation.
* `VersionedTree.Archive.reports_unobservable` — the same of a history.

## Design

A store that reports missing keys is compared with the same store that does not
(`VersionedTree.Backend.silent`). The two fail at the same puts, reads and deletions.
-/

set_option autoImplicit false

namespace VersionedTree

/-! ## Locations -/

/-- Does the location end in the text of the key? -/
def Key.Ends (k : Key) (location : String) : Prop := k.text.toList <:+ location.toList

/-- **A location that ends in a key** names the blob of the key. -/
theorem Key.blobOfLocation?_of_ends {k : Key} {location : String} (h : k.Ends location) :
    blobOfLocation? location = some k.blob := by
  obtain ⟨before, hbefore⟩ := h
  have htext : location.toList =
      (before ++ k.owner.text.toList) ++ '.' :: k.blob.text.toList := by
    rw [← hbefore]
    simp [text]
  have hdot : '.' ∉ k.blob.text.toList := Uuid.dot_not_mem_text k.blob.uuid
  rw [blobOfLocation?, htext, afterLastDot?_append _ hdot, Option.bind_some,
    String.ofList_toList, Id.parse?_text]

namespace Backend

/-- The behaviour with the given report of missing keys. -/
def reporting (report : Option (Key → String)) (b : Backend) : Backend :=
  { b with missingAt := report }

/-- The behaviour without a report of missing keys. -/
def silent (b : Backend) : Backend := b.reporting none

/-- A silent store fails to delete the same keys. -/
@[simp] lemma silent_deleteFault (b : Backend) : b.silent.deleteFault = b.deleteFault := rfl

/-- A silent store reports no missing key. -/
@[simp] lemma silent_missingAt (b : Backend) : b.silent.missingAt = none := rfl

/-- Do the locations at which missing keys are reported end in these keys? -/
def NamesKeys (b : Backend) : Prop := ∀ location ∈ b.missingAt, ∀ k : Key, k.Ends (location k)

/-- A store that reports missing keys at locations that end in them names its keys. -/
lemma namesKeys_reporting {b : Backend} {location : Key → String}
    (h : ∀ k : Key, k.Ends (location k)) : (b.reporting (some location)).NamesKeys := by
  rintro _ ⟨⟩
  exact h

end Backend

/-! ## Deletions -/

namespace Payloads

variable {b : Backend}

/-- The deletion of a key leaves the same payloads behind, and confirms the same blob. -/
lemma deleteKey_silent (h : b.NamesKeys) (k : Key) (p : Payloads) :
    (p.deleteKey b k).1.confirmed? = (p.deleteKey b.silent k).1.confirmed? ∧
      (p.deleteKey b k).2 = (p.deleteKey b.silent k).2 := by
  cases hfault : b.deleteFault k with
  | some what => simp only [deleteKey, Backend.silent_deleteFault, hfault, and_self]
  | none =>
    refine ⟨?_, by rw [deleteKey_eq_erase hfault, deleteKey_eq_erase (b := b.silent) hfault]⟩
    have hquiet : (p.deleteKey b.silent k).1 = .deleted k.text := by
      simp [deleteKey, hfault]
    rw [hquiet]
    unfold deleteKey
    simp only [hfault]
    split
    · next location _ hreport =>
      have hends := Key.blobOfLocation?_of_ends (h location hreport k)
      exact hends.trans k.blobOfLocation?_text.symm
    · rfl

/-- A deletion that meets no fault succeeds, whether there is a payload or not. -/
lemma delete_eq_ok {k : Key} (h : b.deleteFault k = none) (p : Payloads) :
    p.delete b k = (.ok (), p.erase k) := by
  refine Prod.ext ?_ (delete_eq_erase h)
  unfold delete deleteKey
  simp only [h]
  split
  · next e => split at e <;> cases e
  · rfl

/-- The deletion of one payload has one result, since a missing one counts as deleted. -/
lemma delete_silent (b : Backend) (k : Key) (p : Payloads) :
    p.delete b k = p.delete b.silent k := by
  cases hfault : b.deleteFault k with
  | some what => simp only [delete, deleteKey, Backend.silent_deleteFault, hfault]
  | none => rw [delete_eq_ok hfault, delete_eq_ok (b := b.silent) hfault]

/-- Deletions in turn confirm the same blobs and leave the same payloads, reported or not. -/
lemma deleteKeys_silent (h : b.NamesKeys) (keys : List Key) (p : Payloads) :
    (deleteKeys b keys p).1.filterMap Deletion.confirmed? =
        (deleteKeys b.silent keys p).1.filterMap Deletion.confirmed? ∧
      (deleteKeys b keys p).2 = (deleteKeys b.silent keys p).2 := by
  induction keys generalizing p with
  | nil => exact ⟨rfl, rfl⟩
  | cons k rest ih =>
    obtain ⟨hconfirmed, hstore⟩ := deleteKey_silent h k p
    obtain ⟨hrest, hstores⟩ := ih (p.deleteKey b.silent k).2
    simp only [deleteKeys, List.filterMap_cons, hconfirmed, hstore, hrest, hstores, and_self]

/-- **A batch of deletions** has one report and one outcome, whether missing keys are reported or
not. -/
theorem deleteMany_silent (h : b.NamesKeys) (owner : OwnerId) (blobs : List BlobId)
    (p : Payloads) : p.deleteMany b owner blobs = p.deleteMany b.silent owner blobs := by
  obtain ⟨hconfirmed, hstore⟩ := deleteKeys_silent h (blobs.map (Key.mk owner)) p
  simp only [deleteMany, DeleteReport.ofDeletions, hconfirmed, hstore]

end Payloads

/-! ## Operations -/

/-- The surroundings with the given report of missing keys. -/
def Env.reporting (report : Option (Key → String)) (env : Env) : Env :=
  { env with backend := env.backend.reporting report }

/-- The surroundings without a report of missing keys. -/
def Env.silent (env : Env) : Env := env.reporting none

namespace Archive

variable {env : Env}

/-- A payload is discarded without a look at what the store reports. -/
lemma discard_silent (env : Env) (key : Key) (a : Archive) :
    a.discard env key = a.discard env.silent key := by
  have hdelete := Payloads.delete_silent env.backend key a.payloads
  unfold discard
  rw [hdelete]
  rfl

/-- An upload deletes its payload at most when it fails, and tells nothing about that. -/
lemma upload_silent (env : Env) (owner : OwnerId) (info : BlobInfo) (stream : List Chunk)
    (a : Archive) : a.upload env owner info stream = a.upload env.silent owner info stream := by
  have hput (k : Key) : a.payloads.putStream env.silent.backend k stream =
      a.payloads.putStream env.backend k stream := rfl
  simp only [upload, hput, discard_silent env]
  rfl

/-- A payload that could not be recorded is discarded in the same way. -/
lemma keepIfRecorded_silent {α : Type} (env : Env) (owner : OwnerId)
    (r : Except ArchiveError α × Archive) :
    keepIfRecorded env owner r = keepIfRecorded env.silent owner r := by
  obtain ⟨_ | x, a⟩ := r
  · simp only [keepIfRecorded, discard_silent env]
    rfl
  · rfl

/-- The creation of a file does not depend on reports of missing keys. -/
lemma createFile_silent (env : Env) (owner : OwnerId) (path : Path) (info : BlobInfo)
    (stream : List Chunk) (a : Archive) :
    a.createFile env owner path info stream = a.createFile env.silent owner path info stream := by
  simp only [createFile, upload_silent env, keepIfRecorded_silent env]
  rfl

/-- Neither does a new version. -/
lemma addVersion_silent (env : Env) (owner : OwnerId) (node : Node) (info : BlobInfo)
    (stream : List Chunk) (a : Archive) :
    a.addVersion env owner node info stream = a.addVersion env.silent owner node info stream := by
  simp only [addVersion, upload_silent env, keepIfRecorded_silent env]
  rfl

/-- The links of copies have nothing to do with the payload store. -/
lemma linkCopies_silent (env : Env) (owner : OwnerId) (onlyNewest : Bool) (k : Nat)
    (copies : List CopiedNode) (t : Tables) :
    linkCopies env owner onlyNewest k copies t =
      linkCopies env.silent owner onlyNewest k copies t := by
  induction copies generalizing k t with
  | nil => rfl
  | cons copy rest ih =>
    simp only [linkCopies, ih]
    rfl

/-- A copy has nothing to do with the payload store. -/
lemma copy_silent (env : Env) (owner : OwnerId) (node : Node) (target : Path)
    (onlyNewest : Bool) (a : Archive) :
    a.copy env owner node target onlyNewest = a.copy env.silent owner node target onlyNewest := by
  have hstatements : copyStatements env owner node target onlyNewest =
      copyStatements env.silent owner node target onlyNewest := by
    funext t
    simp only [copyStatements, linkCopies_silent env]
    rfl
  rw [copy, hstatements]
  rfl

/-- The release of blobs has the same report, and leaves the same archive. -/
lemma release_silent (h : env.backend.NamesKeys) (owner : OwnerId) (blobs : List BlobId)
    (a : Archive) : a.release env owner blobs = a.release env.silent owner blobs := by
  have hdeletes := Payloads.deleteMany_silent h owner blobs a.payloads
  unfold release
  rw [hdeletes]
  rfl

/-- A removal of nodes has the same answer, and leaves the same archive. -/
lemma remove_silent (h : env.backend.NamesKeys) (owner : OwnerId) (node : Node)
    (recursive : Bool) (a : Archive) :
    a.remove env owner node recursive = a.remove env.silent owner node recursive := by
  simp only [remove, release_silent h]
  rfl

/-- So does the removal of a version. -/
lemma removeVersion_silent (h : env.backend.NamesKeys) (owner : OwnerId) (node : Node)
    (blob : BlobId) (a : Archive) :
    a.removeVersion env owner node blob = a.removeVersion env.silent owner node blob := by
  simp only [removeVersion, release_silent h]
  rfl

/-- Releases for several owners have the same reports, and leave the same archive. -/
lemma releaseAll_silent (h : env.backend.NamesKeys) (batches : List (OwnerId × List BlobId))
    (a : Archive) : releaseAll env batches a = releaseAll env.silent batches a := by
  induction batches generalizing a with
  | nil => rfl
  | cons batch rest ih => simp only [releaseAll, release_silent h, ih]

end Archive

/-- **An operation** has one result and leaves one archive, whether missing keys are reported or
not. -/
theorem Operation.run_silent {env : Env} (h : env.backend.NamesKeys) (owner : OwnerId)
    (op : Operation) (a : Archive) : op.run env owner a = op.run env.silent owner a := by
  cases op with
  | createFile path info stream =>
    exact congrArg (answer .file) (a.createFile_silent env owner path info stream)
  | addVersion node info stream =>
    exact congrArg (answer .version) (a.addVersion_silent env owner node info stream)
  | copy node target onlyNewest =>
    exact congrArg (answer .copies) (a.copy_silent env owner node target onlyNewest)
  | remove node recursive =>
    exact congrArg (answer .removal) (Archive.remove_silent h owner node recursive a)
  | removeVersion node blob =>
    exact congrArg (answer .removal) (Archive.removeVersion_silent h owner node blob a)
  | sweep limit =>
    exact congrArg (fun r => answer .report (r.map .ok id)) (Archive.releaseAll_silent h _ a)
  | _ => rfl

/-! ## Histories -/

/-- The step with the given report of missing keys. -/
def Step.reporting (report : Option (Key → String)) (s : Step) : Step :=
  { s with env := s.env.reporting report }

namespace Archive

/-- The answers to the steps of a history. -/
def answers : List Step → Archive → List (Except ArchiveError Operation.Answer)
  | [], _ => []
  | s :: rest, a => (s.operation.run s.env s.owner a).1 :: answers rest (s.apply a)

/-- **The report of a missing payload is not observed.** From every archive, and over every
history of operations of any owners with any failures, a store that deletes missing keys with
success and a store that reports each of them missing, at some location that ends in the key and
may differ from step to step, lead to the same answers, tables and payloads.

**Proof sketch.** Induction on the history, each step of which has one result over both stores. -/
theorem reports_unobservable (history : List (Step × (Key → String)))
    (h : ∀ s ∈ history, ∀ k : Key, k.Ends (s.2 k)) (a : Archive) :
    let succeeding := history.map fun s => s.1.reporting none
    let missing := history.map fun s => s.1.reporting (some s.2)
    answers missing a = answers succeeding a ∧ a.after missing = a.after succeeding := by
  intro succeeding missing
  induction history generalizing a with
  | nil => exact ⟨rfl, rfl⟩
  | cons s rest ih =>
    rw [List.forall_mem_cons] at h
    have hstep : s.1.operation.run (s.1.env.reporting (some s.2)) s.1.owner a =
        s.1.operation.run (s.1.env.reporting none) s.1.owner a :=
      Operation.run_silent (Backend.namesKeys_reporting h.1) s.1.owner s.1.operation a
    have happly : (s.1.reporting (some s.2)).apply a = (s.1.reporting none).apply a :=
      congrArg Prod.snd hstep
    obtain ⟨hanswers, hafter⟩ := ih h.2 ((s.1.reporting none).apply a)
    refine ⟨?_, ?_⟩
    · refine List.cons_eq_cons.2 ⟨congrArg Prod.fst hstep, ?_⟩
      rw [happly]
      exact hanswers
    · change ((s.1.reporting (some s.2)).apply a).after _ = _
      rw [happly]
      exact hafter

end Archive

/-! ### A ledger whose payload is gone -/

/-- The ledger has a blob, and no payload is there. -/
def Archive.forgotten : Archive :=
  ⟨{ Tables.empty with pending := [⟨⟨.ofNat 1⟩, ⟨.ofNat 9⟩, default⟩] }, .empty⟩

/-- An upload breaks off before anything is stored, and pending deletions are tried again. Missing
keys are reported at paths with dots and slashes. -/
def Step.afterLoss : List (Step × (Key → String)) :=
  let brokenOff : List Chunk := [.data ⟨#[7]⟩, .failure "connection reset"]
  [(⟨.numbered 2, ⟨.ofNat 1⟩, .createFile ⟨"a"⟩ ⟨"sum", 2⟩ brokenOff⟩,
      fun k => "/srv/blobs.d/" ++ k.text),
    (⟨.numbered 3, ⟨.ofNat 1⟩, .sweep 10⟩, fun k => "s3://bucket/v1.2/" ++ k.text)]

/-- The sweep confirms the blob over both stores, and the ledger is empty after it. -/
theorem Archive.reports_unobservable_afterLoss :
    let succeeding := Step.afterLoss.map fun s => s.1.reporting none
    let missing := Step.afterLoss.map fun s => s.1.reporting (some s.2)
    (∀ s ∈ Step.afterLoss, ∀ k : Key, k.Ends (s.2 k)) ∧
      answers missing forgotten = answers succeeding forgotten ∧
      forgotten.after missing = forgotten.after succeeding ∧
      (forgotten.after missing).tables.pending = [] := by
  intro succeeding missing
  have hends (before : String) (k : Key) : k.Ends (before ++ k.text) :=
    ⟨before.toList, String.toList_append.symm⟩
  have hnames : ∀ s ∈ Step.afterLoss, ∀ k : Key, k.Ends (s.2 k) := by
    simp only [Step.afterLoss, List.forall_mem_cons]
    exact ⟨hends _, hends _, fun _ h => by cases h⟩
  obtain ⟨hanswers, hafter⟩ := reports_unobservable Step.afterLoss hnames forgotten
  exact ⟨hnames, hanswers, hafter, by decide +kernel⟩

end VersionedTree
