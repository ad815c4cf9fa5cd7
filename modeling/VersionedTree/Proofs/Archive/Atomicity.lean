import VersionedTree.Proofs.Archive.Retention

/-!
# Failed operations

An operation that fails leaves no trace. Its statements are undone by their transaction. A payload
that was uploaded before the transaction is deleted again, and as it was stored under a key of its
own, the payloads are then those from before, unless that one deletion fails as well.

## Main definitions

* `VersionedTree.Step.Undoes` — the payload of a step is new, and its deletion meets no fault.

## Main results

* `VersionedTree.Operation.run_eq_of_error` — operations without an upload.
* `VersionedTree.Archive.createFile_undone`, `VersionedTree.Archive.addVersion_undone` — operations
  with an upload.
* `VersionedTree.Step.tables_of_error`, `VersionedTree.Step.apply_of_error` — every failed step.
* `VersionedTree.Step.get?_apply_eq_none` — payloads come from uploads under the new identifier.
* `VersionedTree.Archive.failure_atomic` — failed operations after every history.
-/

set_option autoImplicit false

namespace VersionedTree

namespace Archive

/-! ## Uploads that are undone -/

section Uploads

variable (env : Env) (owner : OwnerId) {a : Archive}
  (hfree : a.payloads.get? ⟨owner, env.blobId⟩ = none)
  (hdelete : env.backend.deleteFault ⟨owner, env.blobId⟩ = none)

include hfree hdelete

/-- Nothing is discarded if nothing was stored. -/
lemma discard_of_free : a.discard env ⟨owner, env.blobId⟩ = a := by
  have h := Payloads.delete_eq_erase (p := a.payloads) hdelete
  rw [Payloads.erase_eq_self hfree] at h
  rw [discard, h]

/-- A stored payload that is discarded leaves no trace. -/
lemma discard_insert (bytes : ByteArray) :
    discard env ⟨owner, env.blobId⟩
      { a with payloads := a.payloads.insert ⟨owner, env.blobId⟩ bytes } = a := by
  have h := Payloads.delete_insert hfree hdelete bytes
  rw [discard, h]

/-- An upload fails without a trace, or stores one payload. -/
lemma upload_undone (info : BlobInfo) (stream : List Chunk) :
    (∃ e, a.upload env owner info stream = (.error e, a)) ∨
      ∃ bytes, a.upload env owner info stream =
        (.ok (), { a with payloads := a.payloads.insert ⟨owner, env.blobId⟩ bytes }) := by
  unfold upload
  simp only
  rcases a.payloads.putStream_cases env.backend ⟨owner, env.blobId⟩ stream
    with ⟨e, h⟩ | ⟨bytes, -, h⟩ <;> rw [h]
  · have hdiscard := discard_of_free env owner hfree hdelete
    exact .inl ⟨e, congrArg (Prod.mk _) hdiscard⟩
  · by_cases hsize : (bytes.size : Int) = info.size
    · exact .inr ⟨bytes, by simp [hsize]⟩
    · have hdiscard := discard_insert env owner hfree hdelete bytes
      exact .inl ⟨_, (if_neg hsize).trans (congrArg (Prod.mk _) hdiscard)⟩

/-- A stored payload whose record fails is discarded without a trace. -/
lemma keepIfRecorded_undone {α : Type} (bytes : ByteArray)
    (body : Tables → Except ArchiveError α × Tables) :
    (∃ e, keepIfRecorded env owner (withTables
        { a with payloads := a.payloads.insert ⟨owner, env.blobId⟩ bytes }
        (a.tables.transact body)) = (.error e, a)) ∨
      ∃ x, (keepIfRecorded env owner (withTables
        { a with payloads := a.payloads.insert ⟨owner, env.blobId⟩ bytes }
        (a.tables.transact body))).1 = .ok x := by
  rcases withTables_transact_cases
      { a with payloads := a.payloads.insert ⟨owner, env.blobId⟩ bytes } body with
    ⟨e, h⟩ | ⟨x, t', -, -, h⟩ <;> rw [h]
  · have hdiscard := discard_insert env owner hfree hdelete bytes
    exact .inl ⟨e, congrArg (Prod.mk _) hdiscard⟩
  · exact .inr ⟨x, rfl⟩

/-- **A new file** that fails leaves no trace. -/
theorem createFile_undone (path : Path) (info : BlobInfo) (stream : List Chunk) :
    (∃ e, a.createFile env owner path info stream = (.error e, a)) ∨
      ∃ x, (a.createFile env owner path info stream).1 = .ok x := by
  unfold createFile
  cases info.validate with
  | error e => exact .inl ⟨e, rfl⟩
  | ok =>
    rcases upload_undone env owner hfree hdelete info stream with ⟨e, h⟩ | ⟨bytes, h⟩
    · exact .inl ⟨e, by simp only [h]⟩
    · simp only [h]
      exact keepIfRecorded_undone env owner hfree hdelete bytes (recordFile env owner path info)

/-- **A new version** that fails leaves no trace. -/
theorem addVersion_undone (node : Node) (info : BlobInfo) (stream : List Chunk) :
    (∃ e, a.addVersion env owner node info stream = (.error e, a)) ∨
      ∃ x, (a.addVersion env owner node info stream).1 = .ok x := by
  unfold addVersion
  split
  · exact .inl ⟨_, rfl⟩
  · cases info.validate with
    | error e => exact .inl ⟨e, rfl⟩
    | ok =>
      simp only
      split
      · exact .inl ⟨_, rfl⟩
      · rcases upload_undone env owner hfree hdelete info stream with ⟨e, h⟩ | ⟨bytes, h⟩
        · exact .inl ⟨e, by simp only [h]⟩
        · simp only [h]
          exact keepIfRecorded_undone env owner hfree hdelete bytes
            (Tables.addVersion (env.now 0) (env.now 1) owner node.id env.blobId info)

end Uploads

end Archive

/-! ## Failed operations -/

namespace Operation

/-- An answer that is an error is the error of the operation. -/
lemma error_of_answer {α : Type} {f : α → Answer} {r : Except ArchiveError α × Archive}
    {e : ArchiveError} (h : (answer f r).1 = .error e) : r.1 = .error e := by
  obtain ⟨_ | x, a'⟩ := r
  · exact congrArg Except.error (Except.error.inj h)
  · cases h

/-- An operation that answers has a result. -/
lemma ok_of_answer {α : Type} {f : α → Answer} {r : Except ArchiveError α × Archive} {x : Answer}
    (h : (answer f r).1 = .ok x) : ∃ y, r.1 = .ok y ∧ f y = x := by
  obtain ⟨_ | y, a'⟩ := r
  · cases h
  · exact ⟨y, rfl, Except.ok.inj h⟩

/-- A transaction that fails is undone. -/
lemma transact_eq_of_error {α : Type} {a : Archive} {e : ArchiveError}
    {body : Tables → Except ArchiveError α × Tables}
    (h : (a.withTables (a.tables.transact body)).1 = .error e) :
    (a.withTables (a.tables.transact body)).2 = a := by
  rcases a.withTables_transact_cases body with ⟨_, h'⟩ | ⟨x, t', -, -, h'⟩
  · rw [h']
  · rw [h'] at h
    cases h

/-- **Operations without an upload** change nothing when they fail. -/
theorem run_eq_of_error {env : Env} {owner : OwnerId} {op : Operation} {a : Archive}
    {e : ArchiveError} (hop : op.stream? = none) (h : (op.run env owner a).1 = .error e) :
    (op.run env owner a).2 = a := by
  cases op with
  | createFile path info stream => cases hop
  | addVersion node info stream => cases hop
  | createRoot => exact transact_eq_of_error (error_of_answer h)
  | createDirectory path => exact transact_eq_of_error (error_of_answer h)
  | move node target => exact transact_eq_of_error (error_of_answer h)
  | copy node target onlyNewest => exact transact_eq_of_error (error_of_answer h)
  | remove node recursive =>
    have herror := error_of_answer h
    change (a.remove env owner node recursive).2 = a
    rcases a.remove_cases env owner node recursive with ⟨_, h'⟩ | ⟨_, _, _, -, -, h'⟩
    · rw [h']
    · rw [h'] at herror
      cases herror
  | removeVersion node blob =>
    have herror := error_of_answer h
    change (a.removeVersion env owner node blob).2 = a
    rcases a.removeVersion_cases env owner node blob with ⟨_, h'⟩ | ⟨_, _, -, -, h'⟩
    · rw [h']
    · rw [h'] at herror
      cases herror
  | sweep limit => cases h
  | _ => rfl

end Operation

namespace Step

variable {a : Archive} {s : Step} {e : ArchiveError}

/-- Can the step undo its upload? There is no payload under its new key, and the deletion of that
key meets no fault. A step without an upload has nothing to undo. -/
def Undoes (s : Step) (a : Archive) : Prop :=
  ∀ blob ∈ s.newBlob?, a.payloads.get? ⟨s.owner, blob⟩ = none ∧
    s.env.backend.deleteFault ⟨s.owner, blob⟩ = none

/-- **A failed step leaves the tables as they were**, whatever the payload store does. -/
theorem tables_of_error (h : (s.operation.run s.env s.owner a).1 = .error e) :
    (s.apply a).tables = a.tables := by
  obtain ⟨env, owner, op⟩ := s
  cases hop : op.stream? with
  | none =>
    have hsame := Operation.run_eq_of_error hop h
    exact congrArg Archive.tables hsame
  | some stream =>
    cases op with
    | createFile path info stream =>
      have herror := Operation.error_of_answer h
      change (a.createFile env owner path info stream).2.tables = a.tables
      obtain ⟨p, -, ⟨_, h'⟩ | ⟨_, _, _, -, -, -, -, -, h'⟩⟩ :=
        a.createFile_cases env owner path info stream
      · rw [h']
      · rw [h'] at herror
        cases herror
    | addVersion node info stream =>
      have herror := Operation.error_of_answer h
      change (a.addVersion env owner node info stream).2.tables = a.tables
      obtain ⟨p, -, ⟨_, h'⟩ | ⟨_, _, _, -, -, -, -, -, h'⟩⟩ :=
        a.addVersion_cases env owner node info stream
      · rw [h']
      · rw [h'] at herror
        cases herror
    | _ => cases hop

/-- **A failed step leaves the archive as it was** if it can undo its upload. -/
theorem apply_of_error (hundo : s.Undoes a)
    (h : (s.operation.run s.env s.owner a).1 = .error e) : s.apply a = a := by
  obtain ⟨env, owner, op⟩ := s
  cases hop : op.stream? with
  | none => exact Operation.run_eq_of_error hop h
  | some stream =>
    cases op with
    | createFile path info stream =>
      have herror := Operation.error_of_answer h
      change (a.createFile env owner path info stream).2 = a
      obtain ⟨hfree, hdelete⟩ := hundo _ rfl
      rcases Archive.createFile_undone env owner hfree hdelete path info stream with
        ⟨_, h'⟩ | ⟨_, h'⟩
      · rw [h']
      · rw [h'] at herror
        cases herror
    | addVersion node info stream =>
      have herror := Operation.error_of_answer h
      change (a.addVersion env owner node info stream).2 = a
      obtain ⟨hfree, hdelete⟩ := hundo _ rfl
      rcases Archive.addVersion_undone env owner hfree hdelete node info stream with
        ⟨_, h'⟩ | ⟨_, h'⟩
      · rw [h']
      · rw [h'] at herror
        cases herror
    | _ => cases hop

end Step

/-! ## Where payloads come from -/

namespace Archive

variable {k : Key}

/-- A release brings no payload. -/
lemma get?_release_eq_none (env : Env) (owner : OwnerId) (blobs : List BlobId) {a : Archive}
    (h : a.payloads.get? k = none) : (release env owner blobs a).2.payloads.get? k = none :=
  Payloads.get?_deleteMany_eq_none h

/-- Releases for several owners bring no payload. -/
lemma get?_releaseAll_eq_none (env : Env) (entries : List (OwnerId × List BlobId)) {a : Archive}
    (h : a.payloads.get? k = none) : (releaseAll env entries a).2.payloads.get? k = none := by
  induction entries generalizing a with
  | nil => exact h
  | cons entry rest ih => exact ih (get?_release_eq_none env entry.1 entry.2 h)

end Archive

namespace Step

variable {a : Archive} {s : Step}

/-- A step brings in no payload but one of its owner under its new identifier. -/
theorem get?_apply_eq_none {k : Key} (hk : a.payloads.get? k = none)
    (hnew : ∀ blob ∈ s.newBlob?, k ≠ ⟨s.owner, blob⟩) : (s.apply a).payloads.get? k = none := by
  obtain ⟨env, owner, op⟩ := s
  have htransact {α : Type} (body : Tables → Except ArchiveError α × Tables) :
      (a.withTables (a.tables.transact body)).2.payloads.get? k = none := hk
  cases op with
  | createFile path info stream =>
    change (a.createFile env owner path info stream).2.payloads.get? k = none
    have hne : k ≠ ⟨owner, env.blobId⟩ := hnew _ rfl
    obtain ⟨p, hp, ⟨_, h⟩ | ⟨_, _, _, -, -, -, -, -, h⟩⟩ :=
      a.createFile_cases env owner path info stream <;> rw [h]
    · exact (hp k hne).trans hk
    · exact (hp k hne).trans hk
  | addVersion node info stream =>
    change (a.addVersion env owner node info stream).2.payloads.get? k = none
    have hne : k ≠ ⟨owner, env.blobId⟩ := hnew _ rfl
    obtain ⟨p, hp, ⟨_, h⟩ | ⟨_, _, _, -, -, -, -, -, h⟩⟩ :=
      a.addVersion_cases env owner node info stream <;> rw [h]
    · exact (hp k hne).trans hk
    · exact (hp k hne).trans hk
  | createRoot => exact htransact _
  | createDirectory path => exact htransact _
  | move node target => exact htransact _
  | copy node target onlyNewest => exact htransact _
  | remove node recursive =>
    change (a.remove env owner node recursive).2.payloads.get? k = none
    rcases a.remove_cases env owner node recursive with ⟨_, h⟩ | ⟨_, _, _, -, -, h⟩ <;> rw [h]
    · exact hk
    · exact Archive.get?_release_eq_none _ _ _ hk
  | removeVersion node blob =>
    change (a.removeVersion env owner node blob).2.payloads.get? k = none
    rcases a.removeVersion_cases env owner node blob with ⟨_, h⟩ | ⟨_, _, -, -, h⟩ <;> rw [h]
    · exact hk
    · exact Archive.get?_release_eq_none _ _ _ hk
  | sweep limit => exact Archive.get?_releaseAll_eq_none _ _ hk
  | _ => exact hk

end Step

namespace Archive

/-- A payload after a history has an identifier that some step of it took. -/
lemma get?_after_eq_none (history : List Step) {k : Key}
    (hk : k.blob ∉ history.filterMap Step.newBlob?) :
    (Archive.empty.after history).payloads.get? k = none := by
  suffices h : ∀ a : Archive, a.payloads.get? k = none →
      (a.after history).payloads.get? k = none from h _ rfl
  induction history with
  | nil => exact fun a h => h
  | cons s rest ih =>
    intro a ha
    have hs : ∀ blob ∈ s.newBlob?, k ≠ ⟨s.owner, blob⟩ := by
      intro blob hb e
      refine hk (List.mem_filterMap.2 ⟨s, List.mem_cons_self, ?_⟩)
      rw [e]
      exact hb
    have hrest : k.blob ∉ rest.filterMap Step.newBlob? := by
      intro hm
      obtain ⟨s', hs', hb⟩ := List.mem_filterMap.1 hm
      exact hk (List.mem_filterMap.2 ⟨s', List.mem_cons_of_mem _ hs', hb⟩)
    exact ih hrest _ (Step.get?_apply_eq_none ha hs)

/-- **Failed operations are atomic.** After every history, an operation that fails, for whatever
reason and with whatever stream and store, leaves nodes, blobs, links and the ledger as they were.
If it takes a new blob identifier, which no earlier step has taken, and the deletion of that one
payload meets no fault, then all payloads are as they were, and with them the whole archive.

**Proof sketch.** Tables are changed in one transaction, which is undone. No payload is stored
under the new key before the upload, so that the deletion after it restores what was there. -/
theorem failure_atomic (history : List Step) (s : Step) {e : ArchiveError}
    (hfail : (s.operation.run s.env s.owner (Archive.empty.after history)).1 = .error e) :
    let a := Archive.empty.after history
    (s.apply a).tables = a.tables ∧
      ((∀ blob ∈ s.newBlob?, blob ∉ history.filterMap Step.newBlob?) →
        (∀ blob ∈ s.newBlob?, s.env.backend.deleteFault ⟨s.owner, blob⟩ = none) →
        s.apply a = a) := by
  intro a
  refine ⟨Step.tables_of_error hfail, ?_⟩
  intro hnew hdelete
  refine Step.apply_of_error ?_ hfail
  intro blob hb
  exact ⟨get?_after_eq_none history (hnew blob hb), hdelete blob hb⟩

end Archive

/-! ### Failures half-way -/

namespace Step

/-- A file in a directory. -/
def emptied : Node := ⟨⟨.ofNat 400⟩, .file, ⟨"d.e"⟩, ⟨.ofNat 1⟩, default⟩

/-- The file is created, and its only version removed. -/
def emptyFile : List Step :=
  [⟨.numbered 3, ⟨.ofNat 1⟩, .createDirectory ⟨"d"⟩⟩,
    ⟨.numbered 4, ⟨.ofNat 1⟩, .createFile ⟨"d.e"⟩ ⟨"sum", 1⟩ [.data ⟨#[7]⟩]⟩,
    ⟨.numbered 5, ⟨.ofNat 1⟩, .removeVersion emptied ⟨.ofNat 4⟩⟩]

/-- A file is to be created at a place that is taken. Its payload is uploaded first. -/
def uploadToTakenPlace : Step :=
  ⟨.numbered 6, ⟨.ofNat 1⟩, .createFile ⟨"a"⟩ ⟨"sum", 2⟩ [.data ⟨#[8, 9]⟩]⟩

/-- The empty file is to be copied. Its node is copied first, and then a version is missing. -/
def copyEmptied : Step := ⟨.numbered 7, ⟨.ofNat 1⟩, .copy emptied ⟨"d.f"⟩ false⟩

end Step

namespace Archive

/-- Both fail after a part of their work, and leave the archive as it was. -/
theorem failure_atomic_halfway :
    let a := empty.after (Step.beginTree ++ [Step.uploadParts] ++ Step.emptyFile)
    a.tables.nodes.length = 4 ∧
      (Step.uploadToTakenPlace.operation.run (.numbered 6) ⟨.ofNat 1⟩ a).1.isOk = false ∧
      Step.uploadToTakenPlace.apply a = a ∧
      (Step.copyEmptied.operation.run (.numbered 7) ⟨.ofNat 1⟩ a).1.isOk = false ∧
      Step.copyEmptied.apply a = a := by
  intro a
  have herror {r : Except ArchiveError Operation.Answer} (h : r.isOk = false) :
      ∃ e, r = .error e := by
    cases r with
    | error e => exact ⟨e, rfl⟩
    | ok x => cases h
  have hupload :
      (Step.uploadToTakenPlace.operation.run (.numbered 6) ⟨.ofNat 1⟩ a).1.isOk = false := by
    decide +kernel
  have hcopy : (Step.copyEmptied.operation.run (.numbered 7) ⟨.ofNat 1⟩ a).1.isOk = false := by
    decide +kernel
  obtain ⟨_, hupload'⟩ := herror hupload
  obtain ⟨_, hcopy'⟩ := herror hcopy
  refine ⟨by decide +kernel, hupload, ?_, hcopy, ?_⟩
  · exact (failure_atomic _ Step.uploadToTakenPlace hupload').2 (by decide +kernel)
      (fun _ _ => rfl)
  · exact (failure_atomic _ Step.copyEmptied hcopy').2 (by decide +kernel) (fun _ _ => rfl)

end Archive

end VersionedTree
