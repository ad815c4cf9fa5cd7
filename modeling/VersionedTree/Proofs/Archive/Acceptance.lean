import VersionedTree.Proofs.Archive.Atomicity
import VersionedTree.Proofs.Archive.Copies
import VersionedTree.Proofs.Archive.Listings
import VersionedTree.Proofs.Path.Labels
import VersionedTree.Proofs.Tables.Moves

/-!
# Operations are never refused by the tables

The tables refuse rows that share a key, rows that break a check, links without a node or a blob at
the end of a transaction, and stored texts that are no paths. Operations come to none of this:
whatever they are asked for, they find out before, and answer with an error of their own.

## Main definitions

* `VersionedTree.Accepted` — results other than a refusal by the tables.

## Main results

* `VersionedTree.Tables.createNode_accepted` and its kin — statements.
* `VersionedTree.Archive.transact_accepted` — transactions that leave their links whole.
* `VersionedTree.Operation.accepted` — operations on tables that are sound.
* `VersionedTree.Archive.never_refused` — operations after every history.
-/

set_option autoImplicit false

namespace VersionedTree

/-- Is the result other than a refusal by the tables? -/
def Accepted {α : Type} (r : Except ArchiveError α) : Prop := ∀ c, r ≠ .error (.database c)

/-- A value is no error. -/
@[simp] lemma accepted_ok {α : Type} (x : α) : Accepted (.ok x) := by
  intro c h
  cases h

/-- An error is accepted if it does not come from the database. -/
@[simp] lemma accepted_error_iff {α : Type} {e : ArchiveError} :
    Accepted (.error e : Except ArchiveError α) ↔ ∀ c, e ≠ .database c := by
  simp [Accepted]

/-- An error about the kind of a node does not come from the database. -/
@[simp] lemma ofKind_ne_database (expected : String) (found : Kind) (c : Constraint) :
    ArchiveError.ofKind expected found ≠ .database c := by
  simp [ArchiveError.ofKind]

/-- An error that is passed on as the result of something else. -/
lemma Accepted.passOn {α β : Type} {r : Except ArchiveError α} {e : ArchiveError}
    (h : Accepted r) (he : r = .error e) : Accepted (.error e : Except ArchiveError β) := by
  rw [he, accepted_error_iff] at h
  exact accepted_error_iff.2 h

/-! ## Statements -/

namespace Tables

variable {t : Tables} {owner : OwnerId} {node : Node} {target : Path} {time : Instant}

/-- The root is in no container. -/
lemma isRoot_of_hasContainerAt {path : Path} (h : t.hasContainerAt owner path.parent = true) :
    path.isRoot = false := by
  cases hr : path.isRoot with
  | false => rfl
  | true =>
    have hparent : path.parent = none := by simp [Path.parent, hr]
    rw [hparent] at h
    cases h

/-- What may be created is well placed. -/
lemma isWellPlaced_of_mayCreate {id : NodeId} {path : Path} {kind : Kind}
    (h : t.mayCreate owner path kind = true) :
    (⟨id, kind, path, owner, time⟩ : Node).isWellPlaced = true := by
  rw [Node.isWellPlaced_iff]
  unfold mayCreate at h
  split at h
  · next hk => exact iff_of_true (beq_iff_eq.1 hk) h
  · next hk =>
    have hroot := isRoot_of_hasContainerAt h
    exact iff_of_false (by simpa using hk) (by simp [hroot])

/-- A node is created at a valid path, or refused as what can be answered: a place that is taken is
told apart from the other refusals. -/
lemma createNode_accepted {path : Path} (hp : path.Valid) (id : NodeId) (kind : Kind) :
    Accepted (t.createNode id time owner path kind).1 := by
  unfold createNode
  simp only
  split
  · next hm =>
    split
    · rw [Node.readBack_of_valid hp]
      exact accepted_ok _
    · simp
    · next c hne hi =>
      exact absurd (eq_unique_of_insertNode (isWellPlaced_of_mayCreate hm) hi) hne
  · simp

/-- A version under a new blob identifier breaks no rule of the tables, as long as its size is no
less than zero. -/
lemma addVersion_accepted {uploaded : Instant} {id : NodeId} {blob : BlobId} {info : BlobInfo}
    (hs : 0 ≤ info.size) (hb : t.hasBlob blob = false) :
    Accepted (t.addVersion uploaded time owner id blob info).1 := by
  unfold addVersion
  split
  · rw [insertBlob_eq_ok.2 ⟨hs, hb, rfl⟩]
    simp only
    split
    · simp
    · exact accepted_ok _
  · simp

/-- The move of a directory can only meet a place that is taken, which is counted as no move. -/
lemma moveDirectory_accepted (h : t.IsForest) (node : Node) (target : Path) :
    Accepted (t.moveDirectory owner node target).1 := by
  by_cases hdir : node.kind = .dir
  · obtain ⟨count, hcount⟩ := moveDirectory_counts h hdir owner target
    rw [hcount]
    exact accepted_ok _
  · rw [moveDirectory, if_pos (bne_iff_ne.2 hdir)]
    exact accepted_ok _

/-- The copy of a file can only meet a place that is taken, which is answered as no copy. -/
lemma copyFile_accepted (id : NodeId) (node : Node) (target : Path) :
    Accepted (t.copyFile id time owner node target).1 := by
  unfold copyFile
  split
  · exact accepted_ok _
  · next hguard =>
    split
    · split
      · exact accepted_ok _
      · exact accepted_ok _
      · next c hne hi =>
        refine absurd (eq_unique_of_insertNode ?_ hi) hne
        simp only [Bool.or_eq_true, not_or, Bool.not_eq_true] at hguard
        simp [Node.isWellPlaced_iff, hguard.2]
    · exact accepted_ok _

/-- The copy of a directory can only meet a place that is taken: the rows below it hold paths, and
so do their copies. -/
lemma copyDirectory_accepted (h : t.IsForest) (hv : ∀ n ∈ t.nodes, n.path.Valid)
    (ids : Nat → NodeId) (node : Node) (target : Path) :
    Accepted (t.copyDirectory ids time owner node target).1 := by
  unfold copyDirectory
  split
  · exact accepted_ok _
  · next hguard =>
    split
    · exact accepted_ok _
    · next source hsource =>
      obtain ⟨hmem, -, -, hkind⟩ := mem_of_stored? hsource
      have hsr : source.path.isRoot = false := h.path_ne_root hmem (by simp [hkind])
      have hvalid : ∀ n ∈ t.subtree owner source.path, n.path.Valid := by
        intro n hn
        exact hv n (mem_subtree.1 hn).1
      rw [Node.readBackAll_of_valid fun n hn => hvalid n (mem_sortedByPath.1 hn)]
      simp only
      split
      · exact accepted_ok _
      · split
        · split
          · exact accepted_ok _
          · exact accepted_ok _
          · next c hne hi =>
            simp only [Bool.or_eq_true, not_or, Bool.not_eq_true] at hguard
            have hrebases := rebases_of_valid hsr hguard.2 hvalid
            have hplaced := hrebases.isWellPlaced_copiedRows time ids h hsr hguard.2
            exact absurd (eq_unique_of_insertNodes hplaced hi) hne
        · exact accepted_ok _

end Tables

/-! ## Transactions -/

namespace Archive

variable {a : Archive} {t : Tables} {env : Env} {owner : OwnerId}

/-- A transaction whose statements are accepted, and leave links whole when they succeed. -/
theorem transact_accepted {α : Type} {body : Tables → Except ArchiveError α × Tables}
    (hbody : Accepted (body t).1) (hlinked : ∀ x t', body t = (.ok x, t') → t'.Linked) :
    Accepted (t.transact body).1 := by
  cases hb : body t with
  | mk r t' =>
    rw [hb] at hbody
    cases r with
    | error e => rwa [Tables.transact_of_error hb]
    | ok x =>
      rw [Tables.transact_of_ok hb (hlinked x t' hb).referencesHold]
      exact accepted_ok x

/-- Statements that let nodes stay leave links whole. -/
lemma transact_accepted_of_keeps {α : Type} {body : Tables → Except ArchiveError α × Tables}
    (h : t.Sound) (hr : Tables.RunsTo (Statement.KeepsFor owner) t (body t).2)
    (hbody : Accepted (body t).1) : Accepted (t.transact body).1 := by
  refine transact_accepted hbody ?_
  intro x t' hb
  rw [hb] at hr
  exact (h.ofKeeps hr).linked

/-- The statement of a move is accepted for files and for directories, and a root is refused by its
kind. -/
lemma moveStatement_accepted (h : t.IsForest) (node : Node) (target : Path) :
    Accepted (moveStatement owner node target t).1 := by
  have hrequire {r : Except ArchiveError (Option Nat) × Tables} (hr : Accepted r.1) :
      Accepted (requireMoved r).1 := by
    unfold requireMoved
    split
    · split
      · exact accepted_ok _
      · simp
    · simp
    · exact hr.passOn rfl
  unfold moveStatement
  split
  · exact hrequire (accepted_ok _)
  · exact hrequire (Tables.moveDirectory_accepted h node target)
  · simp

/-- Nodes are copied without an error of the database, whatever they are claimed to be. -/
lemma copyNodes_accepted (h : t.IsForest) (hv : ∀ n ∈ t.nodes, n.path.Valid) (env : Env)
    (owner : OwnerId) (node : Node) (target : Path) :
    Accepted (copyNodes env owner node target t).1 := by
  unfold copyNodes
  split
  · have hfile : Accepted (t.copyFile (env.nodeId 0) (env.now 0) owner node target).1 :=
      Tables.copyFile_accepted _ node target
    split
    · exact accepted_ok _
    · next e _ he =>
      exact hfile.passOn (congrArg Prod.fst he)
  · exact Tables.copyDirectory_accepted h hv _ node target
  · simp

/-- **The statements of a copy.** New nodes have no links, so that the links of the copies are not
refused. -/
lemma copyStatements_accepted (h : t.Sound) (hv : ∀ n ∈ t.nodes, n.path.Valid) (node : Node)
    (target : Path) (onlyNewest : Bool) :
    Accepted (copyStatements env owner node target onlyNewest t).1 := by
  have hnodes := copyNodes_accepted h.forest hv env owner node target
  have hkeeps := copyNodes_runsTo env owner t node target
  unfold copyStatements
  cases hcopy : copyNodes env owner node target t with
  | mk r t₁ =>
    rw [hcopy] at hnodes hkeeps
    cases r with
    | error e => exact hnodes.passOn rfl
    | ok copies =>
      cases copies with
      | nil => simp
      | cons first rest =>
        have hlinks := (Tables.copyNodes_ok hcopy).linkCopies_eq h env onlyNewest 1
        simp only
        split
        · next e _ he =>
          rw [he] at hlinks
          split at hlinks
          · cases hlinks
          · obtain rfl := Except.error.inj hlinks
            simp
        · exact accepted_ok _

/-- The statements of a removal remove and queue rows, and break no rule. -/
lemma removeStatements_accepted (node : Node) (recursive : Bool) :
    Accepted (removeStatements env owner node recursive t).1 := by
  unfold removeStatements
  split
  · simp
  · exact accepted_ok _

/-- The statements of the removal of a version break no rule either. -/
lemma removeVersionStatements_accepted (node : NodeId) (blob : BlobId) :
    Accepted (removeVersionStatements env owner node blob t).1 := by
  unfold removeVersionStatements
  split
  · simp
  · exact accepted_ok _

/-- **The statements of a new file.** The creation of its node leaves the blobs alone. -/
lemma recordFile_accepted {path : Path} (hp : path.Valid) {info : BlobInfo} (hs : 0 ≤ info.size)
    (hb : t.hasBlob env.blobId = false) : Accepted (recordFile env owner path info t).1 := by
  have hnode : Accepted (t.createNode (env.nodeId 0) (env.now 0) owner path .file).1 :=
    Tables.createNode_accepted hp _ _
  have hframe := Tables.createNode_frame owner (env.now 0) t (env.nodeId 0) path .file
  unfold recordFile
  split
  · next e _ he =>
    exact hnode.passOn (congrArg Prod.fst he)
  · next node t₁ he =>
    have hkept : t₁ = { t with nodes := t₁.nodes } := by rwa [he] at hframe
    have hfresh : t₁.hasBlob env.blobId = false := by
      rw [hkept]
      exact hb
    have hversion : Accepted
        (t₁.addVersion (env.now 1) (env.now 2) owner node.id env.blobId info).1 :=
      Tables.addVersion_accepted hs hfresh
    split
    · next e _ he =>
      exact hversion.passOn (congrArg Prod.fst he)
    · exact accepted_ok _

/-! ## Payloads -/

/-- A stream of bytes ends in an error of its own at most. -/
lemma putStream_accepted (p : Payloads) (b : Backend) (k : Key) (stream : List Chunk) :
    Accepted (p.putStream b k stream).1 := by
  unfold Payloads.putStream
  split
  · simp
  · split
    · simp
    · exact accepted_ok _

/-- An upload fails for its stream, its store or its length. -/
lemma upload_accepted (info : BlobInfo) (stream : List Chunk) :
    Accepted (a.upload env owner info stream).1 := by
  have hput := putStream_accepted a.payloads env.backend ⟨owner, env.blobId⟩ stream
  unfold upload
  simp only
  split
  · next e _ he =>
    exact hput.passOn (congrArg Prod.fst he)
  · split
    · exact accepted_ok _
    · simp

/-- Metadata that are refused are refused before the database sees them. -/
lemma validate_accepted (info : BlobInfo) : Accepted info.validate := by
  unfold BlobInfo.validate
  split
  · simp
  · split
    · simp
    · exact accepted_ok _

/-- The removal of a payload that is not recorded does not hide why it is not. -/
lemma keepIfRecorded_accepted {α : Type} {r : Except ArchiveError α × Archive}
    (h : Accepted r.1) : Accepted (keepIfRecorded env owner r).1 := by
  obtain ⟨_ | _, a'⟩ := r
  · exact h
  · exact h

/-- What is recorded after an upload is recorded in the tables before it, with a size that is not
negative. -/
lemma recorded_accepted {α : Type} {info : BlobInfo} {stream : List Chunk}
    {body : Tables → Except ArchiveError α × Tables}
    (h : 0 ≤ info.size → Accepted (a.tables.transact body).1) :
    Accepted (match a.upload env owner info stream with
      | (.error e, a') => ((.error e, a') : Except ArchiveError α × Archive)
      | (.ok (), a') =>
        keepIfRecorded env owner (a'.withTables (a'.tables.transact body))).1 := by
  obtain ⟨p, -, ⟨e, hup⟩ | ⟨bytes, -, hs, -, hup⟩⟩ := a.upload_cases env owner info stream
  · have hupload : Accepted (a.upload env owner info stream).1 := upload_accepted info stream
    rw [hup] at hupload ⊢
    exact hupload.passOn rfl
  · rw [hup]
    have hsize : 0 ≤ info.size := by omega
    exact keepIfRecorded_accepted (h hsize)

/-- A file is created, or refused without an error of the database, if the blob identifier is new.
-/
lemma createFile_accepted (h : a.tables.Sound) {path : Path} (hp : path.Valid) (info : BlobInfo)
    (stream : List Chunk) (hb : a.tables.hasBlob env.blobId = false) :
    Accepted (a.createFile env owner path info stream).1 := by
  have hvalidate := validate_accepted info
  unfold createFile
  split
  · next e he =>
    exact hvalidate.passOn he
  · refine recorded_accepted fun hs => ?_
    exact transact_accepted_of_keeps h (recordFile_runsTo env owner _ path info)
      (recordFile_accepted hp hs hb)

/-- A version is added, or refused without an error of the database, if the blob identifier is new.
-/
lemma addVersion_accepted (h : a.tables.Sound) (node : Node) (info : BlobInfo)
    (stream : List Chunk) (hb : a.tables.hasBlob env.blobId = false) :
    Accepted (a.addVersion env owner node info stream).1 := by
  have hvalidate := validate_accepted info
  unfold addVersion
  split
  · simp
  · split
    · next e he =>
      exact hvalidate.passOn he
    · split
      · simp
      · refine recorded_accepted fun hs => ?_
        exact transact_accepted_of_keeps h (.addVersion _ owner _ _ _ _ _)
          (Tables.addVersion_accepted hs hb)

/-! ## Removals -/

/-- The removal of nodes meets no error of the database, not even when its transaction ends. -/
lemma remove_accepted (h : a.tables.Sound) (env : Env) (owner : OwnerId) (node : Node)
    (recursive : Bool) : Accepted (a.remove env owner node recursive).1 := by
  have hbody : Accepted (a.tables.transact (removeStatements env owner node recursive)).1 := by
    refine transact_accepted (removeStatements_accepted node recursive) ?_
    intro ⟨removed, orphaned⟩ t' hb
    exact h.linked_removeStatements env owner node recursive hb
  unfold remove
  split
  · next e _ he =>
    exact hbody.passOn (congrArg Prod.fst he)
  · exact accepted_ok _

/-- The removal of a version meets no error of the database. -/
lemma removeVersion_accepted (h : a.tables.Sound) (env : Env) (owner : OwnerId) (node : Node)
    (blob : BlobId) : Accepted (a.removeVersion env owner node blob).1 := by
  have hbody : Accepted
      (a.tables.transact (removeVersionStatements env owner node.id blob)).1 :=
    transact_accepted_of_keeps h (removeVersionStatements_runsTo env owner _ node.id blob)
      (removeVersionStatements_accepted node.id blob)
  unfold removeVersion
  split
  · next e _ he =>
    exact hbody.passOn (congrArg Prod.fst he)
  · exact accepted_ok _

/-! ## Reading -/

/-- A row that must be there is missed with an error of its own. -/
lemma required_accepted {α : Type} (what : String) {r : Except ArchiveError (Option α)}
    (h : Accepted r) : Accepted (required what r) := by
  obtain e | _ | x := r
  · exact h.passOn rfl
  · simp [required]
  · exact accepted_ok x

/-- A row that holds a path is read back. -/
lemma readBack?_accepted {row : Option Node} (hv : ∀ n ∈ row, n.path.Valid) :
    Accepted (Tables.readBack? row) := by
  cases row with
  | none => exact accepted_ok none
  | some n =>
    rw [Tables.readBack?, Node.readBack_of_valid (hv n rfl)]
    exact accepted_ok _

section Reading

variable (hv : ∀ n ∈ a.tables.nodes, n.path.Valid)

include hv

/-- A place is resolved without an error of the database. -/
lemma resolve_accepted (owner : OwnerId) (path : Path) : Accepted (a.resolve owner path) :=
  required_accepted _ <| readBack?_accepted fun n hn => hv n (List.mem_of_find?_eq_some hn)

/-- A node is found by its identifier without an error of the database. -/
lemma node_accepted (owner : OwnerId) (id : NodeId) : Accepted (a.node owner id) :=
  required_accepted _ <| readBack?_accepted fun n hn => hv n (List.mem_of_find?_eq_some hn)

/-- A listing reads rows that all hold paths. -/
lemma list_accepted (owner : OwnerId) (path : Path) : Accepted (a.list owner path) := by
  have hresolve := resolve_accepted hv owner path
  unfold list
  split
  · next e he =>
    exact hresolve.passOn he
  · next top _ =>
    split
    · have hchildren : ∃ ns, a.tables.children owner top.id = .ok ns := by
        unfold Tables.children
        split
        · exact ⟨_, rfl⟩
        · refine ⟨_, Node.readBackAll_of_valid ?_⟩
          intro n hn
          rw [Tables.mem_sortedByPath, List.mem_filter, Tables.mem_subtree] at hn
          exact hv n hn.1.1
      obtain ⟨ns, hns⟩ := hchildren
      rw [hns]
      exact accepted_ok _
    · simp

end Reading

/-- A payload that cannot be read is an error of the payload store. -/
lemma readVersion_accepted (owner : OwnerId) (version : Version) :
    Accepted (a.readVersion env owner version) := by
  unfold readVersion
  split
  · simp
  · refine required_accepted _ ?_
    unfold Payloads.read
    split
    · simp
    · exact accepted_ok _

end Archive

/-! ## Operations -/

namespace Operation

variable {a : Archive} {env : Env}

/-- The answer to an operation fails as the operation does. -/
lemma answer_accepted {α : Type} (f : α → Answer) {r : Except ArchiveError α × Archive}
    (h : Accepted r.1) : Accepted (answer f r).1 := by
  obtain ⟨e | x, a'⟩ := r
  · exact h.passOn rfl
  · exact accepted_ok _

/-- **An operation is accepted** by tables that are sound, if all places, those of the nodes and the
one that is to be filled, are valid and the new blob identifier is not taken. -/
theorem accepted (h : a.tables.Sound) (hv : ∀ n ∈ a.tables.nodes, n.path.Valid)
    (owner : OwnerId) {op : Operation} (ht : ∀ p ∈ op.target?, p.Valid)
    (hb : a.tables.hasBlob env.blobId = false) : Accepted (op.run env owner a).1 := by
  have hcreate {path : Path} (hp : path.Valid) (kind : Kind) :
      Accepted (a.createNode env owner path kind).1 :=
    Archive.transact_accepted_of_keeps h (.createNode _ owner _ _ path kind)
      (Tables.createNode_accepted hp _ kind)
  have hroot : Path.root.Valid := rfl
  cases op with
  | createRoot => exact answer_accepted _ (hcreate hroot .root)
  | createDirectory path => exact answer_accepted _ (hcreate (ht path rfl) .dir)
  | createFile path info stream =>
    exact answer_accepted _ (Archive.createFile_accepted h (ht path rfl) info stream hb)
  | addVersion node info stream =>
    exact answer_accepted _ (Archive.addVersion_accepted h node info stream hb)
  | resolve path => exact answer_accepted _ (Archive.resolve_accepted hv owner path)
  | nodeById id => exact answer_accepted _ (Archive.node_accepted hv owner id)
  | list path => exact answer_accepted _ (Archive.list_accepted hv owner path)
  | firstPage node limit =>
    refine answer_accepted _ ?_
    simp only [Archive.firstPage]
    split
    · exact accepted_ok _
    · simp
  | nextPage last limit => exact accepted_ok _
  | findVersion node blob => exact answer_accepted _ (Archive.required_accepted _ (accepted_ok _))
  | readVersion version => exact answer_accepted _ (Archive.readVersion_accepted owner version)
  | move node target =>
    exact answer_accepted _ <| Archive.transact_accepted_of_keeps h
      (Archive.moveStatement_runsTo owner a.tables node target)
      (Archive.moveStatement_accepted h.forest node target)
  | copy node target onlyNewest =>
    exact answer_accepted _ <| Archive.transact_accepted_of_keeps h
      (Archive.copyStatements_runsTo env owner a.tables node target onlyNewest)
      (Archive.copyStatements_accepted h hv node target onlyNewest)
  | remove node recursive =>
    exact answer_accepted _ (Archive.remove_accepted h env owner node recursive)
  | removeVersion node blob =>
    exact answer_accepted _ (Archive.removeVersion_accepted h env owner node blob)
  | sweep limit => exact accepted_ok _

end Operation

/-! ## Histories -/

/-- **Operations are never refused by the tables.** After every history of operations whose places
are paths that can be had, every operation, with whatever nodes, identifiers, versions, sizes and
limits and at any path that can be had, has a result other than a refusal by the tables, provided
that the new blob identifier is not taken; and all stored texts of places are read as paths.

**Proof sketch.** The nodes form a forest at valid places, blobs are counted, and links join files
with blobs of one owner. So new rows are well placed, new links share no key, and the links are
whole when a transaction ends; what is refused for a place that is taken is answered as such. -/
theorem Archive.never_refused (history : List Step)
    (hmade : ∀ s ∈ history, ∀ p ∈ s.operation.target?, p.Made) (env : Env) (owner : OwnerId)
    (op : Operation) (hop : ∀ p ∈ op.target?, p.Made)
    (hfresh : ∀ b ∈ (Archive.empty.after history).tables.blobs, b.id ≠ env.blobId) :
    let a := Archive.empty.after history
    (∀ c, (op.run env owner a).1 ≠ .error (.database c)) ∧
      ∀ n ∈ a.tables.nodes, Path.fromEncoded n.path.encoded = .ok n.path := by
  intro a
  have hvalid : ∀ n ∈ a.tables.nodes, n.path.Valid :=
    valid_after history fun s hs p hp => (hmade s hs p hp).valid
  refine ⟨?_, hvalid⟩
  exact Operation.accepted (sound history) hvalid owner (fun p hp => (hop p hp).valid)
    (Tables.hasBlob_eq_false.2 hfresh)

/-- A file that has lost its only version is to be copied. The node is copied, its links are not,
and the answer is not one of the tables. -/
theorem Archive.never_refused_copyEmptied :
    let a := Archive.empty.after (Step.beginTree ++ [Step.uploadParts] ++ Step.emptyFile)
    let r := (Step.copyEmptied.operation.run (.numbered 7) ⟨.ofNat 1⟩ a).1
    r.isOk = false ∧ (∀ c, r ≠ .error (.database c)) ∧
      ∀ n ∈ a.tables.nodes, Path.fromEncoded n.path.encoded = .ok n.path := by
  intro a r
  have hhistory : ∀ s ∈ Step.beginTree ++ [Step.uploadParts] ++ Step.emptyFile,
      ∀ p ∈ s.operation.target?, p.Valid := by decide +kernel
  have htarget : ∀ p ∈ Step.copyEmptied.operation.target?, p.Valid := by decide +kernel
  have hfresh : ∀ b ∈ a.tables.blobs, b.id ≠ (Env.numbered 7).blobId := by decide +kernel
  exact ⟨by decide +kernel, Archive.never_refused _ (fun s hs p hp => (hhistory s hs p hp).made)
    (.numbered 7) ⟨.ofNat 1⟩ _ (fun p hp => (htarget p hp).made) hfresh⟩

end VersionedTree
