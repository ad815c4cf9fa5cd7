import VersionedTree.Archive.Operation
import VersionedTree.Proofs.Payload
import VersionedTree.Proofs.Tables.Forest
import VersionedTree.Proofs.Tables.References

/-!
# What operations do to an archive

Every operation is inverted once: it fails and keeps the tables, or its transaction is committed.
Whatever it does, its tables are those after a run of statements, so that what all statements keep
is kept by all operations.

## Main definitions

* `VersionedTree.Tables.RunsTo` — tables before and after a run of statements.
* `VersionedTree.Statement.KeepsFor` — statements of one owner that let all nodes stay.
* `VersionedTree.Operation.MayCall` — the statements of an operation.
* `VersionedTree.Env.numbered` — numbered identifiers for examples.

## Main results

* `VersionedTree.Tables.transact_cases` — a transaction is kept, or has not been.
* `VersionedTree.Archive.createFile_cases`, `VersionedTree.Archive.addVersion_cases`,
  `VersionedTree.Archive.remove_cases`, `VersionedTree.Archive.removeVersion_cases` — operations
  on payloads.
* `VersionedTree.Archive.recordFile_steps`, `VersionedTree.Archive.removeStatements_steps`,
  `VersionedTree.Archive.removeVersionStatements_steps` — transactions that succeed.
* `VersionedTree.Operation.runsTo` — the tables of an operation.
* `VersionedTree.Tables.RunsTo.invariant` — what its statements keep.
-/

set_option autoImplicit false

namespace VersionedTree

/-! ## Transactions -/

/-- A transaction fails and changes nothing, or its statements succeed, references hold after
them, and it is kept. -/
lemma Tables.transact_cases {α : Type} (t : Tables)
    (body : Tables → Except ArchiveError α × Tables) :
    (∃ e, t.transact body = (.error e, t)) ∨
      ∃ x t', body t = (.ok x, t') ∧ t'.referencesHold = true ∧
        t.transact body = (.ok x, t') := by
  unfold transact commit
  obtain ⟨r, t'⟩ := body t
  cases r with
  | error e => exact .inl ⟨e, rfl⟩
  | ok x =>
    by_cases h : t'.referencesHold = true
    · exact .inr ⟨x, t', rfl, h, by simp [h]⟩
    · exact .inl ⟨.database .foreignKey, by simp [h]⟩

/-- Statements that fail leave no trace. -/
lemma Tables.transact_of_error {α : Type} {t t' : Tables}
    {body : Tables → Except ArchiveError α × Tables} {e : ArchiveError}
    (h : body t = (.error e, t')) : t.transact body = (.error e, t) := by
  simp [transact, h]

/-- Statements that succeed are committed if all references hold at their end. -/
lemma Tables.transact_of_ok {α : Type} {t t' : Tables}
    {body : Tables → Except ArchiveError α × Tables} {x : α} (h : body t = (.ok x, t'))
    (hr : t'.referencesHold = true) : t.transact body = (.ok x, t') := by
  simp [transact, commit, h, hr]

namespace Archive

variable (env : Env) (owner : OwnerId) (a : Archive)

/-- An operation that is one transaction. -/
lemma withTables_transact_cases {α : Type} (body : Tables → Except ArchiveError α × Tables) :
    (∃ e, a.withTables (a.tables.transact body) = (.error e, a)) ∨
      ∃ x t', body a.tables = (.ok x, t') ∧ t'.referencesHold = true ∧
        a.withTables (a.tables.transact body) = (.ok x, { a with tables := t' }) := by
  rcases a.tables.transact_cases body with ⟨e, h⟩ | ⟨x, t', hb, hr, h⟩
  · exact .inl ⟨e, by rw [h]; rfl⟩
  · exact .inr ⟨x, t', hb, hr, by rw [h]; rfl⟩

/-- An operation whose transaction fails changes nothing. -/
lemma withTables_transact_of_error {α : Type} {body : Tables → Except ArchiveError α × Tables}
    {e : ArchiveError} {t' : Tables} (h : body a.tables = (.error e, t')) :
    a.withTables (a.tables.transact body) = (.error e, a) := by
  rw [Tables.transact_of_error h]
  rfl

/-- An operation whose transaction succeeds with references that hold is kept. -/
lemma withTables_transact_of_ok {α : Type} {body : Tables → Except ArchiveError α × Tables}
    {x : α} {t' : Tables} (h : body a.tables = (.ok x, t')) (hr : t'.referencesHold = true) :
    a.withTables (a.tables.transact body) = (.ok x, { a with tables := t' }) := by
  rw [Tables.transact_of_ok h hr]
  rfl

/-! ## Uploads -/

/-- A discarded payload leaves tables and the other payloads alone. -/
lemma discard_eq (key : Key) : ∃ p : Payloads, (∀ k, k ≠ key → p.get? k = a.payloads.get? k) ∧
    a.discard env key = { a with payloads := p } :=
  ⟨_, fun _ hk => Payloads.get?_delete_of_ne hk, rfl⟩

/-- An upload stores the stream under a new key, or fails. Other payloads stay. -/
lemma upload_cases (info : BlobInfo) (stream : List Chunk) :
    ∃ p : Payloads, (∀ k, k ≠ ⟨owner, env.blobId⟩ → p.get? k = a.payloads.get? k) ∧
      ((∃ e, a.upload env owner info stream = (.error e, { a with payloads := p })) ∨
        ∃ bytes, Chunk.received stream = .ok bytes ∧ (bytes.size : Int) = info.size ∧
          p.get? ⟨owner, env.blobId⟩ = some bytes ∧
          a.upload env owner info stream = (.ok (), { a with payloads := p })) := by
  unfold upload
  simp only
  rcases a.payloads.putStream_cases env.backend ⟨owner, env.blobId⟩ stream
    with ⟨e, h⟩ | ⟨bytes, hb, h⟩
  · obtain ⟨p, hp, hd⟩ := a.discard_eq env ⟨owner, env.blobId⟩
    refine ⟨p, hp, .inl ⟨e, ?_⟩⟩
    rw [h, ← hd]
  · rw [h]
    by_cases hs : (bytes.size : Int) = info.size
    · refine ⟨a.payloads.insert ⟨owner, env.blobId⟩ bytes, fun k hk => ?_,
        .inr ⟨bytes, hb, hs, ?_, ?_⟩⟩
      · rw [Payloads.get?_insert, if_neg hk]
      · rw [Payloads.get?_insert, if_pos rfl]
      · simp [hs]
    · obtain ⟨p, hp, hd⟩ := discard_eq env
        { a with payloads := a.payloads.insert ⟨owner, env.blobId⟩ bytes } ⟨owner, env.blobId⟩
      refine ⟨p, fun k hk => ?_, .inl ?_⟩
      · rw [hp k hk, Payloads.get?_insert, if_neg hk]
      · simp [hs, hd]

/-- An uploaded payload that is to be recorded by a transaction. -/
lemma keepIfRecorded_cases {α : Type} (body : Tables → Except ArchiveError α × Tables) :
    ∃ p : Payloads, (∀ k, k ≠ ⟨owner, env.blobId⟩ → p.get? k = a.payloads.get? k) ∧
      ((∃ e, keepIfRecorded env owner (a.withTables (a.tables.transact body)) =
          (.error e, { a with payloads := p })) ∨
        ∃ x t', body a.tables = (.ok x, t') ∧ t'.referencesHold = true ∧
          keepIfRecorded env owner (a.withTables (a.tables.transact body)) =
            (.ok x, { a with tables := t' })) := by
  rcases a.withTables_transact_cases body with ⟨e, h⟩ | ⟨x, t', hb, hr, h⟩
  · obtain ⟨p, hp, hd⟩ := a.discard_eq env ⟨owner, env.blobId⟩
    exact ⟨p, hp, .inl ⟨e, by rw [h, ← hd]; rfl⟩⟩
  · exact ⟨a.payloads, fun _ _ => rfl, .inr ⟨x, t', hb, hr, by rw [h]; rfl⟩⟩

/-- A new file fails and leaves the tables and all payloads but that of the new blob alone, or its
payload is stored whole and its transaction kept. -/
lemma createFile_cases (path : Path) (info : BlobInfo) (stream : List Chunk) :
    ∃ p : Payloads, (∀ k, k ≠ ⟨owner, env.blobId⟩ → p.get? k = a.payloads.get? k) ∧
      ((∃ e, a.createFile env owner path info stream = (.error e, { a with payloads := p })) ∨
        ∃ bytes file t', Chunk.received stream = .ok bytes ∧ (bytes.size : Int) = info.size ∧
          p.get? ⟨owner, env.blobId⟩ = some bytes ∧
          recordFile env owner path info a.tables = (.ok file, t') ∧
          t'.referencesHold = true ∧
          a.createFile env owner path info stream = (.ok file, ⟨t', p⟩)) := by
  unfold createFile
  cases info.validate with
  | error e => exact ⟨a.payloads, fun _ _ => rfl, .inl ⟨e, rfl⟩⟩
  | ok =>
    obtain ⟨p, hp, ⟨e, h⟩ | ⟨bytes, hb, hs, hg, h⟩⟩ := a.upload_cases env owner info stream
    · exact ⟨p, hp, .inl ⟨e, by simp only [h]⟩⟩
    · obtain ⟨q, hq, ⟨e, hk⟩ | ⟨file, t', ht, hr, hk⟩⟩ :=
        keepIfRecorded_cases env owner { a with payloads := p } (recordFile env owner path info)
      · refine ⟨q, fun k hk => (hq k hk).trans (hp k hk), .inl ⟨e, ?_⟩⟩
        simp only [h, hk]
      · refine ⟨p, hp, .inr ⟨bytes, file, t', hb, hs, hg, ht, hr, ?_⟩⟩
        simp only [h, hk]

/-- A new version fails and leaves the tables and all payloads but that of the new blob alone, or
its payload is stored whole and its transaction kept. -/
lemma addVersion_cases (node : Node) (info : BlobInfo) (stream : List Chunk) :
    ∃ p : Payloads, (∀ k, k ≠ ⟨owner, env.blobId⟩ → p.get? k = a.payloads.get? k) ∧
      ((∃ e, a.addVersion env owner node info stream = (.error e, { a with payloads := p })) ∨
        ∃ bytes version t', Chunk.received stream = .ok bytes ∧ (bytes.size : Int) = info.size ∧
          p.get? ⟨owner, env.blobId⟩ = some bytes ∧
          a.tables.addVersion (env.now 0) (env.now 1) owner node.id env.blobId info =
            (.ok version, t') ∧
          t'.referencesHold = true ∧
          a.addVersion env owner node info stream = (.ok version, ⟨t', p⟩)) := by
  unfold addVersion
  split
  · exact ⟨a.payloads, fun _ _ => rfl, .inl ⟨_, rfl⟩⟩
  · cases info.validate with
    | error e => exact ⟨a.payloads, fun _ _ => rfl, .inl ⟨e, rfl⟩⟩
    | ok =>
      simp only
      split
      · exact ⟨a.payloads, fun _ _ => rfl, .inl ⟨_, rfl⟩⟩
      · obtain ⟨p, hp, ⟨e, h⟩ | ⟨bytes, hb, hs, hg, h⟩⟩ := a.upload_cases env owner info stream
        · exact ⟨p, hp, .inl ⟨e, by simp only [h]⟩⟩
        · obtain ⟨q, hq, ⟨e, hk⟩ | ⟨file, t', ht, hr, hk⟩⟩ :=
            keepIfRecorded_cases env owner { a with payloads := p }
              (Tables.addVersion (env.now 0) (env.now 1) owner node.id env.blobId info)
          · refine ⟨q, fun k hk => (hq k hk).trans (hp k hk), .inl ⟨e, ?_⟩⟩
            simp only [h, hk]
          · refine ⟨p, hp, .inr ⟨bytes, file, t', hb, hs, hg, ht, hr, ?_⟩⟩
            simp only [h, hk]

/-! ## Removals -/

/-- A removal fails and changes nothing, or its transaction is kept and the orphaned blobs are
released. -/
lemma remove_cases (node : Node) (recursive : Bool) :
    (∃ e, a.remove env owner node recursive = (.error e, a)) ∨
      ∃ removed orphaned t',
        removeStatements env owner node recursive a.tables = (.ok (removed, orphaned), t') ∧
        t'.referencesHold = true ∧
        a.remove env owner node recursive =
          (.ok ⟨removed, orphaned, (release env owner orphaned { a with tables := t' }).1⟩,
            (release env owner orphaned { a with tables := t' }).2) := by
  unfold remove
  rcases a.tables.transact_cases (removeStatements env owner node recursive)
    with ⟨e, h⟩ | ⟨⟨removed, orphaned⟩, t', hb, hr, h⟩ <;> rw [h]
  · exact .inl ⟨e, rfl⟩
  · exact .inr ⟨removed, orphaned, t', hb, hr, rfl⟩

/-- The removal of a version fails and changes nothing, or its transaction is kept and the orphaned
blob, if there is one, released. -/
lemma removeVersion_cases (node : Node) (blob : BlobId) :
    (∃ e, a.removeVersion env owner node blob = (.error e, a)) ∨
      ∃ orphaned t',
        removeVersionStatements env owner node.id blob a.tables = (.ok orphaned, t') ∧
        t'.referencesHold = true ∧
        a.removeVersion env owner node blob =
          (.ok ⟨[], orphaned, (release env owner orphaned { a with tables := t' }).1⟩,
            (release env owner orphaned { a with tables := t' }).2) := by
  unfold removeVersion
  rcases a.tables.transact_cases (removeVersionStatements env owner node.id blob)
    with ⟨e, h⟩ | ⟨orphaned, t', hb, hr, h⟩ <;> rw [h]
  · exact .inl ⟨e, rfl⟩
  · exact .inr ⟨orphaned, t', hb, hr, rfl⟩

end Archive

/-! ## Statements of transactions -/

namespace Archive

variable {env : Env} {owner : OwnerId} {t t' : Tables}

/-- A file that is recorded has been created, and its first version added. -/
lemma recordFile_steps {path : Path} {info : BlobInfo} {file : CreatedFile}
    (h : recordFile env owner path info t = (.ok file, t')) :
    ∃ t₁, t.createNode (env.nodeId 0) (env.now 0) owner path .file = (.ok file.node, t₁) ∧
      t₁.addVersion (env.now 1) (env.now 2) owner file.node.id env.blobId info =
        (.ok file.version, t') := by
  unfold recordFile at h
  split at h
  · simp at h
  · next node t₁ hn =>
    split at h
    · simp at h
    · next version t₂ hv =>
      simp only [Prod.mk.injEq, Except.ok.injEq] at h
      obtain ⟨rfl, rfl⟩ := h
      exact ⟨t₁, hn, hv⟩

/-- A removal takes nodes away, then all their links, and queues what has lost its last one. -/
lemma removeStatements_steps {node : Node} {recursive : Bool} {removed : List NodeId}
    {orphaned : List BlobId}
    (h : removeStatements env owner node recursive t = (.ok (removed, orphaned), t')) :
    ∃ t₁, removeNodes owner node recursive t = (removed, t₁) ∧
      (unlinkNodes owner removed t₁).1 = orphaned ∧
      (unlinkNodes owner removed t₁).2.queueDeletes (env.now 0) owner orphaned = t' := by
  unfold removeStatements at h
  split at h
  · simp at h
  · next ids t₁ _ hn =>
    simp only [Prod.mk.injEq, Except.ok.injEq] at h
    obtain ⟨⟨rfl, rfl⟩, rfl⟩ := h
    exact ⟨t₁, hn, rfl, rfl⟩

/-- A removal succeeds if it takes some nodes away. -/
lemma removeStatements_of_ne_nil (env : Env) {node : Node} {recursive : Bool}
    {removed : List NodeId} (h : removeNodes owner node recursive t = (removed, t'))
    (hne : removed ≠ []) :
    removeStatements env owner node recursive t =
      (.ok (removed, (unlinkNodes owner removed t').1),
        (unlinkNodes owner removed t').2.queueDeletes (env.now 0) owner
          (unlinkNodes owner removed t').1) := by
  obtain ⟨id, rest, rfl⟩ := List.exists_cons_of_ne_nil hne
  simp only [removeStatements, h]

/-- The removal of a version drops its link, and queues its blob if it has no link left. -/
lemma removeVersionStatements_steps {node : NodeId} {blob : BlobId} {orphaned : List BlobId}
    (h : removeVersionStatements env owner node blob t = (.ok orphaned, t')) :
    t.ownsBlob owner blob = true ∧
      (t.unlink owner node blob).2 = t.dropLinks (fun l => l.node == node && l.blob == blob) ∧
      Tables.orphans (t.unlink owner node blob).1.toList = orphaned ∧
      (t.unlink owner node blob).2.queueDeletes (env.now 0) owner orphaned = t' := by
  unfold removeVersionStatements at h
  split at h
  · simp at h
  · next u t₁ hu =>
    simp only [Prod.mk.injEq, Except.ok.injEq] at h
    obtain ⟨rfl, rfl⟩ := h
    rcases Tables.unlink_cases owner node blob t with hu' | ⟨-, ho, hu'⟩ <;> rw [hu] at hu' ⊢
    · simp at hu'
    · refine ⟨ho, (Prod.mk.inj hu').2, ?_, rfl⟩
      cases hlast : u.orphaned <;> simp [Tables.orphans, hlast]

end Archive

/-! ## Operations as runs of statements -/

instance : Inhabited Fresh := ⟨⟨default, default, default⟩⟩

/-- A supply of numbered identifiers at one time, with a store that does what it is asked for. -/
def Env.numbered (n : Nat) : Env where
  nodeId k := ⟨.ofNat (100 * n + k)⟩
  blobId := ⟨.ofNat n⟩
  now _ := default
  backend := .reliable

namespace Statement

/-- Calls in two groups are run one group after the other. -/
lemma runAll_append (xs ys : List (Fresh × OwnerId × Statement)) (t : Tables) :
    runAll (xs ++ ys) t = runAll ys (runAll xs t) := by
  induction xs generalizing t with
  | nil => rfl
  | cons call rest ih => exact ih _

/-- Is this a statement on behalf of the owner that lets all nodes stay? -/
def KeepsFor (owner caller : OwnerId) (s : Statement) : Prop := caller = owner ∧ s.keepsNodes = true

end Statement

namespace Tables

/-- Do the second tables come from the first by a run of statements, all of which satisfy `P`
together with their owners? -/
def RunsTo (P : OwnerId → Statement → Prop) (t t' : Tables) : Prop :=
  ∃ calls : List (Fresh × OwnerId × Statement),
    (∀ call ∈ calls, P call.2.1 call.2.2) ∧ Statement.runAll calls t = t'

namespace RunsTo

variable {P Q : OwnerId → Statement → Prop} {t t' t'' : Tables}

/-- No statement leads from tables to themselves. -/
lemma refl (t : Tables) : RunsTo P t t := ⟨[], by simp, rfl⟩

/-- Runs can be put together. -/
lemma trans (h : RunsTo P t t') (h' : RunsTo P t' t'') : RunsTo P t t'' := by
  obtain ⟨xs, hx, rfl⟩ := h
  obtain ⟨ys, hy, rfl⟩ := h'
  refine ⟨xs ++ ys, fun call hc => ?_, Statement.runAll_append xs ys t⟩
  rcases List.mem_append.1 hc with hc | hc
  · exact hx call hc
  · exact hy call hc

/-- A run of statements with a property is one of statements with a weaker property. -/
lemma mono (h : RunsTo P t t') (hPQ : ∀ owner s, P owner s → Q owner s) : RunsTo Q t t' := by
  obtain ⟨calls, hcalls, e⟩ := h
  exact ⟨calls, fun call hc => hPQ _ _ (hcalls call hc), e⟩

/-- One statement is a run. -/
lemma run {owner : OwnerId} {s : Statement} (h : P owner s) (fresh : Fresh) (t : Tables) :
    RunsTo P t (s.run fresh owner t).2 :=
  ⟨[(fresh, owner, s)], fun _ hc => List.mem_singleton.1 hc ▸ h, rfl⟩

/-- What every statement keeps is kept by a run of them. -/
lemma invariant {R : Tables → Prop} (h : RunsTo P t t')
    (hR : ∀ fresh owner (s : Statement) t, P owner s → R t → R (s.run fresh owner t).2) :
    R t → R t' := by
  obtain ⟨calls, hcalls, rfl⟩ := h
  induction calls generalizing t with
  | nil => exact id
  | cons call rest ih =>
    rw [List.forall_mem_cons] at hcalls
    exact fun ht => ih hcalls.2 (hR _ _ _ _ hcalls.1 ht)

/-- A transaction runs the statements of its body, or none. -/
lemma transact {α : Type} {body : Tables → Except ArchiveError α × Tables}
    (h : RunsTo P t (body t).2) : RunsTo P t (t.transact body).2 := by
  rcases t.transact_cases body with ⟨e, h'⟩ | ⟨x, t', hb, -, h'⟩ <;> rw [h']
  · exact refl t
  · rwa [hb] at h

/-! ### Statements with their own supply -/

variable (owner : OwnerId) (time : Instant) (t)

/-- The creation of a node is one statement. -/
lemma createNode (id : NodeId) (path : Path) (kind : Kind) :
    RunsTo (Statement.KeepsFor owner) t (t.createNode id time owner path kind).2 :=
  run (s := .createNode path kind) ⟨rfl, rfl⟩ ⟨fun _ => id, default, fun _ => time⟩ t

/-- The insertion of a blob with its first link is one statement. -/
lemma addVersion (uploaded : Instant) (node : NodeId) (blob : BlobId) (info : BlobInfo) :
    RunsTo (Statement.KeepsFor owner) t (t.addVersion uploaded time owner node blob info).2 :=
  run (s := .addVersion node none info) ⟨rfl, rfl⟩
    ⟨fun _ => default, blob, fun k => if k = 0 then uploaded else time⟩ t

/-- A copy of the newest version is one statement. -/
lemma linkNewest (source target : NodeId) :
    RunsTo (Statement.KeepsFor owner) t (t.linkNewest time owner source target).2 :=
  run (s := .linkNewest source target) ⟨rfl, rfl⟩ ⟨fun _ => default, default, fun _ => time⟩ t

/-- A full copy is one statement. -/
lemma linkAll (source target : NodeId) :
    RunsTo (Statement.KeepsFor owner) t (t.linkAll time owner source target).2 :=
  run (s := .linkAll source target) ⟨rfl, rfl⟩ ⟨fun _ => default, default, fun _ => time⟩ t

/-- Deletions are queued by one statement. -/
lemma queueDeletes (blobs : List BlobId) :
    RunsTo (Statement.KeepsFor owner) t (t.queueDeletes time owner blobs) :=
  run (s := .queueDeletes blobs) ⟨rfl, rfl⟩ ⟨fun _ => default, default, fun _ => time⟩ t

/-- Deletions are cleared by one statement. -/
lemma clearDeletes (blobs : List BlobId) :
    RunsTo (Statement.KeepsFor owner) t (t.clearDeletes owner blobs).2 :=
  run (s := .clearDeletes blobs) ⟨rfl, rfl⟩ default t

end RunsTo

end Tables

namespace Archive

open Tables (RunsTo)

variable (env : Env) (owner : OwnerId) (t : Tables)

/-- A file is recorded by the statements for its node and its version. -/
lemma recordFile_runsTo (path : Path) (info : BlobInfo) :
    RunsTo (Statement.KeepsFor owner) t (recordFile env owner path info t).2 := by
  have hnode := RunsTo.createNode t owner (env.now 0) (env.nodeId 0) path .file
  unfold recordFile
  split
  · next e => rwa [e] at hnode
  · next node t₁ e =>
    rw [e] at hnode
    have hversion := RunsTo.addVersion t₁ owner (env.now 2) (env.now 1) node.id env.blobId info
    split <;> next e' => rw [e'] at hversion; exact hnode.trans hversion

/-- A move is one statement, or none for a root. -/
lemma moveStatement_runsTo (node : Node) (target : Path) :
    RunsTo (Statement.KeepsFor owner) t (moveStatement owner node target t).2 := by
  have requireMoved {r : Except ArchiveError (Option Nat) × Tables}
      (h : RunsTo (Statement.KeepsFor owner) t r.2) :
      RunsTo (Statement.KeepsFor owner) t (requireMoved r).2 := by
    unfold Archive.requireMoved
    split
    · split <;> exact h
    · exact h
    · exact h
  unfold moveStatement
  split
  · exact requireMoved (.run (s := .moveFile node target) ⟨rfl, rfl⟩ default t)
  · exact requireMoved (.run (s := .moveDirectory node target) ⟨rfl, rfl⟩ default t)
  · exact .refl t

/-- A copy of nodes is one statement, or none for a root. -/
lemma copyNodes_runsTo (node : Node) (target : Path) :
    RunsTo (Statement.KeepsFor owner) t (copyNodes env owner node target t).2 := by
  unfold copyNodes
  split
  · have h : RunsTo (Statement.KeepsFor owner) t _ :=
      .run (s := .copyFile node target) ⟨rfl, rfl⟩ env.toFresh t
    simp only [Statement.run, Statement.answer] at h
    split <;> next e => rwa [e] at h
  · exact .run (s := .copyDirectory node target) ⟨rfl, rfl⟩ env.toFresh t
  · exact .refl t

/-- Copies are linked by one statement for each of them. -/
lemma linkCopies_runsTo (onlyNewest : Bool) (k : Nat) (copies : List CopiedNode) :
    RunsTo (Statement.KeepsFor owner) t (linkCopies env owner onlyNewest k copies t).2 := by
  induction copies generalizing k t with
  | nil => exact .refl t
  | cons copy rest ih =>
    have h : RunsTo (Statement.KeepsFor owner) t (if onlyNewest
        then t.linkNewest (env.now k) owner copy.source copy.destination
        else t.linkAll (env.now k) owner copy.source copy.destination).2 := by
      split
      · exact .linkNewest t owner _ _ _
      · exact .linkAll t owner _ _ _
    unfold linkCopies
    simp only
    split <;> next e => rw [e] at h; first | exact h | exact h.trans (ih _ _)

/-- A copy consists of statements of the owner that let nodes stay. -/
lemma copyStatements_runsTo (node : Node) (target : Path) (onlyNewest : Bool) :
    RunsTo (Statement.KeepsFor owner) t (copyStatements env owner node target onlyNewest t).2 := by
  have hnodes := copyNodes_runsTo env owner t node target
  unfold copyStatements
  split
  · next e => rwa [e] at hnodes
  · next e => rwa [e] at hnodes
  · next copies t₁ _ e =>
    rw [e] at hnodes
    have hlinks := linkCopies_runsTo env owner t₁ onlyNewest 1
      (copies.filter fun c => c.kind == .file)
    split <;> next e' => rw [e'] at hlinks; exact hnodes.trans hlinks

/-- Nodes are unlinked by one statement for each of them. -/
lemma unlinkNodes_runsTo (ids : List NodeId) :
    RunsTo (Statement.KeepsFor owner) t (unlinkNodes owner ids t).2 := by
  induction ids generalizing t with
  | nil => exact .refl t
  | cons id rest ih =>
    exact (RunsTo.run (s := .unlinkAll id) ⟨rfl, rfl⟩ default t).trans (ih _)

/-- A removal lets nodes go, but it acts for its owner as well. -/
lemma removeStatements_runsTo (node : Node) (recursive : Bool) :
    RunsTo (fun caller _ => caller = owner) t
      (removeStatements env owner node recursive t).2 := by
  have hnodes :
      RunsTo (fun caller _ => caller = owner) t (removeNodes owner node recursive t).2 := by
    unfold removeNodes
    split
    · exact .run (s := .removeSubtree node) rfl env.toFresh t
    · exact .run (s := .removeLeaf node) rfl env.toFresh t
  unfold removeStatements
  split
  · next e => rwa [e] at hnodes
  · next removed t₁ _ e =>
    rw [e] at hnodes
    exact (hnodes.trans ((unlinkNodes_runsTo owner t₁ removed).mono fun _ _ h => h.1)).trans
      ((RunsTo.queueDeletes _ owner _ _).mono fun _ _ h => h.1)

/-- A version is removed by a statement for its link and one for the ledger. -/
lemma removeVersionStatements_runsTo (node : NodeId) (blob : BlobId) :
    RunsTo (Statement.KeepsFor owner) t (removeVersionStatements env owner node blob t).2 := by
  have h : RunsTo (Statement.KeepsFor owner) t _ :=
    .run (s := .unlink node blob) ⟨rfl, rfl⟩ env.toFresh t
  simp only [Statement.run, Statement.answered] at h
  unfold removeVersionStatements
  split <;> next e => rw [e] at h; first | exact h | exact h.trans (.queueDeletes _ owner _ _)

/-- Releases consist of statements that let nodes stay, for whichever owners they are. -/
lemma releaseAll_runsTo (entries : List (OwnerId × List BlobId)) (a : Archive) :
    RunsTo (fun _ s => s.keepsNodes = true) a.tables (releaseAll env entries a).2.tables := by
  induction entries generalizing a with
  | nil => exact .refl _
  | cons entry rest ih =>
    exact ((RunsTo.clearDeletes a.tables entry.1 _).mono fun _ _ h => h.2).trans
      (ih (release env entry.1 entry.2 a).2)

end Archive

/-- May an operation on behalf of the owner run this statement for this caller? A sweep alone acts
for others, and a removal alone lets nodes go. -/
def Operation.MayCall (owner : OwnerId) (op : Operation) (caller : OwnerId) (s : Statement) :
    Prop :=
  (caller = owner ∨ ∃ limit, op = .sweep limit) ∧
    (s.keepsNodes = true ∨ ∃ node recursive, op = .remove node recursive)

/-- **The tables of an operation** are those after a run of statements. -/
theorem Operation.runsTo (env : Env) (owner : OwnerId) (op : Operation) (a : Archive) :
    Tables.RunsTo (op.MayCall owner) a.tables (op.run env owner a).2.tables := by
  have ofKeeps {t t' : Tables} (h : Tables.RunsTo (Statement.KeepsFor owner) t t') :
      Tables.RunsTo (op.MayCall owner) t t' := h.mono fun _ _ h => ⟨.inl h.1, .inl h.2⟩
  cases op with
  | createRoot => exact ofKeeps (Tables.RunsTo.createNode a.tables owner _ _ _ _).transact
  | createDirectory path => exact ofKeeps (Tables.RunsTo.createNode a.tables owner _ _ _ _).transact
  | createFile path info stream =>
    change Tables.RunsTo _ a.tables (a.createFile env owner path info stream).2.tables
    obtain ⟨p, -, ⟨e, h⟩ | ⟨_, file, t', -, -, -, ht, -, h⟩⟩ :=
      a.createFile_cases env owner path info stream <;> rw [h]
    · exact .refl _
    · have := Archive.recordFile_runsTo env owner a.tables path info
      rw [ht] at this
      exact ofKeeps this
  | addVersion node info stream =>
    change Tables.RunsTo _ a.tables (a.addVersion env owner node info stream).2.tables
    obtain ⟨p, -, ⟨e, h⟩ | ⟨_, version, t', -, -, -, ht, -, h⟩⟩ :=
      a.addVersion_cases env owner node info stream <;> rw [h]
    · exact .refl _
    · have := Tables.RunsTo.addVersion a.tables owner (env.now 1) (env.now 0) node.id env.blobId
        info
      rw [ht] at this
      exact ofKeeps this
  | move node target =>
    exact ofKeeps (Archive.moveStatement_runsTo owner a.tables node target).transact
  | copy node target onlyNewest =>
    exact ofKeeps (Archive.copyStatements_runsTo env owner a.tables node target onlyNewest).transact
  | remove node recursive =>
    change Tables.RunsTo _ a.tables (a.remove env owner node recursive).2.tables
    rcases a.remove_cases env owner node recursive with
      ⟨e, h⟩ | ⟨removed, orphaned, t', ht, -, h⟩ <;> rw [h]
    · exact .refl _
    · have := Archive.removeStatements_runsTo env owner a.tables node recursive
      rw [ht] at this
      exact (this.mono fun _ _ h => ⟨.inl h, .inr ⟨node, recursive, rfl⟩⟩).trans
        (ofKeeps (.clearDeletes t' owner _))
  | removeVersion node blob =>
    change Tables.RunsTo _ a.tables (a.removeVersion env owner node blob).2.tables
    rcases a.removeVersion_cases env owner node blob with
      ⟨e, h⟩ | ⟨orphaned, t', ht, -, h⟩ <;> rw [h]
    · exact .refl _
    · have := Archive.removeVersionStatements_runsTo env owner a.tables node.id blob
      rw [ht] at this
      exact ofKeeps (this.trans (.clearDeletes t' owner _))
  | sweep limit =>
    exact (Archive.releaseAll_runsTo env _ a).mono fun _ _ h => ⟨.inr ⟨limit, rfl⟩, .inl h⟩
  | _ => exact .refl _

end VersionedTree
