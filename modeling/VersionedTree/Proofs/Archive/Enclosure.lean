import VersionedTree.Proofs.Archive.Transactions
import VersionedTree.Proofs.Tables.Linked

/-!
# Transactions of one owner

Every history leaves tables whose nodes form a forest, whose blobs are counted, and whose links
stay within an owner. From such tables the statements of an operation see and change the rows of
their owner only, and what they have done when they succeed can always be kept: whether references
hold at the end of a transaction does not depend on others.

## Main definitions

* `VersionedTree.Tables.Sound` — what holds of the tables between operations.
* `VersionedTree.Tables.Enclosed` — the body of a transaction that depends on one owner only.
* `VersionedTree.Env.IsFreshFor` — new identifiers that no row of another owner has.

## Main results

* `VersionedTree.Archive.sound` — the tables after every history.
* `VersionedTree.Tables.Enclosed.transact` — the transaction in tables that agree.
* `VersionedTree.Tables.Sound.recordFile` and its kin — the operations have such bodies.
-/

set_option autoImplicit false

namespace VersionedTree

/-! ## Tables between operations -/

/-- What holds of the tables between operations. -/
structure Tables.Sound (t : Tables) : Prop where
  forest : t.IsForest
  counted : t.Counted
  linked : t.Linked

namespace Tables.Sound

variable {t t' : Tables}

/-- Tables without rows are sound. -/
lemma empty : Sound .empty := ⟨.empty, .empty, .empty⟩

/-- A forest has unique keys. -/
lemma keyed (h : t.Sound) : t.Keyed := h.forest.keyed

/-- Statements that let nodes stay keep the tables sound. -/
lemma ofRun (h : t.Sound) {P : OwnerId → Statement → Prop} (hr : RunsTo P t t')
    (hP : ∀ owner s, P owner s → s.keepsNodes = true) : t'.Sound := by
  refine hr.invariant (fun fresh owner s t hs ht => ?_) h
  exact ⟨ht.forest.run fresh owner s, ht.counted.run fresh owner s,
    ht.linked.run ht.counted fresh owner (hP owner s hs)⟩

/-- Statements of one owner that let nodes stay keep the tables sound. -/
lemma ofKeeps (h : t.Sound) {owner : OwnerId}
    (hr : RunsTo (Statement.KeepsFor owner) t t') : t'.Sound :=
  h.ofRun hr fun _ _ hs => hs.2

/-- The statements of a removal let nodes go, but not their links stay. -/
lemma linked_removeStatements (h : t.Sound) (env : Env) (owner : OwnerId) (node : Node)
    (recursive : Bool) {removed : List NodeId} {orphaned : List BlobId}
    (hb : Archive.removeStatements env owner node recursive t = (.ok (removed, orphaned), t')) :
    t'.Linked := by
  have hnodes := h.linked.removeNodes h.keyed owner node recursive
  obtain ⟨t₁, hn, -, rfl⟩ := Archive.removeStatements_steps hb
  rw [hn] at hnodes
  rw [queueDeletes_frame]
  exact hnodes.unlinkNodes

/-- A removal whose statements succeed keeps the tables sound. -/
lemma ofRemoval (h : t.Sound) {env : Env} {owner : OwnerId} {node : Node} {recursive : Bool}
    {removed : List NodeId} {orphaned : List BlobId}
    (hb : Archive.removeStatements env owner node recursive t = (.ok (removed, orphaned), t')) :
    t'.Sound := by
  have hruns := Archive.removeStatements_runsTo env owner t node recursive
  rw [hb] at hruns
  exact ⟨hruns.invariant (fun fresh owner s t _ ht => ht.run fresh owner s) h.forest,
    hruns.invariant (fun fresh owner s t _ ht => ht.run fresh owner s) h.counted,
    h.linked_removeStatements env owner node recursive hb⟩

/-- **The links to the blobs of an owner are those from its files**, so that it does not matter by
which of the two a link is counted among the belongings of an owner. -/
theorem links_only (h : t.Sound) (owner : OwnerId) :
    (t.only owner).links = t.links.filter fun l => t.hasKind owner l.node .file := by
  refine List.filter_congr fun l hl => ?_
  obtain ⟨o, hb, hk⟩ := h.linked l hl
  by_cases ho : o = owner
  · rw [← ho, hb, hk]
  · have hkind : t.hasKind owner l.node .file = false := by
      rw [Bool.eq_false_iff]
      intro hk'
      obtain ⟨m, hm, hmid, hmo, -⟩ := hasKind_iff.1 hk
      obtain ⟨n, hn, hnid, hno, -⟩ := hasKind_iff.1 hk'
      obtain rfl := h.keyed.nodes.eq_of_id hm hn (hmid.trans hnid.symm)
      exact ho (hmo.symm.trans hno)
    rw [hkind]
    exact h.keyed.ownsBlob_eq_false hb (Ne.symm ho)

end Tables.Sound

/-- **Every operation keeps the tables sound.**

**Proof sketch.** All operations but removals consist of statements that let nodes stay. A removal
takes away the links of the nodes it removes, before its transaction ends. -/
theorem Operation.sound (env : Env) (owner : OwnerId) (op : Operation) {a : Archive}
    (h : a.tables.Sound) : (op.run env owner a).2.tables.Sound := by
  have hruns := op.runsTo env owner a
  by_cases hop : ∃ node recursive, op = .remove node recursive
  · refine ⟨hruns.invariant (fun fresh owner s t _ ht => ht.run fresh owner s) h.forest,
      hruns.invariant (fun fresh owner s t _ ht => ht.run fresh owner s) h.counted, ?_⟩
    obtain ⟨node, recursive, rfl⟩ := hop
    change (a.remove env owner node recursive).2.tables.Linked
    rcases a.remove_cases env owner node recursive with
      ⟨e, hr⟩ | ⟨removed, orphaned, t', hb, -, hr⟩ <;> rw [hr]
    · exact h.linked
    · have hlinked : t'.Linked := h.linked_removeStatements env owner node recursive hb
      exact hlinked
  · exact h.ofRun hruns fun _ _ hs => hs.2.resolve_right hop

/-- **The tables after every history** have a forest of nodes, counted blobs, and links that join a
file and a blob of one owner. -/
theorem Archive.sound (history : List Step) : (Archive.empty.after history).tables.Sound := by
  suffices h : ∀ a : Archive, a.tables.Sound → (a.after history).tables.Sound from h _ .empty
  induction history with
  | nil => exact fun _ h => h
  | cons s rest ih => exact fun a h => ih _ (s.operation.sound s.env s.owner h)

/-- A removal whose statements succeed is kept, and the blobs that it orphaned are released. -/
lemma Archive.remove_of_ok {env : Env} {owner : OwnerId} {node : Node} {recursive : Bool}
    {a : Archive} (h : a.tables.Sound) {removed : List NodeId} {orphaned : List BlobId}
    {t' : Tables}
    (hb : removeStatements env owner node recursive a.tables = (.ok (removed, orphaned), t')) :
    a.remove env owner node recursive =
      (.ok ⟨removed, orphaned, (release env owner orphaned { a with tables := t' }).1⟩,
        (release env owner orphaned { a with tables := t' }).2) := by
  have hlinked := h.linked_removeStatements env owner node recursive hb
  rw [remove, Tables.transact_of_ok hb hlinked.referencesHold]

/-! ## Bodies of transactions -/

namespace Tables

variable {α : Type} {owner : OwnerId} {t u : Tables}

/-- A body of a transaction that sees the rows of one owner only, and whose changes can be kept
when it succeeds. -/
structure Enclosed (owner : OwnerId) (body : Tables → Except ArchiveError α × Tables)
    (t : Tables) : Prop where
  sees : Local owner body t
  linked : ∀ x t', body t = (.ok x, t') → t'.Linked

/-- Tables that agree on the rows of an owner answer alike, and agree afterwards. -/
lemma Local.agree {β : Type} {f : Tables → β × Tables} (ht : Local owner f t)
    (hu : Local owner f u) (h : t.only owner = u.only owner) :
    (f t).1 = (f u).1 ∧ (f t).2.only owner = (f u).2.only owner := by
  have heq : ((f t).1, (f t).2.only owner) = ((f u).1, (f u).2.only owner) := by
    rw [← ht, ← hu, h]
  exact Prod.mk.inj heq

/-- A body that succeeds in enclosed tables is kept. -/
lemma Enclosed.transact_eq {body : Tables → Except ArchiveError α × Tables}
    (h : Enclosed owner body t) :
    (∃ e, (body t).1 = .error e ∧ t.transact body = (.error e, t)) ∨
      (∃ x, (body t).1 = .ok x) ∧ t.transact body = body t := by
  cases hb : body t with
  | mk r t' =>
    cases r with
    | error e => exact .inl ⟨e, rfl, by simp [Tables.transact, hb]⟩
    | ok x =>
      have hr := (h.linked x t' hb).referencesHold
      exact .inr ⟨⟨x, rfl⟩, by simp [Tables.transact, hb, commit, hr]⟩

/-- **A transaction of one owner** has the same result in tables that agree on the rows of the
owner, and leaves tables that agree. -/
theorem Enclosed.transact {body : Tables → Except ArchiveError α × Tables}
    (ht : Enclosed owner body t) (hu : Enclosed owner body u) (h : t.only owner = u.only owner) :
    (t.transact body).1 = (u.transact body).1 ∧
      (t.transact body).2.only owner = (u.transact body).2.only owner := by
  obtain ⟨hresult, honly⟩ := ht.sees.agree hu.sees h
  rcases ht.transact_eq with ⟨e, he, ht'⟩ | ⟨⟨x, hx⟩, ht'⟩ <;>
    rcases hu.transact_eq with ⟨e', he', hu'⟩ | ⟨⟨x', hx'⟩, hu'⟩ <;> rw [ht', hu']
  · refine ⟨?_, h⟩
    rw [he, he', Except.error.injEq] at hresult
    rw [hresult]
  · rw [he, hx'] at hresult
    cases hresult
  · rw [hx, he'] at hresult
    cases hresult
  · exact ⟨hresult, honly⟩

end Tables

/-- New identifiers that no row of another owner has. -/
structure Env.IsFreshFor (env : Env) (owner : OwnerId) (t : Tables) : Prop where
  nodes : ∀ k, t.IsFreshNode owner (env.nodeId k)
  blob : t.IsFreshBlob owner env.blobId

namespace Tables.Local

variable {env : Env} {t : Tables} (owner : OwnerId)

/-- Copies get new identifiers, all of them from the supply. -/
lemma copyNodes (hf : env.IsFreshFor owner t) (node : Node) (target : Path) :
    Local owner (Archive.copyNodes env owner node target) t := by
  unfold Local Archive.copyNodes
  cases node.kind with
  | file =>
    have hcopy : Local owner (Tables.copyFile (env.nodeId 0) (env.now 0) owner node target) t :=
      Local.copyFile _ node target (hf.nodes 0)
    simp only
    rw [hcopy]
    obtain ⟨_ | copy, t₁⟩ := t.copyFile (env.nodeId 0) (env.now 0) owner node target <;> rfl
  | dir => exact Local.copyDirectory _ node target hf.nodes
  | root => rfl

/-- The copies are linked one after the other, each to blobs of the owner. -/
lemma linkCopies (env : Env) (onlyNewest : Bool) (k : Nat) (copies : List CopiedNode) (t : Tables) :
    Local owner (Archive.linkCopies env owner onlyNewest k copies) t := by
  induction copies generalizing k t with
  | nil => rfl
  | cons copy rest ih =>
    have hnewest :
        Local owner (Tables.linkNewest (env.now k) owner copy.source copy.destination) t :=
      Local.linkNewest _ _ _
    have hall : Local owner (Tables.linkAll (env.now k) owner copy.source copy.destination) t :=
      Local.linkAll _ _ _
    unfold Local Archive.linkCopies
    simp only
    rw [hnewest, hall]
    cases onlyNewest with
    | true =>
      simp only [if_true]
      obtain ⟨_ | _ | n, t₁⟩ := t.linkNewest (env.now k) owner copy.source copy.destination
      · rfl
      · rfl
      · exact ih (k + 1) t₁
    | false =>
      simp only [Bool.false_eq_true, if_false]
      obtain ⟨_ | _ | n, t₁⟩ := t.linkAll (env.now k) owner copy.source copy.destination
      · rfl
      · rfl
      · exact ih (k + 1) t₁

/-- The nodes are unlinked one after the other. -/
lemma unlinkNodes (ids : List NodeId) (t : Tables) :
    Local owner (Archive.unlinkNodes owner ids) t := by
  induction ids generalizing t with
  | nil => rfl
  | cons id rest ih =>
    have hunlink : Local owner (Tables.unlinkAll owner id) t := Local.unlinkAll id
    have hrest : Local owner (Archive.unlinkNodes owner rest) (t.unlinkAll owner id).2 := ih _
    unfold Local Archive.unlinkNodes
    simp only
    rw [hunlink, hrest]

/-- The removal of nodes reads and changes rows of its owner only. -/
lemma removeNodes (node : Node) (recursive : Bool) :
    Local owner (Archive.removeNodes owner node recursive) t := by
  have hleaf : Local owner (Tables.removeLeaf owner node) t := Local.removeLeaf node
  unfold Local Archive.removeNodes
  cases recursive with
  | true => exact Local.removeSubtree node
  | false =>
    simp only [Bool.false_eq_true, if_false]
    rw [hleaf]

end Tables.Local

namespace Tables.Sound

variable {env : Env} {t : Tables}

/-- Statements that let nodes stay can be kept. -/
lemma encloses {α : Type} (h : t.Sound) {owner : OwnerId}
    {body : Tables → Except ArchiveError α × Tables} (hl : Local owner body t)
    (hr : RunsTo (Statement.KeepsFor owner) t (body t).2) : Enclosed owner body t := by
  refine ⟨hl, fun x t' hb => ?_⟩
  rw [hb] at hr
  exact (h.ofKeeps hr).linked

variable (owner : OwnerId)

/-- A root or a directory. -/
lemma createNode (h : t.Sound) {id : NodeId} (hf : t.IsFreshNode owner id) (time : Instant)
    (path : Path) (kind : Kind) : Enclosed owner (createNode id time owner path kind) t :=
  h.encloses (Local.createNode time hf path kind) (.createNode t owner time id path kind)

/-- A new version: its blob is linked to a file of the same owner. -/
lemma addVersion (h : t.Sound) {blob : BlobId} (hf : t.IsFreshBlob owner blob)
    (uploaded time : Instant) (node : NodeId) (info : BlobInfo) :
    Enclosed owner (addVersion uploaded time owner node blob info) t :=
  h.encloses (Local.addVersion time node h.counted hf uploaded info)
    (.addVersion t owner time uploaded node blob info)

/-- A new file: the node comes first, and no blob with it. -/
lemma recordFile (h : t.Sound) (hf : env.IsFreshFor owner t) (path : Path) (info : BlobInfo) :
    Enclosed owner (Archive.recordFile env owner path info) t := by
  refine h.encloses ?_ (Archive.recordFile_runsTo env owner t path info)
  have hnode : Local owner (Tables.createNode (env.nodeId 0) (env.now 0) owner path .file) t :=
    Local.createNode _ (hf.nodes 0) path .file
  have hframe := createNode_frame owner (env.now 0) t (env.nodeId 0) path .file
  unfold Local Archive.recordFile
  rw [hnode]
  cases e : t.createNode (env.nodeId 0) (env.now 0) owner path .file with
  | mk r t₁ =>
    -- the blob is as new after the creation of the node as it was before
    have hkept : t₁ = { t with nodes := t₁.nodes } := by rwa [e] at hframe
    obtain _ | node := r
    · rfl
    · have hfresh : t₁.IsFreshBlob owner env.blobId := by
        rw [hkept]
        exact hf.blob
      have hcounted : t₁.Counted := by
        rw [hkept]
        exact h.counted.withNodes
      have hversion : Local owner
          (Tables.addVersion (env.now 1) (env.now 2) owner node.id env.blobId info) t₁ :=
        Local.addVersion _ _ hcounted hfresh _ info
      simp only
      rw [hversion]
      obtain ⟨_ | version, t₂⟩ :=
        t₁.addVersion (env.now 1) (env.now 2) owner node.id env.blobId info <;> rfl

/-- A move: nodes get new places, and keep their identifiers. -/
lemma moveStatement (h : t.Sound) (node : Node) (target : Path) :
    Enclosed owner (Archive.moveStatement owner node target) t := by
  refine h.encloses ?_ (Archive.moveStatement_runsTo owner t node target)
  have requireMoved (r : Except ArchiveError (Option Nat)) (t' : Tables) :
      Archive.requireMoved (r, t'.only owner) =
        ((Archive.requireMoved (r, t')).1, (Archive.requireMoved (r, t')).2.only owner) := by
    obtain _ | _ | n := r
    · rfl
    · rfl
    · simp only [Archive.requireMoved]
      split <;> rfl
  unfold Local Archive.moveStatement
  cases node.kind with
  | file =>
    have hmove : Local owner (moveFile owner node target) t := Local.moveFile node target
    simp only
    rw [hmove]
    exact requireMoved _ _
  | dir =>
    have hmove : Local owner (moveDirectory owner node target) t :=
      Local.moveDirectory node target h.keyed
    simp only
    rw [hmove]
    exact requireMoved _ _
  | root => rfl

/-- A copy: the new files are linked to the blobs of their sources. -/
lemma copyStatements (h : t.Sound) (hf : env.IsFreshFor owner t) (node : Node) (target : Path)
    (onlyNewest : Bool) :
    Enclosed owner (Archive.copyStatements env owner node target onlyNewest) t := by
  refine h.encloses ?_ (Archive.copyStatements_runsTo env owner t node target onlyNewest)
  have hnodes := Local.copyNodes owner hf node target
  unfold Local Archive.copyStatements
  rw [hnodes]
  obtain ⟨_ | _ | ⟨copy, rest⟩, t₁⟩ := Archive.copyNodes env owner node target t
  · rfl
  · rfl
  · have hlinks := Local.linkCopies owner env onlyNewest 1
      ((copy :: rest).filter fun c => c.kind == .file) t₁
    simp only
    rw [hlinks]
    obtain ⟨_ | _, t₂⟩ := Archive.linkCopies env owner onlyNewest 1
      ((copy :: rest).filter fun c => c.kind == .file) t₁ <;> rfl

/-- A removal: the links of the removed nodes go before the transaction ends. -/
lemma removeStatements (h : t.Sound) (node : Node) (recursive : Bool) :
    Enclosed owner (Archive.removeStatements env owner node recursive) t := by
  refine ⟨?_, fun x t' hb => h.linked_removeStatements env owner node recursive hb⟩
  have hnodes : Local owner (Archive.removeNodes owner node recursive) t :=
    Local.removeNodes owner node recursive
  unfold Local Archive.removeStatements
  rw [hnodes]
  obtain ⟨_ | ⟨id, rest⟩, t₁⟩ := Archive.removeNodes owner node recursive t
  · rfl
  · have hlinks := Local.unlinkNodes owner (id :: rest) t₁
    simp only
    rw [hlinks, queueDeletes_only]

/-- The removal of a version: a link goes, and all nodes stay. -/
lemma removeVersionStatements (h : t.Sound) (node : NodeId) (blob : BlobId) :
    Enclosed owner (Archive.removeVersionStatements env owner node blob) t := by
  refine h.encloses ?_ (Archive.removeVersionStatements_runsTo env owner t node blob)
  have hunlink : Local owner (unlink owner node blob) t := Local.unlink node blob
  unfold Local Archive.removeVersionStatements
  rw [hunlink]
  obtain ⟨_ | unlinked, t₁⟩ := t.unlink owner node blob
  · rfl
  · simp only
    rw [queueDeletes_only]

end Tables.Sound

end VersionedTree
