import VersionedTree.Proofs.Archive.Enclosure

/-!
# Owners are isolated from each other

What an owner does touches nothing that belongs to others, and depends on nothing that belongs to
others: not on their nodes, blobs, links, pending deletions or payloads, whatever nodes, versions
and identifiers the owner claims. Only a sweep acts for all owners at once.

## Main definitions

* `VersionedTree.Archive.AgreeFor` — archives with the same belongings of an owner.
* `VersionedTree.Archive.Alike` — equal results, with archives that agree.

## Main results

* `VersionedTree.Operation.leavesOthers` — an operation leaves the belongings of others alone.
* `VersionedTree.Archive.AgreeFor.run` — an operation in archives that agree.
* `VersionedTree.Archive.isolated` — both, for every archive that a history leads to.

## Design

Archives agree if the rows of the owner are the same, in the order in which they came, and if the
payloads under the keys of the owner are. The links of an owner are those to its blobs, which are
those from its files as well (`VersionedTree.Tables.Sound.links_only`).
-/

set_option autoImplicit false

namespace VersionedTree

namespace Archive

/-- Do the archives agree on the nodes, the blobs, the links to these, the pending deletions and
the payloads of an owner? -/
structure AgreeFor (owner : OwnerId) (a b : Archive) : Prop where
  tables : a.tables.only owner = b.tables.only owner
  payloads : a.payloads.AgreeFor owner b.payloads

/-- Are the results equal, and do the archives agree? -/
def Alike {α : Type} (owner : OwnerId) (r s : α × Archive) : Prop :=
  r.1 = s.1 ∧ AgreeFor owner r.2 s.2

end Archive

/-! ## What belongs to others -/

namespace Operation

variable {env : Env} {owner : OwnerId} {op : Operation} {a : Archive}

/-- Statements on behalf of an owner are all that an operation runs, but for a sweep. -/
lemma leavesOthers_tables (h : a.tables.Sound) (hop : ∀ limit, op ≠ .sweep limit) :
    a.tables.LeavesOthers owner (op.run env owner a).2.tables := by
  have hruns := (op.runsTo env owner a).invariant (R := fun t =>
    (t.Keyed ∧ t.Counted) ∧ Tables.LeavesOthers owner a.tables t)
  refine (hruns ?_ ⟨⟨h.keyed, h.counted⟩, .refl owner _⟩).2
  rintro fresh caller s t ⟨hcaller, -⟩ ⟨⟨hk, hc⟩, ht⟩
  obtain rfl : caller = owner := hcaller.resolve_right fun ⟨limit, e⟩ => hop limit e
  exact ⟨⟨hk.run fresh caller s, hc.run fresh caller s⟩, ht.trans (.run hk hc fresh caller s)⟩

/-- Puts and deletions name keys of the owner. -/
lemma leavesOthers_payloads (hop : ∀ limit, op ≠ .sweep limit) {k : Key} (hk : k.owner ≠ owner) :
    (op.run env owner a).2.payloads.get? k = a.payloads.get? k := by
  have hne (blob : BlobId) : k ≠ ⟨owner, blob⟩ := fun e => hk (congrArg Key.owner e)
  have hrelease (blobs : List BlobId) (b : Archive) :
      (b.release env owner blobs).2.payloads.get? k = b.payloads.get? k :=
    Payloads.get?_deleteMany_of_ne fun blob _ => hne blob
  cases op with
  | createFile path info stream =>
    change (a.createFile env owner path info stream).2.payloads.get? k = _
    obtain ⟨p, hp, ⟨e, h⟩ | ⟨_, file, t', -, -, -, -, -, h⟩⟩ :=
      a.createFile_cases env owner path info stream <;> rw [h] <;> exact hp k (hne _)
  | addVersion node info stream =>
    change (a.addVersion env owner node info stream).2.payloads.get? k = _
    obtain ⟨p, hp, ⟨e, h⟩ | ⟨_, version, t', -, -, -, -, -, h⟩⟩ :=
      a.addVersion_cases env owner node info stream <;> rw [h] <;> exact hp k (hne _)
  | remove node recursive =>
    change (a.remove env owner node recursive).2.payloads.get? k = _
    rcases a.remove_cases env owner node recursive with
      ⟨e, h⟩ | ⟨removed, orphaned, t', -, -, h⟩ <;> rw [h]
    exact hrelease orphaned _
  | removeVersion node blob =>
    change (a.removeVersion env owner node blob).2.payloads.get? k = _
    rcases a.removeVersion_cases env owner node blob with
      ⟨e, h⟩ | ⟨orphaned, t', -, -, h⟩ <;> rw [h]
    exact hrelease orphaned _
  | sweep limit => exact absurd rfl (hop limit)
  | _ => rfl

/-- **An operation leaves the belongings of others alone.** -/
theorem leavesOthers (h : a.tables.Sound) (hop : ∀ limit, op ≠ .sweep limit) {other : OwnerId}
    (hne : other ≠ owner) : Archive.AgreeFor other (op.run env owner a).2 a :=
  ⟨leavesOthers_tables h hop other hne, fun _ => leavesOthers_payloads hop hne⟩

end Operation

/-! ## What an operation depends on -/

namespace Archive.AgreeFor

variable {env : Env} {owner : OwnerId} {a b : Archive}

/-! ### Reading -/

section Reading

/-- A place of the owner has the same node in both archives, or none. -/
lemma resolve (h : AgreeFor owner a b) (path : Path) :
    a.resolve owner path = b.resolve owner path := by
  unfold Archive.resolve
  rw [← Tables.nodeAt?_only a.tables, h.tables, Tables.nodeAt?_only]

/-- An identifier stands for the same node of the owner, or for none. -/
lemma node (h : AgreeFor owner a b) (id : NodeId) : a.node owner id = b.node owner id := by
  unfold Archive.node
  rw [← Tables.node?_only a.tables, h.tables, Tables.node?_only]

/-- A node has the same newest versions for the owner. -/
lemma newestVersions (h : AgreeFor owner a b) (node : NodeId) (limit : Nat) :
    a.tables.newestVersions owner node limit = b.tables.newestVersions owner node limit := by
  rw [← Tables.newestVersions_only a.tables, h.tables, Tables.newestVersions_only]

/-- A version of a node is found in both archives, or in none. -/
lemma version? (h : AgreeFor owner a b) (node : NodeId) (blob : BlobId) :
    a.tables.version? owner node blob = b.tables.version? owner node blob := by
  rw [← Tables.version?_only a.tables, h.tables, Tables.version?_only]

/-- A listing has the children of a place, and of the files among them the newest versions. -/
lemma list (h : AgreeFor owner a b) (path : Path) : a.list owner path = b.list owner path := by
  have hentry : a.entry owner = b.entry owner := by
    funext child
    simp only [Archive.entry, h.newestVersions]
  unfold Archive.list
  rw [h.resolve, hentry]
  cases b.resolve owner path with
  | error e => rfl
  | ok top =>
    simp only
    rw [← Tables.children_only a.tables, h.tables, Tables.children_only]

/-- The first page of a history is the same, with the same count. -/
lemma firstPage (h : AgreeFor owner a b) (node : Node) (limit : Nat) :
    a.firstPage owner node limit = b.firstPage owner node limit := by
  unfold Archive.firstPage
  rw [h.newestVersions, ← Tables.countVersions_only a.tables, h.tables, Tables.countVersions_only]

/-- So is the page that follows a version, whether the version is still there or not. -/
lemma nextPage (h : AgreeFor owner a b) (last : Version) (limit : Nat) :
    a.nextPage owner last limit = b.nextPage owner last limit := by
  unfold Archive.nextPage
  rw [← Tables.versionsAfter_only a.tables, h.tables, Tables.versionsAfter_only]

/-- A version is found by its blob in both archives, or refused for the same reason. -/
lemma findVersion (h : AgreeFor owner a b) (node : Node) (blob : BlobId) :
    a.findVersion owner node blob = b.findVersion owner node blob := by
  unfold Archive.findVersion
  rw [h.version?]

/-- A version that is still linked is read under a key of the owner. -/
lemma readVersion (h : AgreeFor owner a b) (version : Version) :
    a.readVersion env owner version = b.readVersion env owner version := by
  unfold Archive.readVersion
  rw [h.version?, h.payloads.read]

end Reading

/-! ### Payloads -/

section Payloads

/-- Archives that agree do so after the payload under one key of the owner has been discarded. -/
lemma discard (h : AgreeFor owner a b) (blob : BlobId) :
    AgreeFor owner (a.discard env ⟨owner, blob⟩) (b.discard env ⟨owner, blob⟩) :=
  ⟨h.tables, h.payloads.delete env.backend blob⟩

/-- An upload succeeds in both archives or fails in both with the same error. It leaves the
tables alone. -/
lemma upload (h : AgreeFor owner a b) (env : Env) (info : BlobInfo) (stream : List Chunk) :
    ∃ p q : Payloads, p.AgreeFor owner q ∧
      ((∃ e, a.upload env owner info stream = (.error e, { a with payloads := p }) ∧
          b.upload env owner info stream = (.error e, { b with payloads := q })) ∨
        a.upload env owner info stream = (.ok (), { a with payloads := p }) ∧
          b.upload env owner info stream = (.ok (), { b with payloads := q })) := by
  obtain ⟨hresult, hstores⟩ := h.payloads.putStream env.backend ⟨owner, env.blobId⟩ stream
  -- what is left after a failure, of the stream or of the check of its length
  have hdiscarded := hstores.delete env.backend env.blobId
  unfold Archive.upload
  simp only
  cases ha : a.payloads.putStream env.backend ⟨owner, env.blobId⟩ stream with
  | mk r p =>
    cases hb : b.payloads.putStream env.backend ⟨owner, env.blobId⟩ stream with
    | mk s q =>
      rw [ha, hb] at hresult hstores hdiscarded
      obtain rfl : r = s := hresult
      cases r with
      | error e => exact ⟨_, _, hdiscarded, .inl ⟨e, rfl, rfl⟩⟩
      | ok written =>
        by_cases hs : (written : Int) = info.size
        · exact ⟨p, q, hstores, .inr (by simp [hs])⟩
        · exact ⟨_, _, hdiscarded, .inl ⟨_, by simp only [if_neg hs]; exact ⟨rfl, rfl⟩⟩⟩

/-- The same deletions are confirmed, and their entries leave the ledger. -/
lemma release (h : AgreeFor owner a b) (env : Env) (blobs : List BlobId) :
    Alike owner (a.release env owner blobs) (b.release env owner blobs) := by
  obtain ⟨hreport, hstores⟩ := h.payloads.deleteMany env.backend blobs
  unfold Archive.release Alike
  simp only
  rw [hreport]
  have hcleared := Tables.Local.agree
    (Tables.Local.clearDeletes (b.payloads.deleteMany env.backend owner blobs).1.deleted)
    (Tables.Local.clearDeletes _) h.tables
  exact ⟨rfl, ⟨hcleared.2, hstores⟩⟩

end Payloads

/-! ### Transactions -/

section Transactions

variable {α : Type} {body : Tables → Except ArchiveError α × Tables}

/-- A transaction succeeds in both archives or fails in both with the same error. -/
lemma transact_cases (h : AgreeFor owner a b) (ha : a.tables.Enclosed owner body)
    (hb : b.tables.Enclosed owner body) :
    ∃ t u : Tables, AgreeFor owner { a with tables := t } { b with tables := u } ∧
      ((∃ e, a.tables.transact body = (.error e, t) ∧ b.tables.transact body = (.error e, u)) ∨
        ∃ x, a.tables.transact body = (.ok x, t) ∧ b.tables.transact body = (.ok x, u)) := by
  obtain ⟨hresult, honly⟩ := ha.transact hb h.tables
  cases ea : a.tables.transact body with
  | mk r t =>
    cases eb : b.tables.transact body with
    | mk s u =>
      rw [ea, eb] at hresult honly
      obtain rfl : r = s := hresult
      refine ⟨t, u, ⟨honly, h.payloads⟩, ?_⟩
      cases r with
      | error e => exact .inl ⟨e, rfl, rfl⟩
      | ok x => exact .inr ⟨x, rfl, rfl⟩

/-- An operation that is one transaction. -/
lemma transact (h : AgreeFor owner a b) (ha : a.tables.Enclosed owner body)
    (hb : b.tables.Enclosed owner body) :
    Alike owner (a.withTables (a.tables.transact body))
      (b.withTables (b.tables.transact body)) := by
  obtain ⟨t, u, hafter, ⟨e, ea, eb⟩ | ⟨x, ea, eb⟩⟩ := h.transact_cases ha hb <;> rw [ea, eb] <;>
    exact ⟨rfl, hafter⟩

/-- An uploaded payload that is to be recorded by a transaction. -/
lemma keepIfRecorded (h : AgreeFor owner a b) (ha : a.tables.Enclosed owner body)
    (hb : b.tables.Enclosed owner body) :
    Alike owner (keepIfRecorded env owner (a.withTables (a.tables.transact body)))
      (keepIfRecorded env owner (b.withTables (b.tables.transact body))) := by
  obtain ⟨t, u, hafter, ⟨e, ea, eb⟩ | ⟨x, ea, eb⟩⟩ := h.transact_cases ha hb <;> rw [ea, eb]
  · exact ⟨rfl, hafter.discard env.blobId⟩
  · exact ⟨rfl, hafter⟩

/-- The upload comes first, then the record of the file. -/
lemma createFile (h : AgreeFor owner a b) {path : Path} {info : BlobInfo} (stream : List Chunk)
    (ha : a.tables.Enclosed owner (recordFile env owner path info))
    (hb : b.tables.Enclosed owner (recordFile env owner path info)) :
    Alike owner (a.createFile env owner path info stream)
      (b.createFile env owner path info stream) := by
  unfold Archive.createFile
  cases info.validate with
  | error e => exact ⟨rfl, h⟩
  | ok =>
    simp only
    obtain ⟨p, q, hpq, ⟨e, ea, eb⟩ | ⟨ea, eb⟩⟩ := h.upload env info stream <;> rw [ea, eb]
    · exact ⟨rfl, ⟨h.tables, hpq⟩⟩
    · exact keepIfRecorded ⟨h.tables, hpq⟩ ha hb

/-- Nothing is uploaded unless the owner has the file. -/
lemma addVersion (h : AgreeFor owner a b) {node : Node} {info : BlobInfo} (stream : List Chunk)
    (ha : a.tables.Enclosed owner
      (Tables.addVersion (env.now 0) (env.now 1) owner node.id env.blobId info))
    (hb : b.tables.Enclosed owner
      (Tables.addVersion (env.now 0) (env.now 1) owner node.id env.blobId info)) :
    Alike owner (a.addVersion env owner node info stream)
      (b.addVersion env owner node info stream) := by
  have hfile : a.tables.hasKind owner node.id .file = b.tables.hasKind owner node.id .file := by
    rw [← Tables.hasKind_only a.tables, h.tables, Tables.hasKind_only]
  unfold Archive.addVersion
  rw [hfile]
  split
  · exact ⟨rfl, h⟩
  · cases info.validate with
    | error e => exact ⟨rfl, h⟩
    | ok =>
      simp only
      split
      · exact ⟨rfl, h⟩
      · obtain ⟨p, q, hpq, ⟨e, ea, eb⟩ | ⟨ea, eb⟩⟩ := h.upload env info stream <;> rw [ea, eb]
        · exact ⟨rfl, ⟨h.tables, hpq⟩⟩
        · exact keepIfRecorded ⟨h.tables, hpq⟩ ha hb

/-- What is orphaned by the transaction is released after it. -/
lemma remove (h : AgreeFor owner a b) {node : Node} {recursive : Bool}
    (ha : a.tables.Enclosed owner (removeStatements env owner node recursive))
    (hb : b.tables.Enclosed owner (removeStatements env owner node recursive)) :
    Alike owner (a.remove env owner node recursive) (b.remove env owner node recursive) := by
  unfold Archive.remove
  obtain ⟨t, u, hafter, ⟨e, ea, eb⟩ | ⟨⟨removed, orphaned⟩, ea, eb⟩⟩ := h.transact_cases ha hb <;>
    rw [ea, eb]
  · exact ⟨rfl, hafter⟩
  · obtain ⟨hpending, hreleased⟩ := hafter.release env orphaned
    exact ⟨by simp only [hpending], hreleased⟩

/-- The removal of a version has the same answer in archives that agree, and leaves archives that
agree. -/
lemma removeVersion (h : AgreeFor owner a b) {node : Node} {blob : BlobId}
    (ha : a.tables.Enclosed owner (removeVersionStatements env owner node.id blob))
    (hb : b.tables.Enclosed owner (removeVersionStatements env owner node.id blob)) :
    Alike owner (a.removeVersion env owner node blob) (b.removeVersion env owner node blob) := by
  unfold Archive.removeVersion
  obtain ⟨t, u, hafter, ⟨e, ea, eb⟩ | ⟨orphaned, ea, eb⟩⟩ := h.transact_cases ha hb <;>
    rw [ea, eb]
  · exact ⟨rfl, hafter⟩
  · obtain ⟨hpending, hreleased⟩ := hafter.release env orphaned
    exact ⟨by simp only [hpending], hreleased⟩

end Transactions

/-- Answers are made of results. -/
lemma answer {α : Type} {f : α → Operation.Answer} {r s : Except ArchiveError α × Archive}
    (h : Alike owner r s) : Alike owner (Operation.answer f r) (Operation.answer f s) :=
  ⟨congrArg (Except.map f) h.1, h.2⟩

/-- **An operation depends on the belongings of its owner only.** In sound archives that agree on
them, and with new identifiers that no row of another owner has, it answers alike and leaves
archives that agree. -/
theorem run (h : AgreeFor owner a b) (ha : a.tables.Sound) (hb : b.tables.Sound)
    (hfa : env.IsFreshFor owner a.tables) (hfb : env.IsFreshFor owner b.tables) (op : Operation)
    (hop : ∀ limit, op ≠ .sweep limit) :
    Alike owner (op.run env owner a) (op.run env owner b) := by
  cases op with
  | createRoot =>
    exact answer (h.transact (ha.createNode owner (hfa.nodes 0) _ _ _)
      (hb.createNode owner (hfb.nodes 0) _ _ _))
  | createDirectory path =>
    exact answer (h.transact (ha.createNode owner (hfa.nodes 0) _ _ _)
      (hb.createNode owner (hfb.nodes 0) _ _ _))
  | createFile path info stream =>
    exact answer (h.createFile stream (ha.recordFile owner hfa path info)
      (hb.recordFile owner hfb path info))
  | addVersion node info stream =>
    exact answer (h.addVersion stream (ha.addVersion owner hfa.blob _ _ node.id info)
      (hb.addVersion owner hfb.blob _ _ node.id info))
  | resolve path => exact answer ⟨h.resolve path, h⟩
  | nodeById id => exact answer ⟨h.node id, h⟩
  | list path => exact answer ⟨h.list path, h⟩
  | firstPage node limit => exact answer ⟨h.firstPage node limit, h⟩
  | nextPage last limit =>
    refine ⟨?_, h⟩
    change Except.ok (Operation.Answer.versions (a.nextPage owner last limit)) =
      .ok (.versions (b.nextPage owner last limit))
    rw [h.nextPage]
  | findVersion node blob => exact answer ⟨h.findVersion node blob, h⟩
  | readVersion version => exact answer ⟨h.readVersion version, h⟩
  | move node target =>
    exact answer (h.transact (ha.moveStatement owner node target)
      (hb.moveStatement owner node target))
  | copy node target onlyNewest =>
    exact answer (h.transact (ha.copyStatements owner hfa node target onlyNewest)
      (hb.copyStatements owner hfb node target onlyNewest))
  | remove node recursive =>
    exact answer (h.remove (ha.removeStatements owner node recursive)
      (hb.removeStatements owner node recursive))
  | removeVersion node blob =>
    exact answer (h.removeVersion (ha.removeVersionStatements owner node.id blob)
      (hb.removeVersionStatements owner node.id blob))
  | sweep limit => exact absurd rfl (hop limit)

end Archive.AgreeFor

/-- **Owners are isolated from each other.** After every history, an operation on behalf of an
owner that is no sweep, with any arguments, leaves the belongings of all others alone. If another
history leads to an archive that agrees on the belongings of the owner, the operation has the same
result there and leaves archives that agree, provided that it takes the same from outside and that
no row of another owner has one of its new identifiers.

**Proof sketch.** An operation runs statements of its owner only, and each leaves the rows of
others alone. They see the rows of the owner only. What could depend on others is the check of
references at the end of a transaction: it never fails, since links stay within an owner. -/
theorem Archive.isolated (history : List Step) (env : Env) (owner : OwnerId) (op : Operation)
    (hop : ∀ limit, op ≠ .sweep limit) :
    let a := Archive.empty.after history
    (∀ other, other ≠ owner → Archive.AgreeFor other (op.run env owner a).2 a) ∧
      ∀ history', let b := Archive.empty.after history'
        env.IsFreshFor owner a.tables → env.IsFreshFor owner b.tables →
        Archive.AgreeFor owner a b →
        (op.run env owner a).1 = (op.run env owner b).1 ∧
          Archive.AgreeFor owner (op.run env owner a).2 (op.run env owner b).2 := by
  intro a
  have ha : a.tables.Sound := Archive.sound history
  refine ⟨fun other hne => Operation.leavesOthers ha hop hne, ?_⟩
  intro history' b hfa hfb h
  exact h.run ha (Archive.sound history') hfa hfb op hop

/-! ### Two archives that agree -/

namespace Step

/-- An owner begins a tree with one file. -/
def firstTenant : List Step :=
  [⟨.numbered 1, ⟨.ofNat 1⟩, .createRoot⟩,
    ⟨.numbered 2, ⟨.ofNat 1⟩, .createFile ⟨"a"⟩ ⟨"sum", 2⟩ [.data ⟨#[1, 2]⟩]⟩]

/-- Another owner begins a tree, and claims the file of the first one. -/
def secondTenant : List Step :=
  let file : Node := ⟨⟨.ofNat 200⟩, .file, ⟨"a"⟩, ⟨.ofNat 1⟩, default⟩
  [⟨.numbered 3, ⟨.ofNat 2⟩, .createRoot⟩, ⟨.numbered 4, ⟨.ofNat 2⟩, .copy file ⟨"b"⟩ false⟩]

end Step

/-- The first owner removes the file: with and without the second one, who does not notice. -/
theorem Archive.isolated_tenants :
    let owner : OwnerId := ⟨.ofNat 1⟩
    let other : OwnerId := ⟨.ofNat 2⟩
    let env : Env := { Env.numbered 5 with nodeId := fun _ => ⟨.ofNat 500⟩ }
    let op : Operation := .remove ⟨⟨.ofNat 200⟩, .file, ⟨"a"⟩, owner, default⟩ false
    let a := empty.after (Step.firstTenant ++ Step.secondTenant)
    let b := empty.after Step.firstTenant
    a.tables ≠ b.tables ∧ AgreeFor owner a b ∧
      AgreeFor other (op.run env owner a).2 a ∧
      (op.run env owner a).1 = (op.run env owner b).1 ∧
      AgreeFor owner (op.run env owner a).2 (op.run env owner b).2 := by
  intro owner other env op a b
  have hagree : AgreeFor owner a b := ⟨by decide +kernel, fun _ => rfl⟩
  have hfa : env.IsFreshFor owner a.tables := by
    refine ⟨fun _ => ?_, ?_⟩
    · change ∀ n ∈ a.tables.nodes, n.owner ≠ owner → n.id ≠ ⟨.ofNat 500⟩
      decide +kernel
    · change ∀ r ∈ a.tables.blobs, r.owner ≠ owner → r.id ≠ ⟨.ofNat 5⟩
      decide +kernel
  have hfb : env.IsFreshFor owner b.tables := by
    refine ⟨fun _ => ?_, ?_⟩
    · change ∀ n ∈ b.tables.nodes, n.owner ≠ owner → n.id ≠ ⟨.ofNat 500⟩
      decide +kernel
    · change ∀ r ∈ b.tables.blobs, r.owner ≠ owner → r.id ≠ ⟨.ofNat 5⟩
      decide +kernel
  have hop : ∀ limit, op ≠ .sweep limit := fun _ => nofun
  obtain ⟨hothers, halike⟩ := isolated (Step.firstTenant ++ Step.secondTenant) env owner op hop
  refine ⟨by decide +kernel, hagree, hothers other (by decide), ?_⟩
  exact halike Step.firstTenant hfa hfb hagree

end VersionedTree
