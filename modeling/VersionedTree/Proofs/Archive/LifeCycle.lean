import VersionedTree.Proofs.Archive.Atomicity
import VersionedTree.Proofs.Archive.Orphans

/-!
# The life cycle of payloads

A payload is recorded by the row of its blob, then queued in the ledger, then gone. In between
operations there is no payload without a row or an entry of the ledger, and no row or entry without
its payload. The second half carries the first: as what is queued is there, its deletion is
confirmed exactly if it takes place, and so nothing is cleared from the ledger that remains.

## Main definitions

* `VersionedTree.Archive.Settled` — payloads are those of the rows and of the ledger.
* `VersionedTree.Archive.Clears` — what leaves the ledger has no payload any more.
* `VersionedTree.Archive.DiscardsSucceed` — failed uploads are discarded in every step.

## Main results

* `VersionedTree.Archive.Settled.release`, `VersionedTree.Archive.Settled.releaseAll` — deletions.
* `VersionedTree.Archive.Settled.queue` — removals.
* `VersionedTree.Archive.Settled.apply` — every step.
* `VersionedTree.Archive.life_cycle` — payloads, rows and the ledger over every history.
-/

set_option autoImplicit false

namespace VersionedTree

namespace Archive

variable {a a' a'' : Archive} {owner : OwnerId} {used : List BlobId}

/-- Every row and every entry of the ledger has its payload, every payload has a row or an entry,
and no payload has two entries. -/
structure Settled (a : Archive) : Prop where
  recorded : ∀ r ∈ a.tables.blobs, (a.payloads.get? r.key).isSome = true
  queued : ∀ p ∈ a.tables.pending, (a.payloads.get? p.key).isSome = true
  covered : ∀ k, (a.payloads.get? k).isSome = true →
    (∃ r ∈ a.tables.blobs, r.key = k) ∨ ∃ p ∈ a.tables.pending, p.key = k
  keys : (a.tables.pending.map PendingDelete.key).Nodup

/-- What leaves the ledger has no payload any more. -/
def Clears (a a' : Archive) : Prop :=
  ∀ p ∈ a.tables.pending, p ∈ a'.tables.pending ∨ a'.payloads.get? p.key = none

namespace Clears

/-- Nothing leaves a ledger that stays as it is. -/
lemma of_eq (h : a'.tables.pending = a.tables.pending) : Clears a a' := by
  intro p hp
  rw [h]
  exact .inl hp

/-- No payload comes in afterwards. -/
lemma trans (h : Clears a a') (h' : Clears a' a'')
    (hnone : ∀ k, a'.payloads.get? k = none → a''.payloads.get? k = none) : Clears a a'' := by
  intro p hp
  rcases h p hp with hstay | hgone
  · exact h' p hstay
  · exact .inr (hnone _ hgone)

end Clears

namespace Settled

/-- An archive without rows and payloads is settled. -/
lemma empty : Settled .empty := by
  refine ⟨?_, ?_, ?_, List.nodup_nil⟩
  · intro r hr
    cases hr
  · intro p hp
    cases hp
  · intro k hk
    cases hk

/-- Only payloads, blobs and the ledger matter. -/
lemma of_eq (h : a.Settled) (hb : a'.tables.blobs = a.tables.blobs)
    (hp : a'.tables.pending = a.tables.pending) (hg : a'.payloads = a.payloads) : a'.Settled := by
  refine ⟨?_, ?_, ?_, ?_⟩
  · rw [hb, hg]
    exact h.recorded
  · rw [hp, hg]
    exact h.queued
  · rw [hb, hp, hg]
    exact h.covered
  · rw [hp]
    exact h.keys

/-- A payload is stored together with the row of its blob, which is new. -/
lemma cons (h : a.Settled) {b : Blob} {bytes : ByteArray}
    (hrows : ∀ r ∈ a.tables.blobs, r.id ≠ b.id) (hledger : ∀ p ∈ a.tables.pending, p.blob ≠ b.id)
    (hbs : a'.tables.blobs = b :: a.tables.blobs) (hp : a'.tables.pending = a.tables.pending)
    (hg : ∀ k, k ≠ b.key → a'.payloads.get? k = a.payloads.get? k)
    (hk : a'.payloads.get? b.key = some bytes) : a'.Settled := by
  refine ⟨?_, ?_, ?_, ?_⟩
  · rw [hbs, List.forall_mem_cons]
    refine ⟨by rw [hk]; rfl, ?_⟩
    intro r hr
    have hne : r.key ≠ b.key := fun e => hrows r hr (congrArg Key.blob e)
    rw [hg _ hne]
    exact h.recorded r hr
  · rw [hp]
    intro p hmem
    have hne : p.key ≠ b.key := fun e => hledger p hmem (congrArg Key.blob e)
    rw [hg _ hne]
    exact h.queued p hmem
  · intro k hsome
    rw [hbs, hp]
    by_cases e : k = b.key
    · exact .inl ⟨b, List.mem_cons_self, e.symm⟩
    · rw [hg k e] at hsome
      rcases h.covered k hsome with ⟨r, hr, hrk⟩ | hentry
      · exact .inl ⟨r, List.mem_cons_of_mem _ hr, hrk⟩
      · exact .inr hentry
  · rw [hp]
    exact h.keys

/-! ## Deletions -/

/-- **A release** of queued payloads keeps the archive settled, and clears those only that it
deletes.

**Proof sketch.** The payloads are there, so those whose deletions succeed are confirmed and
cleared, and no other one. Rows are not among them, as no blob that exists is queued. -/
theorem release (h : a.Settled) (hledger : ∀ p ∈ a.tables.pending, a.tables.hasBlob p.blob = false)
    (env : Env) {blobs : List BlobId} (hn : blobs.Nodup)
    (hq : ∀ blob ∈ blobs, ∃ p ∈ a.tables.pending, p.key = ⟨owner, blob⟩) :
    (Archive.release env owner blobs a).2.Settled ∧
      Clears a (Archive.release env owner blobs a).2 := by
  have hthere : ∀ blob ∈ blobs, (a.payloads.get? ⟨owner, blob⟩).isSome = true := by
    intro blob hb
    obtain ⟨p, hp, e⟩ := hq blob hb
    rw [← e]
    exact h.queued p hp
  have hget := Payloads.get?_deleteMany (b := env.backend) hn hthere
  have hdeleted : ∀ blob ∈ (a.payloads.deleteMany env.backend owner blobs).1.deleted,
      blob ∈ blobs := by
    intro blob hb
    exact ((Payloads.mem_deleted_deleteMany hn hthere).1 hb).1
  change Settled ⟨(a.tables.clearDeletes owner
      (a.payloads.deleteMany env.backend owner blobs).1.deleted).2,
      (a.payloads.deleteMany env.backend owner blobs).2⟩ ∧
    Clears a ⟨(a.tables.clearDeletes owner
      (a.payloads.deleteMany env.backend owner blobs).1.deleted).2,
      (a.payloads.deleteMany env.backend owner blobs).2⟩
  generalize (a.payloads.deleteMany env.backend owner blobs).1.deleted = deleted at hget hdeleted ⊢
  generalize (a.payloads.deleteMany env.backend owner blobs).2 = payloads at hget ⊢
  refine ⟨⟨?_, ?_, ?_, ?_⟩, ?_⟩
  · intro r hr
    have hkept : ¬(r.key.owner = owner ∧ r.key.blob ∈ deleted) := by
      rintro ⟨-, hd⟩
      obtain ⟨p, hp, e⟩ := hq r.id (hdeleted r.id hd)
      have hblob : p.blob = r.id := congrArg Key.blob e
      exact Tables.hasBlob_eq_false.1 (hledger p hp) r hr hblob.symm
    simp only [hget r.key, if_neg hkept]
    exact h.recorded r hr
  · intro p hp
    obtain ⟨hp, hkept⟩ := Tables.mem_pending_clearDeletes.1 hp
    have hkept : ¬(p.key.owner = owner ∧ p.key.blob ∈ deleted) := hkept
    simp only [hget p.key, if_neg hkept]
    exact h.queued p hp
  · intro k hk
    have hkept : ¬(k.owner = owner ∧ k.blob ∈ deleted) := by
      intro hd
      simp only [hget k, if_pos hd] at hk
      cases hk
    simp only [hget k, if_neg hkept] at hk
    rcases h.covered k hk with hrow | ⟨p, hp, rfl⟩
    · exact .inl hrow
    · exact .inr ⟨p, Tables.mem_pending_clearDeletes.2 ⟨hp, hkept⟩, rfl⟩
  · exact h.keys.sublist (List.filter_sublist.map _)
  · intro p hp
    by_cases hd : p.owner = owner ∧ p.blob ∈ deleted
    · have hd' : p.key.owner = owner ∧ p.key.blob ∈ deleted := hd
      refine .inr ?_
      simp only [hget p.key, if_pos hd']
    · exact .inl (Tables.mem_pending_clearDeletes.2 ⟨hp, hd⟩)

/-- **The release** of the queued payloads of several owners, one owner after the other.

**Proof sketch.** Induction on the owners. What is cleared for one of them is not an entry of
another one. -/
theorem releaseAll (h : a.Settled)
    (hledger : ∀ p ∈ a.tables.pending, a.tables.hasBlob p.blob = false) (env : Env)
    {entries : List (OwnerId × List BlobId)} (howners : (entries.map Prod.fst).Nodup)
    (hn : ∀ entry ∈ entries, entry.2.Nodup)
    (hq : ∀ entry ∈ entries, ∀ blob ∈ entry.2,
      ∃ p ∈ a.tables.pending, p.key = ⟨entry.1, blob⟩) :
    (Archive.releaseAll env entries a).2.Settled ∧
      Clears a (Archive.releaseAll env entries a).2 := by
  induction entries generalizing a with
  | nil => exact ⟨h, .of_eq rfl⟩
  | cons entry rest ih =>
    obtain ⟨owner, blobs⟩ := entry
    rw [List.forall_mem_cons] at hn hq
    rw [List.map_cons, List.nodup_cons] at howners
    obtain ⟨hone, hclears⟩ := h.release hledger env hn.1 hq.1
    have hledger' : ∀ p ∈ (Archive.release env owner blobs a).2.tables.pending,
        (Archive.release env owner blobs a).2.tables.hasBlob p.blob = false := by
      intro p hp
      exact hledger p (Tables.mem_pending_clearDeletes.1 hp).1
    have hq' : ∀ entry ∈ rest, ∀ blob ∈ entry.2,
        ∃ p ∈ (Archive.release env owner blobs a).2.tables.pending, p.key = ⟨entry.1, blob⟩ := by
      intro entry he blob hb
      obtain ⟨p, hp, e⟩ := hq.2 entry he blob hb
      refine ⟨p, Tables.mem_pending_clearDeletes.2 ⟨hp, ?_⟩, e⟩
      rintro ⟨ho, -⟩
      have howner : entry.1 = owner := (congrArg Key.owner e).symm.trans ho
      have hmem : entry.1 ∈ rest.map Prod.fst := List.mem_map_of_mem he
      rw [howner] at hmem
      exact howners.1 hmem
    obtain ⟨hrest, hclears'⟩ := ih hone hledger' howners.2 hn.2 hq'
    refine ⟨hrest, hclears.trans hclears' ?_⟩
    intro k hk
    exact get?_releaseAll_eq_none env rest hk

/-! ## Removals -/

section Removals

variable {orphaned : List BlobId} {t' : Tables}

/-- **What a removal queues** has left its row and kept its payload. -/
theorem queue (h : a.Settled) (hrel : Tables.Releases orphaned a.tables t')
    (ho : Tables.Orphans owner orphaned a.tables t') : Settled { a with tables := t' } := by
  obtain ⟨time, hpending⟩ := ho.pending
  refine ⟨?_, ?_, ?_, ?_⟩
  · intro r hr
    exact h.recorded r (hrel.blobs r hr)
  · intro p hp
    have hp : p ∈ t'.pending := hp
    rw [hpending] at hp
    rcases Tables.mem_pending_queueDeletes hp with hold | ⟨howner, hblob⟩
    · exact h.queued p hold
    · -- a new entry: its blob had a row, of the same owner
      obtain ⟨hthere, hgone⟩ := hrel.gone p.blob hblob
      obtain ⟨r, hr, hid⟩ := Tables.hasBlob_iff.1 hthere
      have hleft : r ∉ t'.blobs := fun hstay => Tables.hasBlob_eq_false.1 hgone r hstay hid
      have hrowner : r.owner = owner := ((ho.left r hr).resolve_left hleft).2
      have hkey : r.key = p.key := by
        rw [Blob.key, PendingDelete.key, hrowner, hid, howner]
      rw [← hkey]
      exact h.recorded r hr
  · intro k hk
    rcases h.covered k hk with ⟨r, hr, rfl⟩ | ⟨p, hp, rfl⟩
    · rcases ho.left r hr with hstay | ⟨hm, howner⟩
      · exact .inl ⟨r, hstay, rfl⟩
      · obtain ⟨p, hp, hkey⟩ : ∃ p ∈ (a.tables.queueDeletes time owner orphaned).pending,
            p.key = ⟨owner, r.id⟩ := Tables.exists_pending_queueDeletes time hm
        refine .inr ⟨p, ?_, ?_⟩
        · rw [hpending]
          exact hp
        · rw [hkey, Blob.key, howner]
    · refine .inr ⟨p, ?_, rfl⟩
      rw [hpending]
      exact Tables.mem_pending_queueDeletes_of_mem time orphaned hp
  · change (t'.pending.map PendingDelete.key).Nodup
    rw [hpending]
    exact Tables.nodup_queueDeletes time h.keys

/-- A removal queues what it orphans, and then releases it. -/
theorem removal (h : a.Settled) (ht : a.Tidy used) (env : Env)
    (hrel : Tables.Releases orphaned a.tables t')
    (ho : Tables.Orphans owner orphaned a.tables t') :
    (Archive.release env owner orphaned { a with tables := t' }).2.Settled ∧
      Clears a (Archive.release env owner orphaned { a with tables := t' }).2 := by
  obtain ⟨time, hpending⟩ := ho.pending
  have hledger : ∀ p ∈ t'.pending, t'.hasBlob p.blob = false := by
    intro p hp
    rcases hrel.pending p hp with hold | hm
    · refine Tables.hasBlob_eq_false.2 ?_
      intro b hb
      exact Tables.hasBlob_eq_false.1 (ht.ledger p hold) b (hrel.blobs b hb)
    · exact (hrel.gone p.blob hm).2
  have hq : ∀ blob ∈ orphaned, ∃ p ∈ t'.pending, p.key = ⟨owner, blob⟩ := by
    intro blob hb
    rw [hpending]
    exact Tables.exists_pending_queueDeletes time hb
  obtain ⟨hsettled, hclears⟩ := (h.queue hrel ho).release hledger env ho.nodup hq
  refine ⟨hsettled, ?_⟩
  intro p hp
  apply hclears p
  change p ∈ t'.pending
  rw [hpending]
  exact Tables.mem_pending_queueDeletes_of_mem time orphaned hp

end Removals

/-! ## Steps -/

/-- The new key of a step has no payload yet. -/
lemma get?_eq_none (h : a.Settled) (ht : a.Tidy used) {blob : BlobId} (hb : blob ∉ used)
    (owner : OwnerId) : a.payloads.get? ⟨owner, blob⟩ = none := by
  by_contra hsome
  rcases h.covered ⟨owner, blob⟩ (Option.isSome_iff_ne_none.2 hsome) with
    ⟨r, hr, e⟩ | ⟨p, hp, e⟩
  · have hid : r.id = blob := congrArg Key.blob e
    exact hb (hid ▸ ht.blobs_used r hr)
  · have hid : p.blob = blob := congrArg Key.blob e
    exact hb (hid ▸ ht.pending_used p hp)

/-- A transaction that keeps blobs and ledger. -/
lemma transact (h : a.Settled) {α : Type} {body : Tables → Except ArchiveError α × Tables}
    (hframe : (body a.tables).2.blobs = a.tables.blobs ∧
      (body a.tables).2.pending = a.tables.pending) :
    (a.withTables (a.tables.transact body)).2.Settled ∧
      Clears a (a.withTables (a.tables.transact body)).2 := by
  rcases a.withTables_transact_cases body with ⟨e, hr⟩ | ⟨x, t', ht, -, hr⟩ <;> rw [hr]
  · exact ⟨h, .of_eq rfl⟩
  · rw [ht] at hframe
    exact ⟨h.of_eq hframe.1 hframe.2 rfl, .of_eq hframe.2⟩

/-- **Every step** that takes a new identifier, and discards its upload if it fails, keeps the
archive settled, and clears from the ledger only what has no payload afterwards.

**Proof sketch.** A step that fails changes nothing, as there is no payload under its new key. A
new version comes with its row, and a removal queues what it orphans before it deletes it. -/
theorem apply (h : a.Settled) (ht : a.Tidy used) {s : Step} (hf : ∀ blob ∈ s.newBlob?, blob ∉ used)
    (hd : ∀ e, (s.operation.run s.env s.owner a).1 = .error e →
      ∀ blob ∈ s.newBlob?, s.env.backend.deleteFault ⟨s.owner, blob⟩ = none) :
    (s.apply a).Settled ∧ Clears a (s.apply a) := by
  have hfail {e : ArchiveError} (herror : (s.operation.run s.env s.owner a).1 = .error e) :
      (s.apply a).Settled ∧ Clears a (s.apply a) := by
    have hsame : s.apply a = a := by
      refine Step.apply_of_error ?_ herror
      intro blob hb
      exact ⟨h.get?_eq_none ht (hf blob hb) s.owner, hd e herror blob hb⟩
    rw [hsame]
    exact ⟨h, .of_eq rfl⟩
  have hrows {blob : BlobId} (hb : blob ∉ used) : ∀ r ∈ a.tables.blobs, r.id ≠ blob := by
    rintro r hr rfl
    exact hb (ht.blobs_used r hr)
  have hentries {blob : BlobId} (hb : blob ∉ used) : ∀ p ∈ a.tables.pending, p.blob ≠ blob := by
    rintro p hp rfl
    exact hb (ht.pending_used p hp)
  obtain ⟨env, owner, op⟩ := s
  cases op with
  | createRoot =>
    have hframe := Tables.createNode_frame owner (env.now 0) a.tables (env.nodeId 0) .root .root
    exact h.transact ⟨Tables.blobs_of_nodes hframe, Tables.pending_of_nodes hframe⟩
  | createDirectory path =>
    have hframe := Tables.createNode_frame owner (env.now 0) a.tables (env.nodeId 0) path .dir
    exact h.transact ⟨Tables.blobs_of_nodes hframe, Tables.pending_of_nodes hframe⟩
  | createFile path info stream =>
    have hid : env.blobId ∉ used := hf _ rfl
    obtain ⟨p, hp, ⟨e, hr⟩ | ⟨bytes, file, t', -, -, hg, hrec, -, hr⟩⟩ :=
      a.createFile_cases env owner path info stream
    · exact hfail (e := e) (by simp only [Operation.run, Operation.answer, hr, Except.map])
    · change (a.createFile env owner path info stream).2.Settled ∧
        Clears a (a.createFile env owner path info stream).2
      rw [hr]
      obtain ⟨-, -, hbs, hpend⟩ := ht.counted.recordFile_ok hrec
      exact ⟨h.cons (b := ⟨env.blobId, _, info.size, owner, _⟩) (hrows hid) (hentries hid) hbs hpend
        hp hg, .of_eq hpend⟩
  | addVersion node info stream =>
    have hid : env.blobId ∉ used := hf _ rfl
    obtain ⟨p, hp, ⟨e, hr⟩ | ⟨bytes, v, t', -, -, hg, hrec, -, hr⟩⟩ :=
      a.addVersion_cases env owner node info stream
    · exact hfail (e := e) (by simp only [Operation.run, Operation.answer, hr, Except.map])
    · change (a.addVersion env owner node info stream).2.Settled ∧
        Clears a (a.addVersion env owner node info stream).2
      rw [hr]
      obtain ⟨-, -, hbs, hpend⟩ := ht.counted.addVersion_ok hrec
      exact ⟨h.cons (b := ⟨env.blobId, _, info.size, owner, _⟩) (hrows hid) (hentries hid) hbs hpend
        hp hg, .of_eq hpend⟩
  | move node target =>
    have hframe := Tables.moveStatement_frame owner node target a.tables
    exact h.transact ⟨Tables.blobs_of_nodes hframe, Tables.pending_of_nodes hframe⟩
  | copy node target onlyNewest => exact h.transact (Tables.copyStatements_frame env owner a.tables)
  | remove node recursive =>
    change (a.remove env owner node recursive).2.Settled ∧
      Clears a (a.remove env owner node recursive).2
    rcases a.remove_cases env owner node recursive with
      ⟨e, hr⟩ | ⟨removed, orphaned, t', hbody, -, hr⟩ <;> rw [hr]
    · exact ⟨h, .of_eq rfl⟩
    · exact h.removal ht env (.removeStatements ht.counted hbody)
        (.removeStatements ht.keyed ht.counted hbody)
  | removeVersion node blob =>
    change (a.removeVersion env owner node blob).2.Settled ∧
      Clears a (a.removeVersion env owner node blob).2
    rcases a.removeVersion_cases env owner node blob with
      ⟨e, hr⟩ | ⟨orphaned, t', hbody, -, hr⟩ <;> rw [hr]
    · exact ⟨h, .of_eq rfl⟩
    · exact h.removal ht env (.removeVersionStatements ht.counted hbody)
        (.removeVersionStatements ht.keyed ht.counted hbody)
  | sweep limit =>
    have hkeys := nodup_pendingDeletes h.keys limit
    refine h.releaseAll ht.ledger env (nodup_byOwner _) ?_ ?_
    · intro entry he
      exact nodup_of_mem_byOwner hkeys he
    · intro entry he blob hb
      obtain ⟨p, hp, howner, hblob⟩ := mem_byOwner he hb
      refine ⟨p, mem_pending_of_mem_pendingDeletes hp, ?_⟩
      rw [PendingDelete.key, howner, hblob]
  | _ => exact ⟨h, .of_eq rfl⟩

end Settled

/-! ## Histories -/

/-- Are the failed uploads of a history discarded? A step whose operation fails meets no fault when
it deletes the payload under its new key. -/
def DiscardsSucceed : List Step → Archive → Prop
  | [], _ => True
  | s :: rest, a =>
    (∀ e, (s.operation.run s.env s.owner a).1 = .error e →
      ∀ blob ∈ s.newBlob?, s.env.backend.deleteFault ⟨s.owner, blob⟩ = none) ∧
    DiscardsSucceed rest (s.apply a)

/-- A history in two parts is run one part after the other. -/
lemma after_append (xs ys : List Step) (a : Archive) :
    a.after (xs ++ ys) = (a.after xs).after ys := List.foldl_append

/-- The failed uploads of a history are discarded if those of both of its parts are. -/
lemma discardsSucceed_append (xs ys : List Step) (a : Archive) :
    DiscardsSucceed (xs ++ ys) a ↔ DiscardsSucceed xs a ∧ DiscardsSucceed ys (a.after xs) := by
  induction xs generalizing a with
  | nil => simp [DiscardsSucceed, Archive.after]
  | cons s rest ih =>
    have hrest := ih (s.apply a)
    simp only [List.cons_append, DiscardsSucceed, hrest, and_assoc]
    rfl

/-- Histories keep the archive settled. -/
theorem Settled.after (h : a.Settled) (ht : a.Tidy used) (history : List Step)
    (hn : (used ++ history.filterMap Step.newBlob?).Nodup) (hd : DiscardsSucceed history a) :
    (a.after history).Settled := by
  induction history generalizing a used with
  | nil => exact h
  | cons s rest ih =>
    rw [Step.newBlobs_cons] at hn
    have hf := Step.not_mem_of_nodup hn
    exact ih (h.apply ht hf hd.1).1 (ht.apply hf) hn hd.2

/-- A blob that is gone does not come back. -/
lemma Tidy.hasBlob_after (h : a.Tidy used) (history : List Step)
    (hn : (used ++ history.filterMap Step.newBlob?).Nodup) {blob : BlobId} (hu : blob ∈ used)
    (hb : a.tables.hasBlob blob = false) : (a.after history).tables.hasBlob blob = false := by
  induction history generalizing a used with
  | nil => exact hb
  | cons s rest ih =>
    rw [Step.newBlobs_cons] at hn
    have hf := Step.not_mem_of_nodup hn
    exact ih (h.apply hf) hn (List.mem_append_left _ hu) (h.hasBlob_apply hf hu hb)

/-- **The life cycle of payloads**, over every history of operations of any owners, whose puts,
reads and deletions may fail, except that a failed upload is discarded; blob identifiers are taken
once only. Every payload has either the row of its blob, with the same owner, or an entry of the
ledger, and not both. A blob whose row is gone never gets a row or a link again. An entry of the
ledger leaves it in such a step only after which there is no payload under its key.

**Proof sketch.** The archive is tidy and settled after every history, by induction on it. The row
of a blob that is gone could come back only in a step that takes its identifier again, and without
a row there is no link. -/
theorem life_cycle (history : List Step) (hnew : (history.filterMap Step.newBlob?).Nodup)
    (hdiscard : DiscardsSucceed history .empty) :
    let a := Archive.empty.after history
    (∀ owner blob, (a.payloads.get? ⟨owner, blob⟩).isSome = true →
      let recorded := ∃ r ∈ a.tables.blobs, r.owner = owner ∧ r.id = blob
      let queued := ∃ p ∈ a.tables.pending, p.owner = owner ∧ p.blob = blob
      (recorded ∨ queued) ∧ ¬(recorded ∧ queued)) ∧
    (∀ before middle later, history = before ++ middle ++ later →
      ∀ r ∈ (Archive.empty.after before).tables.blobs,
        (∀ r' ∈ (Archive.empty.after (before ++ middle)).tables.blobs, r'.id ≠ r.id) →
        (∀ r' ∈ a.tables.blobs, r'.id ≠ r.id) ∧ ∀ l ∈ a.tables.links, l.blob ≠ r.id) ∧
    ∀ before s later, history = before ++ s :: later →
      ∀ p ∈ (Archive.empty.after before).tables.pending,
        p ∉ (s.apply (Archive.empty.after before)).tables.pending →
        (s.apply (Archive.empty.after before)).payloads.get? ⟨p.owner, p.blob⟩ = none := by
  intro a
  have tidy (history : List Step) (hn : (history.filterMap Step.newBlob?).Nodup) :
      (Archive.empty.after history).Tidy (history.filterMap Step.newBlob?) := by
    have h := (Tidy.empty.after history (by rwa [List.nil_append])).1
    rwa [List.nil_append] at h
  have settled (history : List Step) (hn : (history.filterMap Step.newBlob?).Nodup)
      (hd : DiscardsSucceed history .empty) : (Archive.empty.after history).Settled :=
    Settled.empty.after .empty history (by rwa [List.nil_append]) hd
  refine ⟨?_, ?_, ?_⟩
  · intro owner blob hsome recorded queued
    refine ⟨?_, ?_⟩
    · rcases (settled history hnew hdiscard).covered ⟨owner, blob⟩ hsome with
        ⟨r, hr, e⟩ | ⟨p, hp, e⟩
      · exact .inl ⟨r, hr, congrArg Key.owner e, congrArg Key.blob e⟩
      · exact .inr ⟨p, hp, congrArg Key.owner e, congrArg Key.blob e⟩
    · rintro ⟨⟨r, hr, -, hid⟩, p, hp, -, hblob⟩
      have hgone := (tidy history hnew).ledger p hp
      exact Tables.hasBlob_eq_false.1 hgone r hr (hid.trans hblob.symm)
  · rintro before middle later rfl r hr hgone
    have hcounted : a.tables.Counted := (tidy _ hnew).counted
    rw [List.filterMap_append] at hnew
    have hprefix := (List.nodup_append.1 hnew).1
    have hbefore : (before.filterMap Step.newBlob?).Nodup := by
      rw [List.filterMap_append] at hprefix
      exact (List.nodup_append.1 hprefix).1
    have htaken : r.id ∈ (before ++ middle).filterMap Step.newBlob? := by
      rw [List.filterMap_append]
      exact List.mem_append_left _ ((tidy before hbefore).blobs_used r hr)
    have hnone : a.tables.hasBlob r.id = false := by
      have h := (tidy _ hprefix).hasBlob_after later hnew htaken (Tables.hasBlob_eq_false.2 hgone)
      rwa [← after_append] at h
    refine ⟨Tables.hasBlob_eq_false.1 hnone, ?_⟩
    intro l hl e
    have hlinked : a.tables.isLinked r.id = true := Tables.isLinked_iff.2 ⟨l, hl, e⟩
    rw [← hcounted r.id, hnone] at hlinked
    cases hlinked
  · rintro before s later rfl p hp hleft
    have hsplit := Step.newBlobs_cons (before.filterMap Step.newBlob?) s later
    rw [List.filterMap_append, hsplit] at hnew
    have hbefore := (List.nodup_append.1 (List.nodup_append.1 hnew).1).1
    obtain ⟨hd, hds⟩ := (discardsSucceed_append before (s :: later) .empty).1 hdiscard
    have hclears := ((settled before hbefore hd).apply (tidy before hbefore)
      (Step.not_mem_of_nodup hnew) hds.1).2
    exact (hclears p hp).resolve_left hleft

end Archive

/-! ### A deletion that is tried again -/

namespace Step

/-- A file is removed while the store refuses deletions. -/
def removeStuck : Step :=
  let stuck : Backend := { Backend.reliable with deleteFault := fun _ => some "refused" }
  ⟨{ Env.numbered 7 with backend := stuck }, ⟨.ofNat 1⟩,
    .remove ⟨⟨.ofNat 200⟩, .file, ⟨"a"⟩, ⟨.ofNat 1⟩, default⟩ false⟩

/-- Pending deletions are tried again. -/
def sweepOnce : Step := ⟨.numbered 8, ⟨.ofNat 1⟩, .sweep 10⟩

end Step

namespace Archive

/-- The payload of a removed file is queued, and is gone after the step that clears it. An upload
to the place of the file has failed in between. -/
theorem life_cycle_swept :
    let before := Step.beginTree ++ [Step.uploadParts, Step.uploadToTakenPlace, Step.removeStuck]
    let a := empty.after before
    let a' := Step.sweepOnce.apply a
    a.tables.pending.map PendingDelete.key = [⟨⟨.ofNat 1⟩, ⟨.ofNat 2⟩⟩] ∧
      (a.payloads.get? ⟨⟨.ofNat 1⟩, ⟨.ofNat 2⟩⟩).isSome = true ∧
      a'.tables.pending = [] ∧ a'.payloads.get? ⟨⟨.ofNat 1⟩, ⟨.ofNat 2⟩⟩ = none := by
  intro before a a'
  have hpending : a.tables.pending = [⟨⟨.ofNat 1⟩, ⟨.ofNat 2⟩, default⟩] := by decide +kernel
  have hcleared : a'.tables.pending = [] := by decide +kernel
  have hdiscard : DiscardsSucceed (before ++ [Step.sweepOnce]) .empty := by
    refine ⟨?_, ?_, ?_, ?_, ?_, trivial⟩
    · exact fun _ _ _ _ => rfl
    · exact fun _ _ _ _ => rfl
    · exact fun _ _ _ _ => rfl
    · exact fun _ _ _ hb => by cases hb
    · exact fun _ _ _ hb => by cases hb
  have hgone := (life_cycle (before ++ [Step.sweepOnce]) (by decide +kernel) hdiscard).2.2
    before Step.sweepOnce [] rfl ⟨⟨.ofNat 1⟩, ⟨.ofNat 2⟩, default⟩
    (by rw [hpending]; exact List.mem_singleton_self _)
    (by rw [hcleared]; exact List.not_mem_nil)
  refine ⟨?_, by decide +kernel, hcleared, hgone⟩
  rw [hpending]
  rfl

end Archive

end VersionedTree
