import VersionedTree.Proofs.Archive.Blobs

/-!
# Retention of payloads

A payload stays as it was received for as long as a link refers to its blob. Payloads are deleted
in four places: when an upload has the wrong length, when it is not recorded, after a removal, and
by a sweep of the ledger. The first two meet new blobs only. The others meet blobs without a link
only, as the ledger never holds a blob that exists.

## Main definitions

* `VersionedTree.Step.upload?` — the payload that a step is to store, under its key.
* `VersionedTree.Archive.Tidy` — the ledger holds no blob that exists, and no blob is unknown.
* `VersionedTree.Archive.Change` — what a step may do to blobs, payloads and the ledger.

## Main results

* `VersionedTree.Step.change` — every step does only this.
* `VersionedTree.Archive.Tidy.apply` — every step keeps the archive tidy.
* `VersionedTree.Archive.payload_retained` — payloads of linked blobs after every history.
-/

set_option autoImplicit false

namespace VersionedTree

/-- The key of the payload of a blob. -/
def Blob.key (b : Blob) : Key := ⟨b.owner, b.id⟩

/-- The stream that an operation uploads. -/
def Operation.stream? : Operation → Option (List Chunk)
  | createFile _ _ stream | addVersion _ _ stream => some stream
  | _ => none

/-- The blob that an answer reports as new or as found. -/
def Operation.Answer.blob? : Operation.Answer → Option BlobId
  | file f => some f.version.blob
  | version v => some v.blob
  | _ => none

namespace Step

/-- The new blob identifier that a step takes from its supply. -/
def newBlob? (s : Step) : Option BlobId := s.operation.stream?.map fun _ => s.env.blobId

/-- Identifiers are taken step by step. -/
lemma newBlobs_cons (used : List BlobId) (s : Step) (rest : List Step) :
    used ++ (s :: rest).filterMap newBlob? =
      (used ++ s.newBlob?.toList) ++ rest.filterMap newBlob? := by
  cases hs : s.newBlob? <;> simp [hs]

/-- The identifier of a step is not among the ones used if identifiers are taken once only. -/
lemma not_mem_of_nodup {used later : List BlobId} {s : Step}
    (hn : ((used ++ s.newBlob?.toList) ++ later).Nodup) : ∀ blob ∈ s.newBlob?, blob ∉ used := by
  intro blob hb hu
  have hdisjoint := (List.nodup_append.1 (List.nodup_append.1 hn).1).2.2
  exact hdisjoint blob hu blob (Option.mem_toList.2 hb) rfl

/-- The payload that a step is to store, under its key. -/
def upload? (s : Step) : Option (Key × ByteArray) :=
  match s.operation.stream?.map Chunk.received with
  | some (.ok bytes) => some (⟨s.owner, s.env.blobId⟩, bytes)
  | _ => none

end Step

namespace Archive

/-- What a step that may store one payload does to blobs, payloads and the ledger. Blobs that were
there keep their payloads. A new blob has the stored payload, of the recorded size. New entries of
the ledger are blobs that are gone. -/
structure Change (upload : Option (Key × ByteArray)) (a a' : Archive) : Prop where
  blobs : ∀ r ∈ a'.tables.blobs,
    r ∈ a.tables.blobs ∧ a'.payloads.get? r.key = a.payloads.get? r.key ∨
      a.tables.hasBlob r.id = false ∧ ∃ bytes : ByteArray, upload = some (r.key, bytes) ∧
        a'.payloads.get? r.key = some bytes ∧ r.size = bytes.size
  pending : ∀ p ∈ a'.tables.pending, p ∈ a.tables.pending ∨
    a.tables.hasBlob p.blob = true ∧ a'.tables.hasBlob p.blob = false

/-- Blobs are counted, the ledger holds none of them, and all blobs that are or were there are
among the ones used. -/
structure Tidy (used : List BlobId) (a : Archive) : Prop where
  keyed : a.tables.Keyed
  counted : a.tables.Counted
  ledger : ∀ p ∈ a.tables.pending, a.tables.hasBlob p.blob = false
  blobs_used : ∀ r ∈ a.tables.blobs, r.id ∈ used
  pending_used : ∀ p ∈ a.tables.pending, p.blob ∈ used

variable {a a' : Archive} {upload : Option (Key × ByteArray)} {used : List BlobId}

/-- An archive without rows is tidy, and no identifier has been used. -/
lemma Tidy.empty : Tidy [] .empty := by
  refine ⟨.empty, .empty, ?_, ?_, ?_⟩ <;> simp [Archive.empty, Tables.empty]

namespace Change

/-- Blobs and ledger stay, and so do the payloads of blobs. -/
lemma of_eq (hb : a'.tables.blobs = a.tables.blobs) (hp : a'.tables.pending = a.tables.pending)
    (hg : ∀ r ∈ a.tables.blobs, a'.payloads.get? r.key = a.payloads.get? r.key) :
    Change upload a a' :=
  ⟨fun r hr => .inl ⟨hb ▸ hr, hg r (hb ▸ hr)⟩, fun _ h => .inl (hp ▸ h)⟩

/-- A transaction that keeps blobs and ledger. -/
lemma transact {α : Type} {body : Tables → Except ArchiveError α × Tables}
    (h : (body a.tables).2.blobs = a.tables.blobs ∧
      (body a.tables).2.pending = a.tables.pending) :
    Change upload a (a.withTables (a.tables.transact body)).2 := by
  rcases a.withTables_transact_cases body with ⟨e, hr⟩ | ⟨x, t', ht, -, hr⟩ <;> rw [hr]
  · exact of_eq rfl rfl fun _ _ => rfl
  · rw [ht] at h
    exact of_eq h.1 h.2 fun _ _ => rfl

/-- A new blob comes with its payload; the ledger and the other payloads stay. -/
lemma cons {b : Blob} {bytes : ByteArray} (hb : a.tables.hasBlob b.id = false)
    (hbs : a'.tables.blobs = b :: a.tables.blobs) (hp : a'.tables.pending = a.tables.pending)
    (hg : ∀ k, k ≠ b.key → a'.payloads.get? k = a.payloads.get? k)
    (hk : a'.payloads.get? b.key = some bytes) (hs : b.size = bytes.size) :
    Change (some (b.key, bytes)) a a' := by
  refine ⟨fun r hr => ?_, fun _ h => .inl (hp ▸ h)⟩
  rw [hbs] at hr
  rcases List.mem_cons.1 hr with rfl | hr
  · exact .inr ⟨hb, bytes, rfl, hk, hs⟩
  · refine .inl ⟨hr, hg r.key fun e => ?_⟩
    exact Tables.hasBlob_eq_false.1 hb r hr (congrArg Key.blob e)

/-- Orphaned blobs are released: their payloads are deleted, or stay in the ledger. -/
lemma release {env : Env} {owner : OwnerId} {orphaned : List BlobId} {t' : Tables}
    (h : Tables.Releases orphaned a.tables t') :
    Change upload a (Archive.release env owner orphaned { a with tables := t' }).2 := by
  refine ⟨fun r hr => .inl ⟨h.blobs r hr, ?_⟩, fun p hp => ?_⟩
  · refine Payloads.get?_deleteMany_of_ne fun blob hm e => ?_
    exact Tables.hasBlob_eq_false.1 (h.gone blob hm).2 r hr (congrArg Key.blob e)
  · rcases h.pending p (List.mem_filter.1 hp).1 with hp | hm
    · exact .inl hp
    · exact .inr (h.gone p.blob hm)

/-- Blobs that are not among the entries keep their payloads in a sweep. -/
lemma releaseAll {env : Env} (entries : List (OwnerId × List BlobId))
    (h : ∀ entry ∈ entries, ∀ blob ∈ entry.2, a.tables.hasBlob blob = false) :
    Change upload a (Archive.releaseAll env entries a).2 := by
  induction entries generalizing a with
  | nil => exact of_eq rfl rfl fun _ _ => rfl
  | cons entry rest ih =>
    obtain ⟨owner, blobs⟩ := entry
    rw [List.forall_mem_cons] at h
    have hone : Change upload a (Archive.release env owner blobs a).2 := by
      refine ⟨fun r hr => .inl ⟨hr, ?_⟩, fun p hp => .inl (List.mem_filter.1 hp).1⟩
      refine Payloads.get?_deleteMany_of_ne fun blob hm e => ?_
      exact Tables.hasBlob_eq_false.1 (h.1 blob hm) r hr (congrArg Key.blob e)
    have hrest := ih (a := (Archive.release env owner blobs a).2) h.2
    refine ⟨fun r hr => ?_, fun p hp => ?_⟩
    · rcases hrest.blobs r hr with ⟨hr', hg⟩ | h'
      · rcases hone.blobs r hr' with ⟨hr'', hg'⟩ | ⟨hb, -⟩
        · exact .inl ⟨hr'', hg.trans hg'⟩
        · exact absurd rfl (Tables.hasBlob_eq_false.1 hb r hr')
      · exact .inr h'
    · rcases hrest.pending p hp with hp' | h'
      · exact .inl (List.mem_filter.1 hp').1
      · exact .inr h'

end Change

/-- The entries of a sweep are entries of the ledger. -/
lemma mem_byOwner {entries : List PendingDelete} {entry : OwnerId × List BlobId}
    (h : entry ∈ byOwner entries) {blob : BlobId} (hb : blob ∈ entry.2) :
    ∃ p ∈ entries, p.owner = entry.1 ∧ p.blob = blob := by
  obtain ⟨owner, -, rfl⟩ := List.mem_map.1 h
  obtain ⟨p, hp, rfl⟩ := List.mem_map.1 hb
  obtain ⟨hp, ho⟩ := List.mem_filter.1 hp
  exact ⟨p, hp, by simpa using ho, rfl⟩

/-- A page of the ledger has entries of the ledger. -/
lemma mem_pending_of_mem_pendingDeletes {t : Tables} {limit : Nat} {p : PendingDelete}
    (h : p ∈ t.pendingDeletes limit) : p ∈ t.pending :=
  List.mem_mergeSort.1 (List.mem_of_mem_take h)

end Archive

namespace Step

variable {a : Archive} {used : List BlobId}

/-- A step with a stream that ends well uploads its bytes under the new identifier. -/
lemma upload?_eq {s : Step} {stream : List Chunk} {bytes : ByteArray}
    (hs : s.operation.stream? = some stream) (hb : Chunk.received stream = .ok bytes) :
    s.upload? = some (⟨s.owner, s.env.blobId⟩, bytes) := by
  simp [upload?, hs, hb]

/-- What a step uploads is under its new identifier, and comes from a stream that ends well. -/
lemma blob_of_upload? {s : Step} {key : Key} {bytes : ByteArray}
    (h : s.upload? = some (key, bytes)) :
    key = ⟨s.owner, s.env.blobId⟩ ∧ s.newBlob? = some key.blob ∧
      ∃ stream, s.operation.stream? = some stream ∧ Chunk.received stream = .ok bytes := by
  unfold upload? at h
  cases hs : s.operation.stream? with
  | none => simp [hs] at h
  | some stream =>
    cases hr : Chunk.received stream with
    | error what => simp [hs, hr] at h
    | ok received =>
      simp only [hs, hr, Option.map_some, Option.some.injEq, Prod.mk.injEq] at h
      obtain ⟨rfl, rfl⟩ := h
      exact ⟨rfl, by simp [newBlob?, hs], stream, rfl, hr⟩

/-- **Every step** keeps the payloads of the blobs that stay, stores no payload but that of its own
new blob, and enters into the ledger only what is gone.

**Proof sketch.** Deletions name the new blob, which no other blob is, or blobs that have just
been orphaned, or blobs from the ledger, which are not there. -/
theorem change (h : a.Tidy used) {s : Step} (hf : ∀ blob ∈ s.newBlob?, blob ∉ used) :
    Archive.Change s.upload? a (s.apply a) := by
  obtain ⟨env, owner, op⟩ := s
  -- a payload that is discarded is not that of a blob
  have hother {p : Payloads} (hid : env.blobId ∉ used)
      (hp : ∀ k, k ≠ ⟨owner, env.blobId⟩ → p.get? k = a.payloads.get? k) :
      ∀ r ∈ a.tables.blobs, p.get? r.key = a.payloads.get? r.key := by
    refine fun r hr => hp _ fun e => hid ?_
    have e' : r.id = env.blobId := congrArg Key.blob e
    exact e' ▸ h.blobs_used r hr
  cases op with
  | createRoot =>
    have hf := Tables.createNode_frame owner (env.now 0) a.tables (env.nodeId 0) .root .root
    exact .transact ⟨Tables.blobs_of_nodes hf, Tables.pending_of_nodes hf⟩
  | createDirectory path =>
    have hf := Tables.createNode_frame owner (env.now 0) a.tables (env.nodeId 0) path .dir
    exact .transact ⟨Tables.blobs_of_nodes hf, Tables.pending_of_nodes hf⟩
  | createFile path info stream =>
    change Archive.Change _ a (a.createFile env owner path info stream).2
    have hid : env.blobId ∉ used := hf _ rfl
    obtain ⟨p, hp, ⟨e, hr⟩ | ⟨bytes, file, t', hb, hs, hg, ht, -, hr⟩⟩ :=
      a.createFile_cases env owner path info stream <;> rw [hr]
    · exact .of_eq rfl rfl (hother hid hp)
    · obtain ⟨-, hnew, hbs, hpend⟩ := h.counted.recordFile_ok ht
      rw [upload?_eq rfl hb]
      exact Archive.Change.cons (b := ⟨env.blobId, _, info.size, owner, _⟩) hnew hbs hpend hp hg
        hs.symm
  | addVersion node info stream =>
    change Archive.Change _ a (a.addVersion env owner node info stream).2
    have hid : env.blobId ∉ used := hf _ rfl
    obtain ⟨p, hp, ⟨e, hr⟩ | ⟨bytes, v, t', hb, hs, hg, ht, -, hr⟩⟩ :=
      a.addVersion_cases env owner node info stream <;> rw [hr]
    · exact .of_eq rfl rfl (hother hid hp)
    · obtain ⟨-, hnew, hbs, hpend⟩ := h.counted.addVersion_ok ht
      rw [upload?_eq rfl hb]
      exact Archive.Change.cons (b := ⟨env.blobId, _, info.size, owner, _⟩) hnew hbs hpend hp hg
        hs.symm
  | move node target =>
    have hframe := Tables.moveStatement_frame owner node target a.tables
    exact .transact ⟨Tables.blobs_of_nodes hframe, Tables.pending_of_nodes hframe⟩
  | copy node target onlyNewest => exact .transact (Tables.copyStatements_frame env owner a.tables)
  | remove node recursive =>
    change Archive.Change _ a (a.remove env owner node recursive).2
    rcases a.remove_cases env owner node recursive with
      ⟨e, hr⟩ | ⟨removed, orphaned, t', ht, -, hr⟩ <;> rw [hr]
    · exact .of_eq rfl rfl fun _ _ => rfl
    · exact .release (.removeStatements h.counted ht)
  | removeVersion node blob =>
    change Archive.Change _ a (a.removeVersion env owner node blob).2
    rcases a.removeVersion_cases env owner node blob with
      ⟨e, hr⟩ | ⟨orphaned, t', ht, -, hr⟩ <;> rw [hr]
    · exact .of_eq rfl rfl fun _ _ => rfl
    · exact .release (.removeVersionStatements h.counted ht)
  | sweep limit =>
    refine .releaseAll _ fun entry he blob hb => ?_
    obtain ⟨p, hp, -, rfl⟩ := Archive.mem_byOwner he hb
    exact h.ledger p (Archive.mem_pending_of_mem_pendingDeletes hp)
  | _ => exact .of_eq rfl rfl fun _ _ => rfl

end Step

namespace Archive

variable {a : Archive} {used : List BlobId} {key : Key} {bytes : ByteArray}

/-! ## Histories -/

/-- A blob identifier that was used, and names no blob, names none later on. -/
lemma Tidy.hasBlob_apply (h : a.Tidy used) {s : Step} (hf : ∀ blob ∈ s.newBlob?, blob ∉ used)
    {blob : BlobId} (hu : blob ∈ used) (hb : a.tables.hasBlob blob = false) :
    (s.apply a).tables.hasBlob blob = false := by
  refine Tables.hasBlob_eq_false.2 fun r hr e => ?_
  rcases (Step.change h hf).blobs r hr with ⟨hr', -⟩ | ⟨-, _, hup, -⟩
  · exact Tables.hasBlob_eq_false.1 hb r hr' e
  · exact hf _ (Step.blob_of_upload? hup).2.1 (show r.id ∈ used from e ▸ hu)

/-- **Every step keeps the archive tidy** if it takes a new blob identifier. -/
theorem Tidy.apply (h : a.Tidy used) {s : Step} (hf : ∀ blob ∈ s.newBlob?, blob ∉ used) :
    (s.apply a).Tidy (used ++ s.newBlob?.toList) := by
  have hchange := Step.change h hf
  have hruns := s.operation.runsTo s.env s.owner a
  refine ⟨hruns.invariant (fun fresh owner s t _ ht => ht.run fresh owner s) h.keyed,
    hruns.invariant (fun fresh owner s t _ ht => ht.run fresh owner s) h.counted,
    fun p hp => ?_, fun r hr => ?_, fun p hp => ?_⟩
  · rcases hchange.pending p hp with hp' | ⟨-, hb⟩
    · exact h.hasBlob_apply hf (h.pending_used p hp') (h.ledger p hp')
    · exact hb
  · rcases hchange.blobs r hr with ⟨hr', -⟩ | ⟨-, _, hup, -⟩
    · exact List.mem_append_left _ (h.blobs_used r hr')
    · refine List.mem_append_right _ (Option.mem_toList.2 ?_)
      exact (Step.blob_of_upload? hup).2.1
  · rcases hchange.pending p hp with hp' | ⟨hb, -⟩
    · exact List.mem_append_left _ (h.pending_used p hp')
    · obtain ⟨r, hr, e⟩ := Tables.hasBlob_iff.1 hb
      exact List.mem_append_left _ (e ▸ h.blobs_used r hr)

/-- Is this the payload of the blob of this key, if there is one? -/
def Holds (key : Key) (bytes : ByteArray) (a : Archive) : Prop :=
  ∀ r ∈ a.tables.blobs, r.id = key.blob →
    r.key = key ∧ r.size = bytes.size ∧ a.payloads.get? key = some bytes

/-- A payload stays as it is in a step that does not take its identifier. -/
lemma Holds.apply (h : a.Holds key bytes) (ht : a.Tidy used) {s : Step}
    (hf : ∀ blob ∈ s.newBlob?, blob ∉ used) (hk : key.blob ∈ used) :
    (s.apply a).Holds key bytes := by
  intro r hr e
  rcases (Step.change ht hf).blobs r hr with ⟨hr', hg⟩ | ⟨-, _, hup, -⟩
  · obtain ⟨hkey, hsize, hget⟩ := h r hr' e
    rw [hkey] at hg
    exact ⟨hkey, hsize, hg.trans hget⟩
  · exact absurd (show r.id ∈ used from e ▸ hk) (hf _ (Step.blob_of_upload? hup).2.1)

/-- Histories that take new blob identifiers keep the archive tidy, and payloads that were there.

**Proof sketch.** Induction on the history. A step takes an identifier that no earlier step has
taken, and so is not among the used ones. -/
lemma Tidy.after (h : a.Tidy used) (history : List Step)
    (hn : (used ++ history.filterMap Step.newBlob?).Nodup) :
    (a.after history).Tidy (used ++ history.filterMap Step.newBlob?) ∧
      ∀ key bytes, key.blob ∈ used → a.Holds key bytes → (a.after history).Holds key bytes := by
  induction history generalizing a used with
  | nil =>
    rw [List.filterMap_nil, List.append_nil]
    exact ⟨h, fun _ _ _ hh => hh⟩
  | cons s rest ih =>
    rw [Step.newBlobs_cons] at hn ⊢
    have hf := Step.not_mem_of_nodup hn
    obtain ⟨htidy, hkeep⟩ := ih (h.apply hf) hn
    refine ⟨htidy, fun key bytes hk hh => ?_⟩
    exact hkeep key bytes (List.mem_append_left _ hk) (hh.apply h hf hk)

end Archive

namespace Step

variable {a : Archive}

/-- A step that reports a new blob took its identifier from the supply, and stored its payload. -/
lemma stored_of_ok (hc : a.tables.Counted) {s : Step} {stream : List Chunk} {blob : BlobId}
    {answer : Operation.Answer} (hs : s.operation.stream? = some stream)
    (hr : (s.operation.run s.env s.owner a).1 = .ok answer) (hb : answer.blob? = some blob) :
    blob = s.env.blobId ∧ a.tables.hasBlob blob = false ∧
      ∃ bytes, Chunk.received stream = .ok bytes := by
  obtain ⟨env, owner, op⟩ := s
  cases op with
  | createFile path info stream' =>
    obtain rfl := Option.some.inj hs
    change (a.createFile env owner path info stream').1.map _ = _ at hr
    obtain ⟨p, -, ⟨e, h⟩ | ⟨bytes, file, t', hrec, -, -, ht, -, h⟩⟩ :=
      a.createFile_cases env owner path info stream' <;> rw [h] at hr
    · simp [Except.map] at hr
    · obtain ⟨hid, hnew, -⟩ := hc.recordFile_ok ht
      obtain rfl := Except.ok.inj hr
      obtain rfl := Option.some.inj hb
      exact ⟨hid, hid ▸ hnew, bytes, hrec⟩
  | addVersion node info stream' =>
    obtain rfl := Option.some.inj hs
    change (a.addVersion env owner node info stream').1.map _ = _ at hr
    obtain ⟨p, -, ⟨e, h⟩ | ⟨bytes, v, t', hrec, -, -, ht, -, h⟩⟩ :=
      a.addVersion_cases env owner node info stream' <;> rw [h] at hr
    · simp [Except.map] at hr
    · obtain ⟨hid, hnew, -⟩ := hc.addVersion_ok ht
      obtain rfl := Except.ok.inj hr
      obtain rfl := Option.some.inj hb
      exact ⟨hid, hid ▸ hnew, bytes, hrec⟩
  | _ => cases hs

end Step

namespace Archive

variable {a : Archive}

/-- A linked blob of the owner is read through its link, unless the store refuses to read. -/
lemma readVersion_eq {l : Link} (hl : l ∈ a.tables.links) {r : Blob}
    (hr : r ∈ a.tables.blobs) (hlr : l.blob = r.id) {bytes : ByteArray}
    (hg : a.payloads.get? r.key = some bytes) (env : Env) {v : Version} (hn : v.node = l.node)
    (hb : v.blob = r.id) :
    a.readVersion env r.owner v =
      match env.backend.readFault with
      | some what => .error (.objectStore what)
      | none => .ok bytes := by
  have hsome : (a.tables.version? r.owner v.node v.blob).isSome = true := by
    refine List.find?_isSome.2 ⟨Version.ofRows l r, ?_, by simp [Version.ofRows, hb]⟩
    simp only [Tables.versionsOf, Tables.versions, List.mem_filter, List.mem_flatMap,
      List.mem_map]
    refine ⟨⟨l, hl, r, ⟨hr, by simp [hlr]⟩, rfl⟩, by simp [Version.ofRows, hn]⟩
  obtain ⟨w, hw⟩ := Option.isSome_iff_exists.1 hsome
  have hkey : (⟨r.owner, v.blob⟩ : Key) = r.key := by rw [hb]; rfl
  unfold readVersion
  rw [hw]
  simp only [Payloads.read, hkey, hg]
  cases env.backend.readFault <;> rfl

/-- **Payloads are retained.** A version whose creation was reported has, after every further
history, the bytes that were received for it, one part after the other, under the key of its owner
and blob, as long as any link refers to the blob. Their number is the recorded size, the blob is
not in the ledger, and the version is read as these bytes unless the store refuses to read. The
payload store may fail in every way and at every step; blob identifiers are taken once only.

**Proof sketch.** The archive before the step is tidy, so the step stores a new blob with its
payload. Later steps take other identifiers and keep it. A link refers to blobs only that
exist, and the ledger holds none of them. -/
theorem payload_retained (before later : List Step) (s : Step) {stream : List Chunk}
    {answer : Operation.Answer} {blob : BlobId}
    (hfresh : ((before ++ s :: later).filterMap Step.newBlob?).Nodup)
    (hstream : s.operation.stream? = some stream)
    (hok : (s.operation.run s.env s.owner (Archive.empty.after before)).1 = .ok answer)
    (hblob : answer.blob? = some blob) :
    ∃ parts : List ByteArray, stream = parts.map .data ∧
      let a := Archive.empty.after (before ++ s :: later)
      ∀ l ∈ a.tables.links, l.blob = blob →
        a.payloads.get? ⟨s.owner, blob⟩ = some (Chunk.concat parts) ∧
        (∃ r ∈ a.tables.blobs, r.id = blob ∧ r.owner = s.owner ∧
          r.size = (Chunk.concat parts).size) ∧
        (∀ p ∈ a.tables.pending, p.blob ≠ blob) ∧
        ∀ (env : Env) (v : Version), v.node = l.node → v.blob = blob →
          a.readVersion env s.owner v =
            match env.backend.readFault with
            | some what => .error (.objectStore what)
            | none => .ok (Chunk.concat parts) := by
  have hsplit : (before ++ s :: later).filterMap Step.newBlob? =
      before.filterMap Step.newBlob? ++ (s.newBlob?.toList ++ later.filterMap Step.newBlob?) := by
    cases hs : s.newBlob? <;> simp [hs]
  rw [hsplit] at hfresh
  have hbefore := (Tidy.empty.after before (by
    rw [List.nil_append]
    exact (List.nodup_append.1 hfresh).1)).1
  rw [List.nil_append] at hbefore
  have hnew : s.newBlob? = some s.env.blobId := by simp [Step.newBlob?, hstream]
  have hf : ∀ id ∈ s.newBlob?, id ∉ before.filterMap Step.newBlob? := fun id hid hu =>
    (List.nodup_append.1 hfresh).2.2 id hu id
      (List.mem_append_left _ (Option.mem_toList.2 hid)) rfl
  obtain ⟨rfl, hfree, bytes, hrec⟩ := Step.stored_of_ok hbefore.counted hstream hok hblob
  obtain ⟨parts, rfl, rfl⟩ := Chunk.received_eq_ok.1 hrec
  refine ⟨parts, rfl, ?_⟩
  -- the step stores the payload
  have hholds : (s.apply (Archive.empty.after before)).Holds ⟨s.owner, s.env.blobId⟩
      (Chunk.concat parts) := by
    intro r hr e
    rcases (Step.change hbefore hf).blobs r hr with ⟨hr', -⟩ | ⟨-, received, hup, hget, hsize⟩
    · exact absurd e (Tables.hasBlob_eq_false.1 hfree r hr')
    · rw [Step.upload?_eq hstream hrec] at hup
      obtain ⟨hkey, rfl⟩ := Prod.mk.inj (Option.some.inj hup)
      rw [hkey]
      exact ⟨rfl, hsize, hget⟩
  -- later steps keep it
  rw [← List.append_assoc] at hfresh
  obtain ⟨hlater, hkeep⟩ := (hbefore.apply hf).after later hfresh
  have hkept := hkeep ⟨s.owner, s.env.blobId⟩ (Chunk.concat parts)
    (List.mem_append_right _ (Option.mem_toList.2 hnew)) hholds
  have hafter : Archive.empty.after (before ++ s :: later) =
      (s.apply (Archive.empty.after before)).after later := by
    simp [Archive.after]
  rw [hafter]
  intro a l hl hlb
  have hlinked : a.tables.hasBlob s.env.blobId = true := by
    rw [hlater.counted]
    exact Tables.isLinked_iff.2 ⟨l, hl, hlb⟩
  obtain ⟨r, hr, hrb⟩ := Tables.hasBlob_iff.1 hlinked
  obtain ⟨hkey, hsize, hget⟩ := hkept r hr hrb
  have howner : r.owner = s.owner := congrArg Key.owner hkey
  refine ⟨hget, ⟨r, hr, hrb, howner, hsize⟩, fun p hp e => ?_, fun env v hn hb => ?_⟩
  · have := hlater.ledger p hp
    rw [e, hlinked] at this
    cases this
  · rw [← howner]
    exact readVersion_eq hl hr (hlb.trans hrb.symm) (hkey ▸ hget) env hn
      (hb.trans hrb.symm)

end Archive

/-! ### A copy that outlives its source -/

namespace Step

/-- An owner begins a tree. -/
def beginTree : List Step := [⟨.numbered 1, ⟨.ofNat 1⟩, .createRoot⟩]

/-- A file is created, from a stream of three parts, one of them empty. -/
def uploadParts : Step :=
  ⟨.numbered 2, ⟨.ofNat 1⟩, .createFile ⟨"a"⟩ ⟨"sum", 3⟩
    [.data ⟨#[1, 2]⟩, .data .empty, .data ⟨#[3]⟩]⟩

/-- The file is copied, and removed while the store refuses deletions. A sweep follows. -/
def copyAndRemove : List Step :=
  let owner : OwnerId := ⟨.ofNat 1⟩
  let file : Node := ⟨⟨.ofNat 200⟩, .file, ⟨"a"⟩, owner, default⟩
  let stuck : Backend := { Backend.reliable with deleteFault := fun _ => some "refused" }
  [⟨.numbered 3, owner, .copy file ⟨"b"⟩ false⟩,
    ⟨{ Env.numbered 4 with backend := stuck }, owner, .remove file false⟩,
    ⟨.numbered 5, owner, .sweep 10⟩]

end Step

namespace Archive

/-- The copy alone refers to the blob, whose payload is still there. -/
theorem payload_retained_by_copy :
    let a := empty.after (Step.beginTree ++ Step.uploadParts :: Step.copyAndRemove)
    a.tables.links = [⟨⟨.ofNat 300⟩, ⟨.ofNat 2⟩, default⟩] ∧
      a.payloads.get? ⟨⟨.ofNat 1⟩, ⟨.ofNat 2⟩⟩ =
        some (Chunk.concat [⟨#[1, 2]⟩, .empty, ⟨#[3]⟩]) := by
  intro a
  have hlinks : a.tables.links = [⟨⟨.ofNat 300⟩, ⟨.ofNat 2⟩, default⟩] := by decide +kernel
  obtain ⟨parts, hparts, h⟩ := payload_retained Step.beginTree Step.copyAndRemove Step.uploadParts
    (by decide) rfl rfl rfl
  have hp : parts = [⟨#[1, 2]⟩, .empty, ⟨#[3]⟩] := by
    refine (List.map_inj_right fun _ _ => ?_).1 hparts.symm
    exact Chunk.data.inj
  refine ⟨hlinks, ?_⟩
  rw [← hp]
  exact (h ⟨⟨.ofNat 300⟩, ⟨.ofNat 2⟩, default⟩ (hlinks ▸ List.mem_singleton_self _) rfl).1

end Archive

end VersionedTree
