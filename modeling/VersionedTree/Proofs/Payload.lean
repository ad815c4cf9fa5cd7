import VersionedTree.Proofs.Id

/-!
# What operations do to payloads

Puts and deletions touch the keys they name and no other one, under every behaviour of the store.

## Main definitions

* `VersionedTree.Chunk.concat` — bytes one after the other.
* `VersionedTree.Backend.refuses` — the deletions that fail.
* `VersionedTree.Payloads.without` — the payloads that are left when those of some keys go.
* `VersionedTree.Payloads.AgreeFor` — stores with the same payloads of an owner.

## Main results

* `VersionedTree.Chunk.received_eq_ok` — a stream is received if all its parts are bytes.
* `VersionedTree.Payloads.get?_deleteMany_of_ne` — the payloads that a deletion leaves alone.
* `VersionedTree.Payloads.get?_deleteMany_eq_none` — no deletion brings a payload in.
* `VersionedTree.Payloads.delete_insert` — a new payload that is deleted again leaves no trace.
* `VersionedTree.Payloads.deleteKeys_eq` — what a deletion leaves.
* `VersionedTree.Payloads.deleteMany_eq` — the deletion of payloads that are there confirms those
  that it deletes, and no other one.
* `VersionedTree.Payloads.putStream_cases` — what a put of a stream does.
* `VersionedTree.Payloads.AgreeFor.deleteMany` and its kin — what is done to the payloads of an
  owner depends on the payloads of that owner.
-/

set_option autoImplicit false

namespace VersionedTree

/-- Bytes one after the other. -/
def Chunk.concat (parts : List ByteArray) : ByteArray := parts.foldr (· ++ ·) .empty

/-- A stream is received if all its parts are bytes, as one after the other. -/
lemma Chunk.received_eq_ok {stream : List Chunk} {bytes : ByteArray} :
    received stream = .ok bytes ↔ ∃ parts, stream = parts.map .data ∧ bytes = concat parts := by
  induction stream generalizing bytes with
  | nil =>
    simp only [received, Except.ok.injEq, List.nil_eq, List.map_eq_nil_iff, exists_eq_left]
    exact eq_comm
  | cons c rest ih =>
    cases c with
    | failure what =>
      simp only [received, reduceCtorEq, false_iff, not_exists, not_and]
      intro parts h
      cases parts <;> simp at h
    | data first =>
      constructor
      · intro h
        unfold received at h
        split at h
        · next more hm =>
          obtain ⟨parts, rfl, rfl⟩ := ih.1 hm
          exact ⟨first :: parts, rfl, (Except.ok.inj h).symm⟩
        · cases h
      · rintro ⟨parts, h, rfl⟩
        cases parts with
        | nil => cases h
        | cons part parts =>
          simp only [List.map_cons, List.cons.injEq, data.injEq] at h
          obtain ⟨rfl, rfl⟩ := h
          simp [received, ih.2 ⟨parts, rfl, rfl⟩, concat]

/-- The keys of blobs of one owner. -/
lemma Key.mem_map_mk {owner : OwnerId} {blobs : List BlobId} {k : Key} :
    k ∈ blobs.map (Key.mk owner) ↔ k.owner = owner ∧ k.blob ∈ blobs := by
  rw [List.mem_map]
  constructor
  · rintro ⟨blob, hb, rfl⟩
    exact ⟨rfl, hb⟩
  · rintro ⟨rfl, hb⟩
    exact ⟨k.blob, hb, rfl⟩

/-- Does the deletion of this key fail? -/
def Backend.refuses (b : Backend) (k : Key) : Bool := (b.deleteFault k).isSome

namespace Payloads

variable {p : Payloads} {b : Backend} {j k : Key}

/-! ## Deletions -/

/-- The deletion of one key leaves all other keys alone. -/
lemma get?_deleteKey_of_ne (h : j ≠ k) : (p.deleteKey b k).2.get? j = p.get? j := by
  unfold deleteKey
  split
  · rfl
  · split
    · rfl
    · rw [get?_erase, if_neg h]

/-- So does the deletion of one payload. -/
lemma get?_delete_of_ne (h : j ≠ k) : (p.delete b k).2.get? j = p.get? j := by
  have hkey := get?_deleteKey_of_ne (p := p) (b := b) h
  unfold delete
  split <;> next e => rwa [e] at hkey

/-- Deletions in turn leave all keys alone that are not among them. -/
lemma get?_deleteKeys_of_not_mem {keys : List Key} (h : j ∉ keys) :
    (deleteKeys b keys p).2.get? j = p.get? j := by
  induction keys generalizing p with
  | nil => rfl
  | cons k rest ih =>
    rw [List.mem_cons, not_or] at h
    exact (ih h.2).trans (get?_deleteKey_of_ne h.1)

/-- A deletion leaves all payloads alone but those it names. -/
lemma get?_deleteMany_of_ne {owner : OwnerId} {blobs : List BlobId}
    (h : ∀ blob ∈ blobs, j ≠ ⟨owner, blob⟩) : (p.deleteMany b owner blobs).2.get? j = p.get? j := by
  refine get?_deleteKeys_of_not_mem fun hj => ?_
  obtain ⟨blob, hb, rfl⟩ := List.mem_map.1 hj
  exact h blob hb rfl

/-- The deletion of one key brings no payload in. -/
lemma get?_deleteKey_eq_none (h : p.get? j = none) : (p.deleteKey b k).2.get? j = none := by
  by_cases e : j = k
  · subst e
    unfold deleteKey
    split
    · exact h
    · split
      · exact h
      · rw [get?_erase, if_pos rfl]
  · rw [get?_deleteKey_of_ne e, h]

/-- Deletions in turn bring no payload in. -/
lemma get?_deleteKeys_eq_none {keys : List Key} (h : p.get? j = none) :
    (deleteKeys b keys p).2.get? j = none := by
  induction keys generalizing p with
  | nil => exact h
  | cons k rest ih => exact ih (get?_deleteKey_eq_none h)

/-- No deletion brings a payload in. -/
lemma get?_deleteMany_eq_none {owner : OwnerId} {blobs : List BlobId} (h : p.get? j = none) :
    (p.deleteMany b owner blobs).2.get? j = none := get?_deleteKeys_eq_none h

/-- There is nothing to erase where there is no payload. -/
lemma erase_eq_self (h : p.get? k = none) : p.erase k = p := by
  have hkeys : ∀ e ∈ p.entries, e.1 ≠ k := by
    simpa [get?] using h
  have hkept : p.entries.filter (fun e => e.1 != k) = p.entries := by
    refine List.filter_eq_self.2 ?_
    intro e he
    simpa using hkeys e he
  rw [erase, hkept]

/-- Bytes under a key that was free are erased without a trace. -/
lemma erase_insert (h : p.get? k = none) (bytes : ByteArray) : (p.insert k bytes).erase k = p := by
  have herase := erase_eq_self h
  have hnone := get?_erase p k k
  rw [if_pos rfl] at hnone
  calc (p.insert k bytes).erase k
      = (p.erase k).erase k := by simp [erase, insert]
    _ = p.erase k := erase_eq_self hnone
    _ = p := herase

/-- A key whose deletion meets no fault is erased, whether there is a payload or not. -/
lemma deleteKey_eq_erase (h : b.deleteFault k = none) : (p.deleteKey b k).2 = p.erase k := by
  unfold deleteKey
  simp only [h]
  split
  · next hnone _ => exact (erase_eq_self hnone).symm
  · rfl

/-- A payload whose deletion meets no fault is gone, or was missing. -/
lemma delete_eq_erase (h : b.deleteFault k = none) : (p.delete b k).2 = p.erase k := by
  have hkey := deleteKey_eq_erase (p := p) h
  unfold delete
  split <;> next e => rwa [e] at hkey

/-- A new payload that is deleted again leaves no trace. -/
lemma delete_insert (hp : p.get? k = none) (hb : b.deleteFault k = none) (bytes : ByteArray) :
    ((p.insert k bytes).delete b k).2 = p := by
  rw [delete_eq_erase hb, erase_insert hp]

/-! ### What deletions leave -/

/-- The payloads without those of some keys. -/
def without (p : Payloads) (keys : List Key) : Payloads :=
  ⟨p.entries.filter fun e => !keys.contains e.1⟩

/-- Without no keys, everything stays. -/
lemma without_nil (p : Payloads) : p.without [] = p :=
  congrArg Payloads.mk (List.filter_eq_self.2 fun _ _ => rfl)

/-- One key is erased. -/
lemma erase_eq_without (p : Payloads) (k : Key) : p.erase k = p.without [k] := by
  simp only [without, erase, List.contains_cons, List.contains_nil, Bool.or_false]
  rfl

/-- Keys can leave in two groups. -/
lemma without_append (p : Payloads) (keys keys' : List Key) :
    p.without (keys ++ keys') = (p.without keys).without keys' := by
  rw [without, without, without, List.filter_filter]
  congr 1
  refine List.filter_congr ?_
  intro e _
  rw [List.contains_append, Bool.not_or, Bool.and_comm]

/-- Only the set of keys matters. -/
lemma without_congr {keys keys' : List Key} (h : ∀ k, k ∈ keys ↔ k ∈ keys') :
    p.without keys = p.without keys' := by
  have hcontains : keys.contains = keys'.contains := by
    funext k
    rw [Bool.eq_iff_iff, List.contains_iff_mem, List.contains_iff_mem, h k]
  rw [without, without, hcontains]

/-- Nothing is under the keys that have left, and the others stay. -/
lemma get?_without (p : Payloads) (keys : List Key) (k : Key) :
    (p.without keys).get? k = if k ∈ keys then none else p.get? k := by
  induction keys generalizing p with
  | nil => rw [without_nil, if_neg List.not_mem_nil]
  | cons first rest ih =>
    rw [← List.singleton_append, without_append, ih, ← erase_eq_without, get?_erase]
    by_cases hfirst : k = first <;> by_cases hrest : k ∈ rest <;> simp [hfirst, hrest]

/-- **The deletion of keys** erases those whose deletions do not fail. -/
theorem deleteKeys_eq (p : Payloads) (b : Backend) (keys : List Key) :
    (deleteKeys b keys p).2 = p.without (keys.filter (!b.refuses ·)) := by
  induction keys generalizing p with
  | nil => exact (without_nil p).symm
  | cons k rest ih =>
    change (deleteKeys b rest (p.deleteKey b k).2).2 = _
    rw [ih]
    cases hfault : b.deleteFault k with
    | some what =>
      have hrefused : b.refuses k = true := by simp [Backend.refuses, hfault]
      have hkept : (p.deleteKey b k).2 = p := by simp [deleteKey, hfault]
      rw [hkept, List.filter_cons_of_neg (by simp [hrefused])]
    | none =>
      have haccepted : b.refuses k = false := by simp [Backend.refuses, hfault]
      rw [deleteKey_eq_erase hfault, List.filter_cons_of_pos (by simp [haccepted]),
        erase_eq_without, ← without_append, List.singleton_append]

/-! ### Payloads that are there -/

/-- A payload that is there is deleted, and named by the location of the result, unless its
deletion meets a fault. -/
lemma deleteKey_of_isSome (h : (p.get? k).isSome = true) :
    p.deleteKey b k = match b.deleteFault k with
      | some what => (.failed what, p)
      | none => (.deleted k.text, p.erase k) := by
  obtain ⟨bytes, hbytes⟩ := Option.isSome_iff_exists.1 h
  cases hfault : b.deleteFault k with
  | some what => simp [deleteKey, hfault]
  | none => simp [deleteKey, hfault, hbytes]

/-- **What is confirmed** of different payloads that are there: those whose deletions do not fail.

**Proof sketch.** Induction on the keys. The first deletion touches its own key only, so that the
payloads of the others are still there. -/
lemma confirmed_deleteKeys {keys : List Key} (hn : keys.Nodup)
    (hp : ∀ k ∈ keys, (p.get? k).isSome = true) :
    (deleteKeys b keys p).1.filterMap Deletion.confirmed? =
      (keys.filter (!b.refuses ·)).map Key.blob := by
  induction keys generalizing p with
  | nil => rfl
  | cons k rest ih =>
    rw [List.nodup_cons] at hn
    rw [List.forall_mem_cons] at hp
    have hrest : ∀ j ∈ rest, ((p.deleteKey b k).2.get? j).isSome = true := by
      intro j hj
      have hne : j ≠ k := by
        rintro rfl
        exact hn.1 hj
      rw [get?_deleteKey_of_ne hne]
      exact hp.2 j hj
    have hconfirmed := ih hn.2 hrest
    have hkey := deleteKey_of_isSome (b := b) hp.1
    simp only [deleteKeys]
    cases hfault : b.deleteFault k with
    | some what =>
      simp only [hfault] at hkey
      rw [hkey] at hconfirmed ⊢
      rw [List.filterMap_cons_none rfl, hconfirmed]
      simp [Backend.refuses, hfault]
    | none =>
      simp only [hfault] at hkey
      have hblob : Deletion.confirmed? (.deleted k.text) = some k.blob := k.blobOfLocation?_text
      rw [hkey] at hconfirmed ⊢
      rw [List.filterMap_cons_some hblob, hconfirmed]
      simp [Backend.refuses, hfault]

section DeleteMany

variable {owner : OwnerId} {blobs : List BlobId}

/-- The report of a deletion, and what is left, if those are confirmed whose deletions do not
fail. -/
lemma deleteMany_of_confirmed
    (h : (deleteKeys b (blobs.map (Key.mk owner)) p).1.filterMap Deletion.confirmed? =
      ((blobs.map (Key.mk owner)).filter (!b.refuses ·)).map Key.blob) :
    p.deleteMany b owner blobs =
      (⟨blobs.filter fun blob => !b.refuses ⟨owner, blob⟩,
          blobs.filter fun blob => b.refuses ⟨owner, blob⟩⟩,
        p.without ((blobs.filter fun blob => !b.refuses ⟨owner, blob⟩).map (Key.mk owner))) := by
  have hconfirmed : (deleteKeys b (blobs.map (Key.mk owner)) p).1.filterMap Deletion.confirmed? =
      blobs.filter fun blob => !b.refuses ⟨owner, blob⟩ := by
    rw [h, List.filter_map, List.map_map]
    exact List.map_id _
  have hcontains : ∀ blob ∈ blobs, (blobs.filter fun blob =>
      !b.refuses ⟨owner, blob⟩).contains blob = !b.refuses ⟨owner, blob⟩ := by
    intro blob hb
    rw [Bool.eq_iff_iff, List.contains_iff_mem, List.mem_filter]
    simp [hb]
  refine Prod.ext ?_ ?_
  · change DeleteReport.ofDeletions blobs
      (deleteKeys b (blobs.map (Key.mk owner)) p).1 = _
    rw [DeleteReport.ofDeletions, hconfirmed]
    refine congrArg₂ DeleteReport.mk (List.filter_congr hcontains) (List.filter_congr ?_)
    intro blob hb
    rw [hcontains blob hb, Bool.not_not]
  · change (deleteKeys b (blobs.map (Key.mk owner)) p).2 = _
    rw [deleteKeys_eq, List.filter_map]
    rfl

variable (hn : blobs.Nodup) (hp : ∀ blob ∈ blobs, (p.get? ⟨owner, blob⟩).isSome = true)

include hn hp

/-- **The deletion of payloads** of one owner that are there: the report and what is left. -/
theorem deleteMany_eq :
    p.deleteMany b owner blobs =
      (⟨blobs.filter fun blob => !b.refuses ⟨owner, blob⟩,
          blobs.filter fun blob => b.refuses ⟨owner, blob⟩⟩,
        p.without ((blobs.filter fun blob => !b.refuses ⟨owner, blob⟩).map (Key.mk owner))) := by
  have hkeys : (blobs.map (Key.mk owner)).Nodup := by
    refine List.Pairwise.map _ ?_ hn
    intro x y hne e
    exact hne (congrArg Key.blob e)
  have hpresent : ∀ k ∈ blobs.map (Key.mk owner), (p.get? k).isSome = true := by
    intro k hk
    obtain ⟨blob, hb, rfl⟩ := List.mem_map.1 hk
    exact hp blob hb
  exact deleteMany_of_confirmed (confirmed_deleteKeys hkeys hpresent)

/-- The deletions that are reported are those that meet no fault. -/
theorem mem_deleted_deleteMany {blob : BlobId} :
    blob ∈ (p.deleteMany b owner blobs).1.deleted ↔
      blob ∈ blobs ∧ b.deleteFault ⟨owner, blob⟩ = none := by
  rw [deleteMany_eq hn hp]
  simp [Backend.refuses]

/-- **What is left** after the deletion of payloads that are there: all but the confirmed ones. -/
theorem get?_deleteMany (j : Key) :
    (p.deleteMany b owner blobs).2.get? j =
      if j.owner = owner ∧ j.blob ∈ (p.deleteMany b owner blobs).1.deleted then none
      else p.get? j := by
  rw [deleteMany_eq hn hp, get?_without]
  simp only [Key.mem_map_mk]

end DeleteMany

/-! ## Puts -/

/-- A put of a stream stores all of it, or nothing. -/
lemma putStream_cases (p : Payloads) (b : Backend) (k : Key) (stream : List Chunk) :
    (∃ e, p.putStream b k stream = (.error e, p)) ∨
      ∃ bytes, Chunk.received stream = .ok bytes ∧
        p.putStream b k stream = (.ok bytes.size, p.insert k bytes) := by
  unfold putStream
  cases hs : Chunk.received stream with
  | error what => exact .inl ⟨_, rfl⟩
  | ok bytes =>
    cases b.putFault with
    | some what => exact .inl ⟨_, rfl⟩
    | none => exact .inr ⟨bytes, rfl, rfl⟩

/-! ## The payloads of one owner -/

/-- Do the stores hold the same payloads of an owner? -/
def AgreeFor (owner : OwnerId) (p q : Payloads) : Prop :=
  ∀ blob, p.get? ⟨owner, blob⟩ = q.get? ⟨owner, blob⟩

namespace AgreeFor

variable {q : Payloads} {owner : OwnerId}

/-- Stores agree after the same bytes have been put under the same key. -/
lemma insert (h : AgreeFor owner p q) (k : Key) (bytes : ByteArray) :
    AgreeFor owner (p.insert k bytes) (q.insert k bytes) := by
  intro blob
  rw [get?_insert, get?_insert, h blob]

/-- The deletion of a payload of the owner has the same result in both stores. -/
lemma deleteKey (h : AgreeFor owner p q) (b : Backend) (blob : BlobId) :
    (p.deleteKey b ⟨owner, blob⟩).1 = (q.deleteKey b ⟨owner, blob⟩).1 ∧
      AgreeFor owner (p.deleteKey b ⟨owner, blob⟩).2 (q.deleteKey b ⟨owner, blob⟩).2 := by
  have herase : AgreeFor owner (p.erase ⟨owner, blob⟩) (q.erase ⟨owner, blob⟩) := by
    intro other
    rw [get?_erase, get?_erase, h other]
  unfold Payloads.deleteKey
  rw [h blob]
  cases b.deleteFault ⟨owner, blob⟩ with
  | some what => exact ⟨rfl, h⟩
  | none =>
    cases q.get? ⟨owner, blob⟩ with
    | some bytes => exact ⟨rfl, herase⟩
    | none =>
      cases b.missingAt with
      | some location => exact ⟨rfl, h⟩
      | none => exact ⟨rfl, herase⟩

/-- Stores agree after a payload of the owner has been deleted from both. -/
lemma delete (h : AgreeFor owner p q) (b : Backend) (blob : BlobId) :
    AgreeFor owner (p.delete b ⟨owner, blob⟩).2 (q.delete b ⟨owner, blob⟩).2 := by
  have hstores (r : Payloads) :
      (r.delete b ⟨owner, blob⟩).2 = (r.deleteKey b ⟨owner, blob⟩).2 := by
    unfold Payloads.delete
    split <;> next e => rw [e]
  rw [hstores, hstores]
  exact (h.deleteKey b blob).2

/-- Deletions for the owner have the same report in both stores, which agree after them. -/
lemma deleteMany (h : AgreeFor owner p q) (b : Backend) (blobs : List BlobId) :
    (p.deleteMany b owner blobs).1 = (q.deleteMany b owner blobs).1 ∧
      AgreeFor owner (p.deleteMany b owner blobs).2 (q.deleteMany b owner blobs).2 := by
  have hkeys (blobs : List BlobId) : ∀ {p q : Payloads}, AgreeFor owner p q →
      (deleteKeys b (blobs.map (Key.mk owner)) p).1 =
          (deleteKeys b (blobs.map (Key.mk owner)) q).1 ∧
        AgreeFor owner (deleteKeys b (blobs.map (Key.mk owner)) p).2
          (deleteKeys b (blobs.map (Key.mk owner)) q).2 := by
    induction blobs with
    | nil => exact fun h => ⟨rfl, h⟩
    | cons blob rest ih =>
      intro p q h
      obtain ⟨hresult, hstore⟩ := h.deleteKey b blob
      obtain ⟨hresults, hstores⟩ := ih hstore
      exact ⟨List.cons_eq_cons.2 ⟨hresult, hresults⟩, hstores⟩
  obtain ⟨hresults, hstores⟩ := hkeys blobs h
  exact ⟨congrArg (DeleteReport.ofDeletions blobs) hresults, hstores⟩

/-- A stream has the same result in both stores, which agree after it. -/
lemma putStream (h : AgreeFor owner p q) (b : Backend) (k : Key) (stream : List Chunk) :
    (p.putStream b k stream).1 = (q.putStream b k stream).1 ∧
      AgreeFor owner (p.putStream b k stream).2 (q.putStream b k stream).2 := by
  unfold Payloads.putStream
  cases Chunk.received stream with
  | error what => exact ⟨rfl, h⟩
  | ok bytes =>
    cases b.putFault with
    | some what => exact ⟨rfl, h⟩
    | none => exact ⟨rfl, h.insert k bytes⟩

/-- A payload of the owner is read in the same way. -/
lemma read (h : AgreeFor owner p q) (b : Backend) (blob : BlobId) :
    p.read b ⟨owner, blob⟩ = q.read b ⟨owner, blob⟩ := by
  unfold Payloads.read
  rw [h blob]

end AgreeFor

end Payloads

end VersionedTree
