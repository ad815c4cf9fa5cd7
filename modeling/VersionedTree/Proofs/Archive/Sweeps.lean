import Mathlib.Algebra.Order.Floor.Div
import VersionedTree.Proofs.Archive.MissingPayloads
import VersionedTree.Proofs.Tables.Backlog

/-!
# Repeated sweeps of the ledger

A sweep tries the oldest pending deletions, whatever owners they are of, and those that fail remain
the oldest ones. Sweeps over a store that always fails at the same keys come to a state that they do
not change any more. Then an entry is left if its deletion fails, or if those in front of it that
fail are as many as one sweep tries.

## Main definitions

* `VersionedTree.Backend.FailsAt` — a store that fails to delete given keys, and no other one.
* `VersionedTree.Archive.cleared` — the archive without some payloads and their pending deletions.
* `VersionedTree.Archive.swept` — the archive after sweeps.

## Main results

* `VersionedTree.Payloads.deleteMany_of_namesKeys` — deletions, with missing payloads among them.
* `VersionedTree.Archive.releaseAll_of_failsAt` — deletions for several owners.
* `VersionedTree.Archive.sweep_of_failsAt` — one sweep.
* `VersionedTree.Archive.backlog_swept` — the backlog after sweeps.
* `VersionedTree.Archive.sweeps_settle` — where sweeps lead.
-/

set_option autoImplicit false

namespace VersionedTree

/-! ## Deletions of payloads that may be missing -/

/-- Does the store fail to delete exactly these keys? Others are deleted, or reported missing at
locations that end in them. -/
structure Backend.FailsAt (fails : Key → Bool) (b : Backend) : Prop where
  refuses : ∀ k, b.refuses k = fails k
  named : b.NamesKeys

namespace Payloads

variable {b : Backend} {p : Payloads}

/-- A deletion that does not fail confirms its blob. -/
lemma confirmed_deleteKey (h : b.NamesKeys) (k : Key) (p : Payloads) :
    (p.deleteKey b k).1.confirmed? = if b.refuses k then none else some k.blob := by
  rw [(deleteKey_silent h k p).1, Backend.refuses]
  cases hfault : b.deleteFault k with
  | some what => simp [deleteKey, hfault, Deletion.confirmed?]
  | none => simp [deleteKey, hfault, Deletion.confirmed?, k.blobOfLocation?_text]

/-- Deletions in turn confirm the blobs of all keys that the store does not refuse. -/
lemma confirmed_deleteKeys_of_namesKeys (h : b.NamesKeys) (keys : List Key) (p : Payloads) :
    (deleteKeys b keys p).1.filterMap Deletion.confirmed? =
      (keys.filter (!b.refuses ·)).map Key.blob := by
  induction keys generalizing p with
  | nil => rfl
  | cons k rest ih =>
    simp only [deleteKeys, List.filterMap_cons, confirmed_deleteKey h, ih]
    cases hk : b.refuses k <;> simp [hk]

/-- **The deletion of payloads** of one owner, some of which may be missing: the report and what is
left. -/
theorem deleteMany_of_namesKeys (h : b.NamesKeys) (owner : OwnerId) (blobs : List BlobId)
    (p : Payloads) :
    p.deleteMany b owner blobs =
      (⟨blobs.filter fun blob => !b.refuses ⟨owner, blob⟩,
          blobs.filter fun blob => b.refuses ⟨owner, blob⟩⟩,
        p.without ((blobs.filter fun blob => !b.refuses ⟨owner, blob⟩).map (Key.mk owner))) :=
  deleteMany_of_confirmed (confirmed_deleteKeys_of_namesKeys h _ p)

end Payloads

namespace Archive

variable {env : Env} {fails : Key → Bool} {limit : Nat} {a : Archive}

/-! ## Sweeps -/

/-- The archive without the payloads of some keys, and without their pending deletions. -/
def cleared (keys : List Key) (a : Archive) : Archive :=
  ⟨{ a.tables with pending := a.tables.pending.filter fun p => !keys.contains p.key },
    a.payloads.without keys⟩

/-- Nothing is cleared for no keys. -/
lemma cleared_nil (a : Archive) : a.cleared [] = a := by
  simp [cleared, Payloads.without_nil]

/-- Keys can be cleared in two groups. -/
lemma cleared_append (keys keys' : List Key) (a : Archive) :
    a.cleared (keys ++ keys') = (a.cleared keys).cleared keys' := by
  simp only [cleared, Payloads.without_append, List.filter_filter, List.contains_append,
    Bool.not_or, Bool.and_comm]

/-- Only the set of keys matters. -/
lemma cleared_congr {keys keys' : List Key} (h : ∀ k, k ∈ keys ↔ k ∈ keys') (a : Archive) :
    a.cleared keys = a.cleared keys' := by
  have hcontains : keys.contains = keys'.contains := by
    funext k
    rw [Bool.eq_iff_iff, List.contains_iff_mem, List.contains_iff_mem, h k]
  rw [cleared, cleared, Payloads.without_congr h, hcontains]

/-- **A release** clears those whose deletions do not fail. -/
lemma release_of_failsAt (h : env.backend.FailsAt fails) (owner : OwnerId) (blobs : List BlobId)
    (a : Archive) :
    a.release env owner blobs = (blobs.filter fun blob => fails ⟨owner, blob⟩,
      a.cleared ((blobs.filter fun blob => !fails ⟨owner, blob⟩).map (Key.mk owner))) := by
  have hdeletes := Payloads.deleteMany_of_namesKeys h.named owner blobs a.payloads
  simp only [h.refuses] at hdeletes
  rw [release, hdeletes]
  simp only [cleared, Tables.clearDeletes]
  congr 4
  funext p
  congr 1
  rw [Bool.eq_iff_iff, List.contains_iff_mem, Key.mem_map_mk, Bool.and_eq_true, beq_iff_eq,
    List.contains_iff_mem]
  rfl

/-- The keys of the payloads of several owners. -/
def keysOf (groups : List (OwnerId × List BlobId)) : List Key :=
  groups.flatMap fun group => group.2.map (Key.mk group.1)

/-- **The release** of the payloads of several owners, one owner after the other. -/
theorem releaseAll_of_failsAt (h : env.backend.FailsAt fails)
    (groups : List (OwnerId × List BlobId)) (a : Archive) :
    releaseAll env groups a =
      (⟨((keysOf groups).filter (!fails ·)).map Key.blob,
          ((keysOf groups).filter fails).map Key.blob⟩,
        a.cleared ((keysOf groups).filter (!fails ·))) := by
  induction groups generalizing a with
  | nil => simp [releaseAll, keysOf, cleared_nil]
  | cons group rest ih =>
    obtain ⟨owner, blobs⟩ := group
    have hdeleted : blobs.filter (fun blob =>
        !(blobs.filter fun blob => fails ⟨owner, blob⟩).contains blob) =
          blobs.filter fun blob => !fails ⟨owner, blob⟩ := by
      refine List.filter_congr fun blob hb => ?_
      rw [Bool.eq_iff_iff]
      simp [hb]
    have hkeys (q : Key → Bool) : ((blobs.map (Key.mk owner)).filter q).map Key.blob =
        blobs.filter fun blob => q ⟨owner, blob⟩ := by
      rw [List.filter_map, List.map_map]
      exact List.map_id _
    simp only [releaseAll, release_of_failsAt h, ih, hdeleted, keysOf, List.flatMap_cons,
      List.filter_append, List.map_append, cleared_append, hkeys]
    rw [List.filter_map]
    rfl

/-- **The entries of a sweep** are released once each, grouped by their owners. -/
lemma keysOf_byOwner_perm {entries : List PendingDelete}
    (hn : (entries.map PendingDelete.key).Nodup) :
    (keysOf (byOwner entries)).Perm (entries.map PendingDelete.key) := by
  have hgroups : (keysOf (byOwner entries)).Nodup := by
    refine List.nodup_flatMap.2 ⟨?_, ?_⟩
    · intro group hgroup
      refine List.Pairwise.map _ ?_ (nodup_of_mem_byOwner hn hgroup)
      intro x y hne e
      exact hne (congrArg Key.blob e)
    · refine (List.pairwise_map.1 (nodup_byOwner entries)).imp ?_
      intro group group' hne k hk hk'
      obtain ⟨blob, -, rfl⟩ := List.mem_map.1 hk
      obtain ⟨blob', -, e⟩ := List.mem_map.1 hk'
      exact hne (congrArg Key.owner e).symm
  refine (List.perm_ext_iff_of_nodup hgroups hn).2 fun k => ?_
  constructor
  · intro hk
    obtain ⟨group, hgroup, hk⟩ := List.mem_flatMap.1 hk
    obtain ⟨blob, hb, rfl⟩ := List.mem_map.1 hk
    obtain ⟨p, hp, ho, hblob⟩ := mem_byOwner hgroup hb
    exact List.mem_map.2 ⟨p, hp, by rw [PendingDelete.key, ho, hblob]⟩
  · intro hk
    obtain ⟨p, hp, rfl⟩ := List.mem_map.1 hk
    refine List.mem_flatMap.2 ⟨(p.owner, (entries.filter fun e => e.owner == p.owner).map
      PendingDelete.blob), ?_, ?_⟩
    · refine List.mem_map.2 ⟨p.owner, ?_, rfl⟩
      rw [List.mem_mergeSort, List.mem_eraseDups]
      exact List.mem_map_of_mem hp
    · refine List.mem_map.2 ⟨p.blob, List.mem_map.2 ⟨p, ?_, rfl⟩, rfl⟩
      exact List.mem_filter.2 ⟨hp, beq_self_eq_true _⟩

section Ledger

variable (hn : (a.tables.pending.map PendingDelete.key).Nodup)

include hn

/-- **A sweep** reports the entries that it tries, split by what fails, and clears those of them
that do not fail. -/
theorem sweep_of_failsAt (h : env.backend.FailsAt fails) (limit : Nat) :
    let tried := a.tables.pendingDeletes limit
    let deleted := tried.filter (!fails ·.key)
    let failed := tried.filter (fails ·.key)
    (a.sweep env limit).1.deleted.Perm (deleted.map PendingDelete.blob) ∧
      (a.sweep env limit).1.failed.Perm (failed.map PendingDelete.blob) ∧
      (a.sweep env limit).2 = a.cleared (deleted.map PendingDelete.key) := by
  intro tried deleted failed
  have hperm : (keysOf (byOwner tried)).Perm (tried.map PendingDelete.key) :=
    keysOf_byOwner_perm (nodup_pendingDeletes hn limit)
  have hsplit (q : Key → Bool) : ((keysOf (byOwner tried)).filter q).Perm
      ((tried.filter (q ·.key)).map PendingDelete.key) := by
    have hfilter := hperm.filter q
    rwa [List.filter_map] at hfilter
  have hblobs (q : Key → Bool) : (((keysOf (byOwner tried)).filter q).map Key.blob).Perm
      ((tried.filter (q ·.key)).map PendingDelete.blob) := by
    have hmap := (hsplit q).map Key.blob
    rwa [List.map_map] at hmap
  rw [sweep, releaseAll_of_failsAt h]
  exact ⟨hblobs (!fails ·), hblobs fails, cleared_congr (fun k => (hsplit (!fails ·)).mem_iff) a⟩

/-- The entries that a sweep takes out of the ledger. -/
lemma pending_sweep (h : env.backend.FailsAt fails) (limit : Nat) :
    (a.sweep env limit).2.tables.pending = a.tables.pending.filter fun p =>
      !((a.tables.backlog.take limit).contains p && !fails p.key) := by
  rw [(sweep_of_failsAt hn h limit).2.2]
  refine List.filter_congr fun p hp => ?_
  have hkey : ∀ q ∈ a.tables.backlog.take limit, q.key = p.key → q = p := by
    intro q hq e
    have hq : q ∈ a.tables.pending := Tables.mem_backlog.1 (List.mem_of_mem_take hq)
    exact List.inj_on_of_nodup_map hn hq hp e
  rw [Bool.eq_iff_iff]
  simp only [Bool.not_eq_true', ← Bool.not_eq_true, not_iff_not]
  simp only [List.contains_iff_mem, List.mem_map, List.mem_filter, Bool.and_eq_true]
  constructor
  · rintro ⟨q, ⟨hq, hok⟩, e⟩
    obtain rfl := hkey q hq e
    exact ⟨hq, hok⟩
  · exact fun ⟨hq, hok⟩ => ⟨p, ⟨hq, hok⟩, rfl⟩

/-- The backlog after a sweep. -/
lemma backlog_sweep (h : env.backend.FailsAt fails) (limit : Nat) :
    (a.sweep env limit).2.tables.backlog =
      PendingDelete.remaining fails limit a.tables.backlog := by
  have hbacklog : a.tables.backlog.Nodup := a.tables.backlog_perm.nodup_iff.2 hn.of_map
  rw [PendingDelete.remaining_eq_filter hbacklog]
  exact Tables.backlog_filter hn.of_map (pending_sweep hn h limit)

/-- A sweep leaves each key at most once in the ledger. -/
lemma nodup_sweep (h : env.backend.FailsAt fails) (limit : Nat) :
    ((a.sweep env limit).2.tables.pending.map PendingDelete.key).Nodup := by
  rw [pending_sweep hn h]
  exact hn.sublist (List.filter_sublist.map _)

/-- A sweep that leaves the backlog as it was leaves everything as it was. -/
lemma sweep_eq_self (h : env.backend.FailsAt fails)
    (hfixed : PendingDelete.remaining fails limit a.tables.backlog = a.tables.backlog) :
    (a.sweep env limit).2 = a := by
  have hnone : (a.tables.pendingDeletes limit).filter (!fails ·.key) = [] := by
    refine List.filter_eq_nil_iff.2 fun p hp => ?_
    simp [PendingDelete.remaining_eq_self_iff.1 hfixed p hp]
  rw [(sweep_of_failsAt hn h limit).2.2, hnone, List.map_nil, cleared_nil]

end Ledger

/-! ## Repeated sweeps -/

/-- The archive after sweeps, each in surroundings of its own. -/
def swept (env : Nat → Env) (limit : Nat) (a : Archive) : Nat → Archive
  | 0 => a
  | k + 1 => ((swept env limit a k).sweep (env k) limit).2

section Sweeps

variable {env : Nat → Env} {k : Nat} (hn : (a.tables.pending.map PendingDelete.key).Nodup)
  (h : ∀ k, (env k).backend.FailsAt fails)

include hn h

/-- So do sweeps, however many. -/
lemma nodup_swept (k : Nat) :
    ((a.swept env limit k).tables.pending.map PendingDelete.key).Nodup := by
  induction k with
  | zero => exact hn
  | succ k ih => exact nodup_sweep ih (h k) limit

/-- **The backlog after sweeps.** Each of them is a round. -/
theorem backlog_swept (k : Nat) : (a.swept env limit k).tables.backlog =
    (PendingDelete.remaining fails limit)^[k] a.tables.backlog := by
  induction k with
  | zero => rfl
  | succ k ih =>
    rw [Function.iterate_succ_apply', ← ih]
    exact backlog_sweep (nodup_swept hn h k) (h k) limit

/-- The entries after sweeps are those of the rounds, in some order. -/
lemma mem_pending_swept {p : PendingDelete} : p ∈ (a.swept env limit k).tables.pending ↔
    p ∈ (PendingDelete.remaining fails limit)^[k] a.tables.backlog := by
  rw [← backlog_swept hn h, Tables.mem_backlog]

/-- After as many sweeps as there are entries nothing changes any more. -/
lemma swept_eq (hk : a.tables.pending.length ≤ k) :
    a.swept env limit k = a.swept env limit a.tables.pending.length := by
  induction hk with
  | refl => rfl
  | step hk ih =>
    have hlength : a.tables.backlog.length ≤ _ := a.tables.backlog_perm.length_eq ▸ hk
    refine Eq.trans (sweep_eq_self (nodup_swept hn h _) (h _) ?_) ih
    rw [backlog_swept hn h]
    exact PendingDelete.remaining_iterate hlength

/-- **Repeated sweeps settle.** Let a store fail to delete exactly the payloads of some keys. Each
sweep tries the oldest entries of the ledger, as many as the limit says or all that are left. It
reports those that fail as failed and the others as deleted, and clears the latter with their
payloads and nothing else. After as many sweeps as there were entries nothing changes any more, and
an entry is still queued exactly if it fails, or if at least as many failing entries as the limit
are in front of it. In particular, without failures the entries divided by the limit, rounded up,
is how many sweeps empty the ledger, and failing entries that are fewer than the limit block no
other one.

**Proof sketch.** A sweep keeps the order of the entries, so the backlog after sweeps is what rounds
leave of it. The failing entries stay, hence those in front of an entry do not change. Once a round
changes nothing, all that it tries fails, and what comes behind has that many in front of it. -/
theorem sweeps_settle (hlimit : 1 ≤ limit) :
    let after k := a.swept env limit k
    let n := a.tables.pending.length
    (∀ k,
      let queued := (after k).tables.pending
      let tried := (after k).tables.pendingDeletes limit
      let deleted := tried.filter (!fails ·.key)
      let failed := tried.filter (fails ·.key)
      let report := ((after k).sweep (env k) limit).1
      tried.length = min limit queued.length ∧ tried.Nodup ∧ (∀ p ∈ tried, p ∈ queued) ∧
      (∀ p ∈ tried, ∀ q ∈ queued, q ∉ tried → p.order q = .lt) ∧
      report.deleted.Perm (deleted.map PendingDelete.blob) ∧
      report.failed.Perm (failed.map PendingDelete.blob) ∧
      after (k + 1) = (after k).cleared (deleted.map PendingDelete.key)) ∧
    (∀ k, n ≤ k → after k = after n) ∧
    (∀ p, p ∈ (after n).tables.pending ↔ p ∈ a.tables.pending ∧
      (fails p.key = true ∨ limit ≤ PendingDelete.failuresBefore fails a.tables.pending p)) ∧
    ((∀ p ∈ a.tables.pending, fails p.key = false) →
      (after (n ⌈/⌉ limit)).tables.pending = []) ∧
    (a.tables.pending.countP (fails ·.key) < limit →
      ∀ p, p ∈ (after n).tables.pending ↔ p ∈ a.tables.pending ∧ fails p.key = true) := by
  intro after n
  have hsorted : PendingDelete.Sorted a.tables.backlog := Tables.backlog_sorted hn.of_map
  have hlength : a.tables.backlog.length = n := a.tables.backlog_perm.length_eq
  have hleft : ∀ p, p ∈ (after n).tables.pending ↔ p ∈ a.tables.pending ∧
      (fails p.key = true ∨ limit ≤ PendingDelete.failuresBefore fails a.tables.pending p) := by
    intro p
    have hcount : PendingDelete.failuresBefore fails a.tables.pending p =
        PendingDelete.failuresBefore fails a.tables.backlog p :=
      (a.tables.backlog_perm.countP_eq _).symm
    rw [mem_pending_swept hn h, PendingDelete.mem_iterate_remaining hsorted hlength.le,
      Tables.mem_backlog, hcount]
  refine ⟨fun k => ?_, fun k => swept_eq hn h, hleft, ?_, ?_⟩
  · intro queued tried deleted failed report
    have hkeys : (queued.map PendingDelete.key).Nodup := nodup_swept hn h k
    obtain ⟨hdeleted, hfailed, hcleared⟩ := sweep_of_failsAt hkeys (h k) limit
    exact ⟨(after k).tables.length_pendingDeletes limit, (nodup_pendingDeletes hkeys limit).of_map,
      fun p => mem_pending_of_mem_pendingDeletes,
      fun p hp q => Tables.order_of_mem_pendingDeletes hkeys.of_map hp,
      hdeleted, hfailed, hcleared⟩
  · intro hok
    have hok' : ∀ p ∈ a.tables.backlog, fails p.key = false :=
      fun p hp => hok p (Tables.mem_backlog.1 hp)
    have hpos : 0 < limit := hlimit
    have henough : a.tables.backlog.length ≤ (n ⌈/⌉ limit) * limit := by
      rw [hlength, Nat.mul_comm]
      exact le_smul_ceilDiv hpos
    refine List.eq_nil_iff_forall_not_mem.2 fun p => ?_
    rw [mem_pending_swept hn h, PendingDelete.iterate_remaining_of_succeeding hok',
      List.drop_eq_nil_of_le henough]
    exact List.not_mem_nil
  · intro hfew p
    have hbefore : PendingDelete.failuresBefore fails a.tables.pending p ≤
        a.tables.pending.countP (fails ·.key) := by
      refine List.countP_mono_left fun q _ hq => ?_
      exact (Bool.and_eq_true _ _ ▸ hq).1
    rw [hleft, or_iff_left (by omega)]

end Sweeps

/-! ### Two entries in front of another one -/

/-- The ledger has entries of two owners, two of them of one blob identifier. Only the payload of
the latest entry is there. -/
def stalled : Archive :=
  let entry (owner blob time : Nat) : PendingDelete := ⟨⟨.ofNat owner⟩, ⟨.ofNat blob⟩, ⟨time⟩⟩
  ⟨{ Tables.empty with pending := [entry 1 3 3, entry 2 1 0, entry 2 2 2, entry 1 1 1] },
    Payloads.empty.insert ⟨⟨.ofNat 1⟩, ⟨.ofNat 3⟩⟩ ⟨#[7]⟩⟩

/-- The store fails at one key of each owner, and reports missing keys. -/
def stuckAtTwo (k : Nat) : Env :=
  let stuck : List Key := [⟨⟨.ofNat 1⟩, ⟨.ofNat 1⟩⟩, ⟨⟨.ofNat 2⟩, ⟨.ofNat 2⟩⟩]
  { Env.numbered k with
    backend := { Backend.reliable with
      deleteFault := fun key => if stuck.contains key then some "refused" else none
      missingAt := some fun key => "/srv/blobs.d/" ++ key.text } }

/-- With a limit of two, the two failing entries stay, and so does the one behind them. The entry
in front of them, of the same blob identifier as one that fails, is cleared. With a limit of three
the one behind them is cleared, too. -/
theorem sweeps_settle_stalled :
    let fails (k : Key) := (stuckAtTwo 0).backend.refuses k
    (stalled.tables.pending.map PendingDelete.key).Nodup ∧
    (∀ k, (stuckAtTwo k).backend.FailsAt fails) ∧
    (∀ p ∈ stalled.tables.pending,
      p ∈ (stalled.swept stuckAtTwo 2 4).tables.pending ↔ p.queuedAt ≠ ⟨0⟩) ∧
    ∀ p ∈ stalled.tables.pending,
      p ∈ (stalled.swept stuckAtTwo 3 4).tables.pending ↔ p.queuedAt = ⟨1⟩ ∨ p.queuedAt = ⟨2⟩ := by
  intro fails
  have hkeys : (stalled.tables.pending.map PendingDelete.key).Nodup := by decide +kernel
  have hfails : ∀ k, (stuckAtTwo k).backend.FailsAt fails := by
    refine fun k => ⟨fun _ => rfl, ?_⟩
    rintro _ ⟨⟩ key
    exact ⟨"/srv/blobs.d/".toList, String.toList_append.symm⟩
  obtain ⟨-, -, htwo, -, -⟩ := sweeps_settle hkeys hfails (by decide : 1 ≤ 2)
  obtain ⟨-, -, -, -, hthree⟩ := sweeps_settle hkeys hfails (by decide : 1 ≤ 3)
  refine ⟨hkeys, hfails, fun p hp => ?_, fun p hp => ?_⟩
  · refine (htwo p).trans ((and_iff_right hp).trans ?_)
    revert p
    decide +kernel
  · refine (hthree (by decide +kernel) p).trans ((and_iff_right hp).trans ?_)
    revert p
    decide +kernel

end Archive

end VersionedTree
