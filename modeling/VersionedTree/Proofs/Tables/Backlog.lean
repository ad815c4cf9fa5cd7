import VersionedTree.Proofs.Archive.Orphans
import VersionedTree.Proofs.Order

/-!
# The backlog of the ledger

A sweep takes the first entries of the ledger, in an order that is fixed when they are queued. Those
that fail stay where they are in this order, and so the same entries come first again. Entries
behind them are reached only as long as fewer of them than the limit are in front.

## Main definitions

* `VersionedTree.Tables.backlog` — the entries of the ledger in their order.
* `VersionedTree.PendingDelete.remaining` — what is left of a backlog when its first entries are
  tried.
* `VersionedTree.PendingDelete.failuresBefore` — the failing entries in front of an entry.

## Main results

* `VersionedTree.Tables.backlog_sorted` — the order is strict.
* `VersionedTree.PendingDelete.remaining_iterate` — rounds come to an end.
* `VersionedTree.PendingDelete.mem_iterate_remaining` — the entries that are left for good.
* `VersionedTree.PendingDelete.iterate_remaining_of_succeeding` — rounds without failures.
-/

set_option autoImplicit false

namespace VersionedTree

namespace PendingDelete

variable {p q r : PendingDelete}

/-! ## The order of entries -/

/-- The comparison of entries by three keys. -/
lemma order_eq : order = compareLex (compareOn fun p => p.queuedAt.micros)
    (compareLex (compareOn fun p => p.owner.uuid.bits.val)
      (compareOn fun p => p.blob.uuid.bits.val)) := rfl

instance : Std.TransCmp order := by
  rw [order_eq]
  infer_instance

/-- Entries that are not ordered are the same. -/
lemma eq_of_order (h : p.order q = .eq) : p = q := by
  obtain ⟨hqueued, hrest⟩ := Ordering.then_eq_eq.1 h
  obtain ⟨howner, hblob⟩ := Ordering.then_eq_eq.1 hrest
  have hmicros : p.queuedAt.micros = q.queuedAt.micros := Int.compare_eq_eq.1 hqueued
  cases p
  cases q
  exact PendingDelete.mk.injEq .. |>.mpr
    ⟨Id.eq_of_order howner, Id.eq_of_order hblob, congrArg Instant.mk hmicros⟩

/-- Is each entry in front of those that follow it? -/
def Sorted (entries : List PendingDelete) : Prop := entries.Pairwise fun p q => p.order q = .lt

end PendingDelete

namespace Tables

variable {t t' : Tables}

/-- The entries of the ledger in their order. -/
def backlog (t : Tables) : List PendingDelete := t.pending.mergeSort fun p q => (p.order q).isLE

/-- A sweep takes its entries from the front of the backlog. -/
lemma pendingDeletes_eq (t : Tables) (limit : Nat) :
    t.pendingDeletes limit = t.backlog.take limit := rfl

/-- The backlog has the entries of the ledger, each as often as the ledger has it. -/
lemma backlog_perm (t : Tables) : t.backlog.Perm t.pending := List.mergeSort_perm _ _

/-- What is in the ledger is in the backlog, and nothing else is. -/
lemma mem_backlog {p : PendingDelete} : p ∈ t.backlog ↔ p ∈ t.pending := List.mem_mergeSort

/-- **The order of the ledger** is strict, as no entry is in it twice. -/
theorem backlog_sorted (hn : t.pending.Nodup) : PendingDelete.Sorted t.backlog := by
  refine pairwise_lt_mergeSort (hn.imp ?_)
  intro p q hne heq
  exact hne (PendingDelete.eq_of_order heq)

/-- A sweep takes as many entries as its limit says, or all if there are fewer. -/
lemma length_pendingDeletes (t : Tables) (limit : Nat) :
    (t.pendingDeletes limit).length = min limit t.pending.length := by
  rw [pendingDeletes_eq, List.length_take, t.backlog_perm.length_eq]

/-- The oldest entries come before all others. -/
lemma order_of_mem_pendingDeletes (hn : t.pending.Nodup) {limit : Nat} {p q : PendingDelete}
    (hp : p ∈ t.pendingDeletes limit) (hq : q ∈ t.pending) (hlater : q ∉ t.pendingDeletes limit) :
    p.order q = .lt := by
  rw [← mem_backlog] at hq
  have hbefore := take_before_drop (backlog_sorted hn) limit
  exact hbefore p hp q (mem_drop_of_not_mem_take hq hlater)

/-- Entries that stay keep their order. -/
lemma backlog_filter (hn : t.pending.Nodup) {stays : PendingDelete → Bool}
    (hp : t'.pending = t.pending.filter stays) : t'.backlog = t.backlog.filter stays := by
  have hn' : t'.pending.Nodup := hp ▸ hn.filter stays
  have hleft : t'.backlog.Pairwise fun p q => p.order q = .lt := backlog_sorted hn'
  refine hleft.eq_of_mem_iff ((backlog_sorted hn).filter stays) ?_
  intro p
  rw [mem_backlog, List.mem_filter, mem_backlog, hp, List.mem_filter]

end Tables

namespace PendingDelete

/-! ## Rounds -/

section Rounds

variable (fails : Key → Bool) (limit : Nat) (entries : List PendingDelete)

/-- What is left of a backlog when its first `limit` entries are tried: those of them that fail, and
all later ones. -/
def remaining : List PendingDelete :=
  (entries.take limit).filter (fails ·.key) ++ entries.drop limit

/-- The number of failing entries in front of an entry. -/
def failuresBefore (p : PendingDelete) : Nat :=
  entries.countP fun q => fails q.key && q.order p == .lt

variable {fails limit entries} {p : PendingDelete} {k : Nat}

/-- A round lets entries go and leaves the others in their order. -/
lemma remaining_sublist : (remaining fails limit entries).Sublist entries := by
  have hsub : (remaining fails limit entries).Sublist (entries.take limit ++ entries.drop limit) :=
    List.filter_sublist.append (List.Sublist.refl _)
  rwa [List.take_append_drop] at hsub

/-- Rounds one after the other let entries go and leave the others in their order. -/
lemma iterate_remaining_sublist (k : Nat) :
    ((remaining fails limit)^[k] entries).Sublist entries := by
  induction k generalizing entries with
  | zero => exact List.Sublist.refl _
  | succ k ih =>
    rw [Function.iterate_succ_apply]
    exact ih.trans remaining_sublist

/-- An entry is gone if it was tried and did not fail. -/
lemma remaining_eq_filter (hn : entries.Nodup) :
    remaining fails limit entries =
      entries.filter fun p => !((entries.take limit).contains p && !fails p.key) := by
  have hsplit := List.take_append_drop limit entries
  have hapart := (List.nodup_append.1 (hsplit.symm ▸ hn)).2.2
  conv_rhs => rw [← hsplit, List.filter_append, hsplit]
  refine congrArg₂ (· ++ ·) (List.filter_congr ?_) (List.filter_eq_self.2 ?_).symm
  · intro p hp
    simp [hp]
  · intro p hp
    have hnot : p ∉ entries.take limit := fun hp' => hapart p hp' p hp rfl
    simp [hnot]

/-- Failing entries stay. -/
lemma filter_remaining :
    (remaining fails limit entries).filter (fails ·.key) = entries.filter (fails ·.key) := by
  rw [remaining, List.filter_append, List.filter_filter]
  simp only [Bool.and_self]
  rw [← List.filter_append, List.take_append_drop]

/-- Only the failing entries are counted, so that the others need not be there. -/
lemma failuresBefore_eq : failuresBefore fails entries p =
    (entries.filter (fails ·.key)).countP fun q => q.order p == .lt := by
  rw [List.countP_filter, failuresBefore]
  refine List.countP_congr fun q _ => ?_
  rw [Bool.and_comm]

/-- Rounds leave as many failing entries in front of an entry as before. -/
lemma failuresBefore_iterate (k : Nat) :
    failuresBefore fails ((remaining fails limit)^[k] entries) p =
      failuresBefore fails entries p := by
  induction k generalizing entries with
  | zero => rfl
  | succ k ih =>
    rw [Function.iterate_succ_apply, ih, failuresBefore_eq, filter_remaining, ← failuresBefore_eq]

/-! ### Rounds without a change -/

/-- A round changes nothing exactly if all that it tries fails. -/
lemma remaining_eq_self_iff : remaining fails limit entries = entries ↔
    ∀ p ∈ entries.take limit, fails p.key = true := by
  have hsplit := List.take_append_drop limit entries
  rw [← List.filter_eq_self]
  constructor
  · intro h
    rw [remaining] at h
    exact List.append_cancel_right (h.trans hsplit.symm)
  · intro h
    rw [remaining, h, hsplit]

/-- **After as many rounds as there are entries** nothing changes any more.

**Proof sketch.** Induction on the rounds. A round that changes something makes the backlog
shorter. -/
theorem remaining_iterate (hk : entries.length ≤ k) :
    remaining fails limit ((remaining fails limit)^[k] entries) =
      (remaining fails limit)^[k] entries := by
  induction k generalizing entries with
  | zero =>
    obtain rfl := List.length_eq_zero_iff.1 (Nat.le_zero.1 hk)
    simp [remaining]
  | succ k ih =>
    rw [Function.iterate_succ_apply]
    by_cases hfixed : remaining fails limit entries = entries
    · rw [hfixed, Function.iterate_fixed hfixed, hfixed]
    · refine ih (Nat.le_of_lt_succ (Nat.lt_of_lt_of_le ?_ hk))
      refine Nat.lt_of_le_of_ne remaining_sublist.length_le fun hlength => ?_
      exact hfixed (remaining_sublist.eq_of_length hlength)

/-! ### Entries that are left for good -/

/-- An entry with enough failing ones in front of it is not tried. -/
lemma not_mem_take (hs : Sorted entries) (hp : limit ≤ failuresBefore fails entries p) :
    p ∉ entries.take limit := by
  intro hmem
  have hbefore := take_before_drop hs limit
  have hlater : (entries.drop limit).countP (fun q => fails q.key && q.order p == .lt) = 0 := by
    refine List.countP_eq_zero.2 fun q hq => ?_
    have hpq : p.order q = .lt := hbefore p hmem q hq
    simp [cmp_lt_asymm hpq]
  have hfirst : (entries.take limit).countP (fun q => fails q.key && q.order p == .lt) <
      (entries.take limit).length := by
    refine Nat.lt_of_le_of_ne List.countP_le_length fun hall => ?_
    have hself := List.countP_eq_length.1 hall p hmem
    simp [cmp_lt_irrefl] at hself
  rw [failuresBefore, ← List.take_append_drop limit entries, List.countP_append, hlater,
    Nat.add_zero] at hp
  have hlength := List.length_take_le limit entries
  omega

/-- An entry behind as many failing ones as the limit says is there after every number of rounds. -/
lemma mem_iterate_of_blocked (hs : Sorted entries) (hmem : p ∈ entries)
    (hp : limit ≤ failuresBefore fails entries p) (k : Nat) :
    p ∈ (remaining fails limit)^[k] entries := by
  induction k with
  | zero => exact hmem
  | succ k ih =>
    rw [Function.iterate_succ_apply']
    have hsorted : Sorted ((remaining fails limit)^[k] entries) :=
      hs.sublist (iterate_remaining_sublist k)
    have huntried : p ∉ ((remaining fails limit)^[k] entries).take limit :=
      not_mem_take hsorted (by rwa [failuresBefore_iterate])
    exact List.mem_append_right _ (mem_drop_of_not_mem_take ih huntried)

/-- A failing entry is there after every number of rounds. -/
lemma mem_iterate_of_fails (hmem : p ∈ entries) (hp : fails p.key = true) (k : Nat) :
    p ∈ (remaining fails limit)^[k] entries := by
  induction k with
  | zero => exact hmem
  | succ k ih =>
    rw [Function.iterate_succ_apply']
    refine List.mem_of_mem_filter (p := (fails ·.key)) ?_
    rw [filter_remaining]
    exact List.mem_filter.2 ⟨ih, hp⟩

/-- If all that is tried fails, what does not fail is behind as many failing entries as the limit
says. -/
lemma le_failuresBefore (hs : Sorted entries) (hall : ∀ q ∈ entries.take limit, fails q.key = true)
    (hp : p ∈ entries) (hok : fails p.key ≠ true) : limit ≤ failuresBefore fails entries p := by
  have hbehind : p ∈ entries.drop limit :=
    mem_drop_of_not_mem_take hp fun hp' => hok (hall p hp')
  have hlength : (entries.take limit).length = limit := by
    have hpos := List.length_pos_of_mem hbehind
    rw [List.length_drop] at hpos
    rw [List.length_take]
    omega
  have hcount : (entries.take limit).countP (fun q => fails q.key && q.order p == .lt) =
      (entries.take limit).length := by
    refine List.countP_eq_length.2 fun q hq => ?_
    have hqp : q.order p = .lt := take_before_drop hs limit q hq p hbehind
    simp [hall q hq, hqp]
  calc limit = (entries.take limit).countP fun q => fails q.key && q.order p == .lt := by
        rw [hcount, hlength]
    _ ≤ failuresBefore fails entries p := (List.take_sublist limit entries).countP_le

/-- **The entries that are left for good** fail, or have as many failing ones in front of them as
the limit says.

**Proof sketch.** Once nothing changes any more, all entries that are tried fail. An entry that does
not fail is behind them, and they are as many as the limit. -/
theorem mem_iterate_remaining (hs : Sorted entries) (hk : entries.length ≤ k) :
    p ∈ (remaining fails limit)^[k] entries ↔
      p ∈ entries ∧ (fails p.key = true ∨ limit ≤ failuresBefore fails entries p) := by
  constructor
  · intro hp
    refine ⟨(iterate_remaining_sublist k).subset hp, or_iff_not_imp_left.2 fun hok => ?_⟩
    have hsorted : Sorted ((remaining fails limit)^[k] entries) :=
      hs.sublist (iterate_remaining_sublist k)
    have hfixed : remaining fails limit ((remaining fails limit)^[k] entries) =
        (remaining fails limit)^[k] entries := remaining_iterate hk
    rw [← failuresBefore_iterate k]
    exact le_failuresBefore hsorted (remaining_eq_self_iff.1 hfixed) hp hok
  · rintro ⟨hmem, hp | hp⟩
    · exact mem_iterate_of_fails hmem hp k
    · exact mem_iterate_of_blocked hs hmem hp k

/-- **Without failures** every round takes as many entries as the limit allows. -/
theorem iterate_remaining_of_succeeding (h : ∀ p ∈ entries, fails p.key = false) (k : Nat) :
    (remaining fails limit)^[k] entries = entries.drop (k * limit) := by
  induction k with
  | zero => rw [Nat.zero_mul, List.drop_zero, Function.iterate_zero_apply]
  | succ k ih =>
    have hnone : ((entries.drop (k * limit)).take limit).filter (fails ·.key) = [] := by
      refine List.filter_eq_nil_iff.2 fun p hp => ?_
      simp [h p (List.mem_of_mem_drop (List.mem_of_mem_take hp))]
    rw [Function.iterate_succ_apply', ih, remaining, hnone, List.nil_append, List.drop_drop,
      Nat.succ_mul]

end Rounds

end PendingDelete

end VersionedTree
