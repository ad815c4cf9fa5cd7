import Mathlib.Tactic.Lemma
import VersionedTree.Tables.Session

/-!
# Invariants of sessions

## Main results

* `VersionedTree.Session.invariant` — what holds without rows and is kept by every statement of a
  session holds in all of its states, committed or not.
-/

set_option autoImplicit false

namespace VersionedTree.Session

/-- What one event keeps: a property of the tables now and at the beginning of the transaction. -/
lemma step_invariant {P : Tables → Prop} {e : Event} {s : Session}
    (hcall : ∀ fresh owner statement, e = .call fresh owner statement →
      P s.now → P (statement.run fresh owner s.now).2)
    (h : P s.start ∧ P s.now) : P (s.step e).start ∧ P (s.step e).now := by
  cases e with
  | call fresh owner statement => exact ⟨h.1, hcall fresh owner statement rfl h.2⟩
  | commit =>
    simp only [step, Tables.commit]
    split
    · exact ⟨h.2, h.2⟩
    · exact ⟨h.1, h.1⟩
  | rollback => exact ⟨h.1, h.1⟩

/-- A property that holds without rows and that the statements among the events keep holds after
the events, for the tables now and for those at the beginning of the transaction.

**Proof sketch.** Induction on the events. The end of a transaction makes one of the two tables
both of them. -/
theorem invariant {P : Tables → Prop} {events : List Event} (hempty : P .empty)
    (hcall : ∀ fresh owner statement, .call fresh owner statement ∈ events →
      ∀ t, P t → P (statement.run fresh owner t).2) :
    P (Session.empty.after events).start ∧ P (Session.empty.after events).now := by
  suffices h : ∀ s : Session, P s.start ∧ P s.now →
      P (s.after events).start ∧ P (s.after events).now from h _ ⟨hempty, hempty⟩
  induction events with
  | nil => exact fun _ h => h
  | cons e rest ih =>
    intro s h
    refine ih (fun f o st hm => hcall f o st (List.mem_cons_of_mem _ hm)) _ ?_
    exact step_invariant (fun f o st he => hcall f o st (he ▸ List.mem_cons_self) _) h

end VersionedTree.Session
