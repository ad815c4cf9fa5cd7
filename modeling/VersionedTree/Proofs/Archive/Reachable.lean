import VersionedTree.Proofs.Archive.Listings

/-!
# Archives that can be reached

An archive comes from an empty one by operations, and by transactions of which nothing is known but
the statements. Its nodes form a forest, and the references of its links hold, since all changes of
tables are those of statements, and none outlives its transaction otherwise.

## Main definitions

* `VersionedTree.Archive.Reachable` — what operations and transactions lead to.

## Main results

* `VersionedTree.Operation.referencesHold_run` — operations keep the references of links.
* `VersionedTree.Archive.Reachable.isForest`, `VersionedTree.Archive.Reachable.referencesHold` —
  what can be relied on.
-/

set_option autoImplicit false

namespace VersionedTree

/-- **References hold after an operation**, also after one that fails: a transaction is not kept
otherwise, and deletions of payloads do not concern links. -/
theorem Operation.referencesHold_run (env : Env) (owner : OwnerId) (op : Operation) {a : Archive}
    (h : a.tables.referencesHold = true) :
    (op.run env owner a).2.tables.referencesHold = true := by
  have kept {α : Type} (body : Tables → Except ArchiveError α × Tables) :
      (a.tables.transact body).2.referencesHold = true := by
    rcases a.tables.transact_cases body with ⟨e, h'⟩ | ⟨x, t', -, hr, h'⟩ <;> rw [h']
    · exact h
    · exact hr
  cases op with
  | createRoot => exact kept _
  | createDirectory path => exact kept _
  | createFile path info stream =>
    change (a.createFile env owner path info stream).2.tables.referencesHold = true
    obtain ⟨p, -, ⟨e, h'⟩ | ⟨_, file, t', -, -, -, -, hr, h'⟩⟩ :=
      a.createFile_cases env owner path info stream <;> rw [h']
    · exact h
    · exact hr
  | addVersion node info stream =>
    change (a.addVersion env owner node info stream).2.tables.referencesHold = true
    obtain ⟨p, -, ⟨e, h'⟩ | ⟨_, version, t', -, -, -, -, hr, h'⟩⟩ :=
      a.addVersion_cases env owner node info stream <;> rw [h']
    · exact h
    · exact hr
  | move node target => exact kept _
  | copy node target onlyNewest => exact kept _
  | remove node recursive =>
    change (a.remove env owner node recursive).2.tables.referencesHold = true
    rcases a.remove_cases env owner node recursive with
      ⟨e, h'⟩ | ⟨removed, orphaned, t', -, hr, h'⟩ <;> rw [h']
    · exact h
    · exact hr
  | removeVersion node blob =>
    change (a.removeVersion env owner node blob).2.tables.referencesHold = true
    rcases a.removeVersion_cases env owner node blob with
      ⟨e, h'⟩ | ⟨orphaned, t', -, hr, h'⟩ <;> rw [h']
    · exact h
    · exact hr
  | sweep limit =>
    change (Archive.releaseAll env _ a).2.tables.referencesHold = true
    rw [Archive.releaseAll_frame]
    exact h
  | _ => exact h

namespace Archive

/-- The archives that operations and committed transactions on the tables lead to. A transaction
runs any statements of any owners, and is undone if references do not hold at its end. -/
inductive Reachable : Archive → Prop where
  | empty : Reachable .empty
  | step {a : Archive} (h : Reachable a) (s : Step) : Reachable (s.apply a)
  | transact {a : Archive} (h : Reachable a) (calls : List (Fresh × OwnerId × Statement)) :
    Reachable { a with tables := (Tables.commit a.tables (Statement.runAll calls a.tables)).2 }

namespace Reachable

variable {a : Archive}

/-- A history leads to a reachable archive. -/
lemma after (h : a.Reachable) (history : List Step) : (a.after history).Reachable := by
  induction history generalizing a with
  | nil => exact h
  | cons s rest ih => exact ih (h.step s)

/-- The nodes form a forest. -/
theorem isForest (h : a.Reachable) : a.tables.IsForest := by
  induction h with
  | empty => exact .empty
  | step _ s ih =>
    exact (s.operation.runsTo s.env s.owner _).invariant
      (fun fresh owner s _ _ ht => ht.run fresh owner s) ih
  | transact _ calls ih =>
    unfold Tables.commit
    split
    · exact ih.runAll calls
    · exact ih

/-- The references of links hold. -/
theorem referencesHold (h : a.Reachable) : a.tables.referencesHold = true := by
  induction h with
  | empty => rfl
  | step _ s ih => exact s.operation.referencesHold_run s.env s.owner ih
  | transact _ calls ih =>
    unfold Tables.commit
    split
    · next hr => exact hr
    · exact ih

end Reachable

end Archive

end VersionedTree
