import VersionedTree.Tables.Statement

/-!
# Sessions

A session is a sequence of transactions on the tables. Within a transaction statements follow each
other, and their results are in the tables at once. Its end keeps them if the references of links
hold, and otherwise takes the tables back to what they were at its beginning, as does an end
without keeping.

## Main definitions

* `VersionedTree.Session` — the tables now, and at the beginning of the transaction in progress.
* `VersionedTree.Session.Event` — a statement, or the end of a transaction.
* `VersionedTree.Session.after` — a session after events.
-/

set_option autoImplicit false

namespace VersionedTree

/-- The tables during a transaction. -/
structure Session where
  /-- The tables at the beginning of the transaction in progress. -/
  start : Tables
  /-- The tables now. -/
  now : Tables
deriving DecidableEq, Repr

namespace Session

/-- What happens in a session. A statement outside of a transaction is one that is committed at
once. -/
inductive Event where
  /-- A statement on behalf of an owner; one that fails does not end the transaction. -/
  | call (fresh : Fresh) (owner : OwnerId) (statement : Statement)
  /-- The end of the transaction; the next one begins. -/
  | commit
  /-- The end of the transaction without its changes; the next one begins. -/
  | rollback

/-- A session without a row. -/
def empty : Session := ⟨.empty, .empty⟩

/-- One event. -/
def step (s : Session) : Event → Session
  | .call fresh owner statement => { s with now := (statement.run fresh owner s.now).2 }
  | .commit => let kept := (Tables.commit s.start s.now).2; ⟨kept, kept⟩
  | .rollback => ⟨s.start, s.start⟩

/-- Events in turn. -/
def after (events : List Event) (s : Session) : Session := events.foldl step s

end Session

end VersionedTree
