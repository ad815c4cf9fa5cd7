import VersionedTree.Proofs.Tables.Linked

/-!
# Links at the end of transactions

The removal of nodes does not look at links, and the references of links are checked at the end of
a transaction only, so that within a transaction a link may lose its file. It then refers to no
node at all, and to none later on, as identifiers of nodes are not taken twice. So the check finds
every such loss, and tables that are kept have links within an owner only.

## Main definitions

* `VersionedTree.Tables.LinkedOrLost` — every link is within an owner, or has lost its file.
* `VersionedTree.Tables.Tracked` — tables whose nodes and links have identifiers that were taken.
* `VersionedTree.Session.arrivals` — the identifiers of the nodes that events bring in.

## Main results

* `VersionedTree.Tables.Tracked.run` — every statement that takes new identifiers keeps the links
  within an owner, or lost.
* `VersionedTree.Session.Tracked.step` — so do all events, and what they commit has no lost link.
* `VersionedTree.Session.committed_links` — links in every committed state of a session.
-/

set_option autoImplicit false

namespace VersionedTree

namespace Tables

variable {t t' : Tables} {used used' : List NodeId}

/-- Does every link lead to a blob, and to a file of the owner of that blob if it leads to a node
at all? -/
def LinkedOrLost (t : Tables) : Prop :=
  ∀ l ∈ t.links, ∃ o, t.ownsBlob o l.blob = true ∧
    ∀ n ∈ t.nodes, n.id = l.node → n.owner = o ∧ n.kind = .file

/-- **The end of a transaction** finds the links that have lost their files. -/
lemma LinkedOrLost.linked (h : t.LinkedOrLost) (hr : t.referencesHold = true) : t.Linked := by
  intro l hl
  obtain ⟨o, hb, hn⟩ := h l hl
  have hrefs := List.all_eq_true.1 hr l hl
  rw [Bool.and_eq_true, List.any_eq_true] at hrefs
  obtain ⟨n, hmem, hid⟩ := hrefs.1
  obtain ⟨ho, hk⟩ := hn n hmem (beq_iff_eq.1 hid)
  exact ⟨o, hb, hasKind_iff.2 ⟨n, hmem, beq_iff_eq.1 hid, ho, hk⟩⟩

/-- A link without a node breaks the references. -/
lemma referencesHold_eq_false {l : Link} (hl : l ∈ t.links) (hn : ∀ n ∈ t.nodes, n.id ≠ l.node) :
    t.referencesHold = false := by
  rw [Bool.eq_false_iff]
  intro hr
  have hrefs := List.all_eq_true.1 hr l hl
  rw [Bool.and_eq_true, List.any_eq_true] at hrefs
  obtain ⟨n, hmem, hid⟩ := hrefs.1
  exact hn n hmem (beq_iff_eq.1 hid)

/-- Nodes are under their containers, blobs are counted, links are within an owner or lost, and
the identifiers of nodes are among those taken, also the ones of nodes that links have lost. -/
structure Tracked (used : List NodeId) (t : Tables) : Prop where
  forest : t.IsForest
  counted : t.Counted
  linked : t.LinkedOrLost
  nodes_used : ∀ n ∈ t.nodes, n.id ∈ used
  links_used : ∀ l ∈ t.links, l.node ∈ used

namespace Tracked

/-- Tables without rows are tracked. -/
lemma empty : Tracked [] .empty := by
  refine ⟨.empty, .empty, ?_, ?_, ?_⟩ <;> simp [LinkedOrLost, Tables.empty]

/-- Tracked tables stay so when more identifiers are taken. -/
lemma mono (h : t.Tracked used) (hs : used ⊆ used') : t.Tracked used' :=
  ⟨h.forest, h.counted, h.linked, fun n hn => hs (h.nodes_used n hn),
    fun l hl => hs (h.links_used l hl)⟩

/-- **Every statement** that gives its new nodes identifiers not taken before keeps the links
within an owner, or lost.

**Proof sketch.** An old link keeps its blob. A node to which it leads afterwards was there before,
because its identifier was taken, and has kept its owner and kind. A new link leads to a file of
its owner, and no other node has that identifier. -/
theorem run (h : t.Tracked used) (fresh : Fresh) (owner : OwnerId) (s : Statement)
    (hnew : ∀ n ∈ (s.run fresh owner t).2.nodes, n.id ∈ used → ∃ m ∈ t.nodes, m.id = n.id)
    (hused : ∀ n ∈ (s.run fresh owner t).2.nodes, n.id ∈ used') (hs : used ⊆ used') :
    (s.run fresh owner t).2.Tracked used' := by
  have hforest := h.forest.run fresh owner s
  have hnodes := s.nodes_run h.forest fresh owner
  have hlinks := h.counted.linkChange_run fresh owner s
  refine ⟨hforest, h.counted.run fresh owner s, fun l hl => ?_, hused, fun l hl => ?_⟩
  · rcases hlinks l hl with ⟨hold, hkeep⟩ | ⟨hb, hk⟩
    · obtain ⟨o, ho, hn⟩ := h.linked l hold
      refine ⟨o, hkeep o ho, fun n hmem hid => ?_⟩
      obtain ⟨m, hm, hmid⟩ := hnew n hmem (hid ▸ h.links_used l hold)
      rw [hnodes.eq_of_id h.forest.keyed.nodes hforest.keyed.nodes hm hmem hmid.symm]
      exact hn m hm (hmid.trans hid)
    · obtain ⟨f, hf, hfid, hfo, hfk⟩ := hasKind_iff.1 hk
      refine ⟨owner, hb, fun n hmem hid => ?_⟩
      rw [hforest.keyed.nodes.eq_of_id hmem hf (hid.trans hfid.symm)]
      exact ⟨hfo, hfk⟩
  · rcases hlinks l hl with ⟨hold, -⟩ | ⟨-, hk⟩
    · exact hs (h.links_used l hold)
    · obtain ⟨f, hf, hfid, -⟩ := hasKind_iff.1 hk
      exact hfid ▸ hused f hf

end Tracked

end Tables

namespace Session

variable {s : Session} {used : List NodeId}

/-! ## Identifiers of nodes over a session -/

/-- The identifiers of the nodes that an event brings in. -/
def Event.arrivals (s : Session) : Event → List NodeId
  | .call fresh owner statement =>
    ((statement.run fresh owner s.now).2.nodes.map Node.id).filter fun id =>
      !(s.now.nodes.map Node.id).contains id
  | _ => []

/-- The identifiers of the nodes that events bring in, one event after the other. -/
def arrivals : List Event → Session → List NodeId
  | [], _ => []
  | e :: rest, s => e.arrivals s ++ arrivals rest (s.step e)

/-- Is this event a statement? -/
def Event.isCall : Event → Bool
  | .call .. => true
  | _ => false

/-- Events in two groups take effect one group after the other. -/
lemma after_append (xs ys : List Event) (s : Session) :
    s.after (xs ++ ys) = (s.after xs).after ys := List.foldl_append

/-- The arrivals of events in two groups are those of the first group, and those of the second one
from where the first one led. -/
lemma arrivals_append (xs ys : List Event) (s : Session) :
    arrivals (xs ++ ys) s = arrivals xs s ++ arrivals ys (s.after xs) := by
  induction xs generalizing s with
  | nil => rfl
  | cons e rest ih =>
    have h := ih (s.step e)
    simp only [List.cons_append, arrivals, h, List.append_assoc, after, List.foldl_cons]

/-- A node after a statement was there before, or is among the arrivals. -/
lemma mem_arrivals_or {fresh : Fresh} {owner : OwnerId} {statement : Statement} {n : Node}
    (hn : n ∈ (statement.run fresh owner s.now).2.nodes) :
    n.id ∈ Event.arrivals s (.call fresh owner statement) ∨ ∃ m ∈ s.now.nodes, m.id = n.id := by
  by_cases hold : ∃ m ∈ s.now.nodes, m.id = n.id
  · exact .inr hold
  · refine .inl (List.mem_filter.2 ⟨List.mem_map_of_mem hn, ?_⟩)
    simpa using hold

/-- The tables of a session are tracked, and those that are committed have no lost link. -/
structure Tracked (used : List NodeId) (s : Session) : Prop where
  start : s.start.Tracked used
  now : s.now.Tracked used
  kept : s.start.Linked

namespace Tracked

/-- A session without rows is tracked. -/
lemma empty : Tracked [] .empty := ⟨.empty, .empty, .empty⟩

/-- **Every event** that brings in new identifiers keeps the tables tracked. What it commits has
passed the check of references, and so has no lost link. -/
theorem step (h : s.Tracked used) {e : Event} (hnew : ∀ id ∈ e.arrivals s, id ∉ used) :
    (s.step e).Tracked (used ++ e.arrivals s) := by
  have hs : used ⊆ used ++ e.arrivals s := List.subset_append_left _ _
  cases e with
  | call fresh owner statement =>
    refine ⟨h.start.mono hs, ?_, h.kept⟩
    refine h.now.run fresh owner statement (fun n hn hu => ?_) (fun n hn => ?_) hs
    · exact (mem_arrivals_or hn).resolve_left fun harr => hnew _ harr hu
    · rcases mem_arrivals_or hn with harr | ⟨m, hm, hid⟩
      · exact List.mem_append_right _ harr
      · exact List.mem_append_left _ (hid ▸ h.now.nodes_used m hm)
  | commit =>
    simp only [Session.step, Tables.commit]
    by_cases hr : s.now.referencesHold = true
    · rw [if_pos hr]
      exact ⟨h.now.mono hs, h.now.mono hs, h.now.linked.linked hr⟩
    · rw [if_neg hr]
      exact ⟨h.start.mono hs, h.start.mono hs, h.kept⟩
  | rollback => exact ⟨h.start.mono hs, h.start.mono hs, h.kept⟩

/-- Events that bring in new identifiers, each of them once, keep the tables tracked. -/
theorem after (h : s.Tracked used) (events : List Event)
    (hnew : (used ++ arrivals events s).Nodup) :
    (s.after events).Tracked (used ++ arrivals events s) := by
  induction events generalizing s used with
  | nil =>
    rw [arrivals, List.append_nil]
    exact h
  | cons e rest ih =>
    rw [arrivals, ← List.append_assoc] at hnew ⊢
    refine ih (h.step fun id harr hu => ?_) hnew
    exact (List.nodup_append.1 (List.nodup_append.1 hnew).1).2.2 id hu id harr rfl

end Tracked

/-- An identifier that was taken does not come back during a transaction. -/
lemma not_mem_nodes_after {id : NodeId} (hid : id ∈ used) (hgone : ∀ n ∈ s.now.nodes, n.id ≠ id)
    (calls : List Event) (hcalls : ∀ e ∈ calls, e.isCall = true)
    (hnew : (used ++ arrivals calls s).Nodup) : ∀ n ∈ (s.after calls).now.nodes, n.id ≠ id := by
  induction calls generalizing s with
  | nil => exact hgone
  | cons e rest ih =>
    rw [List.forall_mem_cons] at hcalls
    rw [arrivals] at hnew
    have hdisjoint := (List.nodup_append.1 hnew).2.2
    refine ih (s := s.step e) ?_ hcalls.2 (hnew.sublist ?_)
    · cases e with
      | call fresh owner statement =>
        intro n hn e'
        rcases mem_arrivals_or hn with harr | ⟨m, hm, hmid⟩
        · exact hdisjoint id hid n.id (List.mem_append_left _ harr) e'.symm
        · exact hgone m hm (hmid.trans e')
      | commit => exact absurd hcalls.1 (by simp [Event.isCall])
      | rollback => exact absurd hcalls.1 (by simp [Event.isCall])
    · exact (List.Sublist.refl used).append (List.sublist_append_right _ _)

/-! ## Committed tables -/

/-- **Committed links join a file and a blob of one owner.** Whatever statements a session is made
of, for any owners and with nodes and blobs of any identifiers, in the committed tables every link
refers to a node, which is a file, and to a blob of the owner of that file. The transaction in
progress does not commit if a node has left in it, however it was removed and whatever came after,
and a link of that node is still there: its end then fails, and the tables go back to the committed
ones. Identifiers of new nodes are taken once only.

**Proof sketch.** All tables are tracked: a link that has lost its file leads to no node, and to
none later, as its identifier was taken. So it breaks the references, and what passes their check
has links within an owner. -/
theorem committed_links (events : List Event) (hnew : (arrivals events empty).Nodup) :
    let s := empty.after events
    (∀ l ∈ s.start.links, ∃ n ∈ s.start.nodes, ∃ b ∈ s.start.blobs,
      n.id = l.node ∧ n.kind = .file ∧ b.id = l.blob ∧ b.owner = n.owner) ∧
    ∀ before removal calls, events = before ++ removal ++ calls →
      (∀ e ∈ calls, e.isCall = true) →
      ∀ f ∈ (empty.after before).now.nodes,
        (∀ n ∈ (empty.after (before ++ removal)).now.nodes, n.id ≠ f.id) →
        (∃ l ∈ s.now.links, l.node = f.id) →
        Tables.commit s.start s.now = (.error (.database .foreignKey), s.start) ∧
          s.step .commit = ⟨s.start, s.start⟩ := by
  intro s
  have tracked (events : List Event) (hnew : (arrivals events empty).Nodup) :
      (empty.after events).Tracked (arrivals events empty) := by
    have h := Tracked.empty.after events (by rwa [List.nil_append])
    rwa [List.nil_append] at h
  refine ⟨fun l hl => ?_, ?_⟩
  · obtain ⟨o, hb, hk⟩ := (tracked events hnew).kept l hl
    obtain ⟨n, hn, hid, ho, hkind⟩ := Tables.hasKind_iff.1 hk
    obtain ⟨b, hb, hbid, hbo⟩ := Tables.ownsBlob_iff.1 hb
    exact ⟨n, hn, b, hb, hid, hkind, hbid, hbo.trans ho.symm⟩
  · rintro before removal calls rfl hcalls f hf hgone ⟨l, hl, hlf⟩
    rw [arrivals_append, arrivals_append] at hnew
    have hbefore := (List.nodup_append.1 (List.nodup_append.1 hnew).1).1
    have htaken : f.id ∈ arrivals before empty := (tracked before hbefore).now.nodes_used f hf
    have habsent : ∀ n ∈ s.now.nodes, n.id ≠ f.id := by
      have h := not_mem_nodes_after (List.mem_append_left _ htaken) hgone calls hcalls hnew
      rwa [← after_append] at h
    have hrefs := Tables.referencesHold_eq_false hl fun n hn => hlf ▸ habsent n hn
    have hcommit : Tables.commit s.start s.now = (.error (.database .foreignKey), s.start) := by
      rw [Tables.commit, hrefs]
      rfl
    refine ⟨hcommit, ?_⟩
    rw [step, hcommit]

/-! ### A file that leaves its link behind -/

/-- Numbered identifiers at one time. -/
def numbered (n : Nat) : Fresh := ⟨fun k => ⟨.ofNat (10 * n + k)⟩, ⟨.ofNat n⟩, fun _ => default⟩

/-- An owner gets a root and a file with a version, all of which is committed. -/
def fileWithVersion : List Event :=
  [.call (numbered 1) ⟨.ofNat 1⟩ (.createNode .root .root),
    .call (numbered 2) ⟨.ofNat 1⟩ (.createNode ⟨"a"⟩ .file),
    .call (numbered 3) ⟨.ofNat 1⟩ (.addVersion ⟨.ofNat 20⟩ none ⟨"sum", 3⟩),
    .commit]

/-- The file is removed, and its link is not. -/
def removeWithoutUnlinking : List Event :=
  [.call (numbered 4) ⟨.ofNat 1⟩
    (.removeLeaf ⟨⟨.ofNat 20⟩, .file, ⟨"a"⟩, ⟨.ofNat 1⟩, default⟩)]

/-- Another file takes the place of the removed one. -/
def replaceFile : List Event := [.call (numbered 5) ⟨.ofNat 1⟩ (.createNode ⟨"a"⟩ .file)]

/-- The end of the transaction brings the file back, whose link it found without a node. -/
theorem committed_links_undo_removal :
    let s := empty.after (fileWithVersion ++ removeWithoutUnlinking ++ replaceFile)
    s.now.nodes.map Node.id = [⟨.ofNat 50⟩, ⟨.ofNat 10⟩] ∧
      s.now.links.map Link.node = [⟨.ofNat 20⟩] ∧
      Tables.commit s.start s.now = (.error (.database .foreignKey), s.start) ∧
      (s.step .commit).now.nodes.map Node.id = [⟨.ofNat 20⟩, ⟨.ofNat 10⟩] := by
  intro s
  have hnodes : s.now.nodes.map Node.id = [⟨.ofNat 50⟩, ⟨.ofNat 10⟩] := by decide +kernel
  have hlinks : s.now.links.map Link.node = [⟨.ofNat 20⟩] := by decide +kernel
  have hkept : s.start.nodes.map Node.id = [⟨.ofNat 20⟩, ⟨.ofNat 10⟩] := by decide +kernel
  obtain ⟨hcommit, hstep⟩ :=
    (committed_links (fileWithVersion ++ removeWithoutUnlinking ++ replaceFile)
      (by decide +kernel)).2 fileWithVersion removeWithoutUnlinking replaceFile rfl
      (by decide +kernel) ⟨⟨.ofNat 20⟩, .file, ⟨"a"⟩, ⟨.ofNat 1⟩, default⟩ (by decide +kernel)
      (by decide +kernel) (by decide +kernel)
  refine ⟨hnodes, hlinks, hcommit, ?_⟩
  rw [hstep]
  exact hkept

end Session

end VersionedTree
