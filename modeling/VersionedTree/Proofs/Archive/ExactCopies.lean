import VersionedTree.Proofs.Archive.Acceptance
import VersionedTree.Proofs.Archive.Relocation

/-!
# What a copy does

A copy is decided by the tables alone. It succeeds if there is a node as it is claimed that can be
brought to the place, and if all files at and below the node have a version; what is missing
otherwise can be told from the error. When it succeeds all that it has done is known, to the last
row: the tables have one more node for each node at and below the source, and links from the files
among them to the blobs of their sources. All rows that were there stay.

## Main definitions

* `VersionedTree.Tables.Gains` — tables before and after copies have come.

## Main results

* `VersionedTree.Tables.CopiedTo.gains` — the rows of a copy.
* `VersionedTree.Archive.copy_of_transferable`, `VersionedTree.Archive.copy_of_unversioned`,
  `VersionedTree.Archive.copy_of_not_transferable` — copies that succeed and copies that fail.
* `VersionedTree.Archive.copy_exact` — copies after every history.
-/

set_option autoImplicit false

namespace VersionedTree

/-! ## Rows that come -/

namespace Tables

variable {t t' : Tables} {top : Node} {target : Path} {env : Env} {onlyNewest : Bool}

/-- Tables before and after the nodes at and below a node have been copied to a place. There is one
copy of each, under a new identifier. It is of the same kind, and at the place of the same further
labels after the new place of the top. Files among the copies are linked to the blobs that their
sources pass on, each once. All other rows are as they were. -/
structure Gains (time : Instant) (onlyNewest : Bool) (top : Node) (target : Path)
    (copies : List CopiedNode) (t t' : Tables) : Prop where
  sources : (copies.map CopiedNode.source).Perm ((t.subtree top.owner top.path).map Node.id)
  distinct : (copies.map CopiedNode.destination).Nodup
  fresh : ∀ c ∈ copies, ∀ n ∈ t.nodes, n.id ≠ c.destination
  nodes : ∃ rows, t'.nodes = rows ++ t.nodes ∧
    (rows.map Node.id).Perm (copies.map CopiedNode.destination) ∧
    ∀ c ∈ copies, ∀ m ∈ t.nodes, m.id = c.source → c.kind = m.kind ∧
      ∃ labels : List (List Char), (∀ label ∈ labels, '.' ∉ label) ∧
        m.path = labels.foldl Path.join top.path ∧
        ⟨c.destination, m.kind, labels.foldl Path.join target, top.owner, time⟩ ∈ rows
  links : ∃ added, t'.links = added ++ t.links ∧ (added.map Link.key).Nodup ∧
    ∀ node blob, (∃ l ∈ added, l.node = node ∧ l.blob = blob) ↔
      ∃ c ∈ copies, c.kind = .file ∧ c.destination = node ∧
        t.PassesOn top.owner onlyNewest c.source blob
  blobs : t'.blobs = t.blobs
  pending : t'.pending = t.pending

/-- **The rows of a copy.** -/
theorem CopiedTo.gains (h : t.CopiedTo env top target onlyNewest t') (hs : t.Sound) :
    t.Gains (env.now 0) onlyNewest top target (t.copiedNodes env.nodeId top) t' := by
  obtain ⟨hnew, hold⟩ := hs.keyed.ids_of_insertNodes h.inserted
  have hids := map_destination_copiedNodes h.rebases (env.now 0) env.nodeId
  rw [← hids] at hnew hold
  refine ⟨perm_sources _ top t, hnew, ?_, ?_, ?_, h.blobs_eq, h.pending_eq⟩
  · intro c hc n hn heq
    exact hold n hn (heq ▸ List.mem_map_of_mem hc)
  · refine ⟨(copiedRows top.owner (env.now 0) target t env.nodeId top).reverse, h.nodes_eq, ?_, ?_⟩
    · rw [hids, List.map_reverse]
      exact List.reverse_perm _
    · intro c hc m hm hsource
      obtain ⟨n, i, hn, rfl⟩ := mem_copiedNodes.1 hc
      obtain ⟨hnt, ho, hbelow⟩ := mem_subtree.1 (mem_numbered hn).1
      obtain rfl := hs.keyed.nodes.eq_of_id hm hnt hsource
      have hroot := h.transferable.isRoot_source hs.forest
      obtain ⟨labels, hlabels, hpath⟩ := (Path.covers_iff_foldl_join hroot).1 hbelow
      refine ⟨rfl, labels, hlabels, hpath, ?_⟩
      rw [List.mem_reverse, h.rebases.copiedRows_eq,
        ← Path.graft_foldl_join hroot h.transferable.isRoot labels, ← hpath]
      exact List.mem_map.2 ⟨(m, i), hn, rfl⟩
  · obtain ⟨added, ht', hadded⟩ := h.linked
    have hlinks : t'.links = added ++ t.links := by rw [ht']
    have hkeys := h.sound.keyed.links
    rw [hlinks, List.map_append, List.nodup_append] at hkeys
    exact ⟨added, hlinks, hkeys.1, hadded⟩

end Tables

namespace Archive

variable {a : Archive} {top node : Node} {target : Path} {env : Env} {owner : OwnerId}

/-! ## Copies that fail, and copies that succeed -/

/-- **A copy that succeeds** has copied a node as it was claimed. -/
theorem copiedTo_of_copy (hs : a.tables.Sound) {onlyNewest : Bool} {copies : List CopiedNode}
    (h : (a.copy env owner node target onlyNewest).1 = .ok copies) :
    ∃ top t, top.id = node.id ∧ top.owner = owner ∧ top.kind = node.kind ∧
      copies = a.tables.copiedNodes env.nodeId top ∧ a.tables.CopiedTo env top target onlyNewest t ∧
      a.copy env owner node target onlyNewest = (.ok copies, { a with tables := t }) := by
  have hcopy := a.withTables_transact_cases (copyStatements env owner node target onlyNewest)
  rcases hcopy with ⟨e, hr⟩ | ⟨x, t, hbody, -, hr⟩
  · rw [copy, hr] at h
    cases h
  · have hx : x = copies := by
      rw [copy, hr] at h
      exact Except.ok.inj h
    obtain ⟨top, hid, ho, hkind, hcopies, hcopied⟩ := Tables.copiedTo_of_copyStatements hs hbody
    rw [hx] at hcopies hr
    exact ⟨top, t, hid, ho, hkind, hcopies, hcopied, hr⟩

section Placed

variable (hs : a.tables.Sound) (hv : ∀ n ∈ a.tables.nodes, n.path.Valid)
  (ht : a.tables.Transferable top target) (hid : top.id = node.id) (hkind : top.kind = node.kind)
  (hids : a.tables.Supplies env.nodeId a.tables.nodes.length) (onlyNewest : Bool)

include hs hv ht hid hkind hids

/-- What the statements of a copy to a free place answer. -/
lemma copyStatements_of_transferable :
    (copyStatements env top.owner node target onlyNewest a.tables).1 =
      if a.tables.HasVersions top then .ok (a.tables.copiedNodes env.nodeId top)
      else .error (.illegalState "failed to copy a file") :=
  ht.copyStatements_eq hs hid.symm hkind.symm (hids.mono (List.length_filter_le _ _))
    (fun n hn => hv n (Tables.mem_subtree.1 hn).1) onlyNewest

/-- **A copy to a free place** succeeds if all files have a version. -/
theorem copy_of_transferable (hversions : a.tables.HasVersions top) :
    (a.copy env top.owner node target onlyNewest).1 =
      .ok (a.tables.copiedNodes env.nodeId top) := by
  have hok := copyStatements_of_transferable hs hv ht hid hkind hids onlyNewest
  rw [if_pos hversions] at hok
  have hruns := copyStatements_runsTo env top.owner a.tables node target onlyNewest
  exact congrArg Prod.fst (a.withTables_transact_of_ok (Prod.ext hok rfl)
    (hs.ofKeeps hruns).linked.referencesHold)

/-- **A file without a version** makes the copy fail, and nothing changes. -/
theorem copy_of_unversioned (hnone : ¬a.tables.HasVersions top) :
    a.copy env top.owner node target onlyNewest =
      (.error (.illegalState "failed to copy a file"), a) := by
  have herror := copyStatements_of_transferable hs hv ht hid hkind hids onlyNewest
  rw [if_neg hnone] at herror
  exact a.withTables_transact_of_error (Prod.ext herror rfl)

end Placed

/-- **Without a node to be brought to the place** the copy fails, and nothing changes. -/
theorem copy_of_not_transferable (hs : a.tables.Sound) (hv : ∀ n ∈ a.tables.nodes, n.path.Valid)
    (hnode : node.kind ≠ .root)
    (hnone : ∀ top, top.id = node.id → top.owner = owner → top.kind = node.kind →
      ¬a.tables.Transferable top target) (env : Env) (onlyNewest : Bool) :
    a.copy env owner node target onlyNewest = (.error (.insertFailure "tree"), a) := by
  have haccepted := copyNodes_accepted hs.forest hv env owner node target
  have hcopy : copyNodes env owner node target a.tables = (.ok [], a.tables) := by
    rcases Tables.copyNodes_answers hs.forest hnode env owner target with
      ⟨r, hr, rfl | ⟨c, rfl⟩⟩ | ⟨top, hid, ho, hkind, ht, -⟩
    · exact hr
    · rw [hr] at haccepted
      exact absurd rfl (haccepted c)
    · exact absurd ht (hnone top hid ho hkind)
  have hstatements : copyStatements env owner node target onlyNewest a.tables =
      (.error (.insertFailure "tree"), a.tables) := by
    rw [copyStatements, hcopy]
  exact a.withTables_transact_of_error hstatements

/-- The first of two directories can be copied to a place at the top. -/
lemma copyable_outerDirectory :
    let t := (empty.after Step.nestDirectories).tables
    let top : Node := { Step.outerDirectory with createdAt := ⟨200⟩ }
    (∀ s ∈ Step.nestDirectories, ∀ p ∈ s.operation.target?, p.Valid) ∧
      t.Supplies (Env.ticking 7).nodeId t.nodes.length ∧ t.Transferable top ⟨"x"⟩ ∧
      t.HasVersions top :=
  ⟨by decide +kernel, ⟨by decide +kernel, by decide +kernel⟩,
    ⟨by decide +kernel, by decide, by decide, by decide, by decide +kernel, by decide +kernel⟩,
    by decide +kernel⟩

/-! ## Exactness -/

/-- **Copies are exact.** After every history of operations whose places are valid, consider the
copy of a node that is claimed to be a file or a directory, while there are new identifiers for all
nodes. Suppose that the owner has a node of this identifier and kind that can be brought to the
place: the place is not at the top, not at or below the node, free, and its parent is a root or
directory of the owner. If all files at and below the node have a version then the copy succeeds. If
they do not then the state is an illegal one, and without such a node the insertion fails; in both
cases nothing changes.

A copy that succeeds has copied such a node. The tables have one new node for each one at and below
it, of the same kind and at the place of the same further labels. Files among the copies are linked
to all blobs of their sources, or to the newest one alone. The other rows and the payloads are as
they were.

**Proof sketch.** Nothing is below a free place, so that none of the copies meets a node. A new node
has no links, so that none of its links meets another one, and the links of one copy leave the
versions of the other sources alone. -/
theorem copy_exact (history : List Step)
    (hvalid : ∀ s ∈ history, ∀ p ∈ s.operation.target?, p.Valid) (env : Env) (owner : OwnerId)
    (node : Node) (hnode : node.kind ≠ .root) (target : Path) (onlyNewest : Bool)
    (hids : (empty.after history).tables.Supplies env.nodeId
      (empty.after history).tables.nodes.length) :
    let a := empty.after history
    let t := a.tables
    let result := a.copy env owner node target onlyNewest
    let placed := fun top : Node => top.id = node.id ∧ top.owner = owner ∧ top.kind = node.kind ∧
      t.Transferable top target
    ((∃ copies, result.1 = .ok copies) ↔ ∃ top, placed top ∧ t.HasVersions top) ∧
    (∀ top, placed top → ¬t.HasVersions top →
      result = (.error (.illegalState "failed to copy a file"), a)) ∧
    ((∀ top, ¬placed top) → result = (.error (.insertFailure "tree"), a)) ∧
    ∀ copies, result.1 = .ok copies → ∃ top, placed top ∧
      t.Gains (env.now 0) onlyNewest top target copies result.2.tables ∧
      result.2.payloads = a.payloads := by
  intro a t result placed
  have hs : t.Sound := sound history
  have hv : ∀ n ∈ t.nodes, n.path.Valid := valid_after history hvalid
  have hunversioned : ∀ top, placed top → ¬t.HasVersions top →
      result = (.error (.illegalState "failed to copy a file"), a) := by
    rintro top ⟨hid, rfl, hkind, ht⟩ hnone
    exact copy_of_unversioned hs hv ht hid hkind hids onlyNewest hnone
  have hcopied : ∀ copies, result.1 = .ok copies → ∃ top, placed top ∧
      t.Gains (env.now 0) onlyNewest top target copies result.2.tables ∧
      result.2.payloads = a.payloads := by
    intro copies hok
    obtain ⟨top, t', hid, ho, hkind, rfl, hcopied, hresult⟩ := copiedTo_of_copy hs hok
    have hafter : result.2 = { a with tables := t' } := congrArg Prod.snd hresult
    rw [hafter]
    exact ⟨top, ⟨hid, ho, hkind, hcopied.transferable⟩, hcopied.gains hs, rfl⟩
  refine ⟨⟨?_, ?_⟩, hunversioned, ?_, hcopied⟩
  · rintro ⟨copies, hok⟩
    obtain ⟨top, hplaced, -⟩ := hcopied copies hok
    refine ⟨top, hplaced, ?_⟩
    by_contra hnone
    rw [hunversioned top hplaced hnone] at hok
    cases hok
  · rintro ⟨top, ⟨hid, rfl, hkind, ht⟩, hversions⟩
    exact ⟨_, copy_of_transferable hs hv ht hid hkind hids onlyNewest hversions⟩
  · intro hnone
    exact copy_of_not_transferable hs hv hnode
      (fun top hid ho hkind ht => hnone top ⟨hid, ho, hkind, ht⟩) env onlyNewest

/-- The first directory is copied with the three nodes below it. Of the two versions of a file in
it, the copy gets the newest one. -/
theorem copy_exact_nested :
    let a := empty.after Step.nestDirectories
    let owner : OwnerId := ⟨.ofNat 1⟩
    let result := a.copy (.ticking 7) owner Step.outerDirectory ⟨"x"⟩ true
    let top : Node := { Step.outerDirectory with createdAt := ⟨200⟩ }
    ∃ copies, result.1 = .ok copies ∧ copies.length = 4 ∧
      a.tables.Gains ((Env.ticking 7).now 0) true top ⟨"x"⟩ copies result.2.tables ∧
      result.2.payloads = a.payloads := by
  intro a owner result top
  obtain ⟨hvalid, hids, ht, hversions⟩ := copyable_outerDirectory
  obtain ⟨hiff, -, -, hcopied⟩ := copy_exact Step.nestDirectories hvalid (.ticking 7) owner
    Step.outerDirectory (by decide) ⟨"x"⟩ true hids
  obtain ⟨copies, hok⟩ := hiff.2 ⟨top, ⟨rfl, rfl, rfl, ht⟩, hversions⟩
  obtain ⟨top', ⟨hid, -, -, ht'⟩, hgains, hpayloads⟩ := hcopied copies hok
  obtain rfl : top' = top :=
    (sound Step.nestDirectories).keyed.nodes.eq_of_id ht'.stored ht.stored hid
  have hlength : (a.tables.subtree top.owner top.path).length = 4 := by decide +kernel
  have hcount := hgains.sources.length_eq
  rw [List.length_map, List.length_map, hlength] at hcount
  exact ⟨copies, hok, hcount, hgains, hpayloads⟩

end Archive

end VersionedTree
