import VersionedTree.Proofs.Archive.CopiedNodes
import VersionedTree.Proofs.Archive.RemovedNodes
import VersionedTree.Proofs.Tables.CopiedHistories

/-!
# Moves as copies and removals

A directory can be moved, or it can be copied whole and then removed. The first way changes texts
of places, the second one inserts rows under new identifiers, links them to all versions of their
sources, and takes the sources away with their links. Both show the same places, and leave the same
blobs and payloads: no blob loses its last link on the second way, as each of its links from a
removed file has one from the copy beside it.

A move keeps the histories of files, while a copy has its links at one time, which leaves its
history to uploads. So both ways show the same histories exactly if those of the moved files are in
the order of uploads. The clock of one process sees to it. When it is set back between two
processes, a version can be linked before another one that was uploaded after it.

## Main definitions

* `VersionedTree.Node.Resembles` — nodes that differ in identifiers and creation times only.
* `VersionedTree.Node.Mirrors` — lists of the same nodes in this sense.
* `VersionedTree.Tables.copiedHistory` — the history of a file after full copies to a place.
* `VersionedTree.Archive.HoldsSame`, `VersionedTree.Archive.Resembles` — archives that differ in
  identifiers and creation times of nodes and in links only, or in times of links at most.

## Main results

* `VersionedTree.Tables.CopiedTo.orphansOf_sources` — the sources of a full copy orphan nothing.
* `VersionedTree.Tables.Transferable.mirrors` — the nodes after a move, and after a copy and a
  removal.
* `VersionedTree.Archive.copy_remove_resembles_move` — the archives after every history.
* `VersionedTree.Archive.clock_set_back` — two processes whose clocks disagree.
-/

set_option autoImplicit false

namespace VersionedTree

/-! ## Nodes that are alike -/

namespace Node

/-- Do nodes differ in identifiers and creation times only, and have the same list of blobs if they
are files? The lists of both sides are given. -/
structure Resembles (h h' : Node → List BlobId) (m n : Node) : Prop where
  owner : n.owner = m.owner
  path : n.path = m.path
  kind : n.kind = m.kind
  history : m.kind = .file → h' n = h m

/-- Is there for every node of one list one in the other list that is alike? -/
structure Mirrors (h h' : Node → List BlobId) (ms ns : List Node) : Prop where
  forth : ∀ m ∈ ms, ∃ n ∈ ns, Resembles h h' m n
  back : ∀ n ∈ ns, ∃ m ∈ ms, Resembles h h' m n

namespace Mirrors

variable {h h' : Node → List BlobId} {ms ns : List Node}

/-- The same kinds of nodes are at the same places. -/
lemma places (hm : Mirrors h h' ms ns) (owner : OwnerId) (path : Path) (kind : Kind) :
    (∃ m ∈ ms, m.owner = owner ∧ m.path = path ∧ m.kind = kind) ↔
      ∃ n ∈ ns, n.owner = owner ∧ n.path = path ∧ n.kind = kind := by
  constructor
  · rintro ⟨m, hmem, rfl, rfl, rfl⟩
    obtain ⟨n, hn, hsame⟩ := hm.forth m hmem
    exact ⟨n, hn, hsame.owner, hsame.path, hsame.kind⟩
  · rintro ⟨n, hmem, rfl, rfl, rfl⟩
    obtain ⟨m, hmem, hsame⟩ := hm.back n hmem
    exact ⟨m, hmem, hsame.owner.symm, hsame.path.symm, hsame.kind.symm⟩

/-- Files at the same place have the same lists. -/
lemma history_eq (hm : Mirrors h h' ms ns) (hk : Keyed ns) {m n : Node} (hmem : m ∈ ms)
    (hn : n ∈ ns) (ho : n.owner = m.owner) (hp : n.path = m.path) (hfile : m.kind = .file) :
    h' n = h m := by
  obtain ⟨n', hn', hsame⟩ := hm.forth m hmem
  obtain rfl := hk.places n' hn' n hn (hsame.owner.trans ho.symm) (hsame.path.trans hp.symm)
  exact hsame.history hfile

end Mirrors

end Node

namespace Tables

variable {t t' : Tables} {top node : Node} {target : Path} {env : Env}

/-- The history of a file after all that the owner has at and below a place has been copied there
whole: by uploads at and below the place, and as it was elsewhere. -/
def copiedHistory (owner : OwnerId) (target : Path) (t : Tables) (n : Node) : List Version :=
  if n.owner = owner ∧ target.covers n.path = true then t.uploads n.owner n.id
  else t.history n.owner n.id

/-- **The nodes after a move** are like those after a full copy and a removal, if the lists of blobs
of copies and of nodes that stay are those of the moved nodes.

**Proof sketch.** A node that moves along is like its copy, which is not at or below the directory
and so stays when this is removed. Another node is like itself. -/
theorem Transferable.mirrors (ht : t.Transferable top target) (hf : t.IsForest)
    (hr : t.Rebases top.owner top.path target) {ids : Nat → NodeId} {time : Instant}
    {h h' : Node → List BlobId}
    (hcopied : ∀ m i, (m, i) ∈ t.numbered top.owner top.path → m.kind = .file →
      h' ⟨ids i, m.kind, m.path.graft top.path target, top.owner, time⟩ =
        h (m.movedAlong top.owner top.path target))
    (hstayed : ∀ m ∈ t.nodes, ¬(m.owner = top.owner ∧ top.path.covers m.path = true) →
      h' m = h m) :
    Node.Mirrors h h' (t.nodes.map (Node.movedAlong top.owner top.path target))
      ((t.withCopies ids time top target).nodes.filter fun n =>
        !(n.owner == top.owner && top.path.covers n.path)) := by
  have hrows := hr.copiedRows_eq time ids
  have copied {m : Node} {i : Nat} (hm : (m, i) ∈ t.numbered top.owner top.path) :
      Node.Resembles h h' (m.movedAlong top.owner top.path target)
        ⟨ids i, m.kind, m.path.graft top.path target, top.owner, time⟩ := by
    obtain ⟨-, ho, hc⟩ := mem_subtree.1 (mem_numbered hm).1
    have hlist := hcopied m i hm
    rw [Node.movedAlong_of_below ho hc] at hlist ⊢
    exact ⟨ho.symm, rfl, rfl, hlist⟩
  have stayed {m : Node} (hm : m ∈ t.nodes)
      (hout : ¬(m.owner = top.owner ∧ top.path.covers m.path = true)) :
      Node.Resembles h h' (m.movedAlong top.owner top.path target) m := by
    rw [Node.movedAlong_of_not_below hout]
    exact ⟨rfl, rfl, rfl, fun _ => hstayed m hm hout⟩
  refine ⟨?_, ?_⟩
  · intro x hx
    obtain ⟨m, hm, rfl⟩ := List.mem_map.1 hx
    by_cases hin : m.owner = top.owner ∧ top.path.covers m.path = true
    · obtain ⟨i, hi⟩ := exists_number (mem_subtree.2 ⟨hm, hin⟩)
      refine ⟨_, mem_outside.2 ⟨List.mem_append_left _ ?_, ?_⟩, copied hi⟩
      · rw [List.mem_reverse, hrows]
        exact List.mem_map.2 ⟨(m, i), hi, rfl⟩
      · simp [ht.graft_outside hf hin.2]
    · exact ⟨m, mem_outside.2 ⟨List.mem_append_right _ hm, hin⟩, stayed hm hin⟩
  · intro n hn
    obtain ⟨hn, hout⟩ := mem_outside.1 hn
    rcases List.mem_append.1 hn with hn | hn
    · rw [List.mem_reverse, hrows] at hn
      obtain ⟨⟨m, i⟩, hm, rfl⟩ := List.mem_map.1 hn
      have hmt : m ∈ t.nodes := (mem_subtree.1 (mem_numbered hm).1).1
      exact ⟨_, List.mem_map_of_mem hmt, copied hm⟩
    · exact ⟨_, List.mem_map_of_mem hn, stayed hn hout⟩

/-- Nodes that stay keep their histories when others leave. -/
lemma Keyed.history_without (hk : t.Keyed) {ids : List NodeId} {id : NodeId} (hout : id ∉ ids)
    (owner : OwnerId) : (t.without ids).history owner id = t.history owner id := by
  have hk' : (t.without ids).Keyed :=
    (hk.withNodes (hk.nodes.sublist List.filter_sublist)).dropLinks _
  refine (hk'.history_sorted owner id).eq_of_mem_iff (hk.history_sorted owner id) ?_
  intro v
  rw [mem_history, mem_history, mem_versionsOf, mem_versionsOf, and_congr_left_iff]
  rintro ⟨rfl, -⟩
  have hstays : ids.contains v.toLink.node = false := by simpa [Version.toLink] using hout
  rw [without, Listed.mem_versions_dropLinks, hstays, eq_self, and_true]
  rfl

namespace CopiedTo

section Sources

variable (h : t.CopiedTo env top target false t') (hs : t.Sound)

include h hs

/-- At and below the source is what was there before the copy. -/
lemma subtreeIds_source : t'.subtreeIds top = t.subtreeIds top :=
  congrArg (List.map Node.id)
    (h.transferable.subtree_after_copy (env.now 0) hs.forest h.rebases h.nodes_eq)

/-- The copies are not among their sources. -/
lemma destination_not_mem {c : CopiedNode} (hc : c ∈ t.copiedNodes env.nodeId top) :
    c.destination ∉ t'.subtreeIds top := by
  rw [h.subtreeIds_source hs, mem_subtreeIds]
  rintro ⟨n, hn, hid, -⟩
  refine (h.destination_new hs).1 n hn ?_
  rw [hid]
  exact List.mem_map_of_mem hc

/-- **The sources of a full copy orphan nothing**: beside each of their links is one of a copy. -/
theorem orphansOf_sources : t'.orphansOf top.owner (t'.subtreeIds top) = [] := by
  refine List.eq_nil_iff_forall_not_mem.2 ?_
  intro blob hblob
  obtain ⟨⟨l, hl, hlblob⟩, hall⟩ :=
    (h.sound.mem_orphansOf (ownsNodes_subtreeIds t' top)).1 hblob
  obtain ⟨added, ht', hadded⟩ := h.linked
  -- no blob of a copy is orphaned, as its link would have to come from a source
  have hnone : ∀ k ∈ added, k.blob ≠ blob := by
    intro k hk hkblob
    obtain ⟨c, hc, -, hdestination, -⟩ := (hadded k.node k.blob).1 ⟨k, hk, rfl, rfl⟩
    have hin := hall k (ht' ▸ List.mem_append_left _ hk) hkblob
    rw [← hdestination] at hin
    exact h.destination_not_mem hs hc hin
  have hin := hall l hl hlblob
  rw [ht'] at hl
  rcases List.mem_append.1 hl with hl | hl
  · exact hnone l hl hlblob
  · rw [h.subtreeIds_source hs, mem_subtreeIds] at hin
    obtain ⟨n, hn, hid, hbelow⟩ := hin
    obtain ⟨o, -, hfile⟩ := hs.linked l hl
    obtain ⟨f, hf, hfid, -, hkind⟩ := hasKind_iff.1 hfile
    obtain rfl := hs.keyed.nodes.eq_of_id hf hn (hfid.trans hid.symm)
    obtain ⟨i, hi⟩ := exists_number (mem_subtree.2 ⟨hn, hbelow⟩)
    obtain ⟨k, hk, -, hkblob⟩ := (hadded (env.nodeId i) blob).2
      ⟨_, mem_copiedNodes.2 ⟨f, i, hi, rfl⟩, hkind, rfl, l, hl, hid.symm, hlblob⟩
    exact hnone k hk hkblob

/-- **The nodes after a copy and the removal of its sources** are those after a move. Files that
have been copied have their histories in the order of uploads, and others have kept them. -/
theorem mirrors_without {node : Node} {copies : List CopiedNode}
    (e : Archive.copyStatements env top.owner node target false t = (.ok copies, t'))
    (hcopies : copies = t.copiedNodes env.nodeId top) :
    Node.Mirrors (fun m => (t.copiedHistory top.owner target m).map Version.blob)
      (fun n => ((t'.without (t'.subtreeIds top)).history n.owner n.id).map Version.blob)
      (t.nodes.map (Node.movedAlong top.owner top.path target))
      (t'.without (t'.subtreeIds top)).nodes := by
  obtain ⟨hlisted, hkept⟩ := hs.history_copyStatements e
  have hstays {id : NodeId} (hout : id ∉ t'.subtreeIds top) (owner : OwnerId) :
      (t'.without (t'.subtreeIds top)).history owner id = t'.history owner id :=
    h.sound.keyed.history_without hout owner
  rw [without_nodes, ← h.sound.keyed.outside_subtree, h.nodes_eq]
  refine h.transferable.mirrors hs.forest h.rebases ?_ ?_
  · intro m i hm hfile
    obtain ⟨hmt, ho, hc⟩ := mem_subtree.1 (mem_numbered hm).1
    have hcopy : ⟨m.id, env.nodeId i, m.kind⟩ ∈ t.copiedNodes env.nodeId top :=
      mem_copiedNodes.2 ⟨m, i, hm, rfl⟩
    have hbelow : target.covers (m.path.graft top.path target) = true :=
      Path.covers_graft (h.transferable.isRoot_source hs.forest) hc
    rw [Node.movedAlong_of_below ho hc, copiedHistory, if_pos ⟨ho, hbelow⟩, ho]
    simp only [hstays (h.destination_not_mem hs hcopy)]
    exact hlisted _ (hcopies ▸ hcopy) hfile
  · intro m hm hout
    have houtside : ¬(m.owner = top.owner ∧ target.covers m.path = true) := by
      rintro ⟨ho, hc⟩
      rw [h.transferable.nothing_below hs.forest hm ho] at hc
      cases hc
    have hid : m.id ∉ t'.subtreeIds top := by
      rwa [h.subtreeIds_source hs, hs.keyed.id_mem_subtreeIds hm]
    rw [copiedHistory, if_neg houtside, hstays hid, hkept m hm]

end Sources

end CopiedTo

end Tables

/-! ## Archives that are alike -/

namespace Archive

/-- Do archives differ in identifiers and creation times of nodes and in links only? -/
structure HoldsSame (a b : Archive) : Prop where
  places : ∀ owner path kind,
    (∃ m ∈ a.tables.nodes, m.owner = owner ∧ m.path = path ∧ m.kind = kind) ↔
      ∃ n ∈ b.tables.nodes, n.owner = owner ∧ n.path = path ∧ n.kind = kind
  blobs : a.tables.blobs = b.tables.blobs
  pending : a.tables.pending = b.tables.pending
  payloads : a.payloads = b.payloads

/-- Do archives differ in identifiers and creation times of nodes and in times of links only? -/
structure Resembles (a b : Archive) : Prop extends HoldsSame a b where
  versions : ∀ m ∈ a.tables.nodes, ∀ n ∈ b.tables.nodes, m.owner = n.owner → m.path = n.path →
    m.kind = .file → (a.tables.history m.owner m.id).map Version.blob =
      (b.tables.history n.owner n.id).map Version.blob

variable {a b : Archive} {owner : OwnerId} {target : Path}

/-- Archives that hold the same, one of them with full copies at a place, are alike exactly if the
files there have histories in the order of uploads. -/
lemma HoldsSame.resembles_iff (h : a.HoldsSame b) (hk : a.tables.Keyed)
    (hshown : ∀ m ∈ a.tables.nodes, ∀ n ∈ b.tables.nodes, n.owner = m.owner → n.path = m.path →
      m.kind = .file → (b.tables.history n.owner n.id).map Version.blob =
        (a.tables.copiedHistory owner target m).map Version.blob) :
    a.Resembles b ↔ ∀ m ∈ a.tables.nodes, m.owner = owner → target.covers m.path = true →
      m.kind = .file → a.tables.history m.owner m.id = a.tables.uploads m.owner m.id := by
  constructor
  · intro hab m hm ho hc hfile
    obtain ⟨n, hn, hno, hnp, -⟩ := (h.places m.owner m.path m.kind).1 ⟨m, hm, rfl, rfl, rfl⟩
    have hblobs := (hab.versions m hm n hn hno.symm hnp.symm hfile).trans
      (hshown m hm n hn hno hnp hfile)
    rw [Tables.copiedHistory, if_pos ⟨ho, hc⟩] at hblobs
    exact hk.eq_of_map_blob m.owner m.id (fun v hv => Tables.mem_history.1 hv)
      (fun v hv => Tables.mem_uploads.1 hv) hblobs
  · intro huploads
    refine ⟨h, ?_⟩
    intro m hm n hn ho hp hfile
    rw [hshown m hm n hn ho.symm hp.symm hfile, Tables.copiedHistory]
    split
    · next hin => rw [huploads m hm hin.1 hin.2 hfile]
    · rfl

/-- A move of a directory that succeeds has moved some nodes. -/
lemma moveStatement_ok {t t' : Tables} {node : Node} {count : Nat}
    (hdir : node.kind = .dir) (e : moveStatement owner node target t = (.ok count, t')) :
    0 < count ∧ t.moveDirectory owner node target = (.ok (some count), t') := by
  unfold moveStatement at e
  rw [hdir] at e
  simp only at e
  generalize t.moveDirectory owner node target = r at e
  obtain ⟨_ | _ | n, t₁⟩ := r
  · cases (Prod.mk.inj e).1
  · cases (Prod.mk.inj e).1
  · simp only [requireMoved] at e
    split at e
    · next hpos =>
      obtain ⟨hn, rfl⟩ := Prod.mk.inj e
      obtain rfl := Except.ok.inj hn
      exact ⟨hpos, rfl⟩
    · cases (Prod.mk.inj e).1

/-- **A directory is copied and removed.** Its removal after a full copy orphans nothing, and leaves
nodes that are those after a move, where the copies of files have their histories in the order of
uploads. -/
theorem copy_remove_of_transferable (hs : a.tables.Sound)
    (hv : ∀ n ∈ a.tables.nodes, n.path.Valid) {top node : Node}
    (ht : a.tables.Transferable top target) (htop : top.kind = .dir)
    (hid : node.id = top.id) (hdir : node.kind = .dir) (env env' : Env)
    (hids : a.tables.Supplies env.nodeId (a.tables.subtree top.owner top.path).length)
    (hversions : ∀ f ∈ a.tables.subtree top.owner top.path, f.kind = .file →
      0 < a.tables.countVersions top.owner f.id) :
    ∃ t, (a.copy env top.owner node target false).1 =
        .ok (a.tables.copiedNodes env.nodeId top) ∧
      (a.copy env top.owner node target false).2.remove env' top.owner node true =
        (.ok ⟨(a.tables.subtree top.owner top.path).map Node.id, [], []⟩,
          { a with tables := t }) ∧
      t.Sound ∧
      Node.Mirrors (fun m => (a.tables.copiedHistory top.owner target m).map Version.blob)
        (fun n => (t.history n.owner n.id).map Version.blob)
        (a.tables.nodes.map (Node.movedAlong top.owner top.path target)) t.nodes ∧
      t.blobs = a.tables.blobs ∧ t.pending = a.tables.pending := by
  have hvalid : ∀ n ∈ a.tables.subtree top.owner top.path, n.path.Valid :=
    fun n hn => hv n (Tables.mem_subtree.1 hn).1
  have hlinked : a.tables.HasVersions top := by
    intro f hfmem hfile
    obtain ⟨hmem, ho, -⟩ := Tables.mem_subtree.1 hfmem
    rw [← hs.copiedVersions_ne_nil_iff hmem hfile false, ho]
    exact List.ne_nil_of_length_pos (hversions f hfmem hfile)
  obtain ⟨t, hcopy, hcopied⟩ :=
    ht.copyStatements_ok hs hid (hdir.trans htop.symm) hids hvalid hlinked false
  have hst : t.Sound := hcopied.sound
  have hremovable : t.Removable top true :=
    ⟨hcopied.nodes_eq ▸ List.mem_append_right _ ht.stored, ht.kind, .inl rfl⟩
  have hnone := hcopied.orphansOf_sources hs
  have hsound : (t.without (t.subtreeIds top)).Sound := by
    have hremove := hremovable.removeStatements_eq hst env' hid
    rw [hnone] at hremove
    exact hst.ofRemoval hremove
  have hblobs := hst.blobs_without_of_orphansOf_nil (Tables.ownsNodes_subtreeIds t top) hnone
  have hresult : a.copy env top.owner node target false =
      (.ok (a.tables.copiedNodes env.nodeId top), { a with tables := t }) :=
    a.withTables_transact_of_ok hcopy hst.linked.referencesHold
  rw [hresult]
  refine ⟨_, rfl, ?_, hsound, hcopied.mirrors_without hs hcopy rfl,
    hblobs.trans hcopied.blobs_eq, hcopied.pending_eq⟩
  have hids' : t.subtreeIds top = (a.tables.subtree top.owner top.path).map Node.id :=
    hcopied.subtreeIds_source hs
  rw [← hids']
  exact remove_of_orphansOf_nil (a := { a with tables := t }) hst hremovable hnone env' hid

/-- **A move tells of a copy and a removal.** Where a directory has moved, a full copy to the same
place and the removal of the directory succeed as well, and leave an archive that holds the same.
The move keeps the histories of files, and the copies have theirs in the order of uploads. -/
theorem copy_remove_of_move (hs : a.tables.Sound) (hv : ∀ n ∈ a.tables.nodes, n.path.Valid)
    {node : Node} (hdir : node.kind = .dir) {count : Nat}
    (hmove : (a.move owner node target).1 = .ok count)
    (hversions : ∀ top ∈ a.tables.nodes, top.id = node.id →
      ∀ f ∈ a.tables.subtree owner top.path, f.kind = .file →
        0 < a.tables.countVersions owner f.id)
    (env env' : Env) (hids : a.tables.Supplies env.nodeId count) :
    let moved := (a.move owner node target).2
    let copied := a.copy env owner node target false
    let removed := copied.2.remove env' owner node true
    (∃ copies, copied.1 = .ok copies) ∧
    (∃ r, removed.1 = .ok r ∧ r.orphaned = [] ∧ r.pending = []) ∧
    moved.HoldsSame removed.2 ∧
    moved.tables.links = a.tables.links ∧ moved.tables.blobs = a.tables.blobs ∧
    ∀ m ∈ moved.tables.nodes, ∀ n ∈ removed.2.tables.nodes, n.owner = m.owner →
      n.path = m.path → m.kind = .file →
        (removed.2.tables.history n.owner n.id).map Version.blob =
          (moved.tables.copiedHistory owner target m).map Version.blob := by
  intro moved copied removed
  -- the move tells that the directory can be brought to its new place
  obtain ⟨t₁, hbody, hmoved⟩ : ∃ t₁, moveStatement owner node target a.tables = (.ok count, t₁) ∧
      moved = { a with tables := t₁ } := by
    rcases a.withTables_transact_cases (moveStatement owner node target)
      with ⟨e, hr⟩ | ⟨n, t₁, hbody, -, hr⟩ <;> rw [move, hr] at hmove
    · cases hmove
    · obtain rfl := Except.ok.inj hmove
      exact ⟨t₁, hbody, congrArg Prod.snd hr⟩
  obtain ⟨hpos, hdirectory⟩ := moveStatement_ok hdir hbody
  obtain ⟨top, hid, rfl, htop, htransfer, rfl, rfl⟩ :=
    Tables.transferable_of_moveDirectory hs.forest hpos hdirectory
  obtain ⟨t, hcopied, hremoved, hsound, hmirrors, hblobs, hpending⟩ :=
    copy_remove_of_transferable hs hv htransfer htop hid.symm hdir env env' hids
      (hversions top htransfer.stored hid)
  have hleft : removed.2 = { a with tables := t } := congrArg Prod.snd hremoved
  rw [hmoved, hleft]
  refine ⟨⟨_, hcopied⟩, ⟨_, congrArg Prod.fst hremoved, rfl, rfl⟩,
    ⟨hmirrors.places, hblobs.symm, hpending.symm, rfl⟩, rfl, rfl, ?_⟩
  intro m hm n hn ho hp hfile
  exact hmirrors.history_eq hsound.keyed.nodes hm hn ho hp hfile

/-- **A directory is moved, or copied and removed.** After every history of operations whose places
are valid, suppose that the move of a directory succeeds, that all files in the directory have a
version, and that there are new identifiers for as many nodes as are moved. Then a full copy to the
same place succeeds, the recursive removal of the directory after it succeeds, orphans no blob and
leaves none pending, and the archive holds the same as the one after the move: every owner has the
same kinds of nodes at the same places, and blobs, ledger and payloads are the same. Files at the
same place have the same blobs. The move keeps their order, and the copies have them in the order of
uploads. So both archives are alike exactly if this is the order of the moved files. It is whenever
the times of all uploads and links come from the clock of one process, whatever the wall clock
shows.

**Proof sketch.** A directory that has moved was free to be brought to its new place, so that it can
be copied there. Moved nodes are like their copies, which are not below the directory and stay when
it is removed. A blob that is linked to a removed file is linked to its copy as well. -/
theorem copy_remove_resembles_move (history : List Step)
    (hvalid : ∀ s ∈ history, ∀ p ∈ s.operation.target?, p.Valid) (owner : OwnerId) (node : Node)
    (hdir : node.kind = .dir) (target : Path) (count : Nat)
    (hmove : ((empty.after history).move owner node target).1 = .ok count)
    (hversions : ∀ top ∈ (empty.after history).tables.nodes, top.id = node.id →
      ∀ f ∈ (empty.after history).tables.subtree owner top.path, f.kind = .file →
        0 < (empty.after history).tables.countVersions owner f.id)
    (env env' : Env) (hids : (empty.after history).tables.Supplies env.nodeId count) :
    let a := empty.after history
    let moved := (a.move owner node target).2
    let copied := a.copy env owner node target false
    let removed := copied.2.remove env' owner node true
    (∃ copies, copied.1 = .ok copies) ∧
    (∃ r, removed.1 = .ok r ∧ r.orphaned = [] ∧ r.pending = []) ∧
    moved.HoldsSame removed.2 ∧
    (∀ m ∈ moved.tables.nodes, ∀ n ∈ removed.2.tables.nodes, n.owner = m.owner →
      n.path = m.path → m.kind = .file →
        (removed.2.tables.history n.owner n.id).map Version.blob =
          (moved.tables.copiedHistory owner target m).map Version.blob) ∧
    (moved.Resembles removed.2 ↔
      ∀ m ∈ moved.tables.nodes, m.owner = owner → target.covers m.path = true → m.kind = .file →
        moved.tables.history m.owner m.id = moved.tables.uploads m.owner m.id) ∧
    (∀ last walls, (stamps history .empty).Sublist (Instant.readings last walls) →
      moved.Resembles removed.2) := by
  intro a moved copied removed
  have hs : a.tables.Sound := sound history
  have hsmoved : moved.tables.Sound := (Operation.move node target).sound env owner hs
  obtain ⟨hcopied, hremoved, hholds, hlinks, hblobs, hshown⟩ := copy_remove_of_move hs
    (valid_after history hvalid) hdir hmove hversions env env' hids
  have halike := hholds.resembles_iff hsmoved.keyed hshown
  refine ⟨hcopied, hremoved, hholds, hshown, halike, ?_⟩
  intro last walls hprocess
  have hclock := (Instant.readings_pairwise last walls).sublist hprocess
  have hf := follows_after history .empty .empty (by rwa [List.nil_append])
  refine halike.2 ?_
  intro m _ _ _ _
  exact (hf.of_eq hlinks hblobs).history_eq_uploads hsmoved.keyed m.owner m.id

end Archive

/-! ### A directory in a directory -/

namespace Step

/-- An owner adds a directory, another one in it, and in this one a file. The file is copied into
the first directory and gets a second version. -/
def nestDirectories : List Step :=
  let owner : OwnerId := ⟨.ofNat 1⟩
  [⟨.ticking 1, owner, .createRoot⟩,
    ⟨.ticking 2, owner, .createDirectory ⟨"d"⟩⟩,
    ⟨.ticking 3, owner, .createDirectory ⟨"d.e"⟩⟩,
    ⟨.ticking 4, owner, .createFile ⟨"d.e.f"⟩ ⟨"sum", 1⟩ [.data ⟨#[4]⟩]⟩,
    ⟨.ticking 5, owner, .copy (fileAt 400 "d.e.f") ⟨"d.g"⟩ true⟩,
    ⟨.ticking 6, owner, .addVersion (fileAt 400 "d.e.f") ⟨"sum", 1⟩ [.data ⟨#[6]⟩]⟩]

/-- The first directory. -/
def outerDirectory : Node := ⟨⟨.ofNat 200⟩, .dir, ⟨"d"⟩, ⟨.ofNat 1⟩, default⟩

end Step

namespace Archive

/-- The first directory can be moved, or copied and removed, with the three nodes below it. The wall
clock is set back before the last upload. -/
theorem copy_remove_resembles_move_nested :
    let a := empty.after Step.nestDirectories
    let owner : OwnerId := ⟨.ofNat 1⟩
    let moved := a.move owner Step.outerDirectory ⟨"x"⟩
    let copied := a.copy (.ticking 7) owner Step.outerDirectory ⟨"x"⟩ false
    let removed := copied.2.remove (.ticking 8) owner Step.outerDirectory true
    moved.1 = .ok 4 ∧ (∃ copies, copied.1 = .ok copies) ∧
      (∃ r, removed.1 = .ok r ∧ r.orphaned = [] ∧ r.pending = []) ∧
      (stamps Step.nestDirectories .empty).Sublist
        (Instant.readings 0 [401, 401, 501, 600, 80]) ∧
      moved.2.Resembles removed.2 := by
  intro a owner moved copied removed
  have hvalid : ∀ s ∈ Step.nestDirectories, ∀ p ∈ s.operation.target?, p.Valid := by
    decide +kernel
  have hmove : moved.1 = .ok 4 := by decide +kernel
  have hversions : ∀ top ∈ a.tables.nodes, top.id = Step.outerDirectory.id →
      ∀ f ∈ a.tables.subtree owner top.path, f.kind = .file →
        0 < a.tables.countVersions owner f.id := by decide +kernel
  have hids : a.tables.Supplies (Env.ticking 7).nodeId 4 :=
    ⟨by decide +kernel, by decide +kernel⟩
  have hprocess : (stamps Step.nestDirectories .empty).Sublist
      (Instant.readings 0 [401, 401, 501, 600, 80]) := by decide +kernel
  obtain ⟨hcopied, hremoved, -, -, -, hclock⟩ := copy_remove_resembles_move
    Step.nestDirectories hvalid owner Step.outerDirectory rfl ⟨"x"⟩ 4 hmove hversions (.ticking 7)
    (.ticking 8) hids
  exact ⟨hmove, hcopied, hremoved, hprocess, hclock 0 _ hprocess⟩

end Archive

/-! ### Two processes -/

namespace Step

/-- In one process, an owner adds a directory and a file, and copies the file into the directory. -/
def copyIntoDirectory : List Step :=
  let owner : OwnerId := ⟨.ofNat 1⟩
  [⟨.ticking 1, owner, .createRoot⟩,
    ⟨.ticking 2, owner, .createDirectory ⟨"d"⟩⟩,
    ⟨.ticking 3, owner, .createFile ⟨"a"⟩ ⟨"sum", 1⟩ [.data ⟨#[3]⟩]⟩,
    ⟨.ticking 4, owner, .copy (fileAt 300 "a") ⟨"d.g"⟩ true⟩]

/-- In another process, whose clock is behind the first one, the copy gets a second version. -/
def addBehind : List Step :=
  [⟨{ Env.ticking 5 with now := fun k => ⟨350 + k⟩ }, ⟨.ofNat 1⟩,
    .addVersion (fileAt 400 "d.g") ⟨"sum", 1⟩ [.data ⟨#[5]⟩]⟩]

end Step

namespace Archive

/-- **The clock is set back between two processes.** The second version of a file is uploaded after
the first one, and linked before it. The file keeps this order when its directory is moved, and its
copy has the order of uploads. -/
theorem clock_set_back :
    let history := Step.copyIntoDirectory ++ Step.addBehind
    let a := empty.after history
    let owner : OwnerId := ⟨.ofNat 1⟩
    let moved := a.move owner Step.outerDirectory ⟨"x"⟩
    let copied := a.copy (.ticking 6) owner Step.outerDirectory ⟨"x"⟩ false
    let removed := copied.2.remove (.ticking 7) owner Step.outerDirectory true
    let shown (b : Archive) (blobs : List BlobId) := ∃ n ∈ b.tables.nodes, n.owner = owner ∧
      n.path = ⟨"x.g"⟩ ∧ n.kind = .file ∧ (b.tables.history owner n.id).map Version.blob = blobs
    (∀ s ∈ history, ∀ p ∈ s.operation.target?, p.Valid) ∧
    stamps Step.copyIntoDirectory .empty = Instant.readings 0 [301, 301, 401] ∧
    stamps Step.addBehind (empty.after Step.copyIntoDirectory) = Instant.readings 0 [350, 350] ∧
    moved.1 = .ok 2 ∧
    (∀ top ∈ a.tables.nodes, top.id = Step.outerDirectory.id →
      ∀ f ∈ a.tables.subtree owner top.path, f.kind = .file →
        0 < a.tables.countVersions owner f.id) ∧
    a.tables.Supplies (Env.ticking 6).nodeId 2 ∧
    (∃ copies, copied.1 = .ok copies) ∧
    (∃ r, removed.1 = .ok r ∧ r.orphaned = [] ∧ r.pending = []) ∧
    shown moved.2 [⟨.ofNat 3⟩, ⟨.ofNat 5⟩] ∧ shown removed.2 [⟨.ofNat 5⟩, ⟨.ofNat 3⟩] ∧
    ¬moved.2.Resembles removed.2 := by
  intro history a owner moved copied removed shown
  have hvalid : ∀ s ∈ history, ∀ p ∈ s.operation.target?, p.Valid := by decide +kernel
  have hmove : moved.1 = .ok 2 := by decide +kernel
  have hversions : ∀ top ∈ a.tables.nodes, top.id = Step.outerDirectory.id →
      ∀ f ∈ a.tables.subtree owner top.path, f.kind = .file →
        0 < a.tables.countVersions owner f.id := by decide +kernel
  have hids : a.tables.Supplies (Env.ticking 6).nodeId 2 :=
    ⟨by decide +kernel, by decide +kernel⟩
  obtain ⟨hcopied, hremoved, hholds, -, -, hshown⟩ := copy_remove_of_move (sound history)
    (valid_after history hvalid) rfl hmove hversions (.ticking 6) (.ticking 7) hids
  have hsmoved : moved.2.tables.Sound :=
    (Operation.move Step.outerDirectory ⟨"x"⟩).sound (.ticking 6) owner (sound history)
  -- the file after the move, with its two versions in both orders
  let file : Node := ⟨⟨.ofNat 400⟩, .file, ⟨"x.g"⟩, owner, ⟨400⟩⟩
  let first : Version := ⟨file.id, ⟨.ofNat 3⟩, "sum", 1, owner, ⟨301⟩, ⟨401⟩⟩
  let second : Version := ⟨file.id, ⟨.ofNat 5⟩, "sum", 1, owner, ⟨350⟩, ⟨351⟩⟩
  have hfile : file ∈ moved.2.tables.nodes := by decide +kernel
  have hhistory : moved.2.tables.history owner file.id = [first, second] :=
    mergeSort_eq_of_perm (by decide +kernel) (by decide +kernel)
  have huploads : moved.2.tables.uploads owner file.id = [second, first] :=
    mergeSort_eq_of_perm (by decide +kernel) (by decide +kernel)
  have hbelow : file.owner = owner ∧ Path.covers ⟨"x"⟩ file.path = true := by decide +kernel
  refine ⟨hvalid, by decide +kernel, by decide +kernel, hmove, hversions, hids, hcopied, hremoved,
    ⟨file, hfile, rfl, rfl, rfl, by rw [hhistory]; rfl⟩, ?_, ?_⟩
  · obtain ⟨n, hn, ho, hp, hkind⟩ :=
      (hholds.places owner ⟨"x.g"⟩ .file).1 ⟨file, hfile, rfl, rfl, rfl⟩
    have hlisted := hshown file hfile n hn ho hp rfl
    rw [ho, Tables.copiedHistory, if_pos hbelow, huploads] at hlisted
    exact ⟨n, hn, ho, hp, hkind, hlisted⟩
  · rw [hholds.resembles_iff hsmoved.keyed hshown]
    intro hall
    have hsame := hall file hfile hbelow.1 hbelow.2 rfl
    rw [hhistory, huploads] at hsame
    exact absurd hsame (by decide)

end Archive

end VersionedTree
