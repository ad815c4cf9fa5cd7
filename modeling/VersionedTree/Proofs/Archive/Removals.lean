import VersionedTree.Command.Report
import VersionedTree.Proofs.Archive.Relocation
import VersionedTree.Proofs.Archive.RemovedNodes

/-!
# What a removal does

A removal is decided by the tables alone. When it is accepted its outcome is known as well, to the
last row: the nodes at and below the removed one go, their links go, and the blobs all of whose
links these were. Each such blob loses its payload, or has an entry in the ledger if the payload
store refused to delete it.

## Main definitions

* `VersionedTree.Archive.Intact` — archives in which every blob has its payload.
* `VersionedTree.Removal.released` — the blobs whose payloads a removal has deleted.
* `VersionedTree.Tables.Loses` — tables before and after nodes have left them.

## Main results

* `VersionedTree.Archive.Intact.release_eq` — orphaned blobs are released.
* `VersionedTree.Archive.Intact.remove_eq` — the outcome of a removal that is accepted.
* `VersionedTree.Archive.remove_exact` — removals after every history.
-/

set_option autoImplicit false

namespace VersionedTree

/-! ## Archives in which every blob has its payload -/

namespace Archive

/-- Every blob has its payload, no blob is in the ledger, and links stay within an owner. -/
structure Intact (used : List BlobId) (a : Archive) : Prop where
  sound : a.tables.Sound
  tidy : a.Tidy used
  present : ∀ r ∈ a.tables.blobs, (a.payloads.get? r.key).isSome = true

namespace Intact

variable {a : Archive} {used : List BlobId} {env : Env} {owner : OwnerId} {top node : Node}
  {recursive : Bool}

/-- An archive without rows is intact. -/
lemma empty : Intact [] .empty := ⟨.empty, .empty, fun r hr => by cases hr⟩

/-- Every step keeps the archive intact if it takes a new blob identifier. -/
lemma apply (h : a.Intact used) {s : Step} (hf : ∀ blob ∈ s.newBlob?, blob ∉ used) :
    (s.apply a).Intact (used ++ s.newBlob?.toList) := by
  refine ⟨s.operation.sound s.env s.owner h.sound, h.tidy.apply hf, ?_⟩
  intro r hr
  rcases (Step.change h.tidy hf).blobs r hr with ⟨hold, hget⟩ | ⟨-, bytes, -, hget, -⟩
  · rw [hget]
    exact h.present r hold
  · rw [hget]
    rfl

/-- **The archive after every history** that takes new blob identifiers is intact. -/
theorem after (h : a.Intact used) (history : List Step)
    (hn : (used ++ history.filterMap Step.newBlob?).Nodup) :
    (a.after history).Intact (used ++ history.filterMap Step.newBlob?) := by
  induction history generalizing a used with
  | nil =>
    rw [List.filterMap_nil, List.append_nil]
    exact h
  | cons s rest ih =>
    rw [Step.newBlobs_cons] at hn ⊢
    exact ih (h.apply (Step.not_mem_of_nodup hn)) hn

/-- A removal takes no blob identifier. -/
lemma remove (h : a.Intact used) (env : Env) (owner : OwnerId) (node : Node) (recursive : Bool) :
    (a.remove env owner node recursive).2.Intact used := by
  have hstep := h.apply (s := ⟨env, owner, .remove node recursive⟩) fun _ hb => by cases hb
  have hused : used ++ (Step.newBlob? ⟨env, owner, .remove node recursive⟩).toList = used :=
    List.append_nil used
  rwa [hused] at hstep

/-! ## The outcome of a removal -/

/-- Orphaned blobs have their payloads, and are not in the ledger. -/
lemma orphansOf_apart (h : a.Intact used) {ids : List NodeId}
    (hids : a.tables.OwnsNodes owner ids) :
    (∀ blob ∈ a.tables.orphansOf owner ids, (a.payloads.get? ⟨owner, blob⟩).isSome = true) ∧
      ∀ p ∈ a.tables.pending, p.owner = owner → p.blob ∉ a.tables.orphansOf owner ids := by
  constructor
  · intro blob hblob
    obtain ⟨⟨l, hl, rfl⟩, hall⟩ := (h.sound.mem_orphansOf hids).1 hblob
    obtain ⟨r, hr, hid, ho⟩ :=
      Tables.ownsBlob_iff.1 (h.sound.ownsBlob_of_mem hids l hl (hall l hl rfl))
    have hkey : r.key = ⟨owner, l.blob⟩ := by rw [Blob.key, hid, ho]
    rw [← hkey]
    exact h.present r hr
  · intro p hp _ hblob
    have hgone := h.tidy.ledger p hp
    have hthere := ((h.sound.keyed.mem_orphansOf_iff h.sound.counted).1 hblob).1
    rw [hgone] at hthere
    cases hthere

/-- **Orphaned blobs are released**: those whose deletions fail stay in the ledger, and the others
lose their payloads. -/
theorem release_eq (h : a.Intact used) (env : Env) {ids : List NodeId}
    (hids : a.tables.OwnsNodes owner ids) :
    let orphaned := a.tables.orphansOf owner ids
    let pending := orphaned.filter fun blob => env.backend.refuses ⟨owner, blob⟩
    let released := orphaned.filter fun blob => !env.backend.refuses ⟨owner, blob⟩
    release env owner orphaned
        { a with tables := (a.tables.without ids).queueDeletes (env.now 0) owner orphaned } =
      (pending,
        ⟨{ a.tables.without ids with
            pending := PendingDelete.entries (env.now 0) owner pending ++ a.tables.pending },
          a.payloads.without (released.map (Key.mk owner))⟩) := by
  intro orphaned pending released
  obtain ⟨hpresent, hnew⟩ := h.orphansOf_apart hids
  have hn : orphaned.Nodup := h.sound.keyed.nodup_orphansOf h.sound.counted
  rw [Tables.queueDeletes_of_new (t := a.tables.without ids) hn hnew, release,
    Payloads.deleteMany_eq hn hpresent]
  simp only
  rw [Tables.clearDeletes_queued (t := a.tables.without ids) _ hnew]
  rfl

/-- **The outcome of a removal** that is accepted. -/
theorem remove_eq (h : a.Intact used) (ht : a.tables.Removable top recursive) (env : Env)
    (hid : node.id = top.id) :
    let ids := a.tables.subtreeIds top
    let orphaned := a.tables.orphansOf top.owner ids
    let pending := orphaned.filter fun blob => env.backend.refuses ⟨top.owner, blob⟩
    let released := orphaned.filter fun blob => !env.backend.refuses ⟨top.owner, blob⟩
    a.remove env top.owner node recursive =
      (.ok ⟨ids, orphaned, pending⟩,
        ⟨{ a.tables.without ids with
            pending := PendingDelete.entries (env.now 0) top.owner pending ++ a.tables.pending },
          a.payloads.without (released.map (Key.mk top.owner))⟩) := by
  intro ids orphaned pending released
  rw [remove_of_ok h.sound (ht.removeStatements_eq h.sound env hid),
    h.release_eq env (Tables.ownsNodes_subtreeIds _ _)]

end Intact

end Archive

/-! ## What a removal reports -/

/-- The blobs whose payloads a removal has deleted: those that are orphaned and not pending. -/
def Removal.released (r : Removal) : List BlobId := r.orphaned.filter (!r.pending.contains ·)

/-- Orphaned blobs are released or pending. -/
lemma Removal.length_orphaned {r : Removal} (hn : r.orphaned.Nodup)
    (hp : r.pending.Sublist r.orphaned) :
    r.orphaned.length = r.pending.length + r.released.length := by
  have hpending : (r.orphaned.filter r.pending.contains).Perm r.pending := by
    refine (List.perm_ext_iff_of_nodup (hn.filter _) (hn.sublist hp)).2 ?_
    intro blob
    rw [List.mem_filter, List.contains_iff_mem]
    exact and_iff_right_of_imp fun hmem => hp.subset hmem
  rw [List.length_eq_length_filter_add r.pending.contains, hpending.length_eq, released]

/-- If the pending blobs are the orphaned ones with a property, the released ones are those without
it. -/
lemma Removal.released_of_filter {r : Removal} {q : BlobId → Bool}
    (h : r.pending = r.orphaned.filter q) : r.released = r.orphaned.filter (!q ·) := by
  rw [released, h]
  refine List.filter_congr ?_
  intro blob hb
  cases hq : q blob <;> simp [hb, hq]

/-- The summary of a removal counts the released blobs. -/
lemma Report.removal_eq {r : Removal}
    (h : r.orphaned.length = r.pending.length + r.released.length) :
    Report.removal r = "Removed " ++ toString r.removed.length ++ " nodes, released "
      ++ toString r.released.length ++ " blobs"
      ++ if r.pending.isEmpty then ""
        else "\n" ++ toString r.pending.length
          ++ " blob deletes pending, run 'doctree gc' to retry" := by
  have hreleased : r.orphaned.length - r.pending.length = r.released.length := by omega
  rw [removal, hreleased]

/-! ## Exactness -/

/-- Tables before and after nodes have left them. The nodes go with their links, and the blobs go
all of whose links these were, in whatever order the nodes are unlinked. -/
structure Tables.Loses (owner : OwnerId) (removed : List NodeId) (orphaned : List BlobId)
    (t t' : Tables) : Prop where
  nodes : t'.nodes = t.nodes.filter fun n => !removed.contains n.id
  links : t'.links = t.links.filter fun l => !removed.contains l.node
  blobs : t'.blobs = t.blobs.filter fun b => !orphaned.contains b.id
  distinct : orphaned.Nodup
  mem_orphaned : ∀ blob, blob ∈ orphaned ↔
    (∃ l ∈ t.links, l.blob = blob) ∧ ∀ l ∈ t.links, l.blob = blob → l.node ∈ removed
  order : ∀ ids : List NodeId, ids.Perm removed →
    (Archive.unlinkNodes owner ids { t with nodes := t'.nodes }).1.Perm orphaned ∧
      (Archive.unlinkNodes owner ids { t with nodes := t'.nodes }).2 =
        { t' with pending := t.pending }

/-- The tables without the nodes of an owner have lost these nodes. -/
lemma Tables.Sound.loses_without {t : Tables} (h : t.Sound) {owner : OwnerId} {ids : List NodeId}
    (hids : t.OwnsNodes owner ids) (pending : List PendingDelete) :
    t.Loses owner ids (t.orphansOf owner ids) { t.without ids with pending := pending } where
  nodes := rfl
  links := rfl
  blobs := h.blobs_without_eq hids
  distinct := h.keyed.nodup_orphansOf h.counted
  mem_orphaned _ := h.mem_orphansOf hids
  order ids' hperm := by
    obtain ⟨horphans, htables⟩ := h.unlinkNodes_perm hids hperm
    rw [Tables.unlinkNodes_withNodes, htables, h.counted.unlinkNodes_eq (h.ownsBlob_of_mem hids)]
    exact ⟨horphans, rfl⟩

namespace Archive

/-- A removal that is accepted, whether the archive is intact or not: the tables lose the nodes, and
what is pending are orphaned blobs. -/
lemma remove_of_removable {a : Archive} {top node : Node} {recursive : Bool} (h : a.tables.Sound)
    (ht : a.tables.Removable top recursive) (env : Env) (hid : node.id = top.id) :
    ∃ pending a', a.remove env top.owner node recursive =
        (.ok ⟨a.tables.subtreeIds top,
          a.tables.orphansOf top.owner (a.tables.subtreeIds top), pending⟩, a') ∧
      pending.Sublist (a.tables.orphansOf top.owner (a.tables.subtreeIds top)) ∧
      a.tables.Loses top.owner (a.tables.subtreeIds top)
        (a.tables.orphansOf top.owner (a.tables.subtreeIds top)) a'.tables := by
  refine ⟨_, _, remove_of_ok h (ht.removeStatements_eq h env hid), List.filter_sublist, ?_⟩
  unfold release
  rw [Tables.queueDeletes_frame]
  exact h.loses_without (Tables.ownsNodes_subtreeIds a.tables top) _

/-- How a removal has released the blobs that it orphaned. None of them was in the ledger, and all
had their payloads. Those whose deletions fail are pending and enter the ledger, and the payloads of
the others are gone. -/
structure ReleasedBy (env : Env) (owner : OwnerId) (r : Removal) (a a' : Archive) : Prop where
  pending : r.pending = r.orphaned.filter fun blob => env.backend.refuses ⟨owner, blob⟩
  unqueued : ∀ p ∈ a.tables.pending, p.owner = owner → p.blob ∉ r.orphaned
  present : ∀ blob ∈ r.orphaned, (a.payloads.get? ⟨owner, blob⟩).isSome = true
  ledger : a'.tables.pending =
    PendingDelete.entries (env.now 0) owner r.pending ++ a.tables.pending
  payloads : a'.payloads = a.payloads.without (r.released.map (Key.mk owner))

/-- In an intact archive, a removal that succeeds releases the orphaned blobs whose payloads could
be deleted, and leaves the others pending. -/
lemma Intact.releasedBy {a : Archive} {used : List BlobId} {top node : Node} {recursive : Bool}
    (h : a.Intact used) (ht : a.tables.Removable top recursive) (env : Env) (hid : node.id = top.id)
    {r : Removal} (hr : (a.remove env top.owner node recursive).1 = .ok r) :
    ReleasedBy env top.owner r a (a.remove env top.owner node recursive).2 := by
  have hremove := h.remove_eq ht env hid
  obtain ⟨hpresent, hnew⟩ := h.orphansOf_apart (Tables.ownsNodes_subtreeIds a.tables top)
  rw [hremove] at hr ⊢
  obtain rfl := Except.ok.inj hr
  refine ⟨rfl, hnew, hpresent, rfl, ?_⟩
  rw [Removal.released_of_filter rfl]

/-- **Removals are exact.** After every history, and however the payload store behaves, the removal
of a node is accepted exactly if there is a node of this identifier and owner that is no root and,
unless the removal is recursive, has nothing below it. If it is not, nothing has changed. If it is,
the removed nodes are those at and below the node, each once; the tables lose these nodes with their
links, and the blobs all of whose links these were; and the summary counts as released what is
orphaned and not pending.

If blob identifiers are taken once only, then the pending blobs are the orphaned ones whose
deletions have failed. They are new in the ledger, which keeps all that it had. The payloads of the
released blobs were there and are gone, and no other payload is.

**Proof sketch.** Links stay within an owner, so that the links of the removed nodes are dropped
whatever their order, and a blob goes exactly if no link to it is left. A blob that is there has its
payload and is not in the ledger, from which it follows that the deletion of the payload is
confirmed exactly if it does not fail. -/
theorem remove_exact (history : List Step) (env : Env) (owner : OwnerId) (node : Node)
    (recursive : Bool) :
    let a := empty.after history
    let t := a.tables
    let result := a.remove env owner node recursive
    ((∃ r, result.1 = .ok r) ↔ t.Removes owner node.id recursive) ∧
    (¬t.Removes owner node.id recursive → result = (.error (.deleteFailure "tree"), a)) ∧
    ∀ r, result.1 = .ok r → ∃ top ∈ t.nodes, top.id = node.id ∧ top.owner = owner ∧
      r.removed.Nodup ∧
      (∀ id, id ∈ r.removed ↔
        ∃ n ∈ t.nodes, n.id = id ∧ n.owner = owner ∧ top.path.covers n.path = true) ∧
      t.Loses owner r.removed r.orphaned result.2.tables ∧
      r.pending.Sublist r.orphaned ∧
      r.orphaned.length = r.pending.length + r.released.length ∧
      Report.removal r = "Removed " ++ toString r.removed.length ++ " nodes, released "
        ++ toString r.released.length ++ " blobs"
        ++ (if r.pending.isEmpty then ""
          else "\n" ++ toString r.pending.length
            ++ " blob deletes pending, run 'doctree gc' to retry") ∧
      ((history.filterMap Step.newBlob?).Nodup → ReleasedBy env owner r a result.2) := by
  intro a t result
  have hs : t.Sound := sound history
  have hrefused : ¬t.Removes owner node.id recursive →
      result = (.error (.deleteFailure "tree"), a) := (remove_refused_iff hs).2
  have haccepted : t.Removes owner node.id recursive → ∃ r, result.1 = .ok r := by
    intro hremoves
    obtain ⟨top, htop, hid, rfl⟩ := Tables.removes_iff.1 hremoves
    obtain ⟨pending, a', hremove, -⟩ := remove_of_removable hs htop env hid.symm
    exact ⟨_, congrArg Prod.fst hremove⟩
  have hiff : (∃ r, result.1 = .ok r) ↔ t.Removes owner node.id recursive := by
    refine ⟨?_, haccepted⟩
    rintro ⟨r, hr⟩
    by_contra hnot
    rw [hrefused hnot] at hr
    cases hr
  refine ⟨hiff, hrefused, ?_⟩
  intro r hr
  obtain ⟨top, htop, hid, rfl⟩ := Tables.removes_iff.1 (hiff.1 ⟨r, hr⟩)
  obtain ⟨pending, a', hremove, hsublist, hloses⟩ := remove_of_removable hs htop env hid.symm
  have hresult : result = _ := hremove
  rw [hresult] at hr ⊢
  obtain rfl := Except.ok.inj hr
  have hlength := Removal.length_orphaned (r := ⟨a.tables.subtreeIds top, _, pending⟩)
    hloses.distinct hsublist
  refine ⟨top, htop.stored, hid, rfl, hs.keyed.nodup_subtreeIds top,
    fun _ => Tables.mem_subtreeIds, hloses, hsublist, hlength, Report.removal_eq hlength, ?_⟩
  intro hfresh
  have hintact := Intact.empty.after history (by rwa [List.nil_append])
  have hreleased := hintact.releasedBy htop env hid.symm (congrArg Prod.fst hremove)
  have hafter : (a.remove env top.owner node recursive).2 = a' := congrArg Prod.snd hremove
  rwa [hafter] at hreleased

end Archive

/-! ### A removal from a store that refuses -/

/-- A store that refuses to delete the payload of one blob. -/
def Env.refusing (blob : BlobId) (n : Nat) : Env :=
  { Env.ticking n with
    backend := { Backend.reliable with
      deleteFault := fun k => if k.blob = blob then some "refused" else none } }

namespace Archive

/-- Four nodes are removed, of which two files share a blob. Both blobs are orphaned, each once. One
is released, and the other one is pending. -/
theorem remove_exact_nested :
    let a := empty.after Step.nestDirectories
    let owner : OwnerId := ⟨.ofNat 1⟩
    let result := a.remove (.refusing ⟨.ofNat 4⟩ 7) owner Step.outerDirectory true
    (Step.nestDirectories.filterMap Step.newBlob?).Nodup ∧
    ∃ r, result.1 = .ok r ∧ r.removed.length = 4 ∧ r.orphaned = [⟨.ofNat 6⟩, ⟨.ofNat 4⟩] ∧
      r.released = [⟨.ofNat 6⟩] ∧
      ReleasedBy (.refusing ⟨.ofNat 4⟩ 7) owner r a result.2 := by
  intro a owner result
  have hfresh : (Step.nestDirectories.filterMap Step.newBlob?).Nodup := by decide +kernel
  have hresult : result.1 = .ok ⟨[⟨.ofNat 500⟩, ⟨.ofNat 400⟩, ⟨.ofNat 300⟩, ⟨.ofNat 200⟩],
      [⟨.ofNat 6⟩, ⟨.ofNat 4⟩], [⟨.ofNat 4⟩]⟩ := by decide +kernel
  obtain ⟨-, -, hexact⟩ := remove_exact Step.nestDirectories (.refusing ⟨.ofNat 4⟩ 7) owner
    Step.outerDirectory true
  obtain ⟨top, -, -, -, -, -, -, -, -, -, hreleased⟩ := hexact _ hresult
  exact ⟨hfresh, _, hresult, rfl, rfl, by decide +kernel, hreleased hfresh⟩

end Archive

end VersionedTree
