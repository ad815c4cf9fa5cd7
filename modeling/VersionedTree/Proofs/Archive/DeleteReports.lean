import VersionedTree.Proofs.Archive.MissingPayloads

/-!
# Reports of deletions

A payload store answers a batch of deletions by results. They come in any order, and some may not
come at all. A result names its object by a location that ends in a key, whatever stands before it,
so that the report finds the blob of each result and splits the blobs of the batch by the results
that came.

## Main definitions

* `VersionedTree.Deletion.Confirms` — results that tell that a key is gone.
* `VersionedTree.Deletion.OfOwner` — results of deletions of an owner's keys.

## Main results

* `VersionedTree.Deletion.confirmed?_eq_some_iff` — a result is attributed to the blob of its key.
* `VersionedTree.Payloads.ofOwner_deleteKeys` — the results of deletions in turn.
* `VersionedTree.DeleteReport.attributed` — the report of a batch.
-/

set_option autoImplicit false

namespace VersionedTree

/-! ## Results -/

namespace Deletion

/-- Does the result tell that nothing is left under the key? The key was deleted, or is missing at a
location that ends in it. -/
def Confirms (k : Key) (r : Deletion) : Prop :=
  r = .deleted k.text ∨ ∃ location, k.Ends location ∧ r = .missing location

/-- The results of deletions of an owner's keys. -/
inductive OfOwner (owner : OwnerId) : Deletion → Prop where
  | deleted (blob : BlobId) : OfOwner owner (.deleted (Key.text ⟨owner, blob⟩))
  | missing {blob : BlobId} {location : String} (h : Key.Ends ⟨owner, blob⟩ location) :
    OfOwner owner (.missing location)
  | failed (what : String) : OfOwner owner (.failed what)

variable {owner : OwnerId} {blob : BlobId} {r : Deletion}

/-- A result that confirms a key tells its blob, wherever the location begins. -/
lemma confirmed?_of_confirms {k : Key} (h : r.Confirms k) : r.confirmed? = some k.blob := by
  obtain rfl | ⟨location, hends, rfl⟩ := h
  · exact k.blobOfLocation?_text
  · exact Key.blobOfLocation?_of_ends hends

/-- **A result is attributed** to the blob whose key it confirms, and to no other one. -/
theorem confirmed?_eq_some_iff (h : r.OfOwner owner) :
    r.confirmed? = some blob ↔ r.Confirms ⟨owner, blob⟩ := by
  refine ⟨fun hconfirmed => ?_, confirmed?_of_confirms⟩
  cases h with
  | deleted other =>
    have hother : some other = some blob :=
      (Key.blobOfLocation?_text ⟨owner, other⟩).symm.trans hconfirmed
    obtain rfl := Option.some.inj hother
    exact .inl rfl
  | @missing other location hends =>
    have hother : some other = some blob :=
      (Key.blobOfLocation?_of_ends hends).symm.trans hconfirmed
    obtain rfl := Option.some.inj hother
    exact .inr ⟨location, hends, rfl⟩
  | failed what => cases hconfirmed

end Deletion

/-! ## Deletions in turn -/

namespace Payloads

variable {b : Backend} {owner : OwnerId}

/-- One deletion has a result that names its key, or fails. -/
lemma ofOwner_deleteKey (h : b.NamesKeys) (blob : BlobId) (p : Payloads) :
    (p.deleteKey b ⟨owner, blob⟩).1.OfOwner owner := by
  unfold deleteKey
  split
  · exact .failed _
  · split
    · next location _ hreport => exact .missing (h location hreport ⟨owner, blob⟩)
    · exact .deleted blob

/-- **Deletions in turn** have results that name the keys of the owner. -/
theorem ofOwner_deleteKeys (h : b.NamesKeys) (blobs : List BlobId) (p : Payloads) :
    ∀ r ∈ (deleteKeys b (blobs.map (Key.mk owner)) p).1, r.OfOwner owner := by
  induction blobs generalizing p with
  | nil => exact List.forall_mem_nil _
  | cons blob rest ih => exact List.forall_mem_cons.2 ⟨ofOwner_deleteKey h blob p, ih _⟩

end Payloads

/-! ## Reports -/

namespace DeleteReport

variable {owner : OwnerId} {results : List Deletion}

/-- The blobs that results confirm. -/
lemma contains_confirmed (h : ∀ r ∈ results, r.OfOwner owner) (blob : BlobId) :
    (results.filterMap Deletion.confirmed?).contains blob = true ↔
      ∃ r ∈ results, r.Confirms ⟨owner, blob⟩ := by
  rw [List.contains_iff_mem, List.mem_filterMap]
  exact exists_congr fun r => and_congr_right fun hr => Deletion.confirmed?_eq_some_iff (h r hr)

/-- A blob is reported as deleted if it is one of the batch and a result confirms its key. -/
lemma mem_deleted (h : ∀ r ∈ results, r.OfOwner owner) {blobs : List BlobId} (blob : BlobId) :
    blob ∈ (ofDeletions blobs results).deleted ↔
      blob ∈ blobs ∧ ∃ r ∈ results, r.Confirms ⟨owner, blob⟩ := by
  rw [← contains_confirmed h]
  exact List.mem_filter

/-- **The report of a batch.** Take any blobs, some of them perhaps more than once, and any results
of deletions of the owner's keys, in any order and perhaps not for all of the blobs. The report
splits the blobs by one property, and keeps their order: none is lost, and none is on both sides. A
blob is reported as deleted if a result came that confirms its key, and only then. A batch of
deletions, by a store that names missing keys at locations that end in them, has results of this
kind, and its report is the one of the results that it has. -/
theorem attributed (owner : OwnerId) (blobs : List BlobId) (results : List Deletion)
    (h : ∀ r ∈ results, r.OfOwner owner) :
    let report := ofDeletions blobs results
    (∃ isGone : BlobId → Bool,
      report.deleted = blobs.filter isGone ∧ report.failed = blobs.filter (!isGone ·) ∧
        ∀ blob, isGone blob = true ↔ ∃ r ∈ results, r.Confirms ⟨owner, blob⟩) ∧
    (report.deleted ++ report.failed).Perm blobs ∧ report.deleted.Disjoint report.failed ∧
    (∀ blob, blob ∈ report.deleted ↔ blob ∈ blobs ∧ ∃ r ∈ results, r.Confirms ⟨owner, blob⟩) ∧
    ∀ (p : Payloads) (b : Backend), b.NamesKeys →
      let arrived := (Payloads.deleteKeys b (blobs.map (Key.mk owner)) p).1
      (∀ r ∈ arrived, r.OfOwner owner) ∧
        (p.deleteMany b owner blobs).1 = ofDeletions blobs arrived ∧
        ∀ blob, blob ∈ (p.deleteMany b owner blobs).1.deleted ↔
          blob ∈ blobs ∧ ∃ r ∈ arrived, r.Confirms ⟨owner, blob⟩ := by
  intro report
  refine ⟨⟨_, rfl, rfl, contains_confirmed h⟩, List.filter_append_perm _ _, ?_, mem_deleted h, ?_⟩
  · intro blob hdeleted hfailed
    have hyes := List.of_mem_filter hdeleted
    have hno := List.of_mem_filter hfailed
    rw [hyes] at hno
    cases hno
  · intro p b hb arrived
    have harrived : ∀ r ∈ arrived, r.OfOwner owner := Payloads.ofOwner_deleteKeys hb blobs p
    exact ⟨harrived, rfl, mem_deleted harrived⟩

/-- One blob is asked for twice. One is missing at a location with dots and with another blob in
it, and the result for one did not come. A store that has the first blob alone, and refuses to
delete the second one, makes the same report. -/
theorem attributed_unordered :
    let owner : OwnerId := ⟨.ofNat 1⟩
    let blobs : List BlobId := [⟨.ofNat 5⟩, ⟨.ofNat 7⟩, ⟨.ofNat 5⟩, ⟨.ofNat 9⟩]
    let location := "/srv/blobs.d/" ++ Key.text ⟨owner, ⟨.ofNat 7⟩⟩ ++ "/"
      ++ Key.text ⟨owner, ⟨.ofNat 9⟩⟩
    let results : List Deletion := [.missing location, .failed "delete refused",
      .deleted (Key.text ⟨owner, ⟨.ofNat 5⟩⟩)]
    let report := ofDeletions blobs results
    let store : Payloads := ⟨[(⟨owner, ⟨.ofNat 5⟩⟩, ⟨#[5]⟩)]⟩
    let refusing : Backend := { Backend.reliable with
      deleteFault := fun k => if k.blob = ⟨.ofNat 7⟩ then some "delete refused" else none }
    let backend := refusing.reporting (some fun k => "/srv/blobs.d/" ++ k.text)
    report.deleted = [⟨.ofNat 5⟩, ⟨.ofNat 5⟩, ⟨.ofNat 9⟩] ∧ report.failed = [⟨.ofNat 7⟩] ∧
      (⟨.ofNat 9⟩ ∈ report.deleted ↔
        ⟨.ofNat 9⟩ ∈ blobs ∧ ∃ r ∈ results, r.Confirms ⟨owner, ⟨.ofNat 9⟩⟩) ∧
      (store.deleteMany backend owner blobs).1 = report ∧
      ∃ r ∈ (Payloads.deleteKeys backend (blobs.map (Key.mk owner)) store).1,
        r.Confirms ⟨owner, ⟨.ofNat 9⟩⟩ := by
  intro owner blobs location results report store refusing backend
  have hends : Key.Ends ⟨owner, ⟨.ofNat 9⟩⟩ location :=
    ⟨_, String.toList_append.symm⟩
  have hresults : ∀ r ∈ results, r.OfOwner owner := by
    simp only [results, List.forall_mem_cons]
    exact ⟨.missing hends, .failed _, .deleted _, List.forall_mem_nil _⟩
  have hmissing : Deletion.confirmed? (.missing location) = some ⟨.ofNat 9⟩ :=
    Key.blobOfLocation?_of_ends hends
  have hdeleted : Deletion.confirmed? (.deleted (Key.text ⟨owner, ⟨.ofNat 5⟩⟩)) =
      some ⟨.ofNat 5⟩ := Key.blobOfLocation?_text _
  have hconfirmed : results.filterMap Deletion.confirmed? = [⟨.ofNat 9⟩, ⟨.ofNat 5⟩] := by
    rw [List.filterMap_cons, hmissing, List.filterMap_cons, List.filterMap_cons, hdeleted]
    rfl
  have hreport : report = ⟨[⟨.ofNat 5⟩, ⟨.ofNat 5⟩, ⟨.ofNat 9⟩], [⟨.ofNat 7⟩]⟩ := by
    simp only [report, ofDeletions, hconfirmed]
    decide +kernel
  have hnames : backend.NamesKeys :=
    Backend.namesKeys_reporting fun k => ⟨_, String.toList_append.symm⟩
  have hmade : (store.deleteMany backend owner blobs).1 =
      ⟨[⟨.ofNat 5⟩, ⟨.ofNat 5⟩, ⟨.ofNat 9⟩], [⟨.ofNat 7⟩]⟩ := by decide +kernel
  have hgone : ⟨.ofNat 9⟩ ∈ (store.deleteMany backend owner blobs).1.deleted := by
    rw [hmade]
    decide
  obtain ⟨-, -, -, hreported, hbatch⟩ := attributed owner blobs results hresults
  obtain ⟨-, -, hattributed⟩ := hbatch store backend hnames
  exact ⟨congrArg deleted hreport, congrArg failed hreport, hreported _, hmade.trans hreport.symm,
    ((hattributed _).1 hgone).2⟩

end DeleteReport

end VersionedTree
