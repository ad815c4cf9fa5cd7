import VersionedTree.Proofs.Archive.Atomicity
import VersionedTree.Proofs.Archive.Copies
import VersionedTree.Proofs.Archive.Listings
import VersionedTree.Proofs.Tables.Versions

/-!
# Histories of files

The history of a file is a list of blobs, newest first: an upload adds one in front, a copy takes
over the list of its source or the head of it, a removal takes a blob out. Neither the tables nor
the listings keep such a list. They sort the versions of a node by their times, and this amounts to
the same as long as the clock goes on.

## Main definitions

* `VersionedTree.Histories` — a list of blobs for every node.
* `VersionedTree.Operation.record` — what an operation that succeeds does to these lists.
* `VersionedTree.Archive.histories` — the lists after a history of operations.
* `VersionedTree.Archive.stamps` — the times that a history of operations gives to uploads and
  links.
* `VersionedTree.Tables.Follows` — tables with the versions that the lists name.

## Main results

* `VersionedTree.Tables.Follows.linkCopies` — copies, linked one after the other.
* `VersionedTree.Step.follows` — every step.
* `VersionedTree.Archive.histories_refined` — listings after every history of operations.
-/

set_option autoImplicit false

namespace VersionedTree

/-! ## Lists of blobs -/

/-- The blobs of every node, newest first. -/
abbrev Histories := NodeId → List BlobId

/-- The lists after copies of files: each copy has the list of its source, or the head of it. -/
def Histories.copied (h : Histories) (onlyNewest : Bool) (copies : List CopiedNode) : Histories :=
  fun id =>
    match copies.find? fun c => c.destination == id with
    | none => h id
    | some c => if onlyNewest then (h c.source).take 1 else h c.source

/-- The lists after the removal of nodes. -/
def Histories.without (h : Histories) (removed : List NodeId) : Histories :=
  fun id => if id ∈ removed then [] else h id

/-- The copies after the first one find their sources as they were. -/
lemma Histories.copied_cons {h : Histories} {onlyNewest : Bool} {c : CopiedNode}
    {rest : List CopiedNode} (hnew : c.destination ∉ rest.map CopiedNode.destination)
    (hapart : ∀ d ∈ rest, d.source ≠ c.destination) :
    Histories.copied (Function.update h c.destination
        (if onlyNewest then (h c.source).take 1 else h c.source)) onlyNewest rest =
      h.copied onlyNewest (c :: rest) := by
  funext id
  unfold Histories.copied
  by_cases hid : c.destination = id
  · subst hid
    have hnone : (rest.find? fun d => d.destination == c.destination) = none := by
      refine List.find?_eq_none.2 ?_
      intro d hd e
      exact hnew (beq_iff_eq.1 e ▸ List.mem_map_of_mem hd)
    have hfirst : ((c :: rest).find? fun d => d.destination == c.destination) = some c :=
      List.find?_cons_of_pos (beq_self_eq_true _)
    rw [hnone, hfirst]
    exact Function.update_self _ _ _
  · rw [List.find?_cons_of_neg (by simpa using hid)]
    cases hfind : rest.find? fun d => d.destination == id with
    | none => exact Function.update_of_ne (Ne.symm hid) _ _
    | some d =>
      have hd : d.source ≠ c.destination := hapart d (List.mem_of_find?_eq_some hfind)
      simp only [Function.update_of_ne hd]

namespace Operation

/-- What an operation with this answer does to the lists of blobs. -/
def record (op : Operation) (answer : Answer) (h : Histories) : Histories :=
  match op, answer with
  | createFile _ _ _, .file f => Function.update h f.node.id [f.version.blob]
  | addVersion node _ _, .version v => Function.update h node.id (v.blob :: h node.id)
  | removeVersion node blob, _ => Function.update h node.id ((h node.id).erase blob)
  | copy _ _ onlyNewest, .copies cs => h.copied onlyNewest (cs.filter fun c => c.kind == .file)
  | remove _ _, .removal r => fun id => if id ∈ r.removed then [] else h id
  | _, _ => h

/-- The times that an operation with this answer gives to an upload and to links, in the order in
which they are taken. -/
def stamps (env : Env) (op : Operation) (answer : Answer) : List Instant :=
  match op, answer with
  | createFile _ _ _, _ => [env.now 1, env.now 2]
  | addVersion _ _ _, _ => [env.now 0, env.now 1]
  | copy _ _ _, .copies cs =>
    (List.range' 1 (cs.filter fun c => c.kind == .file).length).map env.now
  | _, _ => []

end Operation

namespace Step

/-- The lists of blobs after a step. A failed one leaves them alone. -/
def record (s : Step) (a : Archive) (h : Histories) : Histories :=
  match (s.operation.run s.env s.owner a).1 with
  | .ok answer => s.operation.record answer h
  | .error _ => h

/-- The times that a step gives to an upload and to links. A failed one leaves none behind. -/
def stamps (s : Step) (a : Archive) : List Instant :=
  match (s.operation.run s.env s.owner a).1 with
  | .ok answer => s.operation.stamps s.env answer
  | .error _ => []

end Step

namespace Archive

/-- The lists of blobs after a history of operations. -/
def histories : List Step → Archive → Histories → Histories
  | [], _, h => h
  | s :: rest, a, h => histories rest (s.apply a) (s.record a h)

/-- The times that a history of operations gives to uploads and links, in the order in which they
are taken. -/
def stamps : List Step → Archive → List Instant
  | [], _ => []
  | s :: rest, a => s.stamps a ++ stamps rest (s.apply a)

end Archive

/-! ## Tables that follow the lists -/

namespace Tables

variable {t t' : Tables} {h h' : Histories} {used used' : List Instant} {env : Env}
  {owner : OwnerId}

/-- The versions of every node are those of its list, and their times are among those given. -/
structure Follows (h : Histories) (used : List Instant) (t : Tables) : Prop where
  listed : ∀ id, ∃ vs, t.Listed id vs ∧ vs.map Version.blob = h id
  uploads : ∀ b ∈ t.blobs, b.uploadedAt ∈ used
  links : ∀ l ∈ t.links, l.linkedAt ∈ used

namespace Follows

/-- Tables without rows follow empty lists, and no time has been given. -/
lemma empty : Follows (fun _ => []) [] .empty := by
  refine ⟨?_, ?_, ?_⟩
  · intro id
    refine ⟨[], .nil ?_, rfl⟩
    intro l hl
    cases hl
  · intro b hb
    cases hb
  · intro l hl
    cases hl

/-- Only blobs and links matter. -/
lemma of_eq (hf : t.Follows h used) (hl : t'.links = t.links) (hb : t'.blobs = t.blobs) :
    t'.Follows h used := by
  refine ⟨?_, hb ▸ hf.uploads, hl ▸ hf.links⟩
  intro id
  obtain ⟨vs, hvs, e⟩ := hf.listed id
  exact ⟨vs, hvs.of_eq hl hb, e⟩

/-- A node without links has an empty list. -/
lemma eq_nil (hf : t.Follows h used) {id : NodeId} (hn : ∀ l ∈ t.links, l.node ≠ id) :
    h id = [] := by
  obtain ⟨vs, hvs, e⟩ := hf.listed id
  have hnone : vs = [] := by
    refine List.eq_nil_iff_forall_not_mem.2 ?_
    intro v hv
    obtain ⟨hmem, hid⟩ := (hvs.mem v).1 hv
    exact hn v.toLink (mem_versions.1 hmem).1 hid
  rw [← e, hnone]
  rfl

/-! ### Uploads -/

/-- **A new version** is uploaded and linked after all others, so it comes in front. -/
theorem addVersion (hf : t.Follows h used) (hc : t.Counted) {uploaded linked : Instant}
    (hclock : (used ++ [uploaded, linked]).Pairwise Instant.Before) {node : NodeId}
    {blob : BlobId} {info : BlobInfo} {v : Version}
    (e : t.addVersion uploaded linked owner node blob info = (.ok v, t')) :
    t'.Follows (Function.update h node (v.blob :: h node)) (used ++ [uploaded, linked]) := by
  rcases hc.addVersion_eq owner linked uploaded node blob info with
    ⟨_, -, e'⟩ | ⟨-, -, hb, e'⟩ <;> rw [e] at e'
  · simp at e'
  · simp only [Prod.mk.injEq, Except.ok.injEq] at e'
    obtain ⟨rfl, rfl⟩ := e'
    have hlater := (List.pairwise_append.1 hclock).2.2
    have huploaded : ∀ i ∈ used, i.Before uploaded := by
      intro i hi
      exact hlater i hi uploaded (by simp)
    have hlinked : ∀ i ∈ used, i.Before linked := by
      intro i hi
      exact hlater i hi linked (by simp)
    refine ⟨?_, ?_, ?_⟩
    · intro id
      obtain ⟨vs, hvs, hblobs⟩ := hf.listed id
      by_cases hid : id = node
      · subst hid
        refine ⟨_, hvs.cons (l := ⟨id, blob, linked⟩) hc hb rfl rfl rfl ?_ ?_, ?_⟩
        · intro v hv
          exact huploaded _ (hf.uploads _ (mem_versions.1 ((hvs.mem v).1 hv).1).2)
        · intro v hv
          exact hlinked _ (hf.links _ (mem_versions.1 ((hvs.mem v).1 hv).1).1)
        · rw [List.map_cons, hblobs, Function.update_self]
          rfl
      · refine ⟨vs, hvs.cons_of_ne hc hb rfl rfl rfl hid, ?_⟩
        rw [hblobs, Function.update_of_ne hid]
    · intro b hmem
      rcases List.mem_cons.1 hmem with rfl | hmem
      · simp
      · exact List.mem_append_left _ (hf.uploads b hmem)
    · intro l hmem
      rcases List.mem_cons.1 hmem with rfl | hmem
      · simp
      · exact List.mem_append_left _ (hf.links l hmem)

/-- **A new file** has its first version only. -/
theorem recordFile (hf : t.Follows h used) (hs : t.Sound)
    (hclock : (used ++ [env.now 1, env.now 2]).Pairwise Instant.Before) {path : Path}
    {info : BlobInfo} {file : CreatedFile}
    (e : Archive.recordFile env owner path info t = (.ok file, t')) :
    t'.Follows (Function.update h file.node.id [file.version.blob])
      (used ++ [env.now 1, env.now 2]) := by
  obtain ⟨t₁, hn, hv⟩ := Archive.recordFile_steps e
  obtain ⟨hi, -⟩ := createNode_ok hn
  have hnew := hs.linked.not_mem_of_insertNodes hs.keyed (insertNodes_singleton hi)
  have hempty : h file.node.id = [] := by
    refine hf.eq_nil ?_
    intro l hl e
    exact hnew l hl (by simp [e])
  obtain rfl := (insertNode_eq_ok.1 hi).2.2
  have hf₁ : Follows h used { t with nodes := file.node :: t.nodes } := hf.of_eq rfl rfl
  have hadded := hf₁.addVersion hs.counted.withNodes hclock hv
  rwa [hempty] at hadded

end Follows

/-! ### Copies -/

section Copies

variable {onlyNewest : Bool} {node : Node} {target : Path}

/-- Of a file whose versions are listed, a copy gets all of them, or the first one alone. -/
lemma mem_copiedVersions (hs : t.Sound) {source : NodeId} {vs : List Version}
    (hvs : t.Listed source vs) (hfile : t.hasKind owner source .file = true) (v : Version) :
    v ∈ t.copiedVersions owner onlyNewest source ↔
      v ∈ if onlyNewest = true then vs.take 1 else vs := by
  unfold copiedVersions
  split
  · rw [newestVersions, hvs.history_eq hs.linked hs.keyed hfile]
  · rw [hs.linked.mem_versionsOf hs.keyed hfile, hvs.mem]

namespace Follows

/-- Links of one time to versions that were there, in the order of their uploads. -/
lemma relinked (hf : t.Follows h used) (hk : t.Keyed) {target : NodeId} {time : Instant}
    {us ws : List Version} (hs : us.Pairwise Version.Newer) (hu : ∀ v ∈ us, v ∈ t.versions)
    (hw : ∀ v, v ∈ ws ↔ v ∈ us) (hnew : ∀ l ∈ t.links, l.node ≠ target)
    (hi : t.insertLinks (ws.map fun v => ⟨target, v.blob, time⟩) = .ok t') :
    t'.Follows (Function.update h target (us.map Version.blob)) (used ++ [time]) := by
  refine ⟨?_, ?_, ?_⟩
  · intro id
    by_cases hid : id = target
    · subst hid
      refine ⟨_, Listed.relinked hk hs hu hw hnew hi, ?_⟩
      rw [Function.update_self, List.map_map]
      rfl
    · obtain ⟨vs, hvs, hblobs⟩ := hf.listed id
      refine ⟨vs, hvs.relinked_of_ne hid hi, ?_⟩
      rw [hblobs, Function.update_of_ne hid]
  · rw [eq_of_insertLinks hi]
    intro b hb
    exact List.mem_append_left _ (hf.uploads b hb)
  · rw [eq_of_insertLinks hi]
    intro l hl
    rcases List.mem_append.1 hl with hl | hl
    · obtain ⟨v, -, rfl⟩ := List.mem_map.1 (List.mem_reverse.1 hl)
      simp
    · exact List.mem_append_left _ (hf.links l hl)

/-- A copy that is linked to versions of its source. -/
lemma linkCopy (hf : t.Follows h used) (hs : t.Sound) {source target : NodeId} {time : Instant}
    (hsource : t.hasKind owner source .file = true) (hnew : ∀ l ∈ t.links, l.node ≠ target)
    (hi : t.insertLinks ((t.copiedVersions owner onlyNewest source).map fun v =>
      ⟨target, v.blob, time⟩) = .ok t') :
    t'.Follows (Function.update h target (if onlyNewest then (h source).take 1 else h source))
      (used ++ [time]) := by
  obtain ⟨vs, hvs, hblobs⟩ := hf.listed source
  have hsub : (if onlyNewest = true then vs.take 1 else vs).Sublist vs := by
    split
    · exact List.take_sublist 1 vs
    · exact List.Sublist.refl vs
  have hmem : ∀ v ∈ if onlyNewest = true then vs.take 1 else vs, v ∈ t.versions := by
    intro v hv
    exact ((hvs.mem v).1 (hsub.subset hv)).1
  have hlist : (if onlyNewest = true then vs.take 1 else vs).map Version.blob =
      if onlyNewest then (h source).take 1 else h source := by
    rw [← hblobs, ← List.map_take]
    split <;> rfl
  rw [← hlist]
  exact hf.relinked hs.keyed (hvs.sorted.sublist hsub) hmem
    (mem_copiedVersions hs hvs hsource) hnew hi

/-- **Copies** are linked one after the other, and have the lists of their sources.

**Proof sketch.** Induction on the copies. The first one is linked to versions of its source, which
is none of the copies, so that the others find their sources as they were. -/
theorem linkCopies (hf : t.Follows h used) (hs : t.Sound) {k : Nat} {copies : List CopiedNode}
    (hsource : ∀ c ∈ copies, t.hasKind owner c.source .file = true)
    (hnew : ∀ c ∈ copies, ∀ l ∈ t.links, l.node ≠ c.destination)
    (hnodup : (copies.map CopiedNode.destination).Nodup)
    (hapart : ∀ c ∈ copies, ∀ d ∈ copies, d.source ≠ c.destination)
    (e : Archive.linkCopies env owner onlyNewest k copies t = (.ok (), t')) :
    t'.Follows (h.copied onlyNewest copies)
      (used ++ (List.range' k copies.length).map env.now) := by
  induction copies generalizing k t h used with
  | nil =>
    obtain rfl := (Prod.mk.inj e).2
    rw [List.length_nil, List.range'_zero, List.map_nil, List.append_nil]
    exact hf
  | cons c rest ih =>
    obtain ⟨t₁, hi, hruns, hrest⟩ := linkCopies_cons e
    rw [List.forall_mem_cons] at hsource hnew
    rw [List.map_cons, List.nodup_cons] at hnodup
    have hf₁ := hf.linkCopy hs hsource.1 hnew.1 hi
    have hapart₁ : ∀ d ∈ rest, d.source ≠ c.destination := by
      intro d hd
      exact hapart c List.mem_cons_self d (List.mem_cons_of_mem _ hd)
    have hnew₁ : ∀ d ∈ rest, ∀ l ∈ t₁.links, l.node ≠ d.destination := by
      rw [eq_of_insertLinks hi]
      intro d hd l hl
      rcases List.mem_append.1 hl with hl | hl
      · obtain ⟨v, -, rfl⟩ := List.mem_map.1 (List.mem_reverse.1 hl)
        intro heq
        exact hnodup.1 (List.mem_map.2 ⟨d, hd, heq.symm⟩)
      · exact hnew.2 d hd l hl
    have hsource₁ : ∀ d ∈ rest, t₁.hasKind owner d.source .file = true := by
      rw [eq_of_insertLinks hi]
      exact hsource.2
    have hall := ih hf₁ (hs.ofKeeps hruns) hsource₁ hnew₁ hnodup.2 (fun d hd d' hd' =>
      hapart d (List.mem_cons_of_mem _ hd) d' (List.mem_cons_of_mem _ hd')) hrest
    rw [Histories.copied_cons hnodup.1 hapart₁, List.append_assoc] at hall
    rw [List.length_cons, List.range'_succ]
    exact hall

end Follows

/-- **A copy** of a file, or of a directory with the files in it. -/
theorem Follows.copyStatements (hf : t.Follows h used) (hs : t.Sound) {copies : List CopiedNode}
    (e : Archive.copyStatements env owner node target onlyNewest t = (.ok copies, t')) :
    t'.Follows (h.copied onlyNewest (copies.filter fun c => c.kind == .file))
      (used ++ (List.range' 1 (copies.filter fun c => c.kind == .file).length).map env.now) := by
  obtain ⟨-, t₁, hcopy, hlink⟩ := copyStatements_steps e
  have hruns := Archive.copyNodes_runsTo env owner t node target
  rw [hcopy] at hruns
  have hcopied := copyNodes_ok hcopy
  obtain ⟨hnodup, hnew, hapart⟩ := hcopied.apart hs
  obtain ⟨rows, hi, -, hsource⟩ := hcopied
  have ht₁ := eq_of_insertNodes hi
  have hf₁ : t₁.Follows h used := hf.of_eq (by rw [ht₁]) (by rw [ht₁])
  have hmem {c : CopiedNode} (hc : c ∈ copies.filter fun c => c.kind == .file) :
      c ∈ copies ∧ c.kind = .file := by simpa using hc
  refine hf₁.linkCopies (hs.ofKeeps hruns) ?_ ?_ ?_ ?_ hlink
  · intro c hc
    obtain ⟨hc, hkind⟩ := hmem hc
    obtain ⟨n, hn, hid, ho, hk⟩ := hasKind_iff.1 (hsource c hc)
    rw [ht₁]
    exact hasKind_iff.2 ⟨n, List.mem_append_right _ hn, hid, ho, hk.trans hkind⟩
  · exact fun c hc => hnew c (hmem hc).1
  · exact hnodup.sublist (List.filter_sublist.map _)
  · exact fun c hc d hd => hapart c (hmem hc).1 d (hmem hd).1

end Copies

/-! ### Removals -/

section Removals

variable {node : Node} {recursive : Bool} {removed : List NodeId} {orphaned : List BlobId}

/-- Links that are dropped take their blobs out of the lists. -/
lemma Follows.dropLinks (hf : t.Follows h used) {p : Link → Bool} {q : NodeId → BlobId → Bool}
    (hp : ∀ l ∈ t.links, p l = q l.node l.blob) :
    (t.dropLinks p).Follows (fun id => (h id).filter (!q id ·)) used := by
  refine ⟨?_, ?_, ?_⟩
  · intro id
    obtain ⟨vs, hvs, hblobs⟩ := hf.listed id
    refine ⟨_, hvs.dropLinks (q := q id) ?_, ?_⟩
    · rintro l hl rfl
      exact hp l hl
    · rw [← hblobs, List.filter_map]
      rfl
  · intro b hb
    exact hf.uploads b (blobs_dropLinks_subset b hb)
  · intro l hl
    exact hf.links l (List.mem_filter.1 hl).1

/-- No list has a blob twice. -/
lemma Follows.nodup (hf : t.Follows h used) (hk : t.Keyed) (id : NodeId) : (h id).Nodup := by
  obtain ⟨vs, hvs, hblobs⟩ := hf.listed id
  exact hblobs ▸ hvs.nodup_blobs hk

/-- **A removed version** leaves the list of its node. -/
theorem Follows.removeVersionStatements (hf : t.Follows h used) (hk : t.Keyed) {node : NodeId}
    {blob : BlobId}
    (e : Archive.removeVersionStatements env owner node blob t = (.ok orphaned, t')) :
    t'.Follows (Function.update h node ((h node).erase blob)) used := by
  obtain ⟨-, hdrop, -, rfl⟩ := Archive.removeVersionStatements_steps e
  rw [hdrop, queueDeletes_frame]
  have hdropped := hf.dropLinks (p := fun l => l.node == node && l.blob == blob)
    (q := fun id b => id == node && b == blob) fun l _ => rfl
  have hlists : (fun id => (h id).filter fun b => !(id == node && b == blob)) =
      Function.update h node ((h node).erase blob) := by
    funext id
    by_cases hid : id = node
    · subst hid
      rw [Function.update_self, (hf.nodup hk id).erase_eq_filter]
      simp [bne]
    · rw [Function.update_of_ne hid]
      simp [hid]
  rw [hlists] at hdropped
  exact hdropped.of_eq rfl rfl

/-- Removed nodes are gone. -/
lemma Keyed.not_mem_removeNodes (hk : t.Keyed)
    (e : Archive.removeNodes owner node recursive t = (removed, t')) :
    ∀ n ∈ t'.nodes, n.id ∉ removed := by
  unfold Archive.removeNodes at e
  cases recursive with
  | true =>
    simp only [if_true] at e
    unfold Tables.removeSubtree at e
    split at e
    · obtain ⟨rfl, -⟩ := Prod.mk.inj e
      simp
    · obtain ⟨rfl, rfl⟩ := Prod.mk.inj e
      intro n hn hid
      obtain ⟨hn, hleft⟩ := List.mem_filter.1 hn
      obtain ⟨m, hm, e⟩ := List.mem_map.1 hid
      obtain ⟨hm, ho, hc⟩ := mem_subtree.1 hm
      obtain rfl := hk.nodes.eq_of_id hm hn e
      simp [ho, hc] at hleft
  | false =>
    simp only [Bool.false_eq_true, if_false] at e
    unfold Tables.removeLeaf at e
    split at e
    · obtain ⟨rfl, -⟩ := Prod.mk.inj e
      simp
    · split at e
      · obtain ⟨rfl, rfl⟩ := Prod.mk.inj e
        intro n hn
        simpa using (List.mem_filter.1 hn).2
      · obtain ⟨rfl, -⟩ := Prod.mk.inj e
        simp

/-- The unlinking of nodes takes rows away only. -/
lemma sublist_unlinkNodes (owner : OwnerId) (ids : List NodeId) (t : Tables) :
    (Archive.unlinkNodes owner ids t).2.blobs.Sublist t.blobs ∧
      (Archive.unlinkNodes owner ids t).2.links.Sublist t.links := by
  induction ids generalizing t with
  | nil => exact ⟨.refl _, .refl _⟩
  | cons id rest ih =>
    obtain ⟨hblobs, hlinks⟩ := ih (t.unlinkAll owner id).2
    exact ⟨hblobs.trans List.filter_sublist, hlinks.trans List.filter_sublist⟩

/-- The unlinking of nodes leaves the versions of others. -/
lemma Listed.unlinkNodes {ids : List NodeId} {id : NodeId} {vs : List Version}
    (hvs : t.Listed id vs) (hid : id ∉ ids) :
    (Archive.unlinkNodes owner ids t).2.Listed id vs := by
  induction ids generalizing t with
  | nil => exact hvs
  | cons first rest ih =>
    rw [List.mem_cons, not_or] at hid
    refine ih (hvs.dropLinks_of_none ?_) hid.2
    rintro l - rfl
    simp [hid.1]

/-- **Removed nodes** lose their lists, and the others keep theirs. -/
theorem Follows.removeStatements (hf : t.Follows h used) (hs : t.Sound)
    (e : Archive.removeStatements env owner node recursive t = (.ok (removed, orphaned), t')) :
    t'.Follows (h.without removed) used := by
  have hlinked : t'.Linked := hs.linked_removeStatements env owner node recursive e
  have hsame : (Archive.removeNodes owner node recursive t).2.links = t.links ∧
      (Archive.removeNodes owner node recursive t).2.blobs = t.blobs := by
    rw [removeNodes_frame]
    exact ⟨rfl, rfl⟩
  obtain ⟨t₁, hn, -, rfl⟩ := Archive.removeStatements_steps e
  have hgone := hs.keyed.not_mem_removeNodes hn
  rw [hn] at hsame
  obtain ⟨hblobs, hlinks⟩ := sublist_unlinkNodes owner removed t₁
  have hf₁ : t₁.Follows h used := hf.of_eq hsame.1 hsame.2
  rw [queueDeletes_frame] at hlinked ⊢
  refine ⟨?_, ?_, ?_⟩
  · intro id
    by_cases hid : id ∈ removed
    · refine ⟨[], .nil ?_, by simp [Histories.without, hid]⟩
      rintro l hl rfl
      obtain ⟨o, -, hfile⟩ := hlinked l hl
      obtain ⟨n, hmem, hnid, -⟩ := hasKind_iff.1 hfile
      change n ∈ (Archive.unlinkNodes owner removed t₁).2.nodes at hmem
      rw [Archive.nodes_unlinkNodes] at hmem
      rw [← hnid] at hid
      exact hgone n hmem hid
    · obtain ⟨vs, hvs, hmap⟩ := hf₁.listed id
      refine ⟨vs, (hvs.unlinkNodes hid).of_eq rfl rfl, ?_⟩
      rw [hmap, Histories.without, if_neg hid]
  · intro b hb
    exact hf₁.uploads b (hblobs.subset hb)
  · intro l hl
    exact hf₁.links l (hlinks.subset hl)

end Removals

end Tables

/-! ## Steps -/

section Steps

variable {a : Archive} {h : Histories} {used : List Instant} {env : Env} {owner : OwnerId}

namespace Operation

/-- **An operation that succeeds** does to the versions of all nodes what its record says.

**Proof sketch.** Creation of containers and moves touch neither blobs nor links. An upload comes
in front, as it is later than all times that were given before; a copy is linked to the versions of
its source; a removal takes out one version, or all versions of the nodes that are gone. -/
theorem follows (hs : a.tables.Sound) (hf : a.tables.Follows h used) {op : Operation}
    {x : Answer} (hx : (op.run env owner a).1 = .ok x)
    (hclock : (used ++ op.stamps env x).Pairwise Instant.Before) :
    (op.run env owner a).2.tables.Follows (op.record x h) (used ++ op.stamps env x) := by
  have hnodes {α : Type} {body : Tables → Except ArchiveError α × Tables}
      (hframe : (body a.tables).2 = { a.tables with nodes := (body a.tables).2.nodes }) :
      (a.withTables (a.tables.transact body)).2.tables.Follows h (used ++ []) := by
    have hlinks : (body a.tables).2.links = a.tables.links := by rw [hframe]
    have hblobs : (body a.tables).2.blobs = a.tables.blobs := by rw [hframe]
    rw [List.append_nil]
    rcases a.withTables_transact_cases body with ⟨e, hr⟩ | ⟨x, t', hbody, -, hr⟩ <;> rw [hr]
    · exact hf
    · rw [hbody] at hlinks hblobs
      exact hf.of_eq hlinks hblobs
  have hsame : a.tables.Follows h (used ++ []) := by rwa [List.append_nil]
  cases op with
  | createRoot => exact hnodes (Tables.createNode_frame owner _ a.tables _ .root .root)
  | createDirectory path => exact hnodes (Tables.createNode_frame owner _ a.tables _ path .dir)
  | createFile path info stream =>
    obtain ⟨file, hfile, rfl⟩ := ok_of_answer hx
    change (a.createFile env owner path info stream).2.tables.Follows _ _
    obtain ⟨p, -, ⟨e, hr⟩ | ⟨bytes, file', t', -, -, -, hrec, -, hr⟩⟩ :=
      a.createFile_cases env owner path info stream <;> rw [hr] at hfile ⊢
    · cases hfile
    · obtain rfl := Except.ok.inj hfile
      exact hf.recordFile hs hclock hrec
  | addVersion node info stream =>
    obtain ⟨v, hv, rfl⟩ := ok_of_answer hx
    change (a.addVersion env owner node info stream).2.tables.Follows _ _
    obtain ⟨p, -, ⟨e, hr⟩ | ⟨bytes, v', t', -, -, -, hrec, -, hr⟩⟩ :=
      a.addVersion_cases env owner node info stream <;> rw [hr] at hv ⊢
    · cases hv
    · obtain rfl := Except.ok.inj hv
      exact hf.addVersion hs.counted hclock hrec
  | move node target => exact hnodes (Tables.moveStatement_frame owner node target a.tables)
  | copy node target onlyNewest =>
    obtain ⟨copies, hcopies, rfl⟩ := ok_of_answer hx
    change (a.copy env owner node target onlyNewest).2.tables.Follows _ _
    unfold Archive.copy at hcopies ⊢
    rcases a.withTables_transact_cases (Archive.copyStatements env owner node target onlyNewest)
      with ⟨e, hr⟩ | ⟨copies', t', hbody, -, hr⟩ <;> rw [hr] at hcopies ⊢
    · cases hcopies
    · obtain rfl := Except.ok.inj hcopies
      exact hf.copyStatements hs hbody
  | remove node recursive =>
    obtain ⟨r, hremoved, rfl⟩ := ok_of_answer hx
    change (a.remove env owner node recursive).2.tables.Follows _ (used ++ [])
    rw [List.append_nil]
    rcases a.remove_cases env owner node recursive with
      ⟨e, hr⟩ | ⟨removed, orphaned, t', hbody, -, hr⟩ <;> rw [hr] at hremoved ⊢
    · cases hremoved
    · obtain rfl := Except.ok.inj hremoved
      exact (hf.removeStatements hs hbody).of_eq rfl rfl
  | removeVersion node blob =>
    obtain ⟨r, hremoved, rfl⟩ := ok_of_answer hx
    change (a.removeVersion env owner node blob).2.tables.Follows _ (used ++ [])
    rw [List.append_nil]
    rcases a.removeVersion_cases env owner node blob with
      ⟨e, hr⟩ | ⟨orphaned, t', hbody, -, hr⟩ <;> rw [hr] at hremoved ⊢
    · cases hremoved
    · exact (hf.removeVersionStatements hs.keyed hbody).of_eq rfl rfl
  | sweep limit =>
    change (Archive.releaseAll env _ a).2.tables.Follows h (used ++ [])
    rw [Archive.releaseAll_frame]
    exact hsame.of_eq rfl rfl
  | _ => exact hsame

end Operation

/-- **Every step** whose times are later than all that were given before. -/
theorem Step.follows (hs : a.tables.Sound) (hf : a.tables.Follows h used) {s : Step}
    (hclock : (used ++ s.stamps a).Pairwise Instant.Before) :
    (s.apply a).tables.Follows (s.record a h) (used ++ s.stamps a) := by
  unfold Step.stamps at hclock ⊢
  unfold Step.record
  cases hr : (s.operation.run s.env s.owner a).1 with
  | error e =>
    rw [Step.tables_of_error hr, List.append_nil]
    exact hf
  | ok x =>
    rw [hr] at hclock
    exact Operation.follows hs hf hr hclock

namespace Archive

/-- **Every history** of operations whose times go on. -/
theorem follows_after (history : List Step) (hs : a.tables.Sound) (hf : a.tables.Follows h used)
    (hclock : (used ++ stamps history a).Pairwise Instant.Before) :
    (a.after history).tables.Follows (histories history a h) (used ++ stamps history a) := by
  induction history generalizing a h used with
  | nil =>
    rw [stamps, List.append_nil]
    exact hf
  | cons s rest ih =>
    rw [stamps, ← List.append_assoc] at hclock ⊢
    have hstep := Step.follows hs hf (List.pairwise_append.1 hclock).1
    exact ih (s.operation.sound s.env s.owner hs) hstep hclock

/-! ## Listings -/

/-- The first page of a file. -/
lemma firstPage_of_follows (hs : a.tables.Sound) (hf : a.tables.Follows h used) {f : Node}
    (hmem : f ∈ a.tables.nodes) (hfile : f.kind = .file) {claimed : Node} (hid : claimed.id = f.id)
    (hkind : claimed.kind = .file) (limit : Nat) :
    ∃ page, a.firstPage f.owner claimed limit = .ok page ∧
      page.versions.map Version.blob = (h f.id).take limit ∧ page.total = (h f.id).length := by
  have hk : a.tables.hasKind f.owner f.id .file = true :=
    Tables.hasKind_iff.2 ⟨f, hmem, rfl, rfl, hfile⟩
  obtain ⟨vs, hvs, hblobs⟩ := hf.listed f.id
  have hhistory := hvs.history_eq hs.linked hs.keyed hk
  refine ⟨⟨vs.take limit, vs.length⟩, ?_, ?_, ?_⟩
  · unfold firstPage
    rw [hid, hvs.countVersions_eq hs.linked hs.keyed hk, Tables.newestVersions, hhistory]
    simp [hkind]
  · rw [← hblobs, List.map_take]
  · rw [← hblobs, List.length_map]

/-- The newest version of a child. -/
lemma newest_of_follows (hs : a.tables.Sound) (hf : a.tables.Follows h used) {n : Node}
    (hmem : n ∈ a.tables.nodes) :
    (a.entry n.owner n).newest.map Version.blob =
      if n.kind = .file then (h n.id).head? else none := by
  unfold entry
  by_cases hfile : n.kind = .file
  · have hk : a.tables.hasKind n.owner n.id .file = true :=
      Tables.hasKind_iff.2 ⟨n, hmem, rfl, rfl, hfile⟩
    obtain ⟨vs, hvs, hblobs⟩ := hf.listed n.id
    have hhistory := hvs.history_eq hs.linked hs.keyed hk
    have hnewest : (a.tables.newestVersions n.owner n.id 1).head? = vs.head? := by
      rw [Tables.newestVersions, hhistory]
      cases vs <;> rfl
    simp only [hfile, beq_self_eq_true, if_true]
    rw [hnewest, ← hblobs, List.head?_map]
  · simp [hfile]

/-- **Listings show the histories of files.** After every history of operations in which the times
given to uploads and links go on, the first page of every file has the first blobs of its list, in
their order, and the length of it. A listing of children has the head of the list with every file,
if there is one, and no version with other nodes. If the places to be filled are valid, every file
is listed, at the place above it.

**Proof sketch.** Of any two versions of a node, the one that was uploaded later was not linked
earlier. New versions are later in both respects, and a full copy is linked at one time, where the
order goes by uploads. So listings, which are sorted by links and then by uploads, are in the order
of uploads, and this is the order of the lists. -/
theorem histories_refined (history : List Step)
    (hclock : (stamps history .empty).Pairwise Instant.Before) :
    let a := Archive.empty.after history
    let h := histories history .empty fun _ => []
    (∀ f ∈ a.tables.nodes, f.kind = .file → ∀ claimed : Node, claimed.id = f.id →
      claimed.kind = .file → ∀ limit, ∃ page, a.firstPage f.owner claimed limit = .ok page ∧
        page.versions.map Version.blob = (h f.id).take limit ∧
        page.total = (h f.id).length) ∧
    (∀ owner path entries, a.list owner path = .ok entries → ∀ e ∈ entries,
      e.newest.map Version.blob = if e.node.kind = .file then (h e.node.id).head? else none) ∧
    ((∀ s ∈ history, ∀ p ∈ s.operation.target?, p.Valid) →
      ∀ f ∈ a.tables.nodes, f.kind = .file → ∃ q entries, f.path.parent = some q ∧
        a.list f.owner q = .ok entries ∧ ∃ e ∈ entries, e.node = f) := by
  intro a h
  have hs : a.tables.Sound := Archive.sound history
  have hf : a.tables.Follows h (stamps history .empty) := by
    have hafter := follows_after history .empty .empty (by rwa [List.nil_append])
    rwa [List.nil_append] at hafter
  refine ⟨?_, ?_, ?_⟩
  · intro f hmem hfile claimed hid hkind limit
    exact firstPage_of_follows hs hf hmem hfile hid hkind limit
  · intro owner path entries hlist e he
    obtain ⟨n, hn, rfl, rfl⟩ := of_mem_list hlist he
    rw [newest_of_follows hs hf hn, entry_node]
  · intro ht f hmem hfile
    exact list_above hs.forest (valid_after history ht) hmem (by simp [hfile])

end Archive

end Steps

/-! ### Copies of copies -/

/-- A supply of numbered identifiers with a clock that goes on. -/
def Env.ticking (n : Nat) : Env := { Env.numbered n with now := fun k => ⟨100 * n + k⟩ }

namespace Step

/-- The file of the given number at a place. -/
def fileAt (n : Nat) (place : String) : Node :=
  ⟨⟨.ofNat n⟩, .file, ⟨place⟩, ⟨.ofNat 1⟩, default⟩

/-- The newest version of a file is copied. The copy gets another version and is copied whole. The
second copy gets a third version and loses its second one, and the first file is removed. -/
def copyCopies : List Step :=
  let owner : OwnerId := ⟨.ofNat 1⟩
  [⟨.ticking 1, owner, .createRoot⟩,
    ⟨.ticking 2, owner, .createFile ⟨"a"⟩ ⟨"sum", 1⟩ [.data ⟨#[2]⟩]⟩,
    ⟨.ticking 3, owner, .copy (fileAt 200 "a") ⟨"b"⟩ true⟩,
    ⟨.ticking 4, owner, .addVersion (fileAt 300 "b") ⟨"sum", 1⟩ [.data ⟨#[4]⟩]⟩,
    ⟨.ticking 5, owner, .copy (fileAt 300 "b") ⟨"c"⟩ false⟩,
    ⟨.ticking 6, owner, .addVersion (fileAt 500 "c") ⟨"sum", 1⟩ [.data ⟨#[6]⟩]⟩,
    ⟨.ticking 7, owner, .removeVersion (fileAt 500 "c") ⟨.ofNat 4⟩⟩,
    ⟨.ticking 8, owner, .remove (fileAt 200 "a") false⟩]

end Step

namespace Archive

/-- Both copies are listed with their own histories. -/
theorem histories_refined_copies :
    let a := empty.after Step.copyCopies
    let first := Step.fileAt 300 "b"
    let second := Step.fileAt 500 "c"
    (∃ page, a.firstPage first.owner first 9 = .ok page ∧
      page.versions.map Version.blob = [⟨.ofNat 4⟩, ⟨.ofNat 2⟩] ∧ page.total = 2) ∧
    (∃ page, a.firstPage second.owner second 1 = .ok page ∧
      page.versions.map Version.blob = [⟨.ofNat 6⟩] ∧ page.total = 2) ∧
    ∃ entries, a.list second.owner .root = .ok entries ∧
      ∃ e ∈ entries, e.node.id = second.id ∧ e.newest.map Version.blob = some ⟨.ofNat 6⟩ := by
  intro a first second
  have hclock : (stamps Step.copyCopies .empty).Pairwise Instant.Before := by decide +kernel
  have hvalid : ∀ s ∈ Step.copyCopies, ∀ p ∈ s.operation.target?, p.Valid := by
    have hplaces : Step.copyCopies.filterMap (fun s => s.operation.target?) =
        [⟨"a"⟩, ⟨"b"⟩, ⟨"c"⟩] := rfl
    intro s hs p hp
    have hmem : p ∈ Step.copyCopies.filterMap fun s => s.operation.target? :=
      List.mem_filterMap.2 ⟨s, hs, hp⟩
    rw [hplaces] at hmem
    simp only [List.mem_cons, List.not_mem_nil, or_false] at hmem
    rcases hmem with rfl | rfl | rfl <;> rfl
  obtain ⟨hpages, hlists, hlisted⟩ := histories_refined Step.copyCopies hclock
  have hfirst : a.tables.hasKind first.owner first.id .file = true := by decide +kernel
  have hsecond : a.tables.hasKind second.owner second.id .file = true := by decide +kernel
  obtain ⟨f, hf, hfid, hfo, hfk⟩ := Tables.hasKind_iff.1 hfirst
  obtain ⟨g, hg, hgid, hgo, hgk⟩ := Tables.hasKind_iff.1 hsecond
  have hfh : histories Step.copyCopies .empty (fun _ => []) first.id =
      [⟨.ofNat 4⟩, ⟨.ofNat 2⟩] := by decide +kernel
  have hgh : histories Step.copyCopies .empty (fun _ => []) second.id =
      [⟨.ofNat 6⟩, ⟨.ofNat 2⟩] := by decide +kernel
  have hgp : ∀ n ∈ a.tables.nodes, n.id = second.id → n.path.parent = some .root := by
    decide +kernel
  refine ⟨?_, ?_, ?_⟩
  · have hpage := hpages f hf hfk first hfid.symm rfl 9
    rwa [hfid, hfh, hfo] at hpage
  · have hpage := hpages g hg hgk second hgid.symm rfl 1
    rwa [hgid, hgh, hgo] at hpage
  · obtain ⟨q, entries, hq, hlist, e, he, rfl⟩ := hlisted hvalid g hg hgk
    rw [hgp _ hg hgid] at hq
    obtain rfl := Option.some.inj hq
    rw [hgo] at hlist
    refine ⟨entries, hlist, e, he, hgid, ?_⟩
    rw [hlists _ _ _ hlist e he, if_pos hgk, hgid, hgh]
    rfl

end Archive

end VersionedTree
