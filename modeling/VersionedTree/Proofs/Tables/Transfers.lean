import VersionedTree.Proofs.Path.Rebasing
import VersionedTree.Proofs.Path.Siblings
import VersionedTree.Proofs.Tables.Rows

/-!
# Transfers of subtrees

What is at and below a place is found by the characters of stored texts, by their bytes, or by
labels, and its new place is made by characters, or by labels. On valid paths the three ancestries
agree, and so do the two transfers. So a copy, which selects its rows in one way and places them in
the other, passes over none of them.

## Main definitions

* `VersionedTree.Path.bytes` — the stored form, in bytes.
* `VersionedTree.Path.coversBytes` — ancestry, decided on bytes.
* `VersionedTree.Tables.Copyable` — directories that may be copied to a place.

## Main results

* `VersionedTree.Path.Valid.coversBytes_eq` — ancestry on bytes is that on characters.
* `VersionedTree.Tables.map_source_copiesOf` — every row below a place has its copy.
* `VersionedTree.Tables.copyDirectory_eq_nil_iff`, `VersionedTree.Tables.Copyable.map_source` — when
  nothing is copied, and what is copied otherwise.
* `VersionedTree.Path.subtrees_agree` — all of it at once.
-/

set_option autoImplicit false

namespace VersionedTree

/-! ## Ancestry on bytes -/

namespace Path

variable {a p d : Path}

/-- The bytes of the stored form. -/
def bytes (p : Path) : List UInt8 := p.encoded.toUTF8.data.toList

/-- Is `p` inside or at `a`? There are no bytes of `a`, or the paths are the same, or the bytes of
`p` begin with those of `a` and that of a dot. -/
def coversBytes (a p : Path) : Bool :=
  a.bytes.isEmpty || a == p || (a.bytes ++ ['.'.toUInt8]).isPrefixOf p.bytes

/-- Valid paths are written in single bytes. -/
lemma Valid.byte (hp : p.Valid) : ∀ c ∈ p.chars, c.utf8Size = 1 := by
  intro c hc
  rcases valid_iff.1 hp with hr | hlabels
  · rw [isRoot_iff.1 hr] at hc
    cases hc
  · have hparts : c ∈ (p.chars.splitOn '.').flatMap fun label => '.' :: label := by
      rw [flatMap_splitOn]
      exact List.mem_cons_of_mem _ hc
    obtain ⟨label, hl, hc⟩ := List.mem_flatMap.1 hparts
    rcases List.mem_cons.1 hc with rfl | hc
    · decide
    · exact ((hlabels label hl).byte c hc).1

/-- The bytes of a valid path are its characters. -/
lemma Valid.bytes_eq (hp : p.Valid) : p.bytes = p.chars.map Char.toUInt8 := by
  rw [← bytes_ofList hp.byte, chars, String.ofList_toList, bytes]

/-- Texts of single bytes begin with each other like their bytes. -/
lemma map_toUInt8_isPrefix_iff {cs ds : List Char} (hc : ∀ c ∈ cs, c.utf8Size = 1)
    (hd : ∀ d ∈ ds, d.utf8Size = 1) :
    cs.map Char.toUInt8 <+: ds.map Char.toUInt8 ↔ cs <+: ds := by
  induction cs generalizing ds with
  | nil => simp
  | cons c rest ih =>
    cases ds with
    | nil => simp
    | cons d more =>
      rw [List.forall_mem_cons] at hc hd
      rw [List.map_cons, List.map_cons, List.cons_prefix_cons, List.cons_prefix_cons,
        (toUInt8_lt_iff hc.1 hd.1).2, ih hc.2 hd.2]

/-- **Ancestry on bytes** is ancestry on characters. -/
theorem Valid.coversBytes_eq (ha : a.Valid) (hp : p.Valid) : a.coversBytes p = a.covers p := by
  have hdot : ∀ c ∈ a.chars ++ ['.'], c.utf8Size = 1 :=
    List.forall_mem_append.2 ⟨ha.byte, List.forall_mem_singleton.2 (by decide)⟩
  have hlonger : a.bytes ++ ['.'.toUInt8] <+: p.bytes ↔
      ∃ rest, p.chars = a.chars ++ '.' :: rest := by
    rw [ha.bytes_eq, hp.bytes_eq, ← List.map_singleton, ← List.map_append,
      map_toUInt8_isPrefix_iff hdot hp.byte]
    constructor
    · rintro ⟨rest, e⟩
      exact ⟨rest, by rw [← e, List.append_assoc, List.singleton_append]⟩
    · rintro ⟨rest, e⟩
      exact ⟨rest, by rw [e, List.append_assoc, List.singleton_append]⟩
  have hempty : a.bytes = [] ↔ a.isRoot = true := by
    rw [ha.bytes_eq, List.map_eq_nil_iff, isRoot_iff]
  rw [Bool.eq_iff_iff, covers_iff, coversBytes, Bool.or_eq_true, Bool.or_eq_true,
    List.isEmpty_iff, beq_iff_eq, List.isPrefixOf_iff_prefix, hempty, hlonger, or_assoc,
    eq_comm (a := a)]

end Path

/-! ## Copies -/

namespace Tables

/-- **Every row** at or below the source has a copy, in the order of the rows. -/
theorem map_source_copiesOf {source : Path} (target : Path) (ids : Nat → NodeId)
    {rows : List Node} (h : ∀ n ∈ rows, source.covers n.path = true) (k : Nat) :
    ((copiesOf ids source target k rows).map fun c => c.1.source) = rows.map Node.id := by
  induction rows generalizing k with
  | nil => rfl
  | cons n rest ih =>
    rw [List.forall_mem_cons] at h
    obtain ⟨path, hpath⟩ : ∃ path, n.path.rebase source target = some path := by
      rw [Path.rebase, Path.isAncestorOf_eq_covers, if_pos h.1]
      exact ⟨_, rfl⟩
    simp only [copiesOf, hpath, List.map_cons, ih h.2 (k + 1)]

/-- May this stored directory be copied to the place? It is the one that is claimed, the place is
outside of it and in a container, and no place of a copy is taken. -/
structure Copyable (ids : Nat → NodeId) (time : Instant) (owner : OwnerId) (node : Node)
    (target : Path) (t : Tables) (source : Node) : Prop where
  claimed : node.kind = .dir
  stored : t.stored? owner node.id .dir = some source
  isRoot : target.isRoot = false
  outside : source.path.covers target = false
  container : t.hasContainerAt owner target.parent = true
  free : t.insertNodes (copiedRows owner time target t ids source) ≠ .error .unique

section CopyDirectory

variable {t t' : Tables} {ids : Nat → NodeId} {time : Instant} {owner : OwnerId}
  {node source : Node} {target : Path} {copies : List CopiedNode}

/-- A copy of a directory that may be copied has all nodes at and below it. -/
lemma Copyable.map_source (h : t.Copyable ids time owner node target source)
    (e : t.copyDirectory ids time owner node target = (.ok copies, t')) :
    copies.map CopiedNode.source =
      (sortedByPath (t.subtree owner source.path)).map Node.id := by
  have hcovered : ∀ n ∈ sortedByPath (t.subtree owner source.path),
      source.path.covers n.path = true :=
    fun n hn => (mem_subtree.1 (mem_sortedByPath.1 hn)).2.2
  have hfree := h.free
  unfold copyDirectory at e
  rw [h.claimed, h.isRoot, h.stored] at e
  simp only [bne_self_eq_false, Bool.or_false, Bool.false_eq_true, if_false,
    Path.isAncestorOf_eq_covers, h.outside, h.container, if_true] at e
  cases hr : Node.readBackAll (sortedByPath (t.subtree owner source.path)) with
  | error c =>
    rw [hr] at e
    cases (Prod.mk.inj e).1
  | ok sources =>
    obtain ⟨rfl, -⟩ := Node.of_readBackAll hr
    rw [hr] at e
    rw [copiedRows] at hfree
    simp only at e
    split at e
    · obtain rfl := Except.ok.inj (Prod.mk.inj e).1
      rw [List.map_map]
      exact map_source_copiesOf target ids hcovered 0
    · next hi => exact absurd hi hfree
    · cases (Prod.mk.inj e).1

/-- **Nothing is copied** exactly if no directory may be copied. -/
lemma copyDirectory_eq_nil_iff
    (e : t.copyDirectory ids time owner node target = (.ok copies, t')) :
    copies = [] ↔ ∀ source, ¬t.Copyable ids time owner node target source := by
  constructor
  · rintro rfl source hcopyable
    obtain ⟨hmem, -, ho, -⟩ := mem_of_stored? hcopyable.stored
    have htop : source.id ∈ (sortedByPath (t.subtree owner source.path)).map Node.id :=
      List.mem_map_of_mem (mem_sortedByPath.2 (mem_subtree.2 ⟨hmem, ho, Path.covers_refl _⟩))
    rw [← hcopyable.map_source e] at htop
    cases htop
  · intro hnone
    rcases copyDirectory_answers owner time node target t ids with
      ⟨r, hr, hnil⟩ | ⟨source, t₁, hdir, hstored, hroot, hout, hcontainer, -, hi, hr⟩
    · rw [e] at hr
      obtain ⟨rfl, -⟩ := Prod.mk.inj hr
      rcases hnil with hnil | ⟨c, hnil⟩
      · exact Except.ok.inj hnil
      · cases hnil
    · rw [Path.isAncestorOf_eq_covers] at hout
      exact absurd ⟨hdir, hstored, hroot, hout, hcontainer, by rw [hi]; simp⟩ (hnone source)

end CopyDirectory

end Tables

/-! ## Ancestries and transfers -/

namespace Path

variable {a p d : Path}

/-- **Ancestries and transfers agree.** Take three texts that are accepted as paths. That one covers
another by its characters, that it does so by its bytes, that it is an ancestor of it, and that its
labels are the first ones of the other: each of these holds if one of them does. If they hold, and
neither this path nor the third one is the root, then the text that a move makes by characters is
accepted as a path, and it is the path that the transfer makes by labels. So all rows that are found
at and below a place have copies. A copy of a directory is empty exactly if the directory may not be
copied, and otherwise has a copy of each node at and below it, in the order of their places.

**Proof sketch.** An accepted path is made of its labels, which are not empty and have no dot, and
all of it are single bytes. -/
theorem subtrees_agree {atext ptext dtext : String} (ha : fromEncoded atext = .ok a)
    (hp : fromEncoded ptext = .ok p) (hd : fromEncoded dtext = .ok d) :
    (a.covers p = true ↔ a.isAncestorOf p = true) ∧
    (a.isAncestorOf p = true ↔ a.coversBytes p = true) ∧
    (a.isAncestorOf p = true ↔ a.labels <+: p.labels) ∧
    (a.covers p = true → a ≠ root → d ≠ root →
      fromEncoded (p.graft a d).encoded = .ok (p.graft a d) ∧
        p.rebase a d = some (p.graft a d)) ∧
    (∀ (ids : Nat → NodeId) (k : Nat) (rows : List Node),
      (∀ n ∈ rows, a.covers n.path = true) →
        ((Tables.copiesOf ids a d k rows).map fun c => c.1.source) = rows.map Node.id) ∧
    ∀ (t t' : Tables) (ids : Nat → NodeId) (time : Instant) (owner : OwnerId) (node : Node)
      (copies : List CopiedNode), t.copyDirectory ids time owner node d = (.ok copies, t') →
      (copies = [] ↔ ∀ source, ¬t.Copyable ids time owner node d source) ∧
      ∀ source, t.Copyable ids time owner node d source → copies.map CopiedNode.source =
        (Tables.sortedByPath (t.subtree owner source.path)).map Node.id := by
  have hav : a.Valid := (valid_of_fromEncoded ha).1
  have hpv : p.Valid := (valid_of_fromEncoded hp).1
  have hdv : d.Valid := (valid_of_fromEncoded hd).1
  have hbelow {q : Path} (hq : q ≠ root) : q.isRoot = false :=
    Bool.eq_false_iff.2 fun hr => hq (eq_root hr)
  rw [isAncestorOf_eq_covers, hav.coversBytes_eq hpv, hav.labels_isPrefix_iff hpv]
  refine ⟨Iff.rfl, Iff.rfl, Iff.rfl, ?_, ?_, ?_⟩
  · intro hc hane hdne
    exact ⟨valid_graft (hbelow hane) hpv hdv (hbelow hdne) hc,
      rebase_eq_graft (hbelow hane) (hbelow hdne) hpv hc⟩
  · intro ids k rows h
    exact Tables.map_source_copiesOf d ids h k
  · intro t t' ids time owner node copies h
    exact ⟨Tables.copyDirectory_eq_nil_iff h, fun source hcopyable => hcopyable.map_source h⟩

/-- Inside a directory with a name of two bytes, next to one whose name goes on. The directory is
copied with the file in it, and without the file next to it. -/
theorem subtrees_agree_inside :
    let owner : OwnerId := ⟨.ofNat 1⟩
    let row (n : Nat) (kind : Kind) (place : String) : Node :=
      ⟨⟨.ofNat n⟩, kind, ⟨place⟩, owner, ⟨n⟩⟩
    let dir := row 3 .dir "d.~c3~a9"
    let file := row 4 .file "d.~c3~a9.x"
    let t : Tables := { Tables.empty with
      nodes := [row 1 .root "", row 2 .dir "d", dir, file, row 5 .file "d.~c3~a9x",
        row 6 .dir "y"] }
    let ids (k : Nat) : NodeId := ⟨.ofNat (7 + k)⟩
    let copied := t.copyDirectory ids ⟨9⟩ owner dir ⟨"y.z"⟩
    fromEncoded "d.~c3~a9" = .ok ⟨"d.~c3~a9"⟩ ∧
    fromEncoded "d.~c3~a9.x" = .ok ⟨"d.~c3~a9.x"⟩ ∧
    fromEncoded "d.~c3~a9x" = .ok ⟨"d.~c3~a9x"⟩ ∧ fromEncoded "y.z" = .ok ⟨"y.z"⟩ ∧
    (coversBytes ⟨"d.~c3~a9"⟩ ⟨"d.~c3~a9.x"⟩ = true ∧
      rebase ⟨"d.~c3~a9.x"⟩ ⟨"d.~c3~a9"⟩ ⟨"y.z"⟩ = some ⟨"y.z.x"⟩) ∧
    ¬ coversBytes ⟨"d.~c3~a9"⟩ ⟨"d.~c3~a9x"⟩ = true ∧
    copied.1 = .ok [⟨dir.id, ids 0, .dir⟩, ⟨file.id, ids 1, .file⟩] ∧
    ∃ source, t.Copyable ids ⟨9⟩ owner dir ⟨"y.z"⟩ source := by
  intro owner row dir file t ids copied
  have ha : fromEncoded "d.~c3~a9" = .ok ⟨"d.~c3~a9"⟩ := by decide +kernel
  have hp : fromEncoded "d.~c3~a9.x" = .ok ⟨"d.~c3~a9.x"⟩ := by decide +kernel
  have hs : fromEncoded "d.~c3~a9x" = .ok ⟨"d.~c3~a9x"⟩ := by decide +kernel
  have hd : fromEncoded "y.z" = .ok ⟨"y.z"⟩ := by decide +kernel
  obtain ⟨hcovers, hbytes, -, htransfer, -, hcopies⟩ := subtrees_agree ha hp hd
  obtain ⟨hscovers, hsbytes, -⟩ := subtrees_agree ha hs hd
  have hc : covers ⟨"d.~c3~a9"⟩ ⟨"d.~c3~a9.x"⟩ = true := by decide +kernel
  have hn : ¬ covers ⟨"d.~c3~a9"⟩ ⟨"d.~c3~a9x"⟩ = true := by decide +kernel
  have hgraft : graft ⟨"d.~c3~a9.x"⟩ ⟨"d.~c3~a9"⟩ ⟨"y.z"⟩ = ⟨"y.z.x"⟩ := by decide +kernel
  have hstored : t.stored? owner dir.id .dir = some dir := by decide +kernel
  have hbelow : t.subtree owner dir.path = [dir, file] := by decide +kernel
  -- the two rows are in their order, so that there is nothing to be sorted
  have hsorted : Tables.sortedByPath (t.subtree owner dir.path) = [dir, file] := by
    rw [hbelow]
    exact List.mergeSort_of_pairwise (by decide +kernel)
  have hcopied : copied.1 = .ok [⟨dir.id, ids 0, .dir⟩, ⟨file.id, ids 1, .file⟩] := by
    simp only [copied]
    rw [Tables.copyDirectory, hstored]
    simp only [hsorted]
    decide +kernel
  obtain ⟨hnone, -⟩ := hcopies t copied.2 ids ⟨9⟩ owner dir _ (Prod.ext hcopied rfl)
  refine ⟨ha, hp, hs, hd, ⟨hbytes.1 (hcovers.1 hc), ?_⟩, fun h => hn (hscovers.2 (hsbytes.2 h)),
    hcopied, ?_⟩
  · rw [← hgraft]
    exact (htransfer hc (by decide +kernel) (by decide +kernel)).2
  · by_contra hno
    exact List.cons_ne_nil _ _ (hnone.2 (not_exists.1 hno))

end Path

end VersionedTree
