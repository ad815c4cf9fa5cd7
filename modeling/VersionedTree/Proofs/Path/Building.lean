import VersionedTree.Proofs.Path.UserForm

/-!
# Paths that are built

From the root and from users' texts, paths are built by names of children, by parents and by
transfers. All their labels are labels of segments, or of names that were given for children. A name
may have a slash, which a segment that a user writes has not, so that the path is shown as if it had
further segments.

## Main definitions

* `VersionedTree.Path.Built` — the paths that are built with names of some kind.

## Main results

* `VersionedTree.Path.labels_join`, `VersionedTree.Path.labels_foldl_join`,
  `VersionedTree.Path.labels_of_parent` — the labels of children, transferred paths and parents.
* `VersionedTree.Path.Valid.parse_display_iff` — the paths that are named by what is shown of them.
* `VersionedTree.Path.Built.exists_name` — labels of a path that is built.
-/

set_option autoImplicit false

namespace VersionedTree.Path

variable {p q : Path} {label : List Char} {admitted : String → Prop}

/-! ## Labels of neighbours -/

/-- A child has one more label. -/
lemma labels_join (p : Path) (hl : IsLabel label) :
    (p.join label).labels = p.labels ++ [label] := by
  have hsingle : (label.splitOn '.').filter (fun l => !l.isEmpty) = [label] := by
    rw [List.splitOn_eq_singleton hl.dot_not_mem]
    exact filter_isLabel (by simpa using hl)
  unfold join
  split
  · next hr =>
    obtain rfl := eq_root hr
    rw [labels, chars_ofChars, hsingle]
    rfl
  · rw [labels, chars_ofChars, List.splitOn_append_cons_self, List.filter_append, hsingle, labels]

/-- A transferred path has the labels that are left of it after those of the target. -/
lemma labels_foldl_join {more : List (List Char)} (hl : ∀ label ∈ more, IsLabel label) :
    ∀ target : Path, (more.foldl join target).labels = target.labels ++ more := by
  induction more with
  | nil => simp
  | cons label rest ih =>
    rw [List.forall_mem_cons] at hl
    intro target
    rw [List.foldl_cons, ih hl.2, labels_join target hl.1, List.append_assoc, List.singleton_append]

/-- A parent lacks the last label. -/
lemma labels_of_parent (h : p.parent = some q) : q.labels <+: p.labels := by
  obtain ⟨-, label, -, ⟨hq, -⟩ | e⟩ := chars_of_parent h
  · rw [eq_root hq]
    exact List.nil_prefix
  · rw [labels, labels, e, List.splitOn_append_cons_self, List.filter_append]
    exact List.prefix_append _ _

/-! ## What is shown of a path -/

/-- **What is shown of a valid path** names it if no segment has a slash and no label has a sign,
and only then. -/
theorem Valid.parse_display_iff (hp : p.Valid) : parse p.display = .ok p ↔
    (∀ segment ∈ p.segments, '/' ∉ segment.toList) ∧ '+' ∉ p.chars := by
  constructor
  · intro h
    obtain ⟨segments, hn, hpath⟩ := exists_names_of_parse h
    have hsegments : p.segments = segments := by rw [hpath, segments_ofSegments hn.ne_nil]
    refine ⟨?_, unsigned_eq_self.1 ?_⟩
    · rw [hsegments]
      exact fun segment hs => (hn.1 segment hs).2
    · rw [← hp.ofSegments_segments, hsegments, ← hpath]
  · rintro ⟨hslash, hsign⟩
    have hpath : ofSegments p.segments = p := by
      rw [hp.ofSegments_segments, unsigned_eq_self.2 hsign]
    have hread := parse_of_names (names_written fun segment hs =>
      ⟨hp.segment_ne_nil segment hs, hslash segment hs⟩)
    rw [← display_ofSegments hp.segment_ne_nil, hpath] at hread
    exact hread

/-! ## Paths that are built -/

/-- The paths that are built from the root and from users' texts. Names of children are admitted
ones. -/
inductive Built (admitted : String → Prop) : Path → Prop where
  | root : Built admitted root
  | parse {text : String} {p : Path} (h : parse text = .ok p) : Built admitted p
  | child {p q : Path} {name : String} (hp : Built admitted p) (hn : admitted name)
      (h : p.child name = .ok q) : Built admitted q
  | parent {p q : Path} (hp : Built admitted p) (h : p.parent = some q) : Built admitted q
  | rebase {p q source target : Path} (hp : Built admitted p) (hs : Built admitted source)
      (ht : Built admitted target) (h : p.rebase source target = some q) : Built admitted q

namespace Built

/-- A path that is built is made by the same operations, with whatever names. -/
lemma made (h : Built admitted p) : p.Made := by
  induction h with
  | root => exact .root
  | parse h => exact .parse h
  | child _ _ h ih => exact ih.child h
  | parent _ h ih => exact ih.parent h
  | rebase _ _ _ h ihp ihs iht => exact .rebase ihp ihs iht h

/-- **The labels of a path that is built** are those of segments that users write, or of admitted
names. -/
theorem exists_name (h : Built admitted p) (hl : label ∈ p.labels) :
    ∃ name, label = Label.encode name ∧ name.toList ≠ [] ∧
      ('/' ∉ name.toList ∨ admitted name) := by
  induction h generalizing label with
  | root => cases hl
  | parse h =>
    obtain ⟨segments, hn, rfl⟩ := exists_names_of_parse h
    rw [labels_ofSegments hn.ne_nil] at hl
    obtain ⟨name, hname, rfl⟩ := List.mem_map.1 hl
    exact ⟨name, rfl, (hn.1 name hname).1, .inl (hn.1 name hname).2⟩
  | @child p q name _ hname h ih =>
    unfold Path.child at h
    split at h
    · cases h
    · next hne =>
      obtain rfl := Except.ok.inj h
      have hne : name.toList ≠ [] := by simpa using hne
      rw [labels_join p (isLabel_encode hne), List.mem_append, List.mem_singleton] at hl
      rcases hl with hl | rfl
      · exact ih hl
      · exact ⟨name, rfl, hne, .inr hname⟩
  | parent _ h ih => exact ih ((labels_of_parent h).subset hl)
  | @rebase p q source target hp _ _ h ihp _ iht =>
    unfold Path.rebase at h
    split at h
    · obtain rfl := Option.some.inj h
      have hmore : ∀ label ∈ p.labels.drop source.depth, IsLabel label := fun label hl =>
        hp.made.valid.isLabel (List.mem_of_mem_drop hl)
      rw [labels_foldl_join hmore, List.mem_append] at hl
      rcases hl with hl | hl
      · exact iht hl
      · exact ihp (List.mem_of_mem_drop hl)
    · cases h

/-- No label of a path that is built has a sign. -/
lemma sign_not_mem (h : Built admitted p) : '+' ∉ p.chars := by
  have hlabels : ∀ label ∈ p.labels, label.map Label.unsigned = label := by
    intro label hl
    obtain ⟨name, rfl, hne, -⟩ := h.exists_name hl
    exact (Label.encode_of_decode (Label.decode_encode hne)).symm
  rw [← unsigned_eq_self, ← h.made.valid.ofLabels_labels, unsigned_ofLabels,
    List.map_congr_left hlabels, List.map_id']

/-- A path that is built with names without slashes has no segment with a slash. -/
lemma slash_not_mem (h : Built admitted p) (hn : ∀ name, admitted name → '/' ∉ name.toList) :
    ∀ segment ∈ p.segments, '/' ∉ segment.toList := by
  intro segment hs
  obtain ⟨label, hl, rfl⟩ := List.mem_map.1 hs
  obtain ⟨name, rfl, hne, hslash⟩ := h.exists_name hl
  rw [segmentOf_of_decode (Label.decode_encode hne)]
  exact hslash.elim id (hn name)

end Built

end VersionedTree.Path
