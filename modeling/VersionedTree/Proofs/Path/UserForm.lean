import Mathlib.Data.List.Forall2
import VersionedTree.Proofs.Path.Spellings

/-!
# The user's form of paths

A user writes the segments of a path, each with a slash before it, and may add one slash at the end.
All other texts are refused. What is written names the path of its segments, and no two lists of
segments are written in the same way or name the same path.

## Main definitions

* `VersionedTree.Path.IsSegment` — texts that are not empty and have no slash.
* `VersionedTree.Path.written` — segments with slashes between them.
* `VersionedTree.Path.Names` — the texts that name the path of some segments.
* `VersionedTree.Path.withoutLastSlash` — a text without one slash at its end.

## Main results

* `VersionedTree.Path.parse_of_names` — a text of segments names their path.
* `VersionedTree.Path.exists_names_of_parse` — what is accepted is a text of segments.
* `VersionedTree.Path.display_ofSegments` — the path of segments is shown as they are written.
* `VersionedTree.Path.user_form` — users' texts, and the paths that they name.
-/

set_option autoImplicit false

namespace VersionedTree.Path

variable {text : String} {p : Path} {segments : List String}

/-! ## Segments in texts -/

/-- A segment is not empty and has no slash. -/
def IsSegment (segment : String) : Prop := segment.toList ≠ [] ∧ '/' ∉ segment.toList

/-- The user's form of segments: a slash, and the segments with slashes between them. -/
def written (segments : List String) : String := "/" ++ "/".intercalate segments

/-- Is this the text of these segments, with or without one more slash at its end? -/
def Names (text : String) (segments : List String) : Prop :=
  (∀ segment ∈ segments, IsSegment segment) ∧
    (text = written segments ∨ text = written segments ++ "/")

/-- A text without one slash at its end. The slash that a text begins with stays. -/
def withoutLastSlash (text : String) : String :=
  if 1 < text.toList.length ∧ text.toList.getLast? = some '/' then
    String.ofList text.toList.dropLast
  else text

/-- The characters of segments with slashes between them. -/
def joined (segments : List String) : List Char := ['/'].intercalate (segments.map String.toList)

/-- The text of segments begins with a slash, and has one between each two of them. -/
lemma toList_written (segments : List String) :
    (written segments).toList = '/' :: joined segments := by
  rw [written, String.toList_append, String.toList_intercalate]
  rfl

/-- No part of a text between separators has a separator. -/
lemma not_mem_of_mem_splitOn {c : Char} {cs part : List Char} (h : part ∈ cs.splitOn c) :
    c ∉ part := by
  induction cs generalizing part with
  | nil =>
    rw [List.splitOn_nil, List.mem_singleton] at h
    rw [h]
    exact List.not_mem_nil
  | cons d rest ih =>
    rw [List.splitOn_cons_eq_if_modifyHead] at h
    split at h
    · rcases List.mem_cons.1 h with rfl | h
      · exact List.not_mem_nil
      · exact ih h
    · next hd =>
      obtain ⟨first, more, e⟩ := List.exists_cons_of_ne_nil (List.splitOn_ne_nil c rest)
      rw [e] at h ih
      rcases List.mem_cons.1 h with rfl | h
      · rw [List.mem_cons, not_or]
        exact ⟨fun hc => hd (by simp [hc]), ih List.mem_cons_self⟩
      · exact ih (List.mem_cons_of_mem _ h)

/-- A slash at the end is taken off. -/
lemma bodyOf_append_slash (cs : List Char) : bodyOf (cs ++ ['/']) = cs := by
  rw [bodyOf, if_pos List.getLast?_concat, List.dropLast_concat]

/-- What is taken off is nothing, or a slash. -/
lemma eq_bodyOf (cs : List Char) : cs = bodyOf cs ∨ cs = bodyOf cs ++ ['/'] := by
  unfold bodyOf
  split
  · next h =>
    obtain ⟨body, rfl⟩ := List.getLast?_eq_some_iff.1 h
    right
    rw [List.dropLast_concat]
  · exact .inl rfl

section segments

variable (h : ∀ segment ∈ segments, IsSegment segment)

include h

/-- The segments are found between the slashes. -/
lemma splitOn_joined (hne : segments ≠ []) :
    (joined segments).splitOn '/' = segments.map String.toList := by
  refine List.splitOn_intercalate '/' ?_ (by simpa using hne)
  intro part hpart
  obtain ⟨segment, hs, rfl⟩ := List.mem_map.1 hpart
  exact (h segment hs).2

/-- There is no slash after the last segment: an empty part would follow it. -/
lemma bodyOf_joined : bodyOf (joined segments) = joined segments := by
  refine if_neg fun hlast => ?_
  obtain ⟨cs, hcs⟩ := List.getLast?_eq_some_iff.1 hlast
  cases segments with
  | nil => simp [joined] at hcs
  | cons segment rest =>
    have hparts := splitOn_joined h (List.cons_ne_nil _ _)
    rw [hcs, List.splitOn_append_cons_self, List.splitOn_nil] at hparts
    have hempty : [] ∈ (segment :: rest).map String.toList := by
      rw [← hparts]
      exact List.mem_append_right _ (List.mem_singleton_self _)
    obtain ⟨last, hl, e⟩ := List.mem_map.1 hempty
    exact (h last hl).1 e

end segments

/-- A text of segments begins with a slash, and its body are the segments. -/
lemma Names.exists_rest (h : Names text segments) :
    ∃ rest, text.toList = '/' :: rest ∧ bodyOf rest = joined segments := by
  obtain ⟨hs, rfl | rfl⟩ := h
  · exact ⟨_, toList_written segments, bodyOf_joined hs⟩
  · refine ⟨joined segments ++ ['/'], ?_, bodyOf_append_slash _⟩
    rw [String.toList_append, toList_written]
    rfl

/-- A text with these segments in its body is a text of segments. -/
lemma names_of_body {rest : List Char} (ht : text.toList = '/' :: rest)
    (hs : ∀ segment ∈ segments, IsSegment segment) (hj : joined segments = bodyOf rest) :
    Names text segments := by
  refine ⟨hs, ?_⟩
  rw [← String.toList_inj, ← String.toList_inj, String.toList_append, toList_written, ht, hj]
  exact (eq_bodyOf rest).imp (congrArg ('/' :: ·)) (congrArg ('/' :: ·))

/-- Without its last slash, a text still begins with the first one. -/
lemma toList_withoutLastSlash {rest : List Char} (ht : text.toList = '/' :: rest) :
    (withoutLastSlash text).toList = '/' :: bodyOf rest := by
  unfold withoutLastSlash
  cases rest with
  | nil => simp [ht, bodyOf]
  | cons c more =>
    rw [ht, List.getLast?_cons_cons, bodyOf]
    split
    · next hlast => rw [if_pos hlast.2, String.toList_ofList, List.dropLast_cons_cons]
    · next hlast => rw [if_neg (fun h => hlast ⟨by simp, h⟩), ht]

/-- Without the slash at its end, a text of segments is what is written for them. -/
lemma Names.withoutLastSlash_eq (h : Names text segments) :
    withoutLastSlash text = written segments := by
  obtain ⟨rest, ht, hbody⟩ := h.exists_rest
  rw [← String.toList_inj, toList_written, toList_withoutLastSlash ht, hbody]

/-! ## Texts that are accepted -/

/-- What a text names that has a slash at its beginning. -/
lemma parse_cons {rest : List Char} (ht : text.toList = '/' :: rest) :
    parse text =
      if (bodyOf rest).isEmpty then .ok root
      else if ((bodyOf rest).splitOn '/').any List.isEmpty then .error (.emptySegment text)
      else .ok (ofSegments (((bodyOf rest).splitOn '/').map String.ofList)) := by
  unfold parse
  rw [ht, ofSegments, List.map_map]
  rfl

/-- **A text of segments** names their path. -/
theorem parse_of_names (h : Names text segments) : parse text = .ok (ofSegments segments) := by
  obtain ⟨rest, ht, hbody⟩ := h.exists_rest
  rw [parse_cons ht, hbody]
  by_cases hne : segments = []
  · subst hne
    rfl
  · -- none of the parts between the slashes is empty, nor is the text before it is split
    have hfull : ∀ part ∈ segments.map String.toList, part ≠ [] := by
      intro part hpart
      obtain ⟨segment, hs, rfl⟩ := List.mem_map.1 hpart
      exact (h.1 segment hs).1
    have hempty : ¬(joined segments).isEmpty = true := by
      intro he
      have hparts := splitOn_joined h.1 hne
      rw [List.isEmpty_iff.1 he, List.splitOn_nil] at hparts
      exact hfull [] (by rw [← hparts]; exact List.mem_singleton_self _) rfl
    have hany : ¬((segments.map String.toList).any List.isEmpty) = true := by
      rw [List.any_eq_true]
      rintro ⟨part, hpart, he⟩
      exact hfull part hpart (List.isEmpty_iff.1 he)
    rw [if_neg hempty, splitOn_joined h.1 hne, if_neg hany, List.map_map]
    have hback : (String.ofList ∘ String.toList) = id := funext fun s => String.ofList_toList
    rw [hback, List.map_id]

/-- A text names the path of segments, or has no slash at its beginning, or a segment of it is
empty. -/
lemma parse_cases (text : String) :
    (∃ segments, Names text segments) ∨
    (text.toList.head? ≠ some '/' ∧ parse text = .error (.notAbsolute text)) ∨
    (text.toList.head? = some '/' ∧ parse text = .error (.emptySegment text)) := by
  by_cases hhead : text.toList.head? = some '/'
  · obtain ⟨rest, ht⟩ := List.head?_eq_some_iff.1 hhead
    rw [parse_cons ht]
    split
    · next he =>
      exact .inl ⟨[], names_of_body ht (List.forall_mem_nil _) (List.isEmpty_iff.1 he).symm⟩
    · split
      · exact .inr (.inr ⟨hhead, rfl⟩)
      · next hany =>
        left
        refine ⟨((bodyOf rest).splitOn '/').map String.ofList, names_of_body ht ?_ ?_⟩
        · intro segment hs
          obtain ⟨part, hpart, rfl⟩ := List.mem_map.1 hs
          rw [IsSegment, String.toList_ofList]
          refine ⟨fun he => hany ?_, not_mem_of_mem_splitOn hpart⟩
          exact List.any_eq_true.2 ⟨part, hpart, List.isEmpty_iff.2 he⟩
        · have hback : (String.toList ∘ String.ofList) = id := funext fun cs =>
            String.toList_ofList
          rw [joined, List.map_map, hback, List.map_id, List.intercalate_splitOn]
  · refine .inr (.inl ⟨hhead, ?_⟩)
    unfold parse
    split
    · next ht => exact absurd (by rw [ht]; rfl) hhead
    · rfl

/-- **What is accepted** is a text of segments. -/
theorem exists_names_of_parse (h : parse text = .ok p) :
    ∃ segments, Names text segments ∧ p = ofSegments segments := by
  rcases parse_cases text with ⟨segments, hn⟩ | ⟨-, e⟩ | ⟨-, e⟩
  · rw [parse_of_names hn] at h
    exact ⟨segments, hn, (Except.ok.inj h).symm⟩
  · rw [e] at h
    cases h
  · rw [e] at h
    cases h

/-! ## How paths are shown -/

/-- A slash before each segment is one at the beginning and one between each two. -/
lemma join_eq_written (hne : segments ≠ []) :
    String.join (segments.map ("/" ++ ·)) = written segments := by
  rw [← String.toList_inj, toList_written, joined, String.toList_join]
  induction segments with
  | nil => exact absurd rfl hne
  | cons segment rest ih =>
    cases rest with
    | nil => simp
    | cons next more =>
      rw [List.map_cons, List.flatMap_cons, ih (List.cons_ne_nil _ _)]
      simp [List.intercalate_cons_cons]

/-- **The path of segments** is shown as they are written. -/
theorem display_ofSegments (h : ∀ segment ∈ segments, segment.toList ≠ []) :
    (ofSegments segments).display = written segments := by
  by_cases hne : segments = []
  · subst hne
    rfl
  · have hroot : ¬(ofSegments segments).isRoot = true := by
      intro hr
      have hlabels := labels_ofSegments h
      rw [eq_root hr] at hlabels
      exact hne (List.map_eq_nil_iff.1 hlabels.symm)
    rw [display, if_neg hroot, segments_ofSegments h, join_eq_written hne]

/-! ## Users' texts and paths -/

/-- What is written for segments is a text of them. -/
lemma names_written (h : ∀ segment ∈ segments, IsSegment segment) :
    Names (written segments) segments := ⟨h, .inl rfl⟩

/-- Segments are not empty. -/
lemma Names.ne_nil (h : Names text segments) : ∀ segment ∈ segments, segment.toList ≠ [] :=
  fun segment hs => (h.1 segment hs).1

/-- **A path that is named** has the labels of its segments, is accepted in its stored form, and is
shown as a text that names it. -/
lemma Names.spec (h : Names text segments) :
    List.Forall₂ (fun label segment => Label.IsSpelled label ∧ Label.decode label = .ok segment)
      (ofSegments segments).labels segments ∧
    fromEncoded (ofSegments segments).encoded = .ok (ofSegments segments) ∧
    (ofSegments segments).display = written segments ∧
    parse (ofSegments segments).display = .ok (ofSegments segments) := by
  refine ⟨?_, valid_of_parse (parse_of_names h), display_ofSegments h.ne_nil, ?_⟩
  · rw [labels_ofSegments h.ne_nil, List.forall₂_map_left_iff, List.forall₂_same]
    exact fun segment hs =>
      ⟨Label.isSpelled_encode segment, Label.decode_encode (h.ne_nil segment hs)⟩
  · rw [display_ofSegments h.ne_nil]
    exact parse_of_names (names_written h.1)

/-- **Texts name the same path** if they are equal without the slash at their ends. -/
lemma parse_eq_iff {text' : String} {p' : Path} (h : parse text = .ok p)
    (h' : parse text' = .ok p') : p = p' ↔ withoutLastSlash text = withoutLastSlash text' := by
  obtain ⟨segments, hn, rfl⟩ := exists_names_of_parse h
  obtain ⟨segments', hn', rfl⟩ := exists_names_of_parse h'
  rw [hn.withoutLastSlash_eq, hn'.withoutLastSlash_eq]
  constructor
  · intro e
    rw [← display_ofSegments hn.ne_nil, e, display_ofSegments hn'.ne_nil]
  · intro e
    have hread := parse_of_names (names_written hn.1)
    rw [e, parse_of_names (names_written hn'.1)] at hread
    exact (Except.ok.inj hread).symm

/-- **Users' texts and paths.** A text is accepted if it begins with a slash and is, without this
slash and at most one at the end, empty or a list of segments with slashes between them, none of
them empty; other texts are refused for the missing slash, or else for an empty segment. What is
accepted names a path with one label for each segment, which is made of plain characters and escapes
and read as the segment. The path is accepted in its stored form, and is shown as its segments with
a slash before each, which names it again. Texts name the same path if they are equal without the
slash at their ends, and only then.

**Proof sketch.** A text is split at its slashes, and joined again it is the same; segments are
found again in what is joined of them. So texts without the slash at their end, lists of segments
and the paths of these correspond to each other. -/
theorem user_form (text : String) :
    ((∃ p, parse text = .ok p) ↔ ∃ segments, Names text segments) ∧
    (parse text = .error (.notAbsolute text) ↔ text.toList.head? ≠ some '/') ∧
    (parse text = .error (.emptySegment text) ↔
      text.toList.head? = some '/' ∧ ¬∃ segments, Names text segments) ∧
    (∀ p segments, parse text = .ok p → Names text segments →
      p.labels.length = segments.length ∧
      List.Forall₂ (fun label segment => Label.IsSpelled label ∧ Label.decode label = .ok segment)
        p.labels segments ∧
      fromEncoded p.encoded = .ok p ∧ p.display = written segments ∧
      parse p.display = .ok p) ∧
    ∀ text' p p', parse text = .ok p → parse text' = .ok p' →
      (p = p' ↔ withoutLastSlash text = withoutLastSlash text') := by
  have hnamed (h : ∃ segments, Names text segments) :
      text.toList.head? = some '/' ∧ ∃ p, parse text = .ok p := by
    obtain ⟨segments, hn⟩ := h
    obtain ⟨rest, ht, -⟩ := hn.exists_rest
    exact ⟨by rw [ht]; rfl, _, parse_of_names hn⟩
  refine ⟨⟨?_, fun h => (hnamed h).2⟩, ?_, ?_, ?_, fun text' p p' => parse_eq_iff⟩
  · rintro ⟨p, hp⟩
    obtain ⟨segments, hn, -⟩ := exists_names_of_parse hp
    exact ⟨segments, hn⟩
  · rcases parse_cases text with hn | ⟨hhead, e⟩ | ⟨hhead, e⟩
    · obtain ⟨hhead, p, hp⟩ := hnamed hn
      simp [hhead, hp]
    · simp [hhead, e]
    · simp [hhead, e]
  · rcases parse_cases text with hn | ⟨hhead, e⟩ | ⟨hhead, e⟩
    · obtain ⟨hhead, p, hp⟩ := hnamed hn
      simp [hn, hp]
    · simp [hhead, e]
    · have hn : ¬∃ segments, Names text segments := by
        intro hn
        obtain ⟨-, p, hp⟩ := hnamed hn
        rw [hp] at e
        cases e
      simp [hhead, e, hn]
  · intro p segments hp hn
    obtain rfl := Except.ok.inj (hp.symm.trans (parse_of_names hn))
    exact ⟨hn.spec.1.length_eq, hn.spec⟩

/-- A text with a slash at its end names the path that it names without it. -/
theorem user_form_report :
    ∃ p, parse "/docs/report v2.pdf/" = .ok p ∧ parse "/docs/report v2.pdf" = .ok p ∧
      p.labels.length = 2 ∧ p.display = "/docs/report v2.pdf" ∧ parse p.display = .ok p := by
  have hsegments : ∀ segment ∈ ["docs", "report v2.pdf"], IsSegment segment := by
    simp [IsSegment]
  have hwritten : written ["docs", "report v2.pdf"] = "/docs/report v2.pdf" := by decide +kernel
  have hnames : Names "/docs/report v2.pdf/" ["docs", "report v2.pdf"] := by
    refine ⟨hsegments, .inr ?_⟩
    rw [hwritten]
    decide +kernel
  obtain ⟨haccepted, -, -, hspec, hsame⟩ := user_form "/docs/report v2.pdf/"
  obtain ⟨p, hp⟩ := haccepted.2 ⟨_, hnames⟩
  obtain ⟨p', hp'⟩ := (user_form "/docs/report v2.pdf").1.2 ⟨_, hsegments, .inl hwritten.symm⟩
  obtain ⟨hlength, -, -, hdisplay, hread⟩ := hspec p _ hp hnames
  obtain rfl := (hsame _ p p' hp hp').2 (by decide +kernel)
  exact ⟨p, hp, hp', hlength, hdisplay.trans hwritten, hread⟩

end VersionedTree.Path
