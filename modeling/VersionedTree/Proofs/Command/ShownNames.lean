import VersionedTree.Command.Run
import VersionedTree.Proofs.Archive.Moves
import VersionedTree.Proofs.Json
import VersionedTree.Proofs.Path.Spellings

/-!
# Names in listings

A line of a listing begins with columns for the kind, the size and the time, and ends in the name of
a child. The name has any characters, but the columns before it have none that could be taken for a
gap between columns, so that the names can be read off the text. The blanks at the end of the whole
text are cut off, and with them those of the last name.

## Main definitions

* `VersionedTree.Report.shownName` — what the line of a child ends in.
* `VersionedTree.Report.nameColumn` — the end of a line, after the other columns.
* `VersionedTree.Report.IsHeading` — a line up to the name.

## Main results

* `VersionedTree.Instant.isCell_text` — times have no gap in them.
* `VersionedTree.Report.splitOn_listing` — the lines of a listing.
* `VersionedTree.Report.nameColumns_listing` — the names in a listing.
* `VersionedTree.Command.names_shown` — which names are shown in full.
* `VersionedTree.Command.last_name_cut` — one that is not.
-/

set_option autoImplicit false

namespace VersionedTree

/-! ## Blanks -/

namespace Text

variable {cs ds : List Char}

/-- Is the last character a blank? -/
def endsBlank (cs : List Char) : Bool := cs.getLast?.any isBlank

/-- Blanks at the end do not count. -/
lemma dropBlankEnd_append_of_blank (cs : List Char) (h : ∀ c ∈ ds, isBlank c = true) :
    dropBlankEnd (cs ++ ds) = dropBlankEnd cs := by
  have hreverse : ∀ c ∈ ds.reverse, isBlank c = true := fun c hc => h c (List.mem_reverse.1 hc)
  rw [dropBlankEnd, List.reverse_append, List.dropWhile_append_of_pos hreverse, dropBlankEnd]

/-- Of blanks alone nothing is left. -/
lemma dropBlankEnd_of_blank (h : ∀ c ∈ ds, isBlank c = true) : dropBlankEnd ds = [] :=
  dropBlankEnd_append_of_blank [] h

/-- What stands before another character is kept. -/
lemma dropBlankEnd_append (cs : List Char) (h : ∃ c ∈ ds, isBlank c = false) :
    dropBlankEnd (cs ++ ds) = cs ++ dropBlankEnd ds := by
  obtain ⟨c, hc, hb⟩ := h
  have hkept : ds.reverse.dropWhile isBlank ≠ [] := by
    intro hnone
    rw [List.dropWhile_eq_nil_iff] at hnone
    rw [hnone c (List.mem_reverse.2 hc)] at hb
    cases hb
  rw [dropBlankEnd, List.reverse_append, List.dropWhile_append, if_neg (by simpa using hkept),
    List.reverse_append, List.reverse_reverse, dropBlankEnd]

/-- A text that ends in no blank stays as it is. -/
lemma dropBlankEnd_eq_self (h : endsBlank cs = false) : dropBlankEnd cs = cs := by
  obtain rfl | ⟨more, c, rfl⟩ := List.eq_nil_or_concat' cs
  · rfl
  · have hc : isBlank c = false := by simpa [endsBlank] using h
    simp [dropBlankEnd, hc]

/-- What is left ends in no blank. -/
lemma endsBlank_dropBlankEnd (cs : List Char) : endsBlank (dropBlankEnd cs) = false := by
  rw [endsBlank, dropBlankEnd, List.getLast?_reverse]
  cases h : cs.reverse.dropWhile isBlank with
  | nil => rfl
  | cons c rest =>
    have hc := List.head?_dropWhile_not isBlank cs.reverse
    rw [h] at hc
    simpa using hc

/-- What is left was there before. -/
lemma mem_of_mem_dropBlankEnd {c : Char} (h : c ∈ dropBlankEnd cs) : c ∈ cs :=
  List.mem_reverse.1 ((List.dropWhile_sublist isBlank).subset (List.mem_reverse.1 h))

/-- A text that ends in another text ends in a blank if that one does. -/
lemma endsBlank_append (cs : List Char) (h : ds ≠ []) : endsBlank (cs ++ ds) = endsBlank ds := by
  rw [endsBlank, List.getLast?_append_of_ne_nil _ h, endsBlank]

end Text

/-! ## Cells -/

namespace Report

open Text (isBlank dropBlankEnd endsBlank)

variable {cs ds : List Char}

/-- What follows the first two spaces in a row. -/
def afterGap : List Char → List Char
  | ' ' :: ' ' :: rest => rest
  | _ :: rest => afterGap rest
  | [] => []

/-- A gap is looked for behind text without blanks. -/
lemma afterGap_append (h : ∀ c ∈ cs, isBlank c = false) (rest : List Char) :
    afterGap (cs ++ rest) = afterGap rest := by
  induction cs with
  | nil => rfl
  | cons c more ih =>
    rw [List.forall_mem_cons] at h
    have hc : c ≠ ' ' := by
      rintro rfl
      exact absurd h.1 (by decide)
    rw [List.cons_append, afterGap, ih h.2]
    simp [hc]

/-- One space before text without blanks is no gap. -/
lemma afterGap_space (h : ∀ c ∈ cs, isBlank c = false) (hne : cs ≠ []) (rest : List Char) :
    afterGap (' ' :: (cs ++ rest)) = afterGap rest := by
  obtain ⟨c, more, rfl⟩ := List.exists_cons_of_ne_nil hne
  have hc : c ≠ ' ' := by
    rintro rfl
    exact absurd (h ' ' List.mem_cons_self) (by decide)
  rw [List.cons_append, afterGap, ← List.cons_append, afterGap_append h]
  simp [hc]

/-- Text without blanks does not begin with a space. -/
lemma head?_append_ne_space (h : ∀ c ∈ cs, isBlank c = false) (hne : cs ≠ [])
    (rest : List Char) : (cs ++ rest).head? ≠ some ' ' := by
  rw [List.head?_append_of_ne_nil _ hne]
  intro hspace
  exact absurd (h ' ' (List.mem_of_head? hspace)) (by decide)

/-- The text of a cell, in which no gap begins. -/
structure IsCell (cs : List Char) : Prop where
  after_gap : ∀ rest, afterGap (cs ++ ' ' :: ' ' :: rest) = rest
  no_gap : afterGap cs = []
  one_line : '\n' ∉ cs
  ends : endsBlank cs = false
  ne_nil : cs ≠ []

/-- Text without blanks is a cell. -/
lemma isCell_of_not_blank (h : ∀ c ∈ cs, isBlank c = false) (hne : cs ≠ []) : IsCell cs where
  after_gap rest := by rw [afterGap_append h, afterGap]
  no_gap := by rw [← List.append_nil cs, afterGap_append h, afterGap]
  one_line hc := absurd (h '\n' hc) (by decide)
  ends := by rw [endsBlank, List.getLast?_eq_some_getLast hne, Option.any_some,
    h _ (List.getLast_mem hne)]
  ne_nil := hne

/-- Two texts without blanks, with one space between them, are a cell. -/
lemma isCell_space (hc : ∀ c ∈ cs, isBlank c = false) (hd : ∀ d ∈ ds, isBlank d = false)
    (hne : ds ≠ []) : IsCell (cs ++ ' ' :: ds) where
  after_gap rest := by
    rw [List.append_assoc, afterGap_append hc, List.cons_append, afterGap_space hd hne, afterGap]
  no_gap := by
    rw [afterGap_append hc, ← List.append_nil ds, afterGap_space hd hne, afterGap]
  one_line h := by
    rcases List.mem_append.1 h with h | h
    · exact absurd (hc '\n' h) (by decide)
    · exact absurd (hd '\n' ((List.mem_cons.1 h).resolve_left (by decide))) (by decide)
  ends := by
    rw [← List.singleton_append, ← List.append_assoc, Text.endsBlank_append _ hne]
    exact (isCell_of_not_blank hd hne).ends
  ne_nil := by simp

end Report

/-! ## Numbers and times -/

namespace Text

/-- Digits are no blanks. -/
lemma isBlank_of_isDigit {c : Char} (h : c.isDigit = true) : isBlank c = false := by
  simp only [Char.isDigit, Bool.and_eq_true, decide_eq_true_eq, ge_iff_le, UInt32.le_iff_toNat_le]
    at h
  have hlow : 48 ≤ c.toNat := h.1
  have hhigh : c.toNat ≤ 57 := h.2
  simp only [isBlank]
  grind

/-- A number is written without blanks. -/
lemma not_isBlank_toDigits (n : Nat) : ∀ c ∈ Nat.toDigits 10 n, isBlank c = false := fun _ hc =>
  isBlank_of_isDigit (Nat.isDigit_of_mem_toDigits (by decide) (by decide) hc)

/-- The digits of a number, with its sign. -/
lemma toString_cases (n : Int) : ∃ m : Nat, (toString n).toList = Nat.toDigits 10 m ∨
    (toString n).toList = '-' :: Nat.toDigits 10 m := by
  rw [Int.toString_eq_repr, Int.repr_eq_if]
  split
  · exact ⟨_, .inl Nat.toList_repr⟩
  · exact ⟨_, .inr (String.toList_append.trans (congrArg ('-' :: ·) Nat.toList_repr))⟩

/-- So is a number with a sign. -/
lemma not_isBlank_toString (n : Int) : ∀ c ∈ (toString n).toList, isBlank c = false := by
  obtain ⟨m, h | h⟩ := toString_cases n <;> rw [h]
  · exact not_isBlank_toDigits m
  · exact List.forall_mem_cons.2 ⟨by decide, not_isBlank_toDigits m⟩

/-- A fixed text without a blank. -/
lemma not_isBlank_of_all {cs : List Char} (h : (cs.all fun c => !isBlank c) = true) :
    ∀ c ∈ cs, isBlank c = false := by simpa using h

/-- Every number is written with some characters. -/
lemma toString_ne_nil (n : Int) : (toString n).toList ≠ [] := by
  obtain ⟨m, h | h⟩ := toString_cases n <;> rw [h]
  · exact Nat.toDigits_ne_nil
  · exact List.cons_ne_nil _ _

end Text

namespace Instant

open Text (isBlank not_isBlank_of_all)

/-- Zeros in front are no blanks. -/
lemma not_isBlank_padded (width n : Nat) : ∀ c ∈ (padded width n).toList, isBlank c = false := by
  rw [padded, String.toList_ofList, List.forall_mem_append]
  refine ⟨fun c hc => ?_, ?_⟩
  · rw [List.eq_of_mem_replicate hc]
    decide
  · rw [Nat.toString_eq_repr, Nat.toList_repr]
    exact Text.not_isBlank_toDigits n

/-- A year is written without blanks. -/
lemma not_isBlank_yearText (year : Int) : ∀ c ∈ (yearText year).toList, isBlank c = false := by
  have hdigits := not_isBlank_padded 4 year.natAbs
  unfold yearText
  split
  · rw [String.toList_append, List.forall_mem_append]
    exact ⟨not_isBlank_of_all (by decide), hdigits⟩
  · split
    · rw [String.toList_append, List.forall_mem_append]
      exact ⟨not_isBlank_of_all (by decide), hdigits⟩
    · exact hdigits

/-- The date and the time of day, neither of them with a blank. -/
lemma dateText_cases (t : Instant) : ∃ date clock : String,
    t.dateText.toList = date.toList ++ ' ' :: clock.toList ∧ clock.toList ≠ [] ∧
      (∀ c ∈ date.toList, isBlank c = false) ∧ ∀ c ∈ clock.toList, isBlank c = false := by
  have hdash : ∀ c ∈ "-".toList, isBlank c = false := not_isBlank_of_all (by decide)
  have hcolon : ∀ c ∈ ":".toList, isBlank c = false := not_isBlank_of_all (by decide)
  have hdot : ∀ c ∈ ".".toList, isBlank c = false := not_isBlank_of_all (by decide)
  rcases hcivil : civil (t.micros.fdiv microsPerDay) with ⟨year, month, day⟩
  let rest := (t.micros.fmod microsPerDay).toNat
  refine ⟨yearText year ++ "-" ++ padded 2 month ++ "-" ++ padded 2 day,
    padded 2 (rest / 3600000000) ++ ":" ++ padded 2 (rest / 60000000 % 60) ++ ":"
      ++ padded 2 (rest / 1000000 % 60) ++ "." ++ padded 6 (rest % 1000000), ?_, ?_, ?_, ?_⟩
  · simp [dateText, hcivil, rest]
  · simp
  · simp only [String.toList_append, List.forall_mem_append]
    exact ⟨⟨⟨⟨not_isBlank_yearText _, hdash⟩, not_isBlank_padded _ _⟩, hdash⟩,
      not_isBlank_padded _ _⟩
  · simp only [String.toList_append, List.forall_mem_append]
    exact ⟨⟨⟨⟨⟨⟨not_isBlank_padded _ _, hcolon⟩, not_isBlank_padded _ _⟩, hcolon⟩,
      not_isBlank_padded _ _⟩, hdot⟩, not_isBlank_padded _ _⟩

/-- **A time is a cell**: its only blank is the one between the date and the time of day. -/
theorem isCell_text (t : Instant) : Report.IsCell t.text.toList := by
  unfold text
  split
  · obtain ⟨date, clock, h, hne, hdate, hclock⟩ := dateText_cases t
    rw [h]
    exact Report.isCell_space hdate hclock hne
  · refine Report.isCell_of_not_blank ?_ (by simp)
    rw [String.toList_append, List.forall_mem_append]
    exact ⟨Text.not_isBlank_toString _, not_isBlank_of_all (by decide)⟩

end Instant

/-! ## Lines -/

namespace Report

open Text (isBlank dropBlankEnd endsBlank)

/-- What the line of a child ends in: its name, and a slash if it is a container. -/
def shownName (e : Entry) : List Char :=
  (nameOf e.node).toList ++ if e.node.kind.isContainer then ['/'] else []

/-- The end of a line, after the columns for the kind, the size and the time. The line of a file
has a size and a time, or a dash. -/
def nameColumn (line : List Char) : List Char :=
  if "FILE".toList.isPrefixOf line then
    let cells := (line.drop 6).dropWhile (· == ' ')
    if "- ".toList.isPrefixOf cells then afterGap cells else afterGap (afterGap cells)
  else line.drop 18

/-- The names in a listing, from the top down. -/
def nameColumns (text : String) : List (List Char) := (text.toList.splitOn '\n').map nameColumn

/-- A line up to the name. -/
structure IsHeading (head : List Char) : Prop where
  one_line : '\n' ∉ head
  begins : ∃ c ∈ head, isBlank c = false
  nameColumn_append : ∀ name, nameColumn (head ++ name) = name
  nameColumn_dropBlankEnd : nameColumn (dropBlankEnd head) = []

/-- A line up to the gap before the name is a heading with the gap. -/
lemma isHeading_of_gap {cells : List Char} (hline : '\n' ∉ cells)
    (hsome : ∃ c ∈ cells, isBlank c = false) (hends : endsBlank cells = false)
    (hname : ∀ name, nameColumn (cells ++ ' ' :: ' ' :: name) = name)
    (hnone : nameColumn cells = []) : IsHeading (cells ++ [' ', ' ']) where
  one_line h := (List.mem_append.1 h).elim hline (by decide)
  begins := hsome.imp fun c hc => ⟨List.mem_append_left _ hc.1, hc.2⟩
  nameColumn_append name := by
    rw [List.append_assoc]
    exact hname name
  nameColumn_dropBlankEnd := by
    rw [Text.dropBlankEnd_append_of_blank _ (List.all_eq_true.1 (by decide)),
      Text.dropBlankEnd_eq_self hends, hnone]

/-- The line of a file, with its cells after some spaces. -/
lemma nameColumn_file {cells : List Char} (width : Nat) (h : cells.head? ≠ some ' ') :
    nameColumn ("FILE  ".toList ++ (List.replicate width ' ' ++ cells)) =
      if "- ".toList.isPrefixOf cells then afterGap cells else afterGap (afterGap cells) := by
  have hspaces : ∀ c ∈ List.replicate width ' ', (c == ' ') = true := by simp
  have hcells : cells.dropWhile (· == ' ') = cells := by
    cases cells with
    | nil => rfl
    | cons c rest =>
      have hc : (c == ' ') = false := by simpa using h
      rw [List.dropWhile_cons_of_neg (by simp [hc])]
  rw [nameColumn, if_pos (by simp), List.drop_left' (by decide),
    List.dropWhile_append_of_pos hspaces, hcells]

/-- A number is no dash. -/
lemma dash_not_isPrefix (n : Int) (rest : List Char) :
    "- ".toList.isPrefixOf ((toString n).toList ++ rest) = false := by
  obtain ⟨m, h⟩ := Text.toString_cases n
  obtain ⟨c, cs, hm, hdigit⟩ := Json.toDigits_cons m
  rw [hm] at h
  rcases h with h | h <;> rw [h]
  · have hc : c ≠ '-' := by
      rintro rfl
      cases hdigit
    simp [List.isPrefixOf, hc.symm]
  · have hc : c ≠ ' ' := by
      rintro rfl
      cases hdigit
    simp [List.isPrefixOf, hc.symm]

/-- The heading of a file with a version: a size and a time. -/
lemma isHeading_version (width : Nat) (size : Int) (time : Instant) :
    IsHeading ("FILE  ".toList ++ (List.replicate width ' ' ++ ((toString size).toList ++
      ' ' :: ' ' :: time.text.toList)) ++ [' ', ' ']) := by
  have hblanks := Text.not_isBlank_toString size
  have hsize := isCell_of_not_blank hblanks (Text.toString_ne_nil size)
  have hfirst := head?_append_ne_space hblanks (Text.toString_ne_nil size)
  have htime := time.isCell_text
  refine isHeading_of_gap ?_ ?_ ?_ ?_ ?_
  · simpa [htime.one_line] using hsize.one_line
  · exact ⟨'F', by simp, by decide⟩
  · have hlast : "FILE  ".toList ++ (List.replicate width ' ' ++ ((toString size).toList ++
        ' ' :: ' ' :: time.text.toList)) = ("FILE  ".toList ++ (List.replicate width ' ' ++
          ((toString size).toList ++ [' ', ' ']))) ++ time.text.toList := by
      simp only [List.append_assoc, List.cons_append, List.nil_append]
    rw [hlast, Text.endsBlank_append _ htime.ne_nil, htime.ends]
  · intro name
    simp only [List.append_assoc, List.cons_append]
    rw [nameColumn_file _ (hfirst _), dash_not_isPrefix, if_neg Bool.false_ne_true, hsize.after_gap,
      htime.after_gap]
  · rw [nameColumn_file _ (hfirst _), dash_not_isPrefix, if_neg Bool.false_ne_true, hsize.after_gap,
      htime.no_gap]

/-- The heading of a file without versions: a dash. -/
lemma isHeading_dash (width : Nat) :
    IsHeading ("FILE  ".toList ++ (List.replicate width ' ' ++ ['-']) ++ [' ', ' ']) := by
  refine isHeading_of_gap ?_ ?_ ?_ ?_ ?_
  · simp
  · exact ⟨'F', by simp, by decide⟩
  · rw [← List.append_assoc, Text.endsBlank_append _ (by simp)]
    decide
  · intro name
    simp only [List.append_assoc]
    rw [nameColumn_file _ (by simp)]
    rfl
  · rw [nameColumn_file _ (by simp)]
    rfl

/-- The heading of a container: nothing but its kind. -/
lemma isHeading_container (kind : Kind) (h : kind.isContainer = true) :
    IsHeading (Text.padEnd 5 kind.text ++ " " ++ Text.padStart 10 "" ++ "  ").toList := by
  cases kind with
  | file => cases h
  | root => exact ⟨by decide, ⟨'R', by decide, by decide⟩, fun _ => rfl, by decide⟩
  | dir => exact ⟨by decide, ⟨'D', by decide, by decide⟩, fun _ => rfl, by decide⟩

/-- **Every line** is a heading and the name of the child. -/
theorem exists_heading (e : Entry) :
    ∃ head, IsHeading head ∧ (entryLine e).toList = head ++ shownName e := by
  have hkind : Text.padEnd 5 "FILE" = "FILE " := by decide
  cases hk : e.node.kind with
  | file =>
    cases hn : e.newest with
    | some v =>
      refine ⟨_, isHeading_version (10 - (toString v.size).length) v.size v.linkedAt, ?_⟩
      simp [entryLine, hk, hn, hkind, shownName, Kind.isContainer, Text.padStart]
    | none =>
      refine ⟨_, isHeading_dash (10 - "-".length), ?_⟩
      simp [entryLine, hk, hn, hkind, shownName, Kind.isContainer, Text.padStart]
  | root =>
    refine ⟨_, isHeading_container .root rfl, ?_⟩
    simp [entryLine, hk, shownName, Kind.isContainer]
  | dir =>
    refine ⟨_, isHeading_container .dir rfl, ?_⟩
    simp [entryLine, hk, shownName, Kind.isContainer]

/-! ## Listings -/

/-- Lines with a line feed after each of them, and a further text, are split into lines. -/
lemma splitOn_flatMap (ls : List (List Char)) (last : List Char)
    (h : ∀ l ∈ ls, '\n' ∉ l) (hlast : '\n' ∉ last) :
    (ls.flatMap (· ++ ['\n']) ++ last).splitOn '\n' = ls ++ [last] := by
  induction ls with
  | nil => exact List.splitOn_eq_singleton hlast
  | cons l rest ih =>
    rw [List.forall_mem_cons] at h
    rw [List.flatMap_cons, List.append_assoc, List.append_assoc, List.singleton_append,
      List.splitOn_append_cons_self, List.splitOn_eq_singleton h.1, ih h.2]
    rfl

/-- An entry takes one line if no line feed is in the name that it shows. -/
lemma one_line (e : Entry) (h : '\n' ∉ shownName e) : '\n' ∉ (entryLine e).toList := by
  obtain ⟨head, hhead, hline⟩ := exists_heading e
  rw [hline, List.mem_append]
  exact not_or.2 ⟨hhead.one_line, h⟩

/-- **The lines of a listing** are those of the children. The last one is without the blanks at its
end. -/
theorem splitOn_listing (es : List Entry) (e : Entry)
    (h : ∀ e' ∈ es ++ [e], '\n' ∉ shownName e') :
    (listing (es ++ [e])).toList.splitOn '\n' =
      (es.map fun e' => (entryLine e').toList) ++ [dropBlankEnd (entryLine e).toList] := by
  have hjoin : (String.join ((es ++ [e]).map fun e' => entryLine e' ++ "\n")).toList =
      (es.map fun e' => (entryLine e').toList).flatMap (· ++ ['\n']) ++ (entryLine e).toList ++
        ['\n'] := by
    simp [String.toList_join, List.flatMap_map]
  rw [List.forall_mem_append, List.forall_mem_singleton] at h
  obtain ⟨head, hhead, hline⟩ := exists_heading e
  have hsome : ∃ c ∈ (entryLine e).toList, isBlank c = false := by
    obtain ⟨c, hc, hb⟩ := hhead.begins
    exact ⟨c, hline ▸ List.mem_append_left _ hc, hb⟩
  rw [listing, if_neg (by simp), Text.trimEnd, String.toList_ofList, hjoin,
    Text.dropBlankEnd_append_of_blank _ (List.all_eq_true.1 (by decide)),
    Text.dropBlankEnd_append _ hsome]
  refine splitOn_flatMap _ _ ?_ fun hc => one_line e h.2 (Text.mem_of_mem_dropBlankEnd hc)
  intro l hl
  obtain ⟨e', he', rfl⟩ := List.mem_map.1 hl
  exact one_line e' (h.1 e' he')

/-- The name column of a line is the name of the child. -/
lemma nameColumn_entryLine (e : Entry) : nameColumn (entryLine e).toList = shownName e := by
  obtain ⟨head, hhead, hline⟩ := exists_heading e
  rw [hline, hhead.nameColumn_append]

/-- The name column of a line without blanks at its end is the name without blanks at its end. -/
lemma nameColumn_dropBlankEnd (e : Entry) :
    nameColumn (dropBlankEnd (entryLine e).toList) = dropBlankEnd (shownName e) := by
  obtain ⟨head, hhead, hline⟩ := exists_heading e
  rw [hline]
  by_cases hb : ∀ c ∈ shownName e, isBlank c = true
  · rw [Text.dropBlankEnd_append_of_blank _ hb, Text.dropBlankEnd_of_blank hb,
      hhead.nameColumn_dropBlankEnd]
  · push Not at hb
    obtain ⟨c, hc, hb⟩ := hb
    rw [Text.dropBlankEnd_append _ ⟨c, hc, Bool.eq_false_iff.2 hb⟩, hhead.nameColumn_append]

/-- **The names in a listing.** Only the last one loses the blanks at its end. -/
theorem nameColumns_listing (es : List Entry) (e : Entry)
    (h : ∀ e' ∈ es ++ [e], '\n' ∉ shownName e') :
    nameColumns (listing (es ++ [e])) = es.map shownName ++ [dropBlankEnd (shownName e)] := by
  rw [nameColumns, splitOn_listing es e h, List.map_append, List.map_map, List.map_singleton,
    nameColumn_dropBlankEnd]
  congr 1
  exact List.map_congr_left fun e' _ => nameColumn_entryLine e'

/-- A line ends in the name of the child. -/
lemma shownName_suffix (e : Entry) : shownName e <:+ (entryLine e).toList := by
  obtain ⟨head, -, hline⟩ := exists_heading e
  exact ⟨head, hline.symm⟩

/-- A line without blanks at its end does so unless the name ends in a blank. -/
lemma shownName_suffix_iff (e : Entry) :
    shownName e <:+ dropBlankEnd (entryLine e).toList ↔ endsBlank (shownName e) = false := by
  by_cases hne : shownName e = []
  · rw [hne]
    exact iff_of_true List.nil_suffix rfl
  · constructor
    · rintro ⟨before, h⟩
      rw [← Text.endsBlank_append before hne, h, Text.endsBlank_dropBlankEnd]
    · intro hends
      obtain ⟨head, h⟩ := shownName_suffix e
      rw [← h, Text.dropBlankEnd_eq_self (by rw [Text.endsBlank_append _ hne, hends])]
      exact List.suffix_append _ _

/-- Does the text of a listing lack the end of a name? -/
def cutsName (es : List Entry) : Bool := es.getLast?.any fun e => endsBlank (shownName e)

/-- The name of a container ends in its slash. -/
lemma endsBlank_shownName {e : Entry} (h : e.node.kind.isContainer = true) :
    endsBlank (shownName e) = false := by
  rw [shownName, if_pos h, Text.endsBlank_append _ (List.cons_ne_nil _ _)]
  decide

/-- So only the name of a file is cut. -/
lemma exists_file_of_cutsName {es : List Entry} (h : cutsName es = true) :
    ∃ e, es.getLast? = some e ∧ e.node.kind = .file := by
  unfold cutsName at h
  cases hlast : es.getLast? with
  | none =>
    rw [hlast] at h
    cases h
  | some e =>
    rw [hlast, Option.any_some] at h
    refine ⟨e, rfl, ?_⟩
    cases hk : e.node.kind with
    | file => rfl
    | _ =>
      rw [endsBlank_shownName (by rw [hk]; rfl)] at h
      cases h

/-- Without slashes in it the name is what is shown, up to a slash. -/
lemma filter_shownName {e : Entry} (h : '/' ∉ (nameOf e.node).toList) :
    (shownName e).filter (· != '/') = (nameOf e.node).toList := by
  have hname : (nameOf e.node).toList.filter (· != '/') = (nameOf e.node).toList := by
    refine List.filter_eq_self.2 fun c hc => ?_
    rw [bne_iff_ne]
    rintro rfl
    exact h hc
  rw [shownName, List.filter_append, hname]
  split
  · exact List.append_nil _
  · exact List.append_nil _

/-- Names without slashes are the shown names without slashes. -/
lemma map_filter_shownName {es : List Entry} (h : ∀ e ∈ es, '/' ∉ (nameOf e.node).toList) :
    (es.map shownName).map (List.filter (· != '/')) = es.map fun e => (nameOf e.node).toList := by
  rw [List.map_map]
  exact List.map_congr_left fun e he => filter_shownName (h e he)

/-- The slash behind the name of a container adds no line feed. -/
lemma line_feed_not_mem_shownName {e : Entry} (h : '\n' ∉ (nameOf e.node).toList) :
    '\n' ∉ shownName e := by
  rw [shownName, List.mem_append]
  refine not_or.2 ⟨h, ?_⟩
  split <;> decide

section

variable {es : List Entry} (hne : es ≠ []) (h : ∀ e ∈ es, '\n' ∉ (nameOf e.node).toList)

include hne h

/-- A listing has one line for each child. -/
theorem length_splitOn_listing :
    ((listing es).toList.splitOn '\n').length = es.length := by
  obtain ⟨before, last, rfl⟩ := (List.eq_nil_or_concat' es).resolve_left hne
  rw [splitOn_listing before last fun e he => line_feed_not_mem_shownName (h e he),
    List.length_append, List.length_map, List.length_append]
  rfl

/-- **A line ends in the name** of its child, unless it is the last one and that name is cut. -/
theorem shownName_suffix_line_iff {i : Nat} {e : Entry} {line : List Char} (he : es[i]? = some e)
    (hl : ((listing es).toList.splitOn '\n')[i]? = some line) :
    shownName e <:+ line ↔ ¬ (i + 1 = es.length ∧ cutsName es = true) := by
  obtain ⟨before, last, rfl⟩ := (List.eq_nil_or_concat' es).resolve_left hne
  rw [splitOn_listing before last fun e he => line_feed_not_mem_shownName (h e he)] at hl
  have hi : i < (before ++ [last]).length := (List.getElem?_eq_some_iff.1 he).1
  rw [List.length_append, List.length_singleton] at hi ⊢
  have hcut : cutsName (before ++ [last]) = endsBlank (shownName last) := by simp [cutsName]
  rcases Nat.lt_succ_iff_lt_or_eq.1 hi with hi | rfl
  · rw [List.getElem?_append_left hi] at he
    rw [List.getElem?_append_left (by simpa using hi), List.getElem?_map, he, Option.map_some,
      Option.some.injEq] at hl
    subst hl
    exact iff_of_true (shownName_suffix e) fun hlast => by omega
  · obtain rfl : last = e := by simpa using he
    obtain rfl : dropBlankEnd (entryLine last).toList = line := by simpa using hl
    rw [shownName_suffix_iff, hcut, Bool.eq_false_iff]
    exact not_congr (and_iff_right rfl).symm

/-- **The names can be read off** a listing, unless the last one is cut. -/
theorem nameColumns_listing_iff :
    nameColumns (listing es) = es.map shownName ↔ cutsName es = false := by
  obtain ⟨before, last, rfl⟩ := (List.eq_nil_or_concat' es).resolve_left hne
  have hcut : cutsName (before ++ [last]) = endsBlank (shownName last) := by simp [cutsName]
  rw [nameColumns_listing before last fun e he => line_feed_not_mem_shownName (h e he), hcut,
    List.map_append, List.map_singleton, List.append_cancel_left_eq, List.singleton_inj]
  refine ⟨fun hkept => ?_, Text.dropBlankEnd_eq_self⟩
  rw [← hkept, Text.endsBlank_dropBlankEnd]

end

end Report

/-! ## Names of children -/

namespace Path

/-- A place below the root has a name. -/
lemma Valid.exists_name {p : Path} (hp : p.Valid) (hr : p.isRoot = false) :
    ∃ name, p.name = some name ∧ name.toList ≠ [] := by
  have hne : p.labels ≠ [] := by
    rw [hp.labels_eq hr]
    exact List.splitOn_ne_nil _ _
  refine ⟨segmentOf (p.labels.getLast hne), ?_, ?_⟩
  · rw [name, List.getLast?_eq_some_getLast hne, Option.map_some]
  · exact hp.segment_ne_nil _ (List.mem_map_of_mem (List.getLast_mem hne))

end Path

/-- The places of children are valid, and below the root. -/
lemma Tables.Keyed.valid_of_mem_children {t : Tables} (h : t.Keyed) {owner : OwnerId} {id : NodeId}
    {ns : List Node} (hc : t.children owner id = .ok ns) {n : Node} (hn : n ∈ ns) :
    n.path.Valid ∧ n.path.isRoot = false := by
  unfold children at hc
  split at hc
  · obtain rfl := Except.ok.inj hc
    cases hn
  · next top hfind =>
    obtain ⟨rfl, hv⟩ := Node.of_readBackAll hc
    refine ⟨hv n hn, ?_⟩
    rw [mem_sortedByPath, List.mem_filter, mem_subtree, Bool.and_eq_true, bne_iff_ne] at hn
    obtain ⟨⟨hmem, ho, hcovers⟩, hid, -⟩ := hn
    have htop := List.find?_some hfind
    simp only [Bool.and_eq_true, beq_iff_eq] at htop
    refine Path.isRoot_of_covers_ne hcovers fun hplace => hid ?_
    rw [← h.nodes.places top (List.mem_of_find?_eq_some hfind) n hmem (htop.1.2.trans ho.symm)
      hplace, htop.1.1]

namespace Archive

/-- What is listed has a name. -/
lemma exists_name_of_mem_list {a : Archive} (h : a.tables.Keyed) {owner : OwnerId} {path : Path}
    {es : List Entry} (hlist : a.list owner path = .ok es) {e : Entry} (he : e ∈ es) :
    ∃ name, e.node.path.name = some name ∧ name.toList ≠ [] := by
  unfold list at hlist
  split at hlist
  · cases hlist
  · next top _ =>
    split at hlist
    · cases hc : a.tables.children owner top.id with
      | error e => simp [hc, Except.map] at hlist
      | ok children =>
        rw [hc] at hlist
        obtain rfl := Except.ok.inj hlist
        obtain ⟨n, hn, rfl⟩ := List.mem_map.1 he
        obtain ⟨hv, hr⟩ := h.valid_of_mem_children hc hn
        rw [entry_node]
        exact hv.exists_name hr
    · cases hlist

end Archive

namespace Command

open Report

/-- The command for listings shows the listing, if there is one. -/
lemma performList_of_list {a : Archive} {owner : OwnerId} {path : Path} {es : List Entry}
    (h : a.list owner path = .ok es) : (performList owner path a).1 = .ok (listing es) := by
  rw [performList, h]
  rfl

/-- **Names in listings.** Take any state that can be reached and a place in it whose listing has
children, with no line feed in a name. The listing is shown with one line for each child, in this
order, and the line ends in the name, which is followed by a slash for a container. This holds of
each line except for the last one if its name ends in a blank, which only that of a file can do: the
blanks at the end of the text are cut off. All names can be read off the text if this is not so, and
only then. Hence two listings of this kind that show the same names have the same children, but for
the slash after the name of a container, and if no name has a slash in it then the names are the
same.

**Proof sketch.** The first columns have no line feed, and two spaces in a row only where a column
ends. Each has a character that is no blank, so that what is cut off belongs to the last name, or to
the gap before it if there is nothing else in the name. -/
theorem names_shown {a : Archive} (ha : a.Reachable) {owner : OwnerId} {path : Path}
    {es : List Entry} (hlist : a.list owner path = .ok es) (hne : es ≠ [])
    (hline : ∀ e ∈ es, '\n' ∉ (nameOf e.node).toList) :
    ∃ text, (performList owner path a).1 = .ok text ∧
      (text.toList.splitOn '\n').length = es.length ∧
      (∀ e ∈ es, ∃ name, e.node.path.name = some name ∧ name.toList ≠ [] ∧
        shownName e = name.toList ++ if e.node.kind.isContainer then ['/'] else []) ∧
      (∀ (i : Nat) (e : Entry) (line : List Char), es[i]? = some e →
        (text.toList.splitOn '\n')[i]? = some line →
        (shownName e <:+ line ↔ ¬ (i + 1 = es.length ∧ cutsName es = true))) ∧
      (cutsName es = true → ∃ e, es.getLast? = some e ∧ e.node.kind = .file) ∧
      (nameColumns text = es.map shownName ↔ cutsName es = false) ∧
      ∀ (a' : Archive) (owner' : OwnerId) (path' : Path) (es' : List Entry) (text' : String),
        a'.list owner' path' = .ok es' → es' ≠ [] →
        (∀ e ∈ es', '\n' ∉ (nameOf e.node).toList) →
        (performList owner' path' a').1 = .ok text' →
        cutsName es = false → cutsName es' = false → nameColumns text = nameColumns text' →
        es.map shownName = es'.map shownName ∧
          ((∀ e ∈ es ++ es', '/' ∉ (nameOf e.node).toList) →
            (es.map fun e => (nameOf e.node).toList) =
              es'.map fun e => (nameOf e.node).toList) := by
  refine ⟨listing es, performList_of_list hlist, length_splitOn_listing hne hline, ?_,
    fun i e line he hl => shownName_suffix_line_iff hne hline he hl, exists_file_of_cutsName,
    nameColumns_listing_iff hne hline, ?_⟩
  · intro e he
    obtain ⟨name, hname, hsome⟩ := Archive.exists_name_of_mem_list ha.isForest.keyed hlist he
    refine ⟨name, hname, hsome, ?_⟩
    rw [shownName, nameOf, hname, Option.getD_some]
  · intro a' owner' path' es' text' hlist' hne' hline' htext' hcut hcut' hsame
    rw [performList_of_list hlist'] at htext'
    obtain rfl := Except.ok.inj htext'
    rw [(nameColumns_listing_iff hne hline).2 hcut, (nameColumns_listing_iff hne' hline').2 hcut']
      at hsame
    refine ⟨hsame, fun hslash => ?_⟩
    rw [List.forall_mem_append] at hslash
    rw [← map_filter_shownName hslash.1, ← map_filter_shownName hslash.2, hsame]

end Command

/-! ### Names with blanks -/

namespace Step

/-- An owner adds a directory whose name is a space, a file whose name ends in one, and two
directories. Each of them gets a file, and the names of the two files differ in a space at the
end. -/
def addBlankNames : List Step :=
  let owner : OwnerId := ⟨.ofNat 1⟩
  beginTree ++ [⟨.numbered 2, owner, .createDirectory ⟨"~20"⟩⟩,
    ⟨.numbered 3, owner, .createFile ⟨"a~20"⟩ ⟨"sum", 1⟩ [.data ⟨#[1]⟩]⟩,
    ⟨.numbered 4, owner, .createDirectory ⟨"c"⟩⟩, ⟨.numbered 5, owner, .createDirectory ⟨"d"⟩⟩,
    ⟨.numbered 6, owner, .createFile ⟨"c.a"⟩ ⟨"sum", 2⟩ [.data ⟨#[1, 2]⟩]⟩,
    ⟨.numbered 7, owner, .createFile ⟨"d.a~20"⟩ ⟨"sum", 2⟩ [.data ⟨#[3, 4]⟩]⟩]

end Step

namespace Command

open Report

/-- All names are shown in the root, where the directory with the blank name is the last one. -/
theorem names_shown_root :
    let a := Archive.empty.after Step.addBlankNames
    ∃ text, (performList ⟨.ofNat 1⟩ .root a).1 = .ok text ∧
      nameColumns text = ["a ".toList, "c/".toList, "d/".toList, " /".toList] := by
  intro a
  let owner : OwnerId := ⟨.ofNat 1⟩
  let children : List Node := [⟨⟨.ofNat 300⟩, .file, ⟨"a~20"⟩, owner, default⟩,
    ⟨⟨.ofNat 400⟩, .dir, ⟨"c"⟩, owner, default⟩, ⟨⟨.ofNat 500⟩, .dir, ⟨"d"⟩, owner, default⟩,
    ⟨⟨.ofNat 200⟩, .dir, ⟨"~20"⟩, owner, default⟩]
  have ha : a.Reachable := Archive.Reachable.empty.after _
  have hlist : a.list owner .root = .ok (children.map (a.entry owner)) :=
    Archive.list_of_perm ha.isForest (by decide +kernel)
      ⟨⟨.ofNat 100⟩, .root, .root, owner, default⟩ children (by decide +kernel) rfl
      (by decide +kernel) (by decide +kernel)
  have hnames : (children.map (a.entry owner)).map shownName =
      ["a ".toList, "c/".toList, "d/".toList, " /".toList] := by
    simp only [List.map_map, shownName, Archive.entry_node, Function.comp_def]
    decide +kernel
  have hlines : ∀ e ∈ children.map (a.entry owner), '\n' ∉ (nameOf e.node).toList := by
    simp only [List.forall_mem_map, Archive.entry_node]
    decide +kernel
  have hkept : cutsName (children.map (a.entry owner)) = false := by
    simp only [cutsName, children, List.map_cons, List.map_nil, List.getLast?_cons_cons,
      List.getLast?_singleton, Option.any_some, shownName, Archive.entry_node]
    decide +kernel
  obtain ⟨text, htext, -, -, -, -, hshown, -⟩ := names_shown ha hlist (by simp [children]) hlines
  exact ⟨text, htext, (hshown.2 hkept).trans hnames⟩

/-- **The last name is cut.** Two directories have one file each. The names of the files are not the
same, and are shown as the same. -/
theorem last_name_cut :
    let a := Archive.empty.after Step.addBlankNames
    let owner : OwnerId := ⟨.ofNat 1⟩
    let text := "FILE           2  1970-01-01 00:00:00.000000  a"
    ∃ es es', a.list owner ⟨"c"⟩ = .ok es ∧ a.list owner ⟨"d"⟩ = .ok es' ∧
      (es.map fun e => nameOf e.node) = ["a"] ∧ (es'.map fun e => nameOf e.node) = ["a "] ∧
      (performList owner ⟨"c"⟩ a).1 = .ok text ∧ (performList owner ⟨"d"⟩ a).1 = .ok text ∧
      ¬ "a ".toList <:+ text.toList := by
  intro a owner text
  have hforest : a.tables.IsForest := (Archive.Reachable.empty.after _).isForest
  have hv : ∀ n ∈ a.tables.nodes, n.path.Valid := by decide +kernel
  have hentry (n : Node) (v : Version) (hk : n.kind = .file)
      (hvs : a.tables.versionsOf owner n.id = [v]) : a.entry owner n = ⟨n, some v⟩ := by
    rw [Archive.entry, if_pos (by rw [hk]; rfl), Tables.newestVersions, Tables.history, hvs,
      List.mergeSort_singleton]
    rfl
  let plain : Node := ⟨⟨.ofNat 600⟩, .file, ⟨"c.a"⟩, owner, default⟩
  let blank : Node := ⟨⟨.ofNat 700⟩, .file, ⟨"d.a~20"⟩, owner, default⟩
  have hplain : a.list owner ⟨"c"⟩ = .ok [a.entry owner plain] :=
    Archive.list_of_perm hforest hv ⟨⟨.ofNat 400⟩, .dir, ⟨"c"⟩, owner, default⟩ [plain]
      (by decide +kernel) rfl (List.pairwise_singleton _ _) (by decide +kernel)
  have hblank : a.list owner ⟨"d"⟩ = .ok [a.entry owner blank] :=
    Archive.list_of_perm hforest hv ⟨⟨.ofNat 500⟩, .dir, ⟨"d"⟩, owner, default⟩ [blank]
      (by decide +kernel) rfl (List.pairwise_singleton _ _) (by decide +kernel)
  rw [hentry plain ⟨⟨.ofNat 600⟩, ⟨.ofNat 6⟩, "sum", 2, owner, default, default⟩ rfl
    (by decide +kernel)] at hplain
  rw [hentry blank ⟨⟨.ofNat 700⟩, ⟨.ofNat 7⟩, "sum", 2, owner, default, default⟩ rfl
    (by decide +kernel)] at hblank
  refine ⟨_, _, hplain, hblank, by decide +kernel, by decide +kernel, ?_, ?_, by decide +kernel⟩
  · rw [performList_of_list hplain]
    decide +kernel
  · rw [performList_of_list hblank]
    decide +kernel

end Command

end VersionedTree
