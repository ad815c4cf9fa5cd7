import VersionedTree.Config.Text
import VersionedTree.Proofs.Toml.Strings

/-!
# Documents of strings are read back

A document may be a list of lines that name strings, with blank lines and with headers of tables in
front of some of them. Such lines are read as the statements that they write. Strings without a
header in front of them are added to the table that is open, if their names are new.

## Main definitions

* `VersionedTree.Toml.Line` — a line of such a document.
* `VersionedTree.Toml.fields` — the entries that name strings.

## Main results

* `VersionedTree.Toml.key?_append` — names without quotes are read as keys.
* `VersionedTree.Toml.statements?_flatMap` — the lines are read back.
* `VersionedTree.Toml.buildFrom?_fields` — what strings add to a document.
-/

set_option autoImplicit false

namespace VersionedTree.Toml

/-! ## Keys -/

/-- A name that needs no quotes. -/
def IsName (name : String) : Prop :=
  name.toList ≠ [] ∧ ∀ c ∈ name.toList, isBare c = true

instance (name : String) : Decidable (IsName name) :=
  decidable_of_iff (name.toList ≠ [] ∧ name.toList.all isBare = true)
    (and_congr_right fun _ => List.all_eq_true)

variable {name : String}

/-- Nothing is skipped in front of what is no blank. -/
lemma skipBlank_cons {c : Char} (hc : isBlank c = false) (cs : List Char) :
    skipBlank (c :: cs) = c :: cs := List.dropWhile_cons_of_neg (by simp [hc])

/-- The first character of a name begins nothing else. -/
lemma IsName.exists_cons (h : IsName name) :
    ∃ c cs, name.toList = c :: cs ∧ isBare c = true := by
  obtain ⟨c, cs, hname⟩ := List.exists_cons_of_ne_nil h.1
  exact ⟨c, cs, hname, h.2 c (hname ▸ List.mem_cons_self)⟩

/-- Characters that are not part of a name without quotes. -/
lemma ne_of_isBare {c d : Char} (hc : isBare c = true) (hd : isBare d = false) : c ≠ d := by
  rintro rfl
  rw [hc] at hd
  cases hd

/-- No blank is part of a name without quotes. -/
lemma isBlank_of_isBare {c : Char} (hc : isBare c = true) : isBlank c = false := by
  have htab := ne_of_isBare hc (d := '\t') (by decide)
  have hspace := ne_of_isBare hc (d := ' ') (by decide)
  simp [isBlank, htab, hspace]

/-- **A name without quotes** is read up to the first other character. -/
lemma key?_append (h : IsName name) {after : List Char}
    (hend : ∀ c ∈ after.head?, isBare c = false) (hdot : (skipBlank after).head? ≠ some '.') :
    key? (name.toList ++ after) = some (⟨[], name⟩, skipBlank after) := by
  obtain ⟨c, cs, hname, hc⟩ := h.exists_cons
  have hblank : skipBlank (name.toList ++ after) = name.toList ++ after := by
    rw [hname]
    exact skipBlank_cons (isBlank_of_isBare hc) _
  have hquoted : readLine? (name.toList ++ after) = none := by
    rw [hname, List.cons_append, readLine?]
    · rintro more hm
      exact ne_of_isBare hc (by decide) (List.cons.inj hm).1
    · rintro more hm
      exact ne_of_isBare hc (by decide) (List.cons.inj hm).1
  have hstop : after.takeWhile isBare = [] ∧ after.dropWhile isBare = after := by
    cases after with
    | nil => exact ⟨rfl, rfl⟩
    | cons d more =>
      have hd := hend d rfl
      exact ⟨List.takeWhile_cons_of_neg (by simp [hd]), List.dropWhile_cons_of_neg (by simp [hd])⟩
  have hpart : keyPart? (name.toList ++ after) = some (name, after) := by
    rw [keyPart?, hquoted, List.takeWhile_append_of_pos h.2, List.dropWhile_append_of_pos h.2,
      hstop.1, hstop.2, List.append_nil, hname]
    simp only [← hname, String.ofList_toList]
  have hparts : keyParts? maxParts (name.toList ++ after) = some ([name], skipBlank after) := by
    rw [maxParts, keyParts?, hblank, hpart]
    simp only
    split
    · next more hm => exact absurd (congrArg List.head? hm) hdot
    · rfl
  rw [key?, hparts]
  rfl

/-! ## Lines -/

/-- A line of a document of strings. -/
inductive Line where
  /-- A string under a name. -/
  | field (name text : String)
  /-- The header of a table. -/
  | header (name : String)
  /-- Nothing. -/
  | blank

namespace Line

/-- The line as it is written. -/
def text : Line → String
  | field name text => fieldLine name text
  | header name => "[" ++ name ++ "]\n"
  | blank => "\n"

/-- What the line says. -/
def statement? : Line → Option Statement
  | field name text => some (.entry ⟨[], name⟩ (.string text))
  | header name => some (.table ⟨[], name⟩)
  | blank => none

/-- Is the name on the line one without quotes? -/
def IsNamed : Line → Prop
  | field name _ | header name => IsName name
  | blank => True

end Line

/-- The line feed ends a line. -/
lemma finishLine?_cons (rest : List Char) : finishLine? ('\n' :: rest) = some rest := by
  rw [finishLine?, skipBlank_cons (by decide)]
  rfl

/-- A string with quotes begins with a quote. -/
lemma quote_cons (s : String) : ∃ q cs, (quote s).toList = q :: cs ∧ (q = '"' ∨ q = '\'') := by
  rw [quote, String.toList_ofList]
  cases Style.choose s.toList with
  | basic => exact ⟨_, _, rfl, .inl rfl⟩
  | literal => exact ⟨_, _, rfl, .inr rfl⟩
  | basicLines => exact ⟨_, _, rfl, .inl rfl⟩
  | literalLines => exact ⟨_, _, rfl, .inr rfl⟩

/-- A string with quotes is read as a value, up to its last quote. -/
lemma value?_quote (s : String) (fuel depth : Nat) {rest : List Char}
    (hdouble : rest.head? ≠ some '"') (hsingle : rest.head? ≠ some '\'') :
    value? (fuel + 1) depth ((quote s).toList ++ rest) = some (.string s, rest) := by
  have hread := readString?_quote s hdouble hsingle
  obtain ⟨q, cs, hq, rfl | rfl⟩ := quote_cons s
  all_goals
    rw [hq, List.cons_append] at hread ⊢
    rw [value?, hread]
    rfl

/-- The line of a field is read as an entry with this name and text. -/
lemma assignment?_field (h : IsName name) (text : String) (fuel : Nat) (rest : List Char) :
    assignment? (fuel + 1) ((fieldLine name text).toList ++ rest) =
      some (.entry ⟨[], name⟩ (.string text), rest) := by
  have hline : (fieldLine name text).toList ++ rest =
      name.toList ++ ' ' :: '=' :: ' ' :: ((quote text).toList ++ '\n' :: rest) := by
    simp [fieldLine]
  have hkey : key? (name.toList ++ ' ' :: '=' :: ' ' :: ((quote text).toList ++ '\n' :: rest)) =
      some (⟨[], name⟩, '=' :: ' ' :: ((quote text).toList ++ '\n' :: rest)) :=
    key?_append h (by simp [isBare]) nofun
  have hblank : skipBlank (' ' :: ((quote text).toList ++ '\n' :: rest)) =
      (quote text).toList ++ '\n' :: rest := by
    obtain ⟨q, cs, hq, rfl | rfl⟩ := quote_cons text <;> rw [hq] <;> rfl
  have hvalue : value? (fuel + 1) maxDepth ((quote text).toList ++ '\n' :: rest) =
      some (.string text, '\n' :: rest) := value?_quote text fuel maxDepth nofun nofun
  rw [hline, assignment?, hkey]
  simp only [hblank, hvalue, finishLine?_cons, Option.map_some]

/-- **A line with a string** is read as an entry. -/
lemma statementsFrom?_field (h : IsName name) (text : String) (fuel : Nat) (rest : List Char) :
    statementsFrom? (fuel + 2) ((fieldLine name text).toList ++ rest) =
      (statementsFrom? (fuel + 1) rest).map (.entry ⟨[], name⟩ (.string text) :: ·) := by
  obtain ⟨c, cs, hname, hc⟩ := h.exists_cons
  obtain ⟨more, hline⟩ : ∃ more, (fieldLine name text).toList ++ rest = c :: more := by
    simp [fieldLine, hname]
  have hread := assignment?_field h text fuel rest
  rw [hline] at hread ⊢
  rw [statementsFrom?, skipBlank_cons (isBlank_of_isBare hc)]
  split
  · next hm => cases hm
  · next hm => exact absurd (List.cons.inj hm).1 (ne_of_isBare hc (by decide))
  · next hm => exact absurd (List.cons.inj hm).1 (ne_of_isBare hc (by decide))
  · next hm => exact absurd (List.cons.inj hm).1 (ne_of_isBare hc (by decide))
  · next hm => exact absurd (List.cons.inj hm).1 (ne_of_isBare hc (by decide))
  · rw [hread]
    rfl

/-- **A line with a header** is read as the header of a table. -/
lemma statementsFrom?_header (h : IsName name) (fuel : Nat) (rest : List Char) :
    statementsFrom? (fuel + 1) ((Line.header name).text.toList ++ rest) =
      (statementsFrom? fuel rest).map (.table ⟨[], name⟩ :: ·) := by
  have hline : (Line.header name).text.toList ++ rest =
      '[' :: (name.toList ++ ']' :: '\n' :: rest) := by
    simp [Line.text]
  have hkey : key? (name.toList ++ ']' :: '\n' :: rest) =
      some (⟨[], name⟩, ']' :: '\n' :: rest) :=
    key?_append h (by simp [isBare]) nofun
  have hheader : header? (name.toList ++ ']' :: '\n' :: rest) =
      some (.table ⟨[], name⟩, rest) := by
    obtain ⟨c, cs, hname, hc⟩ := h.exists_cons
    rw [header?]
    · rw [hkey]
      simp only [finishLine?_cons, Option.map_some]
    · rintro more hm
      rw [hname] at hm
      exact ne_of_isBare hc (by decide) (List.cons.inj hm).1
  rw [hline, statementsFrom?, skipBlank_cons (by decide)]
  simp only [hheader, Option.bind_some]

/-- A blank line says nothing. -/
lemma statementsFrom?_blank (fuel : Nat) (rest : List Char) :
    statementsFrom? (fuel + 1) (Line.blank.text.toList ++ rest) = statementsFrom? fuel rest := by
  have hline : Line.blank.text.toList ++ rest = '\n' :: rest := by simp [Line.text]
  rw [hline, statementsFrom?, skipBlank_cons (by decide)]
  rfl

/-- **Lines** are read as the statements that they write, with a step for each of them. -/
lemma statementsFrom?_flatMap {ls : List Line} (h : ∀ l ∈ ls, l.IsNamed) {fuel : Nat}
    (hfuel : ls.length < fuel) :
    statementsFrom? fuel (ls.flatMap fun l => l.text.toList) =
      some (ls.filterMap Line.statement?) := by
  induction ls generalizing fuel with
  | nil =>
    obtain ⟨fuel, rfl⟩ := Nat.exists_eq_succ_of_ne_zero (Nat.ne_of_gt hfuel)
    rfl
  | cons l more ih =>
    rw [List.forall_mem_cons] at h
    rw [List.length_cons] at hfuel
    obtain ⟨fuel, rfl⟩ : ∃ k, fuel = k + 2 := ⟨fuel - 2, by omega⟩
    have hmore := ih h.2 (Nat.lt_of_succ_lt_succ hfuel)
    rw [List.flatMap_cons]
    cases l with
    | field name text =>
      rw [Line.text, statementsFrom?_field h.1, hmore]
      rfl
    | header name =>
      rw [statementsFrom?_header h.1, hmore]
      rfl
    | blank =>
      rw [statementsFrom?_blank, hmore]
      rfl

/-- A line begins with a name, a bracket or its end. -/
lemma Line.IsNamed.exists_cons {l : Line} (h : l.IsNamed) :
    ∃ c cs, l.text.toList = c :: cs ∧ c ≠ '\ufeff' := by
  cases l with
  | field name text =>
    obtain ⟨c, cs, hname, hc⟩ := IsName.exists_cons h
    obtain ⟨cs', hline⟩ : ∃ cs', (Line.field name text).text.toList = c :: cs' := by
      simp [Line.text, fieldLine, hname]
    exact ⟨c, cs', hline, ne_of_isBare hc (by decide)⟩
  | header name => exact ⟨'[', _, by simp [Line.text]; rfl, by decide⟩
  | blank => exact ⟨'\n', [], by simp [Line.text], by decide⟩

/-- There are no more lines than characters in them. -/
lemma length_le_length_flatMap {ls : List Line} (h : ∀ l ∈ ls, l.IsNamed) :
    ls.length ≤ (ls.flatMap fun l => l.text.toList).length := by
  induction ls with
  | nil => exact Nat.zero_le _
  | cons l more ih =>
    rw [List.forall_mem_cons] at h
    obtain ⟨c, cs, hl, -⟩ := h.1.exists_cons
    have hmore := ih h.2
    rw [List.flatMap_cons, List.length_append, hl, List.length_cons, List.length_cons]
    omega

/-- **A document of lines** is read as the statements that they write. -/
theorem statements?_flatMap {ls : List Line} (h : ∀ l ∈ ls, l.IsNamed) :
    statements? (ls.flatMap fun l => l.text.toList) = some (ls.filterMap Line.statement?) := by
  have hmark : skipMark (ls.flatMap fun l => l.text.toList) =
      ls.flatMap fun l => l.text.toList := by
    cases ls with
    | nil => rfl
    | cons l more =>
      obtain ⟨c, cs, hl, hc⟩ := (h l List.mem_cons_self).exists_cons
      rw [List.flatMap_cons, hl, List.cons_append, skipMark]
      rintro rest hrest
      exact hc (List.cons.inj hrest).1
  have hlength := length_le_length_flatMap h
  rw [statements?, hmark]
  exact statementsFrom?_flatMap h (by omega)

/-! ## Tables -/

/-- The first entry of a name is found. -/
lemma find?_cons (name : String) (e : String × Toml) (entries : Entries) :
    find? name (e :: entries) = if e.1 = name then some e.2 else find? name entries := by
  by_cases h : e.1 = name <;> simp [find?, h]

/-- A name that has no entry is not found. -/
lemma find?_eq_none {entries : Entries} (h : name ∉ entries.map Prod.fst) :
    find? name entries = none := by
  induction entries with
  | nil => rfl
  | cons e more ih =>
    rw [List.map_cons, List.mem_cons, not_or] at h
    rw [find?_cons, if_neg (Ne.symm h.1), ih h.2]

/-- A new name is found at the end. -/
lemma find?_append_self {entries : Entries} (h : name ∉ entries.map Prod.fst) (v : Toml) :
    find? name (entries ++ [(name, v)]) = some v := by
  induction entries with
  | nil => simp [find?]
  | cons e more ih =>
    rw [List.map_cons, List.mem_cons, not_or] at h
    rw [List.cons_append, find?_cons, if_neg (Ne.symm h.1), ih h.2]

/-- The value of a new name is replaced at the end. -/
lemma replace_append_self {entries : Entries} (h : name ∉ entries.map Prod.fst) (v w : Toml) :
    replace name w (entries ++ [(name, v)]) = entries ++ [(name, w)] := by
  have hkept : replace name w entries = entries := by
    rw [replace, List.map_congr_left (g := id), List.map_id]
    intro e he
    have hne : e.1 ≠ name := by
      rintro rfl
      exact h (List.mem_map_of_mem he)
    exact if_neg (by simpa using hne)
  rw [replace, List.map_append, ← replace, hkept]
  simp

/-- The entries that name strings. -/
def fields (named : List (String × String)) : Entries :=
  named.map fun field => (field.1, .string field.2)

/-- The statements that name strings. -/
def assignments (named : List (String × String)) : List Statement :=
  named.map fun field => .entry ⟨[], field.1⟩ (.string field.2)

/-- **Strings with new names** are added to the table that is open. -/
theorem buildFrom?_assignments {path : List String} {put : Entries → Entries}
    (hput : ∀ change entries, within? change path (put entries) = (change entries).map put)
    (named : List (String × String)) (more : List Statement) {entries : Entries}
    (hnew : (entries.map Prod.fst ++ named.map Prod.fst).Nodup) :
    buildFrom? (assignments named ++ more) path (put entries) =
      buildFrom? more path (put (entries ++ fields named)) := by
  induction named generalizing entries with
  | nil => simp [assignments, fields]
  | cons field rest ih =>
    have hname : field.1 ∉ entries.map Prod.fst := by
      rw [List.nodup_append] at hnew
      exact fun he => hnew.2.2 _ he _ List.mem_cons_self rfl
    have hrest : ((entries ++ [(field.1, Toml.string field.2)]).map Prod.fst ++
        rest.map Prod.fst).Nodup := by
      rw [List.map_append, List.append_assoc]
      exact hnew
    have hinsert : insert? (.string field.2) field.1 [] entries =
        some (entries ++ [(field.1, .string field.2)]) := by
      rw [insert?, find?_eq_none hname]
    have hread := ih hrest
    rw [List.append_assoc] at hread
    rw [assignments, List.map_cons, List.cons_append, buildFrom?, hput, hinsert, Option.map_some,
      Option.bind_some]
    exact hread

/-- A document with a table at its end. -/
def withTable (title : String) (entries table : Entries) : Entries :=
  entries ++ [(title, .table .header table)]

/-- The table at the end of a document is changed alone. -/
lemma within?_withTable {title : String} {entries : Entries} (h : title ∉ entries.map Prod.fst)
    (change : Entries → Option Entries) (table : Entries) :
    within? change [title] (withTable title entries table) =
      (change table).map (withTable title entries) := by
  rw [within?, withTable, find?_append_self h]
  simp only [within?, replace_append_self h]
  rfl

end VersionedTree.Toml
