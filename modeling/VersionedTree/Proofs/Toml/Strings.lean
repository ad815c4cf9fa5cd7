import Mathlib.Tactic.Lemma
import Mathlib.Tactic.SplitIfs
import VersionedTree.Toml.Text

/-!
# Strings are read back

A text that is written between quotes of the chosen kind is read as the same text, whatever its
characters are.

## Main results

* `VersionedTree.Toml.escapeChar_cases` — how a character is written between double quotes.
* `VersionedTree.Toml.readString?_quote` — strings are read back.
-/

set_option autoImplicit false

namespace VersionedTree.Toml

/-! ## Characters between double quotes -/

/-- The letters of escapes. -/
def letters : List Char := ['"', '\\', 'b', 'f', 'n', 'r', 't']

/-- What was read, with more characters in front. -/
def prepend (front : List Char) (r : Option (List Char × List Char)) :
    Option (List Char × List Char) :=
  r.map fun (cs, after) => (front ++ cs, after)

/-- No characters in front change nothing. -/
lemma prepend_nil (r : Option (List Char × List Char)) : prepend [] r = r := by
  cases r <;> rfl

/-- Characters may be put in front in two groups. -/
lemma prepend_prepend (front back : List Char) (r : Option (List Char × List Char)) :
    prepend front (prepend back r) = prepend (front ++ back) r := by
  cases r <;> simp [prepend]

section

variable {c e : Char} (rest : List Char)

/-- The four digits of a control character. -/
lemma charOf?_of_isControl (h : isControl c = true) :
    charOf? ((Hex.ofNat 4 c.toNat).map Char.toUpper) = some c := by
  have hsmall : c.toNat < 128 := by
    simp only [isControl, Bool.or_eq_true, Bool.and_eq_true, decide_eq_true_eq, beq_iff_eq] at h
    rcases h with h | rfl
    · omega
    · decide
  have hdigits : ∀ n < 128, Hex.toNat? ((Hex.ofNat 4 n).map Char.toUpper) = some n := by
    decide +kernel
  have hvalid : c.toNat.isValidChar := c.valid
  rw [charOf?, hdigits c.toNat hsmall, Option.bind_some, if_pos hvalid, Char.ofNat_toNat]

/-- A character stands for itself, or has an escape of one letter or of four digits. -/
lemma escapeChar_cases (lines : Bool) (allowed run : Nat) (c : Char) :
    (escapeChar lines allowed run c = [c] ∧ (c = '"' ∧ run < allowed ∨ c = '\n' ∧ lines = true ∨
      isPlain c = true ∧ c ≠ '"' ∧ c ≠ '\\')) ∨
    (∃ e ∈ letters, escapeChar lines allowed run c = ['\\', e] ∧ letterEscape? e = some c) ∨
    escapeChar lines allowed run c = '\\' :: 'u' :: (Hex.ofNat 4 c.toNat).map Char.toUpper ∧
      isControl c = true := by
  unfold escapeChar
  split_ifs with hquote hrun hbackslash hbreak hlines htab hb hf hr hcontrol
  · exact .inl ⟨rfl, .inl ⟨hquote, hrun⟩⟩
  · exact .inr (.inl ⟨'"', by decide, rfl, hquote.symm ▸ rfl⟩)
  · exact .inr (.inl ⟨'\\', by decide, rfl, hbackslash.symm ▸ rfl⟩)
  · exact .inl ⟨rfl, .inr (.inl ⟨hbreak, hlines⟩)⟩
  · exact .inr (.inl ⟨'n', by decide, rfl, hbreak.symm ▸ rfl⟩)
  · exact .inr (.inl ⟨'t', by decide, rfl, htab.symm ▸ rfl⟩)
  · exact .inr (.inl ⟨'b', by decide, rfl, hb.symm ▸ rfl⟩)
  · exact .inr (.inl ⟨'f', by decide, rfl, hf.symm ▸ rfl⟩)
  · exact .inr (.inl ⟨'r', by decide, rfl, hr.symm ▸ rfl⟩)
  · exact .inr (.inr ⟨rfl, hcontrol⟩)
  · have hplain : isPlain c = true := by simp [isPlain, hcontrol, hbreak]
    exact .inl ⟨rfl, .inr (.inr ⟨hplain, hquote, hbackslash⟩)⟩

/-! ## On one line -/

/-- A plain character stands for itself. -/
lemma basic?_plain (hc : isPlain c = true) (hquote : c ≠ '"') (hbackslash : c ≠ '\\') :
    basic? (c :: rest) = prepend [c] (basic? rest) := by
  rw [basic?, if_neg hquote, if_pos (by simp [hc, hbackslash])]
  · rfl
  all_goals exact fun _ _ => by intros; contradiction

/-- An escape of one letter stands for its character. -/
lemma basic?_letter (he : e ∈ letters) (hread : letterEscape? e = some c) :
    basic? ('\\' :: e :: rest) = prepend [c] (basic? rest) := by
  have hnumber : 'u' ∉ letters ∧ 'U' ∉ letters := by decide
  rw [basic?, hread]
  · cases basic? rest <;> rfl
  · rintro _ _ _ _ _ rfl
    exact absurd he hnumber.1
  · rintro _ _ _ _ _ _ _ _ _ rfl
    exact absurd he hnumber.2

/-- An escape of four digits stands for the control character that they number. -/
lemma basic?_digits (hc : isControl c = true) :
    basic? ('\\' :: 'u' :: ((Hex.ofNat 4 c.toNat).map Char.toUpper ++ rest)) =
      prepend [c] (basic? rest) := by
  have hread := charOf?_of_isControl hc
  simp only [Hex.ofNat, List.nil_append, List.cons_append, List.map_cons, List.map_nil] at hread ⊢
  rw [basic?, hread]
  cases basic? rest <;> rfl

/-- **One character** of a line is read as it is written. -/
lemma basic?_escapeChar (run : Nat) (c : Char) :
    basic? (escapeChar false 0 run c ++ rest) = prepend [c] (basic? rest) := by
  rcases escapeChar_cases false 0 run c with ⟨h, hc⟩ | ⟨e, he, h, hread⟩ | ⟨h, hcontrol⟩ <;> rw [h]
  · obtain ⟨hplain, hquote, hbackslash⟩ := (hc.resolve_left (by simp)).resolve_left (by simp)
    exact basic?_plain rest hplain hquote hbackslash
  · exact basic?_letter rest he hread
  · exact basic?_digits rest hcontrol

/-- **A line in double quotes** is read up to its end. -/
lemma basic?_escape (run : Nat) (cs : List Char) :
    basic? (escape false 0 run cs ++ '"' :: rest) = some (cs, rest) := by
  induction cs generalizing run with
  | nil => simp [escape, basic?]
  | cons c more ih =>
    rw [escape, List.append_assoc, basic?_escapeChar, ih]
    rfl

/-- **A line in single quotes** is read up to its end. -/
lemma literal?_append {cs : List Char} (hplain : ∀ c ∈ cs, isPlain c = true)
    (hquote : '\'' ∉ cs) : literal? (cs ++ '\'' :: rest) = some (cs, rest) := by
  induction cs with
  | nil => simp [literal?]
  | cons c more ih =>
    rw [List.forall_mem_cons] at hplain
    rw [List.mem_cons, not_or] at hquote
    rw [List.cons_append, literal?, if_neg (Ne.symm hquote.1), if_pos hplain.1,
      ih hplain.2 hquote.2]
    rfl

/-- What begins with a character that is not written as a quote does not begin with a quote. -/
lemma head?_escapeChar_ne {lines : Bool} {allowed run : Nat} (h : ¬ (c = '"' ∧ run < allowed)) :
    (escapeChar lines allowed run c ++ rest).head? ≠ some '"' := by
  rcases escapeChar_cases lines allowed run c with ⟨e, hc⟩ | ⟨_, -, e, -⟩ | ⟨e, -⟩ <;> rw [e]
  · rcases hc with hc | ⟨rfl, -⟩ | ⟨-, hc, -⟩
    · exact absurd hc h
    · exact nofun
    · simpa using hc
  · exact nofun
  · exact nofun

end

/-! ## Runs of quotes -/

section

variable {q : Char} {limit : Nat}

/-- No more than `limit` of a character stand in a row, after `run` of them. -/
def runsWithin (q : Char) (limit : Nat) : (run : Nat) → List Char → Prop
  | run, [] => run ≤ limit
  | run, c :: rest => run ≤ limit ∧ runsWithin q limit (if c = q then run + 1 else 0) rest

/-- The longest run is as long as each of them. -/
lemma runsWithin_longestRun {cs : List Char} (h : longestRun q cs ≤ limit) :
    runsWithin q limit 0 cs := by
  let count (p : Nat × Nat) (d : Char) : Nat × Nat :=
    if d == q then (p.1 + 1, max p.2 (p.1 + 1)) else (0, p.2)
  have hgrows (cs : List Char) (run best : Nat) : best ≤ (cs.foldl count (run, best)).2 := by
    induction cs generalizing run best with
    | nil => exact Nat.le_refl _
    | cons c more ih =>
      rw [List.foldl_cons]
      by_cases hc : c = q
      · have hcount : count (run, best) c = (run + 1, max best (run + 1)) := if_pos (by simpa)
        rw [hcount]
        exact Nat.le_trans (Nat.le_max_left _ _) (ih _ _)
      · have hcount : count (run, best) c = (0, best) := if_neg (by simpa)
        rw [hcount]
        exact ih _ _
  have hall (cs : List Char) (run best : Nat) (hrun : run ≤ best)
      (h : (cs.foldl count (run, best)).2 ≤ limit) : runsWithin q limit run cs := by
    induction cs generalizing run best with
    | nil => exact Nat.le_trans hrun h
    | cons c more ih =>
      refine ⟨Nat.le_trans hrun (Nat.le_trans (hgrows _ _ _) h), ?_⟩
      rw [List.foldl_cons] at h
      by_cases hc : c = q
      · have hcount : count (run, best) c = (run + 1, max best (run + 1)) := if_pos (by simpa)
        rw [hcount] at h
        rw [if_pos hc]
        exact ih _ _ (Nat.le_max_right _ _) h
      · have hcount : count (run, best) c = (0, best) := if_neg (by simpa)
        rw [hcount] at h
        rw [if_neg hc]
        exact ih _ _ (Nat.zero_le _) h
  exact hall cs 0 0 (Nat.le_refl 0) h

/-- The run that is open is within the limit. -/
lemma runsWithin.le {run : Nat} {cs : List Char} (h : runsWithin q limit run cs) :
    run ≤ limit := by
  cases cs with
  | nil => exact h
  | cons => exact h.1

/-- Without runs there is no such character. -/
lemma not_mem_of_runsWithin {run : Nat} {cs : List Char} (h : runsWithin q 0 run cs) :
    q ∉ cs := by
  induction cs generalizing run with
  | nil => exact List.not_mem_nil
  | cons c more ih =>
    have hc : c ≠ q := by
      rintro rfl
      have hle := h.2.le
      rw [if_pos rfl] at hle
      exact Nat.not_succ_le_zero _ hle
    rw [List.mem_cons, not_or]
    exact ⟨hc.symm, ih h.2⟩

/-- Up to two quotes are added to the text behind the three that end it. -/
lemma closing_replicate (q : Char) {run : Nat} (hrun : run ≤ 2) {rest : List Char}
    (hr : rest.head? ≠ some q) :
    closing q (List.replicate run q ++ rest) = (List.replicate run q, rest) := by
  have hnone : closing q rest = ([], rest) := by
    match rest with
    | [] => rfl
    | [c] => rw [closing, if_neg (by simpa using hr)]
    | c :: d :: more => rw [closing, if_neg (by simpa using hr)]
  match run, hrun with
  | 0, _ => exact hnone
  | 1, _ =>
    match rest with
    | [] => simp [closing]
    | c :: more => 
      have hc : c ≠ q := by simpa using hr
      simp [closing, hc]
  | 2, _ => simp [closing]

end

/-! ## On several lines -/

section

variable {c e : Char} (rest : List Char)

/-- Between three double quotes, a plain character or a break stands for itself, unless three quotes
begin there. -/
lemma basicLines?_char (hc : c = '\n' ∨ isPlain c = true) (hbackslash : c ≠ '\\')
    (hquotes : c = '"' → ∀ more, rest ≠ '"' :: '"' :: more) :
    basicLines? false (c :: rest) = prepend [c] (basicLines? false rest) := by
  have hreturn : c ≠ '\r' := by
    rintro rfl
    revert hc
    decide
  have hkept : c = '\n' ∨ isPlain c = true ∧ c ≠ '\\' := hc.imp_right fun h => ⟨h, hbackslash⟩
  rw [basicLines?, if_neg (by simp), if_pos hkept]
  · rfl
  · exact fun more hc => hquotes hc more
  all_goals exact fun _ _ => by intros; contradiction

/-- An escape of one letter stands for its character there, too. -/
lemma basicLines?_letter (he : e ∈ letters) (hread : letterEscape? e = some c) :
    basicLines? false ('\\' :: e :: rest) = prepend [c] (basicLines? false rest) := by
  obtain ⟨hu, hU, hn, hr, hblank⟩ :
      e ≠ 'u' ∧ e ≠ 'U' ∧ e ≠ '\n' ∧ e ≠ '\r' ∧ isBlank e = false := by
    simp only [letters, List.mem_cons, List.not_mem_nil, or_false] at he
    rcases he with rfl | rfl | rfl | rfl | rfl | rfl | rfl <;> decide
  have hline : endsLine (e :: rest) = false := by
    rw [endsLine, List.dropWhile_cons_of_neg (by simp [hblank])]
    split <;> simp_all
  rw [basicLines?, if_neg (by simp [hline]), hread]
  · cases basicLines? false rest <;> rfl
  all_goals exact fun _ _ => by intros; contradiction

/-- An escape of four digits stands for its control character there, too. -/
lemma basicLines?_digits (hc : isControl c = true) :
    basicLines? false ('\\' :: 'u' :: ((Hex.ofNat 4 c.toNat).map Char.toUpper ++ rest)) =
      prepend [c] (basicLines? false rest) := by
  have hread := charOf?_of_isControl hc
  simp only [Hex.ofNat, List.nil_append, List.cons_append, List.map_cons, List.map_nil] at hread ⊢
  rw [basicLines?, hread]
  cases basicLines? false rest <;> rfl

/-- **One character** of several lines is read as it is written, unless it is a quote that stands
for itself. -/
lemma basicLines?_escapeChar {run : Nat} (hquote : ¬ (c = '"' ∧ run < 2)) :
    basicLines? false (escapeChar true 2 run c ++ rest) =
      prepend [c] (basicLines? false rest) := by
  rcases escapeChar_cases true 2 run c with ⟨h, hc⟩ | ⟨e, he, h, hread⟩ | ⟨h, hcontrol⟩ <;> rw [h]
  · rcases hc.resolve_left hquote with ⟨rfl, -⟩ | ⟨hplain, hc, hbackslash⟩
    · exact basicLines?_char rest (.inl rfl) (by decide) fun h => absurd h (by decide)
    · exact basicLines?_char rest (.inr hplain) hbackslash fun h => absurd h hc
  · exact basicLines?_letter rest he hread
  · exact basicLines?_digits rest hcontrol

/-- A short run of quotes is read as such, by a reader that takes one quote if not three stand
together. -/
lemma read_replicate {q : Char} {read : List Char → Option (List Char × List Char)}
    (hone : ∀ rest, (∀ more, rest ≠ q :: q :: more) → read (q :: rest) = prepend [q] (read rest))
    {run : Nat} (hrun : run ≤ 2) {rest : List Char} (hr : rest.head? ≠ some q) :
    read (List.replicate run q ++ rest) = prepend (List.replicate run q) (read rest) := by
  induction run with
  | zero => exact (prepend_nil _).symm
  | succ run ih =>
    have hquotes (more : List Char) : List.replicate run q ++ rest ≠ q :: q :: more := by
      rintro h
      match run, hrun with
      | 0, _ => exact hr (congrArg List.head? h)
      | 1, _ => exact hr (congrArg List.head? (List.cons.inj h).2)
    rw [List.replicate_succ, List.cons_append, hone _ hquotes, ih (Nat.le_of_succ_le hrun),
      prepend_prepend]
    rfl

/-- Three quotes come first in a longer run. -/
lemma replicate_append_three (q : Char) (run : Nat) (rest : List Char) :
    List.replicate run q ++ q :: q :: q :: rest =
      q :: q :: q :: (List.replicate run q ++ rest) := by
  induction run with
  | zero => rfl
  | succ run ih => rw [List.replicate_succ, List.cons_append, ih, List.cons_append]

/-- A run of quotes goes on. -/
lemma replicate_append_cons (q : Char) (run : Nat) (rest : List Char) :
    List.replicate run q ++ q :: rest = List.replicate (run + 1) q ++ rest := by
  rw [List.replicate_succ', List.append_assoc, List.singleton_append]

/-- **Several lines in double quotes** are read up to their end, after a run of quotes.

**Proof sketch.** Quotes that stand for themselves are read together, as soon as the run ends. If
the text ends with it then they are those that follow the three closing ones. -/
lemma basicLines?_escape {rest : List Char} (hr : rest.head? ≠ some '"') {run : Nat}
    (hrun : run ≤ 2) (cs : List Char) :
    basicLines? false (List.replicate run '"' ++
      (escape true 2 run cs ++ '"' :: '"' :: '"' :: rest)) =
        some (List.replicate run '"' ++ cs, rest) := by
  induction cs generalizing run with
  | nil =>
    rw [escape, List.nil_append, replicate_append_three, basicLines?, closing_replicate '"' hrun hr,
      List.append_nil]
  | cons c more ih =>
    rw [escape]
    by_cases hquote : c = '"' ∧ run < 2
    · obtain ⟨rfl, hlt⟩ := hquote
      have hchar : escapeChar true 2 run '"' = ['"'] := by simp [escapeChar, hlt]
      rw [if_pos ⟨rfl, hlt⟩, hchar, List.append_assoc, List.singleton_append,
        replicate_append_cons, ih hlt, replicate_append_cons]
    · have hone (rest : List Char) (h : ∀ more, rest ≠ '"' :: '"' :: more) :
          basicLines? false ('"' :: rest) = prepend ['"'] (basicLines? false rest) :=
        basicLines?_char rest (.inr (by decide)) (by decide) fun _ => h
      have hmore := @ih 0 (Nat.zero_le 2)
      rw [List.replicate_zero, List.nil_append, List.nil_append] at hmore
      rw [if_neg hquote, List.append_assoc,
        read_replicate hone hrun (head?_escapeChar_ne _ hquote), basicLines?_escapeChar _ hquote,
        hmore]
      rfl

/-- Between three single quotes, a plain character or a break stands for itself, unless three quotes
begin there. -/
lemma literalLines?_char {c : Char} {rest : List Char} (hc : c = '\n' ∨ isPlain c = true)
    (hquotes : c = '\'' → ∀ more, rest ≠ '\'' :: '\'' :: more) :
    literalLines? (c :: rest) = prepend [c] (literalLines? rest) := by
  have hreturn : c ≠ '\r' := by
    rintro rfl
    revert hc
    decide
  rw [literalLines?, if_pos hc]
  · rfl
  · exact fun more hc => hquotes hc more
  · exact fun _ hc => absurd hc hreturn

/-- **Several lines in single quotes** are read up to their end, after a run of quotes. -/
lemma literalLines?_append {rest : List Char} (hr : rest.head? ≠ some '\'') {run : Nat}
    {cs : List Char} (hplain : ∀ c ∈ cs, isControl c = false) (hruns : runsWithin '\'' 2 run cs) :
    literalLines? (List.replicate run '\'' ++ (cs ++ '\'' :: '\'' :: '\'' :: rest)) =
      some (List.replicate run '\'' ++ cs, rest) := by
  induction cs generalizing run with
  | nil =>
    rw [List.nil_append, replicate_append_three, literalLines?, closing_replicate '\'' hruns hr,
      List.append_nil]
  | cons c more ih =>
    rw [List.forall_mem_cons] at hplain
    by_cases hquote : c = '\''
    · subst hquote
      have hmore := hruns.2
      rw [if_pos rfl] at hmore
      rw [List.cons_append, replicate_append_cons, ih hplain.2 hmore, replicate_append_cons]
    · have hmore := hruns.2
      rw [if_neg hquote] at hmore
      have hread := ih hplain.2 hmore
      rw [List.replicate_zero, List.nil_append, List.nil_append] at hread
      have hc : c = '\n' ∨ isPlain c = true := by
        by_cases hbreak : c = '\n'
        · exact .inl hbreak
        · exact .inr (by simp [isPlain, hplain.1, hbreak])
      have hone (rest : List Char) (h : ∀ more, rest ≠ '\'' :: '\'' :: more) :
          literalLines? ('\'' :: rest) = prepend ['\''] (literalLines? rest) :=
        literalLines?_char (.inr (by decide)) fun _ => h
      rw [List.cons_append, read_replicate hone hruns.1 (by simpa using hquote),
        literalLines?_char hc fun h => absurd h hquote, hread]
      rfl

end

/-! ## Strings of any kind -/

/-- A line break right behind opening quotes is written if the text has several lines, and it is
skipped. -/
lemma skipBreak_openLines {cs shown : List Char}
    (h : '\n' ∉ cs → shown.head? ≠ some '\n' ∧ shown.head? ≠ some '\r') :
    skipBreak (openLines cs ++ shown) = shown := by
  by_cases hlines : '\n' ∈ cs
  · have hopen : openLines cs = ['\n'] := if_pos (List.contains_iff_mem.2 hlines)
    rw [hopen]
    rfl
  · have hopen : openLines cs = [] := if_neg (by simpa using hlines)
    obtain ⟨hbreak, hreturn⟩ := h hlines
    rw [hopen, List.nil_append, skipBreak]
    · rintro more rfl
      exact hbreak rfl
    · rintro more rfl
      exact hreturn rfl

/-- The text between double quotes begins with a line break only if it is its first character. -/
lemma head?_escape_ne {cs : List Char} (hline : '\n' ∉ cs) (rest : List Char) :
    (escape true 2 0 cs ++ '"' :: rest).head? ≠ some '\n' ∧
      (escape true 2 0 cs ++ '"' :: rest).head? ≠ some '\r' := by
  cases cs with
  | nil => exact ⟨nofun, nofun⟩
  | cons c more =>
    rw [escape, List.append_assoc]
    rcases escapeChar_cases true 2 0 c with ⟨e, hc⟩ | ⟨_, -, e, -⟩ | ⟨e, -⟩ <;> rw [e]
    · rcases hc with ⟨rfl, -⟩ | ⟨rfl, -⟩ | ⟨hplain, -, -⟩
      · exact ⟨nofun, nofun⟩
      · exact absurd List.mem_cons_self hline
      · refine ⟨?_, ?_⟩ <;> rintro h <;> obtain rfl : c = _ := Option.some.inj h
        · exact hline List.mem_cons_self
        · revert hplain
          decide
    · exact ⟨nofun, nofun⟩
    · exact ⟨nofun, nofun⟩

/-- Without three quotes at its beginning, a text in quotes is read from one line. -/
lemma readString?_of_ne {q : Char} {shown : List Char}
    (h : ∀ more, shown ≠ q :: q :: more) : readString? (q :: shown) = readLine? (q :: shown) := by
  rw [readString?]
  · intro more hm
    obtain ⟨rfl, hshown⟩ := List.cons.inj hm
    exact h more hshown
  · intro more hm
    obtain ⟨rfl, hshown⟩ := List.cons.inj hm
    exact h more hshown

section

variable {cs rest : List Char} (hdouble : rest.head? ≠ some '"') (hsingle : rest.head? ≠ some '\'')

include hdouble in
/-- A text between double quotes is read back. -/
lemma readString?_basic :
    readString? (quoteAs .basic cs ++ rest) = some (String.ofList cs, rest) := by
  have hquotes (more : List Char) : escape false 0 0 cs ++ '"' :: rest ≠ '"' :: '"' :: more := by
    intro h
    cases cs with
    | nil => exact hdouble (congrArg List.head? (List.cons.inj h).2)
    | cons c more =>
      rw [escape, List.append_assoc] at h
      exact head?_escapeChar_ne _ (by simp) (congrArg List.head? h)
  simp only [quoteAs, List.append_assoc, List.cons_append, List.nil_append]
  rw [readString?_of_ne hquotes, readLine?, basic?_escape]
  rfl

include hsingle in
/-- A plain text without single quotes is read back from between them. -/
lemma readString?_literal (hplain : ∀ c ∈ cs, isPlain c = true) (hquote : '\'' ∉ cs) :
    readString? (quoteAs .literal cs ++ rest) = some (String.ofList cs, rest) := by
  have hquotes (more : List Char) : cs ++ '\'' :: rest ≠ '\'' :: '\'' :: more := by
    intro h
    cases cs with
    | nil => exact hsingle (congrArg List.head? (List.cons.inj h).2)
    | cons c more => exact hquote ((List.cons.inj h).1 ▸ List.mem_cons_self)
  simp only [quoteAs, List.append_assoc, List.cons_append, List.nil_append]
  rw [readString?_of_ne hquotes, readLine?, literal?_append rest hplain hquote]
  rfl

include hdouble in
/-- A text between three double quotes is read back. -/
lemma readString?_basicLines :
    readString? (quoteAs .basicLines cs ++ rest) = some (String.ofList cs, rest) := by
  have hread := basicLines?_escape hdouble (Nat.zero_le 2) cs
  rw [List.replicate_zero, List.nil_append, List.nil_append] at hread
  simp only [quoteAs, List.append_assoc, List.cons_append, List.nil_append]
  rw [readString?, skipBreak_openLines fun hline => head?_escape_ne hline _, hread]
  rfl

include hsingle in
/-- A text without control characters and without three single quotes in a row is read back from
between three single quotes. -/
lemma readString?_literalLines (hplain : ∀ c ∈ cs, isControl c = false)
    (hruns : runsWithin '\'' 2 0 cs) :
    readString? (quoteAs .literalLines cs ++ rest) = some (String.ofList cs, rest) := by
  have hread := literalLines?_append hsingle hplain hruns
  rw [List.replicate_zero, List.nil_append, List.nil_append] at hread
  have hfirst (hline : '\n' ∉ cs) (more : List Char) :
      (cs ++ '\'' :: more).head? ≠ some '\n' ∧ (cs ++ '\'' :: more).head? ≠ some '\r' := by
    cases cs with
    | nil => exact ⟨nofun, nofun⟩
    | cons c more =>
      refine ⟨?_, ?_⟩ <;> rintro h <;> obtain rfl : c = _ := Option.some.inj h
      · exact hline List.mem_cons_self
      · exact absurd (hplain _ List.mem_cons_self) (by decide)
  simp only [quoteAs, List.append_assoc, List.cons_append, List.nil_append]
  rw [readString?, skipBreak_openLines fun hline => hfirst hline _, hread]
  rfl

end

/-- **The kind of quotes.** Single quotes are taken only for texts that they can show. -/
lemma choose_cases (cs : List Char) :
    Style.choose cs = .basic ∨ Style.choose cs = .basicLines ∨
    (Style.choose cs = .literal ∧ (∀ c ∈ cs, isPlain c = true) ∧ '\'' ∉ cs) ∨
    Style.choose cs = .literalLines ∧ (∀ c ∈ cs, isControl c = false) ∧
      runsWithin '\'' 2 0 cs := by
  have hcontrols (h : (!cs.any isControl) = true) : ∀ c ∈ cs, isControl c = false := by
    simpa using h
  simp only [Style.choose]
  split_ifs with hbasic hliteral hbasicLines hliteralLines hlines
  · exact .inl rfl
  · rw [Bool.and_eq_true, Bool.and_eq_true, beq_iff_eq] at hliteral
    obtain ⟨⟨hplain, hsingles⟩, hline⟩ := hliteral
    have hquote : '\'' ∉ cs := not_mem_of_runsWithin (runsWithin_longestRun (Nat.le_of_eq hsingles))
    refine .inr (.inr (.inl ⟨rfl, fun c hc => ?_, hquote⟩))
    have hbreak : c ≠ '\n' := by
      rintro rfl
      simp [hc] at hline
    simp [isPlain, hcontrols hplain c hc, hbreak]
  · exact .inr (.inl rfl)
  · rw [Bool.and_eq_true, decide_eq_true_eq] at hliteralLines
    exact .inr (.inr (.inr ⟨rfl, hcontrols hliteralLines.1,
      runsWithin_longestRun hliteralLines.2⟩))
  · exact .inr (.inl rfl)
  · exact .inl rfl

/-- **Strings are read back**, whatever their characters are, if no quote follows them. -/
theorem readString?_quote (s : String) {rest : List Char} (hdouble : rest.head? ≠ some '"')
    (hsingle : rest.head? ≠ some '\'') :
    readString? ((quote s).toList ++ rest) = some (s, rest) := by
  rw [quote, String.toList_ofList]
  suffices h : readString? (quoteAs (Style.choose s.toList) s.toList ++ rest) =
      some (String.ofList s.toList, rest) by rwa [String.ofList_toList] at h
  rcases choose_cases s.toList with h | h | ⟨h, hplain, hquote⟩ | ⟨h, hcontrols, hruns⟩ <;> rw [h]
  · exact readString?_basic hdouble
  · exact readString?_basicLines hdouble
  · exact readString?_literal hsingle hplain hquote
  · exact readString?_literalLines hsingle hcontrols hruns

end VersionedTree.Toml
