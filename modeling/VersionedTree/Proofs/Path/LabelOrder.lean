import VersionedTree.Proofs.Lexicographic
import VersionedTree.Proofs.Path.Rebasing

/-!
# The order of labels

Paths are compared by their stored texts. In these a label ends at a dot, and the dot comes before
every character that a label can go on with: before plain characters, and before the sign of an
escape. What comes inside an escape does not matter, as no label ends there. So stored texts compare
like lists of labels, and places are ordered as a tree is walked: a place first, then all that is
below it, then the places after it.

## Main definitions

* `VersionedTree.Path.labelBytes` — the stored spelling of each label, in bytes.

## Main results

* `VersionedTree.Label.decodeBytes_append` — a label is read to its end whatever follows it.
* `VersionedTree.Path.IsLabel.dot_lt` — what a label goes on with comes after the dot.
* `VersionedTree.Path.Valid.order_eq` — paths are ordered by their lists of labels.
* `VersionedTree.Path.Valid.order_eq_labelBytes` — labels are compared by their bytes.
-/

set_option autoImplicit false

namespace VersionedTree

/-! ## What follows a label -/

namespace Label

/-- **A label is read to its end** in the same way, whatever follows it. -/
lemma decodeBytes_append {cs : List Char} {bytes : List UInt8} (h : decodeBytes cs = .ok bytes)
    (rest : List Char) : decodeBytes (cs ++ rest) = (decodeBytes rest).map (bytes ++ ·) := by
  fun_induction decodeBytes cs generalizing bytes with
  | case1 =>
    obtain rfl := Except.ok.inj h
    cases hr : decodeBytes rest <;> simp [hr, Except.map]
  | case2 high low more hsize ih =>
    cases hescape : decodeEscape high low with
    | error e => simp [hescape, bind, Except.bind] at h
    | ok b =>
      cases hmore : decodeBytes more with
      | error e => simp [hescape, hmore, bind, Except.bind] at h
      | ok bs =>
        rw [hescape, hmore] at h
        obtain rfl : b :: bs = bytes := Except.ok.inj h
        rw [List.cons_append, List.cons_append, List.cons_append, decodeBytes, if_pos hsize,
          hescape, ih hmore]
        cases decodeBytes rest <;> rfl
  | case8 c more _ _ hc hplain ih =>
    cases hmore : decodeBytes more with
    | error e => simp [hmore, bind, Except.bind] at h
    | ok bs =>
      rw [hmore] at h
      obtain rfl : c.toUInt8 :: bs = bytes := Except.ok.inj h
      rw [List.cons_append, decodeBytes_cons_of_isPlain hc hplain, ih hmore]
      cases decodeBytes rest <;> rfl
  | _ => cases h

/-- Plain characters come after the dot. -/
lemma dot_lt_of_isPlain {c : Char} (h : isPlain c = true) : '.' < c := by
  have hdot : '.'.val.toNat = 46 := rfl
  have hc := toNat_of_isPlain h
  rw [Char.lt_def, UInt32.lt_iff_toNat_lt]
  omega

/-- What is read begins with the sign of an escape or with a plain character. -/
lemma dot_lt_of_decodeBytes {c : Char} {rest : List Char} {bytes : List UInt8}
    (h : decodeBytes (c :: rest) = .ok bytes) : '.' < c := by
  by_cases hc : c = '~'
  · rw [hc]
    decide
  · refine dot_lt_of_isPlain ?_
    by_contra hplain
    rw [decodeBytes.eq_4 c rest (fun _ _ _ e _ => hc e) (fun _ e _ => hc e), if_neg hc,
      if_neg hplain] at h
    cases h

end Label

namespace Path

variable {p q : Path} {label : List Char}

/-- **What a label goes on with** after another label comes after the dot. -/
theorem IsLabel.dot_lt {c : Char} {more : List Char} (h : IsLabel label)
    (h' : IsLabel (label ++ c :: more)) : compare '.' c = .lt := by
  obtain ⟨bytes, hbytes⟩ := h.exists_bytes
  obtain ⟨bytes', hbytes'⟩ := h'.exists_bytes
  rw [Label.decodeBytes_append hbytes] at hbytes'
  cases hrest : Label.decodeBytes (c :: more) with
  | error e =>
    rw [hrest] at hbytes'
    cases hbytes'
  | ok rest => exact compareOfLessAndEq_eq_lt.2 (Label.dot_lt_of_decodeBytes hrest)

/-! ## Texts and labels -/

/-- **Labels with dots before them** compare like the labels.

**Proof sketch.** Induction on the labels. After a label there is a dot or nothing, so that a label
with another one as its beginning comes later, whatever follows the other one. -/
lemma compare_flatMap_dot {labels labels' : List (List Char)}
    (h : ∀ label ∈ labels, IsLabel label) (h' : ∀ label ∈ labels', IsLabel label) :
    compare (labels.flatMap fun label => '.' :: label)
      (labels'.flatMap fun label => '.' :: label) = compare labels labels' := by
  have hdot (labels : List (List Char)) :
      ∀ c ∈ (labels.flatMap fun label => '.' :: label).head?, c = '.' := by
    intro c hc
    cases labels with
    | nil => cases hc
    | cons label rest => exact (Option.some.inj hc).symm
  induction labels generalizing labels' with
  | nil => cases labels' <;> rfl
  | cons label rest ih =>
    cases labels' with
    | nil => rfl
    | cons label' rest' =>
      rw [List.forall_mem_cons] at h h'
      rw [List.flatMap_cons, List.flatMap_cons, List.cons_append, List.cons_append,
        List.compare_cons_cons, Std.ReflOrd.compare_self, Ordering.eq_then,
        compare_append_of_separated (fun c more e => h.1.dot_lt (e ▸ h'.1))
          (fun c more e => h'.1.dot_lt (e ▸ h.1)) (hdot rest) (hdot rest'),
        ih h.2 h'.2, List.compare_cons_cons]

/-- The labels of a valid path, each with a dot before it, are the text of the path with a dot
before it. -/
lemma Valid.flatMap_labels (hp : p.Valid) (hr : p.isRoot = false) :
    (p.labels.flatMap fun label => '.' :: label) = '.' :: p.chars := by
  rw [hp.labels_eq hr, flatMap_splitOn]

/-- Only the root has no characters and no labels. -/
lemma Valid.exists_cons (hp : p.Valid) (hr : p.isRoot = false) :
    (∃ c rest, p.chars = c :: rest) ∧ ∃ label rest, p.labels = label :: rest := by
  have hchars : p.chars ≠ [] := fun e => by simp [isRoot_iff.2 e] at hr
  have hlabels : p.labels ≠ [] := by
    rw [hp.labels_eq hr]
    exact List.splitOn_ne_nil '.' p.chars
  exact ⟨List.exists_cons_of_ne_nil hchars, List.exists_cons_of_ne_nil hlabels⟩

/-- Stored texts compare like lists of labels.

**Proof sketch.** The root comes before all other paths in both comparisons. Two other paths have a
dot before each label if they have one before their texts. -/
lemma Valid.compare_chars (hp : p.Valid) (hq : q.Valid) :
    compare p.chars q.chars = compare p.labels q.labels := by
  have hroot : root.chars = [] ∧ root.labels = [] := ⟨rfl, rfl⟩
  cases hpr : p.isRoot with
  | true =>
    obtain rfl := eq_root hpr
    cases hqr : q.isRoot with
    | true =>
      obtain rfl := eq_root hqr
      rfl
    | false =>
      obtain ⟨⟨c, rest, hchars⟩, label, rest', hlabels⟩ := hq.exists_cons hqr
      rw [hroot.1, hroot.2, hchars, hlabels, List.compare_nil_cons, List.compare_nil_cons]
  | false =>
    cases hqr : q.isRoot with
    | true =>
      obtain rfl := eq_root hqr
      obtain ⟨⟨c, rest, hchars⟩, label, rest', hlabels⟩ := hp.exists_cons hpr
      rw [hroot.1, hroot.2, hchars, hlabels, List.compare_cons_nil, List.compare_cons_nil]
    | false =>
      rw [← compare_flatMap_dot (fun label hl => hp.isLabel hl) fun label hl => hq.isLabel hl,
        hp.flatMap_labels hpr, hq.flatMap_labels hqr, List.compare_cons_cons,
        Std.ReflOrd.compare_self, Ordering.eq_then]

/-- **Paths are ordered** by their lists of labels. -/
theorem Valid.order_eq (hp : p.Valid) (hq : q.Valid) : p.order q = compare p.labels q.labels :=
  (compare_toList p.encoded q.encoded).trans (hp.compare_chars hq)

/-! ## Labels in bytes -/

/-- The stored spelling of each label, in bytes. -/
def labelBytes (p : Path) : List (List UInt8) :=
  p.labels.map fun label => (String.ofList label).toUTF8.data.toList

/-- The bytes of a label are those of its characters. -/
lemma IsLabel.bytes_eq (h : IsLabel label) :
    (String.ofList label).toUTF8.data.toList = label.map Char.toUInt8 :=
  bytes_ofList fun c hc => (h.byte c hc).1

/-- Labels compare like their bytes. -/
lemma IsLabel.compare_bytes {label' : List Char} (h : IsLabel label) (h' : IsLabel label') :
    compare (String.ofList label).toUTF8.data.toList (String.ofList label').toUTF8.data.toList =
      compare label label' := by
  rw [h.bytes_eq, h'.bytes_eq, compare_map_toUInt8 (fun c hc => (h.byte c hc).1)
    fun c hc => (h'.byte c hc).1]

/-- **Paths are ordered** by their lists of labels, compared by bytes. -/
theorem Valid.order_eq_labelBytes (hp : p.Valid) (hq : q.Valid) :
    p.order q = compare p.labelBytes q.labelBytes := by
  rw [hp.order_eq hq, labelBytes, labelBytes]
  exact (compare_map fun label hl label' hl' =>
    (hp.isLabel hl).compare_bytes (hq.isLabel hl')).symm

end Path

end VersionedTree
