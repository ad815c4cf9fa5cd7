import Mathlib.Algebra.Group.Nat.Defs
import Mathlib.Data.List.Basic
import Mathlib.Tactic.Lemma

/-!
# Lexicographic comparison

Lists are compared by their first difference, and a list that another one goes on from comes before
it. The comparison is that of the elements where lists are put together of parts with the same
lengths, of parts between separators, or of the digits of numbers.

## Main definitions

* `VersionedTree.digits` — a number in a fixed count of digits.

## Main results

* `VersionedTree.compare_map` — elements may be exchanged for others that compare alike.
* `VersionedTree.compare_append_of_length_eq` — the parts of lists are compared in turn.
* `VersionedTree.compare_append_of_separated` — so are parts that end at a small separator.
* `VersionedTree.isPrefix_of_between` — what is between lists with one beginning has it too.
* `VersionedTree.compare_digits` — digits compare like their numbers.
* `VersionedTree.compare_toList` — texts compare like their characters.
-/

set_option autoImplicit false

namespace VersionedTree

section Lists

variable {α β : Type} [Ord α] [Ord β]

/-! ## Parts of lists -/

/-- **Elements may be exchanged** for others that compare alike. -/
lemma compare_map {f : α → β} {l l' : List α}
    (h : ∀ x ∈ l, ∀ y ∈ l', compare (f x) (f y) = compare x y) :
    compare (l.map f) (l'.map f) = compare l l' := by
  induction l generalizing l' with
  | nil => cases l' <;> rfl
  | cons x rest ih =>
    cases l' with
    | nil => rfl
    | cons y rest' =>
      have hrest : ∀ u ∈ rest, ∀ v ∈ rest', compare (f u) (f v) = compare u v := fun u hu v hv =>
        h u (List.mem_cons_of_mem x hu) v (List.mem_cons_of_mem y hv)
      rw [List.map_cons, List.map_cons, List.compare_cons_cons, List.compare_cons_cons, ih hrest,
        h x List.mem_cons_self y List.mem_cons_self]

/-- **Parts of the same lengths** are compared in turn. -/
lemma compare_append_of_length_eq {l l' : List α} (h : l.length = l'.length) (r r' : List α) :
    compare (l ++ r) (l' ++ r') = (compare l l').then (compare r r') := by
  induction l generalizing l' with
  | nil =>
    obtain rfl := List.length_eq_zero_iff.1 h.symm
    rfl
  | cons x rest ih =>
    cases l' with
    | nil => cases h
    | cons y rest' =>
      rw [List.cons_append, List.cons_append, List.compare_cons_cons, List.compare_cons_cons,
        ih (Nat.succ.inj h), Ordering.then_assoc]

/-- What two lists begin with is not compared. -/
lemma compare_append_left [Std.ReflOrd α] (l r r' : List α) :
    compare (l ++ r) (l ++ r') = compare r r' := by
  rw [compare_append_of_length_eq rfl, Std.ReflOrd.compare_self]
  rfl

/-- A separator at the same place is not compared. -/
lemma compare_insert [Std.ReflOrd α] {l l' : List α} (h : l.length = l'.length) (c : α)
    (r r' : List α) : compare (l ++ c :: r) (l' ++ c :: r') = compare (l ++ r) (l' ++ r') := by
  rw [compare_append_of_length_eq h, compare_append_of_length_eq h, List.compare_cons_cons,
    Std.ReflOrd.compare_self]
  rfl

/-- **Parts that end at a separator** are compared in turn, if the separator comes before all that
one of the parts goes on with after the other. -/
lemma compare_append_of_separated [Std.TransOrd α] [Std.LawfulEqOrd α] {c : α} {l l' r r' : List α}
    (hl : ∀ d more, l' = l ++ d :: more → compare c d = .lt)
    (hl' : ∀ d more, l = l' ++ d :: more → compare c d = .lt)
    (hr : ∀ d ∈ r.head?, d = c) (hr' : ∀ d ∈ r'.head?, d = c) :
    compare (l ++ r) (l' ++ r') = (compare l l').then (compare r r') := by
  induction l generalizing l' with
  | nil =>
    cases l' with
    | nil => rfl
    | cons y rest' =>
      cases r with
      | nil => rfl
      | cons d more =>
        obtain rfl : d = c := hr d rfl
        have hlt : compare d y = .lt := hl y rest' rfl
        rw [List.nil_append, List.cons_append, List.compare_cons_cons, hlt]
        rfl
  | cons x rest ih =>
    cases l' with
    | nil =>
      cases r' with
      | nil => rfl
      | cons d more =>
        obtain rfl : d = c := hr' d rfl
        have hgt : compare x d = .gt := Std.OrientedCmp.gt_iff_lt.2 (hl' x rest rfl)
        rw [List.nil_append, List.cons_append, List.compare_cons_cons, hgt]
        rfl
    | cons y rest' =>
      rw [List.cons_append, List.cons_append, List.compare_cons_cons, List.compare_cons_cons]
      cases hxy : compare x y with
      | lt => rfl
      | gt => rfl
      | eq =>
        obtain rfl : x = y := Std.LawfulEqOrd.eq_of_compare hxy
        exact ih (fun d more e => hl d more (congrArg (x :: ·) e))
          fun d more e => hl' d more (congrArg (x :: ·) e)

/-- **What is between lists with one beginning** begins in the same way. -/
lemma isPrefix_of_between [Std.TransOrd α] [Std.LawfulEqOrd α] {l m r r' : List α}
    (h : (compare (l ++ r) m).isLE = true) (h' : (compare m (l ++ r')).isLE = true) : l <+: m := by
  induction l generalizing m with
  | nil => exact List.nil_prefix
  | cons x rest ih =>
    cases m with
    | nil => cases h
    | cons y more =>
      rw [List.cons_append, List.compare_cons_cons, Ordering.isLE_then_iff_and] at h h'
      have heq : compare x y = .eq := Std.OrientedCmp.isLE_antisymm h.1 h'.1
      obtain rfl : x = y := Std.LawfulEqOrd.eq_of_compare heq
      rw [heq] at h h'
      exact List.cons_prefix_cons.2 ⟨rfl, ih (by simpa using h.2) (by simpa using h'.2)⟩

/-- Lists compare like they are ordered, if elements do. -/
lemma compare_eq_lt_iff [LT α] [Std.LawfulEqOrd α] (h : ∀ x y : α, compare x y = .lt ↔ x < y)
    {l l' : List α} : compare l l' = .lt ↔ l < l' := by
  induction l generalizing l' with
  | nil => cases l' <;> simp
  | cons x rest ih =>
    cases l' with
    | nil => simp
    | cons y rest' =>
      rw [List.compare_cons_cons, Ordering.then_eq_lt, List.cons_lt_cons_iff, h, ih,
        Std.LawfulEqOrd.compare_eq_iff_eq]

end Lists

/-! ## Digits -/

section Digits

variable {α : Type} {digit : Nat → α} {base : Nat}

/-- The last `width` digits of a number, the most significant one first. -/
def digits (digit : Nat → α) (base : Nat) : (width : Nat) → Nat → List α
  | 0, _ => []
  | w + 1, n => digits digit base w (n / base) ++ [digit (n % base)]

/-- As many digits are written as there is room for. -/
@[simp] lemma length_digits (width n : Nat) : (digits digit base width n).length = width := by
  induction width generalizing n with
  | zero => rfl
  | succ w ih => simp [digits, ih]

/-- Numbers are compared by quotients, then by remainders. -/
lemma compare_eq_then_mod (base m n : Nat) :
    compare m n = (compare (m / base) (n / base)).then (compare (m % base) (n % base)) := by
  cases hq : compare (m / base) (n / base) with
  | lt => exact Nat.compare_eq_lt.2 (Nat.lt_of_div_lt_div (Nat.compare_eq_lt.1 hq))
  | gt => exact Nat.compare_eq_gt.2 (Nat.lt_of_div_lt_div (Nat.compare_eq_gt.1 hq))
  | eq =>
    have hm := Nat.div_add_mod m base
    have hn := Nat.div_add_mod n base
    rw [Nat.compare_eq_eq.1 hq] at hm
    have hlt : m < n ↔ m % base < n % base := by omega
    have hgt : n < m ↔ n % base < m % base := by omega
    rw [Ordering.eq_then, Nat.compare_eq_ite_lt, Nat.compare_eq_ite_lt]
    simp only [hlt, hgt]

/-- **Digits compare like their numbers**, if each digit does. -/
lemma compare_digits [Ord α] (hbase : 0 < base)
    (hdigit : ∀ i < base, ∀ j < base, compare (digit i) (digit j) = compare i j) (width m n : Nat) :
    compare (digits digit base width m) (digits digit base width n) =
      compare (m % base ^ width) (n % base ^ width) := by
  induction width generalizing m n with
  | zero =>
    rw [Nat.pow_zero, Nat.mod_one, Nat.mod_one]
    rfl
  | succ w ih =>
    have hlast : compare [digit (m % base)] [digit (n % base)] =
        compare (m % base) (n % base) := by
      rw [List.compare_cons_cons, List.compare_nil_nil, Ordering.then_eq,
        hdigit _ (Nat.mod_lt m hbase) _ (Nat.mod_lt n hbase)]
    rw [digits, digits, compare_append_of_length_eq (by rw [length_digits, length_digits]), ih,
      hlast, compare_eq_then_mod base (m % base ^ (w + 1)), Nat.pow_succ,
      Nat.mod_mul_left_div_self, Nat.mod_mul_left_div_self, Nat.mod_mul_left_mod,
      Nat.mod_mul_left_mod]

end Digits

/-! ## Texts -/

/-- **Texts** compare like their characters. -/
lemma compare_toList (s t : String) : compare s t = compare s.toList t.toList := by
  have hchar (c d : Char) : compare c d = .lt ↔ c < d := compareOfLessAndEq_eq_lt
  have hlt (s t : String) : compare s t = .lt ↔ compare s.toList t.toList = .lt := by
    rw [compare_eq_lt_iff hchar, ← String.lt_iff]
    exact compareOfLessAndEq_eq_lt
  have hgt := hlt t s
  rw [← Std.OrientedCmp.gt_iff_lt, ← Std.OrientedCmp.gt_iff_lt] at hgt
  have heq : compare s t = .eq ↔ compare s.toList t.toList = .eq := by
    rw [Std.LawfulEqOrd.compare_eq_iff_eq, Std.LawfulEqOrd.compare_eq_iff_eq, String.toList_inj]
  cases h : compare s t with
  | lt => exact ((hlt s t).1 h).symm
  | eq => exact (heq.1 h).symm
  | gt => exact (hgt.1 h).symm

/-- The bytes of a text of single bytes are those of its characters. -/
lemma bytes_ofList {cs : List Char} (h : ∀ c ∈ cs, c.utf8Size = 1) :
    (String.ofList cs).toUTF8.data.toList = cs.map Char.toUInt8 := by
  have hbytes : cs.flatMap String.utf8EncodeChar = cs.map Char.toUInt8 := by
    induction cs with
    | nil => rfl
    | cons c rest ih =>
      rw [List.forall_mem_cons] at h
      rw [List.flatMap_cons, String.utf8EncodeChar_eq_singleton h.1, ih h.2]
      rfl
  rw [String.toUTF8_eq_toByteArray, String.toByteArray_ofList, List.utf8Encode, hbytes]
  simp

/-- Characters of one byte compare like their bytes, and differ if these do. -/
lemma toUInt8_lt_iff {c d : Char} (hc : c.utf8Size = 1) (hd : d.utf8Size = 1) :
    (c.toUInt8 < d.toUInt8 ↔ c < d) ∧ (c.toUInt8 = d.toUInt8 ↔ c = d) := by
  rw [Char.utf8Size_eq_one_iff, UInt32.le_iff_toNat_le] at hc hd
  have hbyte {e : Char} (he : e.val.toNat ≤ (127 : UInt32).toNat) :
      e.toUInt8.toNat = e.val.toNat := by
    have hlimit : (127 : UInt32).toNat = 127 := rfl
    rw [Char.toUInt8, UInt32.toNat_toUInt8]
    omega
  rw [Char.lt_def, UInt8.lt_iff_toNat_lt, UInt32.lt_iff_toNat_lt, ← UInt8.toNat_inj, ← Char.val_inj,
    ← UInt32.toNat_inj, hbyte hc, hbyte hd]
  exact ⟨Iff.rfl, Iff.rfl⟩

/-- **Texts of single bytes** compare like their bytes. -/
lemma compare_map_toUInt8 {cs ds : List Char} (hc : ∀ c ∈ cs, c.utf8Size = 1)
    (hd : ∀ d ∈ ds, d.utf8Size = 1) :
    compare (cs.map Char.toUInt8) (ds.map Char.toUInt8) = compare cs ds := by
  refine compare_map fun c hcs d hds => ?_
  obtain ⟨hlt, heq⟩ := toUInt8_lt_iff (hc c hcs) (hd d hds)
  simp only [compare, compareOfLessAndEq, hlt, heq]

end VersionedTree
