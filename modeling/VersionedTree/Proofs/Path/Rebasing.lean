import VersionedTree.Proofs.Path.Building

/-!
# Transfers by labels

A valid path is its list of labels. One place is above another if its labels begin the labels of the
other, and a transfer exchanges this beginning for the labels of its target. What follows stays, so
that a transfer can be undone, two of them make up one, and the shape of a subtree is kept. The root
is no exception: it is the place without labels.

## Main results

* `VersionedTree.Path.Valid.labels_isPrefix_iff` — ancestry is that of lists of labels.
* `VersionedTree.Path.Valid.rebase_eq_some_iff` — a transfer keeps the labels that follow.
* `VersionedTree.Path.transfer_laws` — how transfers undo, follow and preserve each other.
-/

set_option autoImplicit false

namespace VersionedTree.Path

variable {a b c p q source target : Path}

/-! ## Ancestry on labels -/

/-- Below a place labels go on from its own. -/
lemma labels_isPrefix_of_covers (h : a.covers p = true) : a.labels <+: p.labels := by
  rcases covers_iff.1 h with hr | rfl | ⟨rest, e⟩
  · rw [eq_root hr]
    exact List.nil_prefix
  · exact List.prefix_rfl
  · rw [labels, labels, e, List.splitOn_append_cons_self, List.filter_append]
    exact List.prefix_append _ _

/-- **Ancestry on labels** is ancestry on characters.

**Proof sketch.** A valid path is made of its labels. If they go on from those of `a` then the path
is `a` with the further labels joined to it. -/
theorem Valid.labels_isPrefix_iff (ha : a.Valid) (hp : p.Valid) :
    a.labels <+: p.labels ↔ a.covers p = true := by
  refine ⟨?_, labels_isPrefix_of_covers⟩
  rintro ⟨more, hmore⟩
  have hlabels : ∀ label ∈ more, IsLabel label := by
    intro label hl
    refine hp.isLabel ?_
    rw [← hmore]
    exact List.mem_append_right _ hl
  have hjoined : p = more.foldl join a := by
    rw [← hp.ofLabels_labels, ← (valid_foldl_join hlabels ha).ofLabels_labels,
      labels_foldl_join hlabels, hmore]
  cases hr : a.isRoot with
  | true => exact covers_iff.2 (.inl hr)
  | false =>
    exact (covers_iff_foldl_join hr).2 ⟨more, fun label hl => (hlabels label hl).dot_not_mem,
      hjoined⟩

/-- Ancestors are the places whose labels come first. -/
lemma Valid.isAncestorOf_iff (ha : a.Valid) (hp : p.Valid) :
    a.isAncestorOf p = true ↔ a.labels <+: p.labels := by
  rw [isAncestorOf_eq_covers, ha.labels_isPrefix_iff hp]

/-- Valid paths with the same labels are the same. -/
lemma Valid.labels_inj (hp : p.Valid) (hq : q.Valid) : p.labels = q.labels ↔ p = q := by
  refine ⟨fun h => ?_, congrArg labels⟩
  rw [← hp.ofLabels_labels, h, hq.ofLabels_labels]

/-! ## Transfers -/

/-- There is a transfer from the ancestors of a path, and from no other place. -/
lemma isSome_rebase (p source target : Path) :
    (p.rebase source target).isSome = source.isAncestorOf p := by
  unfold rebase
  split
  · next h => exact h.symm
  · next h => exact (Bool.eq_false_iff.2 h).symm

/-- **A transfer** keeps the labels that follow those of its source, and puts those of its target
in front of them.

**Proof sketch.** The labels that are left of the path after those of the source are joined to the
target, one by one. They are labels, so that each of them is found again. -/
theorem Valid.rebase_eq_some_iff (hp : p.Valid) (hs : source.Valid) (ht : target.Valid) :
    p.rebase source target = some q ↔
      q.Valid ∧ ∃ more, p.labels = source.labels ++ more ∧ q.labels = target.labels ++ more := by
  have hmoved : ∀ more, p.labels = source.labels ++ more →
      ∃ r, p.rebase source target = some r ∧ r.Valid ∧ r.labels = target.labels ++ more := by
    intro more hmore
    have habove : source.isAncestorOf p = true :=
      (hs.isAncestorOf_iff hp).2 ⟨more, hmore.symm⟩
    have hleft : p.labels.drop source.depth = more := by
      rw [hmore]
      exact List.drop_left
    have hlabels : ∀ label ∈ more, IsLabel label := by
      intro label hl
      rw [← hleft] at hl
      exact hp.isLabel (List.mem_of_mem_drop hl)
    refine ⟨more.foldl join target, ?_, valid_foldl_join hlabels ht,
      labels_foldl_join hlabels target⟩
    rw [rebase, if_pos habove, hleft]
  constructor
  · intro h
    have habove : source.isAncestorOf p = true := by
      rw [← isSome_rebase p source target, h]
      rfl
    obtain ⟨more, hmore⟩ := (hs.isAncestorOf_iff hp).1 habove
    obtain ⟨r, hr, hvalid, hlabels⟩ := hmoved more hmore.symm
    obtain rfl := Option.some.inj (h.symm.trans hr)
    exact ⟨hvalid, more, hmore.symm, hlabels⟩
  · rintro ⟨hq, more, hmore, hlabels⟩
    obtain ⟨r, hr, hvalid, hlabels'⟩ := hmoved more hmore
    rw [hr, (hvalid.labels_inj hq).1 (hlabels'.trans hlabels.symm)]

section laws

variable (hp : p.Valid) (ha : a.Valid) (hb : b.Valid) (h : p.rebase a b = some q)

include hp ha hb h

/-- A transferred path is as much deeper than the target as it was deeper than the source. -/
lemma depth_rebase : q.depth + a.depth = p.depth + b.depth := by
  obtain ⟨-, more, hpl, hql⟩ := (hp.rebase_eq_some_iff ha hb).1 h
  simp only [depth, hpl, hql, List.length_append]
  omega

/-- **A transfer back** gives back the path. -/
lemma rebase_back : q.rebase b a = some p := by
  obtain ⟨hq, more, hpl, hql⟩ := (hp.rebase_eq_some_iff ha hb).1 h
  exact (hq.rebase_eq_some_iff hb ha).2 ⟨hp, more, hql, hpl⟩

/-- **A further transfer** from the target is one from the source. -/
lemma rebase_rebase (hc : c.Valid) : q.rebase b c = p.rebase a c := by
  obtain ⟨hq, more, hpl, hql⟩ := (hp.rebase_eq_some_iff ha hb).1 h
  refine Option.ext fun r => ?_
  rw [hq.rebase_eq_some_iff hb hc, hp.rebase_eq_some_iff ha hc, hpl, hql]
  simp only [List.append_cancel_left_eq]

variable {p' q' : Path} (hp' : p'.Valid) (h' : p'.rebase a b = some q')

include hp' h'

/-- **A transfer keeps ancestors** among the paths that it takes along. -/
lemma isAncestorOf_rebase : q.isAncestorOf q' = p.isAncestorOf p' := by
  obtain ⟨hq, more, hpl, hql⟩ := (hp.rebase_eq_some_iff ha hb).1 h
  obtain ⟨hq', more', hpl', hql'⟩ := (hp'.rebase_eq_some_iff ha hb).1 h'
  rw [Bool.eq_iff_iff, hq.isAncestorOf_iff hq', hp.isAncestorOf_iff hp', hpl, hql, hpl', hql',
    List.prefix_append_right_inj, List.prefix_append_right_inj]

/-- **Different paths** stay different. -/
lemma rebase_inj : q = q' ↔ p = p' := by
  constructor
  · rintro rfl
    exact Option.some.inj ((rebase_back hp ha hb h).symm.trans (rebase_back hp' ha hb h'))
  · rintro rfl
    exact Option.some.inj (h.symm.trans h')

end laws

/-- **The laws of transfers.** Take texts that are accepted as paths. There is a transfer of one
path from a second one to a third one if the second one is an ancestor of it, and only then. The
transferred path is accepted, is at or below its target, and is as much deeper than its target as
the path was deeper than its source. A transfer back gives back the path, and a transfer from the
target to a further place gives the path that the transfer from the source to this place gives. Any
other path below the source is transferred as well. Then one of the two is an ancestor of the other
if this was so before, and they are the same if they were the same before, and only then.

**Proof sketch.** A transfer relates the paths of which the labels are those of source and target,
followed by the same ones. This relation is the other way round for the transfer back, and all the
rest is cancelling what two lists begin with. -/
theorem transfer_laws {atext btext ctext ptext : String} (ha : fromEncoded atext = .ok a)
    (hb : fromEncoded btext = .ok b) (hc : fromEncoded ctext = .ok c)
    (hp : fromEncoded ptext = .ok p) :
    ((p.rebase a b).isSome = true ↔ a.isAncestorOf p = true) ∧
    ∀ q, p.rebase a b = some q →
      fromEncoded q.encoded = .ok q ∧ b.isAncestorOf q = true ∧
      q.depth + a.depth = p.depth + b.depth ∧
      q.rebase b a = some p ∧
      q.rebase b c = p.rebase a c ∧
      ∀ (text : String) (p' : Path), fromEncoded text = .ok p' → a.isAncestorOf p' = true →
        ∃ q', p'.rebase a b = some q' ∧
          (p.isAncestorOf p' = true ↔ q.isAncestorOf q' = true) ∧ (q = q' ↔ p = p') := by
  have hav : a.Valid := (valid_of_fromEncoded ha).1
  have hbv : b.Valid := (valid_of_fromEncoded hb).1
  have hcv : c.Valid := (valid_of_fromEncoded hc).1
  have hpv : p.Valid := (valid_of_fromEncoded hp).1
  refine ⟨by rw [isSome_rebase], fun q h => ?_⟩
  obtain ⟨hqv, more, -, hlabels⟩ := (hpv.rebase_eq_some_iff hav hbv).1 h
  refine ⟨hqv, (hbv.isAncestorOf_iff hqv).2 ⟨more, hlabels.symm⟩, depth_rebase hpv hav hbv h,
    rebase_back hpv hav hbv h, rebase_rebase hpv hav hbv h hcv, fun text p' htext habove => ?_⟩
  have hpv' : p'.Valid := (valid_of_fromEncoded htext).1
  obtain ⟨q', h'⟩ : ∃ q', p'.rebase a b = some q' :=
    Option.isSome_iff_exists.1 ((isSome_rebase p' a b).trans habove)
  exact ⟨q', h', by rw [isAncestorOf_rebase hpv hav hbv h hpv' h'],
    rebase_inj hpv hav hbv h hpv' h'⟩

/-- From a directory with a name of two bytes to the root, and back, next to a place below. -/
theorem transfer_laws_to_root :
    fromEncoded "d.~c3~a9" = .ok ⟨"d.~c3~a9"⟩ ∧ fromEncoded "" = .ok ⟨""⟩ ∧
    fromEncoded "y.z" = .ok ⟨"y.z"⟩ ∧ fromEncoded "d.~c3~a9.x" = .ok ⟨"d.~c3~a9.x"⟩ ∧
    fromEncoded "d.~c3~a9.x.k" = .ok ⟨"d.~c3~a9.x.k"⟩ ∧
    rebase ⟨"d.~c3~a9.x"⟩ ⟨"d.~c3~a9"⟩ ⟨""⟩ = some ⟨"x"⟩ ∧
    rebase ⟨"x"⟩ ⟨""⟩ ⟨"d.~c3~a9"⟩ = some ⟨"d.~c3~a9.x"⟩ ∧
    rebase ⟨"x"⟩ ⟨""⟩ ⟨"y.z"⟩ = rebase ⟨"d.~c3~a9.x"⟩ ⟨"d.~c3~a9"⟩ ⟨"y.z"⟩ ∧
    ∃ q', rebase ⟨"d.~c3~a9.x.k"⟩ ⟨"d.~c3~a9"⟩ ⟨""⟩ = some q' ∧
      isAncestorOf ⟨"x"⟩ q' = true ∧ (⟨"x"⟩ : Path) ≠ q' := by
  have ha : fromEncoded "d.~c3~a9" = .ok ⟨"d.~c3~a9"⟩ := by decide +kernel
  have hb : fromEncoded "" = .ok ⟨""⟩ := by decide +kernel
  have hc : fromEncoded "y.z" = .ok ⟨"y.z"⟩ := by decide +kernel
  have hp : fromEncoded "d.~c3~a9.x" = .ok ⟨"d.~c3~a9.x"⟩ := by decide +kernel
  have hp' : fromEncoded "d.~c3~a9.x.k" = .ok ⟨"d.~c3~a9.x.k"⟩ := by decide +kernel
  have h : rebase ⟨"d.~c3~a9.x"⟩ ⟨"d.~c3~a9"⟩ ⟨""⟩ = some ⟨"x"⟩ := by decide +kernel
  have habove : isAncestorOf ⟨"d.~c3~a9"⟩ ⟨"d.~c3~a9.x.k"⟩ = true := by decide +kernel
  have hbelow : isAncestorOf ⟨"d.~c3~a9.x"⟩ ⟨"d.~c3~a9.x.k"⟩ = true := by decide +kernel
  obtain ⟨-, -, -, hback, hfurther, hothers⟩ := (transfer_laws ha hb hc hp).2 _ h
  obtain ⟨q', h', hancestor, hsame⟩ := hothers _ _ hp' habove
  refine ⟨ha, hb, hc, hp, hp', h, hback, hfurther, q', h', hancestor.1 hbelow, ?_⟩
  exact fun e => absurd (hsame.1 e) (by decide +kernel)

end VersionedTree.Path
