import Mathlib.Data.List.Perm.Subperm
import Mathlib.Data.List.Sort
import Mathlib.Data.Nat.Find
import VersionedTree.Archive.Operation
import VersionedTree.Proofs.Archive.Histories
import VersionedTree.Proofs.Tables.Pages

/-!
# Walks through histories

A reader takes the first page of the history of a file, then the page after the last version that
it has seen, and so on to an empty page. The archive need not stand still meanwhile: versions may go
between two pages, also the one that was seen last, and new ones may come if they are linked later
than all that the file has had. The reader is told of no version twice, of none that came on the
way, and of all that stayed.

## Main definitions

* `VersionedTree.Archive.walk` — the pages of a walk.
* `VersionedTree.Archive.Edited` — the archives that a walk may find.

## Main results

* `VersionedTree.Archive.Edited.of_runs` — runs of statements between the pages are such edits.
* `VersionedTree.Archive.Edited.mem_linked` — what is on a page was linked from the beginning.
* `VersionedTree.Archive.Edited.covered` — what stays is on a page, or comes after it.
* `VersionedTree.Archive.walk_complete` — walks end, go down strictly, and miss nothing.
-/

set_option autoImplicit false

namespace VersionedTree

namespace Archive

/-- The pages of a walk through the history of a file: the first page, and then always the page
after the last version of the one before. Each is read from the archive that is found at its
time. -/
def walk (owner : OwnerId) (node : Node) (found : Nat → Archive) (limit : Nat → Nat) :
    Nat → List Version
  | 0 =>
    match (found 0).firstPage owner node (limit 0) with
    | .ok first => first.versions
    | .error _ => []
  | k + 1 =>
    match (walk owner node found limit k).getLast? with
    | none => []
    | some last => (found (k + 1)).nextPage owner last (limit (k + 1))

/-- The tables of all archives have their keys. From each one to the next, versions of the node may
go, and others may come that are linked later than all that the node has had. -/
structure Edited (owner : OwnerId) (node : NodeId) (found : Nat → Archive) : Prop where
  keyed : ∀ k, (found k).tables.Keyed
  later : ∀ k, ∀ v ∈ (found (k + 1)).tables.versionsOf owner node,
    v ∈ (found k).tables.versionsOf owner node ∨
      ∀ j ≤ k, ∀ w ∈ (found j).tables.versionsOf owner node, w.linkedAt.Before v.linkedAt

variable {owner : OwnerId} {node : Node} {found : Nat → Archive} {limit : Nat → Nat}
  {u v last : Version} {i k : Nat}

/-! ## Edits by statements -/

/-- **Runs of statements** of any owners are such edits, if the times that they are given are later
than all links that the node has had. -/
theorem Edited.of_runs {node : NodeId} {calls : Nat → List (Fresh × OwnerId × Statement)}
    (hk : (found 0).tables.Keyed) (hc : (found 0).tables.Counted)
    (hruns : ∀ k, (found (k + 1)).tables = Statement.runAll (calls k) (found k).tables)
    (hclock : ∀ k, ∀ call ∈ calls k, ∀ i, ∀ j ≤ k,
      ∀ v ∈ (found j).tables.versionsOf owner node, v.linkedAt.Before (call.1.now i)) :
    Edited owner node found := by
  have hboth : ∀ k, (found k).tables.Keyed ∧ (found k).tables.Counted := by
    intro k
    induction k with
    | zero => exact ⟨hk, hc⟩
    | succ k ih =>
      rw [hruns k]
      exact ⟨ih.1.runAll _, ih.2.runAll _⟩
  refine ⟨fun k => (hboth k).1, ?_⟩
  intro k v hv
  obtain ⟨hmem, hnode, howner⟩ := Tables.mem_versionsOf.1 hv
  rw [hruns k] at hmem
  rcases (hboth k).2.mem_versions_runAll hmem with hold | ⟨call, hcall, i, htime⟩
  · exact .inl (Tables.mem_versionsOf.2 ⟨hold, hnode, howner⟩)
  · right
    intro j hj w hw
    rw [htime]
    exact hclock k call hcall i j hj w hw

/-! ## Pages -/

section Pages

variable (hfile : node.kind = .file)

include hfile

/-- The first page is the beginning of the history. -/
lemma walk_zero : walk owner node found limit 0 =
    ((found 0).tables.history owner node.id).take (limit 0) := by
  rw [walk, firstPage, if_pos (by rw [hfile]; rfl)]
  rfl

/-- A version on a page is linked to the node when the page is read. -/
lemma mem_versionsOf_of_mem_walk (hv : v ∈ walk owner node found limit k) :
    v ∈ (found k).tables.versionsOf owner node.id := by
  induction k generalizing v with
  | zero =>
    rw [walk_zero hfile] at hv
    exact Tables.mem_history.1 (List.mem_of_mem_take hv)
  | succ k ih =>
    unfold walk at hv
    cases hlast : (walk owner node found limit k).getLast? with
    | none =>
      rw [hlast] at hv
      cases hv
    | some last =>
      have hnode : last.node = node.id :=
        (Tables.mem_versionsOf.1 (ih (List.mem_of_getLast? hlast))).2.1
      rw [hlast] at hv
      have hrest := (List.mem_filter.1 (List.mem_of_mem_take hv)).1
      rw [hnode] at hrest
      exact Tables.mem_history.1 hrest

/-- A page that follows another one begins below the last version of that one. -/
lemma walk_succ (hlast : (walk owner node found limit k).getLast? = some last) :
    walk owner node found limit (k + 1) =
      (((found (k + 1)).tables.history owner node.id).filter fun v => v.order last == .lt).take
        (limit (k + 1)) := by
  have hnode : last.node = node.id :=
    (Tables.mem_versionsOf.1 (mem_versionsOf_of_mem_walk hfile (List.mem_of_getLast? hlast))).2.1
  rw [walk, hlast, ← hnode]
  rfl

/-- The last version of the page before comes before every version of a page. -/
lemma exists_last (hv : v ∈ walk owner node found limit (k + 1)) :
    ∃ last, (walk owner node found limit k).getLast? = some last ∧ v.order last = .lt := by
  cases hlast : (walk owner node found limit k).getLast? with
  | none =>
    rw [walk, hlast] at hv
    cases hv
  | some last =>
    rw [walk_succ hfile hlast] at hv
    exact ⟨last, rfl, beq_iff_eq.1 (List.mem_filter.1 (List.mem_of_mem_take hv)).2⟩

/-- So does the last version of every earlier page. -/
lemma exists_last_of_lt (hik : i < k) (hv : v ∈ walk owner node found limit k) :
    ∃ last, (walk owner node found limit i).getLast? = some last ∧ v.order last = .lt := by
  induction hik generalizing v with
  | refl => exact exists_last hfile hv
  | step _ ih =>
    obtain ⟨w, hw, hvw⟩ := exists_last hfile hv
    obtain ⟨last, hlast, hwl⟩ := ih (List.mem_of_getLast? hw)
    exact ⟨last, hlast, Version.order_trans hvw hwl⟩

end Pages

/-- Pages that are not empty show a version each. -/
lemma le_length_seen {n : Nat} (hne : ∀ k < n, walk owner node found limit k ≠ []) :
    n ≤ ((List.range n).flatMap (walk owner node found limit)).length := by
  induction n with
  | zero => exact Nat.zero_le _
  | succ n ih =>
    have hlast := List.length_pos_iff.2 (hne n (Nat.lt_succ_self n))
    have hfront := ih fun k hk => hne k (Nat.lt_succ_of_lt hk)
    rw [List.range_succ, List.flatMap_append, List.length_append, List.flatMap_singleton]
    omega

/-! ## What has been seen -/

namespace Edited

variable (h : Edited owner node.id found) (hfile : node.kind = .file)

include h hfile

/-- Every page descends strictly. -/
lemma page_sorted (k : Nat) :
    (walk owner node found limit k).Pairwise fun v w => w.order v = .lt := by
  cases k with
  | zero =>
    rw [walk_zero hfile]
    exact ((h.keyed 0).history_sorted owner node.id).sublist (List.take_sublist _ _)
  | succ k =>
    cases hlast : (walk owner node found limit k).getLast? with
    | none =>
      rw [walk, hlast]
      exact .nil
    | some last =>
      rw [walk_succ hfile hlast]
      exact (((h.keyed _).history_sorted owner node.id).filter _).sublist (List.take_sublist _ _)

/-- All versions of a page come before its last one. -/
lemma eq_last_or_above (hlast : (walk owner node found limit k).getLast? = some last)
    (hu : u ∈ walk owner node found limit k) : u = last ∨ last.order u = .lt := by
  obtain ⟨front, e⟩ := List.getLast?_eq_some_iff.1 hlast
  have hsorted : (walk owner node found limit k).Pairwise fun v w => w.order v = .lt :=
    h.page_sorted hfile k
  rw [e] at hu hsorted
  rcases List.mem_append.1 hu with hu | hu
  · exact .inr ((List.pairwise_append.1 hsorted).2.2 u hu last (List.mem_singleton.2 rfl))
  · exact .inl (List.mem_singleton.1 hu)

/-- Every version of a page comes after all versions of the pages before. -/
lemma order_of_lt (hik : i < k) (hu : u ∈ walk owner node found limit i)
    (hv : v ∈ walk owner node found limit k) : v.order u = .lt := by
  obtain ⟨last, hlast, hlt⟩ := exists_last_of_lt hfile hik hv
  rcases h.eq_last_or_above hfile hlast hu with rfl | habove
  · exact hlt
  · exact Version.order_trans hlt habove

/-- The pages together descend strictly. -/
lemma seen_sorted (n : Nat) :
    ((List.range n).flatMap (walk owner node found limit)).Pairwise
      fun v w => w.order v = .lt := by
  refine List.pairwise_flatMap.2 ⟨fun k _ => h.page_sorted hfile k, ?_⟩
  exact List.pairwise_lt_range.imp fun hik u hu v hv => h.order_of_lt hfile hik hu hv

/-- **No page shows what came on the way.** A version on a page was linked to the node when each of
the earlier pages was read.

**Proof sketch.** One that came after page `i` would be linked later than those on page `i`, one of
which comes before it in the walk. -/
theorem mem_linked (hv : v ∈ walk owner node found limit k) (hik : i ≤ k) :
    v ∈ (found i).tables.versionsOf owner node.id := by
  induction hik using Nat.decreasingInduction with
  | self => exact mem_versionsOf_of_mem_walk hfile hv
  | of_succ i hik ih =>
    refine (h.later i v ih).resolve_right fun hlate => ?_
    obtain ⟨last, hlast, hlt⟩ := exists_last_of_lt hfile hik hv
    have hlinked := mem_versionsOf_of_mem_walk hfile (List.mem_of_getLast? hlast)
    exact absurd (Version.linkedAt_le_of_order hlt) (Int.not_le.2 (hlate i le_rfl last hlinked))

/-- **What stays is not passed over.** A version that has been linked to the node so far is on a
page, or comes after all versions of the last one. -/
theorem covered (hv : ∀ i ≤ k, v ∈ (found i).tables.versionsOf owner node.id) :
    v ∈ (List.range (k + 1)).flatMap (walk owner node found limit) ∨
      ∀ u ∈ walk owner node found limit k, v.order u = .lt := by
  induction k with
  | zero =>
    have hmem := Tables.mem_history.2 (hv 0 le_rfl)
    rcases mem_take_or_of_pairwise ((h.keyed 0).history_sorted owner node.id) hmem (limit 0)
      with htake | hbelow <;> rw [← walk_zero hfile] at *
    · exact .inl (List.mem_flatMap.2 ⟨0, List.mem_range.2 (Nat.lt_succ_self 0), htake⟩)
    · exact .inr hbelow
  | succ k ih =>
    rcases ih fun i hi => hv i (Nat.le_succ_of_le hi) with hseen | hbelow
    · left
      obtain ⟨i, hi, hvi⟩ := List.mem_flatMap.1 hseen
      exact List.mem_flatMap.2
        ⟨i, List.mem_range.2 (Nat.lt_succ_of_lt (List.mem_range.1 hi)), hvi⟩
    cases hlast : (walk owner node found limit k).getLast? with
    | none =>
      right
      rw [walk, hlast]
      exact fun u hu => absurd hu List.not_mem_nil
    | some last =>
      have hrest : v ∈ ((found (k + 1)).tables.history owner node.id).filter
          fun w => w.order last == .lt :=
        List.mem_filter.2 ⟨Tables.mem_history.2 (hv (k + 1) le_rfl),
          beq_iff_eq.2 (hbelow last (List.mem_of_getLast? hlast))⟩
      rcases mem_take_or_of_pairwise (((h.keyed _).history_sorted owner node.id).filter _) hrest
        (limit (k + 1)) with htake | hbelow <;> rw [← walk_succ hfile hlast] at *
      · exact .inl (List.mem_flatMap.2 ⟨k + 1, List.mem_range.2 (Nat.lt_succ_self _), htake⟩)
      · exact .inr hbelow

/-- Once a page is empty, all that has stayed is on the pages before. -/
lemma mem_seen (hlimit : 1 ≤ limit k) (hempty : walk owner node found limit k = [])
    (hne : ∀ i < k, walk owner node found limit i ≠ [])
    (hv : ∀ i ≤ k, v ∈ (found i).tables.versionsOf owner node.id) :
    v ∈ (List.range k).flatMap (walk owner node found limit) := by
  have htake : ∀ {l : List Version}, l.take (limit k) = [] → v ∉ l := by
    intro l hl hvl
    rcases List.take_eq_nil_iff.1 hl with hzero | rfl
    · omega
    · cases hvl
  cases k with
  | zero =>
    rw [walk_zero hfile] at hempty
    exact absurd (Tables.mem_history.2 (hv 0 le_rfl)) (htake hempty)
  | succ k =>
    obtain ⟨last, hlast⟩ := Option.ne_none_iff_exists'.1
      (mt List.getLast?_eq_none_iff.1 (hne k (Nat.lt_succ_self k)))
    refine (h.covered hfile fun i hi => hv i (Nat.le_succ_of_le hi)).resolve_right fun hbelow => ?_
    rw [walk_succ hfile hlast] at hempty
    exact htake hempty (List.mem_filter.2 ⟨Tables.mem_history.2 (hv (k + 1) le_rfl),
      beq_iff_eq.2 (hbelow last (List.mem_of_getLast? hlast))⟩)

/-! ## Ends of walks -/

/-- Whatever a walk shows was there when it began. -/
lemma seen_subset (n : Nat) : (List.range n).flatMap (walk owner node found limit) ⊆
    (found 0).tables.versionsOf owner node.id := by
  intro v hv
  obtain ⟨k, -, hv⟩ := List.mem_flatMap.1 hv
  exact h.mem_linked hfile hv (Nat.zero_le k)

/-- **Walks end.** Each page that is not empty shows a version that has been linked from the
beginning and is on no other page. -/
theorem exists_page_eq_nil : ∃ count ≤ (found 0).tables.countVersions owner node.id,
    walk owner node found limit count = [] := by
  by_contra! hne
  let total := (found 0).tables.countVersions owner node.id
  have hlong := le_length_seen (n := total + 1) fun k hk => hne k (Nat.lt_succ_iff.1 hk)
  have hshort : ((List.range (total + 1)).flatMap (walk owner node found limit)).length ≤ total :=
    (List.Nodup.subperm (h.seen_sorted hfile (total + 1)).nodup
      (h.seen_subset hfile (total + 1))).length_le
  exact absurd (Nat.le_trans hlong hshort) (Nat.not_succ_le_self total)

end Edited

/-- **A walk through a history shows each version once that stays, and none that comes.** With
limits of one at least, the walk of a file comes to an empty page after no more pages than there
were versions at the beginning. What is seen until then descends strictly by the times of links,
then of uploads, then by blobs. Every version that stays linked to the file is in it once, and all
others in it were linked when the walk began, so that none is that was linked on the way. If the
history does not change, it is what is seen, and its length is the total of the first page.

**Proof sketch.** A page is what follows the last version of the page before, so that pages
descend and what stays is on a page or after it. What comes is linked later than that version, and
so does not follow it. A page that is not empty shows a version of the beginning that no other
page shows, and of those there are only as many as the total. -/
theorem walk_complete (hfile : node.kind = .file) (hlimit : ∀ k, 1 ≤ limit k)
    (h : Edited owner node.id found) :
    let page := walk owner node found limit
    let linked k := (found k).tables.versionsOf owner node.id
    ∃ first count, (found 0).firstPage owner node (limit 0) = .ok first ∧ count ≤ first.total ∧
      page count = [] ∧ (∀ k < count, page k ≠ []) ∧
      let seen := (List.range count).flatMap page
      seen.Pairwise (fun v w => w.order v = .lt) ∧
      (∀ v, (∀ k ≤ count, v ∈ linked k) → seen.count v = 1) ∧
      (∀ v ∈ seen, v ∈ linked 0) ∧
      (∀ k, ∀ v ∈ linked (k + 1), v ∉ linked k → v ∉ seen) ∧
      ((∀ k ≤ count, linked k = linked 0) →
        seen = (found 0).tables.history owner node.id ∧ seen.length = first.total) := by
  intro page linked
  obtain ⟨bound, hbound, hend⟩ : ∃ bound ≤ (found 0).tables.countVersions owner node.id,
      page bound = [] := h.exists_page_eq_nil hfile
  have hends : ∃ count, page count = [] := ⟨bound, hend⟩
  let count := Nat.find hends
  have hempty : page count = [] := Nat.find_spec hends
  have hne : ∀ k < count, page k ≠ [] := fun k hk => Nat.find_min hends hk
  have hcount : count ≤ (found 0).tables.countVersions owner node.id :=
    Nat.le_trans (Nat.find_min' hends hend) hbound
  have hsorted : ((List.range count).flatMap page).Pairwise fun v w => w.order v = .lt :=
    h.seen_sorted hfile count
  have hstays : ∀ v, (∀ k ≤ count, v ∈ linked k) → v ∈ (List.range count).flatMap page :=
    fun v hv => h.mem_seen hfile (hlimit count) hempty hne hv
  refine ⟨⟨(found 0).tables.newestVersions owner node.id (limit 0),
    (found 0).tables.countVersions owner node.id⟩, count, ?_, hcount, hempty, hne, hsorted,
    fun v hv => List.count_eq_one_of_mem hsorted.nodup (hstays v hv), h.seen_subset hfile count,
    ?_, ?_⟩
  · rw [firstPage, if_pos (by rw [hfile]; rfl)]
  · intro k v hv hnew hseen
    rcases h.later k v hv with hold | hlate
    · exact hnew hold
    · exact absurd (hlate 0 (Nat.zero_le k) v (h.seen_subset hfile count hseen))
        (lt_irrefl v.linkedAt.micros)
  · intro hsame
    have hall : (List.range count).flatMap page = (found 0).tables.history owner node.id := by
      refine hsorted.eq_of_mem_iff ((h.keyed 0).history_sorted owner node.id) fun v => ?_
      refine ⟨fun hv => Tables.mem_history.2 (h.seen_subset hfile count hv), fun hv => ?_⟩
      refine hstays v fun k hk => ?_
      rw [hsame k hk]
      exact Tables.mem_history.1 hv
    refine ⟨hall, ?_⟩
    rw [hall]
    exact Tables.length_history

/-! ### A walk that is interrupted -/

end Archive

namespace Statement

/-- The next version of the first file. -/
def version (env : Env) : Fresh × OwnerId × Statement :=
  (env.toFresh, ⟨.ofNat 1⟩, .addVersion ⟨.ofNat 200⟩ none ⟨"sum", 1⟩)

/-- A file with three versions of one time. -/
def threeVersions : List (Fresh × OwnerId × Statement) :=
  [((Env.numbered 1).toFresh, ⟨.ofNat 1⟩, .createNode .root .root),
    ((Env.numbered 2).toFresh, ⟨.ofNat 1⟩, .createNode ⟨"a"⟩ .file),
    version (.numbered 3), version (.numbered 4), version (.numbered 5)]

/-- The first one in the listing goes, and another one comes. -/
def exchange : List (Fresh × OwnerId × Statement) :=
  [((Env.ticking 6).toFresh, ⟨.ofNat 1⟩, .unlink ⟨.ofNat 200⟩ ⟨.ofNat 5⟩), version (.ticking 6)]

end Statement

namespace Archive

/-- With pages of one version, the last one seen goes and another one comes. The two that stay are
shown once, and the new one is not. -/
theorem walk_complete_interrupted :
    let node := Step.fileAt 200 "a"
    let start := Statement.runAll Statement.threeVersions .empty
    let found k : Archive :=
      ⟨if k = 0 then start else Statement.runAll Statement.exchange start, .empty⟩
    let page := walk node.owner node found fun _ => 1
    ∃ count ≤ 3, page count = [] ∧
      let seen := (List.range count).flatMap page
      (∀ n ∈ [3, 4], seen.count
        ⟨node.id, ⟨.ofNat n⟩, "sum", 1, node.owner, default, default⟩ = 1) ∧
      ∀ v ∈ seen, v.blob ≠ ⟨.ofNat 6⟩ := by
  intro node start found page
  have hedited : Edited node.owner node.id found := by
    have hruns : ∀ k, (found (k + 1)).tables =
        Statement.runAll (if k = 0 then Statement.exchange else []) (found k).tables := by
      intro k
      cases k <;> rfl
    refine .of_runs (Tables.Keyed.empty.runAll _) (Tables.Counted.empty.runAll _) hruns ?_
    intro k call hcall i j hj v hv
    cases k with
    | zero =>
      obtain rfl := Nat.le_zero.1 hj
      have hold : ∀ v ∈ (found 0).tables.versionsOf node.owner node.id, v.linkedAt.micros = 0 := by
        decide +kernel
      have hnew : 0 < (call.1.now i).micros := by
        rcases List.mem_pair.1 hcall with rfl | rfl <;>
          exact Int.lt_of_lt_of_le (by decide) (Int.le_add_of_nonneg_right (Int.natCast_nonneg i))
      rw [Instant.Before, hold v hv]
      exact hnew
    | succ k => cases hcall
  obtain ⟨first, count, hfirst, hcount, hempty, -, -, hstays, hseen, -, -⟩ :=
    walk_complete rfl (fun _ => le_refl 1) hedited
  obtain rfl : (⟨_, _⟩ : VersionPage) = first := Except.ok.inj hfirst
  refine ⟨count, hcount, hempty, fun n hn => hstays _ fun k _ => ?_, fun v hv => ?_⟩
  · cases k with
    | zero => revert n; decide +kernel
    | succ k =>
      have hlater : ∀ n ∈ [3, 4], (⟨node.id, ⟨.ofNat n⟩, "sum", 1, node.owner, default, default⟩ :
          Version) ∈ (found 1).tables.versionsOf node.owner node.id := by decide +kernel
      exact hlater n hn
  · have hold : ∀ v ∈ (found 0).tables.versionsOf node.owner node.id, v.blob ≠ ⟨.ofNat 6⟩ := by
      decide +kernel
    exact hold v (hseen v hv)

end Archive

end VersionedTree
