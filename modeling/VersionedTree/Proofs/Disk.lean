import Mathlib.Data.List.Basic
import Mathlib.Tactic.Lemma
import VersionedTree.Disk.Access

/-!
# What is written is read

A file that is written changes nothing on the way to it: the directories that were there still are.
So the same name leads to the file afterwards, and the name of the directory that it is in leads to
a directory.

## Main definitions

* `VersionedTree.Disk.KeepsDirectories` — directories stay where they are.
* `VersionedTree.Trail.Follows` — the same walk on two disks.

## Main results

* `VersionedTree.Disk.walk_follows` — walks can be repeated where directories stay.
* `VersionedTree.Disk.read_of_write` — what is written is read.
* `VersionedTree.Disk.contains_of_write` — what is written is in a directory.
-/

set_option autoImplicit false

namespace VersionedTree

/-! ## Entries -/

namespace DiskEntry

/-- A place below a place. -/
lemma find?_append (e : DiskEntry) (p q : Place) :
    e.find? (p ++ q) = (e.find? p).bind fun inner => inner.find? q := by
  induction p generalizing e with
  | nil => rfl
  | cons name rest ih =>
    rw [List.cons_append, find?, find?]
    cases e.get? name with
    | none => rfl
    | some inner => exact ih inner

/-- A place of one part is what the directory holds under its name. -/
lemma find?_singleton (e : DiskEntry) (name : String) : e.find? [name] = e.get? name := by
  rw [find?]
  cases e.get? name <;> rfl

/-- **Directories stay** where they are if something is set at a place without a directory. -/
lemma directory_set (new : DiskEntry) {e : DiskEntry} {p q : Place}
    {es : List (String × DiskEntry)} (hq : e.find? q = some (.directory es))
    (hp : ∀ es, e.find? p ≠ some (.directory es)) :
    ∃ es', (set new e p).find? q = some (.directory es') := by
  induction p generalizing e q with
  | nil =>
    -- nothing is in what stands at the place, so that no directory is below it
    cases e with
    | directory es => exact absurd rfl (hp es)
    | file bytes => cases q <;> cases hq
  | cons name rest ih =>
    cases q with
    | nil => exact ⟨_, rfl⟩
    | cons other more =>
      by_cases hname : other = name
      · subst hname
        rw [find?] at hq
        obtain ⟨inner, hinner, hmore⟩ := Option.bind_eq_some_iff.1 hq
        have hrest : ∀ es, inner.find? rest ≠ some (.directory es) := by
          intro es hes
          exact hp es (by rw [find?, hinner]; exact hes)
        obtain ⟨es', hset⟩ := ih hmore hrest
        refine ⟨es', ?_⟩
        rw [set, find?, get?_insert, if_pos rfl, hinner]
        exact hset
      · rw [find?] at hq
        refine ⟨es, ?_⟩
        rw [set, find?, get?_insert, if_neg hname]
        exact hq

end DiskEntry

/-! ## Walks -/

/-- Does a trail consist of directories of the disk? -/
def Trail.IsOn (d : Disk) : Trail → Prop
  | [] => True
  | (name, e) :: rest =>
    d.entry (Trail.place ((name, e) :: rest)) = some e ∧ (∃ es, e = .directory es) ∧
      Trail.IsOn d rest

/-- Two trails on two disks pass the same places. -/
structure Trail.Follows (d d' : Disk) (t t' : Trail) : Prop where
  on : t.IsOn d
  on' : t'.IsOn d'
  names : t'.map Prod.fst = t.map Prod.fst

/-- A step further is one name more at the end of the place. -/
lemma Trail.place_cons (name : String) (e : DiskEntry) (t : Trail) :
    Trail.place ((name, e) :: t) = t.place ++ [name] := by
  simp [Trail.place]

namespace Trail.Follows

variable {d d' : Disk} {t t' : Trail}

/-- Two walks begin at the top of their disks. -/
lemma nil : Follows d d' [] [] := ⟨trivial, trivial, rfl⟩

/-- Trails that follow each other are at the same place. -/
lemma place (h : Follows d d' t t') : t'.place = t.place := by
  rw [Trail.place, h.names, ← Trail.place]

/-- They still follow each other one step back. -/
lemma tail (h : Follows d d' t t') : Follows d d' t.tail t'.tail where
  on := by
    cases t with
    | nil => trivial
    | cons e rest => exact h.on.2.2
  on' := by
    cases t' with
    | nil => trivial
    | cons e rest => exact h.on'.2.2
  names := by rw [List.map_tail, List.map_tail, h.names]

/-- They follow each other further into directories of one name. -/
lemma cons (h : Follows d d' t t') {name : String} {es es' : List (String × DiskEntry)}
    (he : d.entry (t.place ++ [name]) = some (.directory es))
    (he' : d'.entry (t.place ++ [name]) = some (.directory es')) :
    Follows d d' ((name, .directory es) :: t) ((name, .directory es') :: t') where
  on := ⟨by rw [place_cons, he], ⟨es, rfl⟩, h.on⟩
  on' := ⟨by rw [place_cons, h.place, he'], ⟨es', rfl⟩, h.on'⟩
  names := congrArg (name :: ·) h.names

end Trail.Follows

namespace Disk

/-- Directories stay where they are. -/
structure KeepsDirectories (d d' : Disk) : Prop where
  working : d'.working = d.working
  directory {p : Place} {es : List (String × DiskEntry)} (h : d.entry p = some (.directory es)) :
    ∃ es', d'.entry p = some (.directory es')

/-- A disk keeps its own directories. -/
lemma KeepsDirectories.refl (d : Disk) : d.KeepsDirectories d := ⟨rfl, fun h => ⟨_, h⟩⟩

variable {d d' : Disk} {t t' u : Trail} {n : WrittenName} {bytes : ByteArray}

/-- What a directory holds stands below its place. -/
lemma get?_here (h : t.IsOn d) (name : String) :
    (d.here t).get? name = d.entry (t.place ++ [name]) := by
  have hentry : d.entry t.place = some (d.here t) := by
    cases t with
    | nil => rfl
    | cons e rest => exact h.1
  rw [entry] at hentry ⊢
  rw [DiskEntry.find?_append, hentry, Option.bind_some, DiskEntry.find?_singleton]

/-- A name that is not too long can be looked up, and what is found is what the directory holds. -/
lemma peek_eq_ok {name : String} {found : Option DiskEntry} :
    d.peek t name = .ok found ↔
      name.utf8ByteSize ≤ WrittenName.maxPartBytes ∧ (d.here t).get? name = found := by
  unfold peek
  split
  · next h => simp [Nat.not_le.2 h]
  · next h => simp [Nat.le_of_not_lt h]

/-- What follows a trail finds what stands at the same place. -/
lemma peek_follows (h : Trail.Follows d d' t t') {name : String}
    {found : Option DiskEntry} (hpeek : d.peek t name = .ok found) :
    d'.peek t' name = .ok (d'.entry (t.place ++ [name])) ∧
      d.entry (t.place ++ [name]) = found := by
  obtain ⟨hsize, hfound⟩ := peek_eq_ok.1 hpeek
  rw [get?_here h.on] at hfound
  refine ⟨peek_eq_ok.2 ⟨hsize, ?_⟩, hfound⟩
  rw [get?_here h.on', h.place]

/-- **A step** can be repeated where directories stay. -/
lemma step_follows (hd : d.KeepsDirectories d') (h : Trail.Follows d d' t t') {part : String}
    (hstep : d.step t part = .ok u) :
    ∃ u', d'.step t' part = .ok u' ∧ Trail.Follows d d' u u' := by
  by_cases hdot : part = "."
  · rw [step, if_pos hdot] at hstep
    obtain rfl := Except.ok.inj hstep
    exact ⟨t', by rw [step, if_pos hdot], h⟩
  by_cases hback : part = ".."
  · rw [step, if_neg hdot, if_pos hback] at hstep
    obtain rfl := Except.ok.inj hstep
    exact ⟨t'.tail, by rw [step, if_neg hdot, if_pos hback], h.tail⟩
  rw [step, if_neg hdot, if_neg hback] at hstep
  split at hstep
  · cases hstep
  · cases hstep
  · cases hstep
  · next es hpeek =>
    obtain rfl := Except.ok.inj hstep
    obtain ⟨hpeek', hentry⟩ := peek_follows h hpeek
    obtain ⟨es', hentry'⟩ := hd.directory hentry
    rw [hentry'] at hpeek'
    refine ⟨(part, .directory es') :: t', by rw [step, if_neg hdot, if_neg hback, hpeek'], ?_⟩
    exact h.cons hentry hentry'

/-- A walk has a first step, and goes on from there. -/
lemma of_walk_cons {part : String} {parts : List String} (h : d.walk t (part :: parts) = .ok u) :
    ∃ v, d.step t part = .ok v ∧ d.walk v parts = .ok u := by
  rw [walk] at h
  cases hstep : d.step t part with
  | error fault =>
    rw [hstep] at h
    cases h
  | ok v =>
    rw [hstep] at h
    exact ⟨v, rfl, h⟩

/-- **A walk** can be repeated where directories stay. -/
lemma walk_follows (hd : d.KeepsDirectories d') (h : Trail.Follows d d' t t')
    {parts : List String} (hwalk : d.walk t parts = .ok u) :
    ∃ u', d'.walk t' parts = .ok u' ∧ Trail.Follows d d' u u' := by
  induction parts generalizing t t' with
  | nil =>
    obtain rfl := Except.ok.inj hwalk
    exact ⟨t', rfl, h⟩
  | cons part rest ih =>
    obtain ⟨v, hstep, hwalk⟩ := of_walk_cons hwalk
    obtain ⟨v', hstep', hv⟩ := step_follows hd h hstep
    obtain ⟨u', hwalk', hu⟩ := ih hv hwalk
    exact ⟨u', by rw [walk, hstep']; exact hwalk', hu⟩

/-- A walk goes on from where its first part ends. -/
lemma of_walk_append {parts more : List String} (h : d.walk t (parts ++ more) = .ok u) :
    ∃ v, d.walk t parts = .ok v ∧ d.walk v more = .ok u := by
  induction parts generalizing t with
  | nil => exact ⟨t, rfl, h⟩
  | cons part rest ih =>
    obtain ⟨v, hstep, hrest⟩ := of_walk_cons h
    obtain ⟨w, hparts, hmore⟩ := ih hrest
    exact ⟨w, by rw [walk, hstep]; exact hparts, hmore⟩

/-! ## Names -/

/-- Where a walk along a name begins. -/
def startOf (d : Disk) (n : WrittenName) : List String := if n.isAbsolute then [] else d.working

/-- A name that ends inside a directory: all of it but its end leads to this directory. -/
lemma of_aim_inside {name : String} (h : d.aim n = .ok (.inside t name)) :
    ∃ start before, n.parts = name :: before ∧ ¬ (name = "." ∨ name = "..") ∧
      d.walk [] (d.startOf n) = .ok start ∧ d.walk start before.reverse = .ok t := by
  unfold aim at h
  split at h
  · cases h
  · next start hstart =>
    split at h
    · cases h
    · next last before hparts =>
      split at h
      · cases hwalk : d.walk start (last :: before).reverse <;> rw [hwalk] at h <;> cases h
      · next hlast =>
        cases hwalk : d.walk start before.reverse with
        | error fault =>
          rw [hwalk] at h
          cases h
        | ok u =>
          rw [hwalk] at h
          obtain ⟨rfl, rfl⟩ := Aim.inside.inj (Except.ok.inj h)
          exact ⟨start, before, hparts, hlast, hstart, hwalk⟩

/-- A name that is written down aims at its last part, in the directory to which the parts before it
lead. -/
lemma aim_of_walk {name : String} {before : List String} {start : Trail}
    (hparts : n.parts = name :: before) (hname : ¬ (name = "." ∨ name = ".."))
    (hstart : d.walk [] (d.startOf n) = .ok start)
    (hwalk : d.walk start before.reverse = .ok t) : d.aim n = .ok (.inside t name) := by
  unfold startOf at hstart
  unfold aim
  rw [hstart, hparts]
  simp only [if_neg hname, hwalk]
  rfl

/-- A step by a name leads to a directory. -/
lemma peek_of_step {part : String} (hpart : ¬ (part = "." ∨ part = ".."))
    (h : d.step t part = .ok u) : ∃ es, d.peek t part = .ok (some (.directory es)) := by
  rw [not_or] at hpart
  rw [step, if_neg hpart.1, if_neg hpart.2] at h
  split at h
  · cases h
  · cases h
  · cases h
  · next es hpeek => exact ⟨es, hpeek⟩

/-- **A walk along all of a name** leads to what the name does. -/
lemma findName_of_walk {start : Trail} (hstart : d.walk [] (d.startOf n) = .ok start)
    (hwalk : d.walk start n.parts.reverse = .ok t) : ∃ found, d.findName n = .ok found := by
  cases hparts : n.parts with
  | nil =>
    unfold startOf at hstart
    exact ⟨_, by rw [findName, aim, hstart, hparts]⟩
  | cons last before =>
    rw [hparts] at hwalk
    by_cases hlast : last = "." ∨ last = ".."
    · unfold startOf at hstart
      refine ⟨(t.place, d.here t), ?_⟩
      rw [findName, aim, hstart, hparts]
      simp only [if_pos hlast, hwalk]
      rfl
    · rw [List.reverse_cons] at hwalk
      obtain ⟨u, hbefore, hend⟩ := of_walk_append hwalk
      obtain ⟨v, hstep, -⟩ := of_walk_cons hend
      obtain ⟨es, hpeek⟩ := peek_of_step hlast hstep
      refine ⟨(u.place ++ [last], .directory es), ?_⟩
      rw [findName, aim_of_walk hparts hlast hstart hbefore]
      simp only [hpeek]

/-! ## Writing -/

/-- **A file that is written** is in a directory that was there. -/
lemma of_writeName (h : d.writeName n bytes = .ok d') :
    ∃ t name, d.aim n = .ok (.inside t name) ∧ n.endsInSlash = false ∧
      name.utf8ByteSize ≤ WrittenName.maxPartBytes ∧
      (∀ es, (d.here t).get? name ≠ some (.directory es)) ∧
      d' = d.set (t.place ++ [name]) (.file bytes) := by
  unfold writeName at h
  split at h
  · cases h
  · cases h
  · next t name haim =>
    split at h
    · cases h
    · next hslash =>
      split at h
      · cases h
      · cases h
      · next found hnot hpeek =>
        obtain rfl := Except.ok.inj h
        obtain ⟨hsize, hfound⟩ := peek_eq_ok.1 hpeek
        refine ⟨t, name, haim, by simpa using hslash, hsize, fun es hes => ?_, rfl⟩
        exact hnot es (hfound.symm.trans hes)

/-- **Directories stay** where a file is written. -/
lemma keepsDirectories_of_set (bytes : ByteArray) {name : String} (ht : t.IsOn d)
    (hnot : ∀ es, (d.here t).get? name ≠ some (.directory es)) :
    d.KeepsDirectories (d.set (t.place ++ [name]) (.file bytes)) where
  working := rfl
  directory h := DiskEntry.directory_set _ h fun es => by
    rw [← entry, ← get?_here ht]
    exact hnot es

/-- **A file that is written** is found under its name afterwards, and so is the directory that it
is in. -/
theorem findName_of_writeName (h : d.writeName n bytes = .ok d') :
    (∃ place, d'.findName n = .ok (place, .file bytes)) ∧
      ∀ (n' : WrittenName) (name : String), n'.isAbsolute = n.isAbsolute →
        n.parts = name :: n'.parts → ∃ found, d'.findName n' = .ok found := by
  obtain ⟨t, name, haim, hslash, hsize, hnot, rfl⟩ := of_writeName h
  obtain ⟨start, before, hparts, hname, hstart, hwalk⟩ := of_aim_inside haim
  have hon : t.IsOn d := by
    obtain ⟨_, -, hs⟩ := walk_follows (.refl d) .nil hstart
    obtain ⟨_, -, ht⟩ := walk_follows (.refl d) hs hwalk
    exact ht.on
  -- the directories on the way are still there, so that the walk can be repeated
  have hd := keepsDirectories_of_set bytes hon hnot
  obtain ⟨start', hstart', hs⟩ := walk_follows hd .nil hstart
  obtain ⟨t', hwalk', ht⟩ := walk_follows hd hs hwalk
  refine ⟨⟨t'.place ++ [name], ?_⟩, fun n' last habsolute hlast => ?_⟩
  · have hpeek : (d.set (t.place ++ [name]) (.file bytes)).peek t' name =
        .ok (some (.file bytes)) := by
      refine peek_eq_ok.2 ⟨hsize, ?_⟩
      rw [get?_here ht.on', ht.place]
      exact DiskEntry.find?_set_self _ _ _
    rw [findName, aim_of_walk hparts hname hstart' hwalk']
    simp only [hpeek, hslash, Bool.false_eq_true, if_false]
  · rw [hparts] at hlast
    rw [(List.cons.inj hlast).2] at hwalk'
    have hbegin : startOf (d.set (t.place ++ [name]) (.file bytes)) n' = d.startOf n := by
      rw [startOf, startOf, habsolute, hd.working]
    exact findName_of_walk (hbegin ▸ hstart') hwalk'

end Disk

/-! ## Texts -/

namespace WrittenName

/-- The parts of a text that are not empty. -/
def partsOf (cs : List Char) : List (List Char) := (cs.splitOn '/').filter (!·.isEmpty)

/-- A part after a slash is the last one. -/
lemma partsOf_append {name : List Char} (hslash : '/' ∉ name) (hne : name ≠ [])
    (cs : List Char) : partsOf (cs ++ '/' :: name) = partsOf cs ++ [name] := by
  rw [partsOf, List.splitOn_append_cons_self, List.splitOn_eq_singleton hslash, List.filter_append,
    ← partsOf, List.filter_cons_of_pos (by simpa using hne), List.filter_nil]

/-- A slash at the end does not count. -/
lemma partsOf_append_slash (cs : List Char) : partsOf (cs ++ ['/']) = partsOf cs := by
  rw [partsOf, List.splitOn_append_cons_self, List.filter_append, ← partsOf]
  exact List.append_nil _

variable {directory name : String}

/-- The name of a file in a directory goes on from that of the directory, by one part. -/
lemma inside_cases (hd : directory ≠ "") (hslash : '/' ∉ name.toList) (hne : name.toList ≠ []) :
    (∃ more, inside directory name = directory ++ more) ∧
      partsOf (inside directory name).toList = partsOf directory.toList ++ [name.toList] := by
  obtain hnil | ⟨before, c, hc⟩ := List.eq_nil_or_concat' directory.toList
  · exact absurd (String.toList_eq_nil_iff.1 hnil) hd
  by_cases hlast : c = '/'
  · subst hlast
    have hinside : inside directory name = directory ++ name := by
      rw [inside, hc, List.getLast?_append_cons]
      rfl
    refine ⟨⟨name, hinside⟩, ?_⟩
    rw [hinside, String.toList_append, hc, partsOf_append_slash, List.append_assoc,
      List.singleton_append, partsOf_append hslash hne]
  · have hinside : inside directory name = directory ++ "/" ++ name := by
      rw [inside, hc, List.getLast?_append_cons, List.getLast?_singleton]
      split
      · next hnone => cases hnone
      · next hsome => exact absurd (Option.some.inj hsome) hlast
      · rfl
    refine ⟨⟨"/" ++ name, by rw [hinside, String.append_assoc]⟩, ?_⟩
    rw [hinside, String.toList_append, String.toList_append, List.append_assoc]
    exact partsOf_append hslash hne _

/-- **The name of a file in a directory** has the parts of the directory, and one more. -/
lemma ofText_inside {n : WrittenName}
    (hd : directory ≠ "") (hslash : '/' ∉ name.toList) (hne : name.toList ≠ [])
    (h : ofText (inside directory name) = .ok n) :
    ∃ n', ofText directory = .ok n' ∧ n'.isAbsolute = n.isAbsolute ∧
      n.parts = name :: n'.parts := by
  obtain ⟨⟨more, hinside⟩, hparts⟩ := inside_cases hd hslash hne
  obtain ⟨c, cs, hcs⟩ := List.exists_cons_of_ne_nil (mt String.toList_eq_nil_iff.1 hd)
  have hsize : directory.utf8ByteSize ≤ (inside directory name).utf8ByteSize := by
    rw [hinside, String.utf8ByteSize_append]
    exact Nat.le_add_right _ _
  have htext : (inside directory name).toList = c :: (cs ++ more.toList) := by
    rw [hinside, String.toList_append, hcs, List.cons_append]
  simp only [ofText] at h
  split_ifs at h with hnul hempty hlong
  · have hnul' : ¬ directory.toList.contains '\x00' = true := by
      simp only [hinside, String.toList_append, List.contains_eq_mem, decide_eq_true_eq,
        List.mem_append, not_or] at hnul ⊢
      exact hnul.1
    have hempty' : ¬ directory.toList.isEmpty = true := by simp [hcs]
    have hlong' : ¬ maxBytes < directory.utf8ByteSize := by omega
    obtain rfl := Except.ok.inj h
    refine ⟨⟨directory.toList.head? == some '/',
      (partsOf directory.toList).reverse.map String.ofList,
      directory.toList.getLast? == some '/'⟩, ?_, ?_, ?_⟩
    · simp only [ofText, if_neg hnul', if_neg hempty', if_neg hlong']
      rfl
    · rw [htext, hcs]
      rfl
    · change ((partsOf (inside directory name).toList).reverse.map String.ofList) =
        name :: (partsOf directory.toList).reverse.map String.ofList
      rw [hparts, List.reverse_append, List.map_append]
      exact congrArg (· :: _) String.ofList_toList

end WrittenName

namespace Disk

variable {d d' : Disk} {text : String} {bytes : ByteArray}

/-- What is written has a name. -/
lemma of_write (h : d.write text bytes = .ok d') :
    ∃ n, WrittenName.ofText text = .ok n ∧ d.writeName n bytes = .ok d' := by
  unfold write at h
  cases hn : WrittenName.ofText text with
  | error fault =>
    rw [hn] at h
    cases h
  | ok n =>
    rw [hn] at h
    exact ⟨n, rfl, h⟩

/-- What a name is found to be is what stands there. -/
lemma stat_of_find {n : WrittenName} {found : Place × DiskEntry}
    (hn : WrittenName.ofText text = .ok n) (h : d.findName n = .ok found) :
    d.stat text = .ok found.2 := by
  rw [stat, find, hn]
  exact congrArg (Except.map Prod.snd) h

/-- **What is written is read.** -/
theorem read_of_write (h : d.write text bytes = .ok d') :
    d'.read text = .ok bytes ∧ d'.contains text = true := by
  obtain ⟨n, hn, hwrite⟩ := of_write h
  obtain ⟨⟨place, hfind⟩, -⟩ := findName_of_writeName hwrite
  have hstat : d'.stat text = .ok (.file bytes) := stat_of_find hn hfind
  exact ⟨by rw [read, hstat], by rw [contains, hstat]; rfl⟩

/-- **What is written in a directory** leaves the directory there. -/
theorem contains_of_write {directory name : String} (hd : directory ≠ "")
    (hslash : '/' ∉ name.toList) (hne : name.toList ≠ [])
    (h : d.write (WrittenName.inside directory name) bytes = .ok d') :
    d'.contains directory = true := by
  obtain ⟨n, hn, hwrite⟩ := of_write h
  obtain ⟨n', hn', habsolute, hparts⟩ := WrittenName.ofText_inside hd hslash hne hn
  obtain ⟨found, hfind⟩ := (findName_of_writeName hwrite).2 n' name habsolute hparts
  rw [contains, stat_of_find hn' hfind]
  rfl

end Disk

end VersionedTree
