import VersionedTree.Command.Run
import VersionedTree.Proofs.Archive.ClaimedKinds
import VersionedTree.Proofs.Archive.Copies
import VersionedTree.Proofs.Archive.Reachable
import VersionedTree.Proofs.Path.Labels

/-!
# Directories on demand

A directory that is made together with the missing ones above it is there afterwards, and so are
those above it: a node needs a container, and the places that are passed over have nodes. The last
place is passed over, too, if it has a node, and this may be a file.

## Main results

* `VersionedTree.Archive.createMissing_ok` — places that are filled in turn.
* `VersionedTree.Archive.makeDirectory_ok` — what is at the place of a new directory.
* `VersionedTree.Archive.makeDirectory_of_file` — a place that a file has.
* `VersionedTree.Command.directories_made` — the places of a directory that was asked for.
* `VersionedTree.Command.file_in_place_of_directory` — a file that is taken for a directory.
-/

set_option autoImplicit false

namespace VersionedTree

/-- Containers are roots and directories. -/
lemma Kind.isContainer_iff {k : Kind} : k.isContainer = true ↔ k = .root ∨ k = .dir := by
  cases k <;> decide

namespace Path

variable {p q : Path}

/-- The places that lead to a path are the path and places above it. -/
lemma mem_steps (hq : q ∈ p.steps) : q = p ∨ q ∈ p.ancestors := by
  rcases List.mem_append.1 hq with hq | hq
  · exact .inr (List.mem_of_mem_filter (List.mem_reverse.1 hq))
  · exact .inl (List.mem_singleton.1 hq)

/-- The way to a place ends at the place. -/
lemma self_mem_steps (p : Path) : p ∈ p.steps :=
  List.mem_append_right _ (List.mem_singleton.2 rfl)

end Path

namespace Archive

variable {a a' : Archive} {owner : OwnerId} {path : Path} {n : Node}

/-! ## Single nodes -/

/-- A node that is created comes in front. -/
lemma createNode_of_ok {env : Env} {kind : Kind}
    (h : a.createNode env owner path kind = (.ok n, a')) :
    n.owner = owner ∧ n.path = path ∧ n.kind = kind ∧
      a'.tables.nodes = n :: a.tables.nodes := by
  rcases a.withTables_transact_cases (Tables.createNode (env.nodeId 0) (env.now 0) owner path kind)
    with ⟨e, h'⟩ | ⟨m, t', hbody, -, h'⟩
  · cases h.symm.trans h'
  · obtain ⟨e, rfl⟩ := Prod.mk.inj (h.symm.trans h')
    obtain rfl := Except.ok.inj e
    obtain ⟨hinsert, hn⟩ := Tables.createNode_ok hbody
    obtain ⟨-, -, rfl⟩ := Tables.insertNode_eq_ok.1 hinsert
    rw [hn]
    exact ⟨rfl, rfl, rfl, rfl⟩

/-- A root that is missing is made, and nothing else. -/
lemma ensureRoot_ok {env : Env} (h : a.ensureRoot env owner = (.ok (), a')) (ha : a.Reachable) :
    a'.Reachable ∧ ∀ n ∈ a'.tables.nodes, n ∈ a.tables.nodes ∨ n.kind = .root := by
  unfold ensureRoot at h
  split at h
  · obtain ⟨-, rfl⟩ := Prod.mk.inj h
    exact ⟨ha, fun n hn => .inl hn⟩
  · split at h
    · next root a₁ hroot =>
      obtain ⟨-, rfl⟩ := Prod.mk.inj h
      have hreach := ha.step ⟨env, owner, .createRoot⟩
      have hafter : (Step.mk env owner .createRoot).apply a = a₁ := congrArg Prod.snd hroot
      obtain ⟨-, -, hkind, hnodes⟩ := createNode_of_ok hroot
      refine ⟨hafter ▸ hreach, fun n hn => ?_⟩
      rw [hnodes] at hn
      rcases List.mem_cons.1 hn with rfl | hn
      · exact .inr hkind
      · exact .inl hn
    · cases h
  · cases h

/-! ## Nodes in turn -/

/-- **Places that are filled in turn** have nodes afterwards: new directories, or those that were
there.

**Proof sketch.** Induction on the places. Each one has a node or gets a directory, and nothing
leaves. -/
theorem createMissing_ok {env : Nat → Env} {k : Nat} {places : List Path} {made : List Node}
    (h : createMissing env owner k places a = (.ok made, a')) (ha : a.Reachable) :
    a'.Reachable ∧ (∀ n ∈ a.tables.nodes, n ∈ a'.tables.nodes) ∧
      ∀ q ∈ places, ∃ n ∈ a'.tables.nodes, n.owner = owner ∧ n.path = q ∧
        (n ∈ a.tables.nodes ∨ n.kind = .dir) := by
  induction places generalizing k a made with
  | nil =>
    obtain ⟨-, rfl⟩ := Prod.mk.inj h
    exact ⟨ha, fun n hn => hn, fun q hq => absurd hq List.not_mem_nil⟩
  | cons first rest ih =>
    unfold createMissing at h
    split at h
    · next n hthere =>
      obtain ⟨hreach, hstay, hrest⟩ := ih h ha
      obtain ⟨hn, ho, hp⟩ := of_resolve hthere
      exact ⟨hreach, hstay, List.forall_mem_cons.2 ⟨⟨n, hstay n hn, ho, hp, .inl hn⟩, hrest⟩⟩
    · split at h
      · cases h
      · next n a₁ hnew =>
        have hstep := ha.step ⟨env k, owner, .createDirectory first⟩
        have hafter : (Step.mk (env k) owner (.createDirectory first)).apply a = a₁ :=
          congrArg Prod.snd hnew
        rw [hafter] at hstep
        obtain ⟨ho, hp, hkind, hnodes⟩ := createNode_of_ok hnew
        split at h
        · cases h
        · next made' a₂ hmade =>
          obtain ⟨-, rfl⟩ := Prod.mk.inj h
          obtain ⟨hreach, hstay, hrest⟩ := ih hmade hstep
          rw [hnodes] at hstay hrest
          rw [List.forall_mem_cons] at hstay
          refine ⟨hreach, hstay.2, List.forall_mem_cons.2
            ⟨⟨n, hstay.1, ho, hp, .inr hkind⟩, fun q hq => ?_⟩⟩
          obtain ⟨m, hm, hmo, hmp, hold⟩ := hrest q hq
          refine ⟨m, hm, hmo, hmp, ?_⟩
          rcases hold with hold | hdir
          · rcases List.mem_cons.1 hold with rfl | hold
            · exact .inr hkind
            · exact .inl hold
          · exact .inr hdir
    · cases h

/-- Places that have nodes are passed over. -/
lemma createMissing_append {env : Nat → Env} {k : Nat} {places rest : List Path}
    (h : ∀ q ∈ places, ∃ n, a.resolve owner q = .ok n) :
    createMissing env owner k (places ++ rest) a = createMissing env owner k rest a := by
  induction places with
  | nil => rfl
  | cons first more ih =>
    rw [List.forall_mem_cons] at h
    obtain ⟨⟨n, hn⟩, hmore⟩ := h
    rw [List.cons_append, createMissing, hn]
    exact ih hmore

/-- Nothing is created if all places are there. -/
lemma createMissing_of_present {env : Nat → Env} {k : Nat} {places : List Path}
    (h : ∀ q ∈ places, ∃ n, a.resolve owner q = .ok n) :
    createMissing env owner k places a = (.ok [], a) := by
  rw [← List.append_nil places, createMissing_append h]
  rfl

/-- **What is at the place of a directory** that has been made with those above it: a container, or
a node that was there. -/
theorem makeDirectory_ok {env : Nat → Env} {made : List Node}
    (h : a.makeDirectory env owner path true = (.ok made, a')) (ha : a.Reachable) :
    a'.Reachable ∧ ∃ n ∈ a'.tables.nodes, n.owner = owner ∧ n.path = path ∧
      (n.kind.isContainer = true ∨ n ∈ a.tables.nodes) := by
  unfold makeDirectory at h
  split at h
  · cases h
  · next a₁ hroot =>
    obtain ⟨hreach₁, hold₁⟩ := ensureRoot_ok hroot ha
    obtain ⟨hreach, -, hplaces⟩ := createMissing_ok h hreach₁
    obtain ⟨n, hn, ho, hp, hold | hdir⟩ := hplaces path path.self_mem_steps
    · refine ⟨hreach, n, hn, ho, hp, ?_⟩
      rcases hold₁ n hold with hold | hkind
      · exact .inr hold
      · exact .inl (by rw [hkind]; rfl)
    · exact ⟨hreach, n, hn, ho, hp, .inl (by rw [hdir]; rfl)⟩

/-- **The place of a file** is passed over like that of a directory: nothing is made, and this
counts as a success. -/
theorem makeDirectory_of_file (env : Nat → Env) (ha : a.tables.IsForest) {f : Node}
    (hf : f ∈ a.tables.nodes) (hk : f.kind = .file) (hv : f.path.Valid) :
    a.makeDirectory env f.owner f.path true = (.ok [], a) := by
  have habove : ∀ q ∈ f.path.ancestors, ∃ n, a.resolve f.owner q = .ok n := by
    intro q hq
    obtain ⟨hc, hne⟩ := Path.mem_ancestors.1 hq
    obtain ⟨m, hm, ho, rfl, -⟩ := ha.container_above hf hc hne
    exact ⟨m, ho ▸ resolve_of_mem ha.keyed hm (hv.of_mem_ancestors hq)⟩
  have hsteps : ∀ q ∈ f.path.steps, ∃ n, a.resolve f.owner q = .ok n := by
    intro q hq
    rcases Path.mem_steps hq with rfl | hq
    · exact ⟨f, resolve_of_mem ha.keyed hf hv⟩
    · exact habove q hq
  have hroot : ∃ n, a.resolve f.owner .root = .ok n := by
    refine habove _ (Path.mem_ancestors.2 ⟨Path.covers_iff.2 (.inl rfl), fun e => ?_⟩)
    have hbelow := ha.path_ne_root hf (by rw [hk]; decide)
    rw [← e] at hbelow
    cases hbelow
  obtain ⟨n, hn⟩ := hroot
  unfold makeDirectory ensureRoot
  simp only [hn, if_true]
  exact createMissing_of_present hsteps

end Archive

/-! ## Requests of users -/

namespace Command

/-- **The places of a directory that was asked for.** After every history of operations and
transactions, if the directory of a user's path is made together with the missing ones above it,
and this succeeds, then all places above the path have containers afterwards. So has the path,
unless it had a file. In that case the answer says that the path already exists, and nothing has
changed.

**Proof sketch.** The path has a node afterwards, and the places above a node have containers. The
node is new, or the root, or it was there before. -/
theorem directories_made {a a' : Archive} (ha : a.Reachable) (env : Nat → Env) (owner : OwnerId)
    {input : String} {p : Path} (hp : Path.parse input = .ok p) {report : String}
    (h : performMakeDirectory env owner p true a = (.ok report, a')) :
    let isContainerAt (q : Path) : Prop :=
      ∃ n, a'.resolve owner q = .ok n ∧ (n.kind = .root ∨ n.kind = .dir)
    let hadFile : Prop := ∃ f, a.resolve owner p = .ok f ∧ f.kind = .file
    (∀ q ∈ p.ancestors, isContainerAt q) ∧ (¬hadFile → isContainerAt p) ∧
      (hadFile → report = p.display ++ " already exists" ∧ a' = a) := by
  intro isContainerAt hadFile
  have hv : p.Valid := Path.valid_of_parse hp
  unfold performMakeDirectory at h
  split at h
  · cases h
  next made a₁ hmade =>
    obtain ⟨hreport, rfl⟩ := Prod.mk.inj h
    obtain ⟨ha', n, hn, rfl, rfl, hkind⟩ := Archive.makeDirectory_ok hmade ha
    have hforest := ha'.isForest
    refine ⟨fun q hq => ?_, fun hnone => ?_, ?_⟩
    · obtain ⟨hc, hne⟩ := Path.mem_ancestors.1 hq
      obtain ⟨m, hm, ho, rfl, hcontainer⟩ := hforest.container_above hn hc hne
      exact ⟨m, ho ▸ Archive.resolve_of_mem hforest.keyed hm (hv.of_mem_ancestors hq),
        Kind.isContainer_iff.1 hcontainer⟩
    · refine ⟨n, Archive.resolve_of_mem hforest.keyed hn hv, ?_⟩
      rcases hkind with hcontainer | hold
      · exact Kind.isContainer_iff.1 hcontainer
      · have hresolve := Archive.resolve_of_mem ha.isForest.keyed hold hv
        cases hk : n.kind with
        | root => exact .inl rfl
        | dir => exact .inr rfl
        | file => exact absurd ⟨n, hresolve, hk⟩ hnone
    · rintro ⟨f, hf, hk⟩
      obtain ⟨hmem, ho, hplace⟩ := Archive.of_resolve hf
      have hsame := Archive.makeDirectory_of_file env ha.isForest hmem hk (hplace ▸ hv)
      rw [ho, hplace, hmade] at hsame
      obtain ⟨hnone, rfl⟩ := Prod.mk.inj hsame
      obtain rfl := Except.ok.inj hnone
      exact ⟨(Except.ok.inj hreport).symm, rfl⟩

/-- Two directories are made below one that is there. -/
theorem directories_made_nested :
    let a := Archive.empty.after Step.beginDirectory
    let owner : OwnerId := ⟨.ofNat 1⟩
    let made := performMakeDirectory (fun k => .numbered (k + 3)) owner ⟨"d.x.y"⟩ true a
    (∃ report, made.1 = .ok report) ∧ made.2.tables.nodes.length = 4 ∧
      ∃ n, made.2.resolve owner ⟨"d.x.y"⟩ = .ok n ∧ (n.kind = .root ∨ n.kind = .dir) := by
  intro a owner made
  obtain ⟨report, hreport⟩ : ∃ report, made.1 = .ok report := by
    have hok : made.1.toOption.isSome = true := by decide +kernel
    cases h : made.1 with
    | ok report => exact ⟨report, rfl⟩
    | error e =>
      rw [h] at hok
      cases hok
  have hparse : Path.parse "/d/x/y" = .ok ⟨"d.x.y"⟩ := by decide +kernel
  have hnone : ¬∃ f, a.resolve owner ⟨"d.x.y"⟩ = .ok f ∧ f.kind = .file := by
    have hmissing : (a.resolve owner ⟨"d.x.y"⟩).toOption = none := by decide +kernel
    rintro ⟨f, hf, -⟩
    rw [hf] at hmissing
    cases hmissing
  obtain ⟨-, hplace, -⟩ := directories_made (Archive.Reachable.empty.after Step.beginDirectory)
    (fun k => .numbered (k + 3)) owner hparse (Prod.ext hreport rfl)
  exact ⟨⟨report, hreport⟩, by decide +kernel, hplace hnone⟩

/-- **A file in place of a directory.** A user asks for a directory together with those above it at
the place of a file. This succeeds, and the file is still there. -/
theorem file_in_place_of_directory :
    let a := Archive.empty.after (Step.beginTree ++ [Step.uploadParts])
    let owner : OwnerId := ⟨.ofNat 1⟩
    let made := performMakeDirectory (fun k => .numbered (k + 3)) owner ⟨"a"⟩ true a
    Path.parse "/a" = .ok ⟨"a"⟩ ∧ made.1 = .ok "/a already exists" ∧
      (made.2.resolve owner ⟨"a"⟩).map Node.kind = .ok .file := by
  decide +kernel

end Command

end VersionedTree
