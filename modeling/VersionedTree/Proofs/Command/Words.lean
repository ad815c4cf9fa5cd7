import Mathlib.Tactic.Lemma
import VersionedTree.Command.Words

/-!
# Names on the command line

The state directory that a command line names has a name that is not empty: its switch takes the
name of a file, wherever it stands, and no position has the name of this switch.

## Main definitions

* `VersionedTree.Words.Scan.IsNamed` — a scan without an empty name.

## Main results

* `VersionedTree.Words.Form.isNamed_readWord` — one word keeps it so.
* `VersionedTree.Invocation.stateDirectory_ne_empty` — no command line has an empty name.
-/

set_option autoImplicit false

namespace VersionedTree

/-! ## Results -/

section

variable {ε α β : Type} {x : Except ε α}

/-- What goes on from a result was given one. -/
lemma of_bind_eq_ok {f : α → Except ε β} {r : β} (h : x >>= f = .ok r) :
    ∃ a, x = .ok a ∧ f a = .ok r := by
  cases x with
  | error e => cases h
  | ok a => exact ⟨a, rfl, h⟩

/-- What was made of a result was made of one. -/
lemma of_map_eq_ok {f : α → β} {r : β} (h : x.map f = .ok r) : ∃ a, x = .ok a ∧ f a = r := by
  cases x with
  | error e => cases h
  | ok a => exact ⟨a, rfl, Except.ok.inj h⟩

end

namespace Words

/-- The name of the switch for the state directory. -/
def directorySwitch : String := "config-path"

/-! ## Scans -/

namespace Scan

/-- The state directory has no empty name so far, and what is pending for it is the name of a
file. -/
structure IsNamed (s : Scan) : Prop where
  taken : ∀ v, (directorySwitch, v) ∈ s.taken → v ≠ .text ""
  pending : ∀ domain text, s.pending = some (directorySwitch, domain, text) → domain = .fileName

variable {s s' : Scan} {name : String} {domain : Domain}

/-- Nothing has been read at the start. -/
lemma isNamed_start : start.IsNamed := ⟨nofun, nofun⟩

/-- The name of a file is not empty. -/
lemma read_fileName_ne {text : String} {v : Value} (h : Domain.fileName.read text = .ok v) :
    v ≠ .text "" := by
  rw [Domain.read] at h
  split at h
  · cases h
  · next hne =>
    obtain rfl := Except.ok.inj h
    rintro htext
    obtain rfl := Value.text.inj htext
    exact hne rfl

/-- A value for the state directory that is not empty may be taken. -/
lemma IsNamed.take (h : s.IsNamed) {value : Except Misuse Value}
    (hv : ∀ v, value = .ok v → name = directorySwitch → v ≠ .text "")
    (hr : s.take name value = .ok s') : s'.IsNamed := by
  rw [Scan.take] at hr
  split at hr
  · cases hr
  · obtain ⟨v, hvalue, rfl⟩ := of_map_eq_ok hr
    refine ⟨fun w hw => ?_, nofun⟩
    rcases List.mem_cons.1 hw with hw | hw
    · obtain ⟨hname, rfl⟩ := Prod.mk.inj hw
      exact hv _ hvalue hname.symm
    · exact h.taken w hw

/-- What is pending is read as the name of a file, and so is not empty. -/
lemma IsNamed.settle (h : s.IsNamed) (hr : s.settle = .ok s') : s'.IsNamed := by
  rw [Scan.settle] at hr
  split at hr
  · obtain rfl := Except.ok.inj hr
    exact h
  · cases hr
  · next name domain text hpending =>
    refine h.take (fun v hv hname => ?_) hr
    subst hname
    rw [h.pending domain _ hpending] at hv
    exact read_fileName_ne hv

/-- A switch for the state directory waits for the name of a file. -/
lemma IsNamed.begin (h : s.IsNamed) (hd : name = directorySwitch → domain = .fileName)
    {text : Option String} (hr : s.begin name domain text = .ok s') : s'.IsNamed := by
  obtain ⟨t, hs, rfl⟩ := of_map_eq_ok hr
  refine ⟨(h.settle hs).taken, ?_⟩
  intro d w hp
  have hp : (name, domain, text) = (directorySwitch, d, w) := Option.some.inj hp
  obtain ⟨hname, hrest⟩ := Prod.mk.inj hp
  rw [← (Prod.mk.inj hrest).1]
  exact hd hname

/-- A flag takes no text. -/
lemma IsNamed.takeFlag (h : s.IsNamed) (hr : s.takeFlag name = .ok s') : s'.IsNamed := by
  obtain ⟨t, hs, hr⟩ := of_bind_eq_ok hr
  split at hr
  · cases hr
  · refine (h.settle hs).take (fun v hv _ => ?_) hr
    obtain rfl := Except.ok.inj hv
    exact nofun

/-- An option for the state directory takes the name of a file, attached to it or from the next
word. -/
lemma IsNamed.takeOption (h : s.IsNamed) (hd : name = directorySwitch → domain = .fileName)
    {attached : Option String} (hr : s.takeOption name domain attached = .ok s') :
    s'.IsNamed := by
  obtain ⟨t, hs, hr⟩ := of_bind_eq_ok hr
  have ht := h.begin hd hs
  split at hr
  · exact ht.settle hr
  · obtain rfl := Except.ok.inj hr
    exact ht

/-- So no empty name is among the arguments. -/
lemma IsNamed.text?_ne (h : s.IsNamed) : s.taken.text? directorySwitch ≠ some "" := by
  unfold Arguments.text? Arguments.get?
  cases hfind : s.taken.find? fun a => a.1 == directorySwitch with
  | none => exact nofun
  | some a =>
    have hname : a.1 = directorySwitch := by simpa using List.find?_some hfind
    have hne := h.taken a.2 (hname ▸ List.mem_of_find?_eq_some hfind)
    rw [Option.map_some]
    split
    · next text htext =>
      intro hempty
      exact hne ((Option.some.inj htext).trans (congrArg Value.text (Option.some.inj hempty)))
    · exact nofun

end Scan

/-! ## Forms -/

namespace Form

/-- What is named like the switch for the state directory takes the name of a file. -/
structure IsNamed (f : Form) : Prop where
  switches : ∀ sw ∈ commonSwitches ++ f.switches, sw.name = directorySwitch →
    sw.domain = some .fileName
  positions : ∀ p ∈ f.positions, p.name = directorySwitch → p.domain = .fileName

variable {f : Form} {s s' : Scan}

/-- The words before a command name the state directory like those after it. -/
lemma isNamed_outerForm : outerForm.IsNamed := ⟨by decide, by decide⟩

/-- All forms are like this. -/
lemma isNamed_of_mem (h : f ∈ forms) : f.IsNamed := by
  have hswitches : ∀ f ∈ forms, ∀ sw ∈ commonSwitches ++ f.switches,
      sw.name = directorySwitch → sw.domain = some .fileName := by decide
  have hpositions : ∀ f ∈ forms, ∀ p ∈ f.positions,
      p.name = directorySwitch → p.domain = .fileName := by decide
  exact ⟨hswitches f h, hpositions f h⟩

/-- A switch that takes a value. -/
lemma IsNamed.domain_eq (hf : f.IsNamed) {sw : Switch} (hsw : sw ∈ commonSwitches ++ f.switches)
    {domain : Domain} (hd : sw.domain = some domain) (hname : sw.name = directorySwitch) :
    domain = .fileName := by
  rw [hf.switches sw hsw hname] at hd
  exact (Option.some.inj hd).symm

/-- A word that begins with two hyphens leaves the state directory named. -/
lemma isNamed_readLong (hf : f.IsNamed) (h : s.IsNamed) {cs : List Char}
    (hr : f.readLong s cs = .ok s') : s'.IsNamed := by
  rw [readLong] at hr
  split at hr
  split at hr
  · cases hr
  · next sw hfind =>
    have hsw := List.mem_of_find?_eq_some hfind
    split at hr
    · next domain hd => exact h.takeOption (hf.domain_eq hsw hd) hr
    · split at hr
      · cases hr
      · exact h.takeFlag hr

/-- Letters behind one hyphen are read in turn, and each leaves it named. -/
lemma isNamed_readShort (hf : f.IsNamed) (h : s.IsNamed) {cs : List Char}
    (hr : f.readShort s cs = .ok s') : s'.IsNamed := by
  induction cs generalizing s with
  | nil =>
    obtain rfl := Except.ok.inj hr
    exact h
  | cons letter rest ih =>
    rw [readShort] at hr
    split at hr
    · cases hr
    · next sw hfind =>
      have hsw := List.mem_of_find?_eq_some hfind
      split at hr
      · next domain hd => exact h.takeOption (hf.domain_eq hsw hd) hr
      · split at hr
        · cases hr
        · next t ht => exact ih (h.takeFlag ht) hr

/-- So does a word in a position of its own. -/
lemma isNamed_readPosition (hf : f.IsNamed) (h : s.IsNamed) {word : String}
    (hr : f.readPosition s word = .ok s') : s'.IsNamed := by
  rw [readPosition] at hr
  split at hr
  · cases hr
  · next p hp =>
    obtain ⟨t, hb, rfl⟩ := of_map_eq_ok hr
    have ht := h.begin (hf.positions p (List.mem_of_getElem? hp)) hb
    exact ⟨ht.taken, ht.pending⟩

/-- **One word** does not make the name empty. -/
theorem isNamed_readWord (hf : f.IsNamed) (h : s.IsNamed) {word : String}
    (hr : f.readWord s word = .ok s') : s'.IsNamed := by
  rw [readWord] at hr
  split at hr
  · exact isNamed_readPosition hf h hr
  · split at hr
    · obtain rfl := Except.ok.inj hr
      exact ⟨h.taken, h.pending⟩
    · exact isNamed_readLong hf h hr
    · exact isNamed_readShort hf h hr
    · rw [readValue] at hr
      split at hr
      · next name domain hpending =>
        obtain rfl := Except.ok.inj hr
        refine ⟨h.taken, fun d text hp => ?_⟩
        have hp : (name, domain, some word) = (directorySwitch, d, text) := Option.some.inj hp
        obtain ⟨hname, hrest⟩ := Prod.mk.inj hp
        rw [← (Prod.mk.inj hrest).1]
        exact h.pending domain none (hname ▸ hpending)
      · exact isNamed_readPosition hf h hr

/-- **Words** do not make the name empty. -/
lemma isNamed_foldlM (hf : f.IsNamed) (h : s.IsNamed) {words : List String}
    (hr : words.foldlM f.readWord s = .ok s') : s'.IsNamed := by
  induction words generalizing s with
  | nil =>
    obtain rfl := Except.ok.inj hr
    exact h
  | cons word rest ih =>
    rw [List.foldlM_cons] at hr
    obtain ⟨t, hw, hr⟩ := of_bind_eq_ok hr
    exact ih (isNamed_readWord hf h hw) hr

/-- The arguments that words give have no empty name. -/
lemma text?_ne_of_read (hf : f.IsNamed) {words : List String} {as : Arguments}
    (hr : f.read words = .ok as) : as.text? directorySwitch ≠ some "" := by
  obtain ⟨s, hs, hr⟩ := of_bind_eq_ok hr
  obtain ⟨t, ht, hr⟩ := of_bind_eq_ok hr
  obtain rfl := Except.ok.inj hr
  exact ((isNamed_foldlM hf Scan.isNamed_start hs).settle ht).text?_ne

end Form

end Words

namespace Invocation

open Words

/-- A choice of two texts is empty only if one of them is. -/
lemma orElse_ne_empty {first second : Option String} (h₁ : first ≠ some "")
    (h₂ : second ≠ some "") : (first <|> second) ≠ some "" := by
  cases first with
  | none => exact h₂
  | some text => exact h₁

/-- The command of a form has no empty name. -/
lemma stateDirectory_ne_of_ofForm {f : Form} (hf : f.IsNamed) {s : Scan} (h : s.IsNamed)
    {words : List String} {i : Invocation} (hr : ofForm f s words = .ok i) :
    i.stateDirectory ≠ some "" := by
  rw [ofForm] at hr
  split at hr
  · cases hr
  · next inner hinner =>
    split at hr
    · cases hr
    · obtain ⟨t, hs, rfl⟩ := of_map_eq_ok hr
      exact orElse_ne_empty (Form.text?_ne_of_read hf hinner) (h.settle hs).text?_ne

/-- The words after others have no empty name either. -/
lemma stateDirectory_ne_of_ofWordsFrom {s : Scan} (h : s.IsNamed) {words : List String}
    {i : Invocation} (hr : ofWordsFrom s words = .ok i) : i.stateDirectory ≠ some "" := by
  induction words generalizing s with
  | nil =>
    rw [ofWordsFrom] at hr
    split at hr <;> cases hr
  | cons word rest ih =>
    rw [ofWordsFrom] at hr
    split at hr
    · cases hr
    · split at hr
      · next f hform =>
        split at hform
        · cases hform
        · exact stateDirectory_ne_of_ofForm (Form.isNamed_of_mem (List.mem_of_find?_eq_some hform))
            h hr
      · split at hr
        · cases hr
        · next t ht => exact ih (Form.isNamed_readWord Form.isNamed_outerForm h ht) hr

/-- **No command line** names a state directory by an empty name. -/
theorem stateDirectory_ne_empty {words : List String} {i : Invocation}
    (h : ofWords words = .ok i) : i.stateDirectory ≠ some "" :=
  stateDirectory_ne_of_ofWordsFrom Scan.isNamed_start h

end Invocation

end VersionedTree
