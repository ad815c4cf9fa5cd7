import VersionedTree.Proofs.Command.Words
import VersionedTree.Proofs.Config
import VersionedTree.Proofs.Disk
import VersionedTree.Proofs.Path.Labels
import VersionedTree.State

/-!
# State directories are read back

What begins a state directory ends by writing the file of its configuration. This file is found
where it was written, and its document is read as the configuration that was written, so that an old
state directory is the one that was begun.

## Main results

* `VersionedTree.State.of_init` — what is done to begin a state directory.
* `VersionedTree.State.load_of_write` — a configuration that is written is loaded.
* `VersionedTree.State.load_after_init` — the state directory that was begun is loaded.
-/

set_option autoImplicit false

namespace VersionedTree

namespace State

variable {directory : String} {config : Config} {d d' : Disk} {s : State}

/-! ## Beginning and loading -/

/-- **A state directory that is begun** was not there before, has the initial configuration, and
the document of this configuration is the last thing that is written. -/
lemma of_init (h : init directory config d = (.ok s, d')) :
    d.contains directory = false ∧ s = ⟨directory, initialConfig directory config⟩ ∧
      ∃ before : Disk,
        before.write (WrittenName.inside directory configName) s.config.render.toUTF8 = .ok d' := by
  unfold init at h
  split at h
  · cases h
  · next hnew =>
    split at h
    · cases h
    · split at h
      · cases h
      · next before _ =>
        simp only at h
        split at h
        · cases h
        · next after hwrite =>
          obtain ⟨hs, rfl⟩ := Prod.mk.inj h
          obtain rfl := Except.ok.inj hs
          exact ⟨by simpa using hnew, rfl, before, hwrite⟩

/-- **A configuration that is written** into its file is the one that is loaded. -/
lemma load_of_write (hd : directory ≠ "")
    (h : d.write (WrittenName.inside directory configName) config.render.toUTF8 = .ok d') :
    load directory d' = .ok ⟨directory, config⟩ := by
  have hthere : d'.contains directory = true :=
    Disk.contains_of_write hd (by decide) (by decide) h
  obtain ⟨hread, hfile⟩ := Disk.read_of_write h
  simp only [load, hthere, hfile, hread, fromUTF8?_toUTF8, Config.parse?_render, Bool.not_true,
    Bool.false_eq_true, if_false]

/-- **Configurations are kept.** The document of a configuration is read as the configuration. So
when a state directory has been begun, the state directory that is loaded is the one that was begun:
its configuration is the given one with a place for payloads, which is a directory of the state
directory exactly if no place was given.

The name of a state directory is not empty. An empty name leads nowhere, so that nothing is loaded
by it, and no command line has one.

**Proof sketch.** Beginning ends with writing the document (`VersionedTree.State.of_init`). The disk
gives back what is written (`VersionedTree.Disk.read_of_write`), the directory of the file is still
there, and the document is read back (`VersionedTree.Config.parse?_render`). -/
theorem load_after_init :
    (∀ config : Config, Config.parse? config.render = some config) ∧
    (∀ (directory : String) (config : Config) (d d' : Disk) (s : State), directory ≠ "" →
      init directory config d = (.ok s, d') →
      load directory d' = .ok s ∧ s.config = { config with blobStore := some s.blobStore } ∧
      (config.blobStore = none → s.blobStore = .directory (s.fileName payloadsName)) ∧
      (∀ store, config.blobStore = some store → s.blobStore = store)) ∧
    ∀ (words : List String) (i : Invocation), Invocation.ofWords words = .ok i →
      i.stateDirectory ≠ some "" := by
  refine ⟨Config.parse?_render, fun directory config d d' s hd h => ?_,
    fun _ _ => Invocation.stateDirectory_ne_empty⟩
  obtain ⟨-, rfl, before, hwrite⟩ := of_init h
  refine ⟨load_of_write hd hwrite, rfl, fun hstore => ?_, fun store hstore => ?_⟩ <;>
    simp only [blobStore, initialConfig, fileName, hstore, Option.getD]

/-- On an empty disk, a level with quotes, a line break and a control character is kept, and so is a
bucket whose names are like these; the directory can be named on a command line. -/
theorem load_after_init_quotes :
    (∃ s d', init "state" ⟨⟨.ofNat 7⟩, "\"'''\\\n\x01", none, none⟩ .empty = (.ok s, d') ∧
      load "state" d' = .ok s ∧ s.config.logLevel = "\"'''\\\n\x01" ∧
      s.blobStore = .directory "state/blobs") ∧
    (∃ s d', init "state" ⟨⟨.ofNat 7⟩, "", some "\t", some (.bucket "" "#" "\r\n" "é" none)⟩
        .empty = (.ok s, d') ∧
      load "state" d' = .ok s ∧ s.config.logDir = some "\t" ∧
      s.blobStore = .bucket "" "#" "\r\n" "é" none) ∧
    ∃ i, Invocation.ofWords ["--config-path", "state", "init"] = .ok i ∧
      i.stateDirectory ≠ some "" := by
  obtain ⟨-, hkept, hnamed⟩ := load_after_init
  have hlevel : (init "state" ⟨⟨.ofNat 7⟩, "\"'''\\\n\x01", none, none⟩ .empty).1 =
      .ok ⟨"state", ⟨⟨.ofNat 7⟩, "\"'''\\\n\x01", none,
        some (.directory "state/blobs")⟩⟩ := by
    decide +kernel
  have hbucket : (init "state" ⟨⟨.ofNat 7⟩, "", some "\t",
      some (.bucket "" "#" "\r\n" "é" none)⟩ .empty).1 =
      .ok ⟨"state", ⟨⟨.ofNat 7⟩, "", some "\t", some (.bucket "" "#" "\r\n" "é" none)⟩⟩ := by
    decide +kernel
  obtain ⟨hfirst, -, hdefault, -⟩ := hkept _ _ _ _ _ (by decide) (Prod.ext hlevel rfl)
  obtain ⟨hsecond, -, -, hgiven⟩ := hkept _ _ _ _ _ (by decide) (Prod.ext hbucket rfl)
  have hwords : Invocation.ofWords ["--config-path", "state", "init"] =
      .ok ⟨some "state", none, .init "info"⟩ := by decide +kernel
  exact ⟨⟨_, _, Prod.ext hlevel rfl, hfirst, rfl, hdefault rfl⟩,
    ⟨_, _, Prod.ext hbucket rfl, hsecond, rfl, hgiven _ rfl⟩, _, hwords, hnamed _ _ hwords⟩

end State

end VersionedTree
