import VersionedTree.Proofs.Archive.Reachable
import VersionedTree.Proofs.Archive.Relocation
import VersionedTree.Proofs.Path.Spellings

/-!
# Segments of stored places

What a tree shows of a place are its segments. They make up the stored text, but for signs in
escapes. So an owner has no two nodes that show the same segments, if the places that operations are
given have no signs, as is the case for all that users write.

## Main results

* `VersionedTree.Archive.places_shown` — accepted texts, and the nodes of an archive, by their
  segments.
* `VersionedTree.Archive.places_confused` — two texts, and two nodes, with the same segments.
-/

set_option autoImplicit false

namespace VersionedTree

namespace Archive

variable {encoded encoded' : String} {p q : Path}

/-- **What is shown of places.** Every label of an accepted text is the label of its segment, with a
digit in the place of a sign, so that accepted texts show the same segments if they are equal
without signs, and only then. After every history whose operations are given valid places, the same
holds of nodes of one owner. Hence no two nodes of an owner show the same segments if no place has a
sign that an operation is given.

**Proof sketch.** Operations make places of those that they are given and of those that are there:
these places are valid, and have no sign if they were given none. Without signs the segments make up
the stored text, and an owner has one node for each text. -/
theorem places_shown (hp : Path.fromEncoded encoded = .ok p)
    (hq : Path.fromEncoded encoded' = .ok q) (history : List Step)
    (ht : ∀ s ∈ history, ∀ target ∈ s.operation.target?, target.Valid) :
    let nodes := (empty.after history).tables.nodes
    (∀ label ∈ p.labels, ∃ segment, Label.decode label = .ok segment ∧
      Label.encode segment = label.map Label.unsigned ∧
      (Label.encode segment = label ↔ '+' ∉ label)) ∧
    (p.segments = q.segments ↔ p.unsigned = q.unsigned) ∧
    ('+' ∉ encoded.toList → '+' ∉ encoded'.toList → p.segments = q.segments →
      encoded = encoded') ∧
    (∀ m ∈ nodes, ∀ n ∈ nodes, m.path.segments = n.path.segments ↔
      m.path.unsigned = n.path.unsigned) ∧
    ((∀ s ∈ history, ∀ target ∈ s.operation.target?, '+' ∉ target.chars) →
      ∀ m ∈ nodes, ∀ n ∈ nodes, m.owner = n.owner → m.path.segments = n.path.segments →
        m = n) := by
  intro nodes
  obtain ⟨hpv, rfl⟩ := Path.valid_of_fromEncoded hp
  obtain ⟨hqv, rfl⟩ := Path.valid_of_fromEncoded hq
  have hv : ∀ n ∈ nodes, n.path.Valid := valid_after history ht
  refine ⟨?_, hpv.segments_eq_iff hqv, ?_, ?_, ?_⟩
  · intro label hl
    have hread := (hpv.isLabel hl).decode_eq
    exact ⟨_, hread, Label.encode_of_decode hread, Label.encode_eq_iff_of_decode hread⟩
  · intro hps hqs h
    rw [hpv.eq_of_segments_eq hqv hps hqs h]
  · exact fun m hm n hn => (hv m hm).segments_eq_iff (hv n hn)
  · intro hsigns m hm n hn ho h
    have hs : ∀ n ∈ nodes, '+' ∉ n.path.chars :=
      inherited_after (Path.inherited_not_mem '+') history hsigns
    have hkeyed := (Reachable.empty.after history).isForest.keyed
    exact hkeyed.nodes.places m hm n hn ho
      ((hv m hm).eq_of_segments_eq (hv n hn) (hs m hm) (hs n hn) h)

/-- The segments of a text with a sign are those of the text without it. Those of nodes in and below
a directory differ. -/
theorem places_shown_nested :
    let nodes := (empty.after Step.nestDirectories).tables.nodes
    (∀ label ∈ Path.labels ⟨"a.~05"⟩, ∃ segment, Label.decode label = .ok segment ∧
      Label.encode segment = label) ∧
    Path.segments ⟨"a.~05"⟩ = Path.segments ⟨"a.~+5"⟩ ∧
    (∀ m ∈ nodes, ∀ n ∈ nodes, m.owner = n.owner → m.path.segments = n.path.segments → m = n) := by
  intro nodes
  have hplain : Path.fromEncoded "a.~05" = .ok ⟨"a.~05"⟩ := by decide +kernel
  have hsigned : Path.fromEncoded "a.~+5" = .ok ⟨"a.~+5"⟩ := by decide +kernel
  have hvalid : ∀ s ∈ Step.nestDirectories, ∀ p ∈ s.operation.target?, p.Valid := by
    decide +kernel
  obtain ⟨hlabels, hsegments, -, -, hnodes⟩ :=
    places_shown hplain hsigned Step.nestDirectories hvalid
  refine ⟨?_, hsegments.2 (by decide +kernel), hnodes (by decide +kernel)⟩
  intro label hl
  obtain ⟨segment, hread, -, hspelled⟩ := hlabels label hl
  have hsign : ∀ label ∈ Path.labels ⟨"a.~05"⟩, '+' ∉ label := by decide +kernel
  exact ⟨segment, hread, hspelled.2 (hsign label hl)⟩

end Archive

/-! ### Two spellings of one name -/

namespace Step

/-- An owner adds two directories, the second one at the place that the first one has without its
sign. -/
def spellTwice : List Step :=
  beginTree ++ [⟨.numbered 2, ⟨.ofNat 1⟩, .createDirectory ⟨"~+5"⟩⟩,
    ⟨.numbered 3, ⟨.ofNat 1⟩, .createDirectory ⟨"~05"⟩⟩]

end Step

namespace Archive

/-- Two texts are accepted and show the same segment, one of them not its label, and so do two
directories of one owner. -/
theorem places_confused :
    Path.fromEncoded "~+5" = .ok ⟨"~+5"⟩ ∧ Path.fromEncoded "~05" = .ok ⟨"~05"⟩ ∧
    Path.segments ⟨"~+5"⟩ = Path.segments ⟨"~05"⟩ ∧
    (Label.decode "~+5".toList).map Label.encode = .ok "~05".toList ∧
    ∃ m ∈ (empty.after Step.spellTwice).tables.nodes,
      ∃ n ∈ (empty.after Step.spellTwice).tables.nodes,
        m ≠ n ∧ m.owner = n.owner ∧ m.path.segments = n.path.segments := by
  decide +kernel

end Archive

end VersionedTree
