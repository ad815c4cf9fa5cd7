import VersionedTree.Json.Record
import VersionedTree.Proofs.Json
import VersionedTree.Proofs.Path.Building

/-!
# Nodes are read back from their texts

The text of a node is an object with the texts of its identifiers, its kind, its time and what is
shown of its path. All but the path are always read back, and the path is if it is the one that is
named by what is shown of it. This is so for every path that is built with names without slashes.

## Main definitions

* `VersionedTree.Instant.Fits` — times of 64 bits.
* `VersionedTree.Node.ofText?` — the node of a text.

## Main results

* `VersionedTree.Node.ofText?_render` — what is read from the text of a node.
* `VersionedTree.Path.text_forms` — the paths that survive their texts.
* `VersionedTree.Path.text_forms_slash` — a path that does not.
-/

set_option autoImplicit false

namespace VersionedTree

/-! ## Fields -/

/-- Has the count of microseconds 64 bits, its sign included? -/
def Instant.Fits (t : Instant) : Prop :=
  -0x8000000000000000 ≤ t.micros ∧ t.micros < 0x8000000000000000

instance (t : Instant) : Decidable t.Fits := inferInstanceAs (Decidable (_ ∧ _))

/-- Identifiers are read back. -/
lemma Id.ofJson?_toJson {subject : Subject} (i : Id subject) : Id.ofJson? i.toJson = some i := by
  rw [Id.ofJson?, Id.toJson, Json.string?, Option.bind_some, Id.parse?_text]

/-- Kinds are read back. -/
lemma Kind.ofJson?_toJson (k : Kind) : Kind.ofJson? k.toJson = some k := by
  cases k <;> decide

/-- Times of 64 bits are read back. -/
lemma Instant.ofJson?_toJson {t : Instant} (h : t.Fits) : Instant.ofJson? t.toJson = some t := by
  have hmicros : -0x8000000000000000 ≤ t.micros ∧ t.micros < 0x8000000000000000 := h
  rw [Instant.ofJson?, Instant.toJson, Json.int64?, if_pos hmicros]
  rfl

/-! ## Nodes -/

namespace Node

variable {n : Node}

/-- The node of a text. -/
def ofText? (text : String) : Option Node := (Json.parse? text).bind ofJson?

/-- What is read from the value of a node. -/
lemma ofJson?_toJson (h : n.createdAt.Fits) :
    ofJson? n.toJson = (Path.parse n.path.display).toOption.map fun p => { n with path := p } := by
  have hfields : n.toJson.fields? ["object_id", "object_type", "path", "owner_id", "created_at"] =
      some [some n.id.toJson, some n.kind.toJson, some n.path.toJson, some n.owner.toJson,
        some n.createdAt.toJson] := by
    rw [toJson]
    rfl
  have hpath : Path.ofJson? n.path.toJson = (Path.parse n.path.display).toOption := rfl
  rw [ofJson?, hfields]
  simp only [Option.bind_eq_bind, Option.bind_some, Id.ofJson?_toJson, Kind.ofJson?_toJson,
    Instant.ofJson?_toJson h, hpath]
  cases (Path.parse n.path.display).toOption <;> rfl

/-- **The text of a node** is read as the node, but for its path, which is named by what is shown of
it. -/
theorem ofText?_render (h : n.createdAt.Fits) : ofText? n.toJson.render =
    (Path.parse n.path.display).toOption.map fun p => { n with path := p } := by
  have hexact : n.toJson.isExact = true := by
    have htime : n.createdAt.micros.natAbs ≤ Decimal.maxSignificand := by
      have hlow := h.1
      have hhigh := h.2
      unfold Decimal.maxSignificand
      omega
    simpa [toJson, Id.toJson, Kind.toJson, Path.toJson, Instant.toJson, Json.isExact,
      Json.areExactEntries] using htime
  rw [ofText?, Json.parse?_render hexact, Option.bind_some, ofJson?_toJson h]

/-- A node is read back from its text if its path is read back from what is shown of it. -/
lemma ofText?_eq_some_iff (h : n.createdAt.Fits) :
    ofText? n.toJson.render = some n ↔ Path.parse n.path.display = .ok n.path := by
  rw [ofText?_render h]
  cases hread : Path.parse n.path.display with
  | error e => simp [Except.toOption]
  | ok p =>
    simp only [Except.toOption, Option.map_some, Option.some.injEq, Except.ok.injEq]
    exact ⟨fun e => congrArg Node.path e, fun e => by rw [e]⟩

end Node

/-! ## Paths and their texts -/

namespace Path

variable {p : Path} {admitted : String → Prop}

/-- What is read from the text of a path. -/
lemma ofJson?_render (p : Path) :
    (Json.parse? p.toJson.render).bind ofJson? = (parse p.display).toOption := by
  rw [Json.parse?_render rfl]
  rfl

/-- **The paths that survive their texts.** Let a path be built from the root and from users' texts
by children with admitted names, parents and transfers. What is shown of the path names it if no
segment has a slash, and only then; the same is true of the text of the path as a value, and of the
text of a node with the path. If no admitted name has a slash, no segment has one.

**Proof sketch.** The labels of the path are those of segments that users write, or of admitted
names, so that there is no sign in them. Then the path is that of its segments, which are written
with slashes between them and found again if they have none themselves. -/
theorem text_forms (hp : p.Built admitted) :
    let separable := ∀ segment ∈ p.segments, '/' ∉ segment.toList
    (parse p.display = .ok p ↔ separable) ∧
    ((Json.parse? p.toJson.render).bind ofJson? = some p ↔ separable) ∧
    (∀ n : Node, n.path = p → n.createdAt.Fits →
      (Node.ofText? n.toJson.render = some n ↔ separable)) ∧
    ((∀ name, admitted name → '/' ∉ name.toList) → separable) := by
  intro separable
  have hshown : parse p.display = .ok p ↔ separable := by
    rw [hp.made.valid.parse_display_iff]
    exact and_iff_left hp.sign_not_mem
  refine ⟨hshown, ?_, ?_, hp.slash_not_mem⟩
  · rw [ofJson?_render, ← hshown]
    cases parse p.display <;> simp [Except.toOption]
  · rintro n rfl hn
    rw [Node.ofText?_eq_some_iff hn, hshown]

/-- A directory in a directory, with a blank in its name. -/
theorem text_forms_blank :
    let p : Path := ⟨"a.b~20c"⟩
    let n : Node := ⟨⟨.ofNat 1⟩, .dir, p, ⟨.ofNat 2⟩, ⟨-1⟩⟩
    parse p.display = .ok p ∧ Node.ofText? n.toJson.render = some n := by
  intro p n
  have hparent : parse "/a" = .ok ⟨"a"⟩ := by decide +kernel
  have hchild : child ⟨"a"⟩ "b c" = .ok p := by decide +kernel
  have hname : '/' ∉ "b c".toList := by decide +kernel
  have hbuilt : p.Built fun name => '/' ∉ name.toList := .child (.parse hparent) hname hchild
  obtain ⟨hshown, -, hnode, hslash⟩ := text_forms hbuilt
  have hsegments := hslash fun _ hname => hname
  exact ⟨hshown.2 hsegments, (hnode n rfl (by decide +kernel)).2 hsegments⟩

/-- A name with a slash is shown like two names. -/
theorem text_forms_slash :
    let p : Path := ⟨"a~2fb"⟩
    let n : Node := ⟨⟨.ofNat 1⟩, .dir, p, ⟨.ofNat 2⟩, ⟨-1⟩⟩
    root.child "a/b" = .ok p ∧ p.display = "/a/b" ∧ parse p.display = .ok ⟨"a.b"⟩ ∧
      parse p.display ≠ .ok p ∧ Node.ofText? n.toJson.render = some { n with path := ⟨"a.b"⟩ } := by
  intro p n
  have hshown : parse p.display = .ok ⟨"a.b"⟩ := by decide +kernel
  have hread : Node.ofText? n.toJson.render =
      (parse p.display).toOption.map fun q => { n with path := q } :=
    Node.ofText?_render (by decide +kernel)
  refine ⟨by decide +kernel, by decide +kernel, hshown, ?_, ?_⟩
  · rw [hshown]
    decide +kernel
  · rw [hread, hshown]
    rfl

end Path

end VersionedTree
