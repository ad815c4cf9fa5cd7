import VersionedTree.Path.Label
import VersionedTree.Text.Quoted

/-!
# Paths

A path names a place in an owner's tree. Its user writes the segments between slashes, as in
`/docs/report v2.pdf`; the tree stores the labels between dots, as in `docs.report~20v2~2epdf`.
The root has no segment: it is written `/` and stored as the empty text.

## Main definitions

* `VersionedTree.Path` — a place, by its stored text.
* `VersionedTree.Path.parse`, `VersionedTree.Path.display` — the user's form.
* `VersionedTree.Path.fromEncoded` — the stored form, checked.
* `VersionedTree.Path.parent`, `VersionedTree.Path.child`, `VersionedTree.Path.ancestors` — the
  neighbours of a place.
* `VersionedTree.Path.isAncestorOf`, `VersionedTree.Path.rebase` — subtrees and their transfer.
* `VersionedTree.PathError` — why a text is not a path.

## Design

The stored text is kept as it was accepted, so that equality and order of paths are equality and
order of stored texts. Labels are plain ASCII, hence the order by characters used here is also
the order by bytes.
-/

set_option autoImplicit false

namespace VersionedTree

/-- Why a text is not a path. -/
inductive PathError where
  /-- The user's form does not begin with a slash. -/
  | notAbsolute (text : String)
  /-- The user's form has two slashes with nothing between them. -/
  | emptySegment (text : String)
  /-- A label of the stored form is refused. -/
  | invalidLabel (label : String) (fault : Label.Fault)
deriving DecidableEq, Repr

/-- The wording of a path error. -/
def PathError.message : PathError → String
  | .notAbsolute text => "path must begin with '/': " ++ Text.quoted text
  | .emptySegment text => "path contains an empty segment: " ++ Text.quoted text
  | .invalidLabel label fault =>
    "invalid stored label " ++ Text.quoted label ++ ": " ++ fault.reason

/-- A place in an owner's tree. -/
structure Path where
  /-- The stored form: labels joined by dots. -/
  encoded : String
deriving DecidableEq, Repr, Inhabited

namespace Path

/-- The characters of the stored form. -/
def chars (p : Path) : List Char := p.encoded.toList

/-- The path with the given stored characters. -/
def ofChars (cs : List Char) : Path := ⟨String.ofList cs⟩

/-- The characters of a path that is made of them. -/
@[simp] theorem chars_ofChars (cs : List Char) : (ofChars cs).chars = cs := by
  simp [chars, ofChars]

/-- A path is made of its own characters. -/
@[simp] theorem ofChars_chars (p : Path) : ofChars p.chars = p := by
  simp [chars, ofChars]

/-- The top of every tree. -/
def root : Path := ⟨""⟩

/-- Is this the top of the tree? -/
def isRoot (p : Path) : Bool := p.chars.isEmpty

/-- The path made of the given labels. -/
def ofLabels (labels : List (List Char)) : Path := ofChars (['.'].intercalate labels)

/-- The labels, top first. -/
def labels (p : Path) : List (List Char) :=
  (p.chars.splitOn '.').filter fun label => !label.isEmpty

/-- The number of labels; zero for the root. -/
def depth (p : Path) : Nat := p.labels.length

/-- A user's text after its first slash, without one slash at its end. -/
def bodyOf (rest : List Char) : List Char :=
  if rest.getLast? = some '/' then rest.dropLast else rest

/-- The path that a user's text names. One slash at the end is allowed. -/
def parse (text : String) : Except PathError Path :=
  match text.toList with
  | '/' :: rest =>
    let body := bodyOf rest
    if body.isEmpty then .ok root
    else
      let segments := body.splitOn '/'
      if segments.any List.isEmpty then .error (.emptySegment text)
      else .ok (ofLabels (segments.map fun s => Label.encode (String.ofList s)))
  | _ => .error (.notAbsolute text)

/-- Checks the labels in turn; the first refused one is the error. -/
def checkLabels : List (List Char) → Except PathError Unit
  | [] => .ok ()
  | label :: rest =>
    match Label.decode label with
    | .ok _ => checkLabels rest
    | .error fault => .error (.invalidLabel (String.ofList label) fault)

/-- The path with the given stored form, if all its labels are labels. -/
def fromEncoded (encoded : String) : Except PathError Path :=
  if encoded.toList.isEmpty then .ok root
  else match checkLabels (encoded.toList.splitOn '.') with
    | .ok () => .ok ⟨encoded⟩
    | .error e => .error e

/-- A path is valid if its stored form is accepted. -/
def Valid (p : Path) : Prop := fromEncoded p.encoded = .ok p

/-- The segment of a label; a text that is no label stands for itself. -/
def segmentOf (label : List Char) : String :=
  match Label.decode label with
  | .ok segment => segment
  | .error _ => String.ofList label

/-- The segments, top first. -/
def segments (p : Path) : List String := p.labels.map segmentOf

/-- The user's form. -/
def display (p : Path) : String :=
  if p.isRoot then "/" else String.join (p.segments.map ("/" ++ ·))

/-- The last segment; none for the root. -/
def name (p : Path) : Option String := p.labels.getLast?.map segmentOf

/-- The characters before the last dot; none at all without a dot. -/
def beforeLastDot (cs : List Char) : List Char :=
  ((cs.reverse.dropWhile (· != '.')).drop 1).reverse

/-- The place that holds this one; none for the root. -/
def parent (p : Path) : Option Path :=
  if p.isRoot then none else some (ofChars (beforeLastDot p.chars))

/-- What is before the last dot is shorter, so that the way to the top ends. -/
theorem length_beforeLastDot_lt {cs : List Char} (h : cs ≠ []) :
    (beforeLastDot cs).length < cs.length := by
  have hpos : 0 < cs.length := List.length_pos_iff.2 h
  have hle := (List.dropWhile_suffix (fun c : Char => c != '.') (l := cs.reverse)).length_le
  simp only [beforeLastDot, List.length_reverse, List.length_drop] at *
  by_cases h0 : (cs.reverse.dropWhile (fun c => c != '.')).length = 0
  · omega
  · omega

/-- A parent has a shorter stored form. -/
theorem length_chars_parent_lt {p q : Path} (h : p.parent = some q) :
    q.chars.length < p.chars.length := by
  unfold parent at h
  split at h
  · simp at h
  · next hr =>
    simp only [Option.some.injEq] at h
    subst h
    rw [chars_ofChars]
    exact length_beforeLastDot_lt (by simpa [isRoot] using hr)

/-- The places above this one, nearest first, the root last. -/
def ancestors (p : Path) : List Path :=
  match _h : p.parent with
  | none => []
  | some q => q :: q.ancestors
termination_by p.chars.length
decreasing_by exact length_chars_parent_lt _h

/-- The path with one more label. -/
def join (p : Path) (label : List Char) : Path :=
  if p.isRoot then ofChars label else ofChars (p.chars ++ '.' :: label)

/-- The place of the given name inside this one. -/
def child (p : Path) (name : String) : Except PathError Path :=
  if name.toList.isEmpty then .error (.emptySegment name) else .ok (p.join (Label.encode name))

/-- Is `p` inside or at `a`? The stored text of `p` is that of `a`, or goes on from it with a
dot. -/
def isAncestorOf (a p : Path) : Bool :=
  a.isRoot || a == p ||
    match a.chars.isPrefixOf? p.chars with
    | some ('.' :: _) => true
    | _ => false

/-- The path with its part `source` exchanged for `target`; none if it is not inside
`source`. -/
def rebase (p source target : Path) : Option Path :=
  if source.isAncestorOf p then some ((p.labels.drop source.depth).foldl join target) else none

/-- Paths are compared by their stored texts. -/
def order (p q : Path) : Ordering := compare p.encoded q.encoded

/-- The ascending order of stored texts. -/
def le (p q : Path) : Bool := (order p q).isLE

end Path

end VersionedTree
