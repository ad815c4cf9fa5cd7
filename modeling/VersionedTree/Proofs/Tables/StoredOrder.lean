import VersionedTree.Proofs.Id.Spellings
import VersionedTree.Tables.Ledger
import VersionedTree.Tables.Versions

/-!
# The order of stored identifiers

Rows hold identifiers as texts, and statements sort these texts by their bytes. A text has two
digits for each byte of its identifier, with hyphens at fixed places, and so it comes where its
identifier does. Histories and the ledger, which are sorted by such texts in the end, are in the
order of identifiers.

## Main definitions

* `VersionedTree.Uuid.bytes` — the sixteen bytes of an identifier.
* `VersionedTree.Id.textBytes` — the bytes of the stored text.
* `VersionedTree.Version.storedOrder`, `VersionedTree.PendingDelete.storedOrder` — rows compared as
  they are stored.

## Main results

* `VersionedTree.Uuid.chars_eq_hyphenate` — the stored text is made of the digits of the bytes.
* `VersionedTree.Uuid.order_eq_bytes` — identifiers are compared by their bytes.
* `VersionedTree.Uuid.compare_chars` — and so are stored texts.
* `VersionedTree.Id.stored_order` — texts keep the order of identifiers.
-/

set_option autoImplicit false

namespace VersionedTree

namespace Uuid

/-! ## Bytes -/

/-- The bytes of an identifier, the most significant one first. -/
def bytes (u : Uuid) : List UInt8 := digits UInt8.ofNat 256 16 u.bits

/-- An identifier has sixteen bytes. -/
lemma length_bytes (u : Uuid) : u.bytes.length = 16 := length_digits 16 u.bits

/-- **The stored text** is made of the digits of the bytes. -/
theorem chars_eq_hyphenate (u : Uuid) : u.chars = hyphenate (Hex.ofBytes u.bytes) := by
  rw [bytes, Hex.ofBytes_digits, chars]

/-- **Identifiers are compared** by their bytes. -/
theorem order_eq_bytes (u v : Uuid) : u.order v = compare u.bytes v.bytes := by
  have hbits (w : Uuid) : (w.bits : Nat) % 256 ^ 16 = w.bits := Nat.mod_eq_of_lt w.bits.isLt
  rw [bytes, bytes, compare_digits (by decide) fun i hi j hj => Hex.compare_byte hi hj, hbits,
    hbits, order]

/-! ## Texts -/

/-- **Hyphens at fixed places** do not change the order. -/
lemma compare_hyphenate {ds es : List Char} (h : ds.length = es.length) :
    compare (hyphenate ds) (hyphenate es) = compare ds es := by
  -- one part of the digits before the others
  have hsplit (n k : Nat) : compare (ds.drop n) (es.drop n) =
      (compare ((ds.drop n).take k) ((es.drop n).take k)).then
        (compare (ds.drop (n + k)) (es.drop (n + k))) := by
    rw [← compare_append_of_length_eq (by simp [h]), ← List.drop_drop, ← List.drop_drop,
      List.take_append_drop, List.take_append_drop]
  have hyphen {l l' : List Char} (hl : l.length = l'.length) (r r' : List Char) :
      compare (l ++ '-' :: r) (l' ++ '-' :: r') = (compare l l').then (compare r r') := by
    rw [compare_insert hl, compare_append_of_length_eq hl]
  have hwhole := hsplit 0 8
  rw [List.drop_zero, List.drop_zero] at hwhole
  rw [hyphenate, hyphenate, hyphen (by simp [h]), hyphen (by simp [h]), hyphen (by simp [h]),
    hyphen (by simp [h]), hwhole, hsplit 8 4, hsplit 12 4, hsplit 16 4]

/-- **Stored texts are compared** like identifiers. -/
theorem compare_chars (u v : Uuid) : compare u.chars v.chars = u.order v := by
  rw [chars, chars, compare_hyphenate (by simp), Hex.compare_ofNat, bits_mod, bits_mod, order]

/-- The stored text is written in single bytes. -/
lemma byte_of_mem_chars {u : Uuid} {c : Char} (h : c ∈ u.chars) : c.utf8Size = 1 := by
  have hdigit : ∀ v < 16, (Hex.digit v).utf8Size = 1 := by decide
  rw [chars] at h
  rcases mem_of_mem_hyphenate h with rfl | h
  · decide
  · obtain ⟨v, hv, rfl⟩ := Hex.exists_of_mem_ofNat h
    exact hdigit v hv

end Uuid

namespace Id

variable {subject : Subject} {i j : Id subject}

/-- The bytes of the stored text. -/
def textBytes (i : Id subject) : List UInt8 := i.text.toUTF8.data.toList

/-- The bytes of stored texts are compared like identifiers. -/
lemma compare_textBytes (i j : Id subject) : compare i.textBytes j.textBytes = i.order j := by
  have hbytes (k : Id subject) : k.textBytes = k.uuid.chars.map Char.toUInt8 := by
    rw [textBytes, text, Uuid.text, bytes_ofList fun _ hc => Uuid.byte_of_mem_chars hc]
  rw [hbytes, hbytes, compare_map_toUInt8 (fun _ hc => Uuid.byte_of_mem_chars hc)
    fun _ hd => Uuid.byte_of_mem_chars hd, Uuid.compare_chars, order]

/-- A stored text belongs to one identifier. -/
lemma eq_of_text (h : i.text = j.text) : i = j := by
  have hread := parse?_text i
  rw [h, parse?_text j] at hread
  exact (Option.some.inj hread).symm

/-- An identifier is read from its spellings. -/
lemma parse?_eq_some_iff {text : String} :
    parse? text = some i ↔ i.uuid.Spelled text.toList := by
  rw [← Uuid.parse?_eq_some_iff, parse?, Option.map_eq_some_iff]
  constructor
  · rintro ⟨u, hu, rfl⟩
    exact hu
  · exact fun h => ⟨i.uuid, h, rfl⟩

end Id

/-! ## Rows -/

/-- Versions compared as they are stored: by times, then by the text of the blob. -/
def Version.storedOrder (a b : Version) : Ordering :=
  (a.linkedAt.order b.linkedAt).then
    ((a.uploadedAt.order b.uploadedAt).then (compare a.blob.textBytes b.blob.textBytes))

/-- Pending deletions compared as they are stored: by time, then by the texts of owner and blob. -/
def PendingDelete.storedOrder (a b : PendingDelete) : Ordering :=
  (a.queuedAt.order b.queuedAt).then
    ((compare a.owner.textBytes b.owner.textBytes).then (compare a.blob.textBytes b.blob.textBytes))

/-- Versions are ordered as they are stored. -/
lemma Version.storedOrder_eq (a b : Version) : a.storedOrder b = a.order b := by
  rw [storedOrder, Id.compare_textBytes, order]

/-- Pending deletions are ordered as they are stored. -/
lemma PendingDelete.storedOrder_eq (a b : PendingDelete) : a.storedOrder b = a.order b := by
  rw [storedOrder, Id.compare_textBytes, Id.compare_textBytes, order]

/-- **Texts keep the order of identifiers.** The stored text of an identifier is that of its sixteen
bytes, two lowercase digits for each, with hyphens at fixed places. Its bytes compare with those of
another text as the identifiers do, and only the same identifier has the same text. Every spelling
that is accepted is read as the identifier, and so is shown as the stored text, which is read as the
identifier again. So histories, their pages and the ledger are the same whether rows are sorted by
texts or by identifiers. -/
theorem Id.stored_order {subject : Subject} (a b : Id subject) (text : String) (t : Tables)
    (owner : OwnerId) (node : NodeId) (last : Version) (limit : Nat) :
    (a.uuid.bytes.length = 16 ∧ a.text = String.ofList (Uuid.hyphenate (Hex.ofBytes a.uuid.bytes)) ∧
      a.order b = compare a.uuid.bytes b.uuid.bytes) ∧
    (compare a.textBytes b.textBytes = a.order b ∧ (a.text = b.text ↔ a = b)) ∧
    ((Id.parse? text = some a ↔ a.uuid.Spelled text.toList) ∧
      (((Id.parse? text).map fun i : Id subject => i.text) = some a.text ↔
        a.uuid.Spelled text.toList) ∧
      Id.parse? a.text = some a) ∧
    t.newestVersions owner node limit =
      ((t.versionsOf owner node).mergeSort fun v w => (w.storedOrder v).isLE).take limit ∧
    t.versionsAfter owner last limit =
      (((t.versionsOf owner last.node).mergeSort fun v w => (w.storedOrder v).isLE).filter
        fun v => v.storedOrder last == .lt).take limit ∧
    t.pendingDeletes limit =
      (t.pending.mergeSort fun p q => (p.storedOrder q).isLE).take limit := by
  have hversion : Version.storedOrder = Version.order :=
    funext fun v => funext fun w => v.storedOrder_eq w
  have hpending : PendingDelete.storedOrder = PendingDelete.order :=
    funext fun p => funext fun q => p.storedOrder_eq q
  refine ⟨⟨a.uuid.length_bytes, ?_, a.uuid.order_eq_bytes b.uuid⟩, ⟨compare_textBytes a b, ?_⟩,
    ⟨parse?_eq_some_iff, ?_, parse?_text a⟩, ?_, ?_, ?_⟩
  · rw [Id.text, Uuid.text, Uuid.chars_eq_hyphenate]
  · exact ⟨eq_of_text, congrArg Id.text⟩
  · rw [← parse?_eq_some_iff, Option.map_eq_some_iff]
    constructor
    · rintro ⟨i, hi, e⟩
      rwa [← eq_of_text e]
    · exact fun h => ⟨a, h, rfl⟩
  · rw [hversion]
    rfl
  · rw [hversion]
    rfl
  · rw [hpending]
    rfl

end VersionedTree
