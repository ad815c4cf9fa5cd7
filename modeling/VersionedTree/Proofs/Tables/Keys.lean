import VersionedTree.Proofs.Tables.Rows

/-!
# Keys

No two nodes share an identifier or a place of one owner, no two blobs an identifier, and no two
links a node and a blob. Every statement keeps this, whatever it is asked for.

## Main definitions

* `VersionedTree.Node.Keyed` — the keys of nodes.
* `VersionedTree.Tables.Keyed` — the keys of nodes, blobs and links.

## Main results

* `VersionedTree.Node.Keyed.relocate` — nodes that are relocated one after the other keep their
  keys.
* `VersionedTree.Tables.Keyed.run` — every statement keeps all keys.
-/

set_option autoImplicit false

namespace VersionedTree

/-- The key of a link. -/
def Link.key (l : Link) : NodeId × BlobId := (l.node, l.blob)

/-! ## Keys of nodes -/

namespace Node

/-- No two nodes share an identifier, or an owner and a place. -/
structure Keyed (nodes : List Node) : Prop where
  ids : (nodes.map Node.id).Nodup
  places : ∀ m ∈ nodes, ∀ n ∈ nodes, m.owner = n.owner → m.path = n.path → m = n

namespace Keyed

variable {nodes nodes' : List Node}

/-- An identifier belongs to one node. -/
lemma eq_of_id (h : Keyed nodes) {m n : Node} (hm : m ∈ nodes) (hn : n ∈ nodes)
    (e : m.id = n.id) : m = n :=
  List.inj_on_of_nodup_map h.ids hm hn e

/-- An empty list of nodes is keyed. -/
lemma nil : Keyed [] := ⟨List.nodup_nil, fun _ hm => absurd hm (by simp)⟩

/-- Nodes may leave. -/
lemma sublist (h : Keyed nodes) (hs : nodes'.Sublist nodes) : Keyed nodes' :=
  ⟨h.ids.sublist (hs.map _), fun m hm n hn => h.places m (hs.subset hm) n (hs.subset hn)⟩

/-- A node that clashes with no other one may be added. -/
lemma cons {t : Tables} {n : Node} (h : Keyed t.nodes) (hc : t.clashes n = false) :
    Keyed (n :: t.nodes) := by
  simp only [Tables.clashes, List.any_eq_false, Bool.or_eq_true, beq_iff_eq, Bool.and_eq_true,
    not_or, not_and] at hc
  refine ⟨?_, ?_⟩
  · rw [List.map_cons, List.nodup_cons]
    refine ⟨fun hmem => ?_, h.ids⟩
    obtain ⟨m, hm, e⟩ := List.mem_map.1 hmem
    exact (hc m hm).1 e
  · intro a ha b hb ho hp
    rcases List.mem_cons.1 ha with ea | ha <;> rcases List.mem_cons.1 hb with eb | hb
    · rw [ea, eb]
    · exact absurd (ea ▸ hp).symm ((hc b hb).2 (ea ▸ ho).symm)
    · exact absurd (eb ▸ hp) ((hc a ha).2 (eb ▸ ho))
    · exact h.places a ha b hb ho hp

/-- Nodes that were inserted one after the other share no key with each other or with those before.
-/
lemma insertNodes {t t' : Tables} {rows : List Node} (h : Keyed t.nodes)
    (hi : t.insertNodes rows = .ok t') : Keyed t'.nodes := by
  induction rows generalizing t with
  | nil =>
    simp only [Tables.insertNodes, Except.ok.injEq] at hi
    exact hi ▸ h
  | cons n rest ih =>
    unfold Tables.insertNodes at hi
    split at hi
    · next t₁ h₁ =>
      obtain ⟨-, hc, rfl⟩ := Tables.insertNode_eq_ok.1 h₁
      exact ih (h.cons hc) hi
    · cases hi

end Keyed

end Node

namespace Tables

variable {nodes nodes' : List Node}

/-! ## Places one after the other -/

/-- A new place leaves the identifiers as they are. -/
@[simp] lemma map_id_place (id : NodeId) (path : Path) :
    (place nodes id path).map Node.id = nodes.map Node.id := by
  simp only [place, List.map_map]
  refine List.map_congr_left fun n _ => ?_
  simp only [Function.comp_apply]
  split <;> rfl

/-- A node among those placed is an old one, at the new place if it has the identifier. -/
lemma mem_place {id : NodeId} {path : Path} {n : Node} :
    n ∈ place nodes id path ↔
      ∃ m ∈ nodes, n = if m.id = id then { m with path := path } else m := by
  simp only [place, List.mem_map, beq_iff_eq, eq_comm (b := n)]

end Tables

namespace Node.Keyed

variable {nodes nodes' : List Node} {owner : OwnerId}

/-- The owner's node of an identifier may get a place that the owner has free. -/
lemma place {id : NodeId} {path : Path} (h : Keyed nodes)
    (ho : ∀ n ∈ nodes, n.id = id → n.owner = owner)
    (hf : Tables.isTaken nodes owner id path = false) : Keyed (Tables.place nodes id path) := by
  simp only [Tables.isTaken, List.any_eq_false, Bool.and_eq_true, bne_iff_ne, beq_iff_eq, not_and]
    at hf
  refine ⟨by rw [Tables.map_id_place]; exact h.ids, ?_⟩
  intro a ha b hb hab hp
  obtain ⟨m, hm, rfl⟩ := Tables.mem_place.1 ha
  obtain ⟨n, hn, rfl⟩ := Tables.mem_place.1 hb
  by_cases em : m.id = id <;> by_cases en : n.id = id
  · rw [h.eq_of_id hm hn (em.trans en.symm)]
  · rw [if_pos em, if_neg en] at hab hp
    exact absurd hp.symm (hf n hn ⟨en, hab ▸ ho m hm em⟩)
  · rw [if_neg em, if_pos en] at hab hp
    exact absurd hp (hf m hm ⟨em, hab ▸ ho n hn en⟩)
  · rw [if_neg em, if_neg en] at hab hp ⊢
    exact h.places m hm n hn hab hp

/-- Nodes of one owner that get free places one after the other keep their keys. -/
lemma relocate {moves : List (NodeId × Path)} (h : Keyed nodes)
    (ho : ∀ move ∈ moves, ∀ n ∈ nodes, n.id = move.1 → n.owner = owner)
    (hr : Tables.relocate owner moves nodes = .ok nodes') : Keyed nodes' := by
  induction moves generalizing nodes with
  | nil =>
    simp only [Tables.relocate, Except.ok.injEq] at hr
    exact hr ▸ h
  | cons move rest ih =>
    obtain ⟨id, path⟩ := move
    unfold Tables.relocate at hr
    split at hr
    · cases hr
    · split at hr
      · cases hr
      · next hf =>
        have hid := ho (id, path) List.mem_cons_self
        refine ih (h.place hid (by simpa using hf)) (fun move hm n hn e => ?_) hr
        obtain ⟨m, hmem, rfl⟩ := Tables.mem_place.1 hn
        split at e <;> split <;> exact ho move (List.mem_cons_of_mem _ hm) m hmem e

end Node.Keyed

/-! ## Keys of all rows -/

namespace Tables

variable {t t' : Tables}

/-- No two rows of nodes, blobs or links share a key. -/
structure Keyed (t : Tables) : Prop where
  nodes : Node.Keyed t.nodes
  blobs : (t.blobs.map Blob.id).Nodup
  links : (t.links.map Link.key).Nodup

namespace Keyed

/-- Tables without rows are keyed. -/
lemma empty : Keyed .empty := ⟨.nil, List.nodup_nil, List.nodup_nil⟩

/-- Tables stay keyed with other nodes that are keyed. -/
lemma withNodes {nodes : List Node} (h : t.Keyed) (hn : Node.Keyed nodes) :
    Keyed { t with nodes := nodes } := ⟨hn, h.blobs, h.links⟩

/-- Tables stay keyed when a node is inserted. -/
lemma insertNode {n : Node} (h : t.Keyed) (hi : t.insertNode n = .ok t') : t'.Keyed := by
  obtain ⟨-, hc, rfl⟩ := insertNode_eq_ok.1 hi
  exact h.withNodes (h.nodes.cons hc)

/-- Tables stay keyed when nodes are inserted one after the other. -/
lemma insertNodes {rows : List Node} (h : t.Keyed) (hi : t.insertNodes rows = .ok t') :
    t'.Keyed := by
  have hk := h.nodes.insertNodes hi
  rw [eq_of_insertNodes hi] at hk ⊢
  exact h.withNodes hk

/-- A blob may be added if its identifier is new. -/
lemma consBlob {b : Blob} (h : t.Keyed) (hb : t.hasBlob b.id = false) :
    Keyed { t with blobs := b :: t.blobs } := by
  refine ⟨h.nodes, ?_, h.links⟩
  rw [List.map_cons, List.nodup_cons]
  refine ⟨fun hmem => ?_, h.blobs⟩
  obtain ⟨c, hc, e⟩ := List.mem_map.1 hmem
  exact absurd (hasBlob_iff.2 ⟨c, hc, e⟩) (by simp [hb])

/-- A link may be added if there is none between its node and its blob. -/
lemma consLink {l : Link} (h : t.Keyed) (hl : t.hasLink l.node l.blob = false) :
    Keyed { t with links := l :: t.links } := by
  refine ⟨h.nodes, h.blobs, ?_⟩
  rw [List.map_cons, List.nodup_cons]
  refine ⟨fun hmem => ?_, h.links⟩
  obtain ⟨k, hk, e⟩ := List.mem_map.1 hmem
  simp only [Link.key, Prod.mk.injEq] at e
  simp only [hasLink, List.any_eq_false, Bool.and_eq_true, beq_iff_eq, not_and] at hl
  exact hl k hk e.1 e.2

/-- Tables stay keyed when links are inserted one after the other. -/
lemma insertLinks {ls : List Link} (h : t.Keyed) (hi : t.insertLinks ls = .ok t') : t'.Keyed := by
  induction ls generalizing t with
  | nil =>
    simp only [Tables.insertLinks, Except.ok.injEq] at hi
    exact hi ▸ h
  | cons l rest ih =>
    unfold Tables.insertLinks at hi
    split at hi
    · next t₁ h₁ =>
      obtain ⟨hl, rfl⟩ := insertLink_eq_ok.1 h₁
      exact ih (h.consLink hl) hi
    · cases hi

/-- Tables stay keyed when links are removed, and blobs with them. -/
lemma dropLinks (h : t.Keyed) (p : Link → Bool) : (t.dropLinks p).Keyed :=
  ⟨h.nodes, h.blobs.sublist (List.filter_sublist.map _),
    h.links.sublist (List.filter_sublist.map _)⟩

/-- An identifier belongs to one blob. -/
lemma eq_of_blob (h : t.Keyed) {b c : Blob} (hb : b ∈ t.blobs) (hc : c ∈ t.blobs)
    (e : b.id = c.id) : b = c :=
  List.inj_on_of_nodup_map h.blobs hb hc e

/-! ## Rows found by their keys -/

/-- A stored node is found by its identifier, owner and kind. -/
lemma stored?_of_mem (h : t.Keyed) {n : Node} (hn : n ∈ t.nodes) :
    t.stored? n.owner n.id n.kind = some n := by
  cases hs : t.stored? n.owner n.id n.kind with
  | none =>
    have hnone := List.find?_eq_none.1 hs n hn
    simp at hnone
  | some m =>
    obtain ⟨hm, hid, -⟩ := mem_of_stored? hs
    rw [h.nodes.eq_of_id hm hn hid]

/-- A stored node that is no root is found by its identifier and owner. -/
lemma removable?_of_mem (h : t.Keyed) {n : Node} (hn : n ∈ t.nodes) (hk : n.kind ≠ .root) :
    t.removable? n.owner n.id = some n := by
  cases hs : t.removable? n.owner n.id with
  | none =>
    have hnone := List.find?_eq_none.1 hs n hn
    simp [hk] at hnone
  | some m =>
    obtain ⟨hm, hid, -⟩ := mem_of_removable? hs
    rw [h.nodes.eq_of_id hm hn hid]

/-! ## Statements keep the keys -/

section Statements

variable (owner : OwnerId) (time : Instant)

/-- A new node shares no key, or there is none. -/
lemma createNode (h : t.Keyed) (id : NodeId) (path : Path) (kind : Kind) :
    (t.createNode id time owner path kind).2.Keyed := by
  rcases createNode_cases owner time t id path kind with e | ⟨-, e⟩
  · rw [e]
    exact h
  · exact h.insertNode e

/-- A file that moves goes to a place that its owner has free. -/
lemma moveFile (h : t.Keyed) (node : Node) (target : Path) :
    (t.moveFile owner node target).2.Keyed := by
  rcases moveFile_cases owner node target t with e | ⟨hk, -, hf, -, e⟩
  · rw [e]
    exact h
  · rw [e]
    obtain ⟨m, hm, hid, ho, -⟩ := hasKind_iff.1 hk
    refine h.withNodes (h.nodes.place (fun n hn hn' => ?_) hf)
    rw [h.nodes.eq_of_id hn hm (hn'.trans hid.symm), ho]

/-- The nodes of a directory that moves go to free places one after the other. -/
lemma moveDirectory (h : t.Keyed) (node : Node) (target : Path) :
    (t.moveDirectory owner node target).2.Keyed := by
  rcases moveDirectory_cases owner node target t with e | ⟨source, nodes, -, -, -, -, hr, e⟩
  · rw [e]
    exact h
  · rw [e]
    refine h.withNodes (h.nodes.relocate (fun move hm n hn hid => ?_) hr)
    obtain ⟨m, hmem, rfl⟩ := List.mem_map.1 hm
    obtain ⟨hmt, ho, -⟩ := mem_subtree.1 hmem
    rw [h.nodes.eq_of_id hn hmt hid, ho]

/-- The copy of a file shares no key, or there is none. -/
lemma copyFile (h : t.Keyed) (id : NodeId) (node : Node) (target : Path) :
    (t.copyFile id time owner node target).2.Keyed := by
  rcases copyFile_cases owner time node target t id with e | ⟨-, -, e⟩
  · rw [e]
    exact h
  · exact h.insertNode e

/-- The copies of a directory share no keys, or there are none. -/
lemma copyDirectory (h : t.Keyed) (ids : Nat → NodeId) (node : Node) (target : Path) :
    (t.copyDirectory ids time owner node target).2.Keyed := by
  rcases copyDirectory_cases owner time node target t ids with e | ⟨_, -, -, -, -, -, e⟩
  · rw [e]
    exact h
  · exact h.insertNodes e

/-- The removal of one node keeps the keys of the others. -/
lemma removeLeaf (h : t.Keyed) (node : Node) : (t.removeLeaf owner node).2.Keyed := by
  rcases removeLeaf_cases owner node t with e | ⟨_, -, -, e⟩ <;> rw [e]
  · exact h
  · exact h.withNodes (h.nodes.sublist List.filter_sublist)

/-- The removal of a node with all that is below it keeps the keys of the others. -/
lemma removeSubtree (h : t.Keyed) (node : Node) : (t.removeSubtree owner node).2.Keyed := by
  rcases removeSubtree_cases owner node t with e | ⟨_, -, e⟩ <;> rw [e]
  · exact h
  · exact h.withNodes (h.nodes.sublist List.filter_sublist)

/-- A new link shares no key, or there is none. -/
lemma link (h : t.Keyed) (node : NodeId) (blob : BlobId) :
    (t.link time owner node blob).2.Keyed := by
  rcases link_cases owner time node blob t with e | ⟨-, -, hl, e⟩ <;> rw [e]
  · exact h
  · exact h.consLink hl

/-- A new blob and its link share no keys, or there are none. -/
lemma addVersion (h : t.Keyed) (uploaded : Instant) (node : NodeId) (blob : BlobId)
    (info : BlobInfo) : (t.addVersion uploaded time owner node blob info).2.Keyed := by
  rcases addVersion_cases owner time node blob t uploaded info with ⟨_, -, e⟩ | ⟨-, -, hb, e⟩
  · rw [e]
    exact h
  · rw [e]
    have hk := (h.consBlob (b := ⟨blob, info.checksum, info.size, owner, uploaded⟩) hb).link
      owner time node blob
    split <;> next hl => simpa only [hl] using hk

/-- Links to the newest version share no keys, or there are none. -/
lemma linkNewest (h : t.Keyed) (source target : NodeId) :
    (t.linkNewest time owner source target).2.Keyed := by
  rcases linkNewest_cases owner time source target t with e | ⟨-, e⟩
  · rw [e]
    exact h
  · exact h.insertLinks e

/-- Links to all versions share no keys, or there are none. -/
lemma linkAll (h : t.Keyed) (source target : NodeId) :
    (t.linkAll time owner source target).2.Keyed := by
  rcases linkAll_cases owner time source target t with e | ⟨-, e⟩
  · rw [e]
    exact h
  · exact h.insertLinks e

/-- The removal of a link keeps the keys of the others. -/
lemma unlink (h : t.Keyed) (node : NodeId) (blob : BlobId) :
    (t.unlink owner node blob).2.Keyed := by
  rcases unlink_cases owner node blob t with e | ⟨-, -, e⟩ <;> rw [e]
  · exact h
  · exact h.dropLinks _

/-- New entries of the ledger leave the keys as they are. -/
lemma queueDeletes (h : t.Keyed) (blobs : List BlobId) :
    (t.queueDeletes time owner blobs).Keyed := by
  rw [queueDeletes_frame]
  exact ⟨h.nodes, h.blobs, h.links⟩

end Statements

/-- Every statement keeps the keys. -/
theorem run (h : t.Keyed) (fresh : Fresh) (owner : OwnerId) (s : Statement) :
    (s.run fresh owner t).2.Keyed := by
  cases s with
  | createNode path kind => exact h.createNode owner _ _ path kind
  | moveFile node target => exact h.moveFile owner node target
  | moveDirectory node target => exact h.moveDirectory owner node target
  | copyFile node target => exact h.copyFile owner _ _ node target
  | copyDirectory node target => exact h.copyDirectory owner _ _ node target
  | removeLeaf node => exact h.removeLeaf owner node
  | removeSubtree node => exact h.removeSubtree owner node
  | addVersion node blob info => exact h.addVersion owner _ _ node _ info
  | link node blob => exact h.link owner _ node blob
  | unlink node blob => exact h.unlink owner node blob
  | unlinkAll node => exact h.dropLinks _
  | linkNewest source target => exact h.linkNewest owner _ source target
  | linkAll source target => exact h.linkAll owner _ source target
  | queueDeletes blobs => exact h.queueDeletes owner _ blobs
  | clearDeletes blobs => exact ⟨h.nodes, h.blobs, h.links⟩
  | _ => exact h

/-- Statements one after the other keep the keys. -/
lemma runAll (h : t.Keyed) (calls : List (Fresh × OwnerId × Statement)) :
    (Statement.runAll calls t).Keyed := by
  induction calls generalizing t with
  | nil => exact h
  | cons call rest ih => exact ih (h.run _ _ _)

end Keyed

end Tables

end VersionedTree
