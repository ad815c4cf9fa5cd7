import VersionedTree.Proofs.Archive.Blobs
import VersionedTree.Proofs.Path.Siblings
import VersionedTree.Proofs.Tables.SortedPaths

/-!
# Listings of children

A row is shown only if it can be read back, which asks for a valid place, and one row that cannot
hides its neighbours. The places that operations are given are valid, and so are all places that
are made of them. Then every node is listed at the place above it.

## Main definitions

* `VersionedTree.Operation.target?` — the place that an operation is to fill.

## Main results

* `VersionedTree.Operation.inherited_run` — operations keep places valid, among other properties.
* `VersionedTree.Archive.of_mem_list` — what is listed is a node of the owner.
* `VersionedTree.Archive.list_container` — containers have listings.
* `VersionedTree.Archive.list_spec` — a listing shows the children, in the order of their labels.
* `VersionedTree.Archive.list_above` — every node is listed.
-/

set_option autoImplicit false

namespace VersionedTree

/-! ## Nodes after operations -/

namespace Archive

variable (env : Env) (owner : OwnerId) (t : Tables)

/-- What a move leaves depends on the kind that is claimed. A root stays where it is. -/
lemma moveStatement_eq (node : Node) (target : Path) :
    (moveStatement owner node target t).2 =
      match node.kind with
      | .file => (t.moveFile owner node target).2
      | .dir => (t.moveDirectory owner node target).2
      | .root => t := by
  unfold moveStatement
  cases node.kind with
  | file => exact Tables.requireMoved_tables _
  | dir => exact Tables.requireMoved_tables _
  | root => rfl

/-- What a copy inserts depends on the kind that is claimed. Of a root nothing is copied. -/
lemma copyNodes_eq (node : Node) (target : Path) :
    (copyNodes env owner node target t).2 =
      match node.kind with
      | .file => (t.copyFile (env.nodeId 0) (env.now 0) owner node target).2
      | .dir => (t.copyDirectory env.nodeId (env.now 0) owner node target).2
      | .root => t := by
  unfold copyNodes
  cases node.kind with
  | file =>
    simp only
    split <;> next e => rw [e]
  | dir => rfl
  | root => rfl

/-- The links of copies leave the nodes alone. -/
lemma nodes_copyStatements (node : Node) (target : Path) (onlyNewest : Bool) :
    (copyStatements env owner node target onlyNewest t).2.nodes =
      (copyNodes env owner node target t).2.nodes := by
  unfold copyStatements
  split
  · next e => rw [e]
  · next e => rw [e]
  · next copies t₁ _ e =>
    have hframe := Tables.linkCopies_frame env owner onlyNewest 1
      (copies.filter fun c => c.kind == .file) t₁
    rw [e]
    split <;> next e' =>
      rw [e'] at hframe
      rw [hframe]

/-- The nodes that are left stay when links are removed. -/
lemma nodes_unlinkNodes (ids : List NodeId) : (unlinkNodes owner ids t).2.nodes = t.nodes := by
  induction ids generalizing t with
  | nil => rfl
  | cons id rest ih => exact ih (t.unlinkAll owner id).2

/-- The release of payloads changes the ledger only. -/
lemma releaseAll_frame (entries : List (OwnerId × List BlobId)) (a : Archive) :
    (releaseAll env entries a).2.tables =
      { a.tables with pending := (releaseAll env entries a).2.tables.pending } := by
  induction entries generalizing a with
  | nil => rfl
  | cons entry rest ih => exact ih (release env entry.1 entry.2 a).2

end Archive

namespace Operation

/-- The statement on nodes that an operation runs. -/
def onNodes? : Operation → Option Statement
  | createRoot => some (.createNode .root .root)
  | createDirectory path => some (.createNode path .dir)
  | createFile path _ _ => some (.createNode path .file)
  | move node target =>
    match node.kind with
    | .file => some (.moveFile node target)
    | .dir => some (.moveDirectory node target)
    | .root => none
  | copy node target _ =>
    match node.kind with
    | .file => some (.copyFile node target)
    | .dir => some (.copyDirectory node target)
    | .root => none
  | remove node recursive => some (if recursive then .removeSubtree node else .removeLeaf node)
  | _ => none

/-- The place that an operation is to fill. -/
def target? : Operation → Option Path
  | createDirectory path | createFile path _ _ => some path
  | move _ target | copy _ target _ => some target
  | _ => none

variable {env : Env} {owner : OwnerId} {a : Archive}

/-- **An operation changes nodes by one statement**, or not at all. -/
theorem nodes_run (env : Env) (owner : OwnerId) (op : Operation) (a : Archive) :
    (op.run env owner a).2.tables.nodes = a.tables.nodes ∨
      ∃ s ∈ op.onNodes?, (op.run env owner a).2.tables.nodes =
        (s.run env.toFresh owner a.tables).2.nodes := by
  have htransact {α : Type} (body : Tables → Except ArchiveError α × Tables) :
      (a.withTables (a.tables.transact body)).2.tables.nodes = a.tables.nodes ∨
        (a.withTables (a.tables.transact body)).2.tables.nodes = (body a.tables).2.nodes := by
    rcases a.withTables_transact_cases body with ⟨e, hr⟩ | ⟨x, t', hbody, -, hr⟩ <;> rw [hr]
    · exact .inl rfl
    · rw [hbody]
      exact .inr rfl
  cases op with
  | createRoot =>
    exact (htransact _).imp_right fun h => ⟨.createNode .root .root, rfl, h⟩
  | createDirectory path =>
    exact (htransact _).imp_right fun h => ⟨.createNode path .dir, rfl, h⟩
  | createFile path info stream =>
    change (a.createFile env owner path info stream).2.tables.nodes = a.tables.nodes ∨ _
    obtain ⟨p, -, ⟨e, hr⟩ | ⟨bytes, file, t', -, -, -, hrec, -, hr⟩⟩ :=
      a.createFile_cases env owner path info stream
    · exact .inl (by rw [hr])
    · obtain ⟨t₁, hn, hv⟩ := Archive.recordFile_steps hrec
      have hkept : (t₁.addVersion (env.now 1) (env.now 2) owner file.node.id env.blobId
          info).2.nodes = t₁.nodes := by
        rw [Tables.addVersion_frame]
      rw [hv] at hkept
      refine .inr ⟨.createNode path .file, rfl, ?_⟩
      change (a.createFile env owner path info stream).2.tables.nodes = _
      simp only [Statement.run, Statement.answer, hr, hn]
      exact hkept
  | addVersion node info stream =>
    left
    have hnodes : (a.tables.addVersion (env.now 0) (env.now 1) owner node.id env.blobId
        info).2.nodes = a.tables.nodes := by
      rw [Tables.addVersion_frame]
    change (a.addVersion env owner node info stream).2.tables.nodes = a.tables.nodes
    obtain ⟨p, -, ⟨e, hr⟩ | ⟨bytes, v, t', -, -, -, hversion, -, hr⟩⟩ :=
      a.addVersion_cases env owner node info stream <;> rw [hr]
    rwa [hversion] at hnodes
  | move node target =>
    rcases htransact (Archive.moveStatement owner node target) with h | h
    · exact .inl h
    · rw [Archive.moveStatement_eq] at h
      simp only [onNodes?]
      cases hk : node.kind with
      | file =>
        simp only [hk] at h
        exact .inr ⟨.moveFile node target, rfl, h⟩
      | dir =>
        simp only [hk] at h
        exact .inr ⟨.moveDirectory node target, rfl, h⟩
      | root =>
        simp only [hk] at h
        exact .inl h
  | copy node target onlyNewest =>
    rcases htransact (Archive.copyStatements env owner node target onlyNewest) with h | h
    · exact .inl h
    · rw [Archive.nodes_copyStatements, Archive.copyNodes_eq] at h
      simp only [onNodes?]
      cases hk : node.kind with
      | file =>
        simp only [hk] at h
        exact .inr ⟨.copyFile node target, rfl, h⟩
      | dir =>
        simp only [hk] at h
        exact .inr ⟨.copyDirectory node target, rfl, h⟩
      | root =>
        simp only [hk] at h
        exact .inl h
  | remove node recursive =>
    change (a.remove env owner node recursive).2.tables.nodes = a.tables.nodes ∨
      ∃ s ∈ _, (a.remove env owner node recursive).2.tables.nodes = _
    rcases a.remove_cases env owner node recursive with
      ⟨e, hr⟩ | ⟨removed, orphaned, t', hrec, -, hr⟩ <;> rw [hr]
    · exact .inl rfl
    · obtain ⟨t₁, hn, -, rfl⟩ := Archive.removeStatements_steps hrec
      refine .inr ⟨_, rfl, ?_⟩
      change (Tables.queueDeletes _ _ _ _).nodes = _
      rw [Tables.queueDeletes_frame]
      refine (Archive.nodes_unlinkNodes owner t₁ removed).trans ?_
      have hremoved := congrArg (fun r => r.2.nodes) hn
      rw [← hremoved]
      cases recursive <;> rfl
  | removeVersion node blob =>
    left
    change (a.removeVersion env owner node blob).2.tables.nodes = a.tables.nodes
    rcases a.removeVersion_cases env owner node blob with
      ⟨e, hr⟩ | ⟨orphaned, t', hrec, -, hr⟩ <;> rw [hr]
    obtain ⟨-, hdrop, -, rfl⟩ := Archive.removeVersionStatements_steps hrec
    change (Tables.queueDeletes _ _ _ _).nodes = a.tables.nodes
    rw [Tables.queueDeletes_frame, hdrop]
    rfl
  | sweep limit =>
    left
    change (Archive.releaseAll env _ a).2.tables.nodes = a.tables.nodes
    rw [Archive.releaseAll_frame]
  | _ => exact .inl rfl

/-- The statement fills the place of the operation, or the top. -/
lemma inherited_target {P : Path → Prop} (hP : Path.Inherited P) {op : Operation}
    (ht : ∀ p ∈ op.target?, P p) {s : Statement} (hs : s ∈ op.onNodes?) :
    ∀ p ∈ s.target?, P p := by
  cases op with
  | createRoot =>
    obtain rfl := Option.some.inj hs
    intro p hp
    obtain rfl := Option.some.inj hp
    exact hP.root
  | createDirectory path =>
    obtain rfl := Option.some.inj hs
    exact ht
  | createFile path info stream =>
    obtain rfl := Option.some.inj hs
    exact ht
  | move node target =>
    simp only [onNodes?] at hs
    split at hs
    · obtain rfl := Option.some.inj hs
      exact ht
    · obtain rfl := Option.some.inj hs
      exact ht
    · cases hs
  | copy node target onlyNewest =>
    simp only [onNodes?] at hs
    split at hs
    · obtain rfl := Option.some.inj hs
      exact ht
    · obtain rfl := Option.some.inj hs
      exact ht
    · cases hs
  | remove node recursive =>
    obtain rfl := Option.some.inj hs
    intro p hp
    cases recursive <;> cases hp
  | _ => cases hs

/-- **Operations keep inherited properties** of places if the one that is to be filled has them. -/
theorem inherited_run {P : Path → Prop} (hP : Path.Inherited P) (h : a.tables.IsForest)
    (hv : ∀ n ∈ a.tables.nodes, P n.path) {op : Operation} (ht : ∀ p ∈ op.target?, P p) :
    ∀ n ∈ (op.run env owner a).2.tables.nodes, P n.path := by
  rcases op.nodes_run env owner a with hn | ⟨s, hs, hn⟩ <;> rw [hn]
  · exact hv
  · exact Statement.inherited_run hP h hv (inherited_target hP ht hs) env.toFresh owner

end Operation

namespace Archive

/-- **Every history** leaves inherited properties to its nodes if the places to be filled have
them. -/
theorem inherited_after {P : Path → Prop} (hP : Path.Inherited P) (history : List Step)
    (ht : ∀ s ∈ history, ∀ p ∈ s.operation.target?, P p) :
    ∀ n ∈ (Archive.empty.after history).tables.nodes, P n.path := by
  suffices h : ∀ a : Archive, a.tables.IsForest → (∀ n ∈ a.tables.nodes, P n.path) →
      ∀ n ∈ (a.after history).tables.nodes, P n.path from
    h _ .empty (by simp [Archive.empty, Tables.empty])
  induction history with
  | nil => exact fun _ _ hv => hv
  | cons s rest ih =>
    rw [List.forall_mem_cons] at ht
    intro a h hv
    refine ih ht.2 _ ?_ (Operation.inherited_run hP h hv ht.1)
    exact (s.operation.runsTo s.env s.owner a).invariant
      (fun fresh owner s t _ ht => ht.run fresh owner s) h

/-- **Every history** leaves its nodes at valid places if those to be filled are valid. -/
theorem valid_after (history : List Step)
    (ht : ∀ s ∈ history, ∀ p ∈ s.operation.target?, p.Valid) :
    ∀ n ∈ (Archive.empty.after history).tables.nodes, n.path.Valid :=
  inherited_after Path.inherited_valid history ht

end Archive

/-! ## Listings -/

/-- The only element that satisfies `p` is found. -/
lemma find?_eq_some_of_unique {α : Type} {l : List α} {p : α → Bool} {x : α} (hx : x ∈ l)
    (hp : p x = true) (hu : ∀ y ∈ l, p y = true → y = x) : l.find? p = some x := by
  cases h : l.find? p with
  | none => exact absurd hp (List.find?_eq_none.1 h x hx)
  | some y => rw [hu y (List.mem_of_find?_eq_some h) (List.find?_some h)]

namespace Tables

variable {t : Tables} {owner : OwnerId} {n : Node}

/-- The children of a node belong to its owner. -/
lemma of_mem_children {id : NodeId} {ns : List Node} (h : t.children owner id = .ok ns)
    (hn : n ∈ ns) : n ∈ t.nodes ∧ n.owner = owner := by
  unfold children at h
  split at h
  · obtain rfl := Except.ok.inj h
    cases hn
  · obtain ⟨rfl, -⟩ := Node.of_readBackAll h
    rw [mem_sortedByPath, List.mem_filter, mem_subtree] at hn
    exact ⟨hn.1.1, hn.1.2.1⟩

/-- The children of a container, if all places are valid. -/
lemma children_of_valid (h : t.Keyed) (hv : ∀ n ∈ t.nodes, n.path.Valid) (hn : n ∈ t.nodes)
    (hc : n.kind.isContainer = true) :
    t.children n.owner n.id = .ok (sortedByPath ((t.subtree n.owner n.path).filter fun m =>
      m.id != n.id && n.path.isDirectlyBelow m.path)) := by
  have hfind : (t.nodes.find? fun m =>
      m.id == n.id && m.owner == n.owner && m.kind.isContainer) = some n := by
    refine find?_eq_some_of_unique hn (by simp [hc]) ?_
    intro m hm hp
    simp only [Bool.and_eq_true, beq_iff_eq] at hp
    exact h.nodes.eq_of_id hm hn hp.1.1
  unfold children
  rw [hfind]
  refine Node.readBackAll_of_valid ?_
  intro m hm
  rw [mem_sortedByPath, List.mem_filter, mem_subtree] at hm
  exact hv m hm.1.1

/-- **The children of a container** are the owner's nodes with this parent, in the order of their
places. -/
theorem IsForest.children_spec (h : t.IsForest) (hv : ∀ n ∈ t.nodes, n.path.Valid)
    (hn : n ∈ t.nodes) (hc : n.kind.isContainer = true) :
    ∃ ns, t.children n.owner n.id = .ok ns ∧
      ns.Pairwise (fun m m' => m.path.order m'.path = .lt) ∧
      ∀ m, m ∈ ns ↔ m ∈ t.nodes ∧ m.owner = n.owner ∧ m.path.parent = some n.path := by
  refine ⟨_, children_of_valid h.keyed hv hn hc, ?_, ?_⟩
  · have hnodup := h.keyed.nodup_subtree n.owner n.path
    refine pairwise_lt_mergeSort (List.Pairwise.imp_of_mem ?_ (hnodup.filter _))
    intro m m' hm hm' hne heq
    obtain ⟨hm, ho, -⟩ := mem_subtree.1 (List.mem_of_mem_filter hm)
    obtain ⟨hm', ho', -⟩ := mem_subtree.1 (List.mem_of_mem_filter hm')
    have hpath : m.path = m'.path := Path.eq_of_order heq
    exact hne (h.keyed.nodes.places m hm m' hm' (ho.trans ho'.symm) hpath)
  · intro m
    rw [mem_sortedByPath, List.mem_filter, mem_subtree, Bool.and_eq_true, bne_iff_ne]
    constructor
    · rintro ⟨⟨hm, ho, hcovers⟩, hid, hbelow⟩
      refine ⟨hm, ho, (Path.parent_eq_some_iff (hv m hm)).2 ⟨hcovers, ?_, hbelow⟩⟩
      intro e
      exact hid (congrArg Node.id (h.keyed.nodes.places m hm n hn ho e.symm))
    · rintro ⟨hm, ho, hparent⟩
      obtain ⟨hcovers, hne, hbelow⟩ := (Path.parent_eq_some_iff (hv m hm)).1 hparent
      refine ⟨⟨hm, ho, hcovers⟩, fun e => hne ?_, hbelow⟩
      exact congrArg Node.path (h.keyed.nodes.eq_of_id hn hm e.symm)

/-- A node is found at its place. -/
lemma nodeAt?_of_valid (h : t.Keyed) (hn : n ∈ t.nodes) (hv : n.path.Valid) :
    t.nodeAt? n.owner n.path = .ok (some n) := by
  have hfind : (t.nodes.find? fun m => m.owner == n.owner && m.path == n.path) = some n := by
    refine find?_eq_some_of_unique hn (by simp) ?_
    intro m hm hp
    simp only [Bool.and_eq_true, beq_iff_eq] at hp
    exact h.nodes.places m hm n hn hp.1 hp.2
  rw [nodeAt?, hfind, readBack?, Node.readBack_of_valid hv]
  rfl

end Tables

namespace Archive

variable {a : Archive} {owner : OwnerId}

/-- A node is resolved at its place. -/
lemma resolve_of_mem (h : a.tables.Keyed) {n : Node} (hn : n ∈ a.tables.nodes)
    (hv : n.path.Valid) : a.resolve n.owner n.path = .ok n := by
  rw [resolve, Tables.nodeAt?_of_valid h hn hv, required]

/-- What is resolved is a node of the owner at the place. -/
lemma of_resolve {path : Path} {n : Node} (h : a.resolve owner path = .ok n) :
    n ∈ a.tables.nodes ∧ n.owner = owner ∧ n.path = path := by
  unfold resolve Tables.nodeAt? at h
  cases hfind : a.tables.nodes.find? fun m => m.owner == owner && m.path == path with
  | none =>
    rw [hfind] at h
    cases h
  | some m =>
    have hplace := List.find?_some hfind
    rw [Bool.and_eq_true, beq_iff_eq, beq_iff_eq] at hplace
    rw [hfind, Tables.readBack?] at h
    cases hread : m.readBack with
    | error e =>
      rw [hread] at h
      cases h
    | ok m' =>
      rw [hread] at h
      obtain ⟨rfl, -⟩ := Node.of_readBack hread
      obtain rfl : m' = n := Except.ok.inj h
      exact ⟨List.mem_of_find?_eq_some hfind, hplace⟩

/-- An entry is about the child that it lists. -/
lemma entry_node (owner : OwnerId) (a : Archive) (child : Node) :
    (a.entry owner child).node = child := by
  unfold entry
  split <;> rfl

/-- **What is listed** is a node of the owner with its newest version. -/
theorem of_mem_list {path : Path} {entries : List Entry} (h : a.list owner path = .ok entries)
    {e : Entry} (he : e ∈ entries) :
    ∃ n ∈ a.tables.nodes, n.owner = owner ∧ a.entry owner n = e := by
  unfold list at h
  split at h
  · cases h
  · next top _ =>
    split at h
    · cases hc : a.tables.children owner top.id with
      | error e => simp [hc, Except.map] at h
      | ok children =>
        rw [hc] at h
        obtain rfl := Except.ok.inj h
        obtain ⟨n, hn, rfl⟩ := List.mem_map.1 he
        obtain ⟨hmem, ho⟩ := Tables.of_mem_children hc hn
        exact ⟨n, hmem, ho, rfl⟩
    · cases h

/-- **Every container has a listing**, which shows its children. -/
theorem list_container (h : a.tables.IsForest) (hv : ∀ n ∈ a.tables.nodes, n.path.Valid)
    {n : Node} (hn : n ∈ a.tables.nodes) (hc : n.kind.isContainer = true) :
    ∃ ns : List Node, a.list n.owner n.path = .ok (ns.map (a.entry n.owner)) ∧
      ns.Pairwise (fun m m' => m.path.order m'.path = .lt) ∧
      ∀ m, m ∈ ns ↔ m ∈ a.tables.nodes ∧ m.owner = n.owner ∧ m.path.parent = some n.path := by
  obtain ⟨ns, hchildren, hspec⟩ := h.children_spec hv hn hc
  refine ⟨ns, ?_, hspec⟩
  unfold list
  rw [resolve_of_mem h.keyed hn (hv n hn)]
  simp only [hc, if_true, hchildren, Except.map]

/-- A listing is known from the children in the order of their places. -/
lemma list_of_perm (h : a.tables.IsForest) (hv : ∀ n ∈ a.tables.nodes, n.path.Valid)
    (n : Node) (ns : List Node) (hn : n ∈ a.tables.nodes) (hc : n.kind.isContainer = true)
    (hs : ns.Pairwise fun m m' => m.path.order m'.path = .lt)
    (hp : (a.tables.nodes.filter fun m =>
      m.owner == n.owner && m.path.parent == some n.path).Perm ns) :
    a.list n.owner n.path = .ok (ns.map (a.entry n.owner)) := by
  obtain ⟨ns', hlist, hs', hmem⟩ := list_container h hv hn hc
  rw [hlist, hs'.eq_of_mem_iff hs fun m => ?_]
  rw [hmem, ← hp.mem_iff, List.mem_filter, Bool.and_eq_true, beq_iff_eq, beq_iff_eq]

/-- What has a listing is a container. -/
lemma of_list {path : Path} {entries : List Entry} (h : a.list owner path = .ok entries) :
    ∃ n ∈ a.tables.nodes, n.owner = owner ∧ n.path = path ∧ n.kind.isContainer = true := by
  unfold list at h
  split at h
  · cases h
  · next top hresolve =>
    obtain ⟨htop, hplace⟩ := of_resolve hresolve
    split at h
    · next hc => exact ⟨top, htop, hplace.1, hplace.2, hc⟩
    · cases h

/-- **What a listing shows**: the owner's nodes with this parent, in the order of the bytes of their
last labels. -/
theorem list_spec (h : a.tables.IsForest) (hv : ∀ n ∈ a.tables.nodes, n.path.Valid) {q : Path}
    {entries : List Entry} (hlist : a.list owner q = .ok entries) :
    (∀ n, n ∈ entries.map Entry.node ↔
      n ∈ a.tables.nodes ∧ n.owner = owner ∧ n.path.parent = some q) ∧
    entries.Pairwise fun e e' => e.node.path.lastLabelBytes < e'.node.path.lastLabelBytes := by
  obtain ⟨top, htop, rfl, rfl, hc⟩ := of_list hlist
  obtain ⟨ns, hshown, hsorted, hmem⟩ := list_container h hv htop hc
  obtain rfl : ns.map (a.entry top.owner) = entries :=
    Except.ok.inj (hshown.symm.trans hlist)
  refine ⟨?_, ?_⟩
  · simpa [Function.comp_def, entry_node] using hmem
  · rw [List.pairwise_map]
    refine hsorted.imp_of_mem ?_
    intro m m' hm hm' hlt
    obtain ⟨hmt, -, hparent⟩ := (hmem m).1 hm
    obtain ⟨hmt', -, hparent'⟩ := (hmem m').1 hm'
    rw [entry_node, entry_node]
    exact (Path.order_eq_lt_iff (hv m hmt) (hv m' hmt') hparent hparent').1 hlt

/-- **Every node** is listed at the place above it, if all places are valid. -/
theorem list_above (h : a.tables.IsForest) (hv : ∀ n ∈ a.tables.nodes, n.path.Valid) {n : Node}
    (hn : n ∈ a.tables.nodes) (hk : n.kind ≠ .root) :
    ∃ q entries, n.path.parent = some q ∧ a.list n.owner q = .ok entries ∧
      ∃ e ∈ entries, e.node = n := by
  obtain ⟨q, hq⟩ := Path.exists_parent (h.path_ne_root hn hk)
  obtain ⟨m, hm, ho, rfl, hc⟩ := h.attached n hn q hq
  obtain ⟨ns, hlist, -, hmem⟩ := list_container h hv hm hc
  rw [ho] at hlist hmem
  exact ⟨m.path, _, hq, hlist, a.entry n.owner n,
    List.mem_map_of_mem ((hmem n).2 ⟨hn, rfl, hq⟩), entry_node n.owner a n⟩

end Archive

end VersionedTree
