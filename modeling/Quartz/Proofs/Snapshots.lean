import Quartz.Btree.Snapshot
import Quartz.Btree.TreeValidator
import Quartz.Proofs.NodeInvariants
import Quartz.Proofs.WrittenNodes

/-! A snapshot is read back as its pages have the nodes, in whatever order they were written. From pages
whose writer appended that is the tree it was taken of, unless an internal node was created and never
filled; from the blank pages that the writer leaves it is a tree without entries. -/

namespace Quartz.Btree
open Storage Serialization Format Pages Bytes Fallible

variable {ω ω' : Type}

theorem withData_id (page : IndexPage) : page.withData id = page := rfl

/-! ### Reading a tree -/

/-- From any place in front of the bytes the load turns one tree into the other and stops behind them. -/
def Loads {α : Type} (load : LoadM ω α) (bytes : List UInt8) (before : BTree ω) (value : α) (after : BTree ω) : Prop :=
  ∀ (view : List UInt8) (offset : Nat) (rest : List UInt8), view.drop offset = bytes ++ rest → offset ≤ view.length →
    view.length < sizeLimit → load.run (before, ⟨view, offset⟩) = (.ok value, (after, ⟨view, offset + bytes.length⟩))

section Loading

variable {α β : Type} {before middle after : BTree ω}

theorem loads_pure (value : α) (tree : BTree ω) : Loads (pure value) [] tree value tree := fun _ _ _ _ _ _ => rfl

theorem loads_store (change : BTree ω → BTree ω) (tree : BTree ω) :
    Loads (LoadM.store change) [] tree () (change tree) := fun _ _ _ _ _ _ => rfl

theorem loads_fetch {decoder : Decoder α} {bytes : List UInt8} {value : α} (decodes : Decodes decoder bytes value)
    (tree : BTree ω) : Loads (LoadM.fetch decoder) bytes tree value tree := by
  intro view offset rest here inside bounded
  simp only [Fallible.run, LoadM.fetch, decodes view offset rest here inside bounded]

theorem loads_bind {first : LoadM ω α} {next : α → LoadM ω β} {front back : List UInt8} {value : α} {result : β}
    (begins : Loads first front before value middle) (continues : Loads (next value) back middle result after) :
    Loads (first >>= next) (front ++ back) before result after := by
  intro view offset rest here inside bounded
  rw [List.append_assoc] at here
  have behind : view.drop (offset + front.length) = back ++ rest := by rw [← List.drop_drop, here, List.drop_left]
  have length := congrArg List.length here
  simp only [List.length_drop, List.length_append] at length
  rw [run_bind_ok (begins view offset _ here inside bounded), continues view _ rest behind (by omega) bounded,
    List.length_append, Nat.add_assoc]

theorem loads_change {change : BTree ω → BTree ω} {next : LoadM ω β} {bytes : List UInt8} {result : β}
    (continues : Loads next bytes (change before) result after) :
    Loads (do LoadM.store change; next) bytes before result after :=
  @loads_bind ω _ _ before (change before) after _ _ [] bytes _ _ (loads_store change before) continues

theorem loads_field {decoder : Decoder α} {bytes back : List UInt8} {value : α} (decodes : Decodes decoder bytes value)
    {change : α → BTree ω → BTree ω} {next : LoadM ω β} {result : β}
    (continues : Loads next back (change value before) result after) :
    Loads (do let found ← LoadM.fetch decoder; LoadM.store (change found); next) (bytes ++ back) before result after :=
  loads_bind (loads_fetch decodes before) (loads_change continues)

end Loading

/-! ### Maps filled one entry after the other -/

/-- Entries with new keys all stay. -/
theorem emplace_all {β γ : Type} (name : γ → PageId) (copy : γ → β) {items : List γ}
    {entries : AList fun _ : PageId => β} (distinct : (items.map name).Nodup)
    (fresh : ∀ item ∈ items, name item ∉ entries) :
    (items.foldl (fun entries item => emplace entries (name item) (copy item)) entries).entries.Perm
      (entries.entries ++ items.map fun item => ⟨name item, copy item⟩) := by
  induction items generalizing entries with
  | nil => simp
  | cons item rest ih =>
    obtain ⟨apart, distinct⟩ := List.nodup_cons.mp distinct
    have added : emplace entries (name item) (copy item) = entries.insert (name item) (copy item) :=
      if_neg (fresh item List.mem_cons_self)
    rw [List.foldl_cons, added]
    refine (ih distinct fun other member inside => ?_).trans ?_
    · rcases (AList.mem_insert _).mp inside with same | inside
      · exact apart (same ▸ List.mem_map_of_mem member)
      · exact fresh other (List.mem_cons_of_mem _ member) inside
    · rw [AList.entries_insert_of_notMem (fresh item List.mem_cons_self), List.map_cons]
      exact List.perm_middle.symm

/-- A map that is filled with copies of all the entries of another one. -/
theorem emplace_copies {β : Type} (known : AList fun _ : PageId => β) (name : β → PageId) (copy : β → β)
    {items : List β} (all : items.Perm (known.entries.map Sigma.snd))
    (named : ∀ id item, known.lookup id = some item → name item = id) (id : PageId) :
    (items.foldl (fun entries item => emplace entries (name item) (copy item)) ∅).lookup id =
      (known.lookup id).map copy := by
  have names : ∀ entry ∈ known.entries, name entry.2 = entry.1 := fun entry member =>
    named entry.1 entry.2 (AList.mem_lookup_iff.mpr member)
  have keys : (known.entries.map Sigma.snd).map name = known.keys := by
    rw [List.map_map]
    exact List.map_congr_left fun entry member => names entry member
  have filled := @emplace_all β β name copy items ∅ ((all.map name).nodup_iff.mpr (keys ▸ known.keys_nodup))
    fun item _ => AList.notMem_empty _
  have listed : (items.foldl (fun entries item => emplace entries (name item) (copy item)) ∅).entries.Perm
      (known.entries.map fun entry => ⟨entry.1, copy entry.2⟩) := by
    refine filled.trans ?_
    rw [AList.empty_entries, List.nil_append]
    refine (all.map _).trans ?_
    rw [List.map_map]
    exact List.Perm.of_eq (List.map_congr_left fun entry member => by simp [names entry member])
  cases found : known.lookup id with
  | none =>
    refine AList.lookup_eq_none.mpr fun live => ?_
    have member := (listed.map Sigma.fst).subset (AList.mem_keys.mp live)
    rw [List.map_map] at member
    exact AList.lookup_eq_none.mp found (AList.mem_keys.mpr member)
  | some item =>
    refine AList.mem_lookup_iff.mpr (listed.symm.subset ?_)
    exact List.mem_map.mpr ⟨⟨id, item⟩, AList.mem_lookup_iff.mp found, rfl⟩

namespace BTree

/-! ### The nodes of a snapshot -/

section Nodes

variable {tree after : BTree ω} {config : BTreeNodeConfig} {id : PageId} {kept : Block 3992 → Block 3992}

def putLeaf (kept : Block 3992 → Block 3992) (tree : BTree ω) (leaf : LeafNode) : BTree ω :=
  { tree with leaves := emplace tree.leaves leaf.pageId (LeafNode.fromPage (leaf.page.withData kept)) }

def putInternal (kept : Block 3992 → Block 3992) (tree : BTree ω) (node : InternalNode) : BTree ω :=
  { tree with internals := emplace tree.internals node.pageId (InternalNode.fromPage (node.page.withData kept)) }

theorem small_withData {page : IndexPage} (small : page.layout.Small) : (page.withData kept).layout.Small :=
  ⟨small.nodeType, small.keyCount, small.capacity, small.flags⟩

theorem loadNode_leaf {leaf : LeafNode} (stored : LeafStored config id leaf) (tree : BTree ω) :
    Loads loadNode (leaf.page.withData kept).serialize tree () (putLeaf kept tree leaf) := by
  have small : (leaf.page.withData kept).layout.Small := small_withData
    (BTreeNode.PageOk.small stored.ok.page stored.placed (by rw [stored.ok.count]; exact stored.ok.room))
  have type : (leaf.page.withData kept).layout.nodeType = NodeType.leaf.number := stored.ok.page.type
  rw [← List.append_nil (leaf.page.withData kept).serialize]
  refine loads_bind (loads_fetch (IndexPage.decodes_deserialize small) tree) ?_
  rw [if_pos type]
  exact loads_store _ tree

theorem loadNode_internal {node : InternalNode} (stored : InternalStored config id node) (tree : BTree ω) :
    Loads loadNode (node.page.withData kept).serialize tree () (putInternal kept tree node) := by
  have small : (node.page.withData kept).layout.Small := small_withData
    (BTreeNode.PageOk.small stored.ok.page stored.placed (by rw [stored.ok.count]; exact stored.ok.room))
  have type : (node.page.withData kept).layout.nodeType = NodeType.internal.number := stored.ok.page.type
  rw [← List.append_nil (node.page.withData kept).serialize]
  refine loads_bind (loads_fetch (IndexPage.decodes_deserialize small) tree) ?_
  rw [if_neg (by rw [type]; decide), if_pos type]
  exact loads_store _ tree

theorem loadNodes_each {γ : Type} {bytesOf : γ → List UInt8} {put : BTree ω → γ → BTree ω} {items : List γ}
    (each : ∀ item ∈ items, ∀ tree, Loads loadNode (bytesOf item) tree () (put tree item)) {count : Nat}
    {bytes : List UInt8} (others : Loads (loadNodes count) bytes (items.foldl put tree) () after) :
    Loads (loadNodes (items.length + count)) ((items.map bytesOf).flatten ++ bytes) tree () after := by
  induction items generalizing tree with
  | nil => simpa using others
  | cons item rest ih =>
    have later := ih (fun other member => each other (List.mem_cons_of_mem _ member)) others
    rw [List.length_cons, List.map_cons, List.flatten_cons, List.append_assoc, Nat.add_right_comm]
    exact loads_bind (each item List.mem_cons_self tree) later

theorem foldl_putLeaf (leaves : List LeafNode) (tree : BTree ω) :
    leaves.foldl (putLeaf kept) tree = { tree with
      leaves := leaves.foldl (fun entries leaf =>
        emplace entries leaf.pageId (LeafNode.fromPage (leaf.page.withData kept))) tree.leaves } := by
  induction leaves generalizing tree with
  | nil => rfl
  | cons leaf rest ih => exact ih (putLeaf kept tree leaf)

theorem foldl_putInternal (internals : List InternalNode) (tree : BTree ω) :
    internals.foldl (putInternal kept) tree = { tree with
      internals := internals.foldl (fun entries node =>
        emplace entries node.pageId (InternalNode.fromPage (node.page.withData kept))) tree.internals } := by
  induction internals generalizing tree with
  | nil => rfl
  | cons node rest ih => exact ih (putInternal kept tree node)

end Nodes

/-- Every node stands in step with its page, on a page of its own. -/
structure Stored (tree : BTree ω) : Prop where
  owned : tree.Owned
  nodes : tree.Nodewise tree.config (LeafStored tree.config) (InternalStored tree.config)

/-- The scalars of the tree, and its nodes as their pages have them, over the space manager of
the tree that was there before. -/
structure Copies (tree : BTree ω) (target loaded : BTree ω') (kept : Block 3992 → Block 3992 := id) : Prop where
  space : loaded.space = target.clear.space
  reissued : loaded.reissued = target.reissued
  rootId : loaded.rootId = tree.rootId
  size : loaded.size = tree.size
  height : loaded.height = tree.height
  keyType : loaded.config.keyType = tree.config.keyType
  binaryKeySize : loaded.config.binaryKeySize = tree.config.binaryKeySize
  allowDuplicates : loaded.config.allowDuplicates = tree.config.allowDuplicates
  leaves : ∀ id, loaded.leaves.lookup id =
    (tree.leaves.lookup id).map fun leaf => LeafNode.fromPage (leaf.page.withData kept)
  internals : ∀ id, loaded.internals.lookup id =
    (tree.internals.lookup id).map fun node => InternalNode.fromPage (node.page.withData kept)

theorem Stored.loads {tree : BTree ω} (stored : tree.Stored)
    (canonical : KeyType.ofByte tree.config.keyType.byte = tree.config.keyType) (few : tree.nodeCount < 2 ^ 32)
    (order : tree.Enumeration) (target : BTree ω') (kept : Block 3992 → Block 3992) :
    ∃ loaded, Loads deserialize (tree.serialize order appending kept) target () loaded ∧
      tree.Copies target loaded kept := by
  have leafAt : ∀ leaf ∈ order.leaves, ∃ id, LeafStored tree.config id leaf := fun leaf member => by
    obtain ⟨entry, listed, rfl⟩ := List.mem_map.mp (order.allLeaves.subset member)
    exact ⟨entry.1, stored.nodes.leaves entry.1 entry.2 (AList.mem_lookup_iff.mpr listed)⟩
  have internalAt : ∀ node ∈ order.internals, ∃ id, InternalStored tree.config id node := fun node member => by
    obtain ⟨entry, listed, rfl⟩ := List.mem_map.mp (order.allInternals.subset member)
    exact ⟨entry.1, stored.nodes.internals entry.1 entry.2 (AList.mem_lookup_iff.mpr listed)⟩
  have count : tree.nodeCount = order.leaves.length + (order.internals.length + 0) := by
    rw [nodeCount, order.allLeaves.length_eq, order.allInternals.length_eq, List.length_map, List.length_map, Nat.add_zero]
  let start : BTree ω' := { target.clear with
    rootId := UInt32.ofNat tree.rootId.toNat
    size := UInt64.ofNat tree.size.toNat
    height := UInt32.ofNat tree.height.toNat
    config := { target.clear.config with
      keyType := KeyType.ofByte (UInt8.ofNat tree.config.keyType.byte.toNat)
      binaryKeySize := UInt16.ofNat tree.config.binaryKeySize.toNat
      allowDuplicates := (if tree.config.allowDuplicates then 1 else 0) != 0 } }
  have nodes : Loads (loadNodes tree.nodeCount)
      ((order.leaves.map fun leaf => (leaf.page.withData kept).serialize).flatten ++
        ((order.internals.map fun node => (node.page.withData kept).serialize).flatten ++ [])) start ()
      (order.internals.foldl (putInternal kept) (order.leaves.foldl (putLeaf kept) start)) := by
    rw [count]
    refine loadNodes_each (fun leaf member => ?_) (loadNodes_each (fun node member => ?_) (loads_pure () _))
    · obtain ⟨id, ok⟩ := leafAt leaf member
      exact loadNode_leaf ok
    · obtain ⟨id, ok⟩ := internalAt node member
      exact loadNode_internal ok
  rw [List.append_nil] at nodes
  refine ⟨order.internals.foldl (putInternal kept) (order.leaves.foldl (putLeaf kept) start), ?_, ?_⟩
  · have duplicates : (if tree.config.allowDuplicates then 1 else 0) < 256 ^ 1 := by split <;> decide
    simp only [serialize, appending, blocks, List.cons_append, List.flatten_cons, List.flatten_append, List.nil_append]
    refine loads_change (loads_field (decodes_read tree.rootId.toNat_lt) (loads_field (decodes_read tree.size.toNat_lt)
      (loads_field (decodes_read tree.height.toNat_lt) (loads_field (decodes_read tree.config.keyType.byte.toNat_lt)
        (loads_field (decodes_read tree.config.binaryKeySize.toNat_lt) (loads_field (decodes_read duplicates)
          (loads_bind (loads_fetch (decodes_read few) _) nodes)))))))
  · rw [foldl_putInternal, foldl_putLeaf]
    refine ⟨rfl, rfl, UInt32.ofNat_toNat, UInt64.ofNat_toNat, UInt32.ofNat_toNat, ?_, UInt16.ofNat_toNat, ?_,
      emplace_copies tree.leaves (fun leaf => leaf.pageId) (fun leaf => LeafNode.fromPage (leaf.page.withData kept))
        order.allLeaves fun id leaf found => (stored.nodes.leaves id leaf found).placed.id,
      emplace_copies tree.internals (fun node => node.pageId) (fun node => InternalNode.fromPage (node.page.withData kept))
        order.allInternals fun id node found => (stored.nodes.internals id node found).placed.id⟩
    · change KeyType.ofByte (UInt8.ofNat tree.config.keyType.byte.toNat) = tree.config.keyType
      rw [UInt8.ofNat_toNat, canonical]
    · change ((if tree.config.allowDuplicates then 1 else 0) != 0) = tree.config.allowDuplicates
      cases tree.config.allowDuplicates <;> rfl

end BTree

/-! ### What searches and checks read of a tree -/

/-- The leaf without its configuration, its parent and the data of its page. -/
def LeafNode.plain (leaf : LeafNode) : LeafNode :=
  { page := leaf.page.withData zeroed, keys := leaf.keys, refs := leaf.refs }

def InternalNode.plain (node : InternalNode) : InternalNode :=
  { page := node.page.withData zeroed, keys := node.keys, children := node.children }

/-- A node at the same place of two maps, or none in either. -/
theorem lookup_cases {β : Type} {plain : β → β} {first second : Option β} (same : first.map plain = second.map plain) :
    first = none ∧ second = none ∨ ∃ node other, first = some node ∧ second = some other ∧ plain node = plain other := by
  cases first with
  | none => exact .inl ⟨rfl, Option.map_eq_none_iff.mp same.symm⟩
  | some node =>
    obtain ⟨other, found, alike⟩ := Option.map_eq_some_iff.mp same.symm
    exact .inr ⟨node, other, rfl, found, alike.symm⟩

namespace BTree

/-- The same root, and on every page nodes that are read alike. -/
structure SameNodes (first : BTree ω) (second : BTree ω') : Prop where
  rootId : first.rootId = second.rootId
  leaves : ∀ id, (first.leaves.lookup id).map LeafNode.plain = (second.leaves.lookup id).map LeafNode.plain
  internals : ∀ id, (first.internals.lookup id).map InternalNode.plain = (second.internals.lookup id).map InternalNode.plain

namespace SameNodes

variable {first : BTree ω} {second : BTree ω'} (same : SameNodes first second)
include same

theorem mem_leaves (id : PageId) : id ∈ first.leaves ↔ id ∈ second.leaves := by
  have alike := congrArg Option.isSome (same.leaves id)
  rw [Option.isSome_map, Option.isSome_map] at alike
  rw [← AList.lookup_isSome, ← AList.lookup_isSome, alike]

theorem mem_internals (id : PageId) : id ∈ first.internals ↔ id ∈ second.internals := by
  have alike := congrArg Option.isSome (same.internals id)
  rw [Option.isSome_map, Option.isSome_map] at alike
  rw [← AList.lookup_isSome, ← AList.lookup_isSome, alike]

theorem internals_length : first.internals.keys.length = second.internals.keys.length := by
  refine List.Perm.length_eq ((List.perm_ext_iff_of_nodup first.internals.keys_nodup second.internals.keys_nodup).mpr ?_)
  exact fun id => by rw [← AList.mem_keys, ← AList.mem_keys, same.mem_internals]

theorem descend (key : Key) (fuel : Nat) (id : PageId) (path : List SearchPathEntry) :
    first.descend key fuel id path = second.descend key fuel id path := by
  induction fuel generalizing id path with
  | zero => rfl
  | succ fuel ih =>
    rcases lookup_cases (same.internals id) with ⟨none, other⟩ | ⟨node, node', found, found', alike⟩
    · simp only [BTree.descend, same.mem_leaves, none, other]
    · have keys : node.keys = node'.keys := (congrArg InternalNode.keys alike :)
      have children : node.children = node'.children := (congrArg InternalNode.children alike :)
      simp only [BTree.descend, same.mem_leaves, found, found', InternalNode.lowerBound, keys, children, ih]

theorem descendToLeaf (key : Key) (exactMatch : Bool) :
    first.descendToLeaf key exactMatch = second.descendToLeaf key exactMatch := by
  have empty : first.empty = second.empty := by rw [BTree.empty, BTree.empty, same.rootId]
  simp only [BTree.descendToLeaf, empty, same.rootId, same.internals_length, same.descend]
  cases second.descend key (second.internals.keys.length + 1) second.rootId [] with
  | error failure => rfl
  | ok spot =>
    rcases lookup_cases (same.leaves spot.1) with ⟨none, other⟩ | ⟨leaf, leaf', found, found', alike⟩
    · simp only [none, other]
    · have keys : leaf.keys = leaf'.keys := (congrArg LeafNode.keys alike :)
      have count : leaf.keyCount = leaf'.keyCount := (congrArg (fun leaf : LeafNode => leaf.keyCount) alike :)
      simp only [found, found', LeafNode.find, LeafNode.lowerBound, keys, count]
      congr

theorem find (key : Key) : first.find key = second.find key := by
  rw [BTree.find, BTree.find, same.descendToLeaf]
  cases second.descendToLeaf key true with
  | error failure => rfl
  | ok spot =>
    rcases lookup_cases (same.leaves spot.1) with ⟨none, other⟩ | ⟨leaf, leaf', found, found', alike⟩
    · simp only [none, other]
    · have refs : leaf.refs = leaf'.refs := (congrArg LeafNode.refs alike :)
      simp only [found, found', Option.bind_some, refs]

theorem validateSubtree (fuel : Nat) (id : PageId) (depth leafDepth : Nat) (low high : Option Key) :
    TreeValidator.validateSubtree first fuel id depth leafDepth low high =
      TreeValidator.validateSubtree second fuel id depth leafDepth low high := by
  induction fuel generalizing id depth leafDepth low high with
  | zero => rfl
  | succ fuel ih =>
    rcases lookup_cases (same.leaves id) with ⟨none, other⟩ | ⟨leaf, leaf', found, found', alike⟩
    · rcases lookup_cases (same.internals id) with ⟨none', other'⟩ | ⟨node, node', found, found', alike⟩
      · simp only [TreeValidator.validateSubtree, none, other, none', other']
      · have keys : node.keys = node'.keys := (congrArg InternalNode.keys alike :)
        have children : node.children = node'.children := (congrArg InternalNode.children alike :)
        have valid : node.validate = node'.validate := (congrArg InternalNode.validate alike :)
        simp only [TreeValidator.validateSubtree, none, other, found, found', keys, children, valid, ih]
    · have range : TreeValidator.validateLeafRange leaf low high = TreeValidator.validateLeafRange leaf' low high :=
        (congrArg (TreeValidator.validateLeafRange · low high) alike :)
      simp only [TreeValidator.validateSubtree, found, found', range]

theorem validate : TreeValidator.validate first = TreeValidator.validate second := by
  simp only [TreeValidator.validate, empty, same.rootId, same.mem_leaves, same.mem_internals, same.internals_length, same.validateSubtree]
  congr

end SameNodes

theorem length_blocks (tree : BTree ω) (order : tree.Enumeration) (kept : Block 3992 → Block 3992) :
    (tree.blocks order kept).flatten.length = 24 + tree.nodeCount * 4096 := by
  have page : ∀ page : IndexPage, page.serialize.length = 4096 := IndexPage.length_serialize
  simp only [blocks, List.cons_append, List.nil_append, List.flatten_cons, List.flatten_append, List.length_append, encode_length,
    List.length_flatten, List.map_map, Function.comp_def, page, List.map_const', List.sum_replicate_nat,
    order.allLeaves.length_eq, order.allInternals.length_eq, nodeCount, List.length_map]
  omega

theorem length_serialize (tree : BTree ω) (order : tree.Enumeration) :
    (tree.serialize order).length = 24 + tree.nodeCount * 4096 :=
  tree.length_blocks order id

/-! ### The round trip -/

/-- The tree that was read is the tree that was written. -/
structure Restores (tree : BTree ω) (loaded : BTree ω') : Prop where
  rootId : loaded.rootId = tree.rootId
  size : loaded.size = tree.size
  height : loaded.height = tree.height
  keyType : loaded.config.keyType = tree.config.keyType
  binaryKeySize : loaded.config.binaryKeySize = tree.config.binaryKeySize
  allowDuplicates : loaded.config.allowDuplicates = tree.config.allowDuplicates
  leaves : ∀ id, (loaded.leaves.lookup id).map (fun leaf => (leaf.keys, leaf.refs)) =
    (tree.leaves.lookup id).map fun leaf => (leaf.keys, leaf.refs)
  internals : ∀ id, (loaded.internals.lookup id).map (fun node => (node.keys, node.children)) =
    (tree.internals.lookup id).map fun node => (node.keys, node.children)
  find : ∀ key, loaded.find key = tree.find key
  validate : TreeValidator.validate loaded = TreeValidator.validate tree

/-- Whatever the order of the nodes, the snapshot is read to its end and restores the tree. -/
def RoundTrips (tree : BTree ω) (kept : Block 3992 → Block 3992) (target : BTree ω') : Prop :=
  ∀ order : tree.Enumeration, ∃ loaded,
    deserialize.run (target, { view := tree.serialize order appending kept }) =
        (.ok (), (loaded, ⟨tree.serialize order appending kept, (tree.serialize order appending kept).length⟩)) ∧
      tree.Restores loaded

/-- There is nothing in the leaves, and in an internal node only the child that is read from zeros. -/
structure Bare (tree : BTree ω) : Prop where
  leaves : ∀ id leaf, tree.leaves.lookup id = some leaf → leaf.keys = []
  internals : ∀ id node, tree.internals.lookup id = some node → node.keys = [] ∧ node.children = [PageReference.make 0 0 0]

/-- No internal node is still as it was created. -/
def Written (tree : BTree ω) : Prop :=
  ∀ id node, tree.internals.lookup id = some node → node ≠ InternalNode.create id { tree.config with level := node.level }

theorem bare_of_nodeless {tree : BTree ω} (leaves : tree.leaves.entries = []) (internals : tree.internals.entries = []) :
    tree.Bare := by
  refine ⟨fun id leaf found => ?_, fun id node found => ?_⟩
  · have member := AList.mem_lookup_iff.mp found
    rw [leaves] at member
    cases member
  · have member := AList.mem_lookup_iff.mp found
    rw [internals] at member
    cases member

section RoundTrip

variable {tree : BTree ω} (stored : tree.Stored)
  (canonical : KeyType.ofByte tree.config.keyType.byte = tree.config.keyType)
include stored

theorem Stored.few : tree.nodeCount ≤ kMaxPageCount.toNat := by
  have distinct : (tree.leaves.keys ++ tree.internals.keys).Nodup := by
    refine List.Nodup.append tree.leaves.keys_nodup tree.internals.keys_nodup fun id inLeaves inInternals => ?_
    exact stored.owned.apart id (AList.mem_keys.mpr inLeaves) (AList.mem_keys.mpr inInternals)
  have bound := stored.owned.live_le distinct fun id member =>
    (List.mem_append.mp member).imp AList.mem_keys.mpr AList.mem_keys.mpr
  simpa [nodeCount, AList.keys, List.keys] using bound

include canonical

theorem Stored.leaf_fromPage {id : PageId} {leaf : LeafNode} (found : tree.leaves.lookup id = some leaf) :
    LeafNode.fromPage leaf.page = leaf :=
  (stored.nodes.leaves id leaf found).fromPage canonical

theorem Stored.internal_fromPage {id : PageId} {node : InternalNode} (found : tree.internals.lookup id = some node)
    (written : node ≠ InternalNode.create id { tree.config with level := node.level }) :
    InternalNode.fromPage node.page = node := by
  have kept := stored.nodes.internals id node found
  exact kept.fromPage canonical (kept.holds.resolve_right written)

omit stored canonical in
theorem Copies.restores {target loaded : BTree ω'} {kept : Block 3992 → Block 3992} (copies : tree.Copies target loaded kept)
    (leaves : ∀ id leaf, tree.leaves.lookup id = some leaf → (LeafNode.fromPage (leaf.page.withData kept)).plain = leaf.plain)
    (internals : ∀ id node, tree.internals.lookup id = some node →
      (InternalNode.fromPage (node.page.withData kept)).plain = node.plain) : tree.Restores loaded := by
  have same : SameNodes loaded tree := by
    refine ⟨copies.rootId, fun id => ?_, fun id => ?_⟩
    · rw [copies.leaves]
      cases found : tree.leaves.lookup id with
      | none => rfl
      | some leaf => exact congrArg some (leaves id leaf found)
    · rw [copies.internals]
      cases found : tree.internals.lookup id with
      | none => rfl
      | some node => exact congrArg some (internals id node found)
  refine ⟨copies.rootId, copies.size, copies.height, copies.keyType, copies.binaryKeySize, copies.allowDuplicates,
    fun id => ?_, fun id => ?_, same.find, same.validate⟩
  · have alike := congrArg (Option.map fun leaf : LeafNode => (leaf.keys, leaf.refs)) (same.leaves id)
    rwa [Option.map_map, Option.map_map] at alike
  · have alike := congrArg (Option.map fun node : InternalNode => (node.keys, node.children)) (same.internals id)
    rwa [Option.map_map, Option.map_map] at alike

theorem Stored.restores (written : tree.Written) {target loaded : BTree ω'} (copies : tree.Copies target loaded) :
    tree.Restores loaded :=
  copies.restores
    (fun id leaf found => by rw [withData_id, stored.leaf_fromPage canonical found])
    fun id node found => by rw [withData_id, stored.internal_fromPage canonical found (written id node found)]

theorem Stored.runs (order : tree.Enumeration) (target : BTree ω') (kept : Block 3992 → Block 3992 := id) :
    ∃ loaded, deserialize.run (target, { view := tree.serialize order appending kept }) =
        (.ok (), (loaded, ⟨tree.serialize order appending kept, (tree.serialize order appending kept).length⟩)) ∧
      tree.Copies target loaded kept := by
  have few := stored.few
  have limit : kMaxPageCount.toNat = 1048576 := rfl
  obtain ⟨loaded, loads, copies⟩ := stored.loads canonical (by omega) order target kept
  have bounded : (tree.serialize order appending kept).length < sizeLimit := by
    rw [serialize, appending, length_blocks, sizeLimit]
    omega
  have ran := loads (tree.serialize order appending kept) 0 [] (by simp) (Nat.zero_le _) bounded
  rw [Nat.zero_add] at ran
  exact ⟨loaded, ran, copies⟩

omit stored in
/-- A node that is as it was created comes back with a child. -/
theorem Copies.written {target loaded : BTree ω'} (copies : tree.Copies target loaded) (restores : tree.Restores loaded) :
    tree.Written := by
  intro id node found created
  have children := restores.internals id
  have read := @InternalNode.fromPage_create id { tree.config with level := node.level } canonical
  rw [← created] at read
  have own : node.children = [PageReference.invalid] := by rw [created]; rfl
  rw [copies.internals, found, Option.map_some, Option.map_some, Option.map_some, Option.some.injEq, Prod.mk.injEq,
    withData_id, read, own] at children
  exact absurd children.2 (by decide)

theorem Stored.roundTrips_iff (kept : Block 3992 → Block 3992) (target : BTree ω') {condition : Prop}
    (restores : ∀ loaded, tree.Copies target loaded kept → (tree.Restores loaded ↔ condition)) :
    tree.RoundTrips kept target ↔ condition := by
  constructor
  · intro trips
    obtain ⟨loaded, ran, restored⟩ := trips tree.listed
    obtain ⟨copy, again, copies⟩ := stored.runs canonical tree.listed target kept
    obtain rfl : copy = loaded := congrArg (fun result => result.2.1) (again.symm.trans ran)
    exact (restores copy copies).mp restored
  · intro holds order
    obtain ⟨loaded, ran, copies⟩ := stored.runs canonical order target kept
    exact ⟨loaded, ran, (restores loaded copies).mpr holds⟩

omit canonical in
/-- From blank pages the leaves come back without entries, and the internal nodes with one child. -/
theorem Stored.restores_zeroed {target loaded : BTree ω'} (copies : tree.Copies target loaded zeroed) :
    tree.Restores loaded ↔ tree.Bare := by
  constructor
  · intro restores
    refine ⟨fun id leaf found => ?_, fun id node found => ?_⟩
    · have entries := restores.leaves id
      rw [copies.leaves, found, Option.map_some, Option.map_some, Option.map_some, LeafNode.fromPage_zeroed,
        Option.some.injEq, Prod.mk.injEq] at entries
      exact entries.1.symm
    · have entries := restores.internals id
      rw [copies.internals, found, Option.map_some, Option.map_some, Option.map_some, InternalNode.fromPage_zeroed,
        Option.some.injEq, Prod.mk.injEq] at entries
      exact ⟨entries.1.symm, entries.2.symm⟩
  · intro bare
    refine copies.restores (fun id leaf found => ?_) fun id node found => ?_
    · have none := bare.leaves id leaf found
      have refs : leaf.refs = [] := by
        rw [← List.length_eq_zero_iff, (stored.nodes.leaves id leaf found).ok.refs, none, List.length_nil]
      rw [LeafNode.fromPage_zeroed, LeafNode.plain, LeafNode.plain, none, refs]
      rfl
    · obtain ⟨none, child⟩ := bare.internals id node found
      rw [InternalNode.fromPage_zeroed, InternalNode.plain, InternalNode.plain, none, child]
      rfl

end RoundTrip

end BTree

namespace TreeCall

variable [BTreeWalSink ω]

/-- Every tree that calls with matching keys lead to stands in step with its pages. -/
theorem stored_after {space : Space.SpaceManager} (sound : space.pageAllocator.Sound) (config : BTreeNodeConfig)
    (sink : Option ω) {calls : List TreeCall} (matching : ∀ call ∈ calls, call.key.Matches config) :
    (Runs.after step ({ space := space, config := config, walSink := sink } : BTree ω) calls).config = config ∧
      (Runs.after step ({ space := space, config := config, walSink := sink } : BTree ω) calls).Stored := by
  have always : Runs.Always step
      (fun tree : BTree ω => tree.Owned ∧ tree.Nodewise config (LeafStored config) (InternalStored config))
      { space := space, config := config, walSink := sink } calls := by
    refine Runs.always_of_invariant (fun tree call holds fit => ?_)
      ⟨BTree.owned_create sound config sink, BTree.Nodewise.create space config sink⟩
      (Runs.atEachStep_of_forall fun call member _ => matching call member)
    exact ⟨(perform_owned call).run holds.1, (perform_nodewise (closed_stored config) (LeafNode.create_stored config)
      (InternalNode.create_stored config) call fit).run holds.2⟩
  obtain ⟨owned, nodes⟩ := always.last
  exact ⟨nodes.config, owned, by rw [nodes.config]; exact nodes⟩

/-- The blocks of a snapshot restore the tree exactly when it is bare: the syncs of its nodes have left nothing in
their pages. Had they appended, it would be restored exactly when every internal node was filled after it was created. -/
theorem snapshot_restores_iff (space : Space.SpaceManager) (sound : space.pageAllocator.Sound) (config : BTreeNodeConfig)
    (canonical : KeyType.ofByte config.keyType.byte = config.keyType) (sink : Option ω) (calls : List TreeCall)
    (matching : ∀ call ∈ calls, call.key.Matches config) (target : BTree ω') :
    let tree : BTree ω := Runs.after step { space := space, config := config, walSink := sink } calls
    (tree.RoundTrips zeroed target ↔ tree.Bare) ∧ (tree.RoundTrips id target ↔ tree.Written) := by
  intro tree
  obtain ⟨same, stored⟩ := stored_after sound config sink matching
  have typed : KeyType.ofByte tree.config.keyType.byte = tree.config.keyType := by rw [same]; exact canonical
  refine ⟨stored.roundTrips_iff typed zeroed target fun loaded copies => stored.restores_zeroed copies,
    stored.roundTrips_iff typed id target fun loaded copies => ?_⟩
  exact ⟨copies.written typed, fun written => stored.restores typed written copies⟩

def briefRun : List TreeCall :=
  [.insert (.uint32 2) (PageReference.make 9 0 1), .insert (.uint32 1) (PageReference.make 9 0 1), .erase (.uint32 2)]

theorem briefRun_matches : ∀ call ∈ briefRun, call.key.Matches {} := by simp [briefRun, key, Key.Matches, Key.type]

theorem briefRun_written :
    (Runs.after step ({ space := Space.SpaceManager.withPolicy .firstFit } : BTree Empty) briefRun).Written := by
  intro id node found
  have leafOnly : (Runs.after step ({ space := Space.SpaceManager.withPolicy .firstFit } : BTree Empty)
    briefRun).internals.entries = [] := by decide +kernel
  have member := AList.mem_lookup_iff.mp found
  rw [leafOnly] at member
  cases member

/-- A leaf with a key is lost with its entries; a tree whose only key was erased again has no nodes to lose. -/
theorem snapshot_restores_iff_brief :
    let start : BTree Empty := { space := Space.SpaceManager.withPolicy .firstFit }
    let vacated : BTree Empty :=
      Runs.after step start [.insert (.uint32 2) (PageReference.make 9 0 1), .erase (.uint32 2)]
    vacated.RoundTrips zeroed start ∧ (Runs.after step start briefRun).RoundTrips id start := by
  intro start vacated
  have sound : (Space.SpaceManager.withPolicy .firstFit).pageAllocator.Sound := PageAllocator.sound_new
  have matching : ∀ call ∈ [insert (.uint32 2) (PageReference.make 9 0 1), erase (.uint32 2)], call.key.Matches {} := by
    simp [key, Key.Matches, Key.type]
  obtain ⟨trips, -⟩ := snapshot_restores_iff _ sound {} rfl (none : Option Empty) _ matching start
  obtain ⟨-, appends⟩ := snapshot_restores_iff _ sound {} rfl (none : Option Empty) briefRun briefRun_matches start
  exact ⟨trips.mpr (BTree.bare_of_nodeless (by decide +kernel) (by decide +kernel)), appends.mpr briefRun_written⟩

/-- The leaf on page 8 has one key and is read back without it. -/
theorem written_leaf_is_not_restored :
    let start : BTree Empty := { space := Space.SpaceManager.withPolicy .firstFit }
    let tree : BTree Empty := Runs.after step start [.insert (.uint32 2) (PageReference.make 9 0 1)]
    let loaded := (BTree.deserialize.run (start, { view := tree.serialize tree.listed appending zeroed })).2.1
    (tree.leaves.lookup 8).map LeafNode.keys = some [.uint32 2] ∧ (loaded.leaves.lookup 8).map LeafNode.keys = some [] ∧
      loaded.size = 1 ∧ ¬ tree.RoundTrips zeroed start := by
  intro start tree loaded
  have before : (tree.leaves.lookup 8).map LeafNode.keys = some [.uint32 2] := by decide +kernel
  have after : (loaded.leaves.lookup 8).map LeafNode.keys = some [] := by decide +kernel
  refine ⟨before, after, by decide +kernel, fun trips => ?_⟩
  obtain ⟨read, ran, restores⟩ := trips tree.listed
  have same : loaded = read := congrArg (fun result => result.2.1) ran
  have entries := congrArg (Option.map Prod.fst) (restores.leaves 8)
  rw [Option.map_map, Option.map_map, ← same] at entries
  have differ : (loaded.leaves.lookup 8).map LeafNode.keys = (tree.leaves.lookup 8).map LeafNode.keys := entries
  rw [before, after] at differ
  cases differ

end TreeCall

end Quartz.Btree
