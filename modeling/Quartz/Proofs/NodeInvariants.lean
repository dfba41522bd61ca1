import Quartz.Proofs.NodeOwnership

/-! What holds of every single node, whatever a call returns: a property that new nodes have
and the operations on nodes keep. -/

namespace Quartz.Btree
open Storage Format Space TreeM Fallible

variable {ω : Type}

/-- Every leaf is fine and every internal node is sturdy, under the given configuration. -/
structure BTree.Nodewise (config : BTreeNodeConfig) (fine : PageId → LeafNode → Prop) (sturdy : PageId → InternalNode → Prop)
    (tree : BTree ω) : Prop where
  config : tree.config = config
  leaves : ∀ id leaf, tree.leaves.lookup id = some leaf → fine id leaf
  internals : ∀ id node, tree.internals.lookup id = some node → sturdy id node

namespace BTree.Nodewise

variable {config : BTreeNodeConfig} {fine : PageId → LeafNode → Prop} {sturdy : PageId → InternalNode → Prop} {tree : BTree ω}

theorem create (space : SpaceManager) (config : BTreeNodeConfig) (sink : Option ω) :
    Nodewise config fine sturdy ({ space := space, config := config, walSink := sink } : BTree ω) :=
  ⟨rfl, by simp, by simp⟩

theorem setLeaf (holds : tree.Nodewise config fine sturdy) (id : PageId) {leaf : LeafNode} (good : fine id leaf) :
    Nodewise config fine sturdy { tree with leaves := tree.leaves.insert id leaf } := by
  refine ⟨holds.config, fun other node present => ?_, holds.internals⟩
  rcases eq_or_ne other id with rfl | different
  · rw [AList.lookup_insert] at present
    cases present
    exact good
  · exact holds.leaves other node (by rwa [AList.lookup_insert_ne different] at present)

theorem setInternal (holds : tree.Nodewise config fine sturdy) (id : PageId) {node : InternalNode} (good : sturdy id node) :
    Nodewise config fine sturdy { tree with internals := tree.internals.insert id node } := by
  refine ⟨holds.config, holds.leaves, fun other node present => ?_⟩
  rcases eq_or_ne other id with rfl | different
  · rw [AList.lookup_insert] at present
    cases present
    exact good
  · exact holds.internals other node (by rwa [AList.lookup_insert_ne different] at present)

theorem of_fewer {after : BTree ω} (holds : tree.Nodewise config fine sturdy) (same : after.config = tree.config)
    (leaves : ∀ id leaf, after.leaves.lookup id = some leaf → tree.leaves.lookup id = some leaf)
    (internals : ∀ id node, after.internals.lookup id = some node → tree.internals.lookup id = some node) :
    after.Nodewise config fine sturdy :=
  ⟨same.trans holds.config, fun id leaf present => holds.leaves id leaf (leaves id leaf present),
    fun id node present => holds.internals id node (internals id node present)⟩

end BTree.Nodewise

namespace TreeM

open BTree

variable {config : BTreeNodeConfig} {fine : PageId → LeafNode → Prop} {sturdy : PageId → InternalNode → Prop}

theorem onLeaf_nodewise (id : PageId) (change : LeafNode → Status × LeafNode) (keeps : ∀ leaf, fine id leaf → fine id (change leaf).2) :
    Keeps (Nodewise (ω := ω) config fine sturdy) (onLeaf id change) := by
  refine keeps_of_run fun tree holds => ?_
  cases found : tree.leaves.lookup id with
  | none =>
    rw [onLeaf_absent found]
    exact holds
  | some node =>
    rw [onLeaf_run found]
    exact holds.setLeaf id (keeps node (holds.leaves id node found))

theorem onInternal_nodewise (id : PageId) (change : InternalNode → Status × InternalNode)
    (keeps : ∀ node, sturdy id node → sturdy id (change node).2) :
    Keeps (Nodewise (ω := ω) config fine sturdy) (onInternal id change) := by
  refine keeps_of_run fun tree holds => ?_
  cases found : tree.internals.lookup id with
  | none =>
    rw [onInternal_absent found]
    exact holds
  | some node =>
    rw [onInternal_run found]
    exact holds.setInternal id (keeps node (holds.internals id node found))

theorem takePage_nodewise (failed : Status) : Keeps (Nodewise (ω := ω) config fine sturdy) (takePage failed) := by
  refine keeps_bind keeps_read fun tree => keeps_bind (keeps_update fun _ holds => ?_) fun _ => ?_
  · exact holds.of_fewer rfl (fun _ _ present => present) fun _ _ present => present
  split
  · exact keeps_fail _
  · simp only
    split
    · refine keeps_bind (keeps_update fun _ holds => ?_) fun _ => keeps_pure _
      exact holds.of_fewer rfl (fun _ _ present => present) fun _ _ present => present
    · exact keeps_pure _

variable [BTreeWalSink ω]

theorem notify_nodewise (event : TreeEvent) : Keeps (Nodewise (ω := ω) config fine sturdy) (notify event) := by
  refine keeps_of_run fun tree holds => ?_
  obtain ⟨sink, -, after⟩ := notify_run event tree
  rw [after]
  exact holds.of_fewer rfl (fun _ _ present => present) fun _ _ present => present

theorem allocateLeaf_nodewise (new : ∀ id level, fine id (LeafNode.create id { config with level := level }))
    (level : UInt32) : Keeps (Nodewise (ω := ω) config fine sturdy) (allocateLeaf level) := by
  refine keeps_bind (takePage_nodewise _) fun id => keeps_bind keeps_read fun _ => ?_
  split
  · exact keeps_fail _
  · refine keeps_bind (keeps_update fun tree holds => ?_) fun _ => keeps_bind (notify_nodewise _) fun _ => keeps_pure _
    exact holds.setLeaf id (holds.config ▸ new id level)

theorem allocateInternal_nodewise (new : ∀ id level, sturdy id (InternalNode.create id { config with level := level }))
    (level : UInt32) : Keeps (Nodewise (ω := ω) config fine sturdy) (allocateInternal level) := by
  refine keeps_bind (takePage_nodewise _) fun id => keeps_bind keeps_read fun _ => ?_
  split
  · exact keeps_fail _
  · refine keeps_bind (keeps_update fun tree holds => ?_) fun _ => keeps_bind (notify_nodewise _) fun _ => keeps_pure _
    exact holds.setInternal id (holds.config ▸ new id level)

theorem releaseNode_nodewise (id : PageId) : Keeps (Nodewise (ω := ω) config fine sturdy) (releaseNode id) := by
  refine keeps_of_run fun tree holds => ?_
  obtain ⟨sink, -, released⟩ := releaseNode_run id tree
  rw [released]
  have fewer : ∀ {β : Type} (nodes : AList fun _ : PageId => β) (other : PageId) (node : β),
      (nodes.erase id).lookup other = some node → nodes.lookup other = some node := by
    intro β nodes other node present
    rcases eq_or_ne other id with rfl | different
    · rw [AList.lookup_erase] at present
      cases present
    · rwa [AList.lookup_erase_ne different] at present
  refine holds.of_fewer rfl (fun other leaf present => ?_) fun other node present => ?_
  · simp only at present
    split at present
    · exact fewer _ other leaf present
    · exact present
  · simp only at present
    split at present
    · exact present
    · exact fewer _ other node present

end TreeM

/-- A property of nodes that new nodes have and single operations keep is kept by every call
whose key fits. -/
theorem TreeCall.perform_nodewise [BTreeWalSink ω] {config : BTreeNodeConfig} {fits : Key → Prop} {fine : PageId → LeafNode → Prop}
    {sturdy : PageId → InternalNode → Prop} (closed : Closed fits fine sturdy)
    (newLeaf : ∀ id level, fine id (LeafNode.create id { config with level := level }))
    (newInternal : ∀ id level, sturdy id (InternalNode.create id { config with level := level })) (call : TreeCall)
    (fit : fits call.key) : Keeps (BTree.Nodewise (ω := ω) config fine sturdy) call.perform := by
  have rules : Rules (ω := ω) fits fine sturdy (Keeps (BTree.Nodewise config fine sturdy)) :=
    keeps_rules closed (fun _ _ _ holds => holds.leaves _ _) (fun _ _ _ holds => holds.internals _ _)
      (fun _ _ _ holds => holds.of_fewer rfl (fun _ _ present => present) fun _ _ present => present)
      onLeaf_nodewise onInternal_nodewise (allocateLeaf_nodewise newLeaf) (allocateInternal_nodewise newInternal)
      releaseNode_nodewise notify_nodewise
  refine rules.perform (fun change => keeps_update fun tree holds => ?_) notify_nodewise call fit
  exact holds.of_fewer rfl (fun _ _ present => present) fun _ _ present => present

/-! ### The size -/

theorem TreeM.notify_size [BTreeWalSink ω] (size : UInt64) (event : TreeEvent) :
    Keeps (fun tree : BTree ω => tree.size = size) (notify event) := by
  refine keeps_of_run fun tree same => ?_
  obtain ⟨sink, -, after⟩ := notify_run event tree
  rw [after]
  exact same

/-- Nothing but the end of an insertion and the start of an erasure's end counts. -/
theorem size_rules [BTreeWalSink ω] (size : UInt64) :
    Rules (ω := ω) (fun _ => True) (fun _ _ => True) (fun _ _ => True) (Keeps fun tree => tree.size = size) := by
  have takePage_size : ∀ failed, Keeps (fun tree : BTree ω => tree.size = size) (takePage failed) := by
    intro failed
    refine keeps_bind keeps_read fun tree => keeps_bind (keeps_update fun _ same => same) fun _ => ?_
    split
    · exact keeps_fail _
    · simp only
      split
      · exact keeps_bind (keeps_update fun _ same => same) fun _ => keeps_pure _
      · exact keeps_pure _
  refine keeps_rules closed_true (fun _ _ _ _ _ => trivial) (fun _ _ _ _ _ => trivial) (fun _ _ _ same => same)
    (fun id change _ => keeps_bind (leaf_keeps id) fun _ => keeps_bind (keeps_update fun _ same => same) fun _ => check_keeps _)
    (fun id change _ => keeps_bind (internal_keeps id) fun _ => keeps_bind (keeps_update fun _ same => same) fun _ => check_keeps _)
    (fun level => ?_) (fun level => ?_) (fun id => keeps_of_run fun tree same => ?_) (notify_size size)
  · refine keeps_bind (takePage_size _) fun id => keeps_bind keeps_read fun _ => ?_
    split
    · exact keeps_fail _
    · exact keeps_bind (keeps_update fun _ same => same) fun _ => keeps_bind (notify_size size _) fun _ => keeps_pure _
  · refine keeps_bind (takePage_size _) fun id => keeps_bind keeps_read fun _ => ?_
    split
    · exact keeps_fail _
    · exact keeps_bind (keeps_update fun _ same => same) fun _ => keeps_bind (notify_size size _) fun _ => keeps_pure _
  · obtain ⟨sink, -, released⟩ := releaseNode_run id tree
    rw [released]
    exact same

end Quartz.Btree
