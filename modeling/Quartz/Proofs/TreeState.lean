import Quartz.Lib.HeapTree
import Quartz.Proofs.NodeSpecs
import Quartz.Proofs.SilentRuns

/-! The nodes of a tree as a heap of keys and children, and what each single effect does to
that heap when every node agrees with its page. -/

namespace Quartz.Btree
open Storage Format Space TreeM Fallible HeapTree

variable {ω : Type}

namespace BTree

/-- What lies at a page: the keys of a leaf, or the keys and children of an internal node. -/
def view (tree : BTree ω) (id : PageId) : Option (Node PageId Key) :=
  match tree.leaves.lookup id with
  | some leaf => some (.leaf leaf.keys)
  | none => (tree.internals.lookup id).map fun node => .branch node.keys (node.children.map (·.pageId))

/-- A tree without a sink whose nodes own their pages and agree with them. -/
structure Sound (tree : BTree ω) : Prop where
  owned : tree.Owned
  leaves : ∀ id leaf, tree.leaves.lookup id = some leaf → LeafOk tree.config leaf
  internals : ∀ id node, tree.internals.lookup id = some node → InternalOk tree.config node
  silent : tree.walSink = none

variable {tree : BTree ω} {id : PageId} {keys : List Key} {children : List PageId}

theorem mem_leaves {leaf : LeafNode} (standing : tree.leaves.lookup id = some leaf) : id ∈ tree.leaves :=
  AList.lookup_isSome.mp (by rw [standing]; rfl)

theorem view_leaf : tree.view id = some (.leaf keys) ↔ ∃ leaf, tree.leaves.lookup id = some leaf ∧ leaf.keys = keys := by
  unfold view
  cases tree.leaves.lookup id with
  | some leaf => simp
  | none => cases tree.internals.lookup id <;> simp

theorem view_branch : tree.view id = some (.branch keys children) ↔
    id ∉ tree.leaves ∧ ∃ node, tree.internals.lookup id = some node ∧ node.keys = keys ∧
      node.children.map (·.pageId) = children := by
  rw [← AList.lookup_eq_none]
  unfold view
  cases tree.leaves.lookup id with
  | some leaf => simp
  | none => cases tree.internals.lookup id <;> simp

theorem view_isSome : (tree.view id).isSome ↔ id ∈ tree.leaves ∨ id ∈ tree.internals := by
  rw [← AList.lookup_isSome, ← AList.lookup_isSome]
  unfold view
  cases tree.leaves.lookup id <;> simp

theorem view_setLeaf (tree : BTree ω) (id : PageId) (leaf : LeafNode) :
    view { tree with leaves := tree.leaves.insert id leaf } = Function.update tree.view id (some (.leaf leaf.keys)) := by
  funext other
  by_cases same : other = id
  · subst same
    simp [view]
  · simp [view, Function.update_of_ne same, AList.lookup_insert_ne same]

theorem view_setInternal (noLeaf : id ∉ tree.leaves) (node : InternalNode) :
    view { tree with internals := tree.internals.insert id node } =
      Function.update tree.view id (some (.branch node.keys (node.children.map (·.pageId)))) := by
  funext other
  by_cases same : other = id
  · subst same
    simp [view, AList.lookup_eq_none.mpr noLeaf]
  · simp [view, Function.update_of_ne same, AList.lookup_insert_ne same]

/-- The tree has become another sound one with this heap; its root is where it was. -/
structure Becomes (tree : BTree ω) (heap : PageId → Option (Node PageId Key)) (after : BTree ω) : Prop where
  sound : after.Sound
  config : after.config = tree.config
  rootId : after.rootId = tree.rootId
  size : after.size = tree.size
  height : after.height = tree.height
  view : after.view = heap

theorem Sound.live (sound : tree.Sound) (stands : (tree.view id).isSome) :
    tree.space.pageAllocator.Owns id ∧ id ≠ kInvalidPageId := by
  have owns : tree.space.pageAllocator.Owns id :=
    (view_isSome.mp stands).elim (sound.owned.leaves id) (sound.owned.internals id)
  exact ⟨owns, PageAllocator.ne_invalid (owns.data sound.owned.allocator).2⟩

theorem Sound.leafKeys (sound : tree.Sound) (found : tree.view id = some (.leaf keys)) :
    ∀ key ∈ keys, key.Matches tree.config := by
  obtain ⟨leaf, standing, rfl⟩ := view_leaf.mp found
  exact (sound.leaves id leaf standing).matching

theorem Sound.branchKeys (sound : tree.Sound) (found : tree.view id = some (.branch keys children)) :
    ∀ key ∈ keys, key.Matches tree.config := by
  obtain ⟨-, node, standing, rfl, -⟩ := view_branch.mp found
  exact (sound.internals id node standing).matching

theorem Sound.branchRoom (sound : tree.Sound) (found : tree.view id = some (.branch keys children)) :
    keys.length ≤ computeCapacity tree.config .internal := by
  obtain ⟨-, node, standing, rfl, -⟩ := view_branch.mp found
  exact (sound.internals id node standing).room

theorem Sound.setLeaf (sound : tree.Sound) {leaf : LeafNode} (ok : LeafOk tree.config leaf)
    (owned : ({ tree with leaves := tree.leaves.insert id leaf } : BTree ω).Owned) :
    Becomes tree (Function.update tree.view id (some (.leaf leaf.keys)))
      { tree with leaves := tree.leaves.insert id leaf } := by
  refine ⟨⟨owned, fun other found standing => ?_, sound.internals, sound.silent⟩, rfl, rfl, rfl, rfl, view_setLeaf tree id leaf⟩
  by_cases same : other = id
  · subst same
    rw [AList.lookup_insert] at standing
    cases standing
    exact ok
  · rw [AList.lookup_insert_ne same] at standing
    exact sound.leaves other found standing

theorem Sound.setInternal (sound : tree.Sound) {node : InternalNode} (ok : InternalOk tree.config node)
    (noLeaf : id ∉ tree.leaves) (owned : ({ tree with internals := tree.internals.insert id node } : BTree ω).Owned) :
    Becomes tree (Function.update tree.view id (some (.branch node.keys (node.children.map (·.pageId)))))
      { tree with internals := tree.internals.insert id node } := by
  refine ⟨⟨owned, sound.leaves, fun other found standing => ?_, sound.silent⟩, rfl, rfl, rfl, rfl, view_setInternal noLeaf node⟩
  by_cases same : other = id
  · subst same
    rw [AList.lookup_insert] at standing
    cases standing
    exact ok
  · rw [AList.lookup_insert_ne same] at standing
    exact sound.internals other found standing

end BTree

namespace TreeM
open BTree

variable {tree : BTree ω} {id : PageId}

/-- A change of a leaf that succeeds. -/
theorem onLeaf_becomes (sound : tree.Sound) {leaf after : LeafNode} (found : tree.leaves.lookup id = some leaf)
    (change : LeafNode → Status × LeafNode) (done : change leaf = (Status.success, after))
    (ok : LeafOk tree.config after) :
    ∃ next, (onLeaf id change).run tree = (.ok (), next) ∧
      Becomes tree (Function.update tree.view id (some (.leaf after.keys))) next ∧
      next.leaves.lookup id = some after := by
  have ran := onLeaf_run found change
  rw [done] at ran
  have owned := sound.owned.of_same (onLeaf_samePages id change tree)
  rw [ran] at owned
  exact ⟨_, ran, sound.setLeaf ok owned, AList.lookup_insert _⟩

theorem onInternal_becomes (sound : tree.Sound) {node after : InternalNode}
    (found : tree.internals.lookup id = some node) (change : InternalNode → Status × InternalNode)
    (done : change node = (Status.success, after)) (ok : InternalOk tree.config after) :
    ∃ next, (onInternal id change).run tree = (.ok (), next) ∧
      Becomes tree (Function.update tree.view id (some (.branch after.keys (after.children.map (·.pageId))))) next := by
  have ran := onInternal_run found change
  rw [done] at ran
  have owned := sound.owned.of_same (onInternal_samePages id change tree)
  rw [ran] at owned
  have noLeaf : id ∉ tree.leaves := fun live =>
    sound.owned.apart id live (AList.lookup_isSome.mp (by simp [found]))
  exact ⟨_, ran, sound.setInternal ok noLeaf owned⟩

theorem onInternal_refused (sound : tree.Sound) {node : InternalNode} (found : tree.internals.lookup id = some node)
    (change : InternalNode → Status × InternalNode) {status : Status} (refused : change node = (status, node))
    (bad : status.ok = false) :
    ∃ next, (onInternal id change).run tree = (.error (.status status), next) ∧ Becomes tree tree.view next := by
  have ran := onInternal_run found change
  rw [refused, if_neg (by simp [bad])] at ran
  have owned := sound.owned.of_same (onInternal_samePages id change tree)
  rw [ran] at owned
  have noLeaf : id ∉ tree.leaves := fun live =>
    sound.owned.apart id live (AList.lookup_isSome.mp (by simp [found]))
  have same : Function.update tree.view id (some (.branch node.keys (node.children.map (·.pageId)))) = tree.view :=
    Function.update_eq_self_iff.mpr (view_branch.mpr ⟨noLeaf, node, found, rfl, rfl⟩).symm
  refine ⟨_, ran, ?_⟩
  rw [← same]
  exact sound.setInternal (sound.internals id node found) noLeaf owned

/-- A change of a leaf that is known by its keys. -/
theorem onLeaf_view (sound : tree.Sound) {keys keys' : List Key} (found : tree.view id = some (.leaf keys))
    (change : LeafNode → Status × LeafNode)
    (effect : ∀ leaf, LeafOk tree.config leaf → leaf.keys = keys →
      ∃ after, change leaf = (Status.success, after) ∧ LeafOk tree.config after ∧ after.keys = keys') :
    ∃ next, (onLeaf id change).run tree = (.ok (), next) ∧
      Becomes tree (Function.update tree.view id (some (.leaf keys'))) next := by
  obtain ⟨leaf, standing, same⟩ := view_leaf.mp found
  obtain ⟨after, done, ok, rfl⟩ := effect leaf (sound.leaves id leaf standing) same
  obtain ⟨next, ran, becomes, -⟩ := onLeaf_becomes sound standing change done ok
  exact ⟨next, ran, becomes⟩

/-- A change of an internal node that is known by its keys and children. -/
theorem onInternal_view (sound : tree.Sound) {keys keys' : List Key} {children children' : List PageId}
    (found : tree.view id = some (.branch keys children)) (change : InternalNode → Status × InternalNode)
    (effect : ∀ node, InternalOk tree.config node → node.keys = keys → node.children.map (·.pageId) = children →
      ∃ after, change node = (Status.success, after) ∧ InternalOk tree.config after ∧ after.keys = keys' ∧
        after.children.map (·.pageId) = children') :
    ∃ next, (onInternal id change).run tree = (.ok (), next) ∧
      Becomes tree (Function.update tree.view id (some (.branch keys' children'))) next := by
  obtain ⟨-, node, standing, same, below⟩ := view_branch.mp found
  obtain ⟨after, done, ok, rfl, rfl⟩ := effect node (sound.internals id node standing) same below
  exact onInternal_becomes sound standing change done ok

section Sink

variable [BTreeWalSink ω]

def exhausted (status : Status) : Prop :=
  status = Status.outOfMemory "BTree: failed to allocate leaf page" ∨
    status = Status.outOfMemory "BTree: failed to allocate internal page"

instance (status : Status) : Decidable (exhausted status) := inferInstanceAs (Decidable (_ ∨ _))

/-- A new leaf on a page where nothing lay. -/
theorem allocateLeaf_becomes (sound : tree.Sound) (level : UInt32) :
    (∃ status after, (allocateLeaf level).run tree = (.error (.status status), after) ∧ exhausted status) ∨
    ∃ id after, (allocateLeaf level).run tree = (.ok id, after) ∧ tree.view id = none ∧
      Becomes tree (Function.update tree.view id (some (.leaf []))) after := by
  have owned := (allocateLeaf_owned level).run sound.owned
  rcases takePage_cases sound.owned (Status.outOfMemory "BTree: failed to allocate leaf page") with
    ⟨space, failed, -⟩ | ⟨id, space, done, taken, -⟩
  · exact .inl ⟨_, _, run_bind_error failed, .inl rfl⟩
  · have ran : (allocateLeaf level).run tree = (.ok id, { tree with
        space := space
        leaves := tree.leaves.insert id (LeafNode.create id { tree.config with level := level }) }) := by
      rw [allocateLeaf, run_bind_ok done, run_bind_ok run_read, if_neg taken.leaves, run_bind_ok (run_update _)]
      exact run_bind_ok (notify_silent (by exact sound.silent) _)
    have away : tree.view id = none := by
      rw [← Option.not_isSome_iff_eq_none, view_isSome]
      exact not_or.mpr ⟨taken.leaves, taken.internals⟩
    have moved : ({ tree with space := space } : BTree ω).Sound := ⟨taken.owned, sound.leaves, sound.internals, sound.silent⟩
    rw [ran] at owned
    obtain ⟨final, config, rootId, size, height, heap⟩ := moved.setLeaf (LeafNode.create_ok id tree.config level) owned
    exact .inr ⟨id, _, ran, away, final, config, rootId, size, height, heap⟩

theorem allocateInternal_becomes (sound : tree.Sound) (level : UInt32) :
    (∃ status after, (allocateInternal level).run tree = (.error (.status status), after) ∧ exhausted status) ∨
    ∃ id after, (allocateInternal level).run tree = (.ok id, after) ∧ tree.view id = none ∧
      Becomes tree (Function.update tree.view id (some (.branch [] [kInvalidPageId]))) after := by
  have owned := (allocateInternal_owned level).run sound.owned
  rcases takePage_cases sound.owned (Status.outOfMemory "BTree: failed to allocate internal page") with
    ⟨space, failed, -⟩ | ⟨id, space, done, taken, -⟩
  · exact .inl ⟨_, _, run_bind_error failed, .inr rfl⟩
  · have ran : (allocateInternal level).run tree = (.ok id, { tree with
        space := space
        internals := tree.internals.insert id (InternalNode.create id { tree.config with level := level }) }) := by
      rw [allocateInternal, run_bind_ok done, run_bind_ok run_read, if_neg taken.internals, run_bind_ok (run_update _)]
      exact run_bind_ok (notify_silent (by exact sound.silent) _)
    have away : tree.view id = none := by
      rw [← Option.not_isSome_iff_eq_none, view_isSome]
      exact not_or.mpr ⟨taken.leaves, taken.internals⟩
    have moved : ({ tree with space := space } : BTree ω).Sound := ⟨taken.owned, sound.leaves, sound.internals, sound.silent⟩
    rw [ran] at owned
    obtain ⟨final, config, rootId, size, height, heap⟩ :=
      moved.setInternal (InternalNode.create_ok id tree.config level) taken.leaves owned
    exact .inr ⟨id, _, ran, away, final, config, rootId, size, height, heap⟩

/-- A node that is released leaves its page empty. -/
theorem releaseNode_becomes (sound : tree.Sound) (id : PageId) :
    ∃ after, (releaseNode id).run tree = (.ok (), after) ∧ Becomes tree (Function.update tree.view id none) after := by
  obtain ⟨sink, quiet, ran⟩ := releaseNode_run id tree
  have owned := (releaseNode_owned id).run sound.owned
  rw [ran] at owned
  refine ⟨_, ran, ⟨owned, fun other leaf found => ?_, fun other node found => ?_, quiet sound.silent⟩, rfl, rfl, rfl, rfl, ?_⟩
  · refine sound.leaves other leaf ?_
    by_cases live : id ∈ tree.leaves
    · simp only [live, if_true] at found
      rcases eq_or_ne other id with rfl | same
      · simp at found
      · rwa [AList.lookup_erase_ne same] at found
    · simpa only [live, if_false] using found
  · refine sound.internals other node ?_
    by_cases live : id ∈ tree.leaves
    · simpa only [live, if_true] using found
    · simp only [live, if_false] at found
      rcases eq_or_ne other id with rfl | same
      · simp at found
      · rwa [AList.lookup_erase_ne same] at found
  · funext other
    by_cases live : id ∈ tree.leaves
    · rcases eq_or_ne other id with rfl | same
      · simp [view, live, AList.lookup_eq_none.mpr (sound.owned.apart other live)]
      · simp [view, live, Function.update_of_ne same, AList.lookup_erase_ne same]
    · rcases eq_or_ne other id with rfl | same
      · simp [view, live, AList.lookup_eq_none.mpr live]
      · simp [view, live, Function.update_of_ne same, AList.lookup_erase_ne same]

end Sink
end TreeM
end Quartz.Btree
