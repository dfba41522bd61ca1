import Quartz.Proofs.UnderflowRepairs

/-! Erasures keep the shape of the tree: keys that move between neighbours stay in their order,
a merge of leaves loses the key between them, and every call that fails leaves a tree behind. -/

namespace Quartz.Btree
open Storage Format TreeM Fallible HeapTree BTree

variable {ω : Type} {tree : BTree ω} {top height index : Nat} {order : List Key}
  {parentId firstId secondId : PageId} {path : List (PageId × Nat)} {separator : Key}
  {leftKeys rightKeys before after : List Key} {left right outside : List PageId}

namespace BTree

/-- The tree has become a sound one that carries these keys from left to right. -/
structure Carries (tree : BTree ω) (order : List Key) (after : BTree ω) : Prop where
  sound : after.Sound
  config : after.config = tree.config
  shape : ∃ top, after.Shape top order

theorem Shape.carries (shape : tree.Shape top order) (sound : tree.Sound) : tree.Carries order tree :=
  ⟨sound, rfl, ⟨top, shape⟩⟩

/-- Another heap at the same root that holds the same keys in the same nodes. -/
theorem Becomes.carries {heap : PageId → Option (Node PageId Key)} {next : BTree ω} (becomes : Becomes tree heap next)
    (shape : tree.Shape top order)
    (same : Tree heap top tree.rootId ∧ inorder heap top tree.rootId = inorder tree.view top tree.rootId ∧
      (ids heap top tree.rootId).Perm (ids tree.view top tree.rootId)) : tree.Carries order next := by
  obtain ⟨sound, config, rootId, -, -, rfl⟩ := becomes
  obtain ⟨whole, keys, nodes⟩ := same
  rw [← rootId] at whole keys nodes
  exact ⟨sound, config, ⟨top, whole, nodes.nodup_iff.mpr (rootId ▸ shape.distinct), keys.trans (rootId ▸ shape.order)⟩⟩

theorem Shape.collapse [BTreeWalSink ω] (shape : tree.Shape top order) (sound : tree.Sound) {child : PageId}
    (found : tree.view tree.rootId = some (.branch [] [child])) :
    ∃ next, (releaseNode tree.rootId).run tree = (.ok (), next) ∧
      ∀ height, tree.Carries order { next with rootId := child, height := height } := by
  obtain ⟨next, released, becomes⟩ := releaseNode_becomes sound tree.rootId
  obtain ⟨grown, distinct, keys⟩ := shape
  cases top with
  | zero =>
    obtain ⟨_, leaf⟩ := grown
    cases found.symm.trans leaf
  | succ top =>
    have subtree : Tree tree.view top child := ((tree_branch found).mp grown).2 child (by simp)
    rw [ids_branch found, List.nodup_cons] at distinct
    obtain ⟨away, distinct⟩ := distinct
    obtain ⟨kept, nodes, order'⟩ := subtree.frame next.view fun other member => by
      rw [becomes.view, Function.update_of_ne]
      exact ne_of_mem_of_not_mem member (by simpa using away)
    refine ⟨next, released, fun height => ⟨becomes.sound.scalars child next.size height, becomes.config, ⟨top, kept, ?_, ?_⟩⟩⟩
    · exact nodes ▸ by simpa using distinct
    · rw [← keys, inorder_branch found, List.map_singleton, interleave_single]
      exact order'

end BTree

theorem LeafNode.eraseAt_between {config : BTreeNodeConfig} {leaf : LeafNode} (ok : LeafOk config leaf)
    {front back : List Key} {key : Key} (keys : leaf.keys = front ++ key :: back) (place : front.length = index) :
    ∃ after, leaf.eraseAt index = (Status.success, after) ∧ LeafOk config after ∧ after.keys = front ++ back := by
  obtain ⟨after, done, afterOk, afterKeys, -⟩ := LeafNode.eraseAt_ok ok
    (show index < leaf.keys.length by simp [keys, ← place])
  refine ⟨after, done, afterOk, ?_⟩
  rw [afterKeys, keys, ← place, List.eraseIdx_append_of_length_le (Nat.le_refl _), Nat.sub_self]
  rfl

namespace Rebalance

theorem setParentKey_view (sound : tree.Sound) {children : List PageId} (place : leftKeys.length = index) {key : Key}
    (found : tree.view parentId = some (.branch (leftKeys ++ ([separator] ++ rightKeys)) children))
    (matching : key.Matches tree.config) :
    ∃ next, (setParentKey parentId index key).run tree = (.ok (), next) ∧
      Becomes tree (Function.update tree.view parentId (some (.branch (leftKeys ++ ([key] ++ rightKeys)) children))) next := by
  refine onInternal_view sound found _ fun node ok keys below => ?_
  have inside : index < node.keys.length := by
    simp only [keys, List.length_append, List.length_cons]
    omega
  obtain ⟨after, done, afterOk, afterKeys, afterChildren⟩ := InternalNode.setKeyAt_ok ok inside matching
  refine ⟨after, done, afterOk, ?_, by rw [afterChildren, below]⟩
  rw [afterKeys, keys, ← place, List.set_append_right _ _ (Nat.le_refl _), Nat.sub_self]
  rfl

theorem separator_read
    (pair : Pair tree.view top tree.rootId path height parentId index firstId secondId separator leftKeys rightKeys before
      after left right outside) :
    ∃ parent, tree.internals.lookup parentId = some parent ∧ parent.keys[index]? = some separator := by
  obtain ⟨-, parent, standing, keys, -⟩ := view_branch.mp pair.found
  refine ⟨parent, standing, ?_⟩
  rw [keys, ← pair.index, pair.front]
  simp

theorem update_three {heap : PageId → Option (Node PageId Key)} {first second third : PageId}
    {one two three : Option (Node PageId Key)} (apart : first ≠ second) (away : first ≠ third) (different : second ≠ third) :
    let heap' := Function.update (Function.update (Function.update heap first one) second two) third three
    heap' first = one ∧ heap' second = two ∧ heap' third = three ∧
      ∀ other, other ≠ first → other ≠ second → other ≠ third → heap' other = heap other := by
  refine ⟨?_, ?_, Function.update_self _ _ _, fun other no1 no2 no3 => ?_⟩
  · simp [Function.update_of_ne away, Function.update_of_ne apart]
  · simp [Function.update_of_ne different]
  · simp [Function.update_of_ne no1, Function.update_of_ne no2, Function.update_of_ne no3]

section Borrowing

variable (sound : tree.Sound) (shape : tree.Shape top order)

/-- One neighbour gives a key up, and the other takes the key between them. -/
theorem writes_become
    (pair : Pair tree.view top tree.rootId path height parentId index firstId secondId separator leftKeys rightKeys before
      after left right outside) {donorId takerId : PageId} (donor : parentId ≠ donorId) (taker : parentId ≠ takerId)
    (different : donorId ≠ takerId) {gives takes : TreeM ω Unit} {given taken : Node PageId Key} {key : Key}
    (matching : key.Matches tree.config)
    (first : ∃ one, gives.run tree = (.ok (), one) ∧ Becomes tree (Function.update tree.view donorId (some given)) one)
    (last : ∀ two : BTree ω, two.Sound → two.config = tree.config → two.view takerId = tree.view takerId →
      ∃ three, takes.run two = (.ok (), three) ∧ Becomes two (Function.update two.view takerId (some taken)) three) :
    ∃ next heap, (gives >>= fun _ => setParentKey parentId index key >>= fun _ => takes).run tree = (.ok (), next) ∧
      Becomes tree heap next ∧ heap donorId = some given ∧
      heap parentId = some (.branch (leftKeys ++ ([key] ++ rightKeys)) (left ++ ([firstId, secondId] ++ right))) ∧
      heap takerId = some taken ∧ ∀ other, other ≠ donorId → other ≠ parentId → other ≠ takerId → heap other = tree.view other := by
  obtain ⟨one, erased, begun⟩ := first
  obtain ⟨two, replaced, continued⟩ := @setParentKey_view _ one index parentId separator leftKeys rightKeys begun.sound _
    (pair.front.symm.trans pair.index) key (by rw [begun.view, Function.update_of_ne donor]; exact pair.found)
    (begun.config ▸ matching)
  obtain ⟨three, ran, ended⟩ := last two continued.sound (continued.config.trans begun.config)
    (by rw [continued.view, Function.update_of_ne taker.symm, begun.view, Function.update_of_ne different.symm])
  rw [continued.view, begun.view] at ended
  refine ⟨three, _, ?_, (begun.trans continued).trans ended, update_three donor.symm different taker⟩
  rw [run_bind_ok erased, run_bind_ok replaced, ran]

include sound shape

theorem borrowFromLeftLeaf_carries
    (pair : Pair tree.view top tree.rootId path 0 parentId (index - 1) firstId secondId separator leftKeys rightKeys before
      after left right outside) {firstKeys secondKeys : List Key} {key : Key}
    (firstFound : tree.view firstId = some (.leaf (firstKeys ++ [key])))
    (secondFound : tree.view secondId = some (.leaf secondKeys))
    (roomy : secondKeys.length < computeCapacity tree.config .leaf) :
    ∃ next, (borrowFromLeftLeaf parentId index firstId secondId).run tree = (.ok (), next) ∧ tree.Carries order next := by
  obtain ⟨parent, parentHere, between⟩ := separator_read pair
  obtain ⟨parentFirst, parentSecond, different⟩ := pair.different shape.distinct
  obtain ⟨first, standing, keys⟩ := view_leaf.mp firstFound
  have ok := sound.leaves firstId first standing
  have count : first.keyCount - 1 = firstKeys.length := by simp [ok.count, keys]
  obtain ⟨ref, refRead⟩ : ∃ ref, first.refs[first.keyCount - 1]? = some ref :=
    ⟨_, List.getElem?_eq_getElem (by simp [count, ok.refs, keys])⟩
  obtain ⟨next, heap, ran, becomes, firstNow, parentNow, secondNow, off⟩ := writes_become pair parentFirst parentSecond
    different (sound.leafKeys firstFound key (by simp))
    (onLeaf_view sound firstFound (fun left => left.eraseAt (left.keyCount - 1)) fun leaf ok keys =>
      LeafNode.eraseAt_between ok keys (by simp [ok.count, keys]))
    fun two twoSound config same => onLeaf_view twoSound (same.trans secondFound)
      (fun node => node.assignEntries (separator :: node.keys) (ref :: node.refs)) fun leaf ok keys => by
        obtain ⟨after, done, afterOk, afterKeys, -⟩ := LeafNode.assignEntries_ok ok (separator :: leaf.keys) (ref :: leaf.refs)
          (by simp [ok.refs]) (by rw [keys, config]; exact roomy)
          (List.forall_mem_cons.mpr ⟨by rw [config]; exact sound.branchKeys pair.found separator (by simp), ok.matching⟩)
        exact ⟨after, done, afterOk, by rw [afterKeys, keys]⟩
  have away := fun other noParent noFirst noSecond => off other noFirst noParent noSecond
  refine ⟨next, ?_, becomes.carries shape (pair.rotate_leaves shape.distinct away parentNow firstFound secondFound firstNow
    secondNow (by simp))⟩
  rw [borrowFromLeftLeaf, run_bind_ok (internal_found parentHere), run_bind_ok (ofOption_run between _),
    run_bind_ok (leaf_found standing), run_bind_ok (ofOption_run (show _ = some key by simp [count, keys]) _),
    run_bind_ok (ofOption_run refRead _), ran]

theorem borrowFromRightLeaf_carries
    (pair : Pair tree.view top tree.rootId path 0 parentId index firstId secondId separator leftKeys rightKeys before
      after left right outside) {firstKeys secondKeys : List Key} {key : Key}
    (firstFound : tree.view firstId = some (.leaf firstKeys))
    (secondFound : tree.view secondId = some (.leaf (key :: secondKeys)))
    (roomy : firstKeys.length < computeCapacity tree.config .leaf) :
    ∃ next, (borrowFromRightLeaf parentId index firstId secondId).run tree = (.ok (), next) ∧ tree.Carries order next := by
  obtain ⟨parent, parentHere, between⟩ := separator_read pair
  obtain ⟨parentFirst, parentSecond, different⟩ := pair.different shape.distinct
  obtain ⟨second, standing, keys⟩ := view_leaf.mp secondFound
  have ok := sound.leaves secondId second standing
  obtain ⟨ref, refRead⟩ : ∃ ref, second.refs[0]? = some ref := ⟨_, List.getElem?_eq_getElem (by simp [ok.refs, keys])⟩
  obtain ⟨next, heap, ran, becomes, secondNow, parentNow, firstNow, off⟩ := writes_become pair parentSecond parentFirst
    different.symm (sound.leafKeys secondFound key (by simp))
    (onLeaf_view sound secondFound (fun right => right.eraseAt 0) fun leaf ok keys =>
      LeafNode.eraseAt_between ok (show leaf.keys = [] ++ key :: secondKeys from keys) rfl)
    fun two twoSound config same => onLeaf_view twoSound (same.trans firstFound)
      (fun node => node.assignEntries (node.keys ++ [separator]) (node.refs ++ [ref])) fun leaf ok keys => by
        obtain ⟨after, done, afterOk, afterKeys, -⟩ := LeafNode.assignEntries_ok ok (leaf.keys ++ [separator]) (leaf.refs ++ [ref])
          (by simp [ok.refs]) (by rw [keys, config, List.length_append]; exact roomy)
          (List.forall_mem_append.mpr ⟨ok.matching, by simpa [config] using sound.branchKeys pair.found separator (by simp)⟩)
        exact ⟨after, done, afterOk, by rw [afterKeys, keys]⟩
  have away := fun other noParent noFirst noSecond => off other noSecond noParent noFirst
  refine ⟨next, ?_, becomes.carries shape (pair.rotate_leaves shape.distinct away parentNow firstFound secondFound firstNow
    secondNow (by simp))⟩
  rw [borrowFromRightLeaf, run_bind_ok (internal_found parentHere), run_bind_ok (ofOption_run between _),
    run_bind_ok (leaf_found standing), run_bind_ok (ofOption_run (show second.keys[0]? = some key by simp [keys]) _),
    run_bind_ok (ofOption_run refRead _), ran]

theorem borrowFromLeftInternal_turns
    (pair : Pair tree.view top tree.rootId path (height + 1) parentId (index - 1) firstId secondId separator leftKeys
      rightKeys before after left right outside) {firstKeys secondKeys : List Key} {key : Key}
    {firstChildren secondChildren : List PageId} {child : PageId}
    (firstFound : tree.view firstId = some (.branch (firstKeys ++ [key]) (firstChildren ++ [child])))
    (secondFound : tree.view secondId = some (.branch secondKeys secondChildren))
    (roomy : secondKeys.length < computeCapacity tree.config .internal) :
    ∃ next, (borrowFromLeftInternal parentId index firstId secondId).run tree = (.ok (), next) ∧ Becomes tree next.view next ∧
      Turned tree.view next.view parentId firstId secondId leftKeys rightKeys left right separator key (firstKeys ++ [key])
        secondKeys firstKeys (separator :: secondKeys) (firstChildren ++ [child]) secondChildren firstChildren
        (child :: secondChildren) := by
  obtain ⟨parent, parentHere, between⟩ := separator_read pair
  obtain ⟨parentFirst, parentSecond, different⟩ := pair.different shape.distinct
  obtain ⟨-, first, standing, keys, row⟩ := view_branch.mp firstFound
  have ok := sound.internals firstId first standing
  have firstCount : firstChildren.length = firstKeys.length + 1 := by simpa using ((tree_branch firstFound).mp pair.first).1
  have secondCount := ((tree_branch secondFound).mp pair.second).1
  obtain ⟨children, _, childrenParts, rfl, single⟩ := List.map_eq_append_iff.mp row
  obtain ⟨ref, rfl, rfl⟩ := List.map_eq_singleton_iff.mp single
  obtain ⟨next, heap, ran, becomes, firstNow, parentNow, secondNow, off⟩ := writes_become pair parentFirst parentSecond
    different (sound.branchKeys firstFound key (by simp))
    (onInternal_view sound firstFound (fun left => left.assignEntries left.keys.dropLast left.children.dropLast)
      fun node ok keys row => by
        obtain ⟨after, done, afterOk, afterKeys, afterChildren⟩ := InternalNode.assignEntries_ok ok node.keys.dropLast
          node.children.dropLast (by simp [ok.children, keys]) (Nat.le_trans (by simp) ok.room)
          fun other member => ok.matching other (List.mem_of_mem_dropLast member)
        exact ⟨after, done, afterOk, by simp [afterKeys, keys]; rfl, by simp [afterChildren, List.map_dropLast, row]; rfl⟩)
    fun two twoSound config same => onInternal_view twoSound (same.trans secondFound)
      (fun node => node.assignEntries (separator :: node.keys) (ref :: node.children)) fun node ok keys row => by
        obtain ⟨after, done, afterOk, afterKeys, afterChildren⟩ := InternalNode.assignEntries_ok ok (separator :: node.keys)
          (ref :: node.children) (by simp [ok.children]) (by rw [keys, config]; exact roomy)
          (List.forall_mem_cons.mpr ⟨by rw [config]; exact sound.branchKeys pair.found separator (by simp), ok.matching⟩)
        exact ⟨after, done, afterOk, by rw [afterKeys, keys], by rw [afterChildren, List.map_cons, row]⟩
  obtain rfl := becomes.view
  refine ⟨next, ?_, becomes, fun other noParent noFirst noSecond => off other noFirst noParent noSecond, parentNow, firstFound,
    secondFound, firstNow, secondNow, firstCount, by simp [secondCount], by simp, by simp⟩
  rw [borrowFromLeftInternal_run parentHere standing between ok.count keys childrenParts (by simpa using firstCount), ran]

theorem borrowFromRightInternal_turns
    (pair : Pair tree.view top tree.rootId path (height + 1) parentId index firstId secondId separator leftKeys
      rightKeys before after left right outside) {firstKeys secondKeys : List Key} {key : Key}
    {firstChildren secondChildren : List PageId} {child : PageId}
    (firstFound : tree.view firstId = some (.branch firstKeys firstChildren))
    (secondFound : tree.view secondId = some (.branch (key :: secondKeys) (child :: secondChildren)))
    (roomy : firstKeys.length < computeCapacity tree.config .internal) :
    ∃ next, (borrowFromRightInternal parentId index firstId secondId).run tree = (.ok (), next) ∧ Becomes tree next.view next ∧
      Turned tree.view next.view parentId firstId secondId leftKeys rightKeys left right separator key firstKeys
        (key :: secondKeys) (firstKeys ++ [separator]) secondKeys firstChildren (child :: secondChildren)
        (firstChildren ++ [child]) secondChildren := by
  obtain ⟨parent, parentHere, between⟩ := separator_read pair
  obtain ⟨parentFirst, parentSecond, different⟩ := pair.different shape.distinct
  obtain ⟨-, second, standing, keys, row⟩ := view_branch.mp secondFound
  have firstCount := ((tree_branch firstFound).mp pair.first).1
  have secondCount : secondChildren.length = secondKeys.length + 1 := by simpa using ((tree_branch secondFound).mp pair.second).1
  obtain ⟨ref, children, childrenParts, rfl, rfl⟩ := List.map_eq_cons_iff.mp row
  obtain ⟨next, heap, ran, becomes, secondNow, parentNow, firstNow, off⟩ := writes_become pair parentSecond parentFirst
    different.symm (sound.branchKeys secondFound key (by simp))
    (onInternal_view sound secondFound (fun right => right.assignEntries right.keys.tail right.children.tail)
      fun node ok keys row => by
        obtain ⟨after, done, afterOk, afterKeys, afterChildren⟩ := InternalNode.assignEntries_ok ok node.keys.tail
          node.children.tail (by simp [ok.children, keys]) (Nat.le_trans (by simp) ok.room)
          fun other member => ok.matching other (List.mem_of_mem_tail member)
        exact ⟨after, done, afterOk, by simp [afterKeys, keys]; rfl, by simp [afterChildren, List.map_tail, row]; rfl⟩)
    fun two twoSound config same => onInternal_view twoSound (same.trans firstFound)
      (fun node => node.assignEntries (node.keys ++ [separator]) (node.children ++ [ref])) fun node ok keys row => by
        obtain ⟨after, done, afterOk, afterKeys, afterChildren⟩ := InternalNode.assignEntries_ok ok (node.keys ++ [separator])
          (node.children ++ [ref]) (by simp [ok.children]) (by rw [keys, config, List.length_append]; exact roomy)
          (List.forall_mem_append.mpr ⟨ok.matching, by simpa [config] using sound.branchKeys pair.found separator (by simp)⟩)
        exact ⟨after, done, afterOk, by rw [afterKeys, keys], by simp [afterChildren, row]; rfl⟩
  obtain rfl := becomes.view
  refine ⟨next, ?_, becomes, fun other noParent noFirst noSecond => off other noSecond noParent noFirst, parentNow, firstFound,
    secondFound, firstNow, secondNow, by simp [firstCount], secondCount, by simp, by simp⟩
  rw [borrowFromRightInternal_run parentHere standing between keys childrenParts, ran]

end Borrowing

theorem borrowFromLeftInternal_leaves {leaves : AList fun _ : PageId => LeafNode} (parentId : PageId) (childIndex : Nat)
    (leftId nodeId : PageId) :
    Keeps (fun tree : BTree ω => tree.leaves = leaves) (borrowFromLeftInternal parentId childIndex leftId nodeId) :=
  keeps_bind (internal_keeps _) fun _ => keeps_bind (ofOption_keeps _) fun _ => keeps_bind (internal_keeps _) fun _ =>
    keeps_bind (ofOption_keeps _) fun _ => keeps_bind (ofOption_keeps _) fun _ => keeps_bind (onInternal_leaves _ _) fun _ =>
    keeps_bind (onInternal_leaves _ _) fun _ => onInternal_leaves _ _

theorem borrowFromRightInternal_leaves {leaves : AList fun _ : PageId => LeafNode} (parentId : PageId) (childIndex : Nat)
    (nodeId rightId : PageId) :
    Keeps (fun tree : BTree ω => tree.leaves = leaves) (borrowFromRightInternal parentId childIndex nodeId rightId) :=
  keeps_bind (internal_keeps _) fun _ => keeps_bind (ofOption_keeps _) fun _ => keeps_bind (internal_keeps _) fun _ =>
    keeps_bind (ofOption_keeps _) fun _ => keeps_bind (ofOption_keeps _) fun _ => keeps_bind (onInternal_leaves _ _) fun _ =>
    keeps_bind (onInternal_leaves _ _) fun _ => onInternal_leaves _ _

section Merges

variable [BTreeWalSink ω]

/-- A merge of internal nodes is refused, because one child is missing. -/
theorem mergeInternals_refused (sound : tree.Sound) (shape : tree.Shape top order) {parent : InternalNode}
    {firstRef secondRef : PageReference} (standing : tree.internals.lookup parentId = some parent)
    (firstHere : parent.children[index]? = some firstRef) (secondHere : parent.children[index + 1]? = some secondRef)
    (between : parent.keys[index]? = some separator) (firstTree : Tree tree.view (height + 1) firstRef.pageId)
    (secondTree : Tree tree.view (height + 1) secondRef.pageId) (fix : TreeM ω Unit) :
    ∃ next, (mergeInternals parentId index fix).run tree =
        (.error (.status (Status.invalidArgument "InternalNode: child count mismatch")), next) ∧
      tree.Carries order next := by
  obtain ⟨firstKeys, firstChildren, firstFound, -⟩ := firstTree
  obtain ⟨secondKeys, secondChildren, secondFound, -⟩ := secondTree
  obtain ⟨-, first, firstStanding, rfl, rfl⟩ := view_branch.mp firstFound
  obtain ⟨-, second, secondStanding, rfl, rfl⟩ := view_branch.mp secondFound
  have firstOk := sound.internals _ first firstStanding
  have secondOk := sound.internals _ second secondStanding
  have refused := @InternalNode.assignEntries_mismatch (first.keys ++ separator :: second.keys)
    (first.children ++ second.children.tail) first (by
      simp only [List.length_append, List.length_tail, List.length_cons, firstOk.children, secondOk.children]
      omega)
  obtain ⟨next, failed, becomes⟩ := onInternal_refused sound firstStanding
    (fun _ => first.assignEntries (first.keys ++ separator :: second.keys) (first.children ++ second.children.tail)) refused rfl
  refine ⟨next, ?_, becomes.carries shape ⟨shape.grown, rfl, List.Perm.refl _⟩⟩
  rw [mergeInternals, run_bind_ok (internal_found standing), run_bind_ok (ofOption_run firstHere _),
    run_bind_ok (internal_found firstStanding), run_bind_ok (ofOption_run secondHere _),
    run_bind_ok (internal_found secondStanding), run_bind_ok (ofOption_run between _)]
  exact run_bind_error failed

theorem mergeInternals_alone {parent : InternalNode} (standing : tree.internals.lookup parentId = some parent)
    (alone : parent.children[index + 1]? = none) (fix : TreeM ω Unit) :
    ∃ failure, (mergeInternals parentId index fix).run tree = (.error failure, tree) := by
  rw [mergeInternals, run_bind_ok (internal_found standing)]
  cases parent.children[index]? with
  | none => exact ⟨_, rfl⟩
  | some ref =>
    rw [run_bind_ok (ofOption_run rfl _), run_bind, internal_run]
    cases tree.internals.lookup ref.pageId with
    | none => exact ⟨_, rfl⟩
    | some first =>
      simp only [alone]
      exact ⟨_, rfl⟩

omit [BTreeWalSink ω] in
/-- The parent of a node, with the node among its children. -/
theorem parent_of_within (sound : tree.Sound) {frame : SearchPathEntry} {rest : List SearchPathEntry} {nodeId : PageId}
    (within : Within tree.view top tree.rootId (places (frame :: rest)) height nodeId before after outside)
    (subtree : Tree tree.view height nodeId) :
    ∃ parent nodeRef before after outside, tree.internals.lookup frame.pageId = some parent ∧
      InternalOk tree.config parent ∧ parent.children[frame.childIndex]? = some nodeRef ∧ nodeRef.pageId = nodeId ∧
      Within tree.view top tree.rootId (places rest) (height + 1) frame.pageId before after outside ∧
      tree.view frame.pageId = some (.branch parent.keys (parent.children.map (·.pageId))) ∧
      Tree tree.view (height + 1) frame.pageId := by
  obtain ⟨_, _, before, after, outside, above, found, grown, here⟩ := Within.branch within subtree
  obtain ⟨-, parent, standing, rfl, rfl⟩ := view_branch.mp found
  obtain ⟨nodeRef, nodeHere, same⟩ := Option.map_eq_some_iff.mp (List.getElem?_map ▸ here)
  exact ⟨parent, nodeRef, before, after, outside, standing, sound.internals _ parent standing, nodeHere, same, above, found, grown⟩

/-- What becomes of an internal node with too few keys: it turns keys with a neighbour, or the repair fails. -/
inductive InternalFixed (tree : BTree ω) (top : Nat) (order : List Key) (frame : SearchPathEntry) (nodeId : PageId) (count : Nat) :
    Except Failure Unit × BTree ω → Prop
  | turned {next : BTree ω} {height index : Nat} {path : List (PageId × Nat)} {firstId secondId : PageId} {separator separator' : Key}
      {leftKeys rightKeys before after firstKeys secondKeys firstKeys' secondKeys' : List Key}
      {left right outside firstChildren secondChildren firstChildren' secondChildren' : List PageId}
      (lends : tree.Lends tree.internalNode frame) (either : nodeId = firstId ∨ nodeId = secondId)
      (pair : Pair tree.view top tree.rootId path (height + 1) frame.pageId index firstId secondId separator leftKeys rightKeys
        before after left right outside) (becomes : Becomes tree next.view next) (leaves : next.leaves = tree.leaves)
      (turned : Turned tree.view next.view frame.pageId firstId secondId leftKeys rightKeys left right separator separator'
        firstKeys secondKeys firstKeys' secondKeys' firstChildren secondChildren firstChildren' secondChildren')
      (filled : computeCapacity tree.config .internal / 2 ≤ count + 1 →
        computeCapacity tree.config .internal / 2 ≤ firstKeys'.length ∧ computeCapacity tree.config .internal / 2 ≤ secondKeys'.length) :
      InternalFixed tree top order frame nodeId count (.ok (), next)
  | refused {failure : Failure} {next : BTree ω} (poor : ¬ tree.Lends tree.internalNode frame) (carries : tree.Carries order next) :
      InternalFixed tree top order frame nodeId count (.error failure, next)

/-- The way up from an internal node with too few keys. -/
theorem fixInternalUnderflow_cases (sound : tree.Sound) (shape : tree.Shape top order) {frame : SearchPathEntry}
    {rest : List SearchPathEntry} {nodeId : PageId} {keys : List Key} {children : List PageId} {before after : List Key}
    {outside : List PageId}
    (within : Within tree.view top tree.rootId (places (frame :: rest)) (height + 1) nodeId before after outside)
    (subtree : Tree tree.view (height + 1) nodeId) (found : tree.view nodeId = some (.branch keys children))
    (roomy : keys.length < computeCapacity tree.config .internal) :
    InternalFixed tree top order frame nodeId keys.length ((fixInternalUnderflow (frame :: rest) nodeId).run tree) := by
  obtain ⟨parent, nodeRef, _, _, _, standing, ok, nodeHere, rfl, above, parentFound, grown⟩ :=
    parent_of_within sound within subtree
  have inside := (List.getElem?_eq_some_iff.mp nodeHere).1
  have rich : ∀ {place : Nat} {ref : PageReference} {keys : List Key} {children : List PageId},
      parent.children[place]? = some ref → tree.view ref.pageId = some (.branch keys children) →
      HasSpare tree.internalNode parent place → computeCapacity tree.config .internal / 2 < keys.length := by
    intro place ref keys children here found spares
    obtain ⟨-, sibling, siblingHere, rfl, -⟩ := view_branch.mp found
    have siblingOk := sound.internals _ sibling siblingHere
    rwa [hasSpare_iff here (show tree.internalNode ref.pageId = some sibling.toBTreeNode by rw [internalNode, siblingHere]; rfl),
      siblingOk.count, siblingOk.page.capacity] at spares
  have repairs := @fixInternalUnderflow_repairs _ tree parent frame _ rest nodeRef.pageId standing
    (ok.children.trans (by rw [ok.count])) inside fun ref member => by
      obtain ⟨_, _, found, -⟩ := ((tree_branch parentFound).mp grown).2 _ (List.mem_map_of_mem member)
      obtain ⟨-, sibling, siblingHere, -⟩ := view_branch.mp found
      exact ⟨sibling, siblingHere⟩
  generalize (fixInternalUnderflow (frame :: rest) nodeRef.pageId).run tree = outcome at repairs
  cases repairs with
  | left later here spares =>
    obtain ⟨separator, _, _, _, _, -, pair⟩ := pair_of_refs above grown parentFound here (by rwa [Nat.sub_add_cancel later])
    obtain ⟨siblingKeys, siblingChildren, siblingFound, count, -⟩ := pair.first
    have spare := rich here siblingFound spares
    obtain ⟨siblingKeys, key, rfl⟩ := concat_of_pos (Nat.zero_lt_of_lt spare)
    obtain ⟨siblingChildren, child, rfl⟩ := concat_of_pos (Nat.lt_of_lt_of_eq (Nat.succ_pos _) count.symm)
    obtain ⟨next, ran, becomes, turned⟩ := borrowFromLeftInternal_turns sound shape pair siblingFound found roomy
    rw [List.length_append, List.length_singleton] at spare
    rw [ran]
    exact .turned ⟨parent, standing, .inl ⟨later, spares⟩⟩ (.inr rfl) pair becomes
      (leaves_kept (fun _ => borrowFromLeftInternal_leaves _ _ _ _) ran) turned fun enough => ⟨Nat.le_of_lt_succ spare, enough⟩
  | right _ earlier here spares =>
    obtain ⟨separator, _, _, _, _, -, pair⟩ := pair_of_refs above grown parentFound nodeHere here
    obtain ⟨siblingKeys, siblingChildren, siblingFound, count, -⟩ := pair.second
    have spare := rich here siblingFound spares
    obtain ⟨key, siblingKeys, rfl⟩ := List.exists_cons_of_length_pos (Nat.zero_lt_of_lt spare)
    obtain ⟨child, siblingChildren, rfl⟩ := List.exists_cons_of_length_pos (Nat.lt_of_lt_of_eq (Nat.succ_pos _) count.symm)
    obtain ⟨next, ran, becomes, turned⟩ := borrowFromRightInternal_turns sound shape pair found siblingFound roomy
    rw [ran]
    refine .turned ⟨parent, standing, .inr ⟨earlier, spares⟩⟩ (.inl rfl) pair becomes
      (leaves_kept (fun _ => borrowFromRightInternal_leaves _ _ _ _) ran) turned fun enough => ⟨?_, Nat.le_of_lt_succ spare⟩
    rwa [List.length_append, List.length_singleton]
  | merge poor =>
    -- no sibling has a key to give, and a merge is refused
    generalize place : (if frame.childIndex > 0 then frame.childIndex - 1 else frame.childIndex) = first
    have low : first < parent.children.length := by
      split at place <;> omega
    cases secondHere : parent.children[first + 1]? with
    | none =>
      obtain ⟨failure, ran⟩ := mergeInternals_alone standing secondHere (fixInternalUnderflow rest frame.pageId)
      rw [ran]
      exact .refused poor (shape.carries sound)
    | some secondRef =>
      have firstHere := List.getElem?_eq_getElem low
      obtain ⟨separator, _, _, _, _, between, pair⟩ := pair_of_refs above grown parentFound firstHere secondHere
      obtain ⟨next, ran, carries⟩ := mergeInternals_refused sound shape standing firstHere secondHere between pair.first
        pair.second (fixInternalUnderflow rest frame.pageId)
      rw [ran]
      exact .refused poor carries

theorem fixInternalUnderflow_carries (sound : tree.Sound) (shape : tree.Shape top order) {path : List SearchPathEntry}
    {nodeId : PageId} {keys : List Key} {children : List PageId} {before after : List Key} {outside : List PageId}
    (within : Within tree.view top tree.rootId (places path) (height + 1) nodeId before after outside)
    (subtree : Tree tree.view (height + 1) nodeId) (found : tree.view nodeId = some (.branch keys children))
    (roomy : keys.length < computeCapacity tree.config .internal) :
    tree.Carries order ((fixInternalUnderflow path nodeId).run tree).2 := by
  cases path with
  | nil => exact shape.carries sound
  | cons frame rest =>
    have fixed := fixInternalUnderflow_cases sound shape within subtree found roomy
    generalize (fixInternalUnderflow (frame :: rest) nodeId).run tree = outcome at fixed ⊢
    cases fixed with
    | turned _ _ pair becomes _ turned => exact becomes.carries shape (pair.rotate_branches shape.distinct turned)
    | refused _ carries => exact carries

theorem lt_of_isUnderfull {count capacity : Nat} {isRoot : Bool} (under : isUnderfull count capacity isRoot = true) :
    count < capacity := by
  have small : count < capacity / 2 := of_decide_eq_true (Bool.and_eq_true_iff.mp under).2
  exact Nat.lt_of_lt_of_le small (Nat.div_le_self _ _)

theorem finishMerge_carries (sound : tree.Sound) {rest : List SearchPathEntry} (front : left.length = leftKeys.length)
    (place : left.length = index) (different : parentId ≠ secondId)
    (found : tree.view parentId = some (.branch (leftKeys ++ ([separator] ++ rightKeys)) (left ++ ([firstId, secondId] ++ right))))
    {heap : PageId → Option (Node PageId Key)}
    (joined : Function.update (Function.update tree.view parentId
      (some (.branch (leftKeys ++ rightKeys) (left ++ firstId :: right)))) secondId none = heap)
    (whole : Tree heap top tree.rootId) (distinct : (ids heap top tree.rootId).Nodup)
    (order' : inorder heap top tree.rootId = order)
    (within : Within heap top tree.rootId (places rest) (height + 1) parentId before after outside)
    (subtree : Tree heap (height + 1) parentId) :
    tree.Carries order ((finishMerge parentId index firstId secondId (fixInternalUnderflow rest parentId)).run tree).2 := by
  obtain ⟨one, erased, begun⟩ := @onInternal_view _ tree parentId sound _ (leftKeys ++ rightKeys) _ (left ++ firstId :: right)
    found (fun parent => parent.eraseAt index) fun node ok keys row => by
      obtain ⟨after, done, afterOk, afterKeys, afterChildren⟩ := InternalNode.eraseAt_ok ok
        (show index < node.keys.length by simp [keys, ← place, front])
      refine ⟨after, done, afterOk, ?_, ?_⟩
      · rw [afterKeys, keys, ← place, front, List.eraseIdx_append_of_length_le (Nat.le_refl _), Nat.sub_self]
        rfl
      · rw [afterChildren, ← List.eraseIdx_map, row, ← place, List.eraseIdx_append_of_length_le (by omega), Nat.add_sub_cancel_left]
        rfl
  obtain ⟨two, released, ended⟩ := releaseNode_becomes begun.sound secondId
  rw [begun.view, joined] at ended
  obtain ⟨twoSound, config, rootId, -, -, rfl⟩ := begun.trans ended
  rw [← rootId] at whole distinct order' within
  have shape : two.Shape top order := ⟨whole, distinct, order'⟩
  have carried : ∀ {next}, two.Carries order next → tree.Carries order next := fun carries =>
    ⟨carries.sound, carries.config.trans config, carries.shape⟩
  have parentNow : two.view parentId = some (.branch (leftKeys ++ rightKeys) (left ++ firstId :: right)) := by
    rw [← joined, Function.update_of_ne different, Function.update_self]
  obtain ⟨-, parent, standing, keys, row⟩ := view_branch.mp parentNow
  have ok := twoSound.internals parentId parent standing
  rw [finishMerge, run_bind_ok erased, run_bind_ok (notify_silent begun.sound.silent _), run_bind_ok released,
    run_bind_ok (internal_found standing), run_bind_ok run_read]
  split
  · next bare =>
    obtain ⟨atRoot, bare⟩ := bare
    rw [ok.count, List.length_eq_zero_iff] at bare
    obtain ⟨ref, only⟩ := List.length_eq_one_iff.mp (show parent.children.length = 1 by rw [ok.children, bare]; rfl)
    have rootNow : two.view two.rootId = some (.branch [] [ref.pageId]) := by
      rw [← atRoot, parentNow, ← keys, ← row, bare, only]
      rfl
    obtain ⟨three, dropped, collapsed⟩ := shape.collapse twoSound rootNow
    rw [run_bind_ok (ofOption_run (show parent.children[0]? = some ref by simp [only]) _), atRoot, run_bind_ok dropped, run_update]
    exact carried (collapsed _)
  · split
    · next under =>
      refine carried (fixInternalUnderflow_carries twoSound shape within subtree parentNow ?_)
      rw [← keys, ← ok.count, ← ok.page.capacity]
      exact lt_of_isUnderfull under
    · exact carried (shape.carries twoSound)

theorem mergedLeafEntries_whole {left right : LeafNode} (count : right.keyCount = right.keys.length)
    (refs : right.refs.length = right.keys.length) :
    mergedLeafEntries left right = some (left.keys ++ right.keys, left.refs ++ right.refs) := by
  rw [mergedLeafEntries, if_neg (by omega), count, List.take_length, List.take_of_length_le (Nat.le_of_eq refs)]

/-- A merge of two leaves with room for the entries of both loses the key between them. -/
theorem mergeLeaves_carries (sound : tree.Sound) (shape : tree.Shape top order) {rest : List SearchPathEntry}
    {parent : InternalNode} {firstRef secondRef : PageReference} (standing : tree.internals.lookup parentId = some parent)
    (firstHere : parent.children[index]? = some firstRef) (secondHere : parent.children[index + 1]? = some secondRef)
    (pair : Pair tree.view top tree.rootId (places rest) 0 parentId index firstRef.pageId secondRef.pageId separator leftKeys
      rightKeys before after left right outside) {firstKeys secondKeys : List Key}
    (firstFound : tree.view firstRef.pageId = some (.leaf firstKeys))
    (secondFound : tree.view secondRef.pageId = some (.leaf secondKeys))
    (fits : (firstKeys ++ secondKeys).length ≤ computeCapacity tree.config .leaf) :
    ∃ order', order'.Sublist order ∧
      tree.Carries order' ((mergeLeaves parentId index (fixInternalUnderflow rest parentId)).run tree).2 := by
  obtain ⟨first, firstStanding, rfl⟩ := view_leaf.mp firstFound
  obtain ⟨second, secondStanding, rfl⟩ := view_leaf.mp secondFound
  have firstOk := sound.leaves _ first firstStanding
  have secondOk := sound.leaves _ second secondStanding
  obtain ⟨parentFirst, parentSecond, different⟩ := pair.different shape.distinct
  rw [mergeLeaves, run_bind_ok (internal_found standing), run_bind_ok (ofOption_run firstHere _),
    run_bind_ok (leaf_found firstStanding), run_bind_ok (ofOption_run secondHere _), run_bind_ok (leaf_found secondStanding),
    run_bind_ok (ofOption_run (mergedLeafEntries_whole secondOk.count secondOk.refs) _)]
  obtain ⟨filled, assigned, filledOk, filledKeys, -⟩ := LeafNode.assignEntries_ok firstOk
    (first.keys ++ second.keys) (first.refs ++ second.refs) (by simp [firstOk.refs, secondOk.refs]) fits
    (List.forall_mem_append.mpr ⟨firstOk.matching, secondOk.matching⟩)
  obtain ⟨one, changed, begun, -⟩ := onLeaf_becomes sound firstStanding
    (fun _ => first.assignEntries (first.keys ++ second.keys) (first.refs ++ second.refs)) assigned filledOk
  rw [filledKeys] at begun
  rw [run_bind_ok changed]
  obtain ⟨heap, joined⟩ : ∃ heap, Function.update (Function.update one.view parentId
    (some (.branch (leftKeys ++ rightKeys) (left ++ firstRef.pageId :: right)))) secondRef.pageId none = heap := ⟨_, rfl⟩
  have three := @update_three tree.view firstRef.pageId parentId secondRef.pageId
    (some (.leaf (first.keys ++ second.keys))) (some (.branch (leftKeys ++ rightKeys) (left ++ firstRef.pageId :: right)))
    none parentFirst.symm different parentSecond
  rw [← begun.view, joined] at three
  obtain ⟨firstNow, parentNow, -, off⟩ := three
  have around := pair.apart shape.distinct fun other noParent noFirst noSecond => off other noFirst noParent noSecond
  have alone : ∀ child ∈ [firstRef.pageId], Tree heap 0 child := by simpa using tree_leaf firstNow
  have window : heap parentId = some (.branch (leftKeys ++ ([] ++ rightKeys)) (left ++ ([firstRef.pageId] ++ right))) :=
    parentNow
  obtain ⟨place, subtree, -⟩ := pair.above.rewrite pair.front pair.behind pair.siblings window rfl alone around
  obtain ⟨whole, all, nodes⟩ := pair.above.refill pair.front pair.behind pair.siblings window rfl alone around
  have distinct : (ids heap top tree.rootId).Nodup := by
    refine nodes.nodup_iff.mpr ((pair.plug.2.nodup_iff.mp shape.distinct).sublist ?_)
    simp [ids]
  have carries := finishMerge_carries begun.sound pair.front pair.index parentSecond
    (by rw [begun.view, Function.update_of_ne parentFirst]; exact pair.found) joined
    (by rw [begun.rootId]; exact whole) (by rw [begun.rootId]; exact distinct) rfl
    (by rw [begun.rootId]; exact place) subtree
  refine ⟨inorder heap top one.rootId, ?_, carries.sound, carries.config.trans begun.config, carries.shape⟩
  rw [begun.rootId, all, ← shape.order, pair.plug.1, List.map_singleton, interleave_single, inorder_leaf firstNow,
    inorder_leaf firstFound, inorder_leaf secondFound]
  simp

theorem mergeLeaves_alone {parent : InternalNode} (standing : tree.internals.lookup parentId = some parent)
    (alone : parent.children[index + 1]? = none) (fix : TreeM ω Unit) :
    ∃ failure, (mergeLeaves parentId index fix).run tree = (.error failure, tree) := by
  rw [mergeLeaves, run_bind_ok (internal_found standing)]
  cases parent.children[index]? with
  | none => exact ⟨_, rfl⟩
  | some ref =>
    rw [run_bind_ok (ofOption_run rfl _), run_bind, leaf_run]
    cases tree.leaves.lookup ref.pageId with
    | none => exact ⟨_, rfl⟩
    | some first =>
      simp only [alone]
      exact ⟨_, rfl⟩

/-- The way up from a leaf with too few keys. -/
theorem fixLeafUnderflow_carries (sound : tree.Sound) (shape : tree.Shape top order) {frame : SearchPathEntry}
    {rest : List SearchPathEntry} {leafId : PageId} {keys : List Key}
    (within : Within tree.view top tree.rootId (places (frame :: rest)) 0 leafId before after outside)
    (found : tree.view leafId = some (.leaf keys))
    (under : isUnderfull keys.length (computeCapacity tree.config .leaf) false = true) :
    ∃ order', order'.Sublist order ∧ tree.Carries order' ((fixLeafUnderflow leafId (frame :: rest)).run tree).2 := by
  obtain ⟨parent, nodeRef, _, _, _, standing, ok, nodeHere, rfl, above, parentFound, grown⟩ :=
    parent_of_within sound within (tree_leaf found)
  have inside := (List.getElem?_eq_some_iff.mp nodeHere).1
  have roomy := lt_of_isUnderfull under
  have spare_iff : ∀ {place : Nat} {ref : PageReference} {keys : List Key}, parent.children[place]? = some ref →
      tree.view ref.pageId = some (.leaf keys) →
      (HasSpare tree.leafNode parent place ↔ keys.length > minKeyCount (computeCapacity tree.config .leaf) false) := by
    intro place ref keys here found
    obtain ⟨sibling, siblingHere, rfl⟩ := view_leaf.mp found
    have siblingOk := sound.leaves _ sibling siblingHere
    rw [hasSpare_iff here (show tree.leafNode ref.pageId = some sibling.toBTreeNode by rw [leafNode, siblingHere]; rfl),
      siblingOk.count, siblingOk.page.capacity]
  have repairs := @fixLeafUnderflow_repairs _ tree parent frame _ rest nodeRef.pageId standing (ok.children.trans (by rw [ok.count]))
    inside fun ref member => by
      obtain ⟨_, found⟩ := ((tree_branch parentFound).mp grown).2 _ (List.mem_map_of_mem member)
      obtain ⟨sibling, siblingHere, -⟩ := view_leaf.mp found
      exact ⟨sibling, siblingHere⟩
  generalize (fixLeafUnderflow nodeRef.pageId (frame :: rest)).run tree = outcome at repairs
  cases repairs with
  | left later here spares =>
    obtain ⟨separator, _, _, _, _, -, pair⟩ := pair_of_refs above grown parentFound here (by rwa [Nat.sub_add_cancel later])
    obtain ⟨siblingKeys, siblingFound⟩ := pair.first
    obtain ⟨siblingKeys, key, rfl⟩ := concat_of_pos (Nat.zero_lt_of_lt ((spare_iff here siblingFound).mp spares))
    obtain ⟨next, ran, carries⟩ := borrowFromLeftLeaf_carries sound shape pair siblingFound found roomy
    rw [ran]
    exact ⟨order, List.Sublist.refl _, carries⟩
  | right _ earlier here spares =>
    obtain ⟨separator, _, _, _, _, -, pair⟩ := pair_of_refs above grown parentFound nodeHere here
    obtain ⟨siblingKeys, siblingFound⟩ := pair.second
    obtain ⟨key, siblingKeys, rfl⟩ := List.exists_cons_of_length_pos (Nat.zero_lt_of_lt ((spare_iff here siblingFound).mp spares))
    obtain ⟨next, ran, carries⟩ := borrowFromRightLeaf_carries sound shape pair found siblingFound roomy
    rw [ran]
    exact ⟨order, List.Sublist.refl _, carries⟩
  | merge poor =>
    -- no sibling has a key to give, so that the entries of both fit into one leaf
    have few : ∀ {place : Nat} {ref : PageReference} {siblingKeys : List Key}, parent.children[place]? = some ref →
        tree.view ref.pageId = some (.leaf siblingKeys) → ¬ HasSpare tree.leafNode parent place →
        siblingKeys.length + keys.length ≤ computeCapacity tree.config .leaf := by
      intro place ref siblingKeys here siblingFound noSpare
      rw [spare_iff here siblingFound] at noSpare
      simp only [minKeyCount, isUnderfull, if_false_true, Bool.not_false, Bool.true_and, decide_eq_true_eq]
        at noSpare under
      omega
    by_cases later : frame.childIndex > 0
    · have firstHere : parent.children[frame.childIndex - 1]? = some _ := List.getElem?_eq_getElem (by omega)
      obtain ⟨separator, _, _, _, _, between, pair⟩ := pair_of_refs above grown parentFound firstHere (by rwa [Nat.sub_add_cancel later])
      obtain ⟨siblingKeys, siblingFound⟩ := pair.first
      have room := few firstHere siblingFound fun spares => poor ⟨parent, standing, .inl ⟨later, spares⟩⟩
      rw [if_pos later]
      exact mergeLeaves_carries sound shape standing firstHere (by rwa [Nat.sub_add_cancel later]) pair siblingFound found
        (by simpa using room)
    · rw [if_neg later]
      cases secondHere : parent.children[frame.childIndex + 1]? with
      | none =>
        obtain ⟨failure, ran⟩ := mergeLeaves_alone standing secondHere (fixInternalUnderflow rest frame.pageId)
        rw [ran]
        exact ⟨order, List.Sublist.refl _, shape.carries sound⟩
      | some secondRef =>
        obtain ⟨separator, _, _, _, _, between, pair⟩ := pair_of_refs above grown parentFound nodeHere secondHere
        obtain ⟨siblingKeys, siblingFound⟩ := pair.second
        have earlier : frame.childIndex + 1 ≤ parent.keyCount := by
          have last := (List.getElem?_eq_some_iff.mp secondHere).1
          rw [ok.children, ← ok.count] at last
          omega
        have room := few secondHere siblingFound fun spares => poor ⟨parent, standing, .inr ⟨earlier, spares⟩⟩
        exact mergeLeaves_carries sound shape standing nodeHere secondHere pair found siblingFound
          (by simpa [Nat.add_comm] using room)

end Merges

end Rebalance

namespace BTree

variable [BTreeWalSink ω]

/-- The end of an erasure: the leaf has lost its key and may have too few. -/
theorem afterErase_ordered (sound : tree.Sound) (shape : tree.Shape top order) (sorted : order.Pairwise (· < ·))
    {path : List SearchPathEntry} {leafId : PageId} {keys : List Key}
    (within : Within tree.view top tree.rootId (places path) 0 leafId before after outside)
    (found : tree.view leafId = some (.leaf keys)) :
    ∃ order', order'.Sublist order ∧ ((afterErase leafId path).run tree).2.config = tree.config ∧
      ((afterErase leafId path).run tree).2.Ordered order' := by
  obtain ⟨leaf, standing, rfl⟩ := view_leaf.mp found
  have ok := sound.leaves leafId leaf standing
  have unchanged : ∃ order', order'.Sublist order ∧ tree.config = tree.config ∧ tree.Ordered order' :=
    ⟨order, List.Sublist.refl _, rfl, sound, sorted, .inr ⟨top, shape⟩⟩
  rw [afterErase, run_bind_ok (leaf_found standing)]
  split
  · split
    · obtain ⟨next, released, becomes⟩ := releaseNode_becomes sound leafId
      rw [run_bind_ok released, run_update]
      exact ⟨[], List.nil_sublist _, becomes.config, becomes.sound.scalars kInvalidPageId next.size 0, List.Pairwise.nil, .inl ⟨rfl, rfl⟩⟩
    · exact unchanged
  · split
    · next under =>
      rw [ok.count, ok.page.capacity] at under
      cases path with
      | nil => exact unchanged
      | cons frame rest =>
        obtain ⟨order', fewer, carries⟩ := Rebalance.fixLeafUnderflow_carries sound shape within found under
        exact ⟨order', fewer, carries.config, carries.sound, sorted.sublist fewer, .inr carries.shape⟩
    · exact unchanged

theorem erase_ordered (ordered : tree.Ordered order) (key : Key) :
    ∃ order', order'.Sublist order ∧ ((erase key).run tree).2.config = tree.config ∧ ((erase key).run tree).2.Ordered order' := by
  have unchanged : ∃ order', order'.Sublist order ∧ tree.config = tree.config ∧ tree.Ordered order' :=
    ⟨order, List.Sublist.refl _, rfl, ordered⟩
  rcases ordered.standing with ⟨bare, rfl⟩ | ⟨top, shape⟩
  · rw [erase, run_bind_ok run_read, if_pos (by simp [empty, bare])]
    exact unchanged
  rw [erase, run_bind_ok run_read, if_neg (by simp [empty, shape.live ordered.sound])]
  cases down : tree.descendToLeaf key true with
  | error failure => exact unchanged
  | ok place =>
    obtain ⟨leafId', path', before, after, outside, walked, reached⟩ := shape.reaches ordered.sound ordered.sorted key
    obtain ⟨leaf, standing, splits, distinct⟩ := reached.splits shape
    obtain ⟨rfl, here⟩ := descendToLeaf_found standing walked down
    obtain ⟨front, back, parts, length⟩ := split_at here
    obtain ⟨slim, erased, slimOk, slimKeys⟩ := LeafNode.eraseAt_between (ordered.sound.leaves _ leaf standing) parts length
    obtain ⟨next, ran, becomes, -⟩ := onLeaf_becomes ordered.sound standing (fun node => node.eraseAt (leaf.find key)) erased slimOk
    -- the tree goes on without the entry
    have now : next.view leafId' = some (.leaf slim.keys) := by rw [becomes.view, Function.update_self]
    have within : Within next.view top next.rootId (places path') 0 leafId' before after outside := by
      rw [becomes.rootId]
      refine reached.within.frame fun other member => ?_
      rw [becomes.view, Function.update_of_ne (ne_of_mem_of_not_mem member (List.nodup_cons.mp distinct).1)]
    obtain ⟨grown, all, nodes⟩ := within.plug (tree_leaf now)
    have fewer : (before ++ slim.keys ++ after).Sublist order := by
      rw [splits, slimKeys, parts]
      simp
    obtain ⟨order', fewer', config, result⟩ := afterErase_ordered (becomes.sound.scalars next.rootId (next.size - 1) next.height)
      ⟨grown, nodes.nodup_iff.mpr distinct, all.trans (by rw [inorder_leaf now])⟩ (ordered.sorted.sublist fewer) within now
    rw [run_bind_ok (ofExcept_run rfl _)]
    refine ⟨order', fewer'.trans fewer, ?_⟩
    rw [run_bind_ok ran, run_bind_ok (run_update _), run_bind_ok (notify_silent (by exact becomes.sound.silent) _)]
    exact ⟨config.trans becomes.config, result⟩

end BTree
end Quartz.Btree
