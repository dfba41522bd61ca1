import Mathlib.Data.List.InsertIdx
import Quartz.Btree.Operations

/-! The operations of the tree are put together from few effects. What the effects have in
common, and sequences keep, the operations have in common. -/

namespace Quartz.Btree
open Storage Format TreeM

variable {ω : Type}

/-- Properties of keys, leaves and internal nodes that the operations on single nodes keep. -/
structure Closed (fits : Key → Prop) (fine : PageId → LeafNode → Prop)
    (sturdy : PageId → InternalNode → Prop) : Prop where
  leafKeys : ∀ {id} leaf, fine id leaf → ∀ key ∈ leaf.keys, fits key
  leafInsert : ∀ {id} leaf key ref, fine id leaf → fits key → fine id (leaf.insert key ref).2
  leafErase : ∀ {id} leaf index, fine id leaf → fine id (leaf.eraseAt index).2
  leafAssign : ∀ {id} leaf keys refs, fine id leaf → (∀ key ∈ keys, fits key) → fine id (leaf.assignEntries keys refs).2
  internalKeys : ∀ {id} node, sturdy id node → ∀ key ∈ node.keys, fits key
  internalInsert : ∀ {id} node index key child, sturdy id node → fits key → sturdy id (node.insert index key child).2
  internalErase : ∀ {id} node index, sturdy id node → sturdy id (node.eraseAt index).2
  internalSet : ∀ {id} node index key, sturdy id node → fits key → sturdy id (node.setKeyAt index key).2
  internalAssign : ∀ {id} node keys children, sturdy id node → (∀ key ∈ keys, fits key) →
    sturdy id (node.assignEntries keys children).2

/-- What holds of every node. -/
theorem closed_true : Closed (fun _ => True) (fun _ _ => True) (fun _ _ => True) := by
  constructor <;> intros <;> trivial

/-- Proof rules for a property of computations. Nodes may be assumed to have their property
where they are read, and have to be left with it. No rule lets a computation look at the sink. -/
structure Rules [BTreeWalSink ω] (fits : Key → Prop) (fine : PageId → LeafNode → Prop)
    (sturdy : PageId → InternalNode → Prop) (good : {α : Type} → TreeM ω α → Prop) : Prop extends Closed fits fine sturdy where
  pure : ∀ {α : Type} (value : α), good (pure value)
  fail : ∀ {α : Type} (failure : Failure), good (Fallible.fail failure : TreeM ω α)
  bind : ∀ {α β : Type} {first : TreeM ω α} {next : α → TreeM ω β}, good first → (∀ value, good (next value)) →
    good (first >>= next)
  read : ∀ {β : Type} {next : BTree ω → TreeM ω β}, (∀ tree, good (next tree)) →
    (∀ tree sink, next { tree with walSink := sink } = next tree) → good (Fallible.read >>= next)
  update : ∀ change : BTree ω → BTree ω,
    (∀ tree, ∃ rootId height, change tree = { tree with rootId := rootId, height := height }) →
    (∀ tree sink, change { tree with walSink := sink } = { change tree with walSink := sink }) →
    good (Fallible.update change)
  leaf : ∀ {β : Type} (id : PageId) (next : LeafNode → TreeM ω β), (∀ node, fine id node → good (next node)) →
    good (TreeM.leaf id >>= next)
  internal : ∀ {β : Type} (id : PageId) (next : InternalNode → TreeM ω β), (∀ node, sturdy id node → good (next node)) →
    good (TreeM.internal id >>= next)
  onLeaf : ∀ id change, (∀ leaf, fine id leaf → fine id (change leaf).2) → good (TreeM.onLeaf id change)
  onInternal : ∀ id change, (∀ node, sturdy id node → sturdy id (change node).2) → good (TreeM.onInternal id change)
  allocateLeaf : ∀ level, good (TreeM.allocateLeaf level)
  allocateInternal : ∀ level, good (TreeM.allocateInternal level)
  releaseNode : ∀ id, good (TreeM.releaseNode id)
  notify : ∀ event, event.structural = true → good (TreeM.notify event)

theorem BTree.descend_sink (tree : BTree ω) (sink : Option ω) (key : Key) (fuel : Nat) (id : PageId) (path : List SearchPathEntry) :
    descend { tree with walSink := sink } key fuel id path = tree.descend key fuel id path := by
  induction fuel generalizing id path with
  | zero => rfl
  | succ fuel ih =>
    simp only [descend, ih]

@[simp] theorem BTree.descendToLeaf_sink (tree : BTree ω) (sink : Option ω) (key : Key) (exactMatch : Bool) :
    descendToLeaf { tree with walSink := sink } key exactMatch = tree.descendToLeaf key exactMatch := by
  simp only [descendToLeaf, descend_sink]
  rfl

@[simp] theorem BTree.descendForInsert_sink (tree : BTree ω) (sink : Option ω) (key : Key) :
    descendForInsert { tree with walSink := sink } key = tree.descendForInsert key := by
  simp only [descendForInsert, descendToLeaf_sink]

@[simp] theorem BTree.find_sink (tree : BTree ω) (sink : Option ω) (key : Key) :
    find { tree with walSink := sink } key = tree.find key := by
  simp only [find, descendToLeaf_sink]

@[simp] theorem BTree.contains_sink (tree : BTree ω) (sink : Option ω) (key : Key) :
    contains { tree with walSink := sink } key = tree.contains key := by
  simp only [contains, find_sink]

/-! ### The calls in parts -/

section Parts

variable [BTreeWalSink ω]

/-- An insertion up to where it counts the new entry. -/
def BTree.settle (key : Key) (value : PageReference) : TreeM ω Unit :=
  if !value.isValid then Fallible.fail (.status (Status.invalidArgument "BTree: invalid page reference"))
  else do
    let tree ← Fallible.read
    if tree.empty then
      let leafId ← allocateLeaf 0
      TreeM.onLeaf leafId fun leaf => leaf.insert key value
      Fallible.update fun tree => { tree with rootId := leafId, height := 1 }
    else
      let found ← TreeM.ofExcept (tree.descendForInsert key)
      BTree.place found.1 found.2.2 key value

theorem BTree.insert_eq (key : Key) (value : PageReference) :
    (insert key value : TreeM ω Unit) = settle key value >>= fun _ => inserted key value := by
  unfold insert settle
  split
  · rfl
  · rw [Fallible.bind_assoc]
    congr 1
    funext tree
    split
    · simp only [insertFirst, Fallible.bind_assoc]
    · simp only [Fallible.bind_assoc]

/-- An erasure up to where the entry has left its leaf. -/
def BTree.detach (key : Key) : TreeM ω (PageId × Nat × List SearchPathEntry) := do
  let tree ← Fallible.read
  if tree.empty then Fallible.fail (.status (Status.invalidArgument "BTree: key not found"))
  else
    let found ← TreeM.ofExcept (tree.descendToLeaf key true)
    TreeM.onLeaf found.1 fun leaf => leaf.eraseAt found.2.1
    pure found

/-- The rest of an erasure. -/
def BTree.erased (key : Key) (found : PageId × Nat × List SearchPathEntry) : TreeM ω Unit := do
  Fallible.update fun tree => { tree with size := tree.size - 1 }
  TreeM.notify (.erase key)
  BTree.afterErase found.1 found.2.2

theorem BTree.erase_eq (key : Key) : (erase key : TreeM ω Unit) = detach key >>= erased key := by
  unfold erase detach
  rw [Fallible.bind_assoc]
  congr 1
  funext tree
  split
  · rfl
  · simp only [Fallible.bind_assoc]
    rfl

end Parts

namespace Rules

variable [BTreeWalSink ω] {fits : Key → Prop} {fine : PageId → LeafNode → Prop} {sturdy : PageId → InternalNode → Prop}
  {good : {α : Type} → TreeM ω α → Prop} (rules : Rules fits fine sturdy good)
include rules

/-- After an access with `at` the value stood there. -/
theorem ofOption {α β : Type} (value : Option α) {next : α → TreeM ω β}
    (each : ∀ found, value = some found → good (next found)) : good (TreeM.ofOption value >>= next) := by
  cases value with
  | none =>
    have stops : good (Fallible.fail .outOfRange : TreeM ω β) := rules.fail .outOfRange
    exact stops
  | some found => exact each found rfl

theorem ofExcept {α : Type} (value : Except Failure α) : good (TreeM.ofExcept value : TreeM ω α) := by
  cases value with
  | error failure => exact rules.fail _
  | ok value => exact rules.pure _

omit rules [BTreeWalSink ω] in
theorem fits_insertIdx {keys : List Key} {key : Key} (index : Nat) (old : ∀ other ∈ keys, fits other)
    (new : fits key) : ∀ other ∈ keys.insertIdx index key, fits other := by
  intro other member
  rcases List.eq_or_mem_of_mem_insertIdx member with rfl | member
  · exact new
  · exact old other member

theorem splitInternal (nodeId : PageId) (index : Nat) {key : Key} (fit : fits key) (rightChild : PageReference)
    {β : Type} {next : Key × PageId → TreeM ω β} (each : ∀ split : Key × PageId, fits split.1 → good (next split)) :
    good (Rebalance.splitInternal nodeId index key rightChild >>= next) := by
  simp only [Rebalance.splitInternal, Fallible.bind_assoc]
  refine rules.internal _ _ fun node ok => ?_
  have all := fits_insertIdx index (rules.internalKeys node ok) fit
  refine rules.ofOption _ fun promoted found => ?_
  refine rules.bind (rules.onInternal _ _ fun node ok => rules.internalAssign node _ _ ok fun key member =>
    all key (List.mem_of_mem_take member)) fun _ => ?_
  refine rules.bind (rules.allocateInternal _) fun siblingId => ?_
  refine rules.bind (rules.onInternal _ _ fun node ok => rules.internalAssign node _ _ ok fun key member =>
    all key (List.mem_of_mem_drop member)) fun _ => ?_
  exact rules.bind (rules.notify _ rfl) fun _ => each (promoted, siblingId) (all promoted (List.mem_of_getElem? found))

theorem insertIntoParent (path : List SearchPathEntry) {promoted : Key} (fit : fits promoted) (leftId rightId : PageId) :
    good (Rebalance.insertIntoParent path promoted leftId rightId : TreeM ω _) := by
  induction path generalizing promoted leftId rightId with
  | nil =>
    refine rules.read (fun tree => rules.bind (rules.allocateInternal _) fun rootId => ?_) fun _ _ => rfl
    refine rules.bind (rules.onInternal _ _ fun node ok => rules.internalAssign node _ _ ok fun key member => ?_) fun _ =>
      rules.update _ (fun _ => ⟨_, _, rfl⟩) fun _ _ => rfl
    rw [List.mem_singleton] at member
    exact member ▸ fit
  | cons frame rest ih =>
    refine rules.internal _ _ fun parent _ => ?_
    split
    · exact rules.onInternal _ _ fun node ok => rules.internalInsert node _ _ _ ok fit
    · exact rules.splitInternal _ _ fit _ fun split fit => ih fit _ _

theorem splitAndInsertLeaf (leafId : PageId) (path : List SearchPathEntry) {key : Key} (fit : fits key)
    (value : PageReference) : good (Rebalance.splitAndInsertLeaf leafId path key value : TreeM ω _) := by
  refine rules.leaf _ _ fun node ok => ?_
  have all := fits_insertIdx (KeyComparator.lowerBound node.keys key) (rules.leafKeys node ok) fit
  refine rules.ofOption _ fun promoted found => ?_
  refine rules.bind (rules.onLeaf _ _ fun leaf ok => rules.leafAssign leaf _ _ ok fun key member =>
    all key (List.mem_of_mem_take member)) fun _ => ?_
  refine rules.bind (rules.allocateLeaf _) fun siblingId => ?_
  refine rules.bind (rules.onLeaf _ _ fun leaf ok => rules.leafAssign leaf _ _ ok fun key member =>
    all key (List.mem_of_mem_drop member)) fun _ => ?_
  exact rules.bind (rules.notify _ rfl) fun _ => rules.insertIntoParent _ (all promoted (List.mem_of_getElem? found)) _ _

theorem finishMerge (parentId : PageId) (index : Nat) (survivorId removedId : PageId) {fix : TreeM ω Unit}
    (fixes : good fix) : good (Rebalance.finishMerge parentId index survivorId removedId fix) := by
  refine rules.bind (rules.onInternal _ _ fun node => rules.internalErase node _) fun _ => ?_
  refine rules.bind (rules.notify _ rfl) fun _ => rules.bind (rules.releaseNode _) fun _ => ?_
  refine rules.internal _ _ fun parent _ => rules.read (fun tree => ?_) fun _ _ => rfl
  split
  · refine rules.ofOption _ fun newRoot _ => rules.bind (rules.releaseNode _) fun _ => ?_
    exact rules.update _ (fun _ => ⟨_, _, rfl⟩) fun _ _ => rfl
  · split
    · exact fixes
    · exact rules.pure _

theorem mergeLeaves (parentId : PageId) (index : Nat) {fix : TreeM ω Unit} (fixes : good fix) :
    good (Rebalance.mergeLeaves parentId index fix) := by
  refine rules.internal _ _ fun parent _ => rules.ofOption _ fun left _ => ?_
  refine rules.leaf _ _ fun left leftOk => rules.ofOption _ fun right _ => rules.leaf _ _ fun right rightOk => ?_
  refine rules.ofOption _ fun entries merged => ?_
  refine rules.bind (rules.onLeaf _ _ fun _ _ => rules.leafAssign left _ _ leftOk fun key member => ?_) fun _ =>
    rules.finishMerge _ _ _ _ fixes
  obtain ⟨-, held⟩ := Option.ite_none_left_eq_some.mp merged
  cases held
  rcases List.mem_append.mp member with member | member
  · exact rules.leafKeys left leftOk key member
  · exact rules.leafKeys right rightOk key (List.mem_of_mem_take member)

theorem mergeInternals (parentId : PageId) (index : Nat) {fix : TreeM ω Unit} (fixes : good fix) :
    good (Rebalance.mergeInternals parentId index fix) := by
  refine rules.internal _ _ fun parent parentOk => rules.ofOption _ fun left _ => ?_
  refine rules.internal _ _ fun left leftOk => rules.ofOption _ fun right _ => ?_
  refine rules.internal _ _ fun right rightOk => rules.ofOption _ fun separator found => ?_
  refine rules.bind (rules.onInternal _ _ fun _ _ => rules.internalAssign left _ _ leftOk fun key member => ?_) fun _ =>
    rules.finishMerge _ _ _ _ fixes
  rcases List.mem_append.mp member with member | member
  · exact rules.internalKeys left leftOk key member
  · rcases List.mem_cons.mp member with rfl | member
    · exact rules.internalKeys parent parentOk key (List.mem_of_getElem? found)
    · exact rules.internalKeys right rightOk key member

private theorem setParentKey (parentId : PageId) (index : Nat) {key : Key} (fit : fits key) :
    good (Rebalance.setParentKey parentId index key : TreeM ω _) :=
  rules.onInternal _ _ fun node ok => rules.internalSet node _ _ ok fit

theorem borrowFromLeftInternal (parentId : PageId) (childIndex : Nat) (leftId nodeId : PageId) :
    good (Rebalance.borrowFromLeftInternal parentId childIndex leftId nodeId : TreeM ω _) := by
  refine rules.internal _ _ fun parent parentOk => rules.ofOption _ fun separator down => ?_
  refine rules.internal _ _ fun left leftOk => rules.ofOption _ fun leftKey up => rules.ofOption _ fun leftChild _ => ?_
  refine rules.bind (rules.onInternal _ _ fun left ok => rules.internalAssign left _ _ ok fun key member =>
    rules.internalKeys left ok key ((List.dropLast_sublist _).subset member)) fun _ => ?_
  refine rules.bind (rules.setParentKey _ _ (rules.internalKeys left leftOk leftKey (List.mem_of_getElem? up))) fun _ => ?_
  refine rules.onInternal _ _ fun node ok => rules.internalAssign node _ _ ok fun key member => ?_
  rcases List.mem_cons.mp member with rfl | member
  · exact rules.internalKeys parent parentOk key (List.mem_of_getElem? down)
  · exact rules.internalKeys node ok key member

theorem borrowFromRightInternal (parentId : PageId) (childIndex : Nat) (nodeId rightId : PageId) :
    good (Rebalance.borrowFromRightInternal parentId childIndex nodeId rightId : TreeM ω _) := by
  refine rules.internal _ _ fun parent parentOk => rules.ofOption _ fun separator down => ?_
  refine rules.internal _ _ fun right rightOk => rules.ofOption _ fun rightKey up => rules.ofOption _ fun rightChild _ => ?_
  refine rules.bind (rules.onInternal _ _ fun right ok => rules.internalAssign right _ _ ok fun key member =>
    rules.internalKeys right ok key (List.mem_of_mem_tail member)) fun _ => ?_
  refine rules.bind (rules.setParentKey _ _ (rules.internalKeys right rightOk rightKey (List.mem_of_getElem? up))) fun _ => ?_
  refine rules.onInternal _ _ fun node ok => rules.internalAssign node _ _ ok fun key member => ?_
  rcases List.mem_append.mp member with member | member
  · exact rules.internalKeys node ok key member
  · rw [List.mem_singleton] at member
    exact member ▸ rules.internalKeys parent parentOk separator (List.mem_of_getElem? down)

theorem borrowFromLeftLeaf (parentId : PageId) (childIndex : Nat) (leftId nodeId : PageId) :
    good (Rebalance.borrowFromLeftLeaf parentId childIndex leftId nodeId : TreeM ω _) := by
  refine rules.internal _ _ fun parent parentOk => rules.ofOption _ fun separator down => ?_
  refine rules.leaf _ _ fun left leftOk => rules.ofOption _ fun leftKey up => rules.ofOption _ fun leftRef _ => ?_
  refine rules.bind (rules.onLeaf _ _ fun leaf => rules.leafErase leaf _) fun _ => ?_
  refine rules.bind (rules.setParentKey _ _ (rules.leafKeys left leftOk leftKey (List.mem_of_getElem? up))) fun _ => ?_
  refine rules.onLeaf _ _ fun leaf ok => rules.leafAssign leaf _ _ ok fun key member => ?_
  rcases List.mem_cons.mp member with rfl | member
  · exact rules.internalKeys parent parentOk key (List.mem_of_getElem? down)
  · exact rules.leafKeys leaf ok key member

theorem borrowFromRightLeaf (parentId : PageId) (childIndex : Nat) (nodeId rightId : PageId) :
    good (Rebalance.borrowFromRightLeaf parentId childIndex nodeId rightId : TreeM ω _) := by
  refine rules.internal _ _ fun parent parentOk => rules.ofOption _ fun separator down => ?_
  refine rules.leaf _ _ fun right rightOk => rules.ofOption _ fun rightKey up => rules.ofOption _ fun rightRef _ => ?_
  refine rules.bind (rules.onLeaf _ _ fun leaf => rules.leafErase leaf _) fun _ => ?_
  refine rules.bind (rules.setParentKey _ _ (rules.leafKeys right rightOk rightKey (List.mem_of_getElem? up))) fun _ => ?_
  refine rules.onLeaf _ _ fun leaf ok => rules.leafAssign leaf _ _ ok fun key member => ?_
  rcases List.mem_append.mp member with member | member
  · exact rules.leafKeys leaf ok key member
  · rw [List.mem_singleton] at member
    exact member ▸ rules.internalKeys parent parentOk separator (List.mem_of_getElem? down)

theorem richInternal (present : Bool) (parent : InternalNode) (index : Nat) :
    good (Rebalance.richInternal present parent index : TreeM ω _) := by
  unfold Rebalance.richInternal
  split
  · exact rules.ofOption _ fun _ _ => rules.internal _ _ fun _ _ => rules.pure _
  · exact rules.pure _

theorem richLeaf (present : Bool) (parent : InternalNode) (index : Nat) :
    good (Rebalance.richLeaf present parent index : TreeM ω _) := by
  unfold Rebalance.richLeaf
  split
  · exact rules.ofOption _ fun _ _ => rules.leaf _ _ fun _ _ => rules.pure _
  · exact rules.pure _

theorem fixInternalUnderflow (path : List SearchPathEntry) (nodeId : PageId) :
    good (Rebalance.fixInternalUnderflow path nodeId : TreeM ω _) := by
  induction path generalizing nodeId with
  | nil => exact rules.pure _
  | cons frame rest ih =>
    refine rules.internal _ _ fun parent _ => rules.bind (rules.richInternal _ _ _) fun left => ?_
    cases left with
    | some leftId => exact rules.borrowFromLeftInternal _ _ _ _
    | none =>
      refine rules.bind (rules.richInternal _ _ _) fun right => ?_
      cases right with
      | some rightId => exact rules.borrowFromRightInternal _ _ _ _
      | none =>
        dsimp only
        split
        · exact rules.mergeInternals _ _ (ih _)
        · exact rules.mergeInternals _ _ (ih _)

theorem fixLeafUnderflow (leafId : PageId) (path : List SearchPathEntry) :
    good (Rebalance.fixLeafUnderflow leafId path : TreeM ω _) := by
  cases path with
  | nil => exact rules.pure _
  | cons frame rest =>
    refine rules.internal _ _ fun parent _ => rules.bind (rules.richLeaf _ _ _) fun left => ?_
    cases left with
    | some leftId => exact rules.borrowFromLeftLeaf _ _ _ _
    | none =>
      refine rules.bind (rules.richLeaf _ _ _) fun right => ?_
      cases right with
      | some rightId => exact rules.borrowFromRightLeaf _ _ _ _
      | none =>
        dsimp only
        split
        · exact rules.mergeLeaves _ _ (rules.fixInternalUnderflow _ _)
        · exact rules.mergeLeaves _ _ (rules.fixInternalUnderflow _ _)

theorem place (leafId : PageId) (path : List SearchPathEntry) {key : Key} (fit : fits key) (value : PageReference) :
    good (BTree.place leafId path key value : TreeM ω _) := by
  refine rules.leaf _ _ fun leaf _ => ?_
  split
  · exact rules.onLeaf _ _ fun leaf ok => rules.leafInsert leaf _ _ ok fit
  · exact rules.splitAndInsertLeaf _ _ fit _

theorem afterErase (leafId : PageId) (path : List SearchPathEntry) : good (BTree.afterErase leafId path : TreeM ω _) := by
  refine rules.leaf _ _ fun leaf _ => ?_
  split
  · split
    · exact rules.bind (rules.releaseNode _) fun _ => rules.update _ (fun _ => ⟨_, _, rfl⟩) fun _ _ => rfl
    · exact rules.pure _
  · split
    · exact rules.fixLeafUnderflow _ _
    · exact rules.pure _

theorem settle {key : Key} (fit : fits key) (value : PageReference) : good (BTree.settle key value : TreeM ω _) := by
  unfold BTree.settle
  split
  · exact rules.fail _
  refine rules.read (fun tree => ?_) fun tree sink => by simp only [BTree.descendForInsert_sink]; rfl
  split
  · refine rules.bind (rules.allocateLeaf _) fun leafId => ?_
    refine rules.bind (rules.onLeaf _ _ fun leaf ok => rules.leafInsert leaf _ _ ok fit) fun _ => ?_
    exact rules.update _ (fun _ => ⟨_, _, rfl⟩) fun _ _ => rfl
  · exact rules.bind (rules.ofExcept _) fun found => rules.place _ _ fit _

theorem detach (key : Key) : good (BTree.detach key : TreeM ω _) := by
  refine rules.read (fun tree => ?_) fun tree sink => by simp only [BTree.descendToLeaf_sink]; rfl
  split
  · exact rules.fail _
  refine rules.bind (rules.ofExcept _) fun found => ?_
  exact rules.bind (rules.onLeaf _ _ fun leaf => rules.leafErase leaf _) fun _ => rules.pure _

section Calls

variable (resize : ∀ change : UInt64 → UInt64, good (Fallible.update fun tree : BTree ω => { tree with size := change tree.size }))
  (every : ∀ event, good (TreeM.notify event : TreeM ω _))
include resize every

theorem inserted (key : Key) (value : PageReference) : good (BTree.inserted key value : TreeM ω _) :=
  rules.bind (resize (· + 1)) fun _ => every _

theorem insert {key : Key} (fit : fits key) (value : PageReference) : good (BTree.insert key value : TreeM ω _) := by
  rw [BTree.insert_eq]
  exact rules.bind (rules.settle fit value) fun _ => rules.inserted resize every _ _

theorem erase (key : Key) : good (BTree.erase key : TreeM ω _) := by
  rw [BTree.erase_eq]
  refine rules.bind (rules.detach key) fun found => rules.bind (resize (· - 1)) fun _ => ?_
  exact rules.bind (every _) fun _ => rules.afterErase _ _

/-- What the rules give for any call whose key fits. -/
theorem perform (call : TreeCall) (fit : fits call.key) : good (call.perform : TreeM ω _) := by
  cases call with
  | insert key value => exact rules.insert resize every fit value
  | erase key => exact rules.erase resize every key

end Calls
end Rules
end Quartz.Btree
