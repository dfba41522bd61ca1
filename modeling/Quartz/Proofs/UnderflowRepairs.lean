import Quartz.Proofs.TreeInsertion

/-! The repair of a node with too few keys, without what becomes of the tree: which sibling is asked, and what
a sibling that is asked gives away. -/

namespace Quartz.Btree
open Storage Format TreeM Fallible HeapTree BTree

variable {ω : Type} {tree : BTree ω} {parent : InternalNode} {index : Nat} {frame : SearchPathEntry}
  {nodes : PageId → Option BTreeNode}

namespace BTree

/-- A leaf as a node, and an internal node as one. -/
def leafNode (tree : BTree ω) (id : PageId) : Option BTreeNode := (tree.leaves.lookup id).map (·.toBTreeNode)

def internalNode (tree : BTree ω) (id : PageId) : Option BTreeNode := (tree.internals.lookup id).map (·.toBTreeNode)

/-- The child at this place has keys to spare. -/
def HasSpare (nodes : PageId → Option BTreeNode) (parent : InternalNode) (index : Nat) : Prop :=
  ∃ ref node, parent.children[index]? = some ref ∧ nodes ref.pageId = some node ∧
    node.keyCount > minKeyCount node.capacity false

/-- A neighbour of the child that the frame points at has keys to spare. -/
def Lends (tree : BTree ω) (nodes : PageId → Option BTreeNode) (frame : SearchPathEntry) : Prop :=
  ∃ parent, tree.internals.lookup frame.pageId = some parent ∧
    (frame.childIndex > 0 ∧ HasSpare nodes parent (frame.childIndex - 1) ∨
      frame.childIndex + 1 ≤ parent.keyCount ∧ HasSpare nodes parent (frame.childIndex + 1))

end BTree

namespace Rebalance

theorem hasSpare_iff {ref : PageReference} {sibling : BTreeNode} (here : parent.children[index]? = some ref)
    (standing : nodes ref.pageId = some sibling) :
    HasSpare nodes parent index ↔ sibling.keyCount > minKeyCount sibling.capacity false := by
  constructor
  · rintro ⟨ref', sibling', here', standing', spare⟩
    cases here.symm.trans here'
    cases standing.symm.trans standing'
    exact spare
  · exact fun spare => ⟨ref, sibling, here, standing, spare⟩

/-- The child at a place is looked at, and named if it has keys to spare. -/
def Probes (tree : BTree ω) (nodes : PageId → Option BTreeNode) (parent : InternalNode) (index : Nat)
    (outcome : Except Failure (Option PageId) × BTree ω) : Prop :=
  ∃ ref, parent.children[index]? = some ref ∧
    (¬ HasSpare nodes parent index ∧ outcome = (.ok none, tree) ∨ HasSpare nodes parent index ∧ outcome = (.ok (some ref.pageId), tree))

theorem probes_of_run {ref : PageReference} {sibling : BTreeNode} (here : parent.children[index]? = some ref)
    (standing : nodes ref.pageId = some sibling) {outcome : Except Failure (Option PageId) × BTree ω}
    (ran : outcome = (.ok (if sibling.keyCount > minKeyCount sibling.capacity false then some ref.pageId else none), tree)) :
    Probes tree nodes parent index outcome := by
  refine ⟨ref, here, ?_⟩
  rw [hasSpare_iff here standing]
  by_cases spare : sibling.keyCount > minKeyCount sibling.capacity false
  · exact .inr ⟨spare, by rw [ran, if_pos spare]⟩
  · exact .inl ⟨spare, by rw [ran, if_neg spare]⟩

theorem richInternal_probes {ref : PageReference} {sibling : InternalNode} (here : parent.children[index]? = some ref)
    (standing : tree.internals.lookup ref.pageId = some sibling) :
    Probes tree tree.internalNode parent index ((richInternal true parent index).run tree) := by
  refine probes_of_run here (show tree.internalNode ref.pageId = some sibling.toBTreeNode by rw [internalNode, standing]; rfl) ?_
  rw [richInternal, if_pos rfl, run_bind_ok (ofOption_run here _), run_bind_ok (internal_found standing), run_pure]

theorem richLeaf_probes {ref : PageReference} {sibling : LeafNode} (here : parent.children[index]? = some ref)
    (standing : tree.leaves.lookup ref.pageId = some sibling) :
    Probes tree tree.leafNode parent index ((richLeaf true parent index).run tree) := by
  refine probes_of_run here (show tree.leafNode ref.pageId = some sibling.toBTreeNode by rw [leafNode, standing]; rfl) ?_
  rw [richLeaf, if_pos rfl, run_bind_ok (ofOption_run here _), run_bind_ok (leaf_found standing), run_pure]

/-- What both repairs do: the left sibling is asked, then the right one, then the node is merged. -/
def repair (rich : Bool → InternalNode → Nat → TreeM ω (Option PageId)) (fromLeft fromRight : PageId → TreeM ω Unit)
    (merge : Nat → TreeM ω Unit) (frame : SearchPathEntry) : TreeM ω Unit := do
  let parent ← internal frame.pageId
  let left ← rich (frame.childIndex > 0) parent (frame.childIndex - 1)
  match left with
  | some leftId => fromLeft leftId
  | none =>
    let right ← rich (frame.childIndex + 1 ≤ parent.keyCount) parent (frame.childIndex + 1)
    match right with
    | some rightId => fromRight rightId
    | none => if frame.childIndex > 0 then merge (frame.childIndex - 1) else merge frame.childIndex

inductive Repairs (tree : BTree ω) (nodes : PageId → Option BTreeNode) (fromLeft fromRight : PageId → TreeM ω Unit)
    (merge : Nat → TreeM ω Unit) (frame : SearchPathEntry) (parent : InternalNode) : Except Failure Unit × BTree ω → Prop
  | left {ref : PageReference} (later : frame.childIndex > 0) (here : parent.children[frame.childIndex - 1]? = some ref)
      (spares : HasSpare nodes parent (frame.childIndex - 1)) :
      Repairs tree nodes fromLeft fromRight merge frame parent ((fromLeft ref.pageId).run tree)
  | right {ref : PageReference} (poor : ¬ (frame.childIndex > 0 ∧ HasSpare nodes parent (frame.childIndex - 1)))
      (earlier : frame.childIndex + 1 ≤ parent.keyCount) (here : parent.children[frame.childIndex + 1]? = some ref)
      (spares : HasSpare nodes parent (frame.childIndex + 1)) :
      Repairs tree nodes fromLeft fromRight merge frame parent ((fromRight ref.pageId).run tree)
  | merge (poor : ¬ tree.Lends nodes frame) : Repairs tree nodes fromLeft fromRight merge frame parent
      ((merge (if frame.childIndex > 0 then frame.childIndex - 1 else frame.childIndex)).run tree)

theorem repair_cases (rich : Bool → InternalNode → Nat → TreeM ω (Option PageId)) {fromLeft fromRight : PageId → TreeM ω Unit}
    {merge : Nat → TreeM ω Unit} (standing : tree.internals.lookup frame.pageId = some parent)
    (count : parent.children.length = parent.keyCount + 1) (place : frame.childIndex < parent.children.length)
    (absent : ∀ index, rich false parent index = pure none)
    (probe : ∀ index < parent.children.length, Probes tree nodes parent index ((rich true parent index).run tree)) :
    Repairs tree nodes fromLeft fromRight merge frame parent ((repair rich fromLeft fromRight merge frame).run tree) := by
  have asks : ∀ (present : Prop) [Decidable present] (index : Nat), (present → index < parent.children.length) →
      (¬ (present ∧ HasSpare nodes parent index) ∧ (rich present parent index).run tree = (.ok none, tree)) ∨
      ∃ ref, present ∧ parent.children[index]? = some ref ∧ HasSpare nodes parent index ∧
        (rich present parent index).run tree = (.ok (some ref.pageId), tree) := by
    intro present _ index inside
    by_cases there : present
    · rw [decide_eq_true there]
      obtain ⟨ref, here, ⟨poor, ran⟩ | ⟨spares, ran⟩⟩ := probe index (inside there)
      · exact .inl ⟨fun both => poor both.2, ran⟩
      · exact .inr ⟨ref, there, here, spares, ran⟩
    · rw [decide_eq_false there, absent]
      exact .inl ⟨fun both => there both.1, rfl⟩
  rw [repair, run_bind_ok (internal_found standing)]
  rcases asks (frame.childIndex > 0) (frame.childIndex - 1) (fun _ => by omega) with ⟨noLeft, ran⟩ | ⟨ref, later, here, spares, ran⟩
  case inr =>
    rw [run_bind_ok ran]
    exact .left later here spares
  rw [run_bind_ok ran]
  rcases asks (frame.childIndex + 1 ≤ parent.keyCount) (frame.childIndex + 1) (fun _ => by omega) with
    ⟨noRight, ran⟩ | ⟨ref, earlier, here, spares, ran⟩
  case inr =>
    simp only [run_bind_ok ran]
    exact .right noLeft earlier here spares
  simp only [run_bind_ok ran]
  rw [← apply_ite merge]
  refine .merge ?_
  rintro ⟨parent', standing', lends⟩
  cases standing.symm.trans standing'
  exact lends.elim noLeft noRight

section Fixes

variable [BTreeWalSink ω] {rest : List SearchPathEntry} {nodeId : PageId}
  (standing : tree.internals.lookup frame.pageId = some parent) (count : parent.children.length = parent.keyCount + 1)
  (place : frame.childIndex < parent.children.length)
include standing count place

theorem fixInternalUnderflow_repairs (siblings : ∀ ref ∈ parent.children, ∃ sibling, tree.internals.lookup ref.pageId = some sibling) :
    Repairs tree tree.internalNode (fun leftId => borrowFromLeftInternal frame.pageId frame.childIndex leftId nodeId)
      (fun rightId => borrowFromRightInternal frame.pageId frame.childIndex nodeId rightId)
      (fun index => mergeInternals frame.pageId index (fixInternalUnderflow rest frame.pageId)) frame parent
      ((fixInternalUnderflow (frame :: rest) nodeId).run tree) := by
  refine repair_cases richInternal standing count place (fun _ => rfl) fun index inside => ?_
  obtain ⟨sibling, found⟩ := siblings _ (List.getElem_mem inside)
  exact richInternal_probes (List.getElem?_eq_getElem inside) found

theorem fixLeafUnderflow_repairs (siblings : ∀ ref ∈ parent.children, ∃ sibling, tree.leaves.lookup ref.pageId = some sibling) :
    Repairs tree tree.leafNode (fun leftId => borrowFromLeftLeaf frame.pageId frame.childIndex leftId nodeId)
      (fun rightId => borrowFromRightLeaf frame.pageId frame.childIndex nodeId rightId)
      (fun index => mergeLeaves frame.pageId index (fixInternalUnderflow rest frame.pageId)) frame parent
      ((fixLeafUnderflow nodeId (frame :: rest)).run tree) := by
  refine repair_cases richLeaf standing count place (fun _ => rfl) fun index inside => ?_
  obtain ⟨sibling, found⟩ := siblings _ (List.getElem_mem inside)
  exact richLeaf_probes (List.getElem?_eq_getElem inside) found

end Fixes

section Borrowing

variable {parentId siblingId nodeId : PageId} {sibling : InternalNode} {separator key : Key} {keys : List Key} {child : PageReference}
  {children : List PageReference} (parentFound : tree.internals.lookup parentId = some parent)
  (siblingFound : tree.internals.lookup siblingId = some sibling)
include parentFound siblingFound

theorem borrowFromLeftInternal_run (between : parent.keys[index - 1]? = some separator) (count : sibling.keyCount = sibling.keys.length)
    (keysParts : sibling.keys = keys ++ [key]) (childrenParts : sibling.children = children ++ [child])
    (same : children.length = keys.length + 1) :
    (borrowFromLeftInternal parentId index siblingId nodeId).run tree =
      (onInternal siblingId (fun left => left.assignEntries left.keys.dropLast left.children.dropLast) >>= fun _ =>
        setParentKey parentId (index - 1) key >>= fun _ =>
        onInternal nodeId fun node => node.assignEntries (separator :: node.keys) (child :: node.children)).run tree := by
  have keyRead : sibling.keys[sibling.keyCount - 1]? = some key := by simp [count, keysParts]
  have childRead : sibling.children[sibling.keyCount]? = some child := by simp [count, keysParts, childrenParts, ← same]
  rw [borrowFromLeftInternal, run_bind_ok (internal_found parentFound), run_bind_ok (ofOption_run between _),
    run_bind_ok (internal_found siblingFound), run_bind_ok (ofOption_run keyRead _), run_bind_ok (ofOption_run childRead _)]

theorem borrowFromRightInternal_run (between : parent.keys[index]? = some separator) (keysParts : sibling.keys = key :: keys)
    (childrenParts : sibling.children = child :: children) :
    (borrowFromRightInternal parentId index nodeId siblingId).run tree =
      (onInternal siblingId (fun right => right.assignEntries right.keys.tail right.children.tail) >>= fun _ =>
        setParentKey parentId index key >>= fun _ =>
        onInternal nodeId fun node => node.assignEntries (node.keys ++ [separator]) (node.children ++ [child])).run tree := by
  have keyRead : sibling.keys[0]? = some key := by simp [keysParts]
  have childRead : sibling.children[0]? = some child := by simp [childrenParts]
  rw [borrowFromRightInternal, run_bind_ok (internal_found parentFound), run_bind_ok (ofOption_run between _),
    run_bind_ok (internal_found siblingFound), run_bind_ok (ofOption_run keyRead _), run_bind_ok (ofOption_run childRead _)]

end Borrowing

theorem concat_of_pos {α : Type} {items : List α} (any : 0 < items.length) : ∃ front last, items = front ++ [last] :=
  (List.eq_nil_or_concat' items).resolve_left (List.ne_nil_of_length_pos any)

/-- Two children that stand next to each other. -/
theorem pair_of_refs {κ : Type} {heap : PageId → Option (Node PageId κ)} {top height : Nat} {root parentId : PageId}
    {path : List (PageId × Nat)} {before after keys : List κ} {outside : List PageId} {refs : List PageReference}
    {firstRef secondRef : PageReference} (above : Within heap top root path (height + 1) parentId before after outside)
    (grown : Tree heap (height + 1) parentId) (found : heap parentId = some (.branch keys (refs.map (·.pageId))))
    (firstHere : refs[index]? = some firstRef) (secondHere : refs[index + 1]? = some secondRef) :
    ∃ separator leftKeys rightKeys left right, keys[index]? = some separator ∧ Pair heap top root path height parentId index
      firstRef.pageId secondRef.pageId separator leftKeys rightKeys before after left right outside := by
  have inside : index < keys.length := by
    have count := ((tree_branch found).mp grown).1
    have short := (List.getElem?_eq_some_iff.mp secondHere).1
    rw [List.length_map] at count
    omega
  obtain ⟨first, second, leftKeys, rightKeys, left, right, pair, one, two⟩ :=
    above.pair grown found (List.getElem?_eq_getElem inside)
  rw [List.getElem?_map, firstHere] at one
  rw [List.getElem?_map, secondHere] at two
  cases one
  cases two
  exact ⟨_, leftKeys, rightKeys, left, right, List.getElem?_eq_getElem inside, pair⟩

end Rebalance
end Quartz.Btree
