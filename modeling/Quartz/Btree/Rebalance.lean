import Quartz.Btree.BTree

/-! Splits on the way up from an insertion; borrowing and merging on the way up from an
erasure. -/

namespace Quartz.Btree.Rebalance
open Storage Format TreeM BTree

variable {ω : Type} [BTreeWalSink ω]

def setParentKey (parentId : PageId) (index : Nat) (key : Key) : TreeM ω Unit :=
  onInternal parentId fun parent => parent.setKeyAt index key

/-- Everything of the split of a full internal node but the insertion into its parent:
the promoted key and the new sibling. -/
def splitInternal (nodeId : PageId) (insertIndex : Nat) (key : Key) (rightChild : PageReference) :
    TreeM ω (Key × PageId) := do
  let node ← internal nodeId
  let keys := node.keys.insertIdx insertIndex key
  let children := node.children.insertIdx (insertIndex + 1) rightChild
  let splitIdx := keys.length / 2
  let promoted ← ofOption keys[splitIdx]?
  onInternal nodeId fun node => node.assignEntries (keys.take splitIdx) (children.take (splitIdx + 1))
  let siblingId ← allocateInternal node.level
  onInternal siblingId fun sibling => sibling.assignEntries (keys.drop (splitIdx + 1)) (children.drop (splitIdx + 1))
  notify (.nodeSplit nodeId siblingId promoted)
  pure (promoted, siblingId)

/-- A full parent is split in turn, with the rest of the path. -/
def insertIntoParent : List SearchPathEntry → Key → PageId → PageId → TreeM ω Unit
  | [], promoted, leftId, rightId => do
    let rootId ← allocateInternal (← Fallible.read).height
    onInternal rootId fun root => root.assignEntries [promoted] [makeIndexRef leftId, makeIndexRef rightId]
    Fallible.update fun tree => { tree with rootId := rootId, height := tree.height + 1 }
  | frame :: rest, promoted, _, rightId => do
    let parent ← internal frame.pageId
    if parent.keyCount < parent.capacity then
      onInternal frame.pageId fun parent => parent.insert frame.childIndex promoted (makeIndexRef rightId)
    else
      let split ← splitInternal frame.pageId frame.childIndex promoted (makeIndexRef rightId)
      insertIntoParent rest split.1 frame.pageId split.2

/-- The key in the middle goes up and its reference goes nowhere. -/
def splitAndInsertLeaf (leafId : PageId) (path : List SearchPathEntry) (key : Key) (value : PageReference) :
    TreeM ω Unit := do
  let node ← leaf leafId
  let pos := KeyComparator.lowerBound node.keys key
  let keys := node.keys.insertIdx pos key
  let refs := node.refs.insertIdx pos value
  let splitIdx := keys.length / 2
  let promoted ← ofOption keys[splitIdx]?
  onLeaf leafId fun node => node.assignEntries (keys.take splitIdx) (refs.take splitIdx)
  let siblingId ← allocateLeaf node.level
  onLeaf siblingId fun sibling => sibling.assignEntries (keys.drop (splitIdx + 1)) (refs.drop (splitIdx + 1))
  notify (.nodeSplit leafId siblingId promoted)
  insertIntoParent path promoted leafId siblingId

def borrowFromLeftLeaf (parentId : PageId) (childIndex : Nat) (leftId nodeId : PageId) : TreeM ω Unit := do
  let separator ← ofOption (← internal parentId).keys[childIndex - 1]?
  let left ← leaf leftId
  let leftKey ← ofOption left.keys[left.keyCount - 1]?
  let leftRef ← ofOption left.refs[left.keyCount - 1]?
  onLeaf leftId fun left => left.eraseAt (left.keyCount - 1)
  setParentKey parentId (childIndex - 1) leftKey
  onLeaf nodeId fun node => node.assignEntries (separator :: node.keys) (leftRef :: node.refs)

def borrowFromRightLeaf (parentId : PageId) (childIndex : Nat) (nodeId rightId : PageId) : TreeM ω Unit := do
  let separator ← ofOption (← internal parentId).keys[childIndex]?
  let right ← leaf rightId
  let rightKey ← ofOption right.keys[0]?
  let rightRef ← ofOption right.refs[0]?
  onLeaf rightId fun right => right.eraseAt 0
  setParentKey parentId childIndex rightKey
  onLeaf nodeId fun node => node.assignEntries (node.keys ++ [separator]) (node.refs ++ [rightRef])

/-- The common end of every merge: the removed node is released and its place in the parent
goes; a root without keys gives way to its only child, and another parent that has become
underfull is fixed in turn. -/
def finishMerge (parentId : PageId) (index : Nat) (survivorId removedId : PageId)
    (fixInternalUnderflow : TreeM ω Unit) : TreeM ω Unit := do
  onInternal parentId fun parent => parent.eraseAt index
  notify (.nodeMerge survivorId removedId)
  releaseNode removedId
  let parent ← internal parentId
  let tree ← Fallible.read
  if parentId = tree.rootId ∧ parent.keyCount = 0 then
    let newRoot ← ofOption parent.children[0]?
    releaseNode parentId
    Fallible.update fun tree => { tree with
      rootId := newRoot.pageId
      height := if tree.height > 0 then tree.height - 1 else tree.height }
  else if isUnderfull parent.keyCount parent.capacity (decide (parentId = tree.rootId)) then fixInternalUnderflow
  else pure ()

/-- The entries of two leaves together. Those of the right one are taken by index up to the count in its page. -/
def mergedLeafEntries (left right : LeafNode) : Option (List Key × List PageReference) :=
  if right.keyCount > right.keys.length ∨ right.keyCount > right.refs.length then none
  else some (left.keys ++ right.keys.take right.keyCount, left.refs ++ right.refs.take right.keyCount)

def mergeLeaves (parentId : PageId) (index : Nat) (fixInternalUnderflow : TreeM ω Unit) : TreeM ω Unit := do
  let parent ← internal parentId
  let leftId := (← ofOption parent.children[index]?).pageId
  let left ← leaf leftId
  let rightId := (← ofOption parent.children[index + 1]?).pageId
  let right ← leaf rightId
  let entries ← ofOption (mergedLeafEntries left right)
  onLeaf leftId fun _ => left.assignEntries entries.1 entries.2
  finishMerge parentId index leftId rightId fixInternalUnderflow

/-- The separator comes down between the keys, but the right node's first child is left out. -/
def mergedInternalEntries (left : InternalNode) (separator : Key) (right : InternalNode) : List Key × List PageReference :=
  (left.keys ++ separator :: right.keys, left.children ++ right.children.tail)

def mergeInternals (parentId : PageId) (index : Nat) (fixInternalUnderflow : TreeM ω Unit) : TreeM ω Unit := do
  let parent ← internal parentId
  let leftId := (← ofOption parent.children[index]?).pageId
  let left ← internal leftId
  let rightId := (← ofOption parent.children[index + 1]?).pageId
  let right ← internal rightId
  let separator ← ofOption parent.keys[index]?
  let entries := mergedInternalEntries left separator right
  onInternal leftId fun _ => left.assignEntries entries.1 entries.2
  finishMerge parentId index leftId rightId fixInternalUnderflow

def borrowFromLeftInternal (parentId : PageId) (childIndex : Nat) (leftId nodeId : PageId) : TreeM ω Unit := do
  let separator ← ofOption (← internal parentId).keys[childIndex - 1]?
  let left ← internal leftId
  let leftKey ← ofOption left.keys[left.keyCount - 1]?
  let leftChild ← ofOption left.children[left.keyCount]?
  onInternal leftId fun left => left.assignEntries left.keys.dropLast left.children.dropLast
  setParentKey parentId (childIndex - 1) leftKey
  onInternal nodeId fun node => node.assignEntries (separator :: node.keys) (leftChild :: node.children)

def borrowFromRightInternal (parentId : PageId) (childIndex : Nat) (nodeId rightId : PageId) : TreeM ω Unit := do
  let separator ← ofOption (← internal parentId).keys[childIndex]?
  let right ← internal rightId
  let rightKey ← ofOption right.keys[0]?
  let rightChild ← ofOption right.children[0]?
  onInternal rightId fun right => right.assignEntries right.keys.tail right.children.tail
  setParentKey parentId childIndex rightKey
  onInternal nodeId fun node => node.assignEntries (node.keys ++ [separator]) (node.children ++ [rightChild])

def mergeInternalLeft (parentId : PageId) (childIndex : Nat) (fix : TreeM ω Unit) : TreeM ω Unit :=
  mergeInternals parentId (childIndex - 1) fix

def mergeInternalRight (parentId : PageId) (childIndex : Nat) (fix : TreeM ω Unit) : TreeM ω Unit :=
  mergeInternals parentId childIndex fix

/-- The sibling at a place of the parent, if there is one and it has keys to spare. -/
def richLeaf (present : Bool) (parent : InternalNode) (index : Nat) : TreeM ω (Option PageId) :=
  if present then do
    let siblingId := (← ofOption parent.children[index]?).pageId
    let sibling ← leaf siblingId
    pure (if sibling.keyCount > minKeyCount sibling.capacity false then some siblingId else none)
  else pure none

def richInternal (present : Bool) (parent : InternalNode) (index : Nat) : TreeM ω (Option PageId) :=
  if present then do
    let siblingId := (← ofOption parent.children[index]?).pageId
    let sibling ← internal siblingId
    pure (if sibling.keyCount > minKeyCount sibling.capacity false then some siblingId else none)
  else pure none

/-- The left sibling is asked first, then the right one; then the node is merged. -/
def fixInternalUnderflow : List SearchPathEntry → PageId → TreeM ω Unit
  | [], _ => pure ()
  | frame :: rest, nodeId => do
    let parent ← internal frame.pageId
    let left ← richInternal (frame.childIndex > 0) parent (frame.childIndex - 1)
    match left with
    | some leftId => borrowFromLeftInternal frame.pageId frame.childIndex leftId nodeId
    | none =>
      let right ← richInternal (frame.childIndex + 1 ≤ parent.keyCount) parent (frame.childIndex + 1)
      match right with
      | some rightId => borrowFromRightInternal frame.pageId frame.childIndex nodeId rightId
      | none =>
        if frame.childIndex > 0 then
          mergeInternalLeft frame.pageId frame.childIndex (fixInternalUnderflow rest frame.pageId)
        else mergeInternalRight frame.pageId frame.childIndex (fixInternalUnderflow rest frame.pageId)

def mergeLeafLeft (path : List SearchPathEntry) (parentId : PageId) (childIndex : Nat) : TreeM ω Unit :=
  mergeLeaves parentId (childIndex - 1) (fixInternalUnderflow path.tail parentId)

def mergeLeafRight (path : List SearchPathEntry) (parentId : PageId) (childIndex : Nat) : TreeM ω Unit :=
  mergeLeaves parentId childIndex (fixInternalUnderflow path.tail parentId)

def fixLeafUnderflow (leafId : PageId) (path : List SearchPathEntry) : TreeM ω Unit := do
  match path with
  | [] => pure ()
  | frame :: _ =>
    let parent ← internal frame.pageId
    let left ← richLeaf (frame.childIndex > 0) parent (frame.childIndex - 1)
    match left with
    | some leftId => borrowFromLeftLeaf frame.pageId frame.childIndex leftId leafId
    | none =>
      let right ← richLeaf (frame.childIndex + 1 ≤ parent.keyCount) parent (frame.childIndex + 1)
      match right with
      | some rightId => borrowFromRightLeaf frame.pageId frame.childIndex leafId rightId
      | none =>
        if frame.childIndex > 0 then mergeLeafLeft path frame.pageId frame.childIndex
        else mergeLeafRight path frame.pageId frame.childIndex

end Quartz.Btree.Rebalance
