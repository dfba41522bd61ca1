import Quartz.Btree.LeafNode

/-! Internal nodes: separators and one child more than there are separators. -/

namespace Quartz.Btree
open Storage Serialization Format Pages

structure InternalNode extends BTreeNode where
  keys : List Key := []
  children : List PageReference := []
  deriving DecidableEq, Repr

namespace InternalNode

def entryBytes (node : InternalNode) : List UInt8 :=
  (node.children.headD .invalid).serialize ++
    (node.keys.zip node.children.tail).flatMap fun entry => entry.1.serialize ++ entry.2.serialize

def entryBlocks (node : InternalNode) : List (List UInt8) :=
  (node.children.headD .invalid).serialize ::
    (node.keys.zip node.children.tail).flatMap fun entry => entry.1.blocks ++ [entry.2.serialize]

theorem appending_entryBlocks (node : InternalNode) : appending node.entryBlocks = node.entryBytes := by
  rw [appending, entryBlocks, entryBytes, List.flatten_cons, LeafNode.flatten_entryBlocks]

def syncEntries (node : InternalNode) (writing : Writing := appending) : Status × InternalNode :=
  let node := { node with toBTreeNode := node.syncHeader writing }
  let bytes := writing node.entryBlocks
  if bytes.length > kEntryAreaSize then
    (Status.corruption "InternalNode: entry data exceeds page capacity", node)
  else (Status.success, { node with toBTreeNode := (node.storeEntries bytes).setKeyCount node.keys.length })

def setEntries (node : InternalNode) (keys : List Key) (children : List PageReference) (writing : Writing := appending) :
    Status × InternalNode :=
  InternalNode.syncEntries { toBTreeNode := node.setKeyCount keys.length, keys := keys, children := children } writing

def create (pageId : PageId) (config : BTreeNodeConfig) (writing : Writing := appending) : InternalNode where
  toBTreeNode := BTreeNode.initializeHeader { page := IndexPage.create pageId } .internal config writing
  children := [.invalid]

/-- The status of the load is dropped; what was read before a failure stays. -/
def fromPage (page : IndexPage) : InternalNode :=
  let (status, node) := BTreeNode.loadHeader { page := page }
  if !status.ok then { toBTreeNode := node }
  else
    match PageReference.deserialize.run node.entryReader with
    | .error _ => { toBTreeNode := node }
    | .ok (leftChild, reader) =>
      let entries := LeafNode.loadFrom node.config.binaryKeySize node.keyCount reader
      { toBTreeNode := node, keys := entries.map Prod.fst, children := leftChild :: entries.map Prod.snd }

def lowerBound (node : InternalNode) (key : Key) : Nat := KeyComparator.lowerBound node.keys key

def insert (node : InternalNode) (index : Nat) (key : Key) (rightChild : PageReference) (writing : Writing := appending) :
    Status × InternalNode :=
  if !rightChild.isValid then (Status.invalidArgument "InternalNode: invalid right child reference", node)
  else if index > node.keys.length then (Status.invalidArgument "InternalNode: index out of range", node)
  else if node.keys.length ≥ node.capacity then (Status.invalidArgument "InternalNode: node is full", node)
  else if !node.allowsDuplicates && node.keys.any (fun existing => KeyComparator.equal existing key) then
    (Status.invalidArgument "InternalNode: duplicate key", node)
  else node.setEntries (node.keys.insertIdx index key) (node.children.insertIdx (index + 1) rightChild) writing

/-- Removes a separator and the child to its right. -/
def eraseAt (node : InternalNode) (index : Nat) (writing : Writing := appending) : Status × InternalNode :=
  if index ≥ node.keys.length then (Status.invalidArgument "InternalNode: index out of range", node)
  else node.setEntries (node.keys.eraseIdx index) (node.children.eraseIdx (index + 1)) writing

def setKeyAt (node : InternalNode) (index : Nat) (key : Key) (writing : Writing := appending) : Status × InternalNode :=
  if index ≥ node.keys.length then (Status.invalidArgument "InternalNode: key index out of range", node)
  else InternalNode.syncEntries { node with keys := node.keys.set index key } writing

def assignEntries (node : InternalNode) (keys : List Key) (children : List PageReference) (writing : Writing := appending) :
    Status × InternalNode :=
  if children.length ≠ keys.length + 1 then (Status.invalidArgument "InternalNode: child count mismatch", node)
  else if keys.length > node.capacity then (Status.invalidArgument "InternalNode: exceeds capacity", node)
  else node.setEntries keys children writing

def validate (node : InternalNode) : Status :=
  let status := node.page.validate
  if !status.ok then status
  else if node.page.layout.nodeType ≠ NodeType.internal.number then Status.corruption "InternalNode: wrong node type"
  else if node.children.length ≠ node.keys.length + 1 then Status.corruption "InternalNode: child count mismatch"
  else if node.keys.length ≠ node.keyCount then Status.corruption "InternalNode: header key count mismatch"
  else if LeafNode.unsorted node.allowsDuplicates node.keys then Status.corruption "InternalNode: keys not sorted"
  else Status.success

end InternalNode

inductive InternalCall where
  | insert (index : Nat) (key : Key) (rightChild : PageReference)
  | eraseAt (index : Nat)
  | setKeyAt (index : Nat) (key : Key)
  | assignEntries (keys : List Key) (children : List PageReference)
  deriving DecidableEq, Repr

def InternalCall.perform (node : InternalNode) (call : InternalCall) (writing : Writing := appending) :
    Status × InternalNode :=
  match call with
  | .insert index key rightChild => node.insert index key rightChild writing
  | .eraseAt index => node.eraseAt index writing
  | .setKeyAt index key => node.setKeyAt index key writing
  | .assignEntries keys children => node.assignEntries keys children writing

def InternalCall.step (node : InternalNode) (call : InternalCall) : InternalNode := (call.perform node).2

end Quartz.Btree
