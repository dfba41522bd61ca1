import Quartz.Btree.BTreeNode

/-! Leaves: sorted keys with one reference each. -/

namespace Quartz.Btree
open Storage Serialization Format Pages

structure LeafNode extends BTreeNode where
  keys : List Key := []
  refs : List PageReference := []
  deriving DecidableEq, Repr

namespace LeafNode

def entryBytes (leaf : LeafNode) : List UInt8 :=
  (leaf.keys.zip leaf.refs).flatMap fun entry => entry.1.serialize ++ entry.2.serialize

def entryBlocks (leaf : LeafNode) : List (List UInt8) :=
  (leaf.keys.zip leaf.refs).flatMap fun entry => entry.1.blocks ++ [entry.2.serialize]

theorem flatten_entryBlocks (entries : List (Key × PageReference)) :
    (entries.flatMap fun entry => entry.1.blocks ++ [entry.2.serialize]).flatten =
      entries.flatMap fun entry => entry.1.serialize ++ entry.2.serialize := by
  induction entries with
  | nil => rfl
  | cons entry rest ih => simp [ih]

theorem appending_entryBlocks (leaf : LeafNode) : appending leaf.entryBlocks = leaf.entryBytes :=
  flatten_entryBlocks (leaf.keys.zip leaf.refs)

def syncEntries (leaf : LeafNode) (writing : Writing := appending) : Status × LeafNode :=
  let leaf := { leaf with toBTreeNode := leaf.syncHeader writing }
  let bytes := writing leaf.entryBlocks
  if bytes.length > kEntryAreaSize then
    (Status.corruption "LeafNode: entry data exceeds page capacity", leaf)
  else (Status.success, { leaf with toBTreeNode := (leaf.storeEntries bytes).setKeyCount leaf.keys.length })

def setEntries (leaf : LeafNode) (keys : List Key) (refs : List PageReference) (writing : Writing := appending) :
    Status × LeafNode :=
  LeafNode.syncEntries { toBTreeNode := leaf.setKeyCount keys.length, keys := keys, refs := refs } writing

def create (pageId : PageId) (config : BTreeNodeConfig) (writing : Writing := appending) : LeafNode where
  toBTreeNode := BTreeNode.initializeHeader { page := IndexPage.create pageId } .leaf config writing

/-- Reads entries up to the first that cannot be read. -/
def loadFrom (binaryKeySize : UInt16) : Nat → BinaryReader → List (Key × PageReference)
  | 0, _ => []
  | count + 1, reader =>
    match (do return (← Key.deserialize binaryKeySize, ← PageReference.deserialize) : Decoder _).run reader with
    | .ok (entry, reader) => entry :: loadFrom binaryKeySize count reader
    | .error _ => []

/-- The status of the load is dropped; what was read before a failure stays. -/
def fromPage (page : IndexPage) : LeafNode :=
  let (status, node) := BTreeNode.loadHeader { page := page }
  if !status.ok then { toBTreeNode := node }
  else
    let entries := loadFrom node.config.binaryKeySize node.keyCount node.entryReader
    { toBTreeNode := node, keys := entries.map Prod.fst, refs := entries.map Prod.snd }

def lowerBound (leaf : LeafNode) (key : Key) : Nat := KeyComparator.lowerBound leaf.keys key
def upperBound (leaf : LeafNode) (key : Key) : Nat := KeyComparator.upperBound leaf.keys key
def find (leaf : LeafNode) (key : Key) : Nat := KeyComparator.find leaf.keys key

def insert (leaf : LeafNode) (key : Key) (ref : PageReference) (writing : Writing := appending) : Status × LeafNode :=
  if !ref.isValid then (Status.invalidArgument "LeafNode: invalid page reference", leaf)
  else if leaf.keyCount ≥ leaf.capacity then (Status.invalidArgument "LeafNode: node is full", leaf)
  else
    let pos := leaf.lowerBound key
    if !leaf.allowsDuplicates && leaf.keys[pos]?.any (fun item => KeyComparator.equal item key) then
      (Status.invalidArgument "LeafNode: duplicate key", leaf)
    else leaf.setEntries (leaf.keys.insertIdx pos key) (leaf.refs.insertIdx pos ref) writing

def eraseAt (leaf : LeafNode) (index : Nat) (writing : Writing := appending) : Status × LeafNode :=
  if index ≥ leaf.keys.length then (Status.invalidArgument "LeafNode: index out of range", leaf)
  else leaf.setEntries (leaf.keys.eraseIdx index) (leaf.refs.eraseIdx index) writing

/-- Of equal keys the first goes. -/
def erase (leaf : LeafNode) (key : Key) (writing : Writing := appending) : Status × LeafNode :=
  if leaf.find key ≥ leaf.keys.length then (Status.invalidArgument "LeafNode: key not found", leaf)
  else leaf.eraseAt (leaf.find key) writing

def assignEntries (leaf : LeafNode) (keys : List Key) (refs : List PageReference) (writing : Writing := appending) :
    Status × LeafNode :=
  if keys.length ≠ refs.length then (Status.invalidArgument "LeafNode: key/reference size mismatch", leaf)
  else if keys.length > leaf.capacity then (Status.invalidArgument "LeafNode: exceeds capacity", leaf)
  else leaf.setEntries keys refs writing

/-- Some key is not above the one before it. -/
def unsorted (allowDuplicates : Bool) : List Key → Bool
  | first :: second :: rest =>
    (!KeyComparator.less first second && (!allowDuplicates || !KeyComparator.equal first second)) ||
      unsorted allowDuplicates (second :: rest)
  | _ => false

def validate (leaf : LeafNode) : Status :=
  let status := leaf.page.validate
  if !status.ok then status
  else if leaf.page.layout.nodeType ≠ NodeType.leaf.number then Status.corruption "LeafNode: wrong node type"
  else if leaf.keys.length ≠ leaf.refs.length then Status.corruption "LeafNode: key/reference count mismatch"
  else if leaf.keys.length ≠ leaf.keyCount then Status.corruption "LeafNode: header key count mismatch"
  else if unsorted leaf.allowsDuplicates leaf.keys then Status.corruption "LeafNode: keys not sorted"
  else Status.success

end LeafNode

inductive LeafCall where
  | insert (key : Key) (ref : PageReference)
  | erase (key : Key)
  | eraseAt (index : Nat)
  | assignEntries (keys : List Key) (refs : List PageReference)
  deriving DecidableEq, Repr

def LeafCall.perform (leaf : LeafNode) (call : LeafCall) (writing : Writing := appending) : Status × LeafNode :=
  match call with
  | .insert key ref => leaf.insert key ref writing
  | .erase key => leaf.erase key writing
  | .eraseAt index => leaf.eraseAt index writing
  | .assignEntries keys refs => leaf.assignEntries keys refs writing

def LeafCall.step (leaf : LeafNode) (call : LeafCall) : LeafNode := (call.perform leaf).2

end Quartz.Btree
