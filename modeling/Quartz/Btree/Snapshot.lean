import Quartz.Btree.Operations

/-! Snapshots: the scalars of a tree in front of the pages of its nodes. The nodes are written in
the order in which the two maps are walked, which the maps do not fix. -/

namespace Quartz.Btree
open Storage Serialization Pages

variable {ω : Type}

namespace BTree

/-- An order in which the nodes of a tree may be walked. -/
structure Enumeration (tree : BTree ω) where
  leaves : List LeafNode
  internals : List InternalNode
  allLeaves : leaves.Perm (tree.leaves.entries.map Sigma.snd)
  allInternals : internals.Perm (tree.internals.entries.map Sigma.snd)

def listed (tree : BTree ω) : tree.Enumeration where
  leaves := tree.leaves.entries.map Sigma.snd
  internals := tree.internals.entries.map Sigma.snd
  allLeaves := List.Perm.refl _
  allInternals := List.Perm.refl _

def nodeCount (tree : BTree ω) : Nat := tree.leaves.entries.length + tree.internals.entries.length

/-- The blocks a tree hands to its writer; `kept` is what the syncs of the nodes have left in the data of
their pages. -/
def blocks (tree : BTree ω) (order : tree.Enumeration) (kept : Bytes.Block 3992 → Bytes.Block 3992) : List (List UInt8) :=
  [Bytes.encode 4 tree.rootId.toNat, Bytes.encode 8 tree.size.toNat, Bytes.encode 4 tree.height.toNat,
    Bytes.encode 1 tree.config.keyType.byte.toNat, Bytes.encode 2 tree.config.binaryKeySize.toNat,
    Bytes.encode 1 (if tree.config.allowDuplicates then 1 else 0), Bytes.encode 4 tree.nodeCount] ++
    (order.leaves.map fun leaf => (leaf.page.withData kept).serialize) ++
    order.internals.map fun node => (node.page.withData kept).serialize

/-- The snapshot, with writers that append unless others are named. -/
def serialize (tree : BTree ω) (order : tree.Enumeration) (writing : Writing := appending)
    (kept : Bytes.Block 3992 → Bytes.Block 3992 := id) : List UInt8 :=
  writing (tree.blocks order kept)

end BTree

/-- A tree that is being read. What was read before a failure stays in it. -/
abbrev LoadM (ω : Type) := Fallible (BTree ω × BinaryReader) Status

namespace LoadM

/-- A read that fails leaves the reader where it was. -/
def fetch {α : Type} (decoder : Decoder α) : LoadM ω α := fun state =>
  match decoder.run state.2 with
  | .ok (value, reader) => (.ok value, (state.1, reader))
  | .error status => (.error status, state)

def store (change : BTree ω → BTree ω) : LoadM ω Unit := Fallible.update fun state => (change state.1, state.2)

end LoadM

/-- An entry that is there stays. -/
def emplace {β : Type} (entries : AList fun _ : PageId => β) (id : PageId) (value : β) : AList fun _ : PageId => β :=
  if id ∈ entries then entries else entries.insert id value

namespace BTree

def loadNode : LoadM ω Unit := do
  let page ← LoadM.fetch IndexPage.deserialize
  if page.layout.nodeType = NodeType.leaf.number then
    LoadM.store fun tree => { tree with leaves := emplace tree.leaves page.id (LeafNode.fromPage page) }
  else if page.layout.nodeType = NodeType.internal.number then
    LoadM.store fun tree => { tree with internals := emplace tree.internals page.id (InternalNode.fromPage page) }
  else Fallible.fail (Status.corruption "BTree: unknown node type in snapshot")

def loadNodes : Nat → LoadM ω Unit
  | 0 => pure ()
  | count + 1 => do
    loadNode
    loadNodes count

def deserialize : LoadM ω Unit := do
  LoadM.store clear
  let rootId ← LoadM.fetch (BinaryReader.read 4)
  LoadM.store fun tree => { tree with rootId := UInt32.ofNat rootId }
  let size ← LoadM.fetch (BinaryReader.read 8)
  LoadM.store fun tree => { tree with size := UInt64.ofNat size }
  let height ← LoadM.fetch (BinaryReader.read 4)
  LoadM.store fun tree => { tree with height := UInt32.ofNat height }
  let keyType ← LoadM.fetch (BinaryReader.read 1)
  LoadM.store fun tree => { tree with config := { tree.config with keyType := KeyType.ofByte (UInt8.ofNat keyType) } }
  let binaryKeySize ← LoadM.fetch (BinaryReader.read 2)
  LoadM.store fun tree => { tree with config := { tree.config with binaryKeySize := UInt16.ofNat binaryKeySize } }
  let allowDuplicates ← LoadM.fetch (BinaryReader.read 1)
  LoadM.store fun tree => { tree with config := { tree.config with allowDuplicates := allowDuplicates != 0 } }
  let count ← LoadM.fetch (BinaryReader.read 4)
  loadNodes count

end BTree
end Quartz.Btree
