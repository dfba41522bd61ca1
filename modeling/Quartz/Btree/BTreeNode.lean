import Quartz.Btree.Key
import Quartz.Format.PageReference
import Quartz.Pages.IndexPage
import Quartz.Serialization.BinaryWriter

/-! What leaves and internal nodes share: the configuration, the capacity that follows
from it, and the header in front of the entries. A node's page receives what a writer makes of
the blocks the node hands to it; a call that does not name the writer takes it to append them. -/

namespace Quartz.Btree
open Storage Serialization Format Pages

def kNodeBodyMagic : UInt32 := 0x45525442
def kDataSize : Nat := 3992
def kBodyHeaderSize : Nat := 4 + PageReference.kSize + 4 + 1 + 1 + 2
def kEntryAreaSize : Nat := kDataSize - kBodyHeaderSize

inductive NodeType where
  | leaf
  | internal
  deriving DecidableEq, Repr

def NodeType.number : NodeType → Nat
  | .leaf => 1
  | .internal => 2

structure BTreeNodeConfig where
  keyType : KeyType := .uint32
  binaryKeySize : UInt16 := 0
  allowDuplicates : Bool := false
  level : UInt32 := 0
  deriving DecidableEq, Repr

def minKeyCount (capacity : Nat) (isRoot : Bool) : Nat := if isRoot then 0 else capacity / 2

def isUnderfull (keyCount capacity : Nat) (isRoot : Bool) : Bool := !isRoot && keyCount < minKeyCount capacity false

def keyWireSize (config : BTreeNodeConfig) : Nat :=
  match config.keyType with
  | .uint32 => 1 + 4
  | .uint64 => 1 + 8
  | .binary => 1 + 2 + config.binaryKeySize.toNat
  | .other _ => 0

/-- Leaves and internal nodes have entries of one size. -/
def entrySize (config : BTreeNodeConfig) : Nat := keyWireSize config + PageReference.kSize

/-- An internal node keeps one child in front of its pairs of key and right child. -/
def computeCapacity (config : BTreeNodeConfig) : NodeType → Nat
  | .leaf => kEntryAreaSize / entrySize config
  | .internal => (kEntryAreaSize - PageReference.kSize) / entrySize config

structure BTreeNode where
  page : IndexPage
  config : BTreeNodeConfig := {}
  parent : PageReference := .invalid
  deriving DecidableEq, Repr

namespace BTreeNode

def pageId (node : BTreeNode) : PageId := node.page.id
def keyCount (node : BTreeNode) : Nat := node.page.layout.keyCount
def capacity (node : BTreeNode) : Nat := node.page.layout.capacity
def level (node : BTreeNode) : UInt32 := node.config.level
def allowsDuplicates (node : BTreeNode) : Bool := node.page.layout.flags % 2 == 1

def headerBlocks (node : BTreeNode) : List (List UInt8) :=
  [Bytes.encode 4 kNodeBodyMagic.toNat, node.parent.serialize, Bytes.encode 4 node.config.level.toNat,
    Bytes.encode 1 node.config.keyType.byte.toNat, Bytes.encode 1 (if node.config.allowDuplicates then 1 else 0),
    Bytes.encode 2 node.config.binaryKeySize.toNat]

def headerBytes (node : BTreeNode) : List UInt8 := node.headerBlocks.flatten

def setKeyCount (node : BTreeNode) (count : Nat) : BTreeNode := { node with page := node.page.setKeyCount count }

/-- Stores the header of the body; its thirty-two bytes always fit. -/
def syncHeader (node : BTreeNode) (writing : Writing := appending) : BTreeNode :=
  { node with page := { node.page with layout := { node.page.layout with
      data := node.page.layout.data.store 0 (writing node.headerBlocks)
      reserved0 := node.config.level.toUInt64 } } }

/-- Clears the entries and stores new ones when they fit. -/
def storeEntries (node : BTreeNode) (entries : List UInt8) : BTreeNode :=
  { node with page := { node.page with layout := { node.page.layout with
      data := node.page.layout.data.store kBodyHeaderSize
        (entries ++ List.replicate (kEntryAreaSize - entries.length) 0) } } }

/-- A page without the magic number keeps the configuration it comes with; another magic
number leaves all of it alone. -/
def loadHeader (node : BTreeNode) : Status × BTreeNode :=
  let data := node.page.layout.data.bytes
  let magic := Bytes.field data 0 4
  if magic ≠ kNodeBodyMagic.toNat ∧ magic ≠ 0 then (Status.corruption "BTreeNode: invalid body magic", node)
  else if magic = 0 then
    (Status.success, { node with
      config := { node.config with level := node.page.layout.reserved0.toUInt32 }, parent := .invalid })
  else
    (Status.success, { node with
      parent := PageReference.ofBytes ((data.drop 4).take PageReference.kSize)
      config := ⟨KeyType.ofByte (UInt8.ofNat (Bytes.field data 28 1)), UInt16.ofNat (Bytes.field data 30 2),
        Bytes.field data 29 1 != 0, UInt32.ofNat (Bytes.field data 24 4)⟩ })

def initializeHeader (node : BTreeNode) (type : NodeType) (config : BTreeNodeConfig) (writing : Writing := appending) :
    BTreeNode :=
  BTreeNode.syncHeader
    { page := { node.page with layout :=
        { nodeType := type.number
          keyCount := 0
          capacity := computeCapacity config type
          flags := if config.allowDuplicates then 1 else 0
          reserved0 := config.level.toUInt64 } }
      config := config } writing

def entryReader (node : BTreeNode) : BinaryReader := { view := node.page.layout.data.bytes.drop kBodyHeaderSize }

end BTreeNode
end Quartz.Btree
