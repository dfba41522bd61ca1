import Quartz.Proofs.NodePages
import Quartz.Proofs.WrittenBlocks

/-! Nodes whose syncs go through the writer as it is. Header and entries reach the page as zeros, so
a node differs from one whose writer appends in the data of its page and in nothing else, and no call on
a node reads that data. A node that is read from such a page has lost its entries. -/

namespace Bytes.Block

theorem store_blank {size offset count : Nat} (inside : offset + count ≤ size) :
    (zeros size).store offset (List.replicate count 0) = zeros size := by
  refine ext ?_
  rw [store_inside _ (by rwa [List.length_replicate]), zeros, List.take_replicate, List.drop_replicate, List.length_replicate,
    List.replicate_append_replicate, List.replicate_append_replicate]
  congr 1
  omega

end Bytes.Block

namespace Quartz.Btree
open Storage Serialization BinaryWriter Format Pages Bytes

/-- The data of a page when nothing but zeros was stored in it. -/
def zeroed : Block 3992 → Block 3992 := fun _ => .zeros 3992

namespace BTreeNode

def blanked (node : BTreeNode) : BTreeNode := { node with page := node.page.withData zeroed }

variable {node : BTreeNode} {count : Nat}

theorem written_headerBlocks (node : BTreeNode) : written node.headerBlocks = List.replicate kBodyHeaderSize 0 := by
  have length : node.headerBlocks.flatten.length = kBodyHeaderSize := node.length_headerBytes
  rw [written_eq (by rw [length]; decide), length]

theorem syncHeader_blanked (node : BTreeNode) : node.blanked.syncHeader written = node.syncHeader.blanked := by
  have same : (Block.zeros 3992).store 0 (written node.headerBlocks) = Block.zeros 3992 := by
    rw [written_headerBlocks]
    exact Block.store_blank (by decide)
  change { node with page := { node.page with layout := { node.page.layout with
    data := (Block.zeros 3992).store 0 (written node.headerBlocks), reserved0 := node.config.level.toUInt64 } } } = _
  rw [same]
  rfl

theorem storeEntries_blanked (node : BTreeNode) {entries : List UInt8} (fits : entries.length ≤ kEntryAreaSize) :
    node.blanked.storeEntries (List.replicate entries.length 0) = (node.storeEntries entries).blanked := by
  have same : (Block.zeros 3992).store kBodyHeaderSize (List.replicate entries.length 0 ++
      List.replicate (kEntryAreaSize - (List.replicate entries.length (0 : UInt8)).length) 0) = Block.zeros 3992 := by
    rw [List.length_replicate, List.replicate_append_replicate, Nat.add_sub_cancel' fits]
    exact Block.store_blank (by decide)
  change { node with page := { node.page with layout := { node.page.layout with
    data := (Block.zeros 3992).store kBodyHeaderSize (List.replicate entries.length 0 ++
      List.replicate (kEntryAreaSize - (List.replicate entries.length (0 : UInt8)).length) 0) } } } = _
  rw [same]
  rfl

theorem initializeHeader_written (id : PageId) (type : NodeType) (config : BTreeNodeConfig) :
    initializeHeader { page := IndexPage.create id } type config written =
      (initializeHeader { page := IndexPage.create id } type config).blanked :=
  -- the data of a new page is zeros already
  syncHeader_blanked
    { page := { IndexPage.create id with layout :=
        { nodeType := type.number
          keyCount := 0
          capacity := computeCapacity config type
          flags := if config.allowDuplicates then 1 else 0
          reserved0 := config.level.toUInt64 } }
      config := config }

end BTreeNode

theorem length_pairBytes_le (entries : List (Key × PageReference)) : (pairBytes entries).length ≤ entries.length * 2 ^ 11 := by
  induction entries with
  | nil => exact Nat.zero_le _
  | cons entry rest ih =>
    have short := entry.1.length_serialize_lt
    rw [pairBytes_cons, List.length_append, List.length_append, PageReference.length_serialize, List.length_cons, PageReference.kSize]
    omega

/-- The entries of fewer keys than there are addresses fit into a buffer. -/
theorem written_pairs {blocks : List (List UInt8)} {front : List UInt8} {keys : List Key} {refs : List PageReference}
    (bytes : blocks.flatten = front ++ pairBytes (keys.zip refs)) (short : front.length < 2 ^ 10)
    (few : keys.length < 2 ^ 40) :
    written blocks = List.replicate (front ++ pairBytes (keys.zip refs)).length 0 := by
  have bound := length_pairBytes_le (keys.zip refs)
  rw [List.length_zip] at bound
  have small : (front ++ pairBytes (keys.zip refs)).length < lengthLimit := by
    rw [List.length_append, lengthLimit]
    omega
  rw [written_eq (by rwa [bytes]), bytes]

namespace LeafNode

def blanked (leaf : LeafNode) : LeafNode := { leaf with toBTreeNode := leaf.toBTreeNode.blanked }

theorem syncEntries_blanked (leaf : LeafNode) (few : leaf.keys.length < 2 ^ 40) :
    leaf.blanked.syncEntries written = leaf.syncEntries.map id blanked := by
  have bytes : leaf.entryBlocks.flatten = pairBytes (leaf.keys.zip leaf.refs) := leaf.appending_entryBlocks
  have zeros : written leaf.entryBlocks = List.replicate leaf.entryBytes.length 0 := @written_pairs _ [] _ _ bytes (by decide) few
  have header := leaf.toBTreeNode.syncHeader_blanked
  have own : ∀ node : BTreeNode, ({ leaf with toBTreeNode := node } : LeafNode).entryBlocks = leaf.entryBlocks := fun _ => rfl
  simp only [syncEntries, blanked, own, header, zeros, List.length_replicate, appending_entryBlocks]
  by_cases large : leaf.entryBytes.length > kEntryAreaSize
  · rw [if_pos large, if_pos large]
    rfl
  · rw [if_neg large, if_neg large, BTreeNode.storeEntries_blanked _ (Nat.not_lt.mp large)]
    rfl

theorem setEntries_blanked (leaf : LeafNode) {keys : List Key} (refs : List PageReference) (few : keys.length < 2 ^ 40) :
    leaf.blanked.setEntries keys refs written = (leaf.setEntries keys refs).map id blanked :=
  syncEntries_blanked { toBTreeNode := leaf.setKeyCount keys.length, keys := keys, refs := refs } few

theorem create_written (id : PageId) (config : BTreeNodeConfig) : create id config written = (create id config).blanked := by
  rw [create, BTreeNode.initializeHeader_written]
  rfl

theorem eraseAt_blanked (leaf : LeafNode) (few : leaf.keys.length < 2 ^ 40) (index : Nat) :
    leaf.blanked.eraseAt index written = (leaf.eraseAt index).map id blanked := by
  have fewer := List.length_eraseIdx_le leaf.keys index
  have sets := leaf.setEntries_blanked (leaf.refs.eraseIdx index) (Nat.lt_of_le_of_lt fewer few)
  simp only [eraseAt, apply_ite (Prod.map id blanked), ← sets]
  rfl

end LeafNode

/-- A call through the writer as it is answers as one whose writer appends, and leaves the same leaf on a blank page. -/
theorem LeafCall.perform_blanked (leaf : LeafNode) (call : LeafCall) (few : leaf.keys.length + call.keys.length < 2 ^ 40) :
    call.perform leaf.blanked written = (call.perform leaf).map id LeafNode.blanked := by
  have erases := leaf.eraseAt_blanked (Nat.lt_of_le_of_lt (Nat.le_add_right _ _) few)
  cases call with
  | insert key ref =>
    have count := Nat.lt_of_le_of_lt (@List.length_insertIdx_le_succ _ leaf.keys key (leaf.lowerBound key)) few
    have sets := leaf.setEntries_blanked (leaf.refs.insertIdx (leaf.lowerBound key) ref) count
    simp only [perform, LeafNode.insert, apply_ite (Prod.map id LeafNode.blanked), ← sets]
    rfl
  | erase key =>
    simp only [perform, LeafNode.erase, apply_ite (Prod.map id LeafNode.blanked), ← erases]
    rfl
  | eraseAt index => exact erases index
  | assignEntries keys refs =>
    have sets := @LeafNode.setEntries_blanked leaf keys refs (Nat.lt_of_le_of_lt (Nat.le_add_left _ _) few)
    simp only [perform, LeafNode.assignEntries, apply_ite (Prod.map id LeafNode.blanked), ← sets]
    rfl

namespace InternalNode

def blanked (node : InternalNode) : InternalNode := { node with toBTreeNode := node.toBTreeNode.blanked }

theorem syncEntries_blanked (node : InternalNode) (few : node.keys.length < 2 ^ 40) :
    node.blanked.syncEntries written = node.syncEntries.map id blanked := by
  have bytes : node.entryBlocks.flatten =
      (node.children.headD .invalid).serialize ++ pairBytes (node.keys.zip node.children.tail) := node.appending_entryBlocks
  have zeros : written node.entryBlocks = List.replicate node.entryBytes.length 0 :=
    written_pairs bytes (by rw [PageReference.length_serialize]; decide) few
  have header := node.toBTreeNode.syncHeader_blanked
  have own : ∀ body : BTreeNode, ({ node with toBTreeNode := body } : InternalNode).entryBlocks = node.entryBlocks :=
    fun _ => rfl
  simp only [syncEntries, blanked, own, header, zeros, List.length_replicate, appending_entryBlocks]
  by_cases large : node.entryBytes.length > kEntryAreaSize
  · rw [if_pos large, if_pos large]
    rfl
  · rw [if_neg large, if_neg large, BTreeNode.storeEntries_blanked _ (Nat.not_lt.mp large)]
    rfl

theorem setEntries_blanked (node : InternalNode) {keys : List Key} (children : List PageReference) (few : keys.length < 2 ^ 40) :
    node.blanked.setEntries keys children written = (node.setEntries keys children).map id blanked :=
  syncEntries_blanked { toBTreeNode := node.setKeyCount keys.length, keys := keys, children := children } few

theorem create_written (id : PageId) (config : BTreeNodeConfig) : create id config written = (create id config).blanked := by
  rw [create, BTreeNode.initializeHeader_written]
  rfl

end InternalNode

theorem InternalCall.perform_blanked (node : InternalNode) (call : InternalCall) (few : node.keys.length + call.keys.length < 2 ^ 40) :
    call.perform node.blanked written = (call.perform node).map id InternalNode.blanked := by
  cases call with
  | insert index key child =>
    have count := Nat.lt_of_le_of_lt (@List.length_insertIdx_le_succ _ node.keys key index) few
    have sets := node.setEntries_blanked (node.children.insertIdx (index + 1) child) count
    simp only [perform, InternalNode.insert, apply_ite (Prod.map id InternalNode.blanked), ← sets]
    rfl
  | eraseAt index =>
    have fewer := List.length_eraseIdx_le node.keys index
    have sets := node.setEntries_blanked (node.children.eraseIdx (index + 1)) (Nat.lt_of_le_of_lt fewer few)
    simp only [perform, InternalNode.eraseAt, apply_ite (Prod.map id InternalNode.blanked), ← sets]
    rfl
  | setKeyAt index key =>
    have count : (node.keys.set index key).length < 2 ^ 40 := by
      rw [List.length_set]
      exact Nat.lt_of_le_of_lt (Nat.le_add_right _ _) few
    have syncs : _ = _ := InternalNode.syncEntries_blanked { node with keys := node.keys.set index key } count
    simp only [perform, InternalNode.setKeyAt, apply_ite (Prod.map id InternalNode.blanked), ← syncs]
    rfl
  | assignEntries keys children =>
    have sets := @InternalNode.setEntries_blanked node keys children (Nat.lt_of_le_of_lt (Nat.le_add_left _ _) few)
    simp only [perform, InternalNode.assignEntries, apply_ite (Prod.map id InternalNode.blanked), ← sets]
    rfl

/-! ### Reading a blank page -/

theorem entryReader_zeroed (page : IndexPage) (config : BTreeNodeConfig) :
    BTreeNode.entryReader { page := page.withData zeroed, config := config } = { view := List.replicate kEntryAreaSize 0 } := by
  simp only [BTreeNode.entryReader, IndexPage.withData, zeroed, Block.zeros, List.drop_replicate]
  rfl

theorem loadHeader_zeroed (page : IndexPage) :
    BTreeNode.loadHeader { page := page.withData zeroed } =
      (Status.success, { page := page.withData zeroed, config := { level := page.layout.reserved0.toUInt32 } }) := by
  have magic : field (page.withData zeroed).layout.data.bytes 0 4 = 0 := by
    simp only [field, IndexPage.withData, zeroed, Block.zeros, List.drop_zero, List.take_replicate]
    rfl
  simp only [BTreeNode.loadHeader, magic]
  rw [if_neg (by decide)]
  rfl

theorem LeafNode.loadFrom_zeros (binaryKeySize : UInt16) (count : Nat) {offset : Nat} (inside : offset < kEntryAreaSize) :
    loadFrom binaryKeySize count ⟨List.replicate kEntryAreaSize 0, offset⟩ = [] := by
  have area : kEntryAreaSize + 1 < sizeLimit := by decide
  cases count with
  | zero => rfl
  | succ count => rw [loadFrom, entry_zeros binaryKeySize inside (by omega)]

theorem LeafNode.fromPage_zeroed (page : IndexPage) :
    LeafNode.fromPage (page.withData zeroed) =
      { page := page.withData zeroed, config := { level := page.layout.reserved0.toUInt32 } } := by
  have none := fun count => LeafNode.loadFrom_zeros 0 count (show 0 < kEntryAreaSize by decide)
  rw [LeafNode.fromPage, loadHeader_zeroed]
  simp only [Status.ok_success, if_not_true, entryReader_zeroed, none]
  rfl

theorem InternalNode.fromPage_zeroed (page : IndexPage) :
    InternalNode.fromPage (page.withData zeroed) =
      { page := page.withData zeroed, config := { level := page.layout.reserved0.toUInt32 }
        children := [PageReference.make 0 0 0] } := by
  have none := fun count => LeafNode.loadFrom_zeros 0 count (show PageReference.kSize < kEntryAreaSize by decide)
  have left : PageReference.deserialize.run { view := List.replicate kEntryAreaSize 0 } =
      .ok (PageReference.make 0 0 0, ⟨List.replicate kEntryAreaSize 0, PageReference.kSize⟩) :=
    decodes_zeros _ 0 (List.replicate (kEntryAreaSize - PageReference.kSize) 0) kEntryArea_zeros (Nat.zero_le _)
      (by rw [List.length_replicate]; decide)
  rw [InternalNode.fromPage, loadHeader_zeroed]
  simp only [Status.ok_success, if_not_true, entryReader_zeroed, left, none]
  rfl

end Quartz.Btree
