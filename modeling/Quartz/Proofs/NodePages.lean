import Mathlib.Data.List.TakeWhile
import Quartz.Proofs.Decoding
import Quartz.Proofs.NodeSpecs
import Quartz.Proofs.TreeRules

/-! A node exists twice, as lists of keys and references and as a page. Every operation on a
node leaves the two in step, so that a node read from its page is the node again. An internal
node that was only created is the exception: its page holds no child yet. -/

namespace Quartz.Pages
open Storage Serialization Bytes

theorem PageHeader.length_serialize (header : PageHeader) : header.serialize.length = kPageHeaderSize := by
  simp [serialize, kPageHeaderSize]

theorem PageHeader.ofBytes_serialize (header : PageHeader) (rest : List UInt8) :
    ofBytes (header.serialize ++ rest) = header := by
  have reserved : Block.ofList 30 (header.reserved2.bytes ++ rest) = header.reserved2 :=
    Block.ext (by simp [Block.ofList])
  simp (disch := simp) [ofBytes, serialize, field_append_right, field_encode, List.drop_append, List.drop_of_length_le, reserved]

theorem IndexPageLayout.length_serialize (layout : IndexPageLayout) :
    layout.serialize.length = kPagePayloadSize := by
  simp [serialize, kPagePayloadSize, kPageSize, kPageHeaderSize]

/-- Counts that are 32-bit numbers are read back. -/
structure IndexPageLayout.Small (layout : IndexPageLayout) : Prop where
  nodeType : layout.nodeType < 2 ^ 32
  keyCount : layout.keyCount < 2 ^ 32
  capacity : layout.capacity < 2 ^ 32
  flags : layout.flags < 2 ^ 32

theorem IndexPageLayout.ofBytes_serialize {layout : IndexPageLayout} (small : layout.Small) :
    ofBytes layout.serialize = layout := by
  obtain ⟨nodeType, keyCount, capacity, flags⟩ := small
  have data : Block.ofList 3992 layout.data.bytes = layout.data := Block.ext (Block.ofList_bytes layout.data.sized)
  have kept : ∀ {value : Nat}, value < 2 ^ 32 → value % 4294967296 = value := fun bound => Nat.mod_eq_of_lt bound
  simp (disch := simp) [ofBytes, serialize, field_append_right, field_encode, List.drop_append, List.drop_of_length_le,
    data, kept nodeType, kept keyCount, kept capacity, kept flags]

theorem IndexPage.length_serialize (page : IndexPage) : page.serialize.length = kPageSize := by
  rw [serialize, List.length_append, PageHeader.length_serialize, IndexPageLayout.length_serialize]
  rfl

theorem IndexPage.decodes_deserialize {page : IndexPage} (small : page.layout.Small) :
    Decodes deserialize page.serialize page := by
  have read := decodes_return (decodes_readBytes page.length_serialize) fun bytes =>
    (⟨PageHeader.ofBytes bytes, IndexPageLayout.ofBytes (bytes.drop kPageHeaderSize)⟩ : IndexPage)
  have payload : page.serialize.drop kPageHeaderSize = page.layout.serialize := by
    rw [serialize, ← page.header.length_serialize, List.drop_left]
  rwa [payload, IndexPageLayout.ofBytes_serialize small, serialize, PageHeader.ofBytes_serialize] at read

end Quartz.Pages

namespace Quartz.Btree
open Storage Serialization Format Pages Bytes

namespace BTreeNode

variable {node : BTreeNode} {entries : List UInt8}

@[simp] theorem length_headerBytes (node : BTreeNode) : node.headerBytes.length = kBodyHeaderSize := by
  simp [headerBytes, headerBlocks, kBodyHeaderSize, PageReference.kSize]

/-- The data of the page: the header, the entries, and zeros behind them. -/
def Holds (node : BTreeNode) (entries : List UInt8) : Prop :=
  node.page.layout.data.bytes = node.headerBytes ++ (entries ++ List.replicate (kEntryAreaSize - entries.length) 0)

theorem holds_stored (node : BTreeNode) (count : Nat) (fits : entries.length ≤ kEntryAreaSize) :
    ((node.syncHeader.storeEntries entries).setKeyCount count).Holds entries := by
  have sized : node.headerBytes.length + (entries ++ List.replicate (kEntryAreaSize - entries.length) 0).length = 3992 := by
    rw [length_headerBytes, List.length_append, List.length_replicate, Nat.add_sub_cancel' fits]
    rfl
  have stored := Block.store_store node.page.layout.data sized
  rwa [length_headerBytes] at stored

/-- The page of a node stands at the node's id and says what the configuration says. -/
structure Placed (config : BTreeNodeConfig) (id : PageId) (node : BTreeNode) : Prop where
  id : node.pageId = id
  config : node.config = { config with level := node.config.level }
  flags : node.page.layout.flags < 2 ^ 32

/-- The node as its header is read back: a type that does not exist has no name. -/
def reread (node : BTreeNode) : BTreeNode :=
  { node with config := { node.config with keyType := KeyType.ofByte node.config.keyType.byte } }

theorem loadHeader_holds (holds : node.Holds entries) :
    loadHeader { page := node.page } = (Status.success, node.reread) := by
  have data : node.page.layout.data.bytes = Bytes.encode 4 kNodeBodyMagic.toNat ++ (node.parent.serialize ++
      (Bytes.encode 4 node.config.level.toNat ++ (Bytes.encode 1 node.config.keyType.byte.toNat ++
      (Bytes.encode 1 (if node.config.allowDuplicates then 1 else 0) ++ (Bytes.encode 2 node.config.binaryKeySize.toNat ++
      (entries ++ List.replicate (kEntryAreaSize - entries.length) 0)))))) := by
    rw [show node.page.layout.data.bytes = _ from holds, headerBytes, headerBlocks]
    simp only [List.flatten_cons, List.flatten_nil, List.append_nil, List.append_assoc]
  have magic : field node.page.layout.data.bytes 0 4 = kNodeBodyMagic.toNat := by
    rw [data, field_encode]
    rfl
  have level : UInt32.ofNat (field node.page.layout.data.bytes 24 4) = node.config.level := by
    simp (disch := simp [PageReference.kSize]) [data, field_append_right, field_encode, PageReference.kSize]
  have keyType : UInt8.ofNat (field node.page.layout.data.bytes 28 1) = node.config.keyType.byte := by
    simp (disch := simp [PageReference.kSize]) [data, field_append_right, field_encode, PageReference.kSize]
  have duplicates : (field node.page.layout.data.bytes 29 1 != 0) = node.config.allowDuplicates := by
    simp (disch := simp [PageReference.kSize]) [data, field_append_right, field_encode, PageReference.kSize]
    cases node.config.allowDuplicates <;> rfl
  have keySize : UInt16.ofNat (field node.page.layout.data.bytes 30 2) = node.config.binaryKeySize := by
    simp (disch := simp [PageReference.kSize]) [data, field_append_right, field_encode, PageReference.kSize]
  have parent : PageReference.ofBytes ((node.page.layout.data.bytes.drop 4).take PageReference.kSize) = node.parent := by
    rw [data, List.drop_append_of_le_length (by simp), List.drop_of_length_le (by simp), List.nil_append,
      ← node.parent.length_serialize, List.take_left]
    simpa using node.parent.ofBytes_serialize []
  simp only [loadHeader, magic, level, keyType, duplicates, keySize, parent, ne_eq, not_true_eq_false, false_and, if_false]
  rw [if_neg (by decide)]
  rfl

theorem Placed.reread {config : BTreeNodeConfig} {id : PageId} (placed : node.Placed config id)
    (canonical : KeyType.ofByte config.keyType.byte = config.keyType) : node.reread = node := by
  have typed : node.config.keyType = config.keyType := by rw [placed.config]
  rw [BTreeNode.reread, typed, canonical, ← typed]

/-- A change of the entries leaves the page in its place. -/
theorem Placed.stored {config : BTreeNodeConfig} {id : PageId} (placed : node.Placed config id) (first last : Nat)
    (entries : List UInt8) :
    (((node.setKeyCount first).syncHeader.storeEntries entries).setKeyCount last).Placed config id :=
  ⟨placed.id, placed.config, placed.flags⟩

theorem placed_create (kind : NodeType) (config : BTreeNodeConfig) (id : PageId) (level : UInt32) :
    (initializeHeader { page := IndexPage.create id } kind { config with level := level }).Placed config id := by
  refine ⟨rfl, rfl, ?_⟩
  change (if config.allowDuplicates then 1 else 0) < 2 ^ 32
  split <;> decide

theorem holds_synced (new : node.page.layout.data = Block.zeros 3992) : node.syncHeader.Holds [] := by
  have sized := length_headerBytes node
  have stored := Block.store_zeros (show node.headerBytes.length ≤ 3992 by rw [sized]; decide)
  rw [← new, sized] at stored
  exact stored

theorem PageOk.small {config : BTreeNodeConfig} {kind : NodeType} {id : PageId} (ok : PageOk config kind node)
    (placed : node.Placed config id) (counted : node.keyCount ≤ computeCapacity config kind) : node.page.layout.Small := by
  have bound := computeCapacity_lt config kind
  refine ⟨?_, Nat.lt_of_le_of_lt counted bound, ?_, placed.flags⟩
  · rw [ok.type]
    cases kind <;> decide
  · have capacity := ok.capacity
    rw [BTreeNode.capacity] at capacity
    omega

end BTreeNode

theorem Key.Matches.sized {key : Key} {config : BTreeNodeConfig} (matching : key.Matches config) :
    key.sized config.binaryKeySize = true := by
  cases key with
  | uint32 value => rfl
  | uint64 value => rfl
  | binary bytes fits => simp [Key.sized, matching.2 bytes fits rfl]

/-- Entries are read back from wherever they stand, up to the first key of another size. -/
theorem LeafNode.loadFrom_takeWhile (binaryKeySize : UInt16) {entries : List (Key × PageReference)} {view : List UInt8}
    {offset : Nat} {rest : List UInt8}
    (here : view.drop offset = pairBytes entries ++ rest)
    (inside : offset ≤ view.length) (bounded : view.length < sizeLimit) :
    loadFrom binaryKeySize entries.length ⟨view, offset⟩ = entries.takeWhile fun entry => entry.1.sized binaryKeySize := by
  induction entries generalizing offset with
  | nil => rfl
  | cons entry others ih =>
    rw [pairBytes_cons, List.append_assoc] at here
    rw [List.length_cons, loadFrom]
    by_cases size : entry.1.sized binaryKeySize = true
    · have both : Decodes (do return (← Key.deserialize binaryKeySize, ← PageReference.deserialize))
          (entry.1.serialize ++ entry.2.serialize) entry :=
        decodes_bind (entry.1.decodes_deserialize size) (decodes_return entry.2.decodes_deserialize fun ref => (entry.1, ref))
      have behind : view.drop (offset + (entry.1.serialize ++ entry.2.serialize).length) =
          pairBytes others ++ rest := by
        rw [← List.drop_drop, here, List.drop_left]
      have length := congrArg List.length here
      simp only [List.length_drop, List.length_append] at length
      rw [List.takeWhile_cons, if_pos size]
      simp only [both view offset _ here inside bounded]
      rw [ih behind (by simp only [List.length_append]; omega)]
    · have fails := rejects_first (Key.rejects_deserialize (Bool.eq_false_iff.mpr size))
        (fun key => do return (key, ← PageReference.deserialize)) entry.2.serialize
      obtain ⟨status, failed⟩ := fails view offset _ here inside bounded
      rw [List.takeWhile_cons, if_neg size]
      simp only [failed]

theorem takeWhile_zip_iff {size : UInt16} {keys : List Key} {refs : List PageReference} (same : refs.length = keys.length) :
    (((keys.zip refs).takeWhile fun entry => entry.1.sized size).map Prod.fst = keys ∧
      ((keys.zip refs).takeWhile fun entry => entry.1.sized size).map Prod.snd = refs) ↔
      ∀ key ∈ keys, key.sized size = true := by
  have keysBack : (keys.zip refs).map Prod.fst = keys := List.map_fst_zip (by rw [same])
  have refsBack : (keys.zip refs).map Prod.snd = refs := List.map_snd_zip (by rw [same])
  constructor
  · rintro ⟨read, -⟩
    have whole : ((keys.zip refs).takeWhile fun entry => entry.1.sized size) = keys.zip refs := by
      refine (List.takeWhile_prefix _).eq_of_length ?_
      rw [← List.length_map Prod.fst, read, List.length_zip, same, Nat.min_self]
    intro key member
    rw [← keysBack] at member
    obtain ⟨entry, inside, rfl⟩ := List.mem_map.mp member
    exact List.takeWhile_eq_self_iff.mp whole entry inside
  · intro sized
    have whole : ((keys.zip refs).takeWhile fun entry => entry.1.sized size) = keys.zip refs :=
      List.takeWhile_eq_self_iff.mpr fun ⟨key, ref⟩ member => sized key (List.of_mem_zip member).1
    rw [whole]
    exact ⟨keysBack, refsBack⟩

structure LeafStored (config : BTreeNodeConfig) (id : PageId) (leaf : LeafNode) : Prop where
  ok : LeafOk config leaf
  placed : leaf.Placed config id
  holds : leaf.Holds leaf.entryBytes

/-- An internal node whose page holds its entries, or that is as it was created. -/
structure InternalStored (config : BTreeNodeConfig) (id : PageId) (node : InternalNode) : Prop where
  ok : InternalOk config node
  placed : node.Placed config id
  holds : node.Holds node.entryBytes ∨ node = InternalNode.create id { config with level := node.level }

variable {config : BTreeNodeConfig} {id : PageId}

theorem entryReader_drop {node : BTreeNode} {entries : List UInt8} (holds : node.Holds entries) :
    node.entryReader.view = entries ++ List.replicate (kEntryAreaSize - entries.length) 0 := by
  have data : node.page.layout.data.bytes = _ := holds
  rw [BTreeNode.entryReader, data, ← node.length_headerBytes, List.drop_left]

theorem entryReader_bounded (node : BTreeNode) : node.entryReader.view.length < sizeLimit := by
  rw [BTreeNode.entryReader, List.length_drop, Block.sized]
  decide

theorem leftChild_run {node : BTreeNode} {bytes rest : List UInt8} {ref : PageReference}
    (decodes : Decodes PageReference.deserialize bytes ref) (view : node.entryReader.view = bytes ++ rest) :
    PageReference.deserialize.run node.entryReader = .ok (ref, ⟨node.entryReader.view, bytes.length⟩) := by
  have read := decodes node.entryReader.view 0 rest view (Nat.zero_le _) (entryReader_bounded node)
  rwa [Nat.zero_add] at read

theorem LeafNode.fromPage_holds {leaf : LeafNode} (holds : leaf.Holds leaf.entryBytes)
    (count : leaf.keyCount = leaf.keys.length) (same : leaf.refs.length = leaf.keys.length) :
    LeafNode.fromPage leaf.page =
      { toBTreeNode := leaf.reread
        keys := ((leaf.keys.zip leaf.refs).takeWhile fun entry => entry.1.sized leaf.config.binaryKeySize).map Prod.fst
        refs := ((leaf.keys.zip leaf.refs).takeWhile fun entry => entry.1.sized leaf.config.binaryKeySize).map Prod.snd } := by
  have counted : leaf.reread.keyCount = (leaf.keys.zip leaf.refs).length := by
    rw [List.length_zip, same, Nat.min_self]
    exact count
  have loaded : LeafNode.loadFrom leaf.config.binaryKeySize (leaf.keys.zip leaf.refs).length leaf.entryReader = _ :=
    LeafNode.loadFrom_takeWhile _ (entryReader_drop holds) (Nat.zero_le _) (entryReader_bounded _)
  rw [← counted] at loaded
  rw [LeafNode.fromPage, BTreeNode.loadHeader_holds holds, ← loaded]
  rfl

/-- A leaf that is read from its page is the leaf. -/
theorem LeafStored.fromPage {leaf : LeafNode} (stored : LeafStored config id leaf)
    (canonical : KeyType.ofByte config.keyType.byte = config.keyType) : LeafNode.fromPage leaf.page = leaf := by
  have keySize : leaf.config.binaryKeySize = config.binaryKeySize := by rw [stored.placed.config]
  obtain ⟨keys, refs⟩ := (takeWhile_zip_iff stored.ok.refs).mpr fun key member => (stored.ok.matching key member).sized
  rw [LeafNode.fromPage_holds stored.holds stored.ok.count stored.ok.refs, keySize, keys, refs, stored.placed.reread canonical]

theorem InternalNode.fromPage_holds {node : InternalNode} (holds : node.Holds node.entryBytes)
    (count : node.keyCount = node.keys.length) {first : PageReference} {others : List PageReference}
    (below : node.children = first :: others) (same : others.length = node.keys.length) :
    InternalNode.fromPage node.page =
      { toBTreeNode := node.reread
        keys := ((node.keys.zip others).takeWhile fun entry => entry.1.sized node.config.binaryKeySize).map Prod.fst
        children := first ::
          ((node.keys.zip others).takeWhile fun entry => entry.1.sized node.config.binaryKeySize).map Prod.snd } := by
  have counted : node.reread.keyCount = (node.keys.zip others).length := by
    rw [List.length_zip, same, Nat.min_self]
    exact count
  have view := entryReader_drop holds
  rw [InternalNode.entryBytes, below, List.headD_cons, List.tail_cons, List.append_assoc] at view
  have left : PageReference.deserialize.run node.reread.entryReader = _ := leftChild_run first.decodes_deserialize view
  have behind := congrArg (List.drop first.serialize.length) view
  rw [List.drop_left] at behind
  have loaded := LeafNode.loadFrom_takeWhile node.config.binaryKeySize behind (by rw [view]; simp) (entryReader_bounded _)
  rw [← counted] at loaded
  rw [InternalNode.fromPage, BTreeNode.loadHeader_holds holds, ← loaded]
  simp only [Status.ok_success, if_not_true, left]
  rfl

/-- An internal node that is read from a page that holds its entries is the node. -/
theorem InternalStored.fromPage {node : InternalNode} (stored : InternalStored config id node)
    (canonical : KeyType.ofByte config.keyType.byte = config.keyType) (holds : node.Holds node.entryBytes) :
    InternalNode.fromPage node.page = node := by
  have keySize : node.config.binaryKeySize = config.binaryKeySize := by rw [stored.placed.config]
  obtain ⟨first, others, below⟩ := List.exists_cons_of_length_eq_add_one stored.ok.children
  have length : others.length = node.keys.length := by simpa [below] using stored.ok.children
  obtain ⟨keys, children⟩ := (takeWhile_zip_iff length).mpr fun key member => (stored.ok.matching key member).sized
  rw [InternalNode.fromPage_holds holds stored.ok.count below length, keySize, keys, children, stored.placed.reread canonical, ← below]

theorem kEntryArea_zeros : List.replicate kEntryAreaSize (0 : UInt8) =
    List.replicate PageReference.kSize 0 ++ List.replicate (kEntryAreaSize - PageReference.kSize) 0 := by
  rw [List.replicate_append_replicate]
  rfl

theorem decodes_zeros :
    Decodes PageReference.deserialize (List.replicate PageReference.kSize 0) (PageReference.make 0 0 0) := by
  have taken := decodes_map (decodes_readBytes (@List.length_replicate _ PageReference.kSize (0 : UInt8)))
    PageReference.ofBytes
  rwa [show PageReference.ofBytes (List.replicate PageReference.kSize 0) = PageReference.make 0 0 0 by decide] at taken

theorem InternalNode.fromPage_create (id : PageId) {config : BTreeNodeConfig}
    (canonical : KeyType.ofByte config.keyType.byte = config.keyType) :
    (InternalNode.fromPage (create id config).page).children = [PageReference.make 0 0 0] := by
  have holds : (create id config).Holds [] := BTreeNode.holds_synced rfl
  have placed : (create id config).Placed config id := BTreeNode.placed_create .internal config id config.level
  have view := entryReader_drop holds
  rw [List.nil_append, List.length_nil, Nat.sub_zero, kEntryArea_zeros] at view
  have left := leftChild_run decodes_zeros view
  rw [InternalNode.fromPage, BTreeNode.loadHeader_holds holds, placed.reread canonical]
  simp only [Status.ok_success, if_not_true, left]
  rfl

/-! ### Operations keep pages in step -/

section Operations

variable {keys : List Key}

namespace LeafNode

variable {leaf : LeafNode} {refs : List PageReference}

theorem setEntries_stored (ok : LeafOk config leaf) (placed : leaf.Placed config id) (same : refs.length = keys.length)
    (room : keys.length ≤ computeCapacity config .leaf) (matching : ∀ key ∈ keys, key.Matches config) :
    LeafStored config id (leaf.setEntries keys refs).2 := by
  obtain ⟨after, done, afterOk, -, -⟩ := setEntries_ok ok.page same room matching
  refine ⟨by rw [done]; exact afterOk, ?_, ?_⟩ <;> rw [leaf.setEntries_eq refs room matching]
  · exact placed.stored _ _ _
  · exact BTreeNode.holds_stored _ _ (entries_fit matching room)

theorem create_stored (config : BTreeNodeConfig) (id : PageId) (level : UInt32) :
    LeafStored config id (create id { config with level := level }) :=
  ⟨create_ok id config level, BTreeNode.placed_create .leaf config id level, BTreeNode.holds_synced rfl⟩

end LeafNode

theorem LeafStored.perform {leaf : LeafNode} (stored : LeafStored config id leaf) (call : LeafCall)
    (matching : ∀ key ∈ call.keys, key.Matches config) : LeafStored config id (call.perform leaf).2 := by
  have capacity := stored.ok.page.capacity
  rcases LeafNode.perform_cases stored.ok.count stored.ok.refs (capacity ▸ stored.ok.room) call with
    ⟨text, refused⟩ | ⟨keys, refs, sets, same, room, known⟩
  · rw [refused]
    exact stored
  · rw [sets]
    exact LeafNode.setEntries_stored stored.ok stored.placed same (capacity ▸ room) fun key member =>
      (known key member).elim (stored.ok.matching key) (matching key)

namespace InternalNode

variable {node : InternalNode} {children : List PageReference}

theorem setEntries_stored (ok : InternalOk config node) (placed : node.Placed config id)
    (same : children.length = keys.length + 1) (room : keys.length ≤ computeCapacity config .internal)
    (matching : ∀ key ∈ keys, key.Matches config) : InternalStored config id (node.setEntries keys children).2 := by
  obtain ⟨after, done, afterOk, -, -⟩ := setEntries_ok ok.page same room matching
  refine ⟨by rw [done]; exact afterOk, ?_, .inl ?_⟩ <;> rw [node.setEntries_eq children room matching]
  · exact placed.stored _ _ _
  · exact BTreeNode.holds_stored _ _ (length_entryBytes room matching)

theorem create_stored (config : BTreeNodeConfig) (id : PageId) (level : UInt32) :
    InternalStored config id (create id { config with level := level }) :=
  ⟨create_ok id config level, BTreeNode.placed_create .internal config id level, .inr rfl⟩

end InternalNode

theorem InternalStored.perform {node : InternalNode} (stored : InternalStored config id node) (call : InternalCall)
    (matching : ∀ key ∈ call.keys, key.Matches config) : InternalStored config id (call.perform node).2 := by
  have capacity := stored.ok.page.capacity
  rcases InternalNode.perform_cases stored.ok.count stored.ok.children capacity (capacity ▸ stored.ok.room) call with
    ⟨text, refused⟩ | ⟨keys, children, sets, same, room, known⟩
  · rw [refused]
    exact stored
  · rw [sets]
    exact InternalNode.setEntries_stored stored.ok stored.placed same (capacity ▸ room) fun key member =>
      (known key member).elim (stored.ok.matching key) (matching key)

theorem closed_stored (config : BTreeNodeConfig) :
    Closed (·.Matches config) (LeafStored config) (InternalStored config) where
  leafKeys _ stored := stored.ok.matching
  leafInsert _ key ref stored matching := stored.perform (.insert key ref) (by simpa [LeafCall.keys] using matching)
  leafErase _ index stored := stored.perform (.eraseAt index) (by simp [LeafCall.keys])
  leafAssign _ keys refs stored matching := stored.perform (.assignEntries keys refs) matching
  internalKeys _ stored := stored.ok.matching
  internalInsert _ index key child stored matching :=
    stored.perform (.insert index key child) (by simpa [InternalCall.keys] using matching)
  internalErase _ index stored := stored.perform (.eraseAt index) (by simp [InternalCall.keys])
  internalSet _ index key stored matching := stored.perform (.setKeyAt index key) (by simpa [InternalCall.keys] using matching)
  internalAssign _ keys children stored matching := stored.perform (.assignEntries keys children) matching

end Operations

end Quartz.Btree
