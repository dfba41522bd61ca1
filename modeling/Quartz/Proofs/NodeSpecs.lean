import Mathlib.Data.List.InsertIdx
import Quartz.Btree.InternalNode
import Quartz.Proofs.KeyOrder

/-! What the operations on single nodes do to a node whose page agrees with its entries. -/

namespace Quartz.Btree
open Storage Serialization Format Pages

/-- The key has the type, and as a string of bytes the size, of the configuration. -/
def Key.Matches (key : Key) (config : BTreeNodeConfig) : Prop :=
  key.type = config.keyType ∧ ∀ bytes fits, key = .binary bytes fits → bytes.length = config.binaryKeySize.toNat

def wideKey (byte : UInt8) : Key := .binary (byte :: List.replicate 255 0) (by rw [List.length_cons, List.length_replicate]; decide)

theorem wideKey_matches (byte : UInt8) : (wideKey byte).Matches { keyType := .binary, binaryKeySize := 256 } := by
  refine ⟨rfl, fun bytes fits same => ?_⟩
  cases same
  rw [List.length_cons, List.length_replicate]
  rfl

theorem Key.Matches.length {key : Key} {config : BTreeNodeConfig} (matching : key.Matches config) :
    key.serialize.length = keyWireSize config := by
  obtain ⟨type, size⟩ := matching
  rw [keyWireSize, ← type]
  cases key with
  | uint32 value | uint64 value => simp [Key.serialize, Key.type]
  | binary bytes fits =>
    simp only [Key.serialize, Key.type, List.length_append, Bytes.encode_length, size bytes fits rfl]
    omega

def pairBytes (entries : List (Key × PageReference)) : List UInt8 :=
  entries.flatMap fun entry => entry.1.serialize ++ entry.2.serialize

theorem pairBytes_cons (entry : Key × PageReference) (others : List (Key × PageReference)) :
    pairBytes (entry :: others) = entry.1.serialize ++ entry.2.serialize ++ pairBytes others := List.flatMap_cons

theorem length_entries {config : BTreeNodeConfig} {entries : List (Key × PageReference)}
    (matching : ∀ entry ∈ entries, entry.1.Matches config) :
    (pairBytes entries).length = entries.length * entrySize config := by
  induction entries with
  | nil => simp [pairBytes]
  | cons entry rest ih =>
    have first := (matching entry List.mem_cons_self).length
    have later := ih fun other member => matching other (List.mem_cons_of_mem _ member)
    simp only [pairBytes_cons, List.length_append, first, later, PageReference.length_serialize, List.length_cons,
      entrySize, Nat.succ_mul]
    omega

theorem entries_fit {config : BTreeNodeConfig} {keys : List Key} {refs : List PageReference} {room : Nat}
    (matching : ∀ key ∈ keys, key.Matches config) (fits : keys.length ≤ room / entrySize config) :
    (pairBytes (keys.zip refs)).length ≤ room := by
  have each : ∀ entry ∈ keys.zip refs, entry.1.Matches config := fun ⟨key, ref⟩ member =>
    matching key (List.of_mem_zip member).1
  rw [length_entries each, List.length_zip]
  calc min keys.length refs.length * entrySize config
      ≤ room / entrySize config * entrySize config := Nat.mul_le_mul_right _ (Nat.le_trans (Nat.min_le_left _ _) fits)
    _ ≤ room := Nat.div_mul_le_self _ _

/-- The page of a node of a tree with this configuration. -/
structure PageOk (config : BTreeNodeConfig) (kind : NodeType) (node : BTreeNode) : Prop where
  type : node.page.layout.nodeType = kind.number
  capacity : node.capacity = computeCapacity config kind
  duplicates : node.allowsDuplicates = config.allowDuplicates

structure LeafOk (config : BTreeNodeConfig) (leaf : LeafNode) : Prop where
  page : PageOk config .leaf leaf.toBTreeNode
  count : leaf.keyCount = leaf.keys.length
  room : leaf.keys.length ≤ computeCapacity config .leaf
  refs : leaf.refs.length = leaf.keys.length
  matching : ∀ key ∈ leaf.keys, key.Matches config

structure InternalOk (config : BTreeNodeConfig) (node : InternalNode) : Prop where
  page : PageOk config .internal node.toBTreeNode
  count : node.keyCount = node.keys.length
  room : node.keys.length ≤ computeCapacity config .internal
  children : node.children.length = node.keys.length + 1
  matching : ∀ key ∈ node.keys, key.Matches config

/-- The call is answered with an argument error and changes nothing. -/
def Refused {α : Type} (node : α) (result : Status × α) : Prop := ∃ text, result = (Status.invalidArgument text, node)

def LeafCall.keys : LeafCall → List Key
  | .insert key _ => [key]
  | .assignEntries keys _ => keys
  | _ => []

def InternalCall.keys : InternalCall → List Key
  | .insert _ key _ => [key]
  | .setKeyAt _ key => [key]
  | .assignEntries keys _ => keys
  | .eraseAt _ => []

theorem computeCapacity_lt (config : BTreeNodeConfig) (type : NodeType) : computeCapacity config type < 2 ^ 32 := by
  have whole : ∀ room, room ≤ kEntryAreaSize → room / entrySize config < 2 ^ 32 := fun room bound =>
    Nat.lt_of_le_of_lt (Nat.div_le_self _ _) (Nat.lt_of_le_of_lt bound (by decide))
  cases type with
  | leaf => exact whole _ (Nat.le_refl _)
  | internal => exact whole _ (Nat.sub_le _ _)

namespace LeafNode

variable {config : BTreeNodeConfig} {leaf : LeafNode} {keys : List Key} {refs : List PageReference}

def filled (leaf : LeafNode) (keys : List Key) (refs : List PageReference) : LeafNode where
  toBTreeNode :=
    ((leaf.setKeyCount keys.length).syncHeader.storeEntries (pairBytes (keys.zip refs))).setKeyCount keys.length
  keys := keys
  refs := refs

/-- Entries are written out unless they take too many bytes. -/
theorem setEntries_cases (leaf : LeafNode) (keys : List Key) (refs : List PageReference) :
    (pairBytes (keys.zip refs)).length ≤ kEntryAreaSize ∧
        leaf.setEntries keys refs = (Status.success, leaf.filled keys refs) ∨
      ¬ (pairBytes (keys.zip refs)).length ≤ kEntryAreaSize ∧ (leaf.setEntries keys refs).1.ok = false := by
  by_cases fits : (pairBytes (keys.zip refs)).length ≤ kEntryAreaSize
  · refine .inl ⟨fits, ?_⟩
    simp only [setEntries, syncEntries, appending_entryBlocks, entryBytes]
    exact if_neg (Nat.not_lt.mpr fits)
  · refine .inr ⟨fits, ?_⟩
    simp only [setEntries, syncEntries, appending_entryBlocks, entryBytes]
    exact congrArg (fun result : Status × _ => result.1.ok) (if_pos (Nat.not_le.mp fits))

/-- Entries that match the configuration and are not too many are written out. -/
theorem setEntries_eq (leaf : LeafNode) (refs : List PageReference) (room : keys.length ≤ computeCapacity config .leaf)
    (matching : ∀ key ∈ keys, key.Matches config) :
    leaf.setEntries keys refs = (Status.success, leaf.filled keys refs) :=
  ((leaf.setEntries_cases keys refs).resolve_right fun large => large.1 (entries_fit matching room)).2

theorem setEntries_ok (page : PageOk config .leaf leaf.toBTreeNode) (same : refs.length = keys.length)
    (room : keys.length ≤ computeCapacity config .leaf) (matching : ∀ key ∈ keys, key.Matches config) :
    ∃ after, leaf.setEntries keys refs = (Status.success, after) ∧ LeafOk config after ∧ after.keys = keys ∧
      after.refs = refs := by
  have small := Nat.lt_of_le_of_lt room (computeCapacity_lt config .leaf)
  exact ⟨_, leaf.setEntries_eq refs room matching,
    ⟨⟨page.type, page.capacity, page.duplicates⟩, Nat.mod_eq_of_lt small, room, same, matching⟩, rfl, rfl⟩

theorem setEntries_parts (leaf : LeafNode) (keys : List Key) (refs : List PageReference) :
    (leaf.setEntries keys refs).2.keys = keys ∧ (leaf.setEntries keys refs).2.refs = refs ∧
      (leaf.setEntries keys refs).2.allowsDuplicates = leaf.allowsDuplicates := by
  simp only [setEntries, syncEntries]
  split
  · exact ⟨rfl, rfl, rfl⟩
  · exact ⟨rfl, rfl, rfl⟩

def Admits (leaf : LeafNode) (key : Key) (ref : PageReference) : Prop :=
  ref.isValid = true ∧ leaf.keyCount < leaf.capacity ∧
    (!leaf.allowsDuplicates && leaf.keys[leaf.lowerBound key]?.any fun item => KeyComparator.equal item key) = false

instance (leaf : LeafNode) (key : Key) (ref : PageReference) : Decidable (leaf.Admits key ref) :=
  inferInstanceAs (Decidable (_ ∧ _ ∧ _))

theorem insert_cases (leaf : LeafNode) (key : Key) (ref : PageReference) :
    leaf.Admits key ref ∧ leaf.insert key ref =
        leaf.setEntries (leaf.keys.insertIdx (leaf.lowerBound key) key) (leaf.refs.insertIdx (leaf.lowerBound key) ref) ∨
      ¬ leaf.Admits key ref ∧ Refused leaf (leaf.insert key ref) := by
  unfold insert
  split
  next invalid => exact .inr ⟨fun admits => by simp [admits.1] at invalid, _, rfl⟩
  next valid =>
  split
  next full => exact .inr ⟨fun admits => absurd admits.2.1 (Nat.not_lt.mpr full), _, rfl⟩
  next room =>
  dsimp only
  split
  next known => exact .inr ⟨fun admits => Bool.false_ne_true (admits.2.2.symm.trans known), _, rfl⟩
  next new => exact .inl ⟨⟨by simpa using valid, Nat.not_le.mp room, Bool.eq_false_iff.mpr new⟩, rfl⟩

theorem eraseAt_cases (leaf : LeafNode) (index : Nat) :
    index < leaf.keys.length ∧ leaf.eraseAt index = leaf.setEntries (leaf.keys.eraseIdx index) (leaf.refs.eraseIdx index) ∨
      ¬ index < leaf.keys.length ∧ Refused leaf (leaf.eraseAt index) := by
  unfold eraseAt
  split
  next outside => exact .inr ⟨Nat.not_lt.mpr outside, _, rfl⟩
  next inside => exact .inl ⟨Nat.not_le.mp inside, rfl⟩

theorem assignEntries_cases (leaf : LeafNode) (keys : List Key) (refs : List PageReference) :
    (refs.length = keys.length ∧ keys.length ≤ leaf.capacity) ∧ leaf.assignEntries keys refs = leaf.setEntries keys refs ∨
      ¬ (refs.length = keys.length ∧ keys.length ≤ leaf.capacity) ∧ Refused leaf (leaf.assignEntries keys refs) := by
  unfold assignEntries
  split
  next different => exact .inr ⟨fun both => different both.1.symm, _, rfl⟩
  next same =>
  split
  next large => exact .inr ⟨fun both => absurd large (Nat.not_lt.mpr both.2), _, rfl⟩
  next room => exact .inl ⟨⟨(not_not.mp same).symm, Nat.not_lt.mp room⟩, rfl⟩

/-- A call is refused, or sets as many entries as fit, which are old or come with the call. -/
theorem perform_cases (count : leaf.keyCount = leaf.keys.length) (same : leaf.refs.length = leaf.keys.length)
    (room : leaf.keys.length ≤ leaf.capacity) (call : LeafCall) :
    Refused leaf (call.perform leaf) ∨ ∃ keys refs, call.perform leaf = leaf.setEntries keys refs ∧
      refs.length = keys.length ∧ keys.length ≤ leaf.capacity ∧ ∀ key ∈ keys, key ∈ leaf.keys ∨ key ∈ call.keys := by
  have erases : ∀ index, Refused leaf (leaf.eraseAt index) ∨ ∃ keys refs, leaf.eraseAt index = leaf.setEntries keys refs ∧
      refs.length = keys.length ∧ keys.length ≤ leaf.capacity ∧ ∀ key ∈ keys, key ∈ leaf.keys ∨ key ∈ call.keys := by
    intro index
    rcases leaf.eraseAt_cases index with ⟨-, sets⟩ | ⟨-, refused⟩
    · refine .inr ⟨_, _, sets, ?_, Nat.le_trans (List.length_eraseIdx_le _ _) room, fun key member =>
        .inl (List.mem_of_mem_eraseIdx member)⟩
      rw [List.length_eraseIdx, List.length_eraseIdx, same]
    · exact .inl refused
  cases call with
  | insert key ref =>
    rcases leaf.insert_cases key ref with ⟨⟨-, free, -⟩, sets⟩ | ⟨-, refused⟩
    · refine .inr ⟨_, _, sets, ?_, ?_, fun other member => ?_⟩
      · rw [List.length_insertIdx, List.length_insertIdx, same]
      · rw [List.length_insertIdx]
        split <;> omega
      · rcases List.eq_or_mem_of_mem_insertIdx member with rfl | old
        · exact .inr (List.mem_singleton_self _)
        · exact .inl old
    · exact .inl refused
  | erase key =>
    simp only [LeafCall.perform, erase]
    split
    · exact .inl ⟨_, rfl⟩
    · exact erases _
  | eraseAt index => exact erases index
  | assignEntries keys refs =>
    rcases leaf.assignEntries_cases keys refs with ⟨⟨same, room⟩, sets⟩ | ⟨-, refused⟩
    · exact .inr ⟨keys, refs, sets, same, room, fun key member => .inr member⟩
    · exact .inl refused

theorem assignEntries_ok (ok : LeafOk config leaf) (keys : List Key) (refs : List PageReference) (same : refs.length = keys.length)
    (room : keys.length ≤ computeCapacity config .leaf) (matching : ∀ key ∈ keys, key.Matches config) :
    ∃ after, leaf.assignEntries keys refs = (Status.success, after) ∧ LeafOk config after ∧ after.keys = keys ∧
      after.refs = refs := by
  have fits : keys.length ≤ leaf.capacity := by rw [ok.page.capacity]; exact room
  rw [((leaf.assignEntries_cases keys refs).resolve_right fun refused => refused.1 ⟨same, fits⟩).2]
  exact setEntries_ok ok.page same room matching

theorem eraseAt_ok (ok : LeafOk config leaf) {index : Nat} (inside : index < leaf.keys.length) :
    ∃ after, leaf.eraseAt index = (Status.success, after) ∧ LeafOk config after ∧
      after.keys = leaf.keys.eraseIdx index ∧ after.refs = leaf.refs.eraseIdx index := by
  rw [((leaf.eraseAt_cases index).resolve_right fun refused => refused.1 inside).2]
  refine setEntries_ok ok.page ?_ (Nat.le_trans (List.length_eraseIdx_le leaf.keys index) ok.room) fun key member =>
    ok.matching key (List.mem_of_mem_eraseIdx member)
  simp only [List.length_eraseIdx, ok.refs]

/-- A leaf with room takes a new key at its place. -/
theorem insert_ok (ok : LeafOk config leaf) {key : Key} {ref : PageReference} (valid : ref.isValid = true)
    (room : leaf.keys.length < computeCapacity config .leaf) (matching : key.Matches config)
    (absent : leaf.keys[leaf.lowerBound key]? ≠ some key) (inside : leaf.lowerBound key ≤ leaf.keys.length) :
    ∃ after, leaf.insert key ref = (Status.success, after) ∧ LeafOk config after ∧
      after.keys = leaf.keys.insertIdx (leaf.lowerBound key) key ∧
      after.refs = leaf.refs.insertIdx (leaf.lowerBound key) ref := by
  have new : leaf.keys[leaf.lowerBound key]?.any (fun item => KeyComparator.equal item key) = false := by
    cases found : leaf.keys[leaf.lowerBound key]? with
    | none => rfl
    | some item => simpa [found] using absent
  have admits : leaf.Admits key ref :=
    ⟨valid, by rw [ok.page.capacity, ok.count]; exact room, by rw [new, Bool.and_false]⟩
  rw [((leaf.insert_cases key ref).resolve_right fun refused => refused.1 admits).2]
  refine setEntries_ok ok.page ?_ ?_ fun other member => ?_
  · rw [List.length_insertIdx_of_le_length inside, List.length_insertIdx_of_le_length (by rw [ok.refs]; exact inside), ok.refs]
  · rw [List.length_insertIdx_of_le_length inside]
    omega
  · rcases (List.mem_insertIdx inside).mp member with rfl | member
    · exact matching
    · exact ok.matching other member

theorem create_ok (pageId : PageId) (config : BTreeNodeConfig) (level : UInt32) :
    LeafOk config (create pageId { config with level := level }) := by
  refine ⟨⟨rfl, rfl, ?_⟩, rfl, Nat.zero_le _, rfl, by simp [create]⟩
  cases duplicates : config.allowDuplicates <;>
    simp [create, BTreeNode.initializeHeader, BTreeNode.allowsDuplicates, BTreeNode.syncHeader]

end LeafNode

namespace InternalNode

variable {config : BTreeNodeConfig} {node : InternalNode} {keys : List Key} {children : List PageReference}

theorem length_entryBytes (room : keys.length ≤ computeCapacity config .internal) (matching : ∀ key ∈ keys, key.Matches config) :
    ((children.headD .invalid).serialize ++ pairBytes (keys.zip children.tail)).length ≤ kEntryAreaSize := by
  have fits : (pairBytes (keys.zip children.tail)).length ≤ kEntryAreaSize - PageReference.kSize := entries_fit matching room
  have area : PageReference.kSize ≤ kEntryAreaSize := by decide
  rw [List.length_append, PageReference.length_serialize]
  omega

def filled (node : InternalNode) (keys : List Key) (children : List PageReference) : InternalNode where
  toBTreeNode := ((node.setKeyCount keys.length).syncHeader.storeEntries
    ((children.headD .invalid).serialize ++ pairBytes (keys.zip children.tail))).setKeyCount keys.length
  keys := keys
  children := children

theorem setEntries_cases (node : InternalNode) (keys : List Key) (children : List PageReference) :
    ((children.headD .invalid).serialize ++ pairBytes (keys.zip children.tail)).length ≤ kEntryAreaSize ∧
        node.setEntries keys children = (Status.success, node.filled keys children) ∨
      ¬ ((children.headD .invalid).serialize ++ pairBytes (keys.zip children.tail)).length ≤ kEntryAreaSize ∧
        (node.setEntries keys children).1.ok = false := by
  by_cases fits : ((children.headD .invalid).serialize ++ pairBytes (keys.zip children.tail)).length ≤ kEntryAreaSize
  · refine .inl ⟨fits, ?_⟩
    simp only [setEntries, syncEntries, appending_entryBlocks, entryBytes]
    exact if_neg (Nat.not_lt.mpr fits)
  · refine .inr ⟨fits, ?_⟩
    simp only [setEntries, syncEntries, appending_entryBlocks, entryBytes]
    exact congrArg (fun result : Status × _ => result.1.ok) (if_pos (Nat.not_le.mp fits))

theorem setEntries_eq (node : InternalNode) (children : List PageReference)
    (room : keys.length ≤ computeCapacity config .internal) (matching : ∀ key ∈ keys, key.Matches config) :
    node.setEntries keys children = (Status.success, node.filled keys children) :=
  ((node.setEntries_cases keys children).resolve_right fun large => large.1 (length_entryBytes room matching)).2

theorem setEntries_ok (page : PageOk config .internal node.toBTreeNode) (same : children.length = keys.length + 1)
    (room : keys.length ≤ computeCapacity config .internal) (matching : ∀ key ∈ keys, key.Matches config) :
    ∃ after, node.setEntries keys children = (Status.success, after) ∧ InternalOk config after ∧ after.keys = keys ∧
      after.children = children := by
  have small := Nat.lt_of_le_of_lt room (computeCapacity_lt config .internal)
  exact ⟨_, node.setEntries_eq children room matching,
    ⟨⟨page.type, page.capacity, page.duplicates⟩, Nat.mod_eq_of_lt small, room, same, matching⟩, rfl, rfl⟩

theorem insert_cases (node : InternalNode) (index : Nat) (key : Key) (child : PageReference) :
    (child.isValid = true ∧ index ≤ node.keys.length ∧ node.keys.length < node.capacity ∧
        (!node.allowsDuplicates && node.keys.any fun existing => KeyComparator.equal existing key) = false) ∧
        node.insert index key child =
          node.setEntries (node.keys.insertIdx index key) (node.children.insertIdx (index + 1) child) ∨
      ¬ (child.isValid = true ∧ index ≤ node.keys.length ∧ node.keys.length < node.capacity ∧
        (!node.allowsDuplicates && node.keys.any fun existing => KeyComparator.equal existing key) = false) ∧
        Refused node (node.insert index key child) := by
  unfold insert
  split
  next invalid => exact .inr ⟨fun admits => by simp [admits.1] at invalid, _, rfl⟩
  next valid =>
  split
  next outside => exact .inr ⟨fun admits => absurd outside (Nat.not_lt.mpr admits.2.1), _, rfl⟩
  next inside =>
  split
  next full => exact .inr ⟨fun admits => absurd admits.2.2.1 (Nat.not_lt.mpr full), _, rfl⟩
  next room =>
  split
  next known => exact .inr ⟨fun admits => Bool.false_ne_true (admits.2.2.2.symm.trans known), _, rfl⟩
  next new =>
    exact .inl ⟨⟨by simpa using valid, Nat.not_lt.mp inside, Nat.not_le.mp room, Bool.eq_false_iff.mpr new⟩, rfl⟩

theorem eraseAt_cases (node : InternalNode) (index : Nat) :
    index < node.keys.length ∧
        node.eraseAt index = node.setEntries (node.keys.eraseIdx index) (node.children.eraseIdx (index + 1)) ∨
      ¬ index < node.keys.length ∧ Refused node (node.eraseAt index) := by
  unfold eraseAt
  split
  next outside => exact .inr ⟨Nat.not_lt.mpr outside, _, rfl⟩
  next inside => exact .inl ⟨Nat.not_le.mp inside, rfl⟩

theorem assignEntries_cases (node : InternalNode) (keys : List Key) (children : List PageReference) :
    (children.length = keys.length + 1 ∧ keys.length ≤ node.capacity) ∧
        node.assignEntries keys children = node.setEntries keys children ∨
      ¬ (children.length = keys.length + 1 ∧ keys.length ≤ node.capacity) ∧
        Refused node (node.assignEntries keys children) := by
  unfold assignEntries
  split
  next different => exact .inr ⟨fun both => different both.1, _, rfl⟩
  next same =>
  split
  next large => exact .inr ⟨fun both => absurd large (Nat.not_lt.mpr both.2), _, rfl⟩
  next room => exact .inl ⟨⟨not_not.mp same, Nat.not_lt.mp room⟩, rfl⟩

theorem assignEntries_ok (ok : InternalOk config node) (keys : List Key) (children : List PageReference)
    (same : children.length = keys.length + 1) (room : keys.length ≤ computeCapacity config .internal)
    (matching : ∀ key ∈ keys, key.Matches config) :
    ∃ after, node.assignEntries keys children = (Status.success, after) ∧ InternalOk config after ∧
      after.keys = keys ∧ after.children = children := by
  have fits : keys.length ≤ node.capacity := by rw [ok.page.capacity]; exact room
  rw [((node.assignEntries_cases keys children).resolve_right fun refused => refused.1 ⟨same, fits⟩).2]
  exact setEntries_ok ok.page same room matching

theorem assignEntries_mismatch (node : InternalNode) (different : children.length ≠ keys.length + 1) :
    node.assignEntries keys children = (Status.invalidArgument "InternalNode: child count mismatch", node) := by
  rw [assignEntries, if_pos different]

theorem eraseAt_ok (ok : InternalOk config node) {index : Nat} (inside : index < node.keys.length) :
    ∃ after, node.eraseAt index = (Status.success, after) ∧ InternalOk config after ∧
      after.keys = node.keys.eraseIdx index ∧ after.children = node.children.eraseIdx (index + 1) := by
  have count := ok.children
  rw [((node.eraseAt_cases index).resolve_right fun refused => refused.1 inside).2]
  refine setEntries_ok ok.page ?_ (Nat.le_trans (List.length_eraseIdx_le node.keys index) ok.room) fun key member =>
    ok.matching key (List.mem_of_mem_eraseIdx member)
  rw [List.length_eraseIdx_of_lt inside, List.length_eraseIdx_of_lt (by omega)]
  omega

theorem setKeyAt_eq (counted : node.keyCount = node.keys.length) (room : node.keys.length ≤ computeCapacity config .internal)
    {index : Nat} (key : Key) (inside : index < node.keys.length) :
    node.setKeyAt index key = node.setEntries (node.keys.set index key) node.children := by
  have same : node.keyCount = (node.keys.set index key).length % 2 ^ 32 := by
    rw [List.length_set, counted, Nat.mod_eq_of_lt (Nat.lt_of_le_of_lt room (computeCapacity_lt config .internal))]
  have unchanged : node.setKeyCount (node.keys.set index key).length = node.toBTreeNode := by
    rw [BTreeNode.setKeyCount, IndexPage.setKeyCount, ← same]
    rfl
  rw [setKeyAt, if_neg (Nat.not_le.mpr inside), setEntries, unchanged]

/-- A call is refused, or sets as many entries as fit, which are old or come with the call. -/
theorem perform_cases (count : node.keyCount = node.keys.length) (same : node.children.length = node.keys.length + 1)
    (capacity : node.capacity = computeCapacity config .internal) (room : node.keys.length ≤ node.capacity)
    (call : InternalCall) :
    Refused node (call.perform node) ∨ ∃ keys children, call.perform node = node.setEntries keys children ∧
      children.length = keys.length + 1 ∧ keys.length ≤ node.capacity ∧ ∀ key ∈ keys, key ∈ node.keys ∨ key ∈ call.keys := by
  cases call with
  | insert index key child =>
    rcases node.insert_cases index key child with ⟨⟨-, inside, free, -⟩, sets⟩ | ⟨-, refused⟩
    · refine .inr ⟨_, _, sets, ?_, ?_, fun other member => ?_⟩
      · rw [List.length_insertIdx_of_le_length inside, List.length_insertIdx_of_le_length (by omega), same]
      · rw [List.length_insertIdx_of_le_length inside]
        exact free
      · rcases List.eq_or_mem_of_mem_insertIdx member with rfl | old
        · exact .inr (List.mem_singleton_self _)
        · exact .inl old
    · exact .inl refused
  | eraseAt index =>
    rcases node.eraseAt_cases index with ⟨inside, sets⟩ | ⟨-, refused⟩
    · refine .inr ⟨_, _, sets, ?_, Nat.le_trans (List.length_eraseIdx_le _ _) room, fun key member =>
        .inl (List.mem_of_mem_eraseIdx member)⟩
      rw [List.length_eraseIdx_of_lt inside, List.length_eraseIdx_of_lt (by omega)]
      omega
    · exact .inl refused
  | setKeyAt index key =>
    by_cases inside : index < node.keys.length
    · refine .inr ⟨_, _, setKeyAt_eq count (capacity ▸ room) key inside, ?_, ?_, fun other member => ?_⟩
      · rw [List.length_set]
        exact same
      · rw [List.length_set]
        exact room
      · exact (List.mem_or_eq_of_mem_set member).imp_right fun new => by rw [new]; exact List.mem_singleton_self _
    · exact .inl ⟨_, if_pos (Nat.not_lt.mp inside)⟩
  | assignEntries keys children =>
    rcases node.assignEntries_cases keys children with ⟨⟨same, room⟩, sets⟩ | ⟨-, refused⟩
    · exact .inr ⟨keys, children, sets, same, room, fun key member => .inr member⟩
    · exact .inl refused

theorem setKeyAt_ok (ok : InternalOk config node) {index : Nat} {key : Key} (inside : index < node.keys.length)
    (matching : key.Matches config) :
    ∃ after, node.setKeyAt index key = (Status.success, after) ∧ InternalOk config after ∧
      after.keys = node.keys.set index key ∧ after.children = node.children := by
  rw [setKeyAt_eq ok.count ok.room key inside]
  refine setEntries_ok ok.page (by rw [List.length_set]; exact ok.children) (by rw [List.length_set]; exact ok.room)
    fun other member => ?_
  rcases List.mem_or_eq_of_mem_set member with member | rfl
  · exact ok.matching other member
  · exact matching

/-- A node with room takes a new separator with the child to its right. -/
theorem insert_ok (ok : InternalOk config node) {index : Nat} {key : Key} {rightChild : PageReference}
    (valid : rightChild.isValid = true) (inside : index ≤ node.keys.length)
    (room : node.keys.length < computeCapacity config .internal) (matching : key.Matches config)
    (absent : key ∉ node.keys) :
    ∃ after, node.insert index key rightChild = (Status.success, after) ∧ InternalOk config after ∧
      after.keys = node.keys.insertIdx index key ∧ after.children = node.children.insertIdx (index + 1) rightChild := by
  have count := ok.children
  have free : node.keys.length < node.capacity := by rw [ok.page.capacity]; exact room
  have new : (!node.allowsDuplicates && node.keys.any fun existing => KeyComparator.equal existing key) = false := by
    simpa using fun _ other member => ne_of_mem_of_not_mem member absent
  rw [((node.insert_cases index key rightChild).resolve_right fun refused => refused.1 ⟨valid, inside, free, new⟩).2]
  refine setEntries_ok ok.page ?_ ?_ fun other member => ?_
  · rw [List.length_insertIdx_of_le_length inside, List.length_insertIdx_of_le_length (by omega), count]
  · rw [List.length_insertIdx_of_le_length inside]
    omega
  · rcases (List.mem_insertIdx inside).mp member with rfl | member
    · exact matching
    · exact ok.matching other member

theorem create_ok (pageId : PageId) (config : BTreeNodeConfig) (level : UInt32) :
    InternalOk config (create pageId { config with level := level }) := by
  refine ⟨⟨rfl, rfl, ?_⟩, rfl, Nat.zero_le _, rfl, by simp [create]⟩
  cases duplicates : config.allowDuplicates <;>
    simp [create, BTreeNode.initializeHeader, BTreeNode.allowsDuplicates, BTreeNode.syncHeader]

end InternalNode
end Quartz.Btree
