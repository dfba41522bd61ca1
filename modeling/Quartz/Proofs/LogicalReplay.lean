import Quartz.Proofs.Decoding
import Quartz.Proofs.KeyOrder
import Quartz.Proofs.NodeInvariants
import Quartz.Proofs.SilentRuns
import Quartz.Recovery.LogReplayer
import Quartz.Wal.BTreeWalAdapter

/-! Replay of what a tree has logged. The log only gets longer, the tree does what it would
do without a sink, and the records that are not about a key are skipped; so applying the
records rebuilds the tree. -/

namespace Quartz.Recovery.LogReplayer
open Btree Wal

def Keyed (record : LogRecord) : Prop := record.type = .pageUpdate ∨ record.type = .pageDelete

instance (record : LogRecord) : Decidable (Keyed record) := inferInstanceAs (Decidable (_ ∨ _))

theorem applyRecord_other {ω : Type} [BTreeWalSink ω] {record : LogRecord} (other : ¬ Keyed record)
    (valid : isValidRecordType record.type = true) (tree : BTree ω) : (applyRecord record).run tree = (.ok (), tree) := by
  obtain ⟨update, delete⟩ := not_or.mp other
  rw [applyRecord, if_neg update, if_neg delete, if_pos valid]
  rfl

end Quartz.Recovery.LogReplayer

namespace Quartz.Btree
open Storage Format Serialization Wal Recovery TreeM Fallible

/-! ### Leaves whose keys all have a reference -/

/-- The page counts no more keys than the leaf has, and every key has a reference. -/
structure LeafNode.Paired (leaf : LeafNode) : Prop where
  counted : leaf.keyCount ≤ leaf.keys.length
  refs : leaf.refs.length = leaf.keys.length

namespace LeafNode

theorem setEntries_paired (leaf : LeafNode) {keys : List Key} {refs : List PageReference}
    (same : refs.length = keys.length) : (leaf.setEntries keys refs).2.Paired := by
  have counted : keys.length % 2 ^ 32 ≤ keys.length := Nat.mod_le _ _
  simp only [setEntries, syncEntries]
  split
  · exact ⟨counted, same⟩
  · exact ⟨counted, same⟩

theorem insert_paired (leaf : LeafNode) (key : Key) (ref : PageReference) (paired : leaf.Paired) :
    (leaf.insert key ref).2.Paired := by
  unfold insert
  split
  · exact paired
  split
  · exact paired
  simp only
  split
  · exact paired
  · refine leaf.setEntries_paired ?_
    rw [List.length_insertIdx, List.length_insertIdx, paired.refs]

theorem eraseAt_paired (leaf : LeafNode) (index : Nat) (paired : leaf.Paired) : (leaf.eraseAt index).2.Paired := by
  unfold eraseAt
  split
  · exact paired
  · refine leaf.setEntries_paired ?_
    rw [List.length_eraseIdx, List.length_eraseIdx, paired.refs]

theorem assignEntries_paired (leaf : LeafNode) (keys : List Key) (refs : List PageReference) (paired : leaf.Paired) :
    (leaf.assignEntries keys refs).2.Paired := by
  unfold assignEntries
  split
  · exact paired
  next same =>
  split
  · exact paired
  · exact leaf.setEntries_paired (not_not.mp same).symm

end LeafNode

theorem closed_paired : Closed (fun _ => True) (fun _ => LeafNode.Paired) (fun _ _ => True) where
  leafKeys _ _ _ _ := trivial
  leafInsert leaf key ref paired _ := leaf.insert_paired key ref paired
  leafErase := LeafNode.eraseAt_paired
  leafAssign leaf keys refs paired _ := leaf.assignEntries_paired keys refs paired
  internalKeys _ _ _ _ := trivial
  internalInsert _ _ _ _ _ _ := trivial
  internalErase _ _ _ := trivial
  internalSet _ _ _ _ _ := trivial
  internalAssign _ _ _ _ _ := trivial

namespace BTree

variable {ω : Type} {tree : BTree ω} {key : Key}

theorem contains_of_descendForInsert {spot : PageId × Nat × List SearchPathEntry} (unique : tree.config.allowDuplicates = false)
    (paired : ∀ id leaf, tree.leaves.lookup id = some leaf → leaf.Paired)
    (found : tree.descendForInsert key = .ok spot) : tree.contains key = .ok false := by
  by_cases empty : tree.empty = true
  · simp [contains, find, descendToLeaf, empty]
  cases walked : tree.descend key (tree.internals.keys.length + 1) tree.rootId [] with
  | error failure => simp [descendForInsert, descendToLeaf, empty, walked] at found
  | ok down =>
    obtain ⟨leafId, path⟩ := down
    cases standing : tree.leaves.lookup leafId with
    | none => simp [descendForInsert, descendToLeaf, empty, walked, standing] at found
    | some leaf =>
      have counted := (paired leafId leaf standing).counted
      -- the search finds nothing below the count: there the insertion would have been refused
      have absent : leaf.keyCount ≤ leaf.find key := by
        by_contra inside
        rw [Nat.not_le, LeafNode.find, KeyComparator.find] at inside
        split at inside
        next here =>
          cases present : leaf.keys[KeyComparator.lowerBound leaf.keys key]? with
          | none => simp [present] at here
          | some item =>
            have same : KeyComparator.equal item key = true := by simpa [present] using here
            simp [descendForInsert, descendToLeaf, empty, walked, standing, unique, LeafNode.lowerBound, inside, present,
              same, -KeyComparator.equal_eq] at found
        next => omega
      simp [contains, find, descendToLeaf, empty, walked, standing, absent]

theorem contains_of_descendToLeaf {spot : PageId × Nat × List SearchPathEntry}
    (paired : ∀ id leaf, tree.leaves.lookup id = some leaf → leaf.Paired)
    (found : tree.descendToLeaf key true = .ok spot) : tree.contains key = .ok true := by
  obtain ⟨leafId, index, path⟩ := spot
  have inside : ∃ ref, (tree.leaves.lookup leafId).bind (·.refs[index]?) = some ref := by
    unfold descendToLeaf at found
    split at found
    · cases found
    split at found
    · cases found
    next leafId' path' walked =>
    split at found
    · cases found
    next leaf standing =>
    simp only [if_true] at found
    split at found
    · cases found
    next counted =>
    split at found
    · cases found
    split at found
    · cases found
    next =>
      cases found
      obtain ⟨enough, refs⟩ := paired _ leaf standing
      have inside : leaf.find key < leaf.refs.length := by omega
      exact ⟨leaf.refs[leaf.find key], by simp [standing, inside]⟩
  obtain ⟨ref, present⟩ := inside
  simp [contains, find, found, present]

end BTree

/-! ### What a record says -/

def Idle (record : LogRecord) : Prop := record.type ∈ [LogRecordType.allocation, .deallocation, .nodeSplit, .nodeMerge]

/-- The record has the type of the event and, when that is about a key, its page. -/
def Names (record : LogRecord) : TreeEvent → Prop
  | .insert _ value => record.type = .pageUpdate ∧ record.pageId = value.pageId
  | .erase _ => record.type = .pageDelete ∧ record.pageId = kInvalidPageId
  | _ => Idle record

def TreeEvent.blocks : TreeEvent → List (List UInt8)
  | .insert key value => BTreeWalAdapter.entryBlocks key value
  | .erase key => BTreeWalAdapter.entryBlocks key .invalid
  | _ => []

/-- The record is what the adapter makes of the event with this writer. -/
structure Tells (writing : Writing) (record : LogRecord) (event : TreeEvent) : Prop where
  names : Names record event
  payload : event.structural = false → record.payload = writing event.blocks

theorem notify_appends (adapter : BTreeWalAdapter) (event : TreeEvent) :
    ∃ record, Tells adapter.writing record event ∧ (BTreeWalSink.notify adapter event).2.appended =
      adapter.appended ++ [(record, (BTreeWalSink.notify adapter event).1)] := by
  cases event with
  | insert key value | erase key => exact ⟨_, ⟨⟨rfl, rfl⟩, fun _ => rfl⟩, rfl⟩
  | pageAllocate pageId | pageDeallocate pageId | nodeSplit leftId rightId promoted | nodeMerge survivorId removedId =>
    exact ⟨_, ⟨by simp [Names, Idle, LogRecord.make], by simp [TreeEvent.structural]⟩, rfl⟩

theorem notify_writing (adapter : BTreeWalAdapter) (event : TreeEvent) :
    (BTreeWalSink.notify adapter event).2.writing = adapter.writing := by
  cases event with
  | _ => rfl

namespace BTree

/-- Everything that was handed to the log, with the answers. -/
def appended (tree : BTree BTreeWalAdapter) : List (LogRecord × Status) :=
  match tree.walSink with
  | none => []
  | some adapter => adapter.appended

def writing (tree : BTree BTreeWalAdapter) : Option Writing := tree.walSink.map BTreeWalAdapter.writing

def emitted (tree : BTree BTreeWalAdapter) : List LogRecord := tree.appended.map Prod.fst

def Granted (tree : BTree BTreeWalAdapter) : Prop := ∀ entry ∈ tree.appended, entry.2.ok = true

instance (tree : BTree BTreeWalAdapter) : Decidable tree.Granted := List.decidableBAll _ _

/-- The log of the second tree continues that of the first with records of the given kind. -/
structure LogExtends (kind : LogRecord → Prop) (before after : BTree BTreeWalAdapter) : Prop where
  writing : after.writing = before.writing
  records : ∃ more, after.appended = before.appended ++ more ∧ ∀ entry ∈ more, kind entry.1

variable {kind : LogRecord → Prop} {before middle after : BTree BTreeWalAdapter}

theorem LogExtends.refl (kind : LogRecord → Prop) {before after : BTree BTreeWalAdapter} (same : after.walSink = before.walSink) :
    LogExtends kind before after :=
  ⟨by rw [BTree.writing, BTree.writing, same], [], by simp [appended, same], by simp⟩

theorem LogExtends.sink (longer : LogExtends kind before after) : after.walSink.isSome = before.walSink.isSome := by
  have same := congrArg Option.isSome longer.writing
  rwa [BTree.writing, BTree.writing, Option.isSome_map, Option.isSome_map] at same

theorem LogExtends.trans (first : LogExtends kind before middle) (second : LogExtends kind middle after) :
    LogExtends kind before after := by
  obtain ⟨more, front, kinds⟩ := first.records
  obtain ⟨later, back, laterKinds⟩ := second.records
  refine ⟨second.writing.trans first.writing, more ++ later, by rw [back, front, List.append_assoc], fun entry member => ?_⟩
  rcases List.mem_append.mp member with member | member
  · exact kinds entry member
  · exact laterKinds entry member

theorem LogExtends.granted (extends' : LogExtends kind before after) (granted : after.Granted) : before.Granted := by
  obtain ⟨more, whole, -⟩ := extends'.records
  intro entry member
  exact granted entry (by rw [whole]; exact List.mem_append_left _ member)

end BTree

/-- The computation only adds records of the given kind to the log, and when they are all
accepted it does what it does without a sink. -/
def Logs (kind : LogRecord → Prop) {α : Type} (computation : TreeM BTreeWalAdapter α) : Prop :=
  Shadows (BTree.LogExtends kind) (fun _ after => after.Granted) computation

section Logs

open BTree

variable {kind : LogRecord → Prop}

theorem logs_hearing (kind : LogRecord → Prop) : Hearing (LogExtends kind) (fun _ after => after.Granted) where
  refl same := .refl kind same
  trans := .trans
  front _ further granted := further.granted granted
  back _ _ granted := granted

theorem logs_notify {event : TreeEvent} (named : ∀ record, Names record event → kind record) : Logs kind (notify event) := by
  intro tree
  cases heard : tree.walSink with
  | none =>
    rw [notify_silent heard, notify_silent rfl]
    exact ⟨.refl kind rfl, fun _ => rfl⟩
  | some adapter =>
    obtain ⟨record, told, grown⟩ := notify_appends adapter event
    rw [notify_heard heard]
    have longer : (appended { tree with walSink := some (BTreeWalSink.notify adapter event).2 }) =
        tree.appended ++ [(record, (BTreeWalSink.notify adapter event).1)] := by
      simp only [appended, heard, grown]
    have same : (writing { tree with walSink := some (BTreeWalSink.notify adapter event).2 }) = tree.writing := by
      simp only [writing, heard, Option.map_some, notify_writing]
    refine ⟨⟨same, _, longer, by simpa using named record told.names⟩, fun granted => ?_⟩
    have accepted : (BTreeWalSink.notify adapter event).1.ok = true :=
      granted _ (by rw [longer]; exact List.mem_append_right _ (List.mem_singleton_self _))
    rw [if_pos accepted, notify_silent rfl]
    rfl

theorem idle_of_structural {event : TreeEvent} (structural : event.structural = true) {record : LogRecord}
    (named : Names record event) : Idle record := by
  cases event with
  | insert key value | erase key => cases structural
  | pageAllocate pageId => exact named
  | pageDeallocate pageId => exact named
  | nodeSplit leftId rightId promoted => exact named
  | nodeMerge survivorId removedId => exact named

theorem logs_rules (idle : ∀ record, Idle record → kind record) :
    Rules (fun _ => True) (fun _ _ => True) (fun _ _ => True) (Logs kind) :=
  (logs_hearing kind).rules fun _ structural => logs_notify fun record named => idle record (idle_of_structural structural named)

/-- With every append accepted, a call does what it does without a sink. -/
theorem TreeCall.logs_perform (call : TreeCall) : Logs (fun _ => True) (call.perform : TreeM BTreeWalAdapter Unit) :=
  (logs_hearing _).perform (fun _ => logs_notify fun _ _ => trivial) call

theorem TreeCall.logs_unmarked (call : TreeCall) :
    Logs (fun record => record.type ≠ .checkpointMarker) (call.perform : TreeM BTreeWalAdapter Unit) := by
  have idle : ∀ record, Idle record → record.type ≠ .checkpointMarker := by
    intro record idle
    simp only [Idle, List.mem_cons, List.not_mem_nil, or_false] at idle
    rcases idle with same | same | same | same <;> rw [same] <;> decide
  refine (logs_hearing _).perform (fun event => ?_) call
  refine logs_notify fun record named => ?_
  cases event with
  | insert key value | erase key => rw [named.1]; decide
  | pageAllocate pageId | pageDeallocate pageId | nodeSplit leftId rightId promoted | nodeMerge survivorId removedId =>
    exact idle record named

end Logs

/-! ### What a call logs -/

section Calls

open BTree

variable {tree after : BTree BTreeWalAdapter} {writing : Writing} {key : Key} {value : PageReference}

theorem notify_recorded (sink : tree.writing = some writing) (event : TreeEvent) :
    ∃ entry, ((notify event).run tree).2.appended = tree.appended ++ [entry] ∧ Tells writing entry.1 event ∧
      (((notify event).run tree).1 = .ok () → entry.2.ok = true) := by
  obtain ⟨adapter, heard, rfl⟩ := Option.map_eq_some_iff.mp sink
  obtain ⟨record, told, grown⟩ := notify_appends adapter event
  refine ⟨(record, (BTreeWalSink.notify adapter event).1), ?_, told, fun done => ?_⟩
  · rw [notify_heard heard]
    simp only [appended, heard, grown]
  · rw [notify_heard heard] at done
    by_contra refused
    rw [if_neg refused] at done
    cases done

theorem notify_granted {event : TreeEvent} (granted : ((notify event).run tree).2.Granted) :
    ((notify event).run tree).1 = .ok () := by
  have logs : Logs (fun _ => True) (notify event : TreeM BTreeWalAdapter Unit) := logs_notify fun _ _ => trivial
  have alike := (logs tree).2 granted
  rw [notify, run_bind_ok run_read] at alike
  exact (congrArg Prod.fst alike).symm

theorem idle_rules : Rules (fun _ => True) (fun _ _ => True) (fun _ _ => True) (Logs Idle) := logs_rules fun _ idle => idle

theorem settle_idle (key : Key) (value : PageReference) (tree : BTree BTreeWalAdapter) :
    LogExtends Idle tree ((settle key value).run tree).2 :=
  (idle_rules.settle trivial value tree).1

/-- A successful insertion logs its entry last. -/
theorem insert_recorded (sink : tree.writing = some writing) (done : (insert key value).run tree = (.ok (), after)) :
    ∃ more entry, after.appended = tree.appended ++ more ++ [entry] ∧ (∀ other ∈ more, Idle other.1) ∧
      Tells writing entry.1 (.insert key value) ∧ entry.2.ok = true := by
  rw [insert_eq] at done
  obtain ⟨_, middle, settled, counted⟩ := bind_ok done
  have longer := settle_idle key value tree
  rw [settled] at longer
  obtain ⟨more, grown, idle⟩ := longer.records
  have heard : ({ middle with size := middle.size + 1 } : BTree BTreeWalAdapter).writing = some writing :=
    longer.writing.trans sink
  obtain ⟨entry, last, told, granted⟩ := notify_recorded heard (.insert key value)
  rw [inserted, run_bind_ok (run_update _)] at counted
  rw [counted] at last granted
  exact ⟨more, entry, by rw [last, ← grown]; rfl, idle, told, granted rfl⟩

theorem insert_idle (failed : ((insert key value).run tree).1 ≠ .ok ()) (granted : ((insert key value).run tree).2.Granted) :
    LogExtends Idle tree ((insert key value).run tree).2 := by
  have longer := settle_idle key value tree
  rw [insert_eq] at failed granted ⊢
  rcases settled : (settle key value).run tree with ⟨failure | _, middle⟩
  · rw [run_bind_error settled]
    rwa [settled] at longer
  · rw [run_bind_ok settled, inserted, run_bind_ok (run_update _)] at failed granted
    exact absurd (notify_granted granted) failed

theorem afterErase_idle (leafId : PageId) (path : List SearchPathEntry) (tree : BTree BTreeWalAdapter) :
    LogExtends Idle tree ((afterErase leafId path).run tree).2 :=
  (idle_rules.afterErase leafId path tree).1

/-- A successful erasure logs its key, then what the rebalancing does. -/
theorem erase_recorded (sink : tree.writing = some writing) (done : (erase key).run tree = (.ok (), after)) :
    ∃ first entry last, after.appended = tree.appended ++ first ++ entry :: last ∧ (∀ other ∈ first, Idle other.1) ∧
      (∀ other ∈ last, Idle other.1) ∧ Tells writing entry.1 (.erase key) ∧ entry.2.ok = true := by
  rw [erase_eq] at done
  obtain ⟨found, detached, begun, rest⟩ := bind_ok done
  have longer := (idle_rules.detach key tree).1
  rw [begun] at longer
  obtain ⟨first, grown, idle⟩ := longer.records
  have heard : ({ detached with size := detached.size - 1 } : BTree BTreeWalAdapter).writing = some writing :=
    longer.writing.trans sink
  rw [erased, run_bind_ok (run_update _)] at rest
  obtain ⟨_, noted, told, fixed⟩ := bind_ok rest
  obtain ⟨entry, next, tells, granted⟩ := notify_recorded heard (.erase key)
  rw [told] at next granted
  have further := afterErase_idle found.1 found.2.2 noted
  rw [fixed] at further
  obtain ⟨last, whole, later⟩ := further.records
  refine ⟨first, entry, last, ?_, idle, later, tells, granted rfl⟩
  have same : appended { detached with size := detached.size - 1 } = detached.appended := rfl
  rw [whole, next, same, grown, List.append_assoc _ [entry] last]
  rfl

theorem erase_idle (unchanged : ((erase key).run tree).2.size = tree.size) :
    LogExtends Idle tree ((erase key).run tree).2 := by
  have longer := (idle_rules.detach key tree).1
  have counted : ((detach key).run tree).2.size = tree.size := ((size_rules tree.size).detach key).run rfl
  rw [erase_eq] at unchanged ⊢
  rcases begun : (detach key).run tree with ⟨failure | found, detached⟩
  · rw [run_bind_error begun]
    rwa [begun] at longer
  -- from here on the size has gone down by one
  · rw [begun] at counted
    have smaller : Keeps (fun after : BTree BTreeWalAdapter => after.size = tree.size - 1)
        (notify (.erase key) >>= fun _ => afterErase found.1 found.2.2) :=
      keeps_bind (notify_size _ _) fun _ => (size_rules _).afterErase _ _
    have shrunk : ({ detached with size := detached.size - 1 } : BTree BTreeWalAdapter).size = tree.size - 1 := by
      rw [← counted]
    have final := smaller.run shrunk
    rw [run_bind_ok begun, erased, run_bind_ok (run_update _), final] at unchanged
    have wrapped := congrArg UInt64.toNat unchanged
    have small := tree.size.toNat_lt
    rw [UInt64.toNat_sub, UInt64.toNat_one] at wrapped
    omega

end Calls

/-! ### Applying the records -/

section Apply

open LogReplayer

variable {ω : Type} [BTreeWalSink ω] {record : LogRecord} {key : Key} {value : PageReference} {tree : BTree ω}

theorem applyRecord_idle (idle : Idle record) : (applyRecord record).run tree = (.ok (), tree) := by
  simp only [Idle, List.mem_cons, List.not_mem_nil, or_false] at idle
  refine applyRecord_other ?_ ?_ tree
  · rcases idle with same | same | same | same <;> rw [Keyed, same] <;> decide
  · rcases idle with same | same | same | same <;> rw [same] <;> decide

theorem applyAll_append (first second : List LogRecord) :
    (applyAll (first ++ second) : TreeM ω Unit) = applyAll first >>= fun _ => applyAll second := by
  induction first with
  | nil => rfl
  | cons record rest ih =>
    rw [List.cons_append, applyAll, applyAll, bind_assoc]
    simp only [ih]

theorem applyAll_idle {records : List LogRecord} (idle : ∀ record ∈ records, Idle record) :
    (applyAll records).run tree = (.ok (), tree) := by
  induction records with
  | nil => rfl
  | cons record rest ih =>
    rw [applyAll, run_bind_ok (applyRecord_idle (idle record List.mem_cons_self))]
    exact ih fun other member => idle other (List.mem_cons_of_mem _ member)

theorem applyRecord_update (told : Tells appending record (.insert key value)) (valid : value.isValid = true) :
    (applyRecord record : TreeM ω Unit) = applyUpdate key value := by
  have type : record.type = .pageUpdate := told.names.1
  have payload : record.payload = key.serialize ++ value.serialize := by
    rw [told.payload rfl, appending, TreeEvent.blocks, BTreeWalAdapter.entryBlocks, if_pos valid, List.flatten_append,
      Key.flatten_blocks, List.flatten_singleton]
  have entry : Decodes (do return (← Key.deserialize 0, ← PageReference.deserialize)) (key.serialize ++ value.serialize)
      (key, value) :=
    decodes_bind (key.decodes_deserialize key.sized_zero)
      (decodes_return value.decodes_deserialize fun ref => (key, ref))
  have short := key.length_serialize_lt
  have read := entry.whole (by
    simp only [List.length_append, PageReference.length_serialize, PageReference.kSize, sizeLimit]
    omega)
  rw [applyRecord, if_pos type, payload, decode, read]
  rfl

theorem applyRecord_delete (told : Tells appending record (.erase key)) :
    (applyRecord record : TreeM ω Unit) = applyDelete key := by
  have type : record.type = .pageDelete := told.names.1
  have payload : record.payload = key.serialize := by
    rw [told.payload rfl, appending, TreeEvent.blocks, BTreeWalAdapter.entryBlocks, if_neg (by decide), List.append_nil,
      Key.flatten_blocks]
  have short := key.length_serialize_lt
  have entry : Decodes (Key.deserialize 0) key.serialize key := key.decodes_deserialize key.sized_zero
  have read := entry.whole (by
    simp only [sizeLimit]
    omega)
  rw [applyRecord, if_neg (by rw [type]; decide), if_pos type, payload, decode, read]
  rfl

theorem applyUpdate_new (new : tree.contains key = .ok false) :
    (applyUpdate key value).run tree = (BTree.insert key value).run tree := by
  rw [applyUpdate, run_bind_ok run_read, run_bind_ok (ofExcept_run new tree)]
  rfl

theorem applyDelete_known (known : tree.contains key = .ok true) :
    (applyDelete key).run tree = (BTree.erase key).run tree := by
  rw [applyDelete, run_bind_ok run_read, run_bind_ok (ofExcept_run known tree)]
  rfl

end Apply
/-! ### Runs -/

inductive LoggedCall where
  | tree (call : TreeCall)
  | flush
  deriving DecidableEq, Repr

namespace LoggedCall

open BTree LogReplayer

def step (tree : BTree BTreeWalAdapter) : LoggedCall → BTree BTreeWalAdapter
  | .tree call => call.step tree
  | .flush => { tree with walSink := tree.walSink.map fun adapter => { adapter with manager := adapter.manager.flush.2 } }

/-- The call returns OK or leaves the tree as it was. -/
def Clean (tree : BTree BTreeWalAdapter) : LoggedCall → Prop
  | .tree call => (call.perform.run tree).1 = .ok () ∨ (call.step tree).silenced = tree.silenced
  | .flush => True

/-- A tree over a log that nothing was appended to through the adapter. -/
def opened (space : Space.SpaceManager) (config : BTreeNodeConfig) (manager : LogManager) (clock : Nat → UInt64)
    (writing : Writing := appending) (framed : LogRecord → List UInt8 := LogWriter.frame) : BTree BTreeWalAdapter :=
  { space := space, config := config
    walSink := some { manager := manager, clock := clock, writing := writing, framed := framed } }

/-- Applying what was logged gives the tree. -/
structure Replayed (space : Space.SpaceManager) (config : BTreeNodeConfig) (tree : BTree BTreeWalAdapter) : Prop where
  sink : tree.writing = some appending
  nodes : tree.Nodewise config (fun _ => LeafNode.Paired) (fun _ _ => True)
  replay : tree.Granted → (applyAll tree.emitted).run (BTree.create space config) = (.ok (), tree.silenced)

variable {space : Space.SpaceManager} {config : BTreeNodeConfig} {tree : BTree BTreeWalAdapter}

theorem replayed_opened (manager : LogManager) (clock : Nat → UInt64) :
    Replayed space config (opened space config manager clock) :=
  ⟨rfl, .create space config _, fun _ => rfl⟩

theorem contains_silenced (tree : BTree BTreeWalAdapter) (key : Key) : tree.silenced.contains key = tree.contains key :=
  tree.contains_sink none key

/-- Applied in order, the records leave the tree as it is up to one of them, and from there on as the second. -/
structure Moves (records : List LogRecord) (before after : BTree BTreeWalAdapter) : Prop where
  fronts : ∀ front, front <+: records →
    (applyAll front).run before = (.ok (), before) ∨ (applyAll front).run before = (.ok (), after)
  whole : (applyAll records).run before = (.ok (), after)

theorem moves_idle {records : List LogRecord} (idle : ∀ record ∈ records, Idle record) (tree : BTree BTreeWalAdapter) :
    Moves records tree tree :=
  ⟨fun _ inside => .inl (applyAll_idle fun record member => idle record (inside.subset member)), applyAll_idle idle⟩

theorem moves_around {first last : List LogRecord} {record : LogRecord} {before after : BTree BTreeWalAdapter}
    (idle : ∀ other ∈ first, Idle other) (applied : (applyRecord record).run before = (.ok (), after))
    (later : ∀ other ∈ last, Idle other) : Moves (first ++ record :: last) before after := by
  induction first with
  | nil =>
    have behind := moves_idle later after
    refine ⟨fun front inside => ?_, by rw [List.nil_append, applyAll, run_bind_ok applied, behind.whole]⟩
    rcases List.prefix_cons_iff.mp inside with rfl | ⟨rest, rfl, further⟩
    · exact .inl rfl
    · rw [applyAll, run_bind_ok applied]
      exact .inr ((behind.fronts rest further).elim id id)
  | cons other first ih =>
    obtain ⟨now, idle⟩ := List.forall_mem_cons.mp idle
    have skipped : (applyRecord other).run before = (.ok (), before) := applyRecord_idle now
    have behind := ih idle
    refine ⟨fun front inside => ?_, by rw [List.cons_append, applyAll, run_bind_ok skipped, behind.whole]⟩
    rcases List.prefix_cons_iff.mp inside with rfl | ⟨rest, rfl, further⟩
    · exact .inl rfl
    · rw [applyAll, run_bind_ok skipped]
      exact behind.fronts rest further

theorem idle_map {entries : List (LogRecord × Status)} (idle : ∀ entry ∈ entries, Idle entry.1) :
    ∀ record ∈ entries.map Prod.fst, Idle record :=
  List.forall_mem_map.mpr idle

theorem insert_was_new (nodes : tree.Nodewise config (fun _ => LeafNode.Paired) (fun _ _ => True))
    (unique : config.allowDuplicates = false) {key : Key} {value : PageReference} {after : BTree BTreeWalAdapter}
    (done : (BTree.insert key value).run tree = (.ok (), after)) :
    value.isValid = true ∧ tree.contains key = .ok false := by
  rw [BTree.insert] at done
  by_cases valid : value.isValid = true
  · refine ⟨valid, ?_⟩
    rw [if_neg (by simp [valid]), run_bind_ok run_read] at done
    by_cases empty : tree.empty = true
    · simp [contains, find, descendToLeaf, empty]
    · rw [if_neg empty] at done
      obtain ⟨found, middle, down, -⟩ := bind_ok done
      cases walked : tree.descendForInsert key with
      | error failure =>
        rw [walked] at down
        cases down
      | ok spot => exact contains_of_descendForInsert (nodes.config ▸ unique) nodes.leaves walked
  · rw [if_pos (by simpa using valid)] at done
    cases done

theorem erase_was_known (nodes : tree.Nodewise config (fun _ => LeafNode.Paired) (fun _ _ => True)) {key : Key}
    {after : BTree BTreeWalAdapter} (done : (BTree.erase key).run tree = (.ok (), after)) :
    tree.contains key = .ok true := by
  rw [BTree.erase, run_bind_ok run_read] at done
  by_cases empty : tree.empty = true
  · rw [if_pos empty] at done
    cases done
  · rw [if_neg empty] at done
    obtain ⟨found, middle, down, -⟩ := bind_ok done
    cases walked : tree.descendToLeaf key true with
    | error failure =>
      rw [walked] at down
      cases down
    | ok spot => exact contains_of_descendToLeaf nodes.leaves walked

/-- What a call without a refused append logs moves the tree to what the call leaves. -/
theorem Replayed.moves_call (replayed : Replayed space config tree) (unique : config.allowDuplicates = false) {call : TreeCall}
    (clean : Clean tree (.tree call)) (granted : (call.step tree).Granted) :
    ∃ more, (call.step tree).appended = tree.appended ++ more ∧
      Moves (more.map Prod.fst) tree.silenced (call.step tree).silenced := by
  by_cases done : (call.perform.run tree).1 = .ok ()
  · have ended : call.perform.run tree = (.ok (), call.step tree) := Prod.ext done rfl
    have alike := (call.logs_perform tree).2
    rw [ended] at alike
    cases call with
    | insert key value =>
      obtain ⟨more, entry, whole, idle, told, -⟩ := insert_recorded replayed.sink ended
      obtain ⟨valid, new⟩ := insert_was_new replayed.nodes unique ended
      have applied : (applyRecord entry.1).run tree.silenced = (.ok (), (TreeCall.step tree (.insert key value)).silenced) := by
        rw [applyRecord_update told valid, applyUpdate_new (by rw [contains_silenced, new])]
        exact alike granted
      refine ⟨more ++ [entry], by rw [whole, List.append_assoc], ?_⟩
      rw [List.map_append]
      exact moves_around (idle_map idle) applied (by simp)
    | erase key =>
      obtain ⟨first, entry, last, whole, idle, later, told, -⟩ := erase_recorded replayed.sink ended
      have known := erase_was_known replayed.nodes ended
      have applied : (applyRecord entry.1).run tree.silenced = (.ok (), (TreeCall.step tree (.erase key)).silenced) := by
        rw [applyRecord_delete told, applyDelete_known (by rw [contains_silenced, known])]
        exact alike granted
      refine ⟨first ++ entry :: last, by rw [whole, List.append_assoc], ?_⟩
      rw [List.map_append]
      exact moves_around (idle_map idle) applied (idle_map later)
  · have same := clean.resolve_left done
    have quiet : LogExtends Idle tree (call.step tree) := by
      cases call with
      | insert key value => exact insert_idle done granted
      | erase key => exact erase_idle (show (TreeCall.step tree (.erase key)).silenced.size = tree.silenced.size by rw [same])
    obtain ⟨more, grown, idle⟩ := quiet.records
    refine ⟨more, grown, ?_⟩
    rw [same]
    exact moves_idle (idle_map idle) _

theorem flush_appended (tree : BTree BTreeWalAdapter) : (step tree .flush).appended = tree.appended := by
  cases heard : tree.walSink with
  | none => simp only [step, appended, heard, Option.map_none]
  | some adapter => simp only [step, appended, heard, Option.map_some]

theorem step_extends (tree : BTree BTreeWalAdapter) (input : LoggedCall) : LogExtends (fun _ => True) tree (step tree input) := by
  cases input with
  | tree call => exact (call.logs_perform tree).1
  | flush =>
    refine ⟨?_, [], by rw [flush_appended, List.append_nil], by simp⟩
    simp only [step, BTree.writing, Option.map_map]
    rfl

theorem Replayed.moves (replayed : Replayed space config tree) (unique : config.allowDuplicates = false) {input : LoggedCall}
    (clean : Clean tree input) (granted : (step tree input).Granted) :
    ∃ more, (step tree input).appended = tree.appended ++ more ∧
      Moves (more.map Prod.fst) tree.silenced (step tree input).silenced := by
  cases input with
  | tree call => exact replayed.moves_call unique clean granted
  | flush => exact ⟨[], by rw [flush_appended, List.append_nil], moves_idle (by simp) tree.silenced⟩

theorem Replayed.step (replayed : Replayed space config tree) (unique : config.allowDuplicates = false)
    {input : LoggedCall} (clean : Clean tree input) : Replayed space config (step tree input) := by
  have longer := step_extends tree input
  refine ⟨longer.writing.trans replayed.sink, ?_, fun granted => ?_⟩
  · cases input with
    | flush => exact replayed.nodes.of_fewer rfl (fun _ _ present => present) fun _ _ present => present
    | tree call =>
      exact (call.perform_nodewise closed_paired (fun _ _ => ⟨Nat.zero_le _, rfl⟩) (fun _ _ => trivial) trivial).run
        replayed.nodes
  · obtain ⟨more, grown, moves⟩ := replayed.moves unique clean granted
    rw [emitted, grown, List.map_append, applyAll_append]
    exact (run_bind_ok (replayed.replay (longer.granted granted))).trans moves.whole

theorem emitted_unmarked (space : Space.SpaceManager) (config : BTreeNodeConfig) (manager : LogManager) (clock : Nat → UInt64)
    (inputs : List LoggedCall) :
    ∀ record ∈ (Runs.after step (opened space config manager clock) inputs).emitted, record.type ≠ .checkpointMarker := by
  have keeps : ∀ (tree : BTree BTreeWalAdapter) (input : LoggedCall),
      (∀ entry ∈ tree.appended, entry.1.type ≠ .checkpointMarker) → True →
        ∀ entry ∈ (step tree input).appended, entry.1.type ≠ .checkpointMarker := by
    intro tree input before _ entry member
    cases input with
    | flush => exact before entry (flush_appended tree ▸ member)
    | tree call =>
      obtain ⟨more, grown, kinds⟩ := (call.logs_unmarked tree).1.records
      have grown : (step tree (.tree call)).appended = tree.appended ++ more := grown
      rw [grown] at member
      rcases List.mem_append.mp member with old | new
      · exact before entry old
      · exact kinds entry new
  have initial : ∀ entry ∈ (opened space config manager clock).appended, entry.1.type ≠ .checkpointMarker := by
    simp [opened, appended]
  have always := Runs.always_of_invariant keeps initial (Runs.atEachStep_true _ inputs)
  intro record member
  obtain ⟨entry, inside, rfl⟩ := List.mem_map.mp member
  exact always.last entry inside

/-- Applying the log of a run to an empty tree succeeds at every record and gives the tree of
the run, in everything but the sink. -/
theorem replay_reproduces_tree (space : Space.SpaceManager) (config : BTreeNodeConfig)
    (unique : config.allowDuplicates = false) (manager : LogManager) (clock : Nat → UInt64) (inputs : List LoggedCall)
    (clean : Runs.AtEachStep step Clean (opened space config manager clock) inputs)
    (granted : (Runs.after step (opened space config manager clock) inputs).Granted) :
    (applyAll (Runs.after step (opened space config manager clock) inputs).emitted).run (BTree.create space config) =
      (.ok (), (Runs.after step (opened space config manager clock) inputs).silenced) := by
  have always := Runs.always_of_invariant (fun _ _ replayed clean => replayed.step unique clean)
    (replayed_opened manager clock) clean
  exact always.last.replay granted

/-- Insertions, a refused duplicate, a refused reference, an erasure of a key that is not
there and one of a key that is. -/
def mixedRun : List LoggedCall :=
  [.tree (.insert (.uint32 5) (PageReference.make 100 1 4)), .tree (.insert (.uint32 3) (PageReference.make 101 1 4)),
    .tree (.insert (.uint32 5) (PageReference.make 102 1 4)), .tree (.insert (.uint32 9) .invalid), .flush,
    .tree (.erase (.uint32 7)), .tree (.erase (.uint32 5))]

def freshLog : LogManager := (({} : LogManager).initializeLog "wal" true).2

theorem replay_reproduces_tree_mixed :
    (applyAll (Runs.after step (opened (Space.SpaceManager.withPolicy .firstFit) {} freshLog fun _ => 7) mixedRun).emitted).run
        (BTree.create (Space.SpaceManager.withPolicy .firstFit) {}) =
      (.ok (), (Runs.after step (opened (Space.SpaceManager.withPolicy .firstFit) {} freshLog fun _ => 7) mixedRun).silenced) := by
  refine replay_reproduces_tree _ _ rfl _ _ _ ?_ (by decide +kernel)
  simp only [mixedRun, Runs.atEachStep_cons, Runs.atEachStep_nil, and_true]
  refine ⟨.inl ?_, .inl ?_, .inr ?_, .inr ?_, trivial, .inr ?_, .inl ?_⟩
  · decide +kernel
  · decide +kernel
  · rfl
  · rfl
  · rfl
  · decide +kernel

end LoggedCall
end Quartz.Btree
