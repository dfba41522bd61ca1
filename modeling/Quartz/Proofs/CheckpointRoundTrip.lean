import Quartz.Proofs.Checkpoints
import Quartz.Proofs.FailedInsertions
import Quartz.Proofs.Snapshots

/-! Checkpoints of a tree: written to the log, found again and restored. The record of a
checkpoint has to fit into the buffer of the log writer, which has room for fifteen nodes. -/

namespace Quartz.Recovery.CheckpointManager
open Storage Serialization Bytes Btree Wal Fallible

variable {ω ω' : Type} {tree : BTree ω} {timestamp : UInt64} {wal : LogManager} {records : List LogRecord}

/-- A checkpoint of the tree is written under the number it carries, is the one that is found
afterwards, and gives the tree back. -/
def Lossless (tree : BTree ω) (order : tree.Enumeration) (timestamp : UInt64) (wal : LogManager) (target : BTree ω') : Prop :=
  ∃ lsn after, createCheckpoint tree order timestamp wal = (.ok lsn, after) ∧ (payloadOf tree order wal).lsn = lsn ∧
    (∃ later, findLastCheckpoint after = (Status.success, ⟨payloadOf tree order wal, lsn, true⟩, later)) ∧
    ∃ restored, restoreTree (payloadOf tree order wal) target = (Status.success, restored) ∧ tree.Restores restored

/-- When a checkpoint of the tree at the end of a log of these records is lossless. -/
structure Checkpointable (tree : BTree ω) (timestamp : UInt64) (wal : LogManager) (records : List LogRecord) : Prop where
  room : tree.nodeCount ≤ 15
  numbered : wal.writer.nextLsn.isValid = true
  stamped : timestamp ≠ 0
  readable : ∀ record ∈ records, Readable record
  written : tree.Written

theorem length_snapshot (order : tree.Enumeration) (wal : LogManager) :
    (payloadOf tree order wal).btreeSnapshot.length = 24 + tree.nodeCount * 4096 := tree.length_serialize order

theorem length_marker (order : tree.Enumeration) (timestamp : UInt64) (wal : LogManager) :
    (markerOf tree order timestamp wal).payload.length = 56 + tree.nodeCount * 4096 := by
  have length := length_snapshot order wal
  rw [markerOf, CheckpointPayload.length_serialize (by omega), length]
  omega

/-- The checkpoint is written exactly if its record is accepted. -/
theorem createCheckpoint_atEnd (atEnd : wal.AtEnd records) (order : tree.Enumeration) :
    ((createCheckpoint tree order timestamp wal).1 = .error (wal.writer.appendRecord (markerOf tree order timestamp wal)).1 ∧
        ¬ (wal.writer.appendRecord (markerOf tree order timestamp wal)).1.ok = true) ∨
      ∃ after, createCheckpoint tree order timestamp wal = (.ok wal.writer.nextLsn, after) ∧
        (wal.writer.appendRecord (markerOf tree order timestamp wal)).1.ok = true ∧
        after.AtEnd (records ++ [{ markerOf tree order timestamp wal with lsn := wal.writer.nextLsn }]) := by
  have answer : (wal.append (markerOf tree order timestamp wal)).1 =
      (wal.writer.appendRecord (markerOf tree order timestamp wal)).1 := by
    rw [LogManager.append, if_neg (by simp [atEnd.initialized])]
  by_cases accepted : (wal.writer.appendRecord (markerOf tree order timestamp wal)).1.ok = true
  · obtain ⟨after, flushed, ended, current⟩ := atEnd.append accepted
    refine .inr ⟨after, ?_, accepted, ended⟩
    rw [← current]
    simp only [createCheckpoint, answer, accepted, flushed, Status.ok_success, if_not_true]
  · refine .inl ⟨?_, accepted⟩
    simp only [createCheckpoint, answer, accepted, Bool.not_false, if_true]

theorem restoreTree_run (stored : tree.Stored) (canonical : KeyType.ofByte tree.config.keyType.byte = tree.config.keyType)
    (order : tree.Enumeration) (valid : (payloadOf tree order wal).validate.ok = true) (target : BTree ω') :
    ∃ restored, restoreTree (payloadOf tree order wal) target = (Status.success, restored) ∧
      tree.Copies target.clear restored := by
  obtain ⟨loaded, ran, copies⟩ := stored.runs canonical order target.clear
  have snapshot : (payloadOf tree order wal).btreeSnapshot = tree.serialize order := rfl
  exact ⟨loaded, by simp only [restoreTree, valid, snapshot, ran, if_not_true], copies⟩

theorem lossless_iff (stored : tree.Stored) (canonical : KeyType.ofByte tree.config.keyType.byte = tree.config.keyType)
    (atEnd : wal.AtEnd records) (order : tree.Enumeration) (timestamp : UInt64) (target : BTree ω') :
    Lossless tree order timestamp wal target ↔ Checkpointable tree timestamp wal records := by
  have length := length_marker order timestamp wal
  have capacity : ({} : LogBuffer).capacity = 65536 := rfl
  have number : (payloadOf tree order wal).lsn = wal.writer.nextLsn := atEnd.nextLsn.symm
  have sound : wal.writer.nextLsn.isValid = true → (payloadOf tree order wal).validate.ok = true := fun numbered => by
    have same : (payloadOf tree order wal).lsn.isValid = true := by rw [number]; exact numbered
    simp only [CheckpointPayload.validate, same]
    rfl
  constructor
  · rintro ⟨lsn, after, created, -, ⟨later, found⟩, restored, restores, same⟩
    rcases @createCheckpoint_atEnd _ tree timestamp _ _ atEnd order with ⟨failed, -⟩ | ⟨other, done, accepted, ended⟩
    · rw [created] at failed
      cases failed
    · rw [done] at created
      obtain ⟨-, rfl⟩ := Prod.mk.inj created
      obtain ⟨valid, room, -⟩ := LogWriter.appendRecord_ok accepted
      rw [atEnd.buffer, length, List.length_nil, capacity] at room
      refine ⟨by omega, valid.lsn, valid.timestamp, fun record member => ?_, ?_⟩
      · obtain ⟨last, searched, -⟩ := findLastCheckpoint_holds ended.holds
        have passed := congrArg Prod.fst (searched.symm.trans found)
        exact readable_of_found passed record (List.mem_append_left _ member)
      · obtain ⟨loaded, loads, copies⟩ := restoreTree_run stored canonical order (sound valid.lsn) target
        rw [restores] at loads
        obtain rfl := congrArg Prod.snd loads
        exact copies.written canonical same
  · rintro ⟨room, numbered, stamped, readable, written⟩
    have valid : ({ markerOf tree order timestamp wal with lsn := wal.writer.nextLsn } : LogRecord).Valid :=
      ⟨rfl, numbered, stamped⟩
    have accepted := LogWriter.appendRecord_accepts valid (by
      rw [atEnd.buffer, length, List.length_nil, capacity]
      omega)
    rcases @createCheckpoint_atEnd _ tree timestamp _ _ atEnd order with ⟨-, refused⟩ | ⟨after, done, -, ended⟩
    · rw [accepted] at refused
      exact absurd rfl refused
    · have size := length_snapshot order wal
      have read := (CheckpointPayload.codes_deserialize (by omega) (sound numbered)).decodes.whole (by
        rw [CheckpointPayload.length_serialize (by omega), size, sizeLimit]
        omega)
      obtain ⟨later, searched, -⟩ := findLastCheckpoint_holds ended.holds
      rw [searchRecords, examine_all_last readable rfl read] at searched
      obtain ⟨restored, loads, copies⟩ := restoreTree_run stored canonical order (sound numbered) target
      exact ⟨_, after, done, number, ⟨later, searched⟩, restored, loads, stored.restores canonical written copies⟩

theorem createCheckpoint_full (atEnd : wal.AtEnd records) (numbered : wal.writer.nextLsn.isValid = true)
    (stamped : timestamp ≠ 0) (many : 16 ≤ tree.nodeCount) (order : tree.Enumeration) :
    (createCheckpoint tree order timestamp wal).1 = .error (Status.outOfMemory "LogBuffer: capacity exceeded") := by
  have capacity : ({} : LogBuffer).capacity = 65536 := rfl
  have valid : ({ markerOf tree order timestamp wal with lsn := wal.writer.nextLsn } : LogRecord).Valid :=
    ⟨rfl, numbered, stamped⟩
  have refused := LogWriter.appendRecord_full valid (by
    rw [atEnd.buffer, length_marker, List.length_nil, capacity]
    omega)
  rcases @createCheckpoint_atEnd _ tree timestamp _ _ atEnd order with ⟨failed, -⟩ | ⟨-, -, accepted, -⟩
  · rw [failed, refused]
  · rw [refused] at accepted
    cases accepted

section Reachable

variable [BTreeWalSink ω]

/-- For every tree that insertions and erasures reach and every log: a checkpoint at the end of
the log is lossless exactly if the tree has no more than fifteen nodes, all of them written to
their pages, and the log has a number left and no checkpoint that cannot be read. -/
theorem checkpoint_is_lossless_iff (space : Space.SpaceManager) (sound : space.pageAllocator.Sound) (config : BTreeNodeConfig)
    (canonical : KeyType.ofByte config.keyType.byte = config.keyType) (sink : Option ω) (calls : List TreeCall)
    (matching : ∀ call ∈ calls, call.key.Matches config)
    (order : (Runs.after TreeCall.step ({ space := space, config := config, walSink := sink } : BTree ω) calls).Enumeration)
    (timestamp : UInt64) (wal : LogManager) (records : List LogRecord) (atEnd : wal.AtEnd records) (target : BTree ω') :
    Lossless (Runs.after TreeCall.step { space := space, config := config, walSink := sink } calls) order timestamp wal target ↔
      Checkpointable (Runs.after TreeCall.step ({ space := space, config := config, walSink := sink } : BTree ω) calls)
        timestamp wal records := by
  obtain ⟨same, stored⟩ := TreeCall.stored_after sound config sink matching
  exact lossless_iff stored (by rw [same]; exact canonical) atEnd order timestamp target

end Reachable

def newLog : LogManager := (({} : LogManager).initializeLog "wal" true).2

theorem newLog_atEnd : newLog.AtEnd [] := by
  obtain ⟨after, created, initialized, ready, bytes, offset, writer, -⟩ :=
    @LogManager.initialize_create {} rfl rfl "wal"
  obtain rfl : newLog = after := congrArg Prod.snd created
  refine ⟨initialized, ready, bytes, trivial, offset, ?_, ?_, by simp⟩
  · rw [writer]
  · rw [writer]
    rfl

theorem checkpoint_is_lossless_iff_brief :
    Lossless (Runs.after TreeCall.step ({ space := Space.SpaceManager.withPolicy .firstFit } : BTree Empty) TreeCall.briefRun)
      (BTree.listed _) 1 newLog ({ space := Space.SpaceManager.withPolicy .firstFit } : BTree Empty) := by
  refine (checkpoint_is_lossless_iff (Space.SpaceManager.withPolicy .firstFit) PageAllocator.sound_new {} rfl none
    TreeCall.briefRun TreeCall.briefRun_matches _ 1 newLog [] newLog_atEnd _).mpr ⟨?_, ?_, ?_, ?_, ?_⟩
  · decide +kernel
  · decide +kernel
  · decide
  · simp
  · exact TreeCall.briefRun_written

/-- A step that takes it for granted that an entry fits into the page of a leaf with room. -/
def brisk (tree : BTree Empty) : TreeCall → BTree Empty
  | .erase key => TreeCall.step tree (.erase key)
  | .insert key value =>
    match tree.descendForInsert key with
    | .error _ => TreeCall.step tree (.insert key value)
    | .ok (leafId, _, _) =>
      match tree.leaves.lookup leafId with
      | none => TreeCall.step tree (.insert key value)
      | some leaf =>
        if leaf.Admits key value then
          { tree with
            leaves := tree.leaves.insert leafId (leaf.filled (leaf.keys.insertIdx (leaf.lowerBound key) key)
              (leaf.refs.insertIdx (leaf.lowerBound key) value))
            size := tree.size + 1 }
        else TreeCall.step tree (.insert key value)

theorem brisk_eq {tree : BTree Empty} (stored : tree.Stored) {call : TreeCall} (matching : call.key.Matches tree.config) :
    brisk tree call = TreeCall.step tree call := by
  cases call with
  | erase key => rfl
  | insert key value =>
    rw [brisk]
    split
    next => rfl
    next leafId index path found =>
    split
    next => rfl
    next leaf standing =>
    split
    next admits =>
      have ok := (stored.nodes.leaves leafId leaf standing).ok
      have fits : (leaf.keys.insertIdx (leaf.lowerBound key) key).length ≤ computeCapacity tree.config .leaf := by
        have room := admits.2.1
        rw [ok.count, ok.page.capacity] at room
        rw [List.length_insertIdx]
        split <;> omega
      have done := ((leaf.insert_cases key value).resolve_right fun refused => refused.1 admits).2
      rw [leaf.setEntries_eq _ fits fun other member => (List.eq_or_mem_of_mem_insertIdx member).elim
        (fun same => same ▸ matching) (ok.matching other)] at done
      have silent : tree.walSink = none := Option.eq_none_iff_forall_ne_some.mpr fun sink _ => sink.elim
      rw [TreeCall.step, TreeCall.perform, BTree.insert_room admits.1 found standing admits.2.1 (by rw [done]; rfl), done,
        BTree.inserted_silent (by exact silent)]
    next => rfl

theorem brisk_after {config : BTreeNodeConfig} {calls : List TreeCall} (matching : ∀ call ∈ calls, call.key.Matches config) :
    Runs.after brisk ({ space := Space.SpaceManager.withPolicy .firstFit, config := config } : BTree Empty) calls =
      Runs.after TreeCall.step { space := Space.SpaceManager.withPolicy .firstFit, config := config } calls := by
  induction calls using List.reverseRecOn with
  | nil => rfl
  | append_singleton calls call ih =>
    have before : ∀ other ∈ calls, other.key.Matches config := fun other member => matching other (List.mem_append_left _ member)
    have sound : (Space.SpaceManager.withPolicy .firstFit).pageAllocator.Sound := PageAllocator.sound_new
    obtain ⟨same, stored⟩ := TreeCall.stored_after sound config (none : Option Empty) before
    rw [Runs.after_append, Runs.after_append, ih before]
    exact brisk_eq stored (by rw [same]; exact matching call (List.mem_append_right _ (List.mem_singleton_self _)))

/-- The checkpoint of a tree of sixteen nodes is refused by the log. -/
theorem sixteen_nodes_do_not_fit :
    let config : BTreeNodeConfig := { keyType := .binary, binaryKeySize := 256 }
    let calls := (List.range 119).map fun byte =>
      TreeCall.insert (wideKey (UInt8.ofNat byte)) (Format.PageReference.make 9 0 1)
    let tree : BTree Empty := Runs.after TreeCall.step
      { space := Space.SpaceManager.withPolicy .firstFit, config := config } calls
    (∀ call ∈ calls, call.key.Matches config) ∧ tree.nodeCount = 16 ∧
      (createCheckpoint tree tree.listed 1 newLog).1 = .error (Status.outOfMemory "LogBuffer: capacity exceeded") ∧
      ¬ Lossless tree tree.listed 1 newLog ({ space := Space.SpaceManager.withPolicy .firstFit } : BTree Empty) := by
  intro config calls tree
  have matching : ∀ call ∈ calls, call.key.Matches config := by
    intro call member
    obtain ⟨byte, -, rfl⟩ := List.mem_map.mp member
    exact wideKey_matches _
  have nodes : tree.nodeCount = 16 := by
    rw [show tree = _ from (brisk_after matching).symm]
    decide +kernel
  have full := createCheckpoint_full newLog_atEnd (by decide +kernel) (by decide : (1 : UInt64) ≠ 0) (Nat.le_of_eq nodes.symm)
    tree.listed
  refine ⟨matching, nodes, full, fun lossless => ?_⟩
  obtain ⟨lsn, after, created, -⟩ := lossless
  exact nomatch (congrArg Prod.fst created).symm.trans full

end Quartz.Recovery.CheckpointManager
