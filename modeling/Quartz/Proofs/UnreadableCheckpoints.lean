import Quartz.Proofs.RecoveryRuns
import Quartz.Proofs.Snapshots

/-! Checkpoints that cannot be read. Recovery takes the failure of the search for a log without
a checkpoint and starts from an empty tree, but keeps the number of the checkpoint that was
found before the one that cannot be read, and skips every record up to it. -/

namespace Quartz.Recovery
open Storage Serialization Btree Wal Fallible

namespace CheckpointManager

/-- The records before the first checkpoint that cannot be read. -/
def readableFront (records : List LogRecord) : List LogRecord := records.takeWhile fun record => decide (Readable record)

/-- What the outputs of the search are after these records. -/
inductive Latest (records : List LogRecord) (search : CheckpointSearch) : CheckpointSearch → Prop where
  | unchanged (without : ∀ record ∈ records, record.type ≠ .checkpointMarker) : Latest records search search
  | found (before : List LogRecord) (marker : LogRecord) (between : List LogRecord) (payload : CheckpointPayload)
      (reader : BinaryReader) (split : records = before ++ marker :: between) (type : marker.type = .checkpointMarker)
      (read : CheckpointPayload.deserialize.run { view := marker.payload } = .ok (payload, reader))
      (last : ∀ record ∈ between, record.type ≠ .checkpointMarker) : Latest records search ⟨payload, marker.lsn, true⟩

variable {records rest : List LogRecord} {record : LogRecord} {search after : CheckpointSearch}

theorem Latest.cons_other (latest : Latest rest search after) (other : record.type ≠ .checkpointMarker) :
    Latest (record :: rest) search after := by
  cases latest with
  | unchanged without => exact .unchanged (List.forall_mem_cons.mpr ⟨other, without⟩)
  | found before marker between payload reader split type read last =>
    exact .found (record :: before) marker between payload reader (by rw [split]; rfl) type read last

theorem Latest.cons_marker {payload : CheckpointPayload} {reader : BinaryReader} (type : record.type = .checkpointMarker)
    (read : CheckpointPayload.deserialize.run { view := record.payload } = .ok (payload, reader))
    (latest : Latest rest ⟨payload, record.lsn, true⟩ after) : Latest (record :: rest) search after := by
  cases latest with
  | unchanged without => exact .found [] record rest payload reader rfl type read without
  | found before marker between payload' reader' split type' read' last =>
    exact .found (record :: before) marker between payload' reader' (by rw [split]; rfl) type' read' last

theorem examine_latest (records : List LogRecord) (search : CheckpointSearch) :
    Latest (readableFront records) search ((forM records examine).run search).2 := by
  induction records generalizing search with
  | nil => exact .unchanged (by simp [readableFront])
  | cons record rest ih =>
    rw [List.forM_cons]
    by_cases readable : Readable record
    · have front : readableFront (record :: rest) = record :: readableFront rest :=
        List.takeWhile_cons_of_pos (by simpa using readable)
      rw [front]
      by_cases type : record.type = .checkpointMarker
      · cases read : CheckpointPayload.deserialize.run { view := record.payload } with
        | error status => exact absurd (readable type) (by simp [read, Except.isOk, Except.toBool])
        | ok result =>
          rw [run_bind_ok (examine_marker type read)]
          exact Latest.cons_marker type read (ih _)
      · have passed : (examine record).run search = (.ok (), search) := by
          rw [examine, if_pos type]
          rfl
        rw [run_bind_ok passed]
        exact (ih search).cons_other type
    · have front : readableFront (record :: rest) = [] := List.takeWhile_cons_of_neg (by simpa using readable)
      have type : record.type = .checkpointMarker := by
        by_contra other
        exact readable fun marker => absurd marker other
      have stopped : ∃ status, (examine record).run search = (.error status, search) := by
        cases read : CheckpointPayload.deserialize.run { view := record.payload } with
        | error status => exact ⟨status, by rw [examine, if_neg (fun other => other type), read]; rfl⟩
        | ok result => exact absurd (fun _ => by simp [read, Except.isOk, Except.toBool]) readable
      obtain ⟨status, stopped⟩ := stopped
      rw [front, run_bind_error stopped]
      exact .unchanged (by simp)

theorem searchRecords_latest (records : List LogRecord) : Latest (readableFront records) {} (searchRecords records).2 := by
  have latest := examine_latest records {}
  rw [searchRecords]
  rcases ended : (forM records examine).run {} with ⟨status | _, search⟩ <;> rw [ended] at latest
  · exact latest
  · dsimp only
    split <;> exact latest

theorem readableFront_eq : readableFront records = records ↔ ∀ record ∈ records, Readable record := by
  rw [readableFront, List.takeWhile_eq_self_iff]
  simp

theorem searchRecords_ok :
    (searchRecords records).1.ok = true ↔ readableFront records = records ∧ (searchRecords records).2.found = true := by
  rw [readableFront_eq, ← @examine_all {} records, searchRecords]
  rcases ended : (forM records examine).run {} with ⟨status | _, search⟩
  · simp [examine_all_error ended]
  · cases found : search.found <;> simp [found]

end CheckpointManager

namespace RecoveryManager
open CheckpointManager LogReplayer

variable {ω : Type} [BTreeWalSink ω] {records : List LogRecord}

/-- The tree is that of a readable checkpoint and of all that was logged about keys behind it,
or that of the whole log. -/
def Rebuilt (records : List LogRecord) (start tree : BTree ω) : Prop :=
  (∃ marker ∈ records, ∃ payload reader, marker.type = .checkpointMarker ∧
    CheckpointPayload.deserialize.run { view := marker.payload } = .ok (payload, reader) ∧
    (restoreTree payload start).1.ok = true ∧
    (applyAll (pending marker.lsn records)).run (restoreTree payload start).2 = (.ok (), tree)) ∨
  (applyAll records).run start.clear = (.ok (), tree)

/-- Recovery starts from an empty tree and passes over a record about a key. -/
def Discards (wal : LogManager) (records : List LogRecord) : Prop :=
  (findLastCheckpoint wal).1.ok = false ∧
    ∃ record ∈ records, Keyed record ∧ record.lsn.value ≤ (findLastCheckpoint wal).2.1.lsn.value

/-- No record about a key stands before a checkpoint that stands before the first one that cannot
be read. -/
def Uncovered (records : List LogRecord) : Prop :=
  readableFront records ≠ records → ∀ before marker between, readableFront records = before ++ marker :: between →
    marker.type = .checkpointMarker → ∀ record ∈ before, ¬ Keyed record

theorem split_front {before between : List LogRecord} {marker : LogRecord}
    (front : readableFront records = before ++ marker :: between) :
    ∃ behind, records = before ++ marker :: (between ++ behind) := by
  refine ⟨records.dropWhile fun record => decide (Readable record), ?_⟩
  have whole : readableFront records ++ (records.dropWhile fun record => decide (Readable record)) = records :=
    List.takeWhile_append_dropWhile
  rw [front, List.append_assoc, List.cons_append] at whole
  exact whole.symm

theorem reached_by_search (ordered : Ordered .invalid records) {record : LogRecord} (member : record ∈ records)
    (low : record.lsn.value ≤ (searchRecords records).2.lsn.value) :
    (searchRecords records).2.found = true ∧ ∃ before marker between, readableFront records = before ++ marker :: between ∧
      marker.type = .checkpointMarker ∧ (record ∈ before ∨ record = marker) := by
  have latest := searchRecords_latest records
  generalize (searchRecords records).2 = search at latest low
  cases latest with
  | unchanged =>
    have positive := (ordered.valid record member).lsn
    have above : (0 : UInt64) < record.lsn.value :=
      UInt64.pos_iff_ne_zero.mpr (by simpa [LogSequenceNumber.isValid] using positive)
    exact absurd low (UInt64.not_le.mpr above)
  | found before marker between payload reader front type read last =>
    obtain ⟨behind, split⟩ := split_front front
    rw [split] at ordered member
    exact ⟨rfl, before, marker, between, front, type, (ordered.le_iff member).mp low⟩

/-- After a search that failed, everything about a key is numbered above what it has left. -/
theorem Uncovered.above (uncovered : Uncovered records) (ordered : Ordered .invalid records)
    (failed : ¬ (searchRecords records).1.ok = true) :
    ∀ record ∈ records, Keyed record → (searchRecords records).2.lsn.value < record.lsn.value := by
  intro record member keyed
  by_contra low
  obtain ⟨found, before, marker, between, front, type, place⟩ := reached_by_search ordered member (UInt64.not_lt.mp low)
  rcases place with inside | rfl
  · exact uncovered (fun whole => failed (searchRecords_ok.mpr ⟨whole, found⟩)) before marker between front type record
      inside keyed
  · rw [Keyed, type] at keyed
    revert keyed
    decide

theorem recoverRecords_rebuilt (ordered : Ordered .invalid records) (uncovered : Uncovered records) {start tree : BTree ω}
    (recovered : recoverRecords records start = (.ok (), tree)) : Rebuilt records start tree := by
  have latest := searchRecords_latest records
  simp only [recoverRecords] at recovered
  split at recovered
  · cases recovered
  next based =>
  split at recovered
  · cases recovered
  next built ran =>
  obtain rfl : built = tree := congrArg Prod.snd recovered
  by_cases succeeded : (searchRecords records).1.ok = true
  · obtain ⟨whole, some⟩ := searchRecords_ok.mp succeeded
    rw [baseTree, if_pos succeeded] at based ran
    rw [whole] at latest
    generalize (searchRecords records).2 = search at latest some based ran
    cases latest with
    | unchanged => cases some
    | found before marker between payload reader split type read last =>
      exact .inl ⟨marker, by rw [split]; simp, payload, reader, type, read, by simpa using based, ran⟩
  · rw [baseTree, if_neg succeeded] at ran
    refine .inr ?_
    rw [← applyAll_pending ordered.valid (uncovered.above ordered succeeded)]
    exact ran

/-- A record before a checkpoint in front of the first that cannot be read is skipped. -/
theorem skipped (ordered : Ordered .invalid records) {before between : List LogRecord} {marker record : LogRecord}
    (front : readableFront records = before ++ marker :: between) (type : marker.type = .checkpointMarker)
    (inside : record ∈ before) : record.lsn.value ≤ (searchRecords records).2.lsn.value := by
  have latest := searchRecords_latest records
  obtain ⟨behind, split⟩ := split_front front
  have first : record.lsn.value ≤ marker.lsn.value := by
    rw [split] at ordered
    exact (ordered.le_iff (List.mem_append_left _ inside)).mpr (.inl inside)
  refine UInt64.le_trans first ?_
  have member : marker ∈ readableFront records := by
    rw [front]
    simp
  generalize (searchRecords records).2 = search at latest
  cases latest with
  | unchanged without => exact absurd type (without marker member)
  | found before' marker' between' payload reader front' type' read last =>
    obtain ⟨behind', split'⟩ := split_front front'
    rw [split'] at ordered
    rw [front'] at member
    have reached : marker ∈ before' ∨ marker = marker' := by
      rcases List.mem_append.mp member with early | late
      · exact .inl early
      · rcases List.mem_cons.mp late with same | later
        · exact .inr same
        · exact absurd type (last marker later)
    refine (ordered.le_iff ?_).mpr reached
    rcases reached with early | same
    · exact List.mem_append_left _ early
    · rw [same]
      simp

theorem discards_iff {wal : LogManager} (holds : wal.Holds records) : Discards wal records ↔ ¬ Uncovered records := by
  obtain ⟨after, searched, -⟩ := findLastCheckpoint_holds holds
  rw [Discards, searched]
  constructor
  · rintro ⟨failed, record, member, keyed, low⟩ uncovered
    exact absurd low (UInt64.not_le.mpr (uncovered.above holds.ordered (by simp [failed]) record member keyed))
  · intro covered
    simp only [Uncovered, not_forall, not_not] at covered
    obtain ⟨unread, before, marker, between, front, type, record, inside, keyed⟩ := covered
    obtain ⟨behind, split⟩ := split_front front
    have failed : ¬ (searchRecords records).1.ok = true := fun succeeded => unread (searchRecords_ok.mp succeeded).1
    refine ⟨by simpa using failed, record, ?_, keyed, skipped holds.ordered front type inside⟩
    rw [split]
    exact List.mem_append_left _ inside

/-- For every log, whatever its checkpoints are: what recovery returns is the tree of a readable
checkpoint and of all that was logged behind it, or of the whole log, and no record is passed over on
an empty tree, exactly if nothing about a key stands before a checkpoint before an unreadable one. -/
theorem recovery_discards_nothing_iff (wal : LogManager) (records : List LogRecord) (holds : wal.Holds records) (start : BTree ω) :
    ((∀ tree result, (recover wal start).1 = (.ok (), tree, result) → Rebuilt records start tree) ∧ ¬ Discards wal records) ↔
      Uncovered records := by
  rw [discards_iff holds, not_not]
  refine ⟨fun both => both.2, fun uncovered => ⟨fun tree result recovered => ?_, uncovered⟩⟩
  obtain ⟨other, same⟩ := recover_holds holds start
  rw [recovered] at same
  obtain ⟨done, built⟩ := Prod.mk.inj same
  obtain ⟨built, -⟩ := Prod.mk.inj built
  exact recoverRecords_rebuilt holds.ordered uncovered (Prod.ext done.symm built.symm)

def openLog (records : List LogRecord) : LogManager :=
  { initialized := true, file := Reading.cutLog records (logBytes records).length }

theorem openLog_holds {records : List LogRecord} (ordered : Ordered .invalid records) : (openLog records).Holds records := by
  refine ⟨rfl, Reading.ready_cutLog _ _, ⟨_, ?_, laid_frames records⟩, ordered⟩
  change (logBytes records).take (logBytes records).length = _
  rw [List.take_length, logBytes]

def emptyTree : BTree Empty := { space := Space.SpaceManager.withPolicy .firstFit }

def loneTree : BTree Empty := TreeCall.step emptyTree (.insert (.uint32 5) (Format.PageReference.make 9 0 1))

def loneUpdate : LogRecord :=
  { LogRecord.make .pageUpdate 9 0 1 with
    lsn := ⟨1⟩, payload := (Key.uint32 5).serialize ++ (Format.PageReference.make 9 0 1).serialize }

def lonePayload : CheckpointPayload where
  lsn := ⟨2⟩
  treeSize := loneTree.size
  treeHeight := loneTree.height
  btreeSnapshot := loneTree.serialize loneTree.listed

/-- The key is inserted, the tree is checkpointed, and a checkpoint follows that has no payload. -/
def hiddenLog : List LogRecord :=
  [loneUpdate, { LogRecord.make .checkpointMarker kInvalidPageId 0 1 with lsn := ⟨2⟩, payload := lonePayload.serialize },
    { LogRecord.make .checkpointMarker kInvalidPageId 0 1 with lsn := ⟨3⟩ }]

theorem length_loneSnapshot : lonePayload.btreeSnapshot.length = 4120 := by
  have nodes : loneTree.nodeCount = 1 := by decide +kernel
  have length := loneTree.length_serialize loneTree.listed
  rw [nodes] at length
  exact length

theorem length_lonePayload : lonePayload.serialize.length = 4152 := by
  rw [CheckpointPayload.length_serialize (by rw [length_loneSnapshot]; decide), length_loneSnapshot]

theorem ordered_hiddenLog : Ordered .invalid hiddenLog := by
  have fits : ({ LogRecord.make .checkpointMarker kInvalidPageId 0 1 with
      lsn := ⟨2⟩, payload := lonePayload.serialize } : LogRecord).Fits := by
    rw [LogRecord.Fits, length_lonePayload]
    decide
  refine ⟨fun known => absurd known (by decide), ⟨by decide, by decide, by decide⟩,
    (by decide : 45 + loneUpdate.payload.length < 2 ^ 32), ?_⟩
  refine ⟨fun _ => by decide, ⟨by decide, by decide, by decide⟩, fits, ?_⟩
  exact ⟨fun _ => by decide, ⟨by decide, by decide, by decide⟩, (by decide : 45 + 0 < 2 ^ 32), trivial⟩

/-- The log of one insertion is recovered. -/
theorem recovery_discards_nothing_iff_single :
    (∀ tree result, (recover (openLog [loneUpdate]) emptyTree).1 = (.ok (), tree, result) →
        Rebuilt [loneUpdate] emptyTree tree) ∧ ¬ Discards (openLog [loneUpdate]) [loneUpdate] := by
  obtain ⟨first, valid, fits, -⟩ := ordered_hiddenLog
  refine (recovery_discards_nothing_iff (openLog [loneUpdate]) [loneUpdate] (openLog_holds ⟨first, valid, fits, trivial⟩)
    emptyTree).mpr fun unread => absurd (readableFront_eq.mpr ?_) unread
  simp only [List.mem_singleton, forall_eq]
  exact fun type => absurd type (by decide)

/-- Recovery returns OK with an empty tree, although the log has the key and so has the checkpoint. -/
theorem unreadable_checkpoint_hides_the_log :
    (openLog hiddenLog).Holds hiddenLog ∧
      (∃ result, (recover (openLog hiddenLog) emptyTree).1 = (.ok (), emptyTree.clear, result)) ∧
      ¬ Rebuilt hiddenLog emptyTree emptyTree.clear ∧ Discards (openLog hiddenLog) hiddenLog := by
  have holds := openLog_holds ordered_hiddenLog
  have facts : (searchRecords hiddenLog).1.ok = false ∧ (searchRecords hiddenLog).2.lsn = ⟨2⟩ ∧ pending ⟨2⟩ hiddenLog = [] ∧
      (restoreTree lonePayload emptyTree).2.size = 1 ∧ ((applyAll hiddenLog).run emptyTree.clear).2.size = 1 := by
    decide +kernel
  obtain ⟨failed, number, none, restored, replayed⟩ := facts
  have read := (CheckpointPayload.codes_deserialize (by rw [length_loneSnapshot]; decide)
    (by decide : lonePayload.validate.ok = true)).decodes.whole (by rw [length_lonePayload]; decide)
  refine ⟨holds, ?_, ?_, ?_⟩
  · obtain ⟨result, recovered⟩ := recover_holds holds emptyTree
    have built : recoverRecords hiddenLog emptyTree = (.ok (), emptyTree.clear) := by
      simp only [recoverRecords, baseTree, failed, if_false_true, number, none]
      rfl
    exact ⟨result, by rw [recovered, built]⟩
  · rintro (⟨marker, member, payload, reader, type, found, -, ran⟩ | ran)
    · simp only [hiddenLog, List.mem_cons, List.not_mem_nil, or_false] at member
      rcases member with rfl | rfl | rfl
      · exact absurd type (by decide)
      · rw [read] at found
        obtain ⟨rfl, -⟩ := Prod.mk.inj (Except.ok.inj found)
        rw [none, applyAll, run_pure] at ran
        obtain ⟨-, same⟩ := Prod.mk.inj ran
        rw [same] at restored
        exact absurd restored (by decide)
      · have unread : (CheckpointPayload.deserialize.run { view := [] }).isOk = false := by decide
        have other : CheckpointPayload.deserialize.run { view := [] } = .ok (payload, reader) := found
        rw [other] at unread
        cases unread
    · rw [ran] at replayed
      exact absurd replayed (by decide)
  · obtain ⟨after, searched, -⟩ := findLastCheckpoint_holds holds
    have low : loneUpdate.lsn.value ≤ (searchRecords hiddenLog).2.lsn.value := by
      rw [number]
      decide
    simp only [Discards, searched]
    exact ⟨failed, loneUpdate, List.mem_cons_self, .inl rfl, low⟩

end RecoveryManager
end Quartz.Recovery
