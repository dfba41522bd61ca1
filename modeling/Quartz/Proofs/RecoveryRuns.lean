import Quartz.Proofs.Checkpoints
import Quartz.Proofs.LogicalReplay
import Quartz.Recovery.RecoveryManager

/-! Recovery over a log of whole records, as a function of the records. -/

namespace Quartz.Recovery
open Storage Serialization Btree Wal Fallible

variable {ω : Type} [BTreeWalSink ω]

namespace LogReplayer

def pending (afterLsn : LogSequenceNumber) (records : List LogRecord) : List LogRecord :=
  records.filter fun record => decide (Keyed record ∧ afterLsn.value < record.lsn.value)

variable {afterLsn : LogSequenceNumber} {record : LogRecord} {records : List LogRecord}

theorem replayRecord_run (valid : record.Valid) (tree : BTree ω) (result : RecoveryResult) :
    ∃ after, (replayRecord afterLsn record).run (tree, result) =
      (((applyAll (pending afterLsn [record])).run tree).1, ((applyAll (pending afterLsn [record])).run tree).2, after) := by
  have passed := LogRecord.validateRecord_ok.mpr valid
  have skips : ¬ (Keyed record ∧ afterLsn.value < record.lsn.value) → pending afterLsn [record] = [] := fun other => by
    simp [pending, other]
  simp only [Fallible.run, replayRecord, passed, if_not_true]
  split
  next old =>
    rw [skips fun both => absurd old (UInt64.not_le.mpr both.2)]
    exact ⟨_, rfl⟩
  next new =>
  split
  next type =>
    have other : ¬ Keyed record := by
      rw [Keyed, type]
      decide
    rw [skips fun both => other both.1]
    exact ⟨_, rfl⟩
  next =>
  by_cases keyed : Keyed record
  · have kept : pending afterLsn [record] = [record] := by
      simp [pending, keyed, UInt64.not_le.mp new]
    have single : (applyAll [record] : TreeM ω Unit) = applyRecord record := by
      rw [applyAll]
      exact bind_pure_comp .. |>.trans (id_map _)
    rw [kept, single]
    rcases ended : applyRecord record tree with ⟨failure | _, after⟩ <;> exact ⟨_, rfl⟩
  · have applied := applyRecord_other keyed valid.type tree
    rw [skips fun both => keyed both.1]
    rw [Fallible.run] at applied
    rw [applied]
    exact ⟨_, rfl⟩

theorem replayRecords_run (valid : ∀ record ∈ records, record.Valid) (tree : BTree ω) (result : RecoveryResult) :
    ∃ after, (forM records (replayRecord afterLsn)).run (tree, result) =
      (((applyAll (pending afterLsn records)).run tree).1, ((applyAll (pending afterLsn records)).run tree).2, after) := by
  induction records generalizing tree result with
  | nil => exact ⟨result, rfl⟩
  | cons record rest ih =>
    obtain ⟨first, later⟩ := List.forall_mem_cons.mp valid
    obtain ⟨middle, head⟩ := @replayRecord_run ω _ afterLsn record first tree result
    have split : pending afterLsn (record :: rest) = pending afterLsn [record] ++ pending afterLsn rest :=
      List.filter_append [record] rest
    rw [List.forM_cons, split, applyAll_append]
    rcases ended : (applyAll (pending afterLsn [record])).run tree with ⟨failure | _, changed⟩
    · rw [ended] at head
      exact ⟨middle, by rw [run_bind_error head, run_bind_error ended]⟩
    · rw [ended] at head
      obtain ⟨after, tail⟩ := ih later changed middle
      exact ⟨after, by rw [run_bind_ok head, run_bind_ok ended, tail]⟩

theorem replay_holds {wal : LogManager} (holds : wal.Holds records) (tree : BTree ω) (afterLsn : LogSequenceNumber) :
    ∃ result after, replay wal tree afterLsn =
        ((((applyAll (pending afterLsn records)).run tree).1, ((applyAll (pending afterLsn records)).run tree).2, result), after) ∧
      after.Holds records := by
  have rewinds : wal.rewindReader = (Status.success, wal.rewound) := LogManager.rewindReader_eq holds.initialized
  obtain ⟨after, looped, same⟩ := holds.facing.forRecords_rewound (replayRecord afterLsn) (tree, ({} : RecoveryResult))
  obtain ⟨result, ran⟩ := @replayRecords_run ω _ afterLsn records holds.ordered.valid tree {}
  refine ⟨result, after, ?_, holds.reread same⟩
  simp only [replay, rewinds, Status.ok_success, if_not_true, looped, ran]

theorem applyAll_keyed (valid : ∀ record ∈ records, record.Valid) (tree : BTree ω) :
    (applyAll records).run tree = (applyAll (records.filter fun record => decide (Keyed record))).run tree := by
  induction records generalizing tree with
  | nil => rfl
  | cons record rest ih =>
    obtain ⟨first, later⟩ := List.forall_mem_cons.mp valid
    by_cases keyed : Keyed record
    · rw [List.filter_cons_of_pos (by simpa using keyed), applyAll, applyAll, run_bind, run_bind]
      rcases (applyRecord record).run tree with ⟨failure | _, middle⟩
      · rfl
      · exact ih later middle
    · rw [List.filter_cons_of_neg (by simpa using keyed), applyAll, run_bind_ok (applyRecord_other keyed first.type tree)]
      exact ih later tree

/-- When nothing about a key is numbered up to the one given, all of it is pending. -/
theorem applyAll_pending {lsn : LogSequenceNumber} (valid : ∀ record ∈ records, record.Valid)
    (above : ∀ record ∈ records, Keyed record → lsn.value < record.lsn.value) (tree : BTree ω) :
    (applyAll (pending lsn records)).run tree = (applyAll records).run tree := by
  have same : pending lsn records = records.filter fun record => decide (Keyed record) := by
    refine List.filter_congr fun record member => ?_
    by_cases keyed : Keyed record
    · simp [keyed, above record member keyed]
    · simp [keyed]
  rw [same, ← applyAll_keyed valid]

end LogReplayer

namespace RecoveryManager
open CheckpointManager LogReplayer

def recoverRecords (records : List LogRecord) (tree : BTree ω) : Except Failure Unit × BTree ω :=
  let (status, base) := baseTree (searchRecords records).1 (searchRecords records).2.payload tree
  if !status.ok then (.error (.status status), base)
  else
    match (applyAll (pending (searchRecords records).2.lsn records)).run base with
    | (.error failure, tree) => (.error failure, tree)
    | (.ok _, tree) => (TreeValidator.validate tree, tree)

theorem recover_holds {wal : LogManager} {records : List LogRecord} (holds : wal.Holds records) (tree : BTree ω) :
    ∃ result, (recover wal tree).1 = ((recoverRecords records tree).1, (recoverRecords records tree).2, result) := by
  obtain ⟨found, searched, kept⟩ := findLastCheckpoint_holds holds
  rw [recover, recoverRecords]
  simp only [searched]
  by_cases based : (baseTree (searchRecords records).1 (searchRecords records).2.payload tree).1.ok = true
  case neg => exact ⟨{}, by simp only [based, Bool.not_false, if_true]⟩
  obtain ⟨result, replayed, ran, kept⟩ := replay_holds kept
    (baseTree (searchRecords records).1 (searchRecords records).2.payload tree).2 (searchRecords records).2.lsn
  simp only [based, if_not_true, ran]
  rcases (applyAll (pending (searchRecords records).2.lsn records)).run
    (baseTree (searchRecords records).1 (searchRecords records).2.payload tree).2 with ⟨failure | _, built⟩
  · exact ⟨result, rfl⟩
  · obtain ⟨restored, restores, kept⟩ := kept.restoreWriterState
    have rewinds : restored.rewindReader = (Status.success, restored.rewound) :=
      LogManager.rewindReader_eq kept.initialized
    have valid := kept.rewound.validate
    refine ⟨result, ?_⟩
    simp only [restores, rewinds, RecoveryValidator.validate, valid, Status.ok_success, if_not_true]

end RecoveryManager
end Quartz.Recovery
