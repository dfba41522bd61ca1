import Mathlib.Logic.Relation
import Quartz.Recovery.RecoveryManager

/-! What the functions that read a log do to its file: one read of bytes after another. What a read
of bytes keeps, all of them keep. -/

namespace Quartz.Wal
open Storage

namespace LogFile

/-- The second log is the first after some reads. -/
def ReadsTo : LogFile → LogFile → Prop :=
  Relation.ReflTransGen fun log after => ∃ offset destination, after = (log.readBytes offset destination).2.2

theorem ReadsTo.refl (log : LogFile) : log.ReadsTo log := Relation.ReflTransGen.refl

theorem ReadsTo.trans {log middle after : LogFile} (first : log.ReadsTo middle) (second : middle.ReadsTo after) :
    log.ReadsTo after := Relation.ReflTransGen.trans first second

theorem readBytes_reads (log : LogFile) (offset : Nat) (destination : List UInt8) :
    log.ReadsTo (log.readBytes offset destination).2.2 := Relation.ReflTransGen.single ⟨offset, destination, rfl⟩

/-- What holds of every log that has been read once more holds at the end. -/
theorem ReadsTo.invariant {log after : LogFile} (reads : log.ReadsTo after) (good : LogFile → Prop)
    (step : ∀ log offset destination, good log → good (log.readBytes offset destination).2.2) (start : good log) :
    good after := by
  induction reads with
  | refl => exact start
  | tail _ once ih =>
    obtain ⟨offset, destination, rfl⟩ := once
    exact step _ offset destination ih

theorem readRecord_reads (log : LogFile) (offset : Nat) : log.ReadsTo (log.readRecord offset).2 := by
  have size := log.readBytes_reads offset (List.replicate 4 0)
  have body := size.trans (readBytes_reads _ (offset + 4)
    (List.replicate (Bytes.decode (log.readBytes offset (List.replicate 4 0)).2.1) 0))
  unfold readRecord
  split
  · exact .refl log
  simp only
  split
  · exact size
  split
  · exact size
  split
  · exact body
  split <;> exact body

theorem readHeader_reads (log : LogFile) : log.ReadsTo log.readHeader.2.2 := by
  have bytes := log.readBytes_reads 0 (WalFileHeader.serialize {})
  unfold readHeader
  split
  · exact .refl log
  next live =>
  split
  · exact .refl log
  · rw [readBytes, if_neg live] at bytes
    simp only at bytes ⊢
    split at bytes
    next refused => rwa [if_pos refused]
    next sought => rwa [if_neg sought]

theorem validate_reads (log : LogFile) : log.ReadsTo log.validate.2 := by
  have header := log.readHeader_reads
  unfold validate
  split
  · exact .refl log
  simp only
  split
  · exact header
  split
  · exact header
  split <;> exact header

end LogFile

open LogFile

theorem LogWriter.lastLsn_reads (fuel : Nat) (log : LogFile) (offset : Nat) (found : LogSequenceNumber) :
    log.ReadsTo (lastLsn fuel log offset found).2 := by
  induction fuel generalizing log offset found with
  | zero => exact .refl log
  | succ fuel ih =>
    have next := log.readRecord_reads offset
    rw [lastLsn]
    split
    · rcases read : log.readRecord offset with ⟨status | ⟨record, bytesRead⟩, after⟩ <;> rw [read] at next
      · exact next
      · exact next.trans (ih after _ _)
    · exact .refl log

theorem LogWriter.restoreFromFile_reads (writer : LogWriter) (log : LogFile) : log.ReadsTo (writer.restoreFromFile log).2.2 := by
  have scanned := lastLsn_reads log.fileSize log WalFileHeader.kSize .invalid
  unfold restoreFromFile
  simp only
  split <;> exact scanned

theorem LogReader.readNext_reads (reader : LogReader) (log : LogFile) : log.ReadsTo (reader.readNext log).2.2 := by
  have next := log.readRecord_reads reader.offset
  unfold readNext
  split
  · exact .refl log
  split
  · exact .refl log
  rcases read : log.readRecord reader.offset with ⟨status | ⟨record, bytesRead⟩, after⟩ <;> rw [read] at next
  · exact next
  · simp only
    split
    · exact next
    split <;> exact next

namespace LogManager

/-- The second manager is the first after some reads of its log. -/
structure ReadsTo (manager after : LogManager) : Prop where
  initialized : after.initialized = manager.initialized
  file : manager.file.ReadsTo after.file

theorem ReadsTo.refl (manager : LogManager) : manager.ReadsTo manager := ⟨rfl, .refl _⟩

theorem ReadsTo.trans {manager middle after : LogManager} (first : manager.ReadsTo middle) (second : middle.ReadsTo after) :
    manager.ReadsTo after :=
  ⟨second.initialized.trans first.initialized, first.file.trans second.file⟩

theorem rewindReader_reads (manager : LogManager) : manager.ReadsTo manager.rewindReader.2 := by
  unfold rewindReader
  split <;> exact ⟨rfl, .refl _⟩

theorem readNext_reads (manager : LogManager) : manager.ReadsTo manager.readNext.2 := by
  unfold readNext
  split
  · exact .refl manager
  · exact ⟨rfl, manager.reader.readNext_reads manager.file⟩

theorem forRecords_reads {σ ε : Type} (body : LogRecord → Fallible σ ε Unit) (fuel : Nat) (manager : LogManager) (state : σ) :
    manager.ReadsTo (manager.forRecords body fuel state).2 := by
  induction fuel generalizing manager state with
  | zero => exact .refl manager
  | succ fuel ih =>
    have next := manager.readNext_reads
    rw [forRecords]
    rcases read : manager.readNext with ⟨status | record, after⟩ <;> rw [read] at next
    · exact next
    · simp only
      split
      · exact next
      · exact next.trans (ih after _)

theorem restoreWriterState_reads (manager : LogManager) : manager.ReadsTo manager.restoreWriterState.2 := by
  unfold restoreWriterState
  split
  · exact .refl manager
  · exact ⟨rfl, manager.writer.restoreFromFile_reads manager.file⟩

theorem validateFrom_reads (fuel : Nat) (log : LogFile) (offset : Nat) (previous : LogSequenceNumber) :
    log.ReadsTo (validateFrom fuel log offset previous).2 := by
  induction fuel generalizing log offset previous with
  | zero => exact .refl log
  | succ fuel ih =>
    have next := log.readRecord_reads offset
    rw [validateFrom]
    split
    · rcases read : log.readRecord offset with ⟨status | ⟨record, bytesRead⟩, after⟩ <;> rw [read] at next
      · exact next
      · simp only
        split
        · exact next
        split
        · exact next
        · exact next.trans (ih after _ _)
    · exact .refl log

theorem validate_reads (manager : LogManager) : manager.ReadsTo manager.validate.2 := by
  unfold validate
  split
  · exact .refl manager
  have header := manager.file.validate_reads
  simp only
  split
  · exact ⟨rfl, header⟩
  · exact ⟨rfl, header.trans (validateFrom_reads _ _ _ _)⟩

end LogManager
end Quartz.Wal

namespace Quartz.Recovery
open Btree Wal

theorem CheckpointManager.findLastCheckpoint_reads (wal : LogManager) : wal.ReadsTo (findLastCheckpoint wal).2.2 := by
  have scanned := wal.rewindReader_reads.trans
    (LogManager.forRecords_reads examine (wal.rewindReader.2.file.fileSize + 1) wal.rewindReader.2 {})
  unfold findLastCheckpoint
  simp only
  split
  · exact wal.rewindReader_reads
  rcases ended : wal.rewindReader.2.forRecords examine (wal.rewindReader.2.file.fileSize + 1) {} with
    ⟨⟨_ | _, search⟩, after⟩ <;> rw [ended] at scanned
  · exact scanned
  · simp only
    split <;> exact scanned

variable {ω : Type} [BTreeWalSink ω]

theorem LogReplayer.replay_reads (wal : LogManager) (tree : BTree ω) (afterLsn : LogSequenceNumber) :
    wal.ReadsTo (replay wal tree afterLsn).2 := by
  unfold replay
  simp only
  split
  · exact wal.rewindReader_reads
  · exact wal.rewindReader_reads.trans (LogManager.forRecords_reads _ _ _ _)

theorem RecoveryManager.recover_reads (wal : LogManager) (tree : BTree ω) : wal.ReadsTo (recover wal tree).2 := by
  have searched := CheckpointManager.findLastCheckpoint_reads wal
  unfold recover
  rcases found : CheckpointManager.findLastCheckpoint wal with ⟨status, search, middle⟩
  rw [found] at searched
  simp only at searched ⊢
  split
  · exact searched
  rcases baseTree status search.payload tree with ⟨status, tree⟩
  have replayed := searched.trans (LogReplayer.replay_reads middle tree search.lsn)
  simp only
  rcases ended : LogReplayer.replay middle tree search.lsn with ⟨⟨_ | _, tree, result⟩, middle⟩ <;> rw [ended] at replayed
  · exact replayed
  have restored := replayed.trans middle.restoreWriterState_reads
  have rewound := restored.trans middle.restoreWriterState.2.rewindReader_reads
  simp only
  split
  · exact restored
  split
  · exact rewound
  have validated := rewound.trans (LogManager.validate_reads _)
  unfold RecoveryValidator.validate
  simp only
  split <;> exact validated

end Quartz.Recovery
