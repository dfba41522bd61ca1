import Quartz.Proofs.FaultyFlush
import Quartz.Proofs.LogReads

/-! Logs that are held open. Reading a log never lets go of it, and a shutdown does so only when the
log's stream has not failed. -/

namespace Quartz.Wal
open Storage

theorem readBytes_isOpen (file : DatabaseFile) (destination : List UInt8) :
    (file.readBytes destination).2.2.isOpen = file.isOpen := by
  unfold DatabaseFile.readBytes
  split
  · rfl
  split <;> rfl

structure Sound (file : DatabaseFile) : Prop where
  isOpen : file.isOpen = true
  good : file.fail = false
  clean : file.eof = false

theorem seek_granted {file : DatabaseFile} (isOpen : file.isOpen = true) (good : file.fail = false) (position : Nat) :
    ∃ after, file.seekTo position = (Status.success, after) ∧ Sound after := by
  rw [DatabaseFile.seekTo, if_neg (by simp [isOpen]), if_neg (by simp [good])]
  exact ⟨_, rfl, isOpen, good, rfl⟩

theorem writeBytes_granted {file : DatabaseFile} (sound : Sound file) (source : List UInt8) :
    ∃ after, file.writeBytes source = (Status.success, after) ∧ Sound after := by
  rw [DatabaseFile.writeBytes, if_neg (by simp [sound.isOpen]), if_neg (by simp [sound.good, sound.clean])]
  exact ⟨_, rfl, sound.isOpen, sound.good, sound.clean⟩

structure LogFile.Live (log : LogFile) : Prop where
  attached : log.attached = true
  isOpen : log.file.isOpen = true

namespace LogFile.Live

variable {log : LogFile}

theorem onto (live : log.Live) {file : DatabaseFile} (isOpen : file.isOpen = log.file.isOpen) : { log with file := file }.Live :=
  ⟨live.attached, isOpen.trans live.isOpen⟩

theorem opened (live : log.Live) : log.isOpen = true := by
  rw [LogFile.isOpen, live.attached, live.isOpen, Bool.and_self]

theorem sought (live : log.Live) (offset : Nat) : { log with file := (log.file.seekTo offset).2 }.Live :=
  live.onto ((honest_seek offset).isOpen log.file)

theorem readBytes (live : log.Live) (offset : Nat) (destination : List UInt8) : (log.readBytes offset destination).2.2.Live := by
  unfold LogFile.readBytes
  rw [if_neg (by simp [live.opened])]
  simp only
  split
  · exact live.sought offset
  · exact (live.sought offset).onto (readBytes_isOpen _ _)

theorem writeHeader (live : log.Live) : log.writeHeader.2.Live := by
  unfold LogFile.writeHeader
  simp only
  split
  · exact live.sought 0
  · exact (live.sought 0).onto ((honest_writeBytes _).isOpen _)

theorem reads (live : log.Live) {after : LogFile} (reads : log.ReadsTo after) : after.Live :=
  reads.invariant Live (fun _ offset destination live => live.readBytes offset destination) live

end LogFile.Live

theorem LogWriter.restoreFromFile_granted (writer : LogWriter) (log : LogFile) : (writer.restoreFromFile log).1 = Status.success := by
  unfold LogWriter.restoreFromFile
  simp only
  split <;> rfl

structure LogManager.Running (wal : LogManager) : Prop where
  initialized : wal.initialized = true
  live : wal.file.Live

namespace LogManager

variable {wal : LogManager}

theorem Running.reads (running : wal.Running) {after : LogManager} (reads : wal.ReadsTo after) : after.Running :=
  ⟨reads.initialized.trans running.initialized, running.live.reads reads.file⟩

theorem append_granted {log : LogFile} (live : log.Live) (good : log.file.fail = false) (data : List UInt8) :
    (log.append data).1 = Status.success ∧ (log.append data).2.Live ∧ (log.append data).2.file.fail = false := by
  obtain ⟨sought, seek, ready⟩ := seek_granted live.isOpen good log.appendOffset
  obtain ⟨written, write, still⟩ := writeBytes_granted ready data
  simp only [LogFile.append, live.opened, if_not_true, seek, Status.ok_success, write, LogFile.alignAppendOffset]
  split
  · exact ⟨rfl, ⟨live.attached, still.isOpen⟩, still.good⟩
  · obtain ⟨aligned, padded, kept⟩ := writeBytes_granted still
      (List.replicate (kLogRecordAlignment - (log.appendOffset + data.length) % kLogRecordAlignment) 0)
    rw [padded]
    exact ⟨rfl, ⟨live.attached, kept.isOpen⟩, kept.good⟩

theorem Running.flush_granted (running : wal.Running) (good : wal.file.file.fail = false) :
    wal.flush.1 = Status.success ∧ wal.flush.2.Running := by
  have flushed : ∀ log : LogFile, log.Live → log.file.fail = false → log.flush = (Status.success, log) := by
    intro log live good
    rw [LogFile.flush, if_neg (by simp [live.attached]), DatabaseFile.flush, if_neg (by simp [live.isOpen]), if_neg (by simp [good])]
  rw [flush, if_neg (by simp [running.initialized])]
  simp only [LogWriter.flush, LogWriter.flushBufferToFile]
  split
  · simp only [Status.ok_success, if_not_true, flushed _ running.live good]
    exact ⟨trivial, running.initialized, running.live⟩
  · obtain ⟨granted, live, sound⟩ := append_granted running.live good wal.writer.buffer.bytes
    simp only [granted, Status.ok_success, if_not_true, flushed _ live sound]
    exact ⟨trivial, running.initialized, live⟩

def Idle (wal : LogManager) : Prop := wal.initialized = false ∧ wal.file.file.isOpen = false

theorem Running.shutdown_idle_iff (running : wal.Running) : wal.shutdown.2.Idle ↔ wal.file.file.fail = false := by
  rw [shutdown, if_neg (by simp [running.initialized])]
  cases failed : wal.file.file.fail with
  | true =>
    have stuck : wal.Stuck := .inr (.inr failed)
    have refused := (stuck.flushUnder none).1
    rw [flushUnder_none] at refused
    simp only [refused, Bool.not_false, if_true]
    have kept : wal.flush.2.initialized = true := by
      rw [flush, if_neg (by simp [running.initialized])]
      exact running.initialized
    simp [Idle, kept]
  | false =>
    obtain ⟨granted, still⟩ := running.flush_granted failed
    simp only [granted, Status.ok_success, if_not_true, LogFile.close, still.live.attached, DatabaseFile.close, still.live.isOpen]
    simp [Idle]

end LogManager
end Quartz.Wal
