import Quartz.Wal.FaultyLog

/-! Flushes that fail. On a stream that keeps a failure no flush succeeds any more. -/

namespace Quartz.Wal
open Storage

/-- Nothing can be written to the file. -/
def LogFile.Down (log : LogFile) : Prop := log.isOpen = false ∨ log.file.fail = true

def LogManager.Stuck (manager : LogManager) : Prop := manager.initialized = false ∨ manager.file.Down

def FlushFault.Lasting (fault : Option FlushFault) : Prop := ∀ found ∈ fault, found.sticks = true

/-- An operation on an open stream is refused exactly on account of the stream's failure. -/
structure Honest (operation : DatabaseFile → Status × DatabaseFile) : Prop where
  isOpen : ∀ file, (operation file).2.isOpen = file.isOpen
  shut : ∀ file, file.isOpen = false → (operation file).1.ok = false
  failed : ∀ file, file.fail = true → (operation file).1.ok = false ∧ (operation file).2.fail = true
  refused : ∀ file, file.isOpen = true → (operation file).1.ok = false → (operation file).2.fail = true

theorem honest_seek (position : Nat) : Honest (·.seekTo position) := by
  constructor <;> intro file <;> simp only [DatabaseFile.seekTo] <;> grind [Status.ioError, Status.success, Status.ok]

theorem honest_writeBytes (data : List UInt8) : Honest (·.writeBytes data) := by
  constructor <;> intro file <;> simp only [DatabaseFile.writeBytes] <;> grind [Status.ioError, Status.success, Status.ok]

theorem honest_flush : Honest (·.flush) := by
  constructor <;> intro file <;> simp only [DatabaseFile.flush] <;> grind [Status.ioError, Status.success, Status.ok]

section Guarded

variable {operation : DatabaseFile → Status × DatabaseFile} (fault : Option FlushFault) (step : FlushStep)
  (message : String) (file : DatabaseFile)

theorem Honest.guarded_isOpen (honest : Honest operation) : (guarded fault step message file operation).2.isOpen = file.isOpen := by
  unfold guarded
  cases fault with
  | none => exact honest.isOpen file
  | some fault =>
    by_cases struck : fault.step = step
    · simp [struck, DatabaseFile.struck]
    · simpa only [if_neg struck] using honest.isOpen file

theorem Honest.guarded_shut (honest : Honest operation) (shut : file.isOpen = false) :
    (guarded fault step message file operation).1.ok = false := by
  unfold guarded
  cases fault with
  | none => exact honest.shut file shut
  | some fault =>
    by_cases struck : fault.step = step
    · simp [struck]
    · simpa only [if_neg struck] using honest.shut file shut

theorem Honest.guarded_failed (honest : Honest operation) (failed : file.fail = true) :
    (guarded fault step message file operation).1.ok = false ∧
      (guarded fault step message file operation).2.fail = true := by
  unfold guarded
  cases fault with
  | none => exact honest.failed file failed
  | some fault =>
    by_cases struck : fault.step = step
    · simp [struck, DatabaseFile.struck, failed]
    · simpa only [if_neg struck] using honest.failed file failed

theorem Honest.guarded_refused (honest : Honest operation) (lasting : FlushFault.Lasting fault) (live : file.isOpen = true)
    (refused : (guarded fault step message file operation).1.ok = false) :
    (guarded fault step message file operation).2.fail = true := by
  unfold guarded at refused ⊢
  cases fault with
  | none => exact honest.refused file live refused
  | some fault =>
    by_cases struck : fault.step = step
    · simp [struck, DatabaseFile.struck, lasting fault rfl]
    · simp only [if_neg struck] at refused ⊢
      exact honest.refused file live refused

end Guarded

namespace LogFile

variable {log : LogFile} {fault : Option FlushFault} {data : List UInt8}

theorem isOpen_iff : log.isOpen = true ↔ log.attached = true ∧ log.file.isOpen = true := by
  rw [isOpen, Bool.and_eq_true]

theorem alignAppendOffsetUnder_refused (lasting : FlushFault.Lasting fault) (live : log.file.isOpen = true)
    (refused : (log.alignAppendOffsetUnder fault).1.ok = false) : (log.alignAppendOffsetUnder fault).2.file.fail = true := by
  unfold alignAppendOffsetUnder at refused ⊢
  simp only at refused ⊢
  split at refused
  · cases refused
  next unaligned =>
  rw [if_neg unaligned]
  split at refused
  next kept =>
    rw [if_pos kept]
    exact (honest_writeBytes _).guarded_refused _ _ _ _ lasting live refused
  · cases refused

theorem appendUnder_refused (lasting : FlushFault.Lasting fault) (refused : (log.appendUnder fault data).1.ok = false) :
    (log.appendUnder fault data).2.Down := by
  unfold appendUnder at refused ⊢
  split at refused
  next shut =>
    rw [if_pos shut]
    exact .inl (by simpa using shut)
  next live =>
  rw [if_neg live]
  have live := (isOpen_iff.mp (by simpa using live)).2
  have sought := (honest_seek log.appendOffset).guarded_isOpen fault .seek "Failed to seek in file" log.file
  simp only at refused ⊢
  split at refused
  next kept =>
    rw [if_pos kept]
    exact .inr ((honest_seek _).guarded_refused _ _ _ _ lasting live refused)
  next done =>
  rw [if_neg done]
  have written := (honest_writeBytes data).guarded_isOpen fault .write "Failed to write to file"
    (guarded fault .seek "Failed to seek in file" log.file (·.seekTo log.appendOffset)).2
  split at refused
  next kept =>
    rw [if_pos kept]
    exact .inr ((honest_writeBytes _).guarded_refused _ _ _ _ lasting (by rw [sought, live]) refused)
  next done =>
  rw [if_neg done]
  exact .inr (alignAppendOffsetUnder_refused lasting (by simp only; rw [written, sought, live]) refused)

theorem Down.appendUnder (down : log.Down) (fault : Option FlushFault) (data : List UInt8) :
    (log.appendUnder fault data).1.ok = false ∧ (log.appendUnder fault data).2.Down := by
  unfold LogFile.appendUnder
  cases live : log.isOpen with
  | false => exact ⟨rfl, .inl live⟩
  | true =>
    have failed := down.resolve_left (by simp [live])
    obtain ⟨refused, kept⟩ := (honest_seek log.appendOffset).guarded_failed fault .seek "Failed to seek in file" log.file failed
    simp only [if_not_true, refused, Bool.not_false, if_true]
    exact ⟨trivial, .inr kept⟩

theorem flushUnder_refused (lasting : FlushFault.Lasting fault) (refused : (log.flushUnder fault).1.ok = false) :
    (log.flushUnder fault).2.Down := by
  unfold flushUnder at refused ⊢
  split at refused
  next shut =>
    rw [if_pos shut]
    have free : log.attached = false := by simpa using shut
    exact .inl (by simp [isOpen, free])
  next attached =>
  rw [if_neg attached]
  cases live : log.file.isOpen with
  | false =>
    have same := honest_flush.guarded_isOpen fault .sync "Failed to flush file" log.file
    exact .inl (by simp [isOpen, same, live])
  | true => exact .inr (honest_flush.guarded_refused _ _ _ _ lasting live refused)

theorem Down.flushUnder (down : log.Down) (fault : Option FlushFault) :
    (log.flushUnder fault).1.ok = false ∧ (log.flushUnder fault).2.Down := by
  unfold LogFile.flushUnder
  cases attached : log.attached with
  | false => exact ⟨rfl, .inl (by simp [isOpen, attached])⟩
  | true =>
    simp only [if_not_true]
    cases live : log.file.isOpen with
    | false =>
      have same := honest_flush.guarded_isOpen fault .sync "Failed to flush file" log.file
      exact ⟨honest_flush.guarded_shut _ _ _ _ live, .inl (by simp [isOpen, same, live])⟩
    | true =>
      have failed := down.resolve_left (by simp [isOpen, attached, live])
      obtain ⟨refused, kept⟩ := honest_flush.guarded_failed fault .sync "Failed to flush file" log.file failed
      exact ⟨refused, .inr kept⟩

end LogFile

/-- A flush is refused when the buffer is written, or ends with the flush of the file. -/
theorem LogWriter.flushUnder_cases (writer : LogWriter) (fault : Option FlushFault) (file : LogFile) :
    (∃ data, (file.appendUnder fault data).1.ok = false ∧ (writer.flushUnder fault file).1.ok = false ∧
      (writer.flushUnder fault file).2.2 = (file.appendUnder fault data).2) ∨
    ∃ between, (between = file ∨ ∃ data, (file.appendUnder fault data).1.ok = true ∧ between = (file.appendUnder fault data).2) ∧
      (writer.flushUnder fault file).1.ok = (between.flushUnder fault).1.ok ∧
      (writer.flushUnder fault file).2.2 = (between.flushUnder fault).2 := by
  simp only [LogWriter.flushUnder, LogWriter.flushBufferToFileUnder]
  by_cases none : writer.buffer.bytes.isEmpty = true
  · refine .inr ⟨file, .inl rfl, ?_⟩
    cases ended : (file.flushUnder fault).1.ok <;> simp [none, ended]
  · cases ended : (file.appendUnder fault writer.buffer.bytes).1.ok with
    | false => exact .inl ⟨writer.buffer.bytes, ended, by simp [none, ended]⟩
    | true =>
      refine .inr ⟨_, .inr ⟨writer.buffer.bytes, ended, rfl⟩, ?_⟩
      cases last : ((file.appendUnder fault writer.buffer.bytes).2.flushUnder fault).1.ok <;> simp [none, last]

namespace LogManager

variable {manager : LogManager} {fault : Option FlushFault}

theorem flushUnder_refused (lasting : FlushFault.Lasting fault) (refused : (manager.flushUnder fault).1.ok = false) :
    (manager.flushUnder fault).2.Stuck := by
  unfold flushUnder at refused ⊢
  split at refused
  next raw =>
    rw [if_pos raw]
    exact .inl (by simpa using raw)
  next ready =>
  rw [if_neg ready]
  refine .inr ?_
  simp only at refused ⊢
  rcases manager.writer.flushUnder_cases fault manager.file with ⟨data, ended, -, same⟩ | ⟨between, -, status, same⟩
  · rw [same]
    exact LogFile.appendUnder_refused lasting ended
  · rw [same]
    exact LogFile.flushUnder_refused lasting (status ▸ refused)

theorem Stuck.flushUnder (stuck : manager.Stuck) (fault : Option FlushFault) :
    (manager.flushUnder fault).1.ok = false ∧ (manager.flushUnder fault).2.Stuck := by
  unfold LogManager.flushUnder
  cases ready : manager.initialized with
  | false => exact ⟨rfl, .inl ready⟩
  | true =>
    have down := stuck.resolve_left (by simp [ready])
    simp only [if_not_true]
    rcases manager.writer.flushUnder_cases fault manager.file with
      ⟨data, -, refused, same⟩ | ⟨between, before, status, same⟩
    · exact ⟨refused, .inr (by rw [same]; exact (down.appendUnder fault data).2)⟩
    · rcases before with rfl | ⟨data, granted, -⟩
      · obtain ⟨refused, still⟩ := down.flushUnder fault
        exact ⟨status.trans refused, .inr (by rw [same]; exact still)⟩
      · rw [(down.appendUnder fault data).1] at granted
        cases granted

theorem shutdownUnder_refused (lasting : FlushFault.Lasting fault) {closeFails : Bool}
    (refused : (manager.shutdownUnder fault closeFails).1.ok = false) : (manager.shutdownUnder fault closeFails).2.Stuck := by
  unfold shutdownUnder at refused ⊢
  split at refused
  · cases refused
  next ready =>
  rw [if_neg ready]
  simp only at refused ⊢
  split at refused
  next kept =>
    rw [if_pos kept]
    exact flushUnder_refused lasting refused
  next done =>
    rw [if_neg done]
    exact .inl rfl

end LogManager
namespace LogFile

/-- A file that ends at the append offset, with its size in the stream. -/
structure Tight (log : LogFile) : Prop where
  offset : log.appendOffset = log.file.bytes.length
  size : log.file.size = log.file.bytes.length

variable {log : LogFile} {data : List UInt8} (fault : Option FlushFault)

theorem guarded_seek (message : String) (file : DatabaseFile) (position : Nat) :
    (guarded fault .seek message file (·.seekTo position)).2.bytes = file.bytes ∧
      (guarded fault .seek message file (·.seekTo position)).2.size = file.size ∧
      ((guarded fault .seek message file (·.seekTo position)).1.ok = true →
        (guarded fault .seek message file (·.seekTo position)).2.position = position) := by
  have plain : (file.seekTo position).2.bytes = file.bytes ∧ (file.seekTo position).2.size = file.size ∧
      ((file.seekTo position).1.ok = true → (file.seekTo position).2.position = position) := by
    unfold DatabaseFile.seekTo
    split
    · exact ⟨rfl, rfl, fun granted => by cases granted⟩
    split
    · exact ⟨rfl, rfl, fun granted => by cases granted⟩
    · exact ⟨rfl, rfl, fun _ => rfl⟩
  unfold guarded
  cases fault with
  | none => exact plain
  | some fault =>
    simp only
    split
    · exact ⟨rfl, rfl, fun granted => by cases granted⟩
    · exact plain

theorem guarded_write (step : FlushStep) (message : String) {file : DatabaseFile} (some : data ≠ [])
    (position : file.position = file.bytes.length) (size : file.size = file.bytes.length) :
    (guarded fault step message file (·.writeBytes data)).1.ok = false ∧
        (guarded fault step message file (·.writeBytes data)).2.bytes = file.bytes ∧
        (guarded fault step message file (·.writeBytes data)).2.size = file.size ∨
      (guarded fault step message file (·.writeBytes data)).1.ok = true ∧
        (guarded fault step message file (·.writeBytes data)).2.bytes = file.bytes ++ data ∧
        (guarded fault step message file (·.writeBytes data)).2.size = (file.bytes ++ data).length ∧
        (guarded fault step message file (·.writeBytes data)).2.position = (file.bytes ++ data).length := by
  have plain : (file.writeBytes data).1.ok = false ∧ (file.writeBytes data).2.bytes = file.bytes ∧
        (file.writeBytes data).2.size = file.size ∨
      (file.writeBytes data).1.ok = true ∧ (file.writeBytes data).2.bytes = file.bytes ++ data ∧
        (file.writeBytes data).2.size = (file.bytes ++ data).length ∧
        (file.writeBytes data).2.position = (file.bytes ++ data).length := by
    have longer : 0 < data.length := List.length_pos_iff.mpr some
    unfold DatabaseFile.writeBytes
    split
    · exact .inl ⟨rfl, rfl, rfl⟩
    split
    · exact .inl ⟨rfl, rfl, rfl⟩
    · refine .inr ⟨rfl, ?_, ?_, ?_⟩
      · rw [position, Splice.write_at_end]
        simp [DatabaseFile.bytes, some]
      · simp only [position, size, List.length_append]
        exact if_pos (by omega)
      · simp only [position, List.length_append]
  unfold guarded
  cases fault with
  | none => exact plain
  | some fault =>
    simp only
    split
    · exact .inl ⟨rfl, rfl, rfl⟩
    · exact plain

theorem Tight.alignAppendOffsetUnder (tight : log.Tight) (placed : log.file.position = log.appendOffset) :
    (log.alignAppendOffsetUnder fault).2.Tight ∧
      ∃ count, (log.alignAppendOffsetUnder fault).2.file.bytes = log.file.bytes ++ List.replicate count 0 := by
  unfold LogFile.alignAppendOffsetUnder
  simp only
  split
  · exact ⟨tight, 0, by simp⟩
  next unaligned =>
  have padding : List.replicate (kLogRecordAlignment - log.appendOffset % kLogRecordAlignment) (0 : UInt8) ≠ [] := by
    have := Nat.mod_lt log.appendOffset (show 0 < kLogRecordAlignment by decide)
    simp
    omega
  rcases guarded_write fault .padding "Failed to write to file" padding (placed.trans tight.offset) tight.size with
    ⟨refused, bytes, size⟩ | ⟨granted, bytes, size, -⟩
  · rw [if_pos (by rw [refused]; rfl)]
    exact ⟨⟨by rw [bytes]; exact tight.offset, by rw [size, bytes]; exact tight.size⟩, 0, by simpa using bytes⟩
  · rw [if_neg (by rw [granted]; simp)]
    refine ⟨⟨?_, by rw [size, bytes]⟩, _, bytes⟩
    rw [bytes, List.length_append, List.length_replicate, tight.offset]

/-- An append leaves the file alone or writes the data behind it, padded or not. -/
theorem Tight.appendUnder (tight : log.Tight) (some : data ≠ []) :
    (log.appendUnder fault data).2.Tight ∧
      ((log.appendUnder fault data).1.ok = false ∧ (log.appendUnder fault data).2.file.bytes = log.file.bytes ∨
        ∃ count, (log.appendUnder fault data).2.file.bytes = log.file.bytes ++ data ++ List.replicate count 0) := by
  unfold LogFile.appendUnder
  split
  · exact ⟨tight, .inl ⟨rfl, rfl⟩⟩
  obtain ⟨same, size, position⟩ := guarded_seek fault "Failed to seek in file" log.file log.appendOffset
  simp only
  split
  next refused =>
    exact ⟨⟨by rw [same]; exact tight.offset, by rw [size, same]; exact tight.size⟩, .inl ⟨by simpa using refused, same⟩⟩
  next reached =>
  have position := position (by simpa using reached)
  rcases guarded_write fault .write "Failed to write to file" some
      (position.trans (tight.offset.trans (by rw [same]))) (by rw [size, same]; exact tight.size) with
    ⟨refused, bytes, kept⟩ | ⟨granted, bytes, grown, moved⟩
  · rw [if_pos (by rw [refused]; rfl)]
    have bytes := bytes.trans same
    exact ⟨⟨by rw [bytes]; exact tight.offset, by rw [kept, size, bytes]; exact tight.size⟩, .inl ⟨refused, bytes⟩⟩
  · rw [if_neg (by rw [granted]; simp)]
    rw [same] at bytes grown moved
    have ends : log.appendOffset + data.length = (log.file.bytes ++ data).length := by
      rw [tight.offset, List.length_append]
    have written : Tight { log with
        file := (guarded fault .write "Failed to write to file"
          (guarded fault .seek "Failed to seek in file" log.file (·.seekTo log.appendOffset)).2 (·.writeBytes data)).2
        appendOffset := log.appendOffset + data.length } :=
      ⟨by rw [bytes]; exact ends, by rw [bytes]; exact grown⟩
    obtain ⟨tight, count, padded⟩ := written.alignAppendOffsetUnder fault (by rw [ends]; exact moved)
    exact ⟨tight, .inr ⟨count, by rw [padded, bytes]⟩⟩

theorem flushUnder_file (log : LogFile) :
    (log.flushUnder fault).2.file.bytes = log.file.bytes ∧ (log.flushUnder fault).2.file.size = log.file.size ∧
      (log.flushUnder fault).2.appendOffset = log.appendOffset := by
  have plain : log.file.flush.2 = log.file := by
    unfold DatabaseFile.flush
    split
    · rfl
    split <;> rfl
  unfold LogFile.flushUnder guarded
  split
  · exact ⟨rfl, rfl, rfl⟩
  · cases fault with
    | none => exact ⟨congrArg DatabaseFile.bytes plain, congrArg DatabaseFile.size plain, rfl⟩
    | some fault =>
      simp only
      split
      · exact ⟨rfl, rfl, trivial⟩
      · exact ⟨congrArg DatabaseFile.bytes plain, congrArg DatabaseFile.size plain, trivial⟩

theorem Tight.flushUnder (tight : log.Tight) : (log.flushUnder fault).2.Tight := by
  obtain ⟨bytes, size, offset⟩ := log.flushUnder_file fault
  exact ⟨by rw [offset, bytes]; exact tight.offset, by rw [size, bytes]; exact tight.size⟩

end LogFile

/-- What a flush under a fault leaves: the buffer waits, or it lies at the end of the file. Only a flush that is
granted publishes the current number. -/
structure LogWriter.Flushed (writer : LogWriter) (file : LogFile) (status : Status) (after : LogWriter) (moved : LogFile) :
    Prop where
  tight : moved.Tight
  current : after.currentLsn = writer.currentLsn
  next : after.nextLsn = writer.nextLsn
  capacity : after.buffer.capacity = writer.buffer.capacity
  buffer : after.buffer.bytes = writer.buffer.bytes ∨ after.buffer.bytes = []
  bytes : moved.file.bytes = file.file.bytes ∨
    ∃ count, moved.file.bytes = file.file.bytes ++ writer.buffer.bytes ++ List.replicate count 0
  published : status.ok = true → after.lastFlushedLsn = writer.currentLsn

theorem LogWriter.flushUnder_flushed (writer : LogWriter) (fault : Option FlushFault) {file : LogFile} (tight : file.Tight) :
    writer.Flushed file (writer.flushUnder fault file).1 (writer.flushUnder fault file).2.1
      (writer.flushUnder fault file).2.2 := by
  have unpublished : ∀ {status : Status} {lsn : LogSequenceNumber}, (!status.ok) = true → status.ok = true →
      lsn = writer.currentLsn := by
    intro status lsn refused granted
    rw [granted] at refused
    cases refused
  unfold LogWriter.flushUnder flushBufferToFileUnder
  by_cases none : writer.buffer.bytes = []
  · have same := (file.flushUnder_file fault).1
    simp only [none, List.isEmpty_nil, if_true, Status.ok_success, if_not_true]
    split
    next refused => exact ⟨tight.flushUnder fault, rfl, rfl, rfl, .inl rfl, .inl same, unpublished refused⟩
    · exact ⟨tight.flushUnder fault, rfl, rfl, rfl, .inl rfl, .inl same, fun _ => rfl⟩
  · obtain ⟨kept, grown⟩ := tight.appendUnder fault none
    rw [if_neg (by simpa using none)]
    cases written : (file.appendUnder fault writer.buffer.bytes).1.ok with
    | false =>
      simp only [written, Bool.not_false, if_true]
      refine ⟨kept, rfl, rfl, rfl, .inl rfl, grown.imp And.right id, fun granted => ?_⟩
      rw [written] at granted
      cases granted
    | true =>
      have same := ((file.appendUnder fault writer.buffer.bytes).2.flushUnder_file fault).1
      have grown := grown.imp And.right id
      rw [← same] at grown
      simp only [written, if_not_true, Status.ok_success]
      split
      next refused => exact ⟨kept.flushUnder fault, rfl, rfl, rfl, .inr rfl, grown, unpublished refused⟩
      · exact ⟨kept.flushUnder fault, rfl, rfl, rfl, .inr rfl, grown, fun _ => rfl⟩

end Quartz.Wal
