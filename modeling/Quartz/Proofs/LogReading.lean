import Quartz.Proofs.LogFrames

/-! Reading a log of whole records. -/

namespace Quartz.Wal
open Storage Serialization Bytes LogWriter LogFile

namespace LogRecord

/-- The checks a record has to pass to be written, its sequence number included. -/
structure Valid (record : LogRecord) : Prop where
  type : isValidRecordType record.type = true
  lsn : record.lsn.isValid = true
  timestamp : record.timestamp ≠ 0

theorem validateRecordHeader_iff {record : LogRecord} :
    (LogValidator.validateRecordHeader record).ok = true ↔ record.Valid := by
  unfold LogValidator.validateRecordHeader
  constructor
  · intro passed
    split at passed
    · cases passed
    split at passed
    · cases passed
    split at passed
    · cases passed
    next type lsn timestamp =>
      exact ⟨by simpa using type, by simpa using lsn, by simpa using timestamp⟩
  · intro valid
    simp [valid.type, valid.lsn, valid.timestamp]

theorem validateRecord_ok {record : LogRecord} : (LogValidator.validateRecord record).ok = true ↔ record.Valid := by
  rw [← validateRecordHeader_iff]
  unfold LogValidator.validateRecord
  cases passed : (LogValidator.validateRecordHeader record).ok <;> simp [passed, LogValidator.validateReservedFields]

end LogRecord

def LogSequenceNumber.Precedes (previous current : LogSequenceNumber) : Prop :=
  previous.isValid = true → previous.value < current.value

theorem validateLsnOrdering_ok {previous current : LogSequenceNumber} :
    (LogValidator.validateLsnOrdering previous current).ok = true ↔
      current.isValid = true ∧ previous.Precedes current := by
  unfold LogValidator.validateLsnOrdering LogSequenceNumber.Precedes
  cases current.isValid <;> cases previous.isValid <;> simp
  split
  next late => simpa using late
  next early => simpa using early

/-- A record on the boundary, with the zeros up to the next one. -/
def paddedFrame (record : LogRecord) : List UInt8 :=
  frame record ++ List.replicate (padded (49 + record.payload.length) - (49 + record.payload.length)) 0

theorem padded_eq (length : Nat) : padded length = length + (8 - length % 8) % 8 := by
  by_cases aligned : length % 8 = 0 <;> simp [padded, kLogRecordAlignment, aligned]
  omega

theorem padded_ge (length : Nat) : length ≤ padded length := by
  rw [padded_eq]
  omega

@[simp] theorem length_paddedFrame (record : LogRecord) :
    (paddedFrame record).length = padded (49 + record.payload.length) := by
  have := padded_ge (49 + record.payload.length)
  simp only [paddedFrame, List.length_append, length_frame, List.length_replicate]
  omega

namespace LogReader

variable {reader : LogReader} {log : LogFile} {record : LogRecord} {rest : List UInt8}

section Steps

variable {moved : LogFile} {size : Nat} (going : reader.endOfLog = false) (inside : reader.offset < log.fileSize)
include going inside

theorem readNext_error {status : Status} (found : log.readRecord reader.offset = (.error status, moved)) :
    reader.readNext log = (.error status, { reader with endOfLog := true }, moved) := by
  rw [readNext, if_neg (by simp [going]), if_neg (Nat.not_le.mpr inside), found]

theorem readNext_accepts (found : log.readRecord reader.offset = (.ok (record, size), moved)) (valid : record.Valid)
    (order : reader.lastLsn.Precedes record.lsn) :
    reader.readNext log =
      (.ok record, { reader with lastLsn := record.lsn, offset := reader.offset + size }, moved) := by
  have passed := LogRecord.validateRecord_ok.mpr valid
  have ordered := validateLsnOrdering_ok.mpr ⟨valid.lsn, order⟩
  rw [readNext, if_neg (by simp [going]), if_neg (Nat.not_le.mpr inside), found]
  simp [passed, ordered]

theorem readNext_rejects (found : log.readRecord reader.offset = (.ok (record, size), moved)) (invalid : ¬ record.Valid) :
    ∃ status, reader.readNext log = (.error status, reader, moved) := by
  have refused : ¬ (LogValidator.validateRecord record).ok = true := fun passed =>
    invalid (LogRecord.validateRecord_ok.mp passed)
  refine ⟨LogValidator.validateRecord record, ?_⟩
  rw [readNext, if_neg (by simp [going]), if_neg (Nat.not_le.mpr inside), found]
  simp [refused]

end Steps

/-- The next record, whole and in order, is returned and passed. -/
theorem readNext_whole (ready : log.Ready) (going : reader.endOfLog = false) (fits : record.Fits) (valid : record.Valid)
    (order : reader.lastLsn.Precedes record.lsn)
    (placed : log.file.bytes.drop reader.offset = frame record ++ rest) :
    ∃ position, reader.readNext log =
      (.ok record, { reader with
        lastLsn := record.lsn, offset := reader.offset + padded (49 + record.payload.length) },
        log.movedTo position false) := by
  obtain ⟨position, found⟩ := readRecord_whole ready fits placed
  have inside : reader.offset < log.fileSize := by
    have length := congrArg List.length placed
    simp only [List.length_drop, List.length_append, length_frame] at length
    rw [ready.fileSize]
    omega
  exact ⟨position, readNext_accepts going inside found valid order⟩

/-- What a successful read has checked. -/
theorem readNext_ok {after : LogReader} {moved : LogFile} (read : reader.readNext log = (.ok record, after, moved)) :
    reader.endOfLog = false ∧ reader.offset < log.fileSize ∧ record.Valid ∧ reader.lastLsn.Precedes record.lsn ∧
      ∃ size, log.readRecord reader.offset = (.ok (record, size), moved) ∧
        after = { reader with lastLsn := record.lsn, offset := reader.offset + size } := by
  unfold readNext at read
  split at read
  · cases read
  split at read
  · cases read
  next going inside =>
  split at read
  · cases read
  next found size file result =>
  dsimp only at read
  split at read
  · cases read
  next valid =>
  split at read
  · cases read
  next ordered =>
  obtain ⟨same, rfl, rfl⟩ := by simpa only [Prod.mk.injEq] using read
  obtain rfl := Except.ok.inj same
  have valid := LogRecord.validateRecord_ok.mp (by simpa using valid)
  have ordered := validateLsnOrdering_ok.mp (by simpa using ordered)
  exact ⟨by simpa using going, by simpa using inside, valid, ordered.2, size, result, rfl⟩

theorem readNext_end (ready : log.Ready) (done : log.file.bytes.length ≤ reader.offset) :
    (reader.readNext log).1 = .error (Status.invalidArgument "LogReader: end of log") ∧
      (reader.readNext log).2.2 = log := by
  have past : reader.offset ≥ log.fileSize := by rw [ready.fileSize]; exact done
  unfold readNext
  split
  · exact ⟨rfl, rfl⟩
  · simp

end LogReader

namespace LogManager

/-- Calls `readNext` until it fails, at most so many times. -/
def readAll : Nat → LogManager → List LogRecord × Option Status × LogManager
  | 0, manager => ([], none, manager)
  | count + 1, manager =>
    match manager.readNext with
    | (.error status, manager) => ([], some status, manager)
    | (.ok record, manager) =>
      let (records, status, manager) := readAll count manager
      (record :: records, status, manager)

theorem readNext_initialized (manager : LogManager) (initialized : manager.initialized = true) :
    manager.readNext = ((manager.reader.readNext manager.file).1,
      { manager with
        reader := (manager.reader.readNext manager.file).2.1
        file := (manager.reader.readNext manager.file).2.2 }) := by
  rw [readNext, if_neg (by simp [initialized])]

def endOfLog : Status := Status.invalidArgument "LogReader: end of log"

end LogManager

/-- Records that may stand in a log behind a sequence number. -/
def Ordered (previous : LogSequenceNumber) : List LogRecord → Prop
  | [] => True
  | record :: rest => previous.Precedes record.lsn ∧ record.Valid ∧ record.Fits ∧ Ordered record.lsn rest

/-- The bytes are these records, each with its padding; that of the last may be cut off. -/
def Laid : List LogRecord → List UInt8 → Prop
  | [], bytes => bytes = []
  | record :: rest, bytes => ∃ tail, bytes = frame record ++ tail ∧
      Laid rest (tail.drop (padded (49 + record.payload.length) - (49 + record.payload.length)))

theorem laid_frames (records : List LogRecord) : Laid records (records.flatMap paddedFrame) := by
  induction records with
  | nil => rfl
  | cons record rest ih =>
    refine ⟨_, by rw [List.flatMap_cons, paddedFrame, List.append_assoc], ?_⟩
    rw [List.drop_left' List.length_replicate]
    exact ih

namespace Laid

variable {records rest : List LogRecord} {record : LogRecord} {bytes : List UInt8} {log : LogFile} {offset : Nat}

theorem length_le (laid : Laid records bytes) : records.length ≤ bytes.length := by
  induction records generalizing bytes with
  | nil => exact Nat.zero_le _
  | cons record rest ih =>
    obtain ⟨tail, rfl, later⟩ := laid
    have shorter := ih later
    simp only [List.length_drop, List.length_cons, List.length_append, length_frame] at shorter ⊢
    omega

theorem done (laid : Laid [] (log.file.bytes.drop offset)) (ready : log.Ready) : log.fileSize ≤ offset := by
  rw [ready.fileSize]
  simpa [Nat.sub_eq_zero_iff_le] using congrArg List.length laid

theorem inside (laid : Laid (record :: rest) (log.file.bytes.drop offset)) (ready : log.Ready) : offset < log.fileSize := by
  obtain ⟨tail, placed, -⟩ := laid
  have length := congrArg List.length placed
  simp only [List.length_drop, List.length_append, length_frame] at length
  rw [ready.fileSize]
  omega

theorem behind (laid : Laid (record :: rest) (bytes.drop offset)) :
    Laid rest (bytes.drop (offset + padded (49 + record.payload.length))) := by
  obtain ⟨tail, placed, later⟩ := laid
  have fits := padded_ge (49 + record.payload.length)
  rwa [← List.drop_drop, placed, List.drop_append, length_frame, List.drop_of_length_le (by rw [length_frame]; exact fits),
    List.nil_append]

/-- The first record is read, and the others are behind it. -/
theorem readRecord (laid : Laid (record :: rest) (log.file.bytes.drop offset)) (ready : log.Ready) (fits : record.Fits) :
    ∃ after, log.readRecord offset = (.ok (record, padded (49 + record.payload.length)), after) ∧ after.Ready ∧
      after.file.bytes = log.file.bytes ∧ after.appendOffset = log.appendOffset ∧
      Laid rest (after.file.bytes.drop (offset + padded (49 + record.payload.length))) := by
  have behind := laid.behind
  obtain ⟨tail, placed, -⟩ := laid
  obtain ⟨position, read⟩ := readRecord_whole ready fits placed
  exact ⟨_, read, ready.movedTo position, rfl, rfl, behind⟩

end Laid

namespace LogManager

/-- The reader stands in front of these records, the last of the log. -/
structure Facing (manager : LogManager) (records : List LogRecord) : Prop where
  initialized : manager.initialized = true
  ready : manager.file.Ready
  going : manager.reader.endOfLog = false
  ordered : Ordered manager.reader.lastLsn records
  laid : Laid records (manager.file.file.bytes.drop manager.reader.offset)

structure Rereads (manager after : LogManager) : Prop where
  initialized : after.initialized = manager.initialized
  ready : after.file.Ready
  bytes : after.file.file.bytes = manager.file.file.bytes
  appendOffset : after.file.appendOffset = manager.file.appendOffset
  writer : after.writer = manager.writer

theorem Rereads.trans {manager middle after : LogManager} (first : manager.Rereads middle) (second : middle.Rereads after) :
    manager.Rereads after where
  initialized := second.initialized.trans first.initialized
  ready := second.ready
  bytes := second.bytes.trans first.bytes
  appendOffset := second.appendOffset.trans first.appendOffset
  writer := second.writer.trans first.writer

variable {manager : LogManager} {record : LogRecord} {records rest : List LogRecord}

theorem Facing.readNext_nil (facing : manager.Facing []) :
    ∃ after, manager.readNext = (.error endOfLog, after) ∧ manager.Rereads after := by
  obtain ⟨result, file⟩ := LogReader.readNext_end facing.ready
    (by rw [← facing.ready.fileSize]; exact facing.laid.done facing.ready)
  refine ⟨{ manager with reader := (manager.reader.readNext manager.file).2.1 }, ?_, ⟨rfl, facing.ready, rfl, rfl, rfl⟩⟩
  rw [manager.readNext_initialized facing.initialized, result, file]
  rfl

theorem Facing.readNext_cons (facing : manager.Facing (record :: rest)) :
    ∃ after, manager.readNext = (.ok record, after) ∧ after.Facing rest ∧ manager.Rereads after := by
  obtain ⟨order, valid, fits, later⟩ := facing.ordered
  obtain ⟨file, found, ready, bytes, offset, behind⟩ := facing.laid.readRecord facing.ready fits
  have read := LogReader.readNext_accepts facing.going (facing.laid.inside facing.ready) found valid order
  refine ⟨{ manager with
      reader := { manager.reader with
        lastLsn := record.lsn, offset := manager.reader.offset + padded (49 + record.payload.length) }
      file := file },
    by rw [manager.readNext_initialized facing.initialized, read], ?_, ⟨rfl, ready, bytes, offset, rfl⟩⟩
  exact ⟨facing.initialized, ready, facing.going, later, behind⟩

theorem Facing.readAll (facing : manager.Facing records) :
    ∃ after, manager.readAll (records.length + 1) = (records, some endOfLog, after) := by
  induction records generalizing manager with
  | nil =>
    obtain ⟨after, read, -⟩ := facing.readNext_nil
    exact ⟨after, by rw [List.length_nil, LogManager.readAll, read]⟩
  | cons record rest ih =>
    obtain ⟨middle, read, next, -⟩ := facing.readNext_cons
    obtain ⟨after, others⟩ := ih next
    exact ⟨after, by rw [List.length_cons, LogManager.readAll, read]; simp only [others]⟩

/-- Over whole records the loop does what its body does to each of them. -/
theorem Facing.forRecords {σ ε : Type} (body : LogRecord → Fallible σ ε Unit) (facing : manager.Facing records) {fuel : Nat}
    (enough : records.length < fuel) (state : σ) :
    ∃ after, manager.forRecords body fuel state = ((forM records body).run state, after) ∧ manager.Rereads after := by
  induction records generalizing manager fuel state with
  | nil =>
    obtain ⟨after, read, same⟩ := facing.readNext_nil
    cases fuel with
    | zero => cases enough
    | succ fuel => exact ⟨after, by rw [LogManager.forRecords, read]; rfl, same⟩
  | cons record rest ih =>
    obtain ⟨middle, read, next, same⟩ := facing.readNext_cons
    cases fuel with
    | zero => cases enough
    | succ fuel =>
      rw [LogManager.forRecords, read, List.forM_cons]
      rcases ended : (body record).run state with ⟨failure | _, changed⟩
      · exact ⟨middle, by rw [Fallible.run_bind_error ended]; simp only [ended], same⟩
      · obtain ⟨after, others, later⟩ := ih next (Nat.lt_of_succ_lt_succ enough) changed
        exact ⟨after, by rw [Fallible.run_bind_ok ended]; simp only [ended, others], same.trans later⟩

def rewound (manager : LogManager) : LogManager := { manager with reader := manager.reader.rewind }

theorem rewindReader_eq (initialized : manager.initialized = true) :
    manager.rewindReader = (Status.success, manager.rewound) := by
  rw [rewindReader, if_neg (by simp [initialized])]
  rfl

/-- From the start of a log of whole records the file's size is enough for all of them. -/
theorem Facing.forRecords_rewound {σ ε : Type} (body : LogRecord → Fallible σ ε Unit) (facing : manager.rewound.Facing records)
    (state : σ) :
    ∃ after, manager.rewound.forRecords body (manager.rewound.file.fileSize + 1) state =
      ((forM records body).run state, after) ∧ manager.Rereads after := by
  have enough : records.length < manager.rewound.file.fileSize + 1 := by
    have frames := facing.laid.length_le
    rw [List.length_drop] at frames
    rw [facing.ready.fileSize]
    omega
  obtain ⟨after, looped, same⟩ := facing.forRecords body enough state
  exact ⟨after, looped, same.initialized, same.ready, same.bytes, same.appendOffset, same.writer⟩

theorem validateFrom_laid {log : LogFile} {offset : Nat} {previous : LogSequenceNumber} {records : List LogRecord}
    (laid : Laid records (log.file.bytes.drop offset)) (ready : log.Ready) (ordered : Ordered previous records) (fuel : Nat) :
    (validateFrom fuel log offset previous).1 = Status.success := by
  induction records generalizing log offset previous fuel with
  | nil =>
    cases fuel with
    | zero => rfl
    | succ fuel => rw [validateFrom, if_neg (Nat.not_lt.mpr (laid.done ready))]
  | cons record rest ih =>
    obtain ⟨order, valid, fits, later⟩ := ordered
    cases fuel with
    | zero => rfl
    | succ fuel =>
      obtain ⟨file, found, ready', -, -, behind⟩ := laid.readRecord ready fits
      rw [validateFrom, if_pos (laid.inside ready), found]
      simp only [LogRecord.validateRecord_ok.mpr valid, validateLsnOrdering_ok.mpr ⟨valid.lsn, order⟩, if_not_true]
      exact ih behind ready' later fuel

end LogManager
end Quartz.Wal
