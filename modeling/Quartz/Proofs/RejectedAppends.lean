import Quartz.Proofs.LogNumbers

/-! Appends that are rejected, and what a flush publishes. The counters go on when an append is refused; and the
number of a record that is accepted does not reach the file, so no flush behind an append publishes a number
that a record in the file has. -/

namespace Quartz.Wal
open Storage LogWriter LogFile Bytes

namespace LogWriter

variable {writer : LogWriter} {record : LogRecord} {records : List LogRecord}

instance (writer : LogWriter) (record : LogRecord) : Decidable (writer.Accepts record) :=
  decidable_of_iff _ (appendRecord_sized_iff (length_frame _))

/-- The counters and the buffer are what they were when the append was refused. -/
def Unmoved (writer : LogWriter) (record : LogRecord) : Prop :=
  (writer.appendRecord record writtenFrame).1.ok = false →
    (writer.appendRecord record writtenFrame).2.nextLsn = writer.nextLsn ∧
      (writer.appendRecord record writtenFrame).2.currentLsn = writer.currentLsn ∧
      (writer.appendRecord record writtenFrame).2.buffer = writer.buffer

theorem next_ne (lsn : LogSequenceNumber) : lsn.next ≠ lsn := by
  intro same
  have value : lsn.value + 1 = lsn.value := congrArg LogSequenceNumber.value same
  simp at value

theorem unmoved_iff (fits : record.Fits) : writer.Unmoved record ↔ writer.Accepts record := by
  rw [← appendRecord_sized_iff (length_numberedFrame fits writer.nextLsn)]
  constructor
  · intro unmoved
    by_contra refused
    obtain ⟨next, -, -⟩ := unmoved (Bool.not_eq_true _ ▸ refused)
    rw [appendRecord_nextLsn] at next
    exact next_ne _ next
  · intro accepted refused
    rw [accepted] at refused
    cases refused

structure Counted (writer : LogWriter) (count : Nat) : Prop where
  current : writer.currentLsn = ⟨UInt64.ofNat count⟩
  next : writer.nextLsn = ⟨UInt64.ofNat (count + 1)⟩

theorem Counted.append {count : Nat} (counted : writer.Counted count) (record : LogRecord) :
    (writer.appendRecord record writtenFrame).2.Counted (count + 1) := by
  refine ⟨by rw [appendRecord_currentLsn, counted.next], ?_⟩
  rw [appendRecord_nextLsn, counted.next, LogSequenceNumber.next, UInt64.ofNat_add (count + 1) 1]
  rfl

/-- A batch takes a number for each record up to the first that is refused. -/
theorem Counted.appendBatch {count : Nat} (counted : writer.Counted count) (records : List LogRecord) :
    ∃ more, more ≤ records.length ∧ (more = 0 → records = []) ∧
      (writer.appendBatch records writtenFrame).2.Counted (count + more) := by
  induction records generalizing writer count with
  | nil => exact ⟨0, Nat.le_refl 0, fun _ => rfl, counted⟩
  | cons record rest ih =>
    rw [LogWriter.appendBatch]
    simp only
    split
    · exact ⟨1, by simp, fun none => absurd none Nat.one_ne_zero, counted.append record⟩
    · obtain ⟨more, few, -, later⟩ := ih (counted.append record)
      refine ⟨1 + more, by rw [List.length_cons]; omega, fun none => by omega, ?_⟩
      rw [← Nat.add_assoc]
      exact later

theorem appendRecord_hollow (hollow : Hollow 4 writer.buffer.bytes) (fits : record.Fits) :
    Hollow 4 (writer.appendRecord record writtenFrame).2.buffer.bytes := by
  rcases writer.appendRecord_cases record writtenFrame with ⟨-, same⟩ | ⟨-, -, done⟩
  · rw [same]
    exact hollow
  · rw [done]
    have numbered : LogRecord.Fits { record with lsn := writer.nextLsn } := fits
    exact hollow.append (Hollow.frame numbered numbered)

theorem appendBatch_hollow (hollow : Hollow 4 writer.buffer.bytes) (fits : ∀ record ∈ records, record.Fits) :
    Hollow 4 (writer.appendBatch records writtenFrame).2.buffer.bytes := by
  induction records generalizing writer with
  | nil => exact hollow
  | cons record rest ih =>
    obtain ⟨fit, later⟩ := List.forall_mem_cons.mp fits
    rw [appendBatch]
    simp only
    split
    · exact appendRecord_hollow hollow fit
    · exact ih (appendRecord_hollow hollow fit) later

end LogWriter

def LogFile.created (path : String) : LogFile := (({} : LogFile).create path).2

structure LogFile.EndsWith (log : LogFile) (bytes : List UInt8) : Prop where
  ready : log.Ready
  holds : log.file.bytes = bytes
  offset : log.appendOffset = bytes.length

theorem LogFile.created_ends (path : String) : (created path).EndsWith walHeader := by
  obtain ⟨after, made, ready, bytes, offset⟩ := create_closed (show ({} : LogFile).file.isOpen = false from rfl) path
  rw [created, made]
  exact ⟨ready, by rw [bytes]; rfl, offset⟩

/-- A record with the number stands framed behind the header. -/
def LogFile.Contains (log : LogFile) (lsn : LogSequenceNumber) : Prop :=
  ∃ record : LogRecord, record.lsn = lsn ∧
    ∃ place, WalFileHeader.kSize ≤ place ∧ frame record <+: log.file.bytes.drop place

/-- Between the size of a record and the length of its payload a hollow log has no number. -/
theorem LogFile.not_contains {log : LogFile} {rest : List UInt8} (bytes : log.file.bytes = walHeader ++ rest)
    (hollow : Hollow 4 rest) {lsn : LogSequenceNumber} (valid : lsn.isValid = true) : ¬ log.Contains lsn := by
  rintro ⟨record, rfl, place, behind, tail, placed⟩
  have behind : 16 ≤ place := behind
  obtain ⟨start, rfl⟩ : ∃ start, place = 16 + start := ⟨place - 16, by omega⟩
  rw [bytes, ← List.drop_drop, List.drop_left' length_walHeader] at placed
  have inFrame : ∀ offset width, field rest (start + (4 + offset)) width = field (record.serialize ++ tail) offset width := by
    intro offset width
    rw [← field_drop, ← placed, ← field_drop, drop_frame]
  have numbered : field rest (start + 5) 8 ≠ 0 := by
    rw [inFrame 1 8, LogRecord.field_lsn]
    simpa [LogSequenceNumber.isValid, ← UInt64.toNat_inj] using valid
  obtain ⟨number, low, high, nonzero⟩ := exists_byte_of_field numbered
  by_cases empty : record.payload.length % 256 ^ 4 = 0
  · have size : rest[start]?.getD 0 ≠ 0 := by
      have first : rest[start]? = some (UInt8.ofNat (45 + record.payload.length)) := by
        rw [← Nat.add_zero start, ← List.getElem?_drop, ← placed, frame, LogRecord.length_serialize]
        rfl
      rw [first, Option.getD_some, ne_eq, ← UInt8.toNat_inj, byte_ofNat, UInt8.toNat_zero]
      omega
    have far := hollow.apart (by omega) size nonzero
    omega
  · have length : field rest (start + 33) 4 ≠ 0 := by
      rw [inFrame 29 4]
      simpa (disch := simp) [LogRecord.serialize, field_append_right, field_encode] using empty
    obtain ⟨counted, from33, to37, right⟩ := exists_byte_of_field length
    have far := hollow.apart (by omega) nonzero right
    omega

/-- What is asked of a writer; the file operations of a flush may fail. -/
inductive FaultyCall where
  | append (record : LogRecord)
  | appendBatch (records : List LogRecord)
  | flush (fault : Option FlushFault)
  deriving DecidableEq, Repr

def FaultyCall.records : FaultyCall → List LogRecord
  | .append record => [record]
  | .appendBatch records => records
  | .flush _ => []

structure WriterOnFile where
  writer : LogWriter
  file : LogFile
  asked : Nat := 0
  deriving DecidableEq, Repr

namespace WriterOnFile

def call (state : WriterOnFile) : FaultyCall → WriterOnFile
  | .append record =>
    { state with writer := (state.writer.appendRecord record writtenFrame).2, asked := state.asked + 1 }
  | .appendBatch records =>
    { state with writer := (state.writer.appendBatch records writtenFrame).2, asked := state.asked + records.length }
  | .flush fault =>
    let (_, writer, file) := state.writer.flushUnder fault state.file
    { state with writer := writer, file := file }

/-- The numbers last, and a record has a size that its frame can hold. -/
def Lasting (state : WriterOnFile) (next : FaultyCall) : Prop :=
  state.asked + next.records.length < 2 ^ 64 ∧ ∀ record ∈ next.records, record.Fits

/-- A flush that is granted publishes no number, or that of a record in the file. -/
def Publishes (state : WriterOnFile) : FaultyCall → Prop
  | .flush fault => (state.writer.flushUnder fault state.file).1.ok = true →
      (state.call (.flush fault)).writer.lastFlushedLsn.isValid = true →
        (state.call (.flush fault)).file.Contains (state.call (.flush fault)).writer.lastFlushedLsn
  | _ => True

/-- No flush is granted once a record was offered. -/
def Unasked (state : WriterOnFile) : FaultyCall → Prop
  | .flush fault => (state.writer.flushUnder fault state.file).1.ok = true → state.asked = 0
  | _ => True

instance (state : WriterOnFile) (next : FaultyCall) : Decidable (state.Lasting next) := inferInstanceAs (Decidable (_ ∧ _))

instance (state : WriterOnFile) : (next : FaultyCall) → Decidable (state.Unasked next)
  | .append _ => isTrue trivial
  | .appendBatch _ => isTrue trivial
  | .flush _ => inferInstanceAs (Decidable (_ → _))

/-- The writer has counted what it was offered, and neither its buffer nor its file holds a number. -/
structure Traced (state : WriterOnFile) : Prop where
  counted : ∃ count, count ≤ state.asked ∧ (count = 0 → state.asked = 0) ∧ state.writer.Counted count
  few : state.asked < 2 ^ 64
  buffer : Hollow 4 state.writer.buffer.bytes
  tight : state.file.Tight
  emptied : ∃ rest, state.file.file.bytes = walHeader ++ rest ∧ Hollow 4 rest

variable {state : WriterOnFile}

theorem Traced.offered (traced : state.Traced) {records : List LogRecord} {after : WriterOnFile}
    (called : after.writer = (state.writer.appendBatch records writtenFrame).2) (file : after.file = state.file)
    (asked : after.asked = state.asked + records.length) (few : state.asked + records.length < 2 ^ 64)
    (fits : ∀ record ∈ records, record.Fits) : after.Traced := by
  obtain ⟨count, most, some, counted⟩ := traced.counted
  obtain ⟨more, most', some', counted⟩ := counted.appendBatch records
  refine ⟨⟨count + more, by omega, fun none => ?_, by rw [called]; exact counted⟩, by omega, ?_, ?_, ?_⟩
  · rw [asked, some (by omega), some' (by omega)]
    rfl
  · rw [called]
    exact appendBatch_hollow traced.buffer fits
  · rw [file]
    exact traced.tight
  · rw [file]
    exact traced.emptied

theorem Traced.flush (traced : state.Traced) (fault : Option FlushFault) : (state.call (.flush fault)).Traced := by
  have flushed := state.writer.flushUnder_flushed fault traced.tight
  obtain ⟨count, most, some, counted⟩ := traced.counted
  refine ⟨⟨count, most, some, flushed.current.trans counted.current, flushed.next.trans counted.next⟩, traced.few, ?_, flushed.tight, ?_⟩
  · rcases flushed.buffer with same | empty
    · exact same ▸ traced.buffer
    · exact empty ▸ .nil
  · obtain ⟨rest, bytes, hollow⟩ := traced.emptied
    rcases flushed.bytes with same | ⟨padding, grown⟩
    · exact ⟨rest, same.trans bytes, hollow⟩
    · refine ⟨rest ++ state.writer.buffer.bytes ++ List.replicate padding 0, ?_,
        (hollow.append traced.buffer).append (.replicate 4 padding)⟩
      rw [bytes, List.append_assoc, List.append_assoc] at grown
      rw [List.append_assoc]
      exact grown

theorem Traced.call (traced : state.Traced) {next : FaultyCall} (lasting : state.Lasting next) : (state.call next).Traced := by
  obtain ⟨few, fits⟩ := lasting
  cases next with
  | append record => exact traced.offered (appendBatch_single _ record).symm rfl rfl few fits
  | appendBatch records => exact traced.offered rfl rfl rfl few fits
  | flush fault => exact traced.flush fault

theorem Traced.publishes_iff (traced : state.Traced) (next : FaultyCall) : state.Publishes next ↔ state.Unasked next := by
  cases next with
  | append record => exact Iff.rfl
  | appendBatch records => exact Iff.rfl
  | flush fault =>
    refine forall_congr' fun granted => ?_
    have published : (state.call (.flush fault)).writer.lastFlushedLsn = state.writer.currentLsn :=
      (state.writer.flushUnder_flushed fault traced.tight).published granted
    obtain ⟨count, most, some, counted⟩ := traced.counted
    obtain ⟨rest, bytes, hollow⟩ := (traced.flush fault).emptied
    rw [published, counted.current]
    constructor
    · intro contains
      by_contra asked
      have few := traced.few
      have valid : (⟨UInt64.ofNat count⟩ : LogSequenceNumber).isValid = true := by
        have value : (UInt64.ofNat count).toNat = count := UInt64.toNat_ofNat_of_lt' (show _ < 2 ^ 64 by omega)
        rw [LogSequenceNumber.isValid, bne_iff_ne]
        intro (zero : UInt64.ofNat count = 0)
        rw [zero] at value
        exact asked (some value.symm)
      exact not_contains bytes hollow valid (contains valid)
    · intro none valid
      have zero : count = 0 := by omega
      rw [zero] at valid
      cases valid

theorem traced_new (bufferCapacity : Nat) (path : String) : Traced ⟨.make bufferCapacity, .created path, 0⟩ := by
  obtain ⟨ready, holds, offset⟩ := created_ends path
  exact ⟨⟨0, Nat.le_refl 0, fun _ => rfl, rfl, rfl⟩, Nat.two_pow_pos 64, .nil, ⟨by rw [holds]; exact offset, ready.size⟩,
    [], by rw [holds, List.append_nil], .nil⟩

/-- An append leaves the writer as it was whenever it is refused, exactly when the record is accepted; and in every
run of a new writer on a created log, what each flush publishes is the number of a record in the file exactly when
no flush is granted behind an append. -/
theorem rejected_append_iff (writer : LogWriter) (record : LogRecord) (fits : record.Fits) (bufferCapacity : Nat)
    (path : String) (calls : List FaultyCall)
    (lasting : Runs.AtEachStep call Lasting ⟨.make bufferCapacity, .created path, 0⟩ calls) :
    (writer.Unmoved record ↔ writer.Accepts record) ∧
      (Runs.AtEachStep call Publishes ⟨.make bufferCapacity, .created path, 0⟩ calls ↔
        Runs.AtEachStep call Unasked ⟨.make bufferCapacity, .created path, 0⟩ calls) := by
  have always : Runs.Always call Traced ⟨.make bufferCapacity, .created path, 0⟩ calls :=
    Runs.always_of_invariant (fun _ _ traced lasting => Traced.call traced lasting) (traced_new bufferCapacity path) lasting
  refine ⟨unmoved_iff fits, forall₂_congr fun done next => forall_congr' fun inside => ?_⟩
  exact (always done ((List.prefix_append done _).trans inside)).publishes_iff next

theorem rejected_append_iff_two_flushes :
    let calls : List FaultyCall := [.flush none, .append (History.stamped .pageUpdate []), .flush (some ⟨.sync, true⟩), .flush none]
    let start : WriterOnFile := ⟨.make 64, .created "wal", 0⟩
    Runs.AtEachStep call Lasting start calls ∧ Runs.AtEachStep call Publishes start calls ∧
      (LogWriter.Unmoved (.make 64) (History.stamped .pageUpdate []) ↔
        LogWriter.Accepts (.make 64) (History.stamped .pageUpdate [])) := by
  intro calls start
  have lasting : Runs.AtEachStep call Lasting start calls := by decide +kernel
  obtain ⟨unmoved, publishes⟩ :=
    rejected_append_iff (.make 64) (History.stamped .pageUpdate []) (by decide) 64 "wal" calls lasting
  exact ⟨lasting, publishes.mpr (by decide +kernel), unmoved⟩

/-- A record without a type is refused, and the flush behind it publishes its number. -/
theorem refused_number_is_published :
    let state := Runs.after call ⟨.make 64, .created "wal", 0⟩ [.append {}]
    ((LogWriter.make 64).appendRecord {} writtenFrame).1.ok = false ∧
      ((LogWriter.make 64).appendRecord {} writtenFrame).2.nextLsn = ⟨2⟩ ∧
      (state.writer.flushUnder none state.file).1.ok = true ∧ (state.call (.flush none)).writer.lastFlushedLsn = ⟨1⟩ ∧
      ¬ (state.call (.flush none)).file.Contains ⟨1⟩ := by
  refine ⟨by decide +kernel, by decide +kernel, by decide +kernel, by decide +kernel, ?_⟩
  rintro ⟨record, -, place, behind, placed⟩
  have length := placed.length_le
  rw [show (Runs.after call ⟨.make 64, .created "wal", 0⟩ [.append {}] |>.call (.flush none)).file.file.bytes = walHeader by
    decide +kernel, length_frame, List.length_drop, length_walHeader] at length
  omega

end WriterOnFile
end Quartz.Wal
