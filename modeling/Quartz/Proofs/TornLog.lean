import Quartz.Lib.Runs
import Quartz.Proofs.LogAppending

/-! Reading a log that was cut off. A record whose size is whole is decoded over zeros, so
a cut record passes for a valid one as soon as a byte of its timestamp that is not zero
lies before the cut. -/

namespace Quartz.Wal
open Storage Serialization Bytes LogWriter LogFile

def logBytes (records : List LogRecord) : List UInt8 := walHeader ++ records.flatMap paddedFrame

/-- The offset of the record that follows these. -/
def offsetAfter (before : List LogRecord) : Nat := WalFileHeader.kSize + (before.flatMap paddedFrame).length

theorem drop_logBytes (before rest : List LogRecord) :
    (logBytes (before ++ rest)).drop (offsetAfter before) = rest.flatMap paddedFrame := by
  rw [logBytes, offsetAfter, WalFileHeader.kSize, ← length_walHeader, ← List.length_append, List.flatMap_append,
    ← List.append_assoc, List.drop_left]

theorem offsetAfter_append (before : List LogRecord) (record : LogRecord) :
    offsetAfter (before ++ [record]) = offsetAfter before + padded (49 + record.payload.length) := by
  simp only [offsetAfter, List.flatMap_append, List.flatMap_cons, List.flatMap_nil, List.append_nil, List.length_append,
    length_paddedFrame, Nat.add_assoc]

theorem place_unique {first second rest later : List LogRecord} {record other : LogRecord}
    (same : first ++ record :: rest = second ++ other :: later) (offset : offsetAfter first = offsetAfter second) :
    record = other := by
  have positive : ∀ before : List LogRecord, ∀ next middle, offsetAfter before < offsetAfter (before ++ next :: middle) := by
    intro before next middle
    have := padded_ge (49 + next.payload.length)
    simp only [offsetAfter, List.flatMap_append, List.flatMap_cons, List.length_append, length_paddedFrame]
    omega
  rcases List.append_eq_append_iff.mp same with ⟨middle, rfl, rest⟩ | ⟨middle, rfl, rest⟩
  · cases middle with
    | nil => exact (List.cons.inj rest).1
    | cons next middle => exact absurd offset (Nat.ne_of_lt (positive first next middle))
  · cases middle with
    | nil => exact (List.cons.inj rest).1.symm
    | cons next middle => exact absurd offset (Nat.ne_of_gt (positive second next middle))

theorem drop_take_logBytes (before after : List LogRecord) (record : LogRecord) (limit : Nat) :
    ((logBytes (before ++ record :: after)).take limit).drop (offsetAfter before) =
      (frame record ++ (List.replicate (padded (49 + record.payload.length) - (49 + record.payload.length)) 0 ++
        after.flatMap paddedFrame)).take (limit - offsetAfter before) := by
  rw [List.drop_take, drop_logBytes, List.flatMap_cons, paddedFrame, List.append_assoc]

/-- The cut lies within the record. -/
def Torn (record : LogRecord) (offset limit : Nat) : Prop := offset < limit ∧ limit < offset + (frame record).length

instance (record : LogRecord) (offset limit : Nat) : Decidable (Torn record offset limit) :=
  inferInstanceAs (Decidable (_ ∧ _))

section Cut

variable {record : LogRecord} {kept : Nat}

theorem field_cut_header (torn : kept ≤ 45 + record.payload.length) {start width value : Nat}
    (header : start + width ≤ 45) (whole : field (record.serialize ++ []) start width = value) :
    field (cutBody record kept) start width = value % 256 ^ (kept - start) := by
  rw [List.append_nil] at whole
  rw [field_cutBody header torn, whole]

theorem parse_cut_timestamp (torn : kept ≤ 45 + record.payload.length) :
    (LogRecord.parse (cutBody record kept)).timestamp.toNat = record.timestamp.toNat % 256 ^ (kept - 9) := by
  have small := Nat.lt_of_le_of_lt (Nat.mod_le record.timestamp.toNat (256 ^ (kept - 9))) record.timestamp.toNat_lt
  rw [LogRecord.parse, field_cut_header torn (by omega) (LogRecord.field_timestamp record [])]
  exact UInt64.toNat_ofNat_of_lt' small

theorem parse_cut_front (torn : kept ≤ 45 + record.payload.length) (stamped : 9 ≤ kept) :
    (LogRecord.parse (cutBody record kept)).type = record.type ∧
      (LogRecord.parse (cutBody record kept)).lsn = record.lsn := by
  have type : record.type.byte.toNat % 256 ^ (kept - 0) = record.type.byte.toNat := by
    have small : record.type.byte.toNat < 256 ^ 1 := record.type.byte.toNat_lt
    exact Nat.mod_eq_of_lt (Nat.lt_of_lt_of_le small (Nat.pow_le_pow_right (by decide) (by omega)))
  have lsn : record.lsn.value.toNat % 256 ^ (kept - 1) = record.lsn.value.toNat := by
    have small : record.lsn.value.toNat < 256 ^ 8 := record.lsn.value.toNat_lt
    exact Nat.mod_eq_of_lt (Nat.lt_of_lt_of_le small (Nat.pow_le_pow_right (by decide) (by omega)))
  constructor
  · rw [LogRecord.parse, field_cut_header torn (by omega) (LogRecord.field_type record []), type, UInt8.ofNat_toNat]
  · rw [LogRecord.parse, field_cut_header torn (by omega) (LogRecord.field_lsn record []), lsn, UInt64.ofNat_toNat]

end Cut

inductive ReaderCall where
  | rewind
  | readNext
  | seekLsn (lsn : LogSequenceNumber)
  deriving DecidableEq, Repr

structure Reading where
  reader : LogReader := {}
  log : LogFile
  deriving DecidableEq, Repr

namespace Reading

def call (reading : Reading) : ReaderCall → Reading
  | .rewind => { reading with reader := reading.reader.rewind }
  | .readNext =>
    let (_, reader, log) := reading.reader.readNext reading.log
    ⟨reader, log⟩
  | .seekLsn lsn =>
    let (_, reader, log) := reading.reader.seekLsn reading.log lsn
    ⟨reader, log⟩

/-- A record that is returned is the one written at the reader's offset, and all of it
lies before the cut. -/
def Genuine (records : List LogRecord) (limit : Nat) (reading : Reading) : ReaderCall → Prop
  | .readNext => ∀ record, (reading.reader.readNext reading.log).1 = .ok record →
      ∃ before after, records = before ++ record :: after ∧ reading.reader.offset = offsetAfter before ∧
        offsetAfter before + (frame record).length ≤ limit
  | _ => True

/-- No byte of a cut record's timestamp that lies before the cut differs from zero. -/
def Unstamped (records : List LogRecord) (limit : Nat) : Prop :=
  ∀ before record after, records = before ++ record :: after → Torn record (offsetAfter before) limit →
    record.timestamp.toNat % 256 ^ (limit - offsetAfter before - 13) = 0

/-- The reader stands at a record of the log, or the stream has failed. -/
inductive Walking (records : List LogRecord) (limit : Nat) (reading : Reading) : Prop where
  | broken (broken : reading.log.Broken)
  | standing (before rest : List LogRecord) (split : records = before ++ rest) (ready : reading.log.Ready)
      (bytes : reading.log.file.bytes = (logBytes records).take limit)
      (offset : reading.reader.offset = offsetAfter before) (ordered : Ordered reading.reader.lastLsn rest)

variable {records : List LogRecord} {limit : Nat} {reader : LogReader} {log : LogFile}

theorem readNext_broken (reader : LogReader) (broken : log.Broken) :
    (∃ status, (reader.readNext log).1 = .error status) ∧ (reader.readNext log).2.2.Broken := by
  unfold LogReader.readNext
  split
  · exact ⟨⟨_, rfl⟩, broken⟩
  split
  · exact ⟨⟨_, rfl⟩, broken⟩
  · rw [readRecord_broken broken]
    exact ⟨⟨_, rfl⟩, broken.attached, broken.isOpen, broken.bad⟩

theorem readNext_stays (ready : log.Ready) (stopped : reader.endOfLog = true ∨ log.file.bytes.length ≤ reader.offset) :
    (∃ status, (reader.readNext log).1 = .error status) ∧ (reader.readNext log).2.2 = log ∧
      (reader.readNext log).2.1.offset = reader.offset ∧ (reader.readNext log).2.1.lastLsn = reader.lastLsn := by
  have past : reader.endOfLog = true ∨ reader.offset ≥ log.fileSize := by rwa [ready.fileSize]
  unfold LogReader.readNext
  split
  · exact ⟨⟨_, rfl⟩, rfl, rfl, rfl⟩
  · rw [if_pos (by tauto)]
    exact ⟨⟨_, rfl⟩, rfl, rfl, rfl⟩

theorem readNext_torn {before after : List LogRecord} {record : LogRecord} (ready : log.Ready)
    (going : reader.endOfLog = false) (bytes : log.file.bytes = (logBytes (before ++ record :: after)).take limit)
    (offset : reader.offset = offsetAfter before) (ordered : Ordered reader.lastLsn (record :: after))
    (torn : Torn record (offsetAfter before) limit) :
    (reader.readNext log).2.2.Broken ∧
      ((∃ found, (reader.readNext log).1 = .ok found) ↔
        record.timestamp.toNat % 256 ^ (limit - offsetAfter before - 13) ≠ 0) := by
  obtain ⟨order, valid, fits, -⟩ := ordered
  obtain ⟨start, stop⟩ := torn
  rw [length_frame] at stop
  have placed : log.file.bytes.drop reader.offset = (frame record).take (limit - offsetAfter before) := by
    rw [bytes, offset, drop_take_logBytes, List.take_append_of_le_length (by rw [length_frame]; omega)]
  have length : log.file.bytes.length = limit := by
    have total := congrArg List.length (drop_logBytes before (record :: after))
    have := padded_ge (49 + record.payload.length)
    simp only [List.length_drop, List.flatMap_cons, List.length_append, length_paddedFrame] at total
    rw [bytes, List.length_take]
    omega
  have inside : reader.offset < log.fileSize := by
    rw [ready.fileSize, length, offset]
    exact start
  rcases Nat.lt_or_ge (limit - offsetAfter before) 4 with unsized | sized
  · obtain ⟨status, position, eof, found⟩ := readRecord_unsized ready (show log.file.bytes.length < reader.offset + 4 by omega)
    rw [LogReader.readNext_error going inside found, show limit - offsetAfter before - 13 = 0 by omega]
    refine ⟨⟨ready.attached, ready.isOpen, rfl⟩, ?_⟩
    simp [Nat.mod_one]
  · obtain ⟨position, found⟩ := readRecord_cut ready fits sized (by omega) placed
    have within : limit - offsetAfter before - 4 ≤ 45 + record.payload.length := by omega
    have timestamp := parse_cut_timestamp within
    rw [show limit - offsetAfter before - 4 - 9 = limit - offsetAfter before - 13 by omega] at timestamp
    by_cases stamped : record.timestamp.toNat % 256 ^ (limit - offsetAfter before - 13) = 0
    · have invalid : ¬ (LogRecord.parse (cutBody record (limit - offsetAfter before - 4))).Valid := fun valid =>
        valid.timestamp (UInt64.toNat_inj.mp (timestamp.trans stamped))
      obtain ⟨status, read⟩ := LogReader.readNext_rejects going inside found invalid
      rw [read]
      exact ⟨ready.broken position, by simp [stamped]⟩
    · have late : 9 ≤ limit - offsetAfter before - 4 := by
        by_contra early
        rw [show limit - offsetAfter before - 13 = 0 by omega, Nat.pow_zero, Nat.mod_one] at stamped
        exact stamped rfl
      obtain ⟨type, lsn⟩ := parse_cut_front within late
      have accepted : (LogRecord.parse (cutBody record (limit - offsetAfter before - 4))).Valid := by
        refine ⟨type ▸ valid.type, lsn ▸ valid.lsn, fun zero => stamped ?_⟩
        rw [← timestamp, zero]
        rfl
      rw [LogReader.readNext_accepts going inside found accepted (lsn ▸ order)]
      exact ⟨ready.broken position, by simp [stamped]⟩

structure Returned (records : List LogRecord) (limit : Nat) (reader : LogReader) (log : LogFile)
    (record : LogRecord) (before later : List LogRecord) : Prop where
  split : records = before ++ record :: later
  offset : reader.offset = offsetAfter before
  whole : offsetAfter before + (frame record).length ≤ limit
  ready : (reader.readNext log).2.2.Ready
  bytes : (reader.readNext log).2.2.file.bytes = (logBytes records).take limit
  later : Ordered record.lsn later
  record : record.Valid ∧ record.Fits

theorem readNext_walks (unstamped : Unstamped records limit) (walking : Walking records limit ⟨reader, log⟩) :
    Walking records limit ⟨(reader.readNext log).2.1, (reader.readNext log).2.2⟩ ∧
      ∀ record, (reader.readNext log).1 = .ok record → ∃ before later, Returned records limit reader log record before later := by
  cases walking with
  | broken broken =>
    obtain ⟨⟨status, failed⟩, after⟩ := readNext_broken reader broken
    exact ⟨.broken after, fun record found => by simp [failed] at found⟩
  | standing before rest split ready bytes offset ordered =>
    simp only at ready bytes offset ordered
    by_cases stopped : reader.endOfLog = true ∨ log.file.bytes.length ≤ reader.offset
    · obtain ⟨⟨status, failed⟩, same, sameOffset, sameLsn⟩ := readNext_stays ready stopped
      refine ⟨.standing before rest split ?_ ?_ (sameOffset.trans offset) ?_, fun record found => by simp [failed] at found⟩ <;>
        simp only [same, sameLsn]
      · exact ready
      · exact bytes
      · exact ordered
    rw [not_or, Bool.not_eq_true, Nat.not_le] at stopped
    obtain ⟨going, inside⟩ := stopped
    rw [bytes, List.length_take, offset] at inside
    cases rest with
    | nil =>
      have total := congrArg List.length (drop_logBytes before [])
      simp only [List.length_drop, List.flatMap_nil, List.length_nil] at total
      rw [split] at inside
      omega
    | cons record later =>
      subst split
      by_cases whole : offsetAfter before + (frame record).length ≤ limit
      · obtain ⟨order, valid, fits, after⟩ := ordered
        have placed := drop_take_logBytes before later record limit
        rw [← bytes, ← offset, List.take_append, List.take_of_length_le (by omega)] at placed
        obtain ⟨position, found⟩ := LogReader.readNext_whole ready going fits valid order placed
        have ready' := ready.movedTo position
        rw [found]
        refine ⟨.standing (before ++ [record]) later (by simp) ready' bytes ?_ after, fun other same => ?_⟩
        · rw [offsetAfter_append, ← offset]
        · obtain rfl := Except.ok.inj same
          exact ⟨before, later, rfl, offset, whole, by rw [found]; exact ready', by rw [found]; exact bytes, after, valid, fits⟩
      · have torn : Torn record (offsetAfter before) limit := ⟨by omega, by omega⟩
        obtain ⟨broken, returned⟩ := readNext_torn ready going bytes offset ordered torn
        refine ⟨.broken broken, fun other found => ?_⟩
        exact absurd (unstamped before record later rfl torn) (returned.mp ⟨other, found⟩)

theorem seekFrom_walks (unstamped : Unstamped records limit) (lsn : LogSequenceNumber) (fuel : Nat)
    (walking : Walking records limit ⟨reader, log⟩) :
    Walking records limit ⟨(LogReader.seekFrom lsn fuel reader log).2.1, (LogReader.seekFrom lsn fuel reader log).2.2⟩ := by
  induction fuel generalizing reader log with
  | zero => exact walking
  | succ fuel ih =>
    rw [LogReader.seekFrom]
    split
    · exact walking
    obtain ⟨walks, returned⟩ := readNext_walks unstamped walking
    rcases called : reader.readNext log with ⟨result, after, moved⟩
    rw [called] at walks
    cases result with
    | error status =>
      dsimp only
      split <;> exact walks
    | ok record =>
      dsimp only
      split
      · next target =>
        obtain ⟨before, later, split, offset, whole, ready, bytes, ordered, valid, fits⟩ := returned record (by rw [called])
        rw [called] at ready bytes
        refine .standing before (record :: later) split ready bytes offset ⟨?_, valid, fits, ordered⟩
        subst target
        intro known
        split at known
        next large =>
          simp only [large, if_true]
          rw [gt_iff_lt, UInt64.lt_iff_toNat_lt] at large
          rw [UInt64.lt_iff_toNat_lt]
          rw [UInt64.toNat_sub_of_le _ _ (by rw [UInt64.le_iff_toNat_le]; exact Nat.le_of_lt large)]
          have : (1 : UInt64).toNat = 1 := rfl
          omega
        next small => cases known
      · split
        · exact walks
        · exact ih walks

theorem call_walks (unstamped : Unstamped records limit) (ordered : Ordered .invalid records) {reading : Reading}
    (walking : Walking records limit reading) (next : ReaderCall) : Walking records limit (reading.call next) := by
  have rewound : Walking records limit { reading with reader := reading.reader.rewind } := by
    cases walking with
    | broken broken => exact .broken broken
    | standing before rest split ready bytes offset later => exact .standing [] records rfl ready bytes rfl ordered
  cases next with
  | rewind => exact rewound
  | readNext => exact (readNext_walks unstamped walking).1
  | seekLsn lsn => exact seekFrom_walks unstamped lsn (reading.log.fileSize + 1) rewound

theorem genuine_of_walking (unstamped : Unstamped records limit) {reading : Reading}
    (walking : Walking records limit reading) (next : ReaderCall) : Genuine records limit reading next := by
  cases next with
  | rewind | seekLsn => trivial
  | readNext =>
    intro record found
    obtain ⟨before, later, returned⟩ := (readNext_walks unstamped walking).2 record found
    exact ⟨before, later, returned.split, returned.offset, returned.whole⟩

theorem reads_up_to {rest : List LogRecord} (before done : List LogRecord) (reading : Reading)
    (ready : reading.log.Ready) (bytes : reading.log.file.bytes = (logBytes (done ++ (before ++ rest))).take limit)
    (going : reading.reader.endOfLog = false) (offset : reading.reader.offset = offsetAfter done)
    (ordered : Ordered reading.reader.lastLsn (before ++ rest)) (inside : offsetAfter (done ++ before) ≤ limit) :
    ∃ reached, Runs.after call reading (List.replicate before.length .readNext) = reached ∧ reached.log.Ready ∧
      reached.log.file.bytes = reading.log.file.bytes ∧ reached.reader.endOfLog = false ∧
      reached.reader.offset = offsetAfter (done ++ before) ∧ Ordered reached.reader.lastLsn rest := by
  induction before generalizing done reading with
  | nil => exact ⟨reading, rfl, ready, rfl, going, by simpa using offset, ordered⟩
  | cons record before ih =>
    obtain ⟨order, valid, fits, later⟩ := ordered
    rw [List.append_cons] at inside
    have whole : offsetAfter done + (49 + record.payload.length) ≤ limit := by
      have step := offsetAfter_append done record
      have := padded_ge (49 + record.payload.length)
      have more : offsetAfter (done ++ [record]) ≤ offsetAfter (done ++ [record] ++ before) := by
        simp only [offsetAfter, List.flatMap_append, List.length_append]
        omega
      omega
    have placed := drop_take_logBytes done (before ++ rest) record limit
    rw [← List.cons_append, ← bytes, ← offset, List.take_append, List.take_of_length_le (by rw [length_frame]; omega)] at placed
    obtain ⟨position, found⟩ := LogReader.readNext_whole ready going fits valid order placed
    have stepped : reading.call .readNext = ⟨{ reading.reader with
        lastLsn := record.lsn, offset := reading.reader.offset + padded (49 + record.payload.length) },
        reading.log.movedTo position false⟩ := by
      simp only [call, found]
    obtain ⟨reached, ran, facts⟩ := ih (done ++ [record]) (reading.call .readNext) (by rw [stepped]; exact ready.movedTo position)
      (by rw [stepped]; simpa using bytes) (by rw [stepped]; exact going)
      (by rw [stepped, offsetAfter_append, ← offset]) (by rw [stepped]; exact later) inside
    refine ⟨reached, by rw [List.length_cons, List.replicate_succ, Runs.after_cons, ran], ?_⟩
    rw [List.append_cons]
    rw [stepped, bytes_movedTo] at facts
    exact facts

/-- For every log and every cut: no reader is handed a record that is not whole, in any
sequence of calls, exactly if no cut record is stamped before the cut. -/
theorem reads_genuine_iff_unstamped (records : List LogRecord) (ordered : Ordered .invalid records) (limit : Nat)
    (log : LogFile) (ready : log.Ready) (bytes : log.file.bytes = (logBytes records).take limit) :
    (∀ calls, Runs.AtEachStep call (Genuine records limit) { log := log } calls) ↔ Unstamped records limit := by
  constructor
  · intro genuine before record after split torn
    by_contra stamped
    subst split
    obtain ⟨reached, ran, ready', bytes', going, offset, ordered'⟩ :=
      reads_up_to before [] { log := log } ready bytes rfl rfl ordered (Nat.le_of_lt torn.1)
    rw [bytes, List.nil_append] at *
    obtain ⟨-, returned⟩ := readNext_torn ready' going bytes' offset ordered' torn
    obtain ⟨found, read⟩ := returned.mpr stamped
    have step := genuine (List.replicate (before.length + 1) .readNext) (List.replicate before.length .readNext) .readNext
      (by rw [List.replicate_succ'])
    rw [ran] at step
    obtain ⟨front, back, same, place, whole⟩ := step found read
    obtain rfl := place_unique same (offset.symm.trans place)
    have stop := torn.2
    rw [← place, offset] at whole
    omega
  · intro unstamped calls
    have start : Walking records limit { log := log } := .standing [] records rfl ready bytes rfl ordered
    have always : Runs.Always call (Walking records limit) { log := log } calls :=
      Runs.always_of_invariant (fun _ next walking _ => call_walks unstamped ordered walking next) start
        (Runs.atEachStep_true _ _)
    exact always.atEachStep fun _ next walking => genuine_of_walking unstamped walking next

def cutLog (records : List LogRecord) (limit : Nat) : LogFile where
  file := { contents := some ((logBytes records).take limit), isOpen := true
            size := ((logBytes records).take limit).length }

theorem ready_cutLog (records : List LogRecord) (limit : Nat) : (cutLog records limit).Ready := ⟨rfl, rfl, rfl, rfl⟩

def eightBytes : LogRecord :=
  { LogRecord.make .pageUpdate 8 0 1 with lsn := .initial, payload := [1, 2, 3, 4, 5, 6, 7, 8] }

theorem ordered_eightBytes : Ordered .invalid [eightBytes] :=
  ⟨fun known => absurd known (by decide), ⟨by decide, by decide, by decide⟩, (by decide : 45 + 8 < 2 ^ 32), trivial⟩

theorem reads_genuine_iff_unstamped_in_header :
    Ordered .invalid [eightBytes] ∧ Torn eightBytes (offsetAfter []) 25 ∧
      ((∀ calls, Runs.AtEachStep call (Genuine [eightBytes] 25) { log := cutLog [eightBytes] 25 } calls) ↔ Unstamped [eightBytes] 25) :=
  ⟨ordered_eightBytes, by decide, reads_genuine_iff_unstamped [eightBytes] ordered_eightBytes 25
    (cutLog [eightBytes] 25) (ready_cutLog _ _) rfl⟩

/-- Cut five bytes before its end, the record comes back with zeros in their place. -/
theorem cut_record_is_returned :
    Ordered .invalid [eightBytes] ∧ Torn eightBytes (offsetAfter []) 68 ∧
      (LogReader.readNext {} (cutLog [eightBytes] 68)).1.toOption =
        some { eightBytes with payload := [1, 2, 3, 0, 0, 0, 0, 0] } ∧
      ¬ ∀ calls, Runs.AtEachStep call (Genuine [eightBytes] 68) { log := cutLog [eightBytes] 68 } calls := by
  have read : (LogReader.readNext {} (cutLog [eightBytes] 68)).1.toOption =
      some { eightBytes with payload := [1, 2, 3, 0, 0, 0, 0, 0] } := by decide +kernel
  refine ⟨ordered_eightBytes, by decide, read, fun genuine => ?_⟩
  have step := genuine [.readNext] [] .readNext (List.prefix_refl _)
  cases result : (LogReader.readNext {} (cutLog [eightBytes] 68)).1 with
  | error status => simp [result, Except.toOption] at read
  | ok record =>
    rw [result] at read
    obtain rfl := Option.some.inj read
    obtain ⟨before, after, -, offset, whole⟩ := step _ result
    rw [← offset, length_frame] at whole
    revert whole
    decide

end Reading
end Quartz.Wal
