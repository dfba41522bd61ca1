import Mathlib.Tactic.Ring
import Quartz.Lib.Runs
import Quartz.Lib.Splice
import Quartz.Serialization.BinaryWriter

/-! The writer against the byte list it is meant to be. Copying comes before growing,
and growing zeroes what it adds, so a write past the last element lands as zeros: the
writer keeps up with the reference on exactly the runs that only append zeros. -/

namespace Quartz.Serialization

/-- What the calls mean: a byte list that grows with zeros, and a cursor. -/
structure Reference where
  bytes : List UInt8 := []
  offset : Nat := 0
  deriving DecidableEq, Repr

namespace Reference

def skip (reference : Reference) (count : Nat) : Reference where
  bytes := reference.bytes ++ List.replicate (reference.offset + count - reference.bytes.length) 0
  offset := reference.offset + count

def call (reference : Reference) : WriterCall → Reference
  | .seek position => { reference with offset := position }
  | .skip count => reference.skip count
  | .align alignment =>
    if alignment = 0 ∨ reference.offset % alignment = 0 then reference
    else reference.skip (alignment - reference.offset % alignment)
  | .writeBytes source =>
    { bytes := Splice.write 0 reference.bytes reference.offset source
      offset := reference.offset + source.length }
  | .overwriteAt position source =>
    { reference with bytes := Splice.write 0 reference.bytes position source }

end Reference

/-- The bytes a write leaves behind when `room` elements remain under the cursor. -/
def landed (room : Nat) (source : List UInt8) : List UInt8 :=
  source.take room ++ List.replicate (source.length - room) 0

@[simp] theorem landed_length (room : Nat) (source : List UInt8) :
    (landed room source).length = source.length := by
  simp only [landed, List.length_append, List.length_take, List.length_replicate]
  omega

theorem landed_eq_iff (room : Nat) (source : List UInt8) :
    landed room source = source ↔ ∀ byte ∈ source.drop room, byte = 0 := by
  have tail : (source.drop room).length = source.length - room := List.length_drop
  rw [landed, ← tail, ← List.eq_replicate_length]
  constructor
  · intro same
    have := congrArg (List.drop (source.take room).length) same
    rw [List.drop_left, List.length_take] at this
    rcases Nat.le_total room source.length with inside | outside
    · rw [Nat.min_eq_left inside] at this
      exact this.symm
    · simp [List.drop_of_length_le outside]
  · intro zeros
    rw [← zeros, List.take_append_drop]

theorem copied_then_zeroed {storage : List UInt8} (source : List UInt8) {size offset : Nat}
    (inside : offset ≤ size) (fits : size ≤ storage.length) :
    (storage.take offset ++ source ++ storage.drop (offset + source.length)).take size ++
        List.replicate (offset + source.length - size) 0 =
      Splice.write 0 (storage.take size) offset (landed (size - offset) source) := by
  have length : (storage.take size).length = size := by simp [fits]
  have front : (storage.take offset).length = offset := by simp; omega
  rw [Splice.write_inside (by omega), landed_length, List.take_take, Nat.min_eq_left inside, List.drop_take,
    List.append_assoc, List.take_append, front, List.take_of_length_le (by omega), List.take_append, landed,
    show offset + source.length - size = source.length - (size - offset) by omega,
    show size - offset - source.length = size - (offset + source.length) by omega]
  rcases Nat.le_total source.length (size - offset) with short | long
  · simp [Nat.sub_eq_zero_of_le short]
  · simp [show size - (offset + source.length) = 0 by omega]

namespace BinaryWriter

/-- Below this limit neither an offset nor a doubled capacity wraps. -/
def lengthLimit : Nat := 2 ^ 62

theorem doubleUntil_reaches (needed fuel newCapacity : Nat) (small : needed < lengthLimit)
    (fits : newCapacity < 2 ^ 63) (reach : needed ≤ newCapacity * 2 ^ fuel) :
    ∃ reached, doubleUntil needed (fuel + 1) newCapacity = some reached ∧ needed ≤ reached ∧ reached < 2 ^ 63 := by
  induction fuel generalizing newCapacity with
  | zero =>
    have enough : ¬ newCapacity < needed := by simpa using reach
    exact ⟨newCapacity, by simp [doubleUntil, enough], by omega, fits⟩
  | succ fuel ih =>
    by_cases short : newCapacity < needed
    · have small' : needed < 2 ^ 62 := small
      have exact : newCapacity * 2 % sizeLimit = newCapacity * 2 := Nat.mod_eq_of_lt (by simp only [sizeLimit]; omega)
      obtain ⟨reached, found, covers, below⟩ := ih (newCapacity * 2) (by omega)
        (by rw [Nat.mul_assoc, ← Nat.pow_succ']; exact reach)
      refine ⟨reached, ?_, covers, below⟩
      rw [doubleUntil, if_pos short, exact, found]
    · exact ⟨newCapacity, by rw [doubleUntil, if_neg short], by omega, fits⟩

theorem ensureCapacity_grows {buffer : Buffer} {needed : Nat} (small : needed < lengthLimit) (fits : buffer.capacity < 2 ^ 63) :
    ∃ grown, ensureCapacity buffer needed = some grown ∧ grown.contents = buffer.contents ∧
      grown.size = buffer.size ∧ needed ≤ grown.capacity ∧ grown.capacity < 2 ^ 63 := by
  unfold ensureCapacity
  split
  next enough => exact ⟨buffer, rfl, rfl, rfl, enough, fits⟩
  next short =>
    have small' : needed < 2 ^ 62 := small
    have exact : buffer.capacity * 2 % sizeLimit = buffer.capacity * 2 :=
      Nat.mod_eq_of_lt (by simp only [sizeLimit]; omega)
    obtain ⟨reached, found, covers, below⟩ := doubleUntil_reaches needed 64
      (max (buffer.capacity * 2) Buffer.kMinCapacity) small
      (by simp only [Buffer.kMinCapacity]; omega)
      (by simp only [Buffer.kMinCapacity]; omega)
    rw [exact, found]
    refine ⟨buffer.reserve reached, rfl, by simp, by simp, ?_, ?_⟩ <;> rw [Buffer.capacity_reserve] <;> omega

theorem advance_facts (writer : BinaryWriter) (count : Nat)
    (small : writer.offset + count < lengthLimit) (room : writer.offset + count ≤ writer.buffer.capacity) :
    (writer.advance count).offset = writer.offset + count ∧
      (writer.advance count).buffer.contents = writer.buffer.contents ++
        List.replicate (writer.offset + count - writer.buffer.size) 0 ∧
      (writer.advance count).buffer.capacity = writer.buffer.capacity := by
  have exact : (writer.offset + count) % sizeLimit = writer.offset + count :=
    Nat.mod_eq_of_lt (by simp only [sizeLimit, lengthLimit] at small ⊢; omega)
  simp only [advance, exact]
  split
  next grows =>
    obtain ⟨contents, capacity⟩ := writer.buffer.resize_grows grows room
    exact ⟨trivial, contents, capacity⟩
  next covered =>
    refine ⟨trivial, ?_, rfl⟩
    simp [Nat.sub_eq_zero_of_le (Nat.not_lt.mp covered)]

/-- The state in which every call is understood: a cursor within the elements and an
allocation far from the limit. -/
structure Ready (writer : BinaryWriter) : Prop where
  inside : writer.offset ≤ writer.buffer.size
  allocation : writer.buffer.capacity < 2 ^ 63

theorem skip_extends {writer : BinaryWriter} {count : Nat} (ready : writer.Ready) (small : writer.offset + count < lengthLimit) :
    ∃ skipped, writer.skip count = some (Status.success, skipped) ∧ skipped.Ready ∧
      skipped.offset = writer.offset + count ∧
      skipped.buffer.contents = writer.buffer.contents ++
        List.replicate (writer.offset + count - writer.buffer.size) 0 := by
  have exact : (writer.offset + count) % sizeLimit = writer.offset + count :=
    Nat.mod_eq_of_lt (by simp only [sizeLimit, lengthLimit] at small ⊢; omega)
  obtain ⟨grown, found, contents, size, room, allocation⟩ := ensureCapacity_grows small ready.allocation
  obtain ⟨offset, bytes, capacity⟩ :=
    advance_facts { writer with buffer := grown } count small room
  refine ⟨_, by rw [skip, exact, found]; rfl, ⟨?_, ?_⟩, offset, ?_⟩
  · have length := congrArg List.length bytes
    simp only [Buffer.contents_length, List.length_append, List.length_replicate] at length
    rw [offset, length]
    simp only
    omega
  · rw [capacity]
    exact allocation
  · rw [bytes, contents, size]

theorem writeBytes_lands {writer : BinaryWriter} {source : List UInt8} (ready : writer.Ready)
    (small : writer.offset + source.length < lengthLimit) :
    ∃ written, writer.writeBytes source = some (Status.success, written) ∧ written.Ready ∧
      written.offset = writer.offset + source.length ∧
      written.buffer.contents = Splice.write 0 writer.buffer.contents writer.offset
        (landed (writer.buffer.size - writer.offset) source) := by
  have inside := ready.inside
  by_cases empty : source.length = 0
  · refine ⟨writer, by rw [writeBytes, if_pos empty], ready, by omega, ?_⟩
    obtain rfl := List.eq_nil_of_length_eq_zero empty
    simp [landed, Splice.write_inside, inside]
  have exact : (writer.offset + source.length) % sizeLimit = writer.offset + source.length :=
    Nat.mod_eq_of_lt (by simp only [sizeLimit, lengthLimit] at small ⊢; omega)
  obtain ⟨grown, found, contents, size, room, allocation⟩ := ensureCapacity_grows small ready.allocation
  obtain ⟨copied, placed, copiedSize, copiedCapacity, copiedContents⟩ := Buffer.copyTo_inside room
  obtain ⟨offset, bytes, capacity⟩ :=
    advance_facts { writer with buffer := copied } source.length small
      (by rw [copiedCapacity]; exact room)
  refine ⟨_, by rw [writeBytes, if_neg empty, exact, found]; simp only [Option.bind_eq_bind, Option.bind_some, placed]; rfl,
    ⟨?_, ?_⟩, offset, ?_⟩
  · have length := congrArg List.length bytes
    simp only [Buffer.contents_length, List.length_append, List.length_replicate] at length
    rw [offset, length]
    simp only
    omega
  · rw [capacity]
    simp only [copiedCapacity, allocation]
  · rw [bytes, copiedContents, copiedSize, size, ← contents, Buffer.contents, size]
    exact copied_then_zeroed source inside (by rw [← size]; exact grown.fits)

theorem overwriteAt_replaces {writer : BinaryWriter} {position : Nat} {source : List UInt8}
    (ready : writer.Ready) (unwrapped : position + source.length < sizeLimit)
    (within : position + source.length ≤ writer.buffer.size) :
    ∃ written, writer.overwriteAt position source = some (Status.success, written) ∧ written.Ready ∧
      written.offset = writer.offset ∧
      written.buffer.contents = Splice.write 0 writer.buffer.contents position source := by
  have fits := writer.buffer.fits
  obtain ⟨copied, placed, size, capacity, contents⟩ :=
    Buffer.copyTo_inside (show position + source.length ≤ writer.buffer.capacity from Nat.le_trans within fits)
  refine ⟨{ writer with buffer := copied }, ?_, ⟨?_, ?_⟩, rfl, ?_⟩
  · rw [overwriteAt, Nat.mod_eq_of_lt unwrapped, if_neg (by omega), placed]
    rfl
  · simp only [size, ready.inside]
  · simp only [capacity, ready.allocation]
  · have lands : landed (writer.buffer.size - position) source = source := by
      rw [landed_eq_iff, List.drop_of_length_le (by omega)]
      simp
    have replaced := copied_then_zeroed source (show position ≤ writer.buffer.size by omega) fits
    rw [lands, Nat.sub_eq_zero_of_le within] at replaced
    rw [List.replicate_zero, List.append_nil] at replaced
    exact contents.trans replaced

theorem overwriteAt_wrapped {writer : BinaryWriter} {position : Nat} {source : List UInt8}
    (ready : writer.Ready) (wrapped : sizeLimit ≤ position + source.length)
    (within : (position + source.length) % sizeLimit ≤ writer.buffer.size) :
    writer.overwriteAt position source = none := by
  have outside : writer.buffer.capacity < position + source.length := by
    have := ready.allocation
    simp only [sizeLimit] at wrapped
    omega
  rw [overwriteAt, if_neg (by omega), Buffer.copyTo_outside outside]
  rfl

end BinaryWriter

structure Session where
  writer : Option BinaryWriter
  reference : Reference := {}

namespace Session

def startingOn (buffer : Buffer) : Session where
  writer := some (BinaryWriter.startingOn buffer)

def call (session : Session) (next : WriterCall) : Session where
  writer := session.writer.bind fun writer => (writer.call next).map Prod.snd
  reference := session.reference.call next

/-- The call succeeds if it returns, and the list it should leave is of a possible length. -/
structure Legal (session : Session) (next : WriterCall) : Prop where
  successful : ((session.writer.bind fun writer => writer.call next).all fun result => result.1.ok) = true
  bounded : (session.reference.call next).bytes.length < BinaryWriter.lengthLimit

def Faithful (session : Session) : Prop :=
  ∃ writer, session.writer = some writer ∧ writer.buffer.contents = session.reference.bytes ∧
    writer.tell = session.reference.offset

/-- Only zeros are written behind the last byte, and no overwritten range wraps. -/
def Spared (session : Session) : WriterCall → Prop
  | .writeBytes source =>
    ∀ byte ∈ source.drop (session.reference.bytes.length - session.reference.offset), byte = 0
  | .overwriteAt position source => position + source.length < sizeLimit
  | _ => True

instance (session : Session) (next : WriterCall) : Decidable (Legal session next) :=
  decidable_of_iff (_ ∧ _) ⟨fun both => ⟨both.1, both.2⟩, fun legal => ⟨legal.successful, legal.bounded⟩⟩

instance (session : Session) : Decidable session.Faithful :=
  match found : session.writer with
  | none => isFalse fun ⟨_, present, _⟩ => by simp [found] at present
  | some writer => decidable_of_iff (writer.buffer.contents = session.reference.bytes ∧
      writer.tell = session.reference.offset) (by simp [Faithful, found])

instance (session : Session) : (next : WriterCall) → Decidable (session.Spared next)
  | .writeBytes source => inferInstanceAs (Decidable (∀ byte ∈ source.drop _, byte = 0))
  | .overwriteAt position source => inferInstanceAs (Decidable (position + source.length < sizeLimit))
  | .seek _ | .skip _ | .align _ => isTrue trivial

structure Mirrors (writer : BinaryWriter) (reference : Reference) : Prop where
  ready : writer.Ready
  contents : writer.buffer.contents = reference.bytes
  offset : writer.offset = reference.offset

theorem Mirrors.size {writer : BinaryWriter} {reference : Reference} (mirrors : Mirrors writer reference) :
    writer.buffer.size = reference.bytes.length := by
  rw [← mirrors.contents, Buffer.contents_length]

theorem skip_mirrors {writer : BinaryWriter} {reference : Reference} (mirrors : Mirrors writer reference)
    (count : Nat) (bounded : (reference.skip count).bytes.length < BinaryWriter.lengthLimit) :
    ∃ skipped, writer.skip count = some (Status.success, skipped) ∧ Mirrors skipped (reference.skip count) := by
  have small : writer.offset + count < BinaryWriter.lengthLimit := by
    simp only [Reference.skip, List.length_append, List.length_replicate] at bounded
    have := mirrors.offset
    omega
  obtain ⟨skipped, found, ready, offset, contents⟩ := BinaryWriter.skip_extends mirrors.ready small
  refine ⟨skipped, found, ready, ?_, ?_⟩
  · rw [contents, mirrors.contents, mirrors.offset, mirrors.size]
    rfl
  · rw [offset, mirrors.offset]
    rfl

theorem writeBytes_mirrors {writer : BinaryWriter} {reference : Reference} (mirrors : Mirrors writer reference)
    (source : List UInt8)
    (bounded : (reference.call (.writeBytes source)).bytes.length < BinaryWriter.lengthLimit) :
    ∃ written, writer.writeBytes source = some (Status.success, written) ∧ written.Ready ∧
      written.offset = reference.offset + source.length ∧
      written.buffer.contents = Splice.write 0 reference.bytes reference.offset
        (landed (reference.bytes.length - reference.offset) source) := by
  have small : writer.offset + source.length < BinaryWriter.lengthLimit := by
    simp only [Reference.call, Splice.length_write] at bounded
    have := mirrors.offset
    omega
  have lands := BinaryWriter.writeBytes_lands mirrors.ready small
  rwa [mirrors.contents, mirrors.offset, mirrors.size] at lands

theorem call_mirrors {writer : BinaryWriter} {reference : Reference} {next : WriterCall}
    (mirrors : Mirrors writer reference) (legal : Legal ⟨some writer, reference⟩ next)
    (spared : Spared ⟨some writer, reference⟩ next) :
    ∃ status after, writer.call next = some (status, after) ∧ Mirrors after (reference.call next) := by
  have bounded := legal.bounded
  have successful : (writer.call next).all (fun result => result.1.ok) = true := legal.successful
  cases next with
  | seek position =>
    have within : ¬ position > writer.buffer.size := by
      intro beyond
      simp [BinaryWriter.call, BinaryWriter.seek, beyond] at successful
    refine ⟨Status.success, { writer with offset := position }, ?_, ⟨?_, mirrors.ready.allocation⟩, mirrors.contents, rfl⟩
    · simp only [BinaryWriter.call, BinaryWriter.seek, within, if_false]
    · exact Nat.not_lt.mp within
  | skip count =>
    obtain ⟨skipped, found, mirrored⟩ := skip_mirrors mirrors count bounded
    exact ⟨_, skipped, found, mirrored⟩
  | align alignment =>
    simp only [BinaryWriter.call, BinaryWriter.align, Reference.call, mirrors.offset] at bounded ⊢
    by_cases none : alignment = 0
    · exact ⟨Status.success, writer, by simp [none], by simpa [none] using mirrors⟩
    by_cases aligned : reference.offset % alignment = 0
    · exact ⟨Status.success, writer, by simp [none, aligned], by simpa [aligned] using mirrors⟩
    · simp only [none, aligned, or_self, if_false] at bounded
      obtain ⟨skipped, found, mirrored⟩ := skip_mirrors mirrors _ bounded
      exact ⟨_, skipped, by simpa [none, aligned] using found, by simpa [none, aligned] using mirrored⟩
  | writeBytes source =>
    obtain ⟨written, found, ready, offset, contents⟩ := writeBytes_mirrors mirrors source bounded
    rw [(landed_eq_iff _ _).mpr spared] at contents
    exact ⟨_, written, found, ready, contents, offset⟩
  | overwriteAt position source =>
    have unwrapped : position + source.length < sizeLimit := spared
    have within : position + source.length ≤ writer.buffer.size := by
      by_contra beyond
      have refused : writer.overwriteAt position source = some
          (Status.invalidArgument "BinaryWriter::overwriteAt: range out of bounds", writer) := by
        rw [BinaryWriter.overwriteAt, Nat.mod_eq_of_lt unwrapped, if_pos (by omega)]
      simp [BinaryWriter.call, refused] at successful
    obtain ⟨written, found, ready, offset, contents⟩ :=
      BinaryWriter.overwriteAt_replaces mirrors.ready unwrapped within
    refine ⟨_, written, found, ready, ?_, offset.trans mirrors.offset⟩
    rw [contents, mirrors.contents]
    rfl

/-- A legal call after which the bytes agree was spared. -/
theorem call_spared {writer after : BinaryWriter} {reference : Reference} {next : WriterCall} {status : Status}
    (mirrors : Mirrors writer reference) (legal : Legal ⟨some writer, reference⟩ next)
    (returned : writer.call next = some (status, after))
    (contents : after.buffer.contents = (reference.call next).bytes) :
    Spared ⟨some writer, reference⟩ next := by
  cases next with
  | seek | skip | align => trivial
  | writeBytes source =>
    obtain ⟨written, found, -, -, landing⟩ := writeBytes_mirrors mirrors source legal.bounded
    obtain ⟨-, rfl⟩ := Prod.mk.inj (Option.some.inj (found.symm.trans returned))
    exact (landed_eq_iff _ _).mp (Splice.write_cancel (landed_length _ _) (landing.symm.trans contents))
  | overwriteAt position source =>
    by_contra wrapped
    have within : (position + source.length) % sizeLimit ≤ writer.buffer.size := by
      by_contra beyond
      have refused : writer.overwriteAt position source = some
          (Status.invalidArgument "BinaryWriter::overwriteAt: range out of bounds", writer) := by
        rw [BinaryWriter.overwriteAt, if_pos (by omega)]
      simpa [BinaryWriter.call, refused] using legal.successful
    have undefined := BinaryWriter.overwriteAt_wrapped mirrors.ready (Nat.not_lt.mp wrapped) within
    simp [BinaryWriter.call, undefined] at returned

theorem writer_faithful_iff_spared (buffer : Buffer) (empty : buffer.size = 0)
    (allocation : buffer.capacity < BinaryWriter.lengthLimit) (calls : List WriterCall)
    (legal : Runs.AtEachStep call Legal (startingOn buffer) calls) :
    Runs.Always call Faithful (startingOn buffer) calls ↔ Runs.AtEachStep call Spared (startingOn buffer) calls := by
  refine Runs.always_iff_atEachStep
    (fun session => ∃ writer, session.writer = some writer ∧ Mirrors writer session.reference)
    ?_ ?_ ?_ ?_ legal
  · rintro session ⟨writer, found, mirrors⟩
    exact ⟨writer, found, mirrors.contents, mirrors.offset⟩
  · rintro ⟨_, reference⟩ next ⟨writer, rfl, mirrors⟩ legal spared
    obtain ⟨status, after, returned, mirrored⟩ := call_mirrors mirrors legal spared
    exact ⟨after, by simp [call, returned], mirrored⟩
  · rintro ⟨_, reference⟩ next ⟨writer, rfl, mirrors⟩ legal ⟨after, found, contents, -⟩
    simp only [call, Option.bind_some, Option.map_eq_some_iff, Prod.exists, exists_eq_right] at found
    obtain ⟨status, returned⟩ := found
    exact call_spared mirrors legal returned contents
  · refine ⟨_, rfl, ⟨Nat.le_refl _, Nat.lt_trans allocation (by decide)⟩, ?_, empty⟩
    exact List.eq_nil_of_length_eq_zero ((Buffer.contents_length _).trans empty)

theorem writer_faithful_iff_spared_mixed :
    let calls := [.writeBytes [0, 0], .seek 0, .writeBytes [7], .skip 3, .align 8, .overwriteAt 1 [5, 6]]
    Runs.AtEachStep call Legal (startingOn {}) calls ∧
      (Runs.Always call Faithful (startingOn {}) calls ↔ Runs.AtEachStep call Spared (startingOn {}) calls) :=
  ⟨by decide +kernel, writer_faithful_iff_spared {} rfl (by decide) _ (by decide +kernel)⟩

/-- One byte written to an empty buffer is read back as zero. -/
theorem appended_byte_is_lost :
    Runs.AtEachStep call Legal (startingOn {}) [.writeBytes [1]] ∧
      ¬ Runs.Always call Faithful (startingOn {}) [.writeBytes [1]] ∧
      (Runs.after call (startingOn {}) [.writeBytes [1]]).writer.map (·.buffer.contents) = some [0] := by
  decide +kernel

end Session
end Quartz.Serialization
