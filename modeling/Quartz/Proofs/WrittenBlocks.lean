import Quartz.Proofs.ByteStore
import Quartz.Proofs.LogFrames

/-! What the writer leaves of an encoder's blocks. Each of them is written behind the elements of a
new buffer, so all that is left of them is their length in zeros; only what is overwritten
afterwards stays. -/

namespace Quartz.Serialization
namespace BinaryWriter

/-- The cursor of a writer that has only appended stands behind its zeros. -/
structure Blank (writer : BinaryWriter) (count : Nat) : Prop extends Ready writer where
  offset : writer.offset = count
  contents : writer.buffer.contents = List.replicate count 0

theorem blank_new : Blank (startingOn .fresh) 0 := ⟨⟨Nat.le_refl 0, by decide⟩, rfl, rfl⟩

theorem Blank.writeBytes {writer : BinaryWriter} {count : Nat} (blank : writer.Blank count) {block : List UInt8}
    (small : count + block.length < lengthLimit) :
    ∃ after, writer.writeBytes block = some (Status.success, after) ∧ after.Blank (count + block.length) := by
  have size : writer.buffer.size = count := by
    have length := congrArg List.length blank.contents
    rwa [Buffer.contents_length, List.length_replicate] at length
  obtain ⟨after, called, ready, offset, contents⟩ :=
    writeBytes_lands blank.toReady (show writer.offset + block.length < lengthLimit by rw [blank.offset]; exact small)
  refine ⟨after, called, ready, by rw [offset, blank.offset], ?_⟩
  have landing : landed 0 block = List.replicate block.length 0 := by simp [landed]
  have behind : writer.offset = writer.buffer.contents.length := by rw [Buffer.contents_length, size, blank.offset]
  rw [contents, size, blank.offset, Nat.sub_self, landing, ← blank.offset, behind, Splice.write_at_end, blank.contents,
    List.replicate_append_replicate, List.length_replicate]

theorem Blank.writeBlocks {writer : BinaryWriter} {count : Nat} (blank : writer.Blank count) {blocks : List (List UInt8)}
    (small : count + blocks.flatten.length < lengthLimit) :
    ∃ after, writer.writeBlocks blocks = some (Status.success, after) ∧ after.Blank (count + blocks.flatten.length) := by
  induction blocks generalizing writer count with
  | nil => exact ⟨writer, rfl, blank⟩
  | cons block rest ih =>
    rw [List.flatten_cons, List.length_append, ← Nat.add_assoc] at small
    obtain ⟨between, first, blank⟩ := blank.writeBytes (Nat.lt_of_le_of_lt (Nat.le_add_right _ _) small)
    obtain ⟨after, later, blank⟩ := ih blank small
    refine ⟨after, ?_, by rw [List.flatten_cons, List.length_append, ← Nat.add_assoc]; exact blank⟩
    rw [BinaryWriter.writeBlocks, first]
    exact later

end BinaryWriter

open BinaryWriter

/-- An encoder leaves as many zeros as it has written bytes. -/
theorem written_eq {blocks : List (List UInt8)} (small : blocks.flatten.length < lengthLimit) :
    written blocks = List.replicate blocks.flatten.length 0 := by
  obtain ⟨after, called, blank⟩ := blank_new.writeBlocks (show 0 + blocks.flatten.length < lengthLimit by omega)
  rw [written, called, Option.map_some, Option.getD_some, blank.contents, Nat.zero_add]

end Quartz.Serialization

namespace Quartz.Wal
open Serialization BinaryWriter Bytes

namespace LogRecord

theorem flatten_blocks {record : LogRecord} (fits : record.Fits) : record.blocks.flatten = record.serialize := by
  have payload : (if record.payload.length % 2 ^ 32 > 0 then [record.payload] else []).flatten = record.payload := by
    simp only [Fits] at fits
    split
    · simp
    next none => rw [List.eq_nil_of_length_eq_zero (by omega : record.payload.length = 0), List.flatten_nil]
  rw [blocks, List.flatten_append, payload, serialize]
  simp

end LogRecord

namespace LogWriter

/-- Only the size of a record is left in its frame. -/
theorem writtenFrame_eq {record : LogRecord} (fits : record.Fits) :
    writtenFrame record = encode 4 (45 + record.payload.length) ++ List.replicate (45 + record.payload.length) 0 := by
  have bound : 45 + record.payload.length < 2 ^ 32 := fits
  have length : record.blocks.flatten.length = 45 + record.payload.length := by
    rw [LogRecord.flatten_blocks fits, LogRecord.length_serialize]
  obtain ⟨first, sized, blank⟩ := blank_new.writeBlocks (show 0 + [encode 4 0].flatten.length < lengthLimit by decide)
  obtain ⟨second, recorded, filled⟩ := blank.writeBlocks (show _ + record.blocks.flatten.length < lengthLimit by
    rw [length]
    simp only [List.flatten_cons, List.flatten_nil, List.append_nil, encode_length, lengthLimit]
    omega)
  have start : first.tell = 4 := blank.offset
  have ends : second.tell - first.tell = 45 + record.payload.length := by
    rw [BinaryWriter.tell, filled.offset, length, start]
    exact Nat.add_sub_cancel_left 4 _
  have stored : second.buffer.contents = List.replicate (4 + (45 + record.payload.length)) 0 := by
    rw [filled.contents, length]
    rfl
  have room : 0 + (encode 4 (second.tell - first.tell)).length ≤ second.buffer.size := by
    rw [← Buffer.contents_length, stored, List.length_replicate, encode_length]
    omega
  obtain ⟨third, replaced, -, -, contents⟩ := overwriteAt_replaces filled.toReady
    (show 0 + (encode 4 (second.tell - first.tell)).length < sizeLimit by rw [encode_length]; decide) room
  simp only [writtenFrame, sized, recorded, replaced, Option.bind_eq_bind, Option.bind_some, Option.pure_def, Option.getD_some]
  rw [contents, stored, Splice.write_inside (Nat.zero_le _), ends, encode_length, List.take_zero, List.nil_append, List.drop_replicate]
  congr 2
  omega

theorem length_writtenFrame {record : LogRecord} (fits : record.Fits) :
    (writtenFrame record).length = 49 + record.payload.length := by
  rw [writtenFrame_eq fits, List.length_append, encode_length, List.length_replicate]
  omega

/-- The number that a record is given does not change its length. -/
theorem length_numberedFrame {record : LogRecord} (fits : record.Fits) (lsn : LogSequenceNumber) :
    (writtenFrame { record with lsn := lsn }).length = 49 + record.payload.length :=
  length_writtenFrame (show LogRecord.Fits { record with lsn := lsn } from fits)

end LogWriter

/-- Bytes that are zeros but for sizes of so many bytes, each in front of at least the fixed fields of a record. -/
inductive Hollow (width : Nat) : List UInt8 → Prop where
  | nil : Hollow width []
  | zeros (count : Nat) {bytes : List UInt8} (rest : Hollow width bytes) : Hollow width (List.replicate count 0 ++ bytes)
  | framed {size count : Nat} (small : size < 256 ^ width) (enough : 45 ≤ count) {bytes : List UInt8}
      (rest : Hollow width bytes) : Hollow width (encode 4 size ++ (List.replicate count 0 ++ bytes))

namespace Hollow

variable {width : Nat} {bytes more : List UInt8}

theorem append (first : Hollow width bytes) (second : Hollow width more) : Hollow width (bytes ++ more) := by
  induction first with
  | nil => exact second
  | zeros count rest ih =>
    rw [List.append_assoc]
    exact .zeros count ih
  | framed small enough rest ih =>
    rw [List.append_assoc, List.append_assoc]
    exact .framed small enough ih

theorem replicate (width count : Nat) : Hollow width (List.replicate count 0) := by
  have zeros := Hollow.zeros count (.nil : Hollow width [])
  rwa [List.append_nil] at zeros

theorem frame {record : LogRecord} (fits : record.Fits) (small : 45 + record.payload.length < 256 ^ width) :
    Hollow width (LogWriter.writtenFrame record) := by
  have framed := Hollow.framed small (Nat.le_add_right 45 record.payload.length) .nil
  rwa [List.append_nil, ← LogWriter.writtenFrame_eq fits] at framed

theorem flatMap_frame {records : List LogRecord} (fits : ∀ record ∈ records, record.Fits)
    (small : ∀ record ∈ records, 45 + record.payload.length < 256 ^ width) :
    Hollow width (records.flatMap LogWriter.writtenFrame) := by
  induction records with
  | nil => exact .nil
  | cons record rest ih =>
    rw [List.forall_mem_cons] at fits small
    exact (frame fits.1 small.1).append (ih fits.2 small.2)

private theorem behind_zeros {count place : Nat} (nonzero : (List.replicate count 0 ++ bytes)[place]?.getD 0 ≠ 0) :
    count ≤ place ∧ bytes[place - count]?.getD 0 ≠ 0 := by
  rcases Nat.lt_or_ge place count with inside | outside
  · rw [List.getElem?_append_left (by simpa using inside), List.getElem?_replicate, if_pos inside] at nonzero
    exact absurd rfl nonzero
  · rw [List.getElem?_append_right (by simpa using outside), List.length_replicate] at nonzero
    exact ⟨outside, nonzero⟩

private theorem in_frame {size count place : Nat} (small : size < 256 ^ width)
    (nonzero : (encode 4 size ++ (List.replicate count 0 ++ bytes))[place]?.getD 0 ≠ 0) :
    place < 4 ∧ place < width ∨ 4 + count ≤ place ∧ bytes[place - 4 - count]?.getD 0 ≠ 0 := by
  rcases Nat.lt_or_ge place 4 with inside | outside
  · rw [List.getElem?_append_left (by rw [encode_length]; exact inside)] at nonzero
    refine .inl ⟨inside, ?_⟩
    by_contra high
    exact nonzero (encode_high small (Nat.not_lt.mp high))
  · rw [List.getElem?_append_right (by rw [encode_length]; exact outside), encode_length] at nonzero
    obtain ⟨far, nonzero⟩ := behind_zeros nonzero
    exact .inr ⟨by omega, nonzero⟩

/-- Two bytes that are not zero belong to one size or are a record apart. -/
theorem apart (hollow : Hollow width bytes) {first second : Nat} (before : first < second)
    (left : bytes[first]?.getD 0 ≠ 0) (right : bytes[second]?.getD 0 ≠ 0) :
    second < first + width ∨ first + 46 ≤ second := by
  induction hollow generalizing first second with
  | nil => exact absurd rfl left
  | zeros count rest ih =>
    obtain ⟨afterLeft, left⟩ := behind_zeros left
    obtain ⟨afterRight, right⟩ := behind_zeros right
    have far := ih (by omega) left right
    omega
  | framed small enough rest ih =>
    rcases in_frame small left with low | ⟨afterLeft, left⟩
    · rcases in_frame small right with high | ⟨afterRight, -⟩ <;> omega
    · rcases in_frame small right with low | ⟨afterRight, right⟩
      · omega
      · have far := ih (by omega) left right
        omega

end Hollow
end Quartz.Wal
