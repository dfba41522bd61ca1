import Quartz.Storage.DatabaseFile

/-! What the calls on an open stream do while it has not failed. -/

namespace Quartz.Storage

/-- An open stream that has not failed, over these bytes. -/
structure Over (file : DatabaseFile) (bytes : List UInt8) : Prop where
  isOpen : file.isOpen = true
  good : file.fail = false
  holds : file.bytes = bytes
  size : file.size = bytes.length

namespace Over

variable {file : DatabaseFile} {bytes : List UInt8}

theorem seekTo (stream : Over file bytes) (position : Nat) :
    ∃ after, file.seekTo position = (Status.success, after) ∧ Over after bytes ∧
      after.position = position ∧ after.eof = false := by
  refine ⟨{ file with eof := false, position := position }, ?_, ⟨stream.isOpen, stream.good, stream.holds, stream.size⟩, rfl, rfl⟩
  simp [DatabaseFile.seekTo, stream.isOpen, stream.good]

theorem writeBytes (stream : Over file bytes) (clean : file.eof = false) {source : List UInt8} (some : source ≠ []) :
    ∃ after, file.writeBytes source = (Status.success, after) ∧
      Over after (Splice.write 0 bytes file.position source) ∧
      after.position = file.position + source.length ∧ after.eof = false := by
  obtain ⟨isOpen, good, rfl, size⟩ := stream
  refine ⟨{ file with
    contents := .some (Splice.write 0 file.bytes file.position source), position := file.position + source.length
    size := if file.position + source.length > file.size then file.position + source.length else file.size },
    ?_, ⟨isOpen, good, rfl, ?_⟩, rfl, clean⟩
  · simp [DatabaseFile.writeBytes, isOpen, good, clean, some]
  · rw [Splice.length_write, size]
    simp only
    split <;> omega

theorem writeNothing (stream : Over file bytes) (clean : file.eof = false) :
    file.writeBytes [] = (Status.success, { file with contents := some bytes, size := max file.position file.size }) := by
  obtain ⟨isOpen, good, rfl, size⟩ := stream
  have larger : (if file.position > file.size then file.position else file.size) = max file.position file.size := by
    split <;> omega
  simp [DatabaseFile.writeBytes, isOpen, good, clean, larger]

/-- A read of no more than is left moves the stream and changes nothing else. -/
theorem readBytes (stream : Over file bytes) (clean : file.eof = false) {destination : List UInt8}
    (enough : destination.length ≤ bytes.length - file.position) :
    file.readBytes destination = (Status.success, (bytes.drop file.position).take destination.length,
      { file with position := file.position + destination.length }) := by
  obtain ⟨isOpen, good, rfl, size⟩ := stream
  have available : ((file.bytes.drop file.position).take destination.length).length = destination.length := by
    rw [List.length_take, List.length_drop]
    omega
  simp [DatabaseFile.readBytes, isOpen, good, clean, available]

theorem readBytes_short (stream : Over file bytes) (clean : file.eof = false) {destination : List UInt8}
    (short : bytes.length - file.position < destination.length) :
    (file.readBytes destination).1 = Status.success ∧ (file.readBytes destination).2.2.isOpen = true ∧
      (file.readBytes destination).2.2.fail = true := by
  obtain ⟨isOpen, good, rfl, size⟩ := stream
  have available : ((file.bytes.drop file.position).take destination.length).length < destination.length := by
    rw [List.length_take, List.length_drop]
    omega
  rw [DatabaseFile.readBytes, if_neg (by simp [isOpen]), if_neg (by simp [good, clean])]
  exact ⟨rfl, isOpen, decide_eq_true available⟩

end Over

/-- An open stream with neither flag set, whose size is that of the file. -/
structure DatabaseFile.Ready (file : DatabaseFile) : Prop where
  stream : Over file file.bytes
  clean : file.eof = false

theorem DatabaseFile.Ready.of_stream {file : DatabaseFile} {bytes : List UInt8} (stream : Over file bytes)
    (clean : file.eof = false) : file.Ready :=
  ⟨⟨stream.isOpen, stream.good, rfl, by rw [stream.size, stream.holds]⟩, clean⟩

end Quartz.Storage
