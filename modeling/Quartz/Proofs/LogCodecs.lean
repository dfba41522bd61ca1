import Quartz.Proofs.Checkpoints

/-! The encodings of log records and of the checkpoints inside them, as inverses of their decoders. -/

namespace Quartz.Wal
open Serialization Bytes Recovery

namespace LogRecord

theorem codes_deserialize {record : LogRecord} (small : record.payload.length < 2 ^ 32) :
    Codes deserialize record.serialize record := by
  rw [serialize]
  simp only [List.append_assoc]
  refine codes_bind (codes_read (show record.type.byte.toNat < 256 ^ 1 from record.type.byte.toNat_lt)) ?_
  refine codes_bind (codes_read (show record.lsn.value.toNat < 256 ^ 8 from record.lsn.value.toNat_lt)) ?_
  refine codes_bind (codes_read (show record.timestamp.toNat < 256 ^ 8 from record.timestamp.toNat_lt)) ?_
  refine codes_bind (codes_read (show record.pageId.toNat < 256 ^ 4 from record.pageId.toNat_lt)) ?_
  refine codes_bind (codes_read (show record.transactionId.toNat < 256 ^ 8 from record.transactionId.toNat_lt)) ?_
  refine codes_bind (codes_read small) ?_
  refine codes_bind (codes_read (show record.checksum.toNat < 256 ^ 4 from record.checksum.toNat_lt)) ?_
  refine codes_bind (codes_read (show record.reserved0.toNat < 256 ^ 4 from record.reserved0.toNat_lt)) ?_
  refine codes_bind (codes_read (show record.reserved1.toNat < 256 ^ 4 from record.reserved1.toNat_lt)) (codes_rest ?_)
  simp only [UInt8.ofNat_toNat, UInt32.ofNat_toNat, UInt64.ofNat_toNat]
  exact decodes_pure record

end LogRecord

/-- Records have the size they declare and are read back with whatever follows them; so are valid
checkpoints, of which no part will do. -/
theorem log_codecs_are_inverse :
    (∀ record : LogRecord, record.payload.length < 2 ^ 32 →
      record.serialize.length = record.wireSize ∧ Decodes LogRecord.deserialize record.serialize record) ∧
    ∀ payload : CheckpointPayload, payload.validate.ok = true → payload.btreeSnapshot.length < 2 ^ 32 →
      Decodes CheckpointPayload.deserialize payload.serialize payload ∧
        ∀ kept < payload.serialize.length, ∃ status, status.ok = false ∧
          CheckpointPayload.deserialize.run { view := payload.serialize.take kept } = .error status := by
  refine ⟨fun record small => ⟨record.length_serialize, (LogRecord.codes_deserialize small).decodes⟩, fun payload valid small => ?_⟩
  have codes := CheckpointPayload.codes_deserialize small valid
  refine ⟨codes.decodes, fun kept short => ?_⟩
  have bounded : payload.serialize.length < sizeLimit := by
    have limit : sizeLimit = 2 ^ 64 := rfl
    rw [CheckpointPayload.serialize]
    split <;> simp only [List.length_append, encode_length, List.length_nil] <;> omega
  obtain ⟨status, failed⟩ := codes.starves.cut bounded short
  exact ⟨status, CheckpointPayload.candid_deserialize _ _ failed, failed⟩

theorem log_codecs_of_marker :
    let record : LogRecord := { type := .checkpointMarker, lsn := ⟨7⟩, timestamp := 1, payload := [1, 2, 3] }
    let payload : CheckpointPayload := { lsn := ⟨7⟩, treeSize := 2, treeHeight := 1, btreeSnapshot := [9] }
    record.serialize.length = record.wireSize ∧ Decodes LogRecord.deserialize record.serialize record ∧
      Decodes CheckpointPayload.deserialize payload.serialize payload ∧
      ∃ status, status.ok = false ∧
        CheckpointPayload.deserialize.run { view := payload.serialize.take 32 } = .error status := by
  intro record payload
  obtain ⟨size, decodes⟩ := log_codecs_are_inverse.1 record (by decide)
  obtain ⟨read, refused⟩ := log_codecs_are_inverse.2 payload (by decide) (by decide)
  exact ⟨size, decodes, read, refused 32 (by decide)⟩

end Quartz.Wal
