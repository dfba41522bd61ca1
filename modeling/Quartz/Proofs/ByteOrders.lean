import Quartz.Serialization.Endian

/-! Byte orders. The scratch word is written and read as eight bytes, so a narrow
word sits at its start in memory; what a swap does to it is to move it to the end. -/

namespace Quartz
open Serialization Endian

namespace Order

variable {order native : Order} {width value : Nat} {bytes : List UInt8}

@[simp] theorem bytes_length (order : Order) (width value : Nat) : (order.bytes width value).length = width := by
  cases order with
  | little => exact Bytes.encode_length _ _
  | big => rw [Order.bytes, List.length_reverse, Bytes.encode_length]

theorem bytes_word (order : Order) (bytes : List UInt8) : order.bytes bytes.length (order.word bytes) = bytes := by
  cases order with
  | little => exact Bytes.encode_decode bytes
  | big => rw [Order.bytes, word, ← List.length_reverse, Bytes.encode_decode, List.reverse_reverse]

theorem word_bytes (fits : value < 256 ^ width) : order.word (order.bytes width value) = value := by
  cases order with
  | little => exact Bytes.decode_encode_of_lt fits
  | big => rw [Order.bytes, word, List.reverse_reverse, Bytes.decode_encode_of_lt fits]

theorem bytes_reverse (other : native ≠ order) (width value : Nat) :
    (native.bytes width value).reverse = order.bytes width value := by
  cases native <;> cases order
  · exact absurd rfl other
  · rfl
  · exact List.reverse_reverse _
  · exact absurd rfl other

theorem word_reverse (other : native ≠ order) (bytes : List UInt8) : native.word bytes.reverse = order.word bytes := by
  cases native <;> cases order
  · exact absurd rfl other
  · rfl
  · exact congrArg Bytes.decode (List.reverse_reverse bytes)
  · exact absurd rfl other

theorem bytes_zero (order : Order) (width : Nat) : order.bytes width 0 = List.replicate width 0 := by
  have zeros : Bytes.encode width 0 = List.replicate width 0 := by
    have decoded := Bytes.encode_decode (List.replicate width 0)
    rwa [Bytes.decode_zeros, List.length_replicate] at decoded
  cases order with
  | little => exact zeros
  | big => rw [Order.bytes, zeros, List.reverse_replicate]

end Order

namespace Endian

variable {native order : Order} {bytes : List UInt8}

theorem bytes_swap64 (native : Order) (value : Nat) : native.bytes 8 (swap64 value) = (native.bytes 8 value).reverse := by
  have swapped : Bytes.encode 8 (swap64 value) = (Bytes.encode 8 value).reverse := by
    have decoded := Bytes.encode_decode (Bytes.encode 8 value).reverse
    rwa [List.length_reverse, Bytes.encode_length] at decoded
  cases native with
  | little => exact swapped
  | big => rw [Order.bytes, swapped, Order.bytes]

@[simp] theorem scratch_length (small : bytes.length ≤ 8) : (scratch bytes).length = 8 := by
  rw [scratch, List.length_append, List.length_replicate]
  omega

theorem write64_length (native order : Order) (value : Nat) : (write64 native order value).length = 8 :=
  Order.bytes_length _ _ _

theorem write64_word (native order : Order) (length : bytes.length = 8) :
    write64 native order (native.word bytes) = if native = order then bytes else bytes.reverse := by
  have same := Order.bytes_word native bytes
  rw [length] at same
  by_cases own : native = order
  · rw [write64, if_pos own, if_pos own, same]
  · rw [write64, if_neg own, if_neg own, bytes_swap64, same]

theorem swap64_word (native : Order) (length : bytes.length = 8) :
    swap64 (native.word bytes) = native.word bytes.reverse := by
  cases native with
  | little => rw [Order.word, swap64, ← length, Bytes.encode_decode, Order.word]
  | big =>
    have reversed : bytes.reverse.length = 8 := by rw [List.length_reverse, length]
    rw [Order.word, swap64, ← reversed, Bytes.encode_decode, Order.word]

theorem read64_eq (native order : Order) (length : bytes.length = 8) : read64 native order bytes = order.word bytes := by
  rw [read64, List.take_of_length_le (Nat.le_of_eq length)]
  by_cases own : native = order
  · rw [if_pos own, own]
  · rw [if_neg own, swap64_word native length, Order.word_reverse own]

theorem written_eq (native order : Order) {width : Nat} (small : width ≤ 8) (value : Nat) :
    (write64 native order (native.word (scratch (native.bytes width value)))).take width =
      if native = order then order.bytes width value
      else (List.replicate (8 - width) 0 ++ order.bytes width value).take width := by
  rw [write64_word native order (scratch_length (by rwa [Order.bytes_length]))]
  by_cases own : native = order
  · rw [if_pos own, if_pos own, scratch, List.take_left' (Order.bytes_length native width value), own]
  · rw [if_neg own, if_neg own, scratch, List.reverse_append, List.reverse_replicate, Order.bytes_reverse own, Order.bytes_length]

theorem readLE64_scratch (native : Order) (small : bytes.length ≤ 8) :
    readLE64 native (scratch bytes) = Order.little.word bytes := by
  rw [readLE64, read64_eq native _ (scratch_length small)]
  simp only [Order.word, scratch, Bytes.decode_append, Bytes.decode_zeros, Nat.mul_zero, Nat.add_zero]

theorem readBE64_scratch (native : Order) (small : bytes.length ≤ 8) :
    readBE64 native (scratch bytes) = 256 ^ (8 - bytes.length) * Order.big.word bytes := by
  rw [readBE64, read64_eq native _ (scratch_length small)]
  simp only [Order.word, scratch, List.reverse_append, List.reverse_replicate, Bytes.decode_append, Bytes.decode_zeros,
    List.length_replicate, Nat.zero_add]

end Endian

namespace Serialization

theorem BinaryWriter.writeBytes_inj {first second : List UInt8} (lengths : first.length = second.length)
    (same : ∀ writer : BinaryWriter, writer.writeBytes first = writer.writeBytes second) : first = second := by
  by_cases none : first.length = 0
  · rw [List.eq_nil_of_length_eq_zero none, List.eq_nil_of_length_eq_zero (lengths.symm.trans none)]
  -- a buffer that has just the room, so that it neither grows nor is resized
  let writer : BinaryWriter := ⟨⟨List.replicate first.length 0, first.length, by simp⟩, 0⟩
  have wrapped : first.length % sizeLimit ≤ first.length := Nat.mod_le _ _
  have written (source : List UInt8) (length : source.length = first.length) :
      (writer.writeBytes source).map (fun result => result.2.buffer.storage) = some source := by
    simp [writer, BinaryWriter.writeBytes, length, none, BinaryWriter.ensureCapacity, Buffer.capacity, Buffer.copyTo,
      BinaryWriter.advance, wrapped, Nat.not_lt.mpr wrapped]
  have results := congrArg (Option.map fun result : Status × BinaryWriter => result.2.buffer.storage) (same writer)
  rw [written first rfl, written second lengths.symm] at results
  exact Option.some.inj results

/-- Every writer is handed the bytes of the value in this order. -/
def Hands (write : BinaryWriter → Nat → Nat → Option (Status × BinaryWriter)) (order : Order) (width value : Nat) : Prop :=
  ∀ writer, write writer width value = writer.writeBytes (order.bytes width value)

/-- Every reader that has these bytes before it returns the value and passes them. -/
def Returns (read : Nat → Decoder Nat) (order : Order) (width value : Nat) : Prop :=
  ∀ reader : BinaryReader, ∀ suffix, reader.view.length < sizeLimit →
    reader.view.drop reader.offset = order.bytes width value ++ suffix →
    (read width).run reader = .ok (value, { reader with offset := reader.offset + width })

theorem readThrough_run (read : List UInt8 → Nat) {reader : BinaryReader} {bytes suffix : List UInt8}
    (bounded : reader.view.length < sizeLimit) (some : 0 < bytes.length)
    (here : reader.view.drop reader.offset = bytes ++ suffix) :
    (BinaryReader.readThrough read bytes.length).run reader =
      .ok (read (scratch bytes) % 256 ^ bytes.length, { reader with offset := reader.offset + bytes.length }) := by
  obtain ⟨view, offset⟩ := reader
  dsimp only at bounded here
  have enough : offset + bytes.length ≤ view.length := by
    have length := congrArg List.length here
    simp only [List.length_drop, List.length_append] at length
    omega
  rw [BinaryReader.readThrough, StateT.run_bind, BinaryReader.readBytes_run (by omega) (by omega), if_pos enough, here, List.take_left]
  rfl

variable {native order : Order} {width value : Nat}

theorem hands_iff {write : Nat → List UInt8} (eight : ∀ raw, (write raw).length = 8) (small : width ≤ 8) :
    Hands (BinaryWriter.writeThrough native write) order width value ↔
      (write (native.word (scratch (native.bytes width value)))).take width = order.bytes width value := by
  constructor
  · intro hands
    refine BinaryWriter.writeBytes_inj ?_ hands
    rw [List.length_take, eight, Order.bytes_length, Nat.min_eq_left small]
  · intro same writer
    exact congrArg writer.writeBytes same

theorem returns_iff {read : List UInt8 → Nat} (positive : 0 < width) (small : width ≤ 8) :
    Returns (BinaryReader.readThrough read) order width value ↔
      read (scratch (order.bytes width value)) % 256 ^ width = value := by
  have length := Order.bytes_length order width value
  constructor
  · intro returns
    -- a view of these bytes alone
    let reader : BinaryReader := ⟨order.bytes width value, 0⟩
    have short : reader.view.length < sizeLimit := by
      rw [length]
      exact Nat.lt_of_le_of_lt small (by decide)
    have here : reader.view.drop reader.offset = order.bytes width value ++ [] := by simp [reader]
    have ran := readThrough_run read short (by omega) here
    rw [length, returns reader [] short here] at ran
    exact (congrArg Prod.fst (Except.ok.inj ran)).symm
  · intro same reader suffix bounded here
    have ran := readThrough_run read bounded (by omega) here
    rwa [length, same] at ran

/-- A word in little-endian order is always right on a little-endian host; one in big-endian order
when it fills the scratch word, or is zero. -/
theorem named_orders_iff {width value : Nat} (scalar : width ∈ [1, 2, 4, 8]) (fits : value < 256 ^ width) :
    Hands (BinaryWriter.writeLE .little) .little width value ∧ Returns (BinaryReader.readLE .little) .little width value ∧
      (Hands (BinaryWriter.writeBE .little) .big width value ↔ width = 8 ∨ value = 0) ∧
      (Returns (BinaryReader.readBE .little) .big width value ↔ width = 8 ∨ value = 0) := by
  have sizes : width ≤ 8 ∧ 0 < width ∧ (width = 8 ∨ width ≤ 8 - width) := by
    simp only [List.mem_cons, List.not_mem_nil, or_false] at scalar
    omega
  obtain ⟨small, positive, full⟩ := sizes
  have short (order : Order) : (order.bytes width value).length ≤ 8 := by rwa [Order.bytes_length]
  refine ⟨(hands_iff (write64_length .little .little) small).mpr (written_eq .little .little small value), ?_, ?_, ?_⟩
  · rw [BinaryReader.readLE, returns_iff positive small, readLE64_scratch .little (short .little), Order.word_bytes fits,
      Nat.mod_eq_of_lt fits]
  · refine (hands_iff (write64_length .little .big) small).trans ?_
    rw [written_eq .little .big small value, if_neg (by decide)]
    rcases full with rfl | narrow
    · rw [Nat.sub_self, List.replicate_zero, List.nil_append, List.take_of_length_le (Nat.le_of_eq (Order.bytes_length _ _ _))]
      exact iff_of_true rfl (.inl rfl)
    · rw [List.take_append_of_le_length (by rwa [List.length_replicate]), List.take_replicate, Nat.min_eq_left narrow,
        ← Order.bytes_zero .big width, or_iff_right (by omega)]
      constructor
      · intro zeros
        have words := congrArg (Order.word .big) zeros
        rw [Order.word_bytes fits, Order.word_bytes (Nat.pow_pos (by decide))] at words
        exact words.symm
      · intro zero
        rw [zero]
  · rw [BinaryReader.readBE, returns_iff positive small, readBE64_scratch .little (short .big), Order.word_bytes fits, Order.bytes_length]
    rcases full with rfl | narrow
    · exact iff_of_true (by rw [Nat.sub_self, Nat.pow_zero, Nat.one_mul, Nat.mod_eq_of_lt fits]) (.inl rfl)
    · rw [Nat.mod_eq_zero_of_dvd (Dvd.dvd.mul_right (Nat.pow_dvd_pow 256 narrow) value), or_iff_right (by omega)]
      exact eq_comm

theorem named_orders_of_word :
    Hands (BinaryWriter.writeLE .little) .little 4 0x01020304 ∧ Returns (BinaryReader.readLE .little) .little 4 0x01020304 ∧
      (Hands (BinaryWriter.writeBE .little) .big 4 0x01020304 ↔ 4 = 8 ∨ 0x01020304 = 0) ∧
      (Returns (BinaryReader.readBE .little) .big 4 0x01020304 ↔ 4 = 8 ∨ 0x01020304 = 0) :=
  named_orders_iff (by decide) (by decide)

/-- The word 0x01020304 is written as four zeros, and read back as zero from its big-endian bytes. -/
theorem big_endian_word_is_lost :
    (writeBE64 .little (Order.little.word (scratch (Order.little.bytes 4 0x01020304)))).take 4 = [0, 0, 0, 0] ∧
      (BinaryReader.readBE .little 4).run ⟨[1, 2, 3, 4], 0⟩ = .ok (0, ⟨[1, 2, 3, 4], 4⟩) ∧
      ¬ Hands (BinaryWriter.writeBE .little) .big 4 0x01020304 ∧
      ¬ Returns (BinaryReader.readBE .little) .big 4 0x01020304 := by
  refine ⟨by decide +kernel, by decide +kernel, fun hands => ?_, fun returns => ?_⟩
  · exact absurd ((hands_iff (write64_length .little .big) (by decide)).mp hands) (by decide +kernel)
  · exact absurd ((returns_iff (by decide) (by decide)).mp returns) (by decide +kernel)

end Serialization
end Quartz
