import Quartz.Btree.Key
import Quartz.Format.PageReference

/-! What decoders read from wherever the bytes of a value stand, put together from what they
read field by field. -/

namespace Quartz.Serialization
open Bytes

/-- From any place in front of the bytes the decoder returns the value and stops behind them. -/
def Decodes {α : Type} (decoder : Decoder α) (bytes : List UInt8) (value : α) : Prop :=
  ∀ (view : List UInt8) (offset : Nat) (rest : List UInt8), view.drop offset = bytes ++ rest → offset ≤ view.length →
    view.length < sizeLimit → decoder.run ⟨view, offset⟩ = .ok (value, ⟨view, offset + bytes.length⟩)

section Rules

variable {α β : Type}

theorem decodes_pure (value : α) : Decodes (pure value) [] value := fun _ _ _ _ _ _ => rfl

theorem decodes_bind {first : Decoder α} {next : α → Decoder β} {front back : List UInt8} {value : α} {result : β}
    (begins : Decodes first front value) (continues : Decodes (next value) back result) :
    Decodes (first >>= next) (front ++ back) result := by
  intro view offset rest here inside bounded
  rw [List.append_assoc] at here
  have behind : view.drop (offset + front.length) = back ++ rest := by rw [← List.drop_drop, here, List.drop_left]
  have length := congrArg List.length here
  simp only [List.length_drop, List.length_append] at length
  rw [StateT.run_bind, begins view offset _ here inside bounded]
  change (next value).run _ = _
  rw [continues view _ rest behind (by omega) bounded, List.length_append, Nat.add_assoc]

theorem decodes_map {decoder : Decoder α} {bytes : List UInt8} {value : α} (decodes : Decodes decoder bytes value)
    (change : α → β) : Decodes (change <$> decoder) bytes (change value) := by
  intro view offset rest here inside bounded
  rw [StateT.run_map, decodes view offset rest here inside bounded]
  rfl

theorem decodes_return {decoder : Decoder α} {bytes : List UInt8} {value : α} (decodes : Decodes decoder bytes value)
    (change : α → β) : Decodes (decoder >>= fun found => pure (change found)) bytes (change value) := by
  have both : Decodes (decoder >>= fun found => pure (change found)) (bytes ++ []) (change value) :=
    decodes_bind decodes (decodes_pure _)
  rwa [List.append_nil] at both

theorem decodes_readBytes {bytes : List UInt8} {count : Nat} (sized : bytes.length = count) :
    Decodes (BinaryReader.readBytes count) bytes bytes := by
  intro view offset rest here inside bounded
  have length := congrArg List.length here
  simp only [List.length_drop, List.length_append] at length
  rw [BinaryReader.readBytes_run inside (by omega), if_pos (by omega), here, ← sized, List.take_left]

theorem decodes_read {width value : Nat} (small : value < 256 ^ width) :
    Decodes (BinaryReader.read width) (encode width value) value := by
  have read := decodes_map (decodes_readBytes (encode_length width value)) decode
  rwa [decode_encode_of_lt small] at read

/-- What a decoder reads from a view that holds nothing else. -/
theorem Decodes.whole {decoder : Decoder α} {bytes : List UInt8} {value : α} (decodes : Decodes decoder bytes value)
    (bounded : bytes.length < sizeLimit) : decoder.run { view := bytes } = .ok (value, ⟨bytes, bytes.length⟩) := by
  have read := decodes bytes 0 [] (by simp) (Nat.zero_le _) bounded
  rwa [Nat.zero_add] at read

/-- With only a part of the bytes left the decoder fails. -/
def Starves (decoder : Decoder α) (bytes : List UInt8) : Prop :=
  ∀ (view : List UInt8) (offset : Nat) (missing : List UInt8), view.drop offset ++ missing = bytes → missing ≠ [] →
    offset ≤ view.length → offset + bytes.length < sizeLimit → ∃ status, decoder.run ⟨view, offset⟩ = .error status

theorem starves_readBytes {bytes : List UInt8} {count : Nat} (sized : bytes.length = count) :
    Starves (BinaryReader.readBytes count) bytes := by
  intro view offset missing part some inside bounded
  have length := congrArg List.length part
  have positive := List.length_pos_of_ne_nil some
  simp only [List.length_append, List.length_drop] at length
  exact ⟨_, by rw [BinaryReader.readBytes_run inside (by omega), if_neg (by omega)]⟩

theorem starves_first {first : Decoder α} {bytes : List UInt8} (fails : Starves first bytes) (next : α → Decoder β) :
    Starves (first >>= next) bytes := by
  intro view offset missing part some inside bounded
  obtain ⟨status, failed⟩ := fails view offset missing part some inside bounded
  exact ⟨status, by rw [StateT.run_bind, failed]; rfl⟩

theorem starves_bind {first : Decoder α} {next : α → Decoder β} {front back : List UInt8} {value : α}
    (begins : Decodes first front value) (fails : Starves first front) (continues : Starves (next value) back) :
    Starves (first >>= next) (front ++ back) := by
  intro view offset missing part some inside bounded
  have length := congrArg List.length part
  have positive := List.length_pos_of_ne_nil some
  simp only [List.length_append, List.length_drop] at length bounded
  -- the front is there, or already a part of it is missing
  have behind (middle : List UInt8) (here : view.drop offset = front ++ middle) (left : middle ++ missing = back) :
      ∃ status, (first >>= next).run ⟨view, offset⟩ = .error status := by
    have size := congrArg List.length here
    simp only [List.length_append, List.length_drop] at size
    have rest : view.drop (offset + front.length) = middle := by rw [← List.drop_drop, here, List.drop_left]
    obtain ⟨status, failed⟩ := continues view (offset + front.length) missing (by rw [rest, left]) some (by omega) (by omega)
    refine ⟨status, ?_⟩
    rw [StateT.run_bind, begins view offset middle here inside (by omega)]
    exact failed
  rcases List.append_eq_append_iff.mp part with ⟨more, frontParts, missingParts⟩ | ⟨middle, here, left⟩
  · by_cases whole : more = []
    · rw [whole, List.append_nil] at frontParts
      rw [whole, List.nil_append] at missingParts
      exact behind [] (by rw [List.append_nil, frontParts]) missingParts
    · exact starves_first fails next view offset more frontParts.symm whole inside (by omega)
  · exact behind middle here left.symm

theorem starves_read {width value : Nat} : Starves (BinaryReader.read width) (encode width value) := by
  rw [BinaryReader.read, map_eq_pure_bind]
  exact starves_first (starves_readBytes (encode_length width value)) _

/-- What a decoder that starves makes of a cut. -/
theorem Starves.cut {decoder : Decoder α} {bytes : List UInt8} (starves : Starves decoder bytes)
    (bounded : bytes.length < sizeLimit) {kept : Nat} (short : kept < bytes.length) :
    ∃ status, decoder.run { view := bytes.take kept } = .error status := by
  refine starves (bytes.take kept) 0 (bytes.drop kept) (List.take_append_drop kept bytes) ?_ (Nat.zero_le _) (by omega)
  exact List.ne_nil_of_length_pos (by rw [List.length_drop]; omega)

/-- The decoder reads the value from just these bytes. -/
structure Codes (decoder : Decoder α) (bytes : List UInt8) (value : α) : Prop where
  decodes : Decodes decoder bytes value
  starves : Starves decoder bytes

theorem codes_read {width value : Nat} (small : value < 256 ^ width) :
    Codes (BinaryReader.read width) (encode width value) value := ⟨decodes_read small, starves_read⟩

theorem codes_bind {first : Decoder α} {next : α → Decoder β} {front back : List UInt8} {value : α} {result : β}
    (begins : Codes first front value) (continues : Codes (next value) back result) :
    Codes (first >>= next) (front ++ back) result :=
  ⟨decodes_bind begins.decodes continues.decodes, starves_bind begins.decodes begins.starves continues.starves⟩

/-- The last bytes are copied as they are; what follows reads nothing. -/
theorem codes_rest {next : List UInt8 → Decoder β} {bytes : List UInt8} {result : β}
    (continues : Decodes (next bytes) [] result) : Codes (BinaryReader.readBytes bytes.length >>= next) bytes result := by
  have whole := decodes_bind (decodes_readBytes (rfl : bytes.length = bytes.length)) continues
  rw [List.append_nil] at whole
  exact ⟨whole, starves_first (starves_readBytes rfl) next⟩

/-- From any place in front of the bytes the decoder fails. -/
def Rejects (decoder : Decoder α) (bytes : List UInt8) : Prop :=
  ∀ (view : List UInt8) (offset : Nat) (rest : List UInt8), view.drop offset = bytes ++ rest → offset ≤ view.length →
    view.length < sizeLimit → ∃ status, decoder.run ⟨view, offset⟩ = .error status

theorem rejects_throw (status : Status) (bytes : List UInt8) : Rejects (throw status : Decoder α) bytes :=
  fun _ _ _ _ _ _ => ⟨status, rfl⟩

theorem rejects_first {first : Decoder α} {bytes : List UInt8} (fails : Rejects first bytes) (next : α → Decoder β)
    (more : List UInt8) : Rejects (first >>= next) (bytes ++ more) := by
  intro view offset rest here inside bounded
  rw [List.append_assoc] at here
  obtain ⟨status, failed⟩ := fails view offset _ here inside bounded
  exact ⟨status, by rw [StateT.run_bind, failed]; rfl⟩

theorem rejects_bind {first : Decoder α} {next : α → Decoder β} {front back : List UInt8} {value : α}
    (begins : Decodes first front value) (fails : Rejects (next value) back) :
    Rejects (first >>= next) (front ++ back) := by
  intro view offset rest here inside bounded
  rw [List.append_assoc] at here
  have behind : view.drop (offset + front.length) = back ++ rest := by rw [← List.drop_drop, here, List.drop_left]
  have length := congrArg List.length here
  simp only [List.length_drop, List.length_append] at length
  obtain ⟨status, failed⟩ := fails view _ rest behind (by omega) bounded
  refine ⟨status, ?_⟩
  rw [StateT.run_bind, begins view offset _ here inside bounded]
  exact failed

/-- A decoder that fails says so. -/
def Candid (decoder : Decoder α) : Prop := ∀ reader status, decoder.run reader = .error status → status.ok = false

theorem candid_pure (value : α) : Candid (pure value) := fun _ _ failed => by cases failed

theorem candid_throw {status : Status} (bad : status.ok = false) : Candid (throw status : Decoder α) := fun _ _ failed => by
  obtain rfl := Except.error.inj failed
  exact bad

theorem candid_bind {first : Decoder α} {next : α → Decoder β} (begins : Candid first)
    (continues : ∀ value, Candid (next value)) : Candid (first >>= next) := by
  intro reader status failed
  rw [StateT.run_bind] at failed
  cases read : first.run reader with
  | error other =>
    rw [read] at failed
    obtain rfl := Except.error.inj failed
    exact begins reader _ read
  | ok result =>
    rw [read] at failed
    exact continues result.1 result.2 status failed

theorem candid_readBytes (count : Nat) : Candid (BinaryReader.readBytes count) := by
  intro reader status failed
  rw [StateT.run, BinaryReader.readBytes] at failed
  split at failed
  · cases failed
  split at failed
  · obtain rfl := Except.error.inj failed
    rfl
  · cases failed

theorem candid_skip (count : Nat) : Candid (BinaryReader.skip count) := by
  intro reader status failed
  rw [StateT.run, BinaryReader.skip] at failed
  split at failed
  · obtain rfl := Except.error.inj failed
    rfl
  · cases failed

theorem candid_read (width : Nat) : Candid (BinaryReader.read width) := by
  rw [BinaryReader.read, map_eq_pure_bind]
  exact candid_bind (candid_readBytes width) fun _ => candid_pure _

end Rules
end Quartz.Serialization

namespace Quartz.Btree
open Storage Serialization Format Bytes

/-- The size that a configuration asks of binary keys; none is asked for by zero. -/
def Key.sized (binaryKeySize : UInt16) : Key → Bool
  | .binary bytes _ => binaryKeySize == 0 || bytes.length == binaryKeySize.toNat
  | _ => true

theorem Key.sized_zero (key : Key) : key.sized 0 = true := by cases key <;> rfl

/-- A key is read back under its own size, or when no size is asked for. -/
theorem Key.decodes_deserialize (key : Key) {binaryKeySize : UInt16} (size : key.sized binaryKeySize = true) :
    Decodes (Key.deserialize binaryKeySize) key.serialize key := by
  cases key with
  | uint32 value =>
    have last := decodes_return (decodes_read (show value.toNat < 256 ^ 4 from value.toNat_lt)) fun found => Key.uint32 (UInt32.ofNat found)
    rw [UInt32.ofNat_toNat] at last
    exact decodes_bind (decodes_read (show (1 : Nat) < 256 ^ 1 by decide)) last
  | uint64 value =>
    have last := decodes_return (decodes_read (show value.toNat < 256 ^ 8 from value.toNat_lt)) fun found => Key.uint64 (UInt64.ofNat found)
    rw [UInt64.ofNat_toNat] at last
    exact decodes_bind (decodes_read (show (2 : Nat) < 256 ^ 1 by decide)) last
  | binary bytes fits =>
    have short : bytes.length < 256 ^ 2 := Nat.lt_of_le_of_lt fits (by decide)
    refine decodes_bind (decodes_read (show (3 : Nat) < 256 ^ 1 by decide)) (decodes_bind (decodes_read short) ?_)
    have agrees : (decide (binaryKeySize > 0) && bytes.length != binaryKeySize.toNat) = false := by
      rcases (Bool.or_eq_true _ _).mp size with none | same
      · rw [eq_of_beq none]
        rfl
      · rw [eq_of_beq same, bne_self_eq_false, Bool.and_false]
    have last := decodes_return (decodes_readBytes (rfl : bytes.length = bytes.length)) fun found =>
      Key.binary (found.take kMaxBinaryKeySize) (List.length_take_le _ _)
    have whole : Key.binary (bytes.take kMaxBinaryKeySize) (List.length_take_le _ _) = .binary bytes fits := by
      simp only [Key.binary.injEq]
      exact List.take_of_length_le fits
    rw [agrees, if_neg (by decide), if_neg (Nat.not_lt.mpr fits)]
    rwa [whole] at last

theorem Key.rejects_deserialize {key : Key} {binaryKeySize : UInt16} (other : key.sized binaryKeySize = false) :
    Rejects (Key.deserialize binaryKeySize) key.serialize := by
  cases key with
  | uint32 value => cases other
  | uint64 value => cases other
  | binary bytes fits =>
    have short : bytes.length < 256 ^ 2 := Nat.lt_of_le_of_lt fits (by decide)
    refine rejects_bind (decodes_read (show (3 : Nat) < 256 ^ 1 by decide)) (rejects_bind (decodes_read short) ?_)
    obtain ⟨asked, different⟩ := Bool.or_eq_false_iff.mp other
    have positive : binaryKeySize > 0 := UInt16.pos_iff_ne_zero.mpr (ne_of_beq_false asked)
    rw [decide_eq_true positive, bne, different, if_pos (by decide)]
    exact rejects_throw _ _

end Quartz.Btree

namespace Quartz.Format
open Serialization Bytes

theorem PageReference.ofBytes_serialize (ref : PageReference) (rest : List UInt8) :
    ofBytes (ref.serialize ++ rest) = ref := by
  simp (disch := simp) [ofBytes, serialize, field_append_right, field_encode]

theorem PageReference.decodes_deserialize (ref : PageReference) : Decodes deserialize ref.serialize ref := by
  have read := decodes_map (decodes_readBytes ref.length_serialize) ofBytes
  have back := ref.ofBytes_serialize []
  rw [List.append_nil] at back
  rwa [back] at read

end Quartz.Format

/-! ### Keys among zeros -/

namespace Quartz.Btree
open Serialization Format

theorem Key.length_serialize_lt (key : Key) : key.serialize.length < 2 ^ 10 := by
  cases key with
  | uint32 value | uint64 value => simp [Key.serialize]
  | binary bytes fits =>
    simp only [Key.serialize, List.length_append, Bytes.encode_length, kMaxBinaryKeySize] at fits ⊢
    omega

/-- Zero is the byte of no key type. -/
def unknownKey : Status := Status.corruption "Key: unknown key type"

section Zeros

variable {offset count : Nat} (binaryKeySize : UInt16) (inside : offset < count) (bounded : offset + 1 < sizeLimit)
include inside bounded

theorem Key.deserialize_zeros : (Key.deserialize binaryKeySize).run ⟨List.replicate count 0, offset⟩ = .error unknownKey := by
  have length : (List.replicate count (0 : UInt8)).length = count := List.length_replicate
  have zero : Bytes.field (List.replicate count 0) offset 1 = 0 := by
    rw [Bytes.field, List.drop_replicate, List.take_replicate, Nat.min_eq_left (by omega)]
    rfl
  rw [Key.deserialize, BinaryReader.read_bind (by omega) bounded, if_pos (by omega), zero]
  rfl

theorem entry_zeros : (do return (← Key.deserialize binaryKeySize, ← PageReference.deserialize) :
    Decoder (Key × PageReference)).run ⟨List.replicate count 0, offset⟩ = .error unknownKey := by
  rw [StateT.run_bind, Key.deserialize_zeros binaryKeySize inside bounded]
  rfl

end Zeros

end Quartz.Btree
