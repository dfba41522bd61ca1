import Quartz.Lib.Splice

/-! Blocks of bytes of a fixed size. -/

namespace Bytes

structure Block (size : Nat) where
  bytes : List UInt8
  sized : bytes.length = size
  deriving DecidableEq, Repr

namespace Block

variable {size : Nat}

attribute [simp] sized

@[ext] theorem ext {first second : Block size} (same : first.bytes = second.bytes) : first = second := by
  cases first
  cases second
  cases same
  rfl

def zeros (size : Nat) : Block size := ⟨List.replicate size 0, List.length_replicate⟩

/-- The bytes at the front of a list, with zeros for those it does not have. -/
def ofList (size : Nat) (bytes : List UInt8) : Block size where
  bytes := bytes.take size ++ List.replicate (size - bytes.length) 0
  sized := by
    simp only [List.length_append, List.length_take, List.length_replicate]
    omega

theorem ofList_bytes {bytes : List UInt8} (sized : bytes.length = size) : (ofList size bytes).bytes = bytes := by
  simp [ofList, ← sized]

/-- Copies a block into place; what would end behind the block is cut off. -/
def store (block : Block size) (offset : Nat) (data : List UInt8) : Block size where
  bytes := (Splice.write 0 block.bytes offset data).take size
  sized := by
    simp only [List.length_take, Splice.length_write, sized]
    omega

theorem store_inside (block : Block size) {offset : Nat} {data : List UInt8} (inside : offset + data.length ≤ size) :
    (block.store offset data).bytes = block.bytes.take offset ++ data ++ block.bytes.drop (offset + data.length) := by
  have written := @Splice.write_inside _ 0 block.bytes data offset (by rw [block.sized]; omega)
  have stored : (block.store offset data).bytes = (Splice.write 0 block.bytes offset data).take size := rfl
  rw [stored, written]
  refine List.take_of_length_le ?_
  simp only [List.length_append, List.length_take, List.length_drop, block.sized]
  omega

theorem store_zeros {data : List UInt8} (inside : data.length ≤ size) :
    ((zeros size).store 0 data).bytes = data ++ List.replicate (size - data.length) 0 := by
  rw [store_inside _ (by omega), zeros, List.take_zero, List.nil_append, Nat.zero_add, List.drop_replicate]

theorem store_store (block : Block size) {front back : List UInt8} (whole : front.length + back.length = size) :
    ((block.store 0 front).store front.length back).bytes = front ++ back := by
  rw [store_inside _ (by omega), store_inside _ (by omega), List.take_zero, List.nil_append, Nat.zero_add, List.take_left,
    List.drop_of_length_le, List.append_nil]
  simp only [List.length_append, List.length_drop, block.sized]
  omega

end Block
end Bytes
