import Mathlib.Algebra.Group.Nat.Defs
import Quartz.Status

/-! The growable byte buffer. Its memory is the vector's whole allocation, of
which only the first `size` bytes are elements: a raw copy may reach the reserved
bytes behind them, and growing the size value-initialises what it adds. -/

namespace Quartz.Serialization

/-- Lengths and offsets are `size_t`: sums are taken modulo this. -/
def sizeLimit : Nat := 2 ^ 64

structure Buffer where
  storage : List UInt8 := []
  size : Nat := 0
  fits : size ≤ storage.length := by simp

namespace Buffer

def fresh : Buffer := {}

def kMinCapacity : Nat := 64

def capacity (buffer : Buffer) : Nat := buffer.storage.length

def contents (buffer : Buffer) : List UInt8 := buffer.storage.take buffer.size

/-- Moving to a larger allocation copies the elements only. What the new bytes
behind them hold is unspecified; nothing below reads them before writing. -/
def reserve (buffer : Buffer) (newCapacity : Nat) : Buffer :=
  if newCapacity > buffer.capacity then
    { storage := buffer.contents ++ List.replicate (newCapacity - buffer.size) 0
      size := buffer.size
      fits := by have := buffer.fits; simp [contents]; omega }
  else buffer

/-- `std::vector::resize`: the elements it adds are zero, wherever they lie in memory. -/
def resize (buffer : Buffer) (newSize : Nat) : Buffer :=
  if shrinks : newSize ≤ buffer.size then
    { buffer with size := newSize, fits := Nat.le_trans shrinks buffer.fits }
  else
    let target := if newSize ≤ buffer.capacity then buffer else buffer.reserve (max (2 * buffer.size) newSize)
    { storage := buffer.contents ++ List.replicate (newSize - buffer.size) 0 ++ target.storage.drop newSize
      size := newSize
      fits := by have := buffer.fits; simp [contents]; omega }

/-- `std::memcpy` to `data() + position`. Leaving the allocation is undefined. -/
def copyTo (buffer : Buffer) (position : Nat) (source : List UInt8) : Option Buffer :=
  if position + source.length ≤ buffer.capacity then
    some { storage := buffer.storage.take position ++ source ++ buffer.storage.drop (position + source.length)
           size := buffer.size
           fits := by have := buffer.fits; simp; omega }
  else none

@[simp] theorem contents_length (buffer : Buffer) : buffer.contents.length = buffer.size := by
  simp [contents, buffer.fits]

@[simp] theorem size_reserve (buffer : Buffer) (newCapacity : Nat) :
    (buffer.reserve newCapacity).size = buffer.size := by
  unfold reserve
  split <;> rfl

@[simp] theorem contents_reserve (buffer : Buffer) (newCapacity : Nat) :
    (buffer.reserve newCapacity).contents = buffer.contents := by
  unfold reserve
  split
  · simp [contents, buffer.fits]
  · rfl

theorem capacity_reserve (buffer : Buffer) (newCapacity : Nat) :
    (buffer.reserve newCapacity).capacity = max buffer.capacity newCapacity := by
  have := buffer.fits
  unfold reserve
  split
  next larger =>
    simp only [capacity, gt_iff_lt] at larger
    simp only [capacity, List.length_append, contents_length, List.length_replicate]
    omega
  next smaller => omega

theorem resize_grows (buffer : Buffer) {newSize : Nat} (grows : buffer.size < newSize)
    (room : newSize ≤ buffer.capacity) :
    (buffer.resize newSize).contents = buffer.contents ++ List.replicate (newSize - buffer.size) 0 ∧
      (buffer.resize newSize).capacity = buffer.capacity := by
  have fits := buffer.fits
  have large : ¬ newSize ≤ buffer.size := by omega
  have length : (buffer.contents ++ List.replicate (newSize - buffer.size) (0 : UInt8)).length = newSize := by
    simp only [List.length_append, contents_length, List.length_replicate]
    omega
  simp only [resize, large, room, dite_false, if_true]
  constructor
  · simp only [contents] at length ⊢
    rw [List.take_append_of_le_length (by omega), List.take_of_length_le (by omega)]
  · simp only [capacity] at room ⊢
    rw [List.length_append, length, List.length_drop]
    omega

theorem copyTo_inside {buffer : Buffer} {position : Nat} {source : List UInt8}
    (inside : position + source.length ≤ buffer.capacity) :
    ∃ copied, buffer.copyTo position source = some copied ∧ copied.size = buffer.size ∧
      copied.capacity = buffer.capacity ∧
      copied.contents = (buffer.storage.take position ++ source ++
        buffer.storage.drop (position + source.length)).take buffer.size := by
  simp only [copyTo, inside, if_true]
  refine ⟨_, rfl, rfl, ?_, rfl⟩
  simp only [capacity] at inside ⊢
  simp only [List.length_append, List.length_take, List.length_drop]
  omega

theorem copyTo_outside {buffer : Buffer} {position : Nat} {source : List UInt8}
    (outside : buffer.capacity < position + source.length) : buffer.copyTo position source = none := by
  simp only [copyTo, Nat.not_le.mpr outside, if_false]

end Buffer
end Quartz.Serialization
