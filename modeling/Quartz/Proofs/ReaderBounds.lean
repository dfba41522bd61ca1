import Quartz.Lib.Runs
import Quartz.Proofs.VariableLengthIntegers
import Quartz.Serialization.ReaderCalls

/-! The reader stays inside its view whatever it is asked for. A sum of offset and count that
wraps around passes the check, though: the call succeeds and the offset goes back. -/

namespace Quartz.Serialization

namespace VarInt

variable {input : List UInt8}

theorem decodeImpl_consumed {maxBytes : Nat} (few : maxBytes ≤ 10) (done : (decodeImpl input maxBytes).1.ok = true) :
    (decodeImpl input maxBytes).2.2 ≤ input.length := by
  obtain ⟨bytes, found, room⟩ := (decodeImpl_ok_iff few).mp done
  obtain ⟨front, last, suffix, parts, rfl, -⟩ := Groups.numeral_eq_some.mp found
  rw [decodeImpl_eq few found room, parts]
  simp

theorem decodeU32_consumed {old : UInt32} (done : (decodeU32 input old).1.ok = true) :
    (decodeU32 input old).2.2 ≤ input.length := by
  have consumed := @decodeImpl_consumed input kMaxVarInt32Bytes (by decide)
  simp only [decodeU32] at done ⊢
  split at done
  next failed => simp_all
  next read =>
    split at done
    · cases done
    next small =>
      rw [if_neg read, if_neg small]
      exact consumed (by simpa using read)

theorem decodeS32_consumed {old : Int32} (done : (decodeS32 input old).1.ok = true) :
    (decodeS32 input old).2.2 ≤ input.length := by
  have consumed := @decodeU32_consumed input 0
  simp only [decodeS32] at done ⊢
  split at done
  next failed => simp_all
  next read =>
    rw [if_neg read]
    exact consumed (by simpa using read)

theorem decodeS64_consumed {old : Int64} (done : (decodeS64 input old).1.ok = true) :
    (decodeS64 input old).2.2 ≤ input.length := by
  have consumed : (decodeU64 input).1.ok = true → (decodeU64 input).2.2 ≤ input.length := decodeImpl_consumed (by decide)
  simp only [decodeS64] at done ⊢
  split at done
  next failed => simp_all
  next read =>
    rw [if_neg read]
    exact consumed (by simpa using read)

end VarInt

namespace ReaderCall
open Fallible

def asks : ReaderCall → Option UInt64
  | .skip count | .readBytes count | .readBytesInto _ count | .ensure count => some count
  | _ => none

/-- A call stays inside the view, finds exactly the bytes that are left, goes back only when it
seeks, and stays where it is when it fails. -/
structure InBounds (reader : BinaryReader) (call : ReaderCall) : Prop where
  inside : (step reader call).offset ≤ reader.view.length
  exact : ∀ count, call.asks = some count → ((call.perform.run reader).1 = .ok () ↔ count.toNat ≤ reader.remaining)
  forward : (∀ position, call ≠ .seek position) → (call.perform.run reader).1 = .ok () →
    reader.offset ≤ (step reader call).offset
  kept : ∀ status, (call.perform.run reader).1 = .error status → (step reader call).offset = reader.offset

/-- The sum of the offset and what the call wants to pass exceeds the limit of `size_t`. -/
def Wraps (reader : BinaryReader) : ReaderCall → Prop
  | .skip count | .readBytes count | .readBytesInto _ count | .ensure count => sizeLimit ≤ reader.offset + count.toNat
  | .align alignment => alignment ≠ 0 ∧ reader.offset % alignment.toNat ≠ 0 ∧
      sizeLimit ≤ reader.offset + (alignment.toNat - reader.offset % alignment.toNat)
  | _ => False

variable {reader : BinaryReader} {call : ReaderCall}

theorem wrapped {offset count : Nat} (past : sizeLimit ≤ offset + count) (inside : offset < sizeLimit)
    (small : count < sizeLimit) : (offset + count) % sizeLimit = offset + count - sizeLimit := by
  rw [Nat.mod_eq_sub_mod past, Nat.mod_eq_of_lt (by omega)]

theorem inBounds_of_asks {count : UInt64} {status : Status} {moved : Nat} (asks : call.asks = some count)
    (inside : reader.offset ≤ reader.view.length) (bounded : reader.view.length < sizeLimit)
    (moves : moved = reader.offset ∨ moved = (reader.offset + count.toNat) % sizeLimit)
    (ran : call.perform.run reader =
      if (reader.offset + count.toNat) % sizeLimit > reader.view.length then (.error status, reader)
      else (.ok (), { reader with offset := moved })) :
    InBounds reader call ↔ ¬ sizeLimit ≤ reader.offset + count.toNat := by
  have small : count.toNat < sizeLimit := count.toNat_lt
  have left : reader.remaining = reader.view.length - reader.offset := rfl
  constructor
  · intro stays past
    -- the check passes, and there are not that many bytes
    have less := wrapped past (by omega) small
    rw [if_neg (by omega)] at ran
    have enough := (stays.exact count asks).mp (by rw [ran])
    omega
  · intro fits
    have sum : (reader.offset + count.toNat) % sizeLimit = reader.offset + count.toNat := Nat.mod_eq_of_lt (by omega)
    rw [sum] at moves ran
    by_cases past : reader.offset + count.toNat > reader.view.length
    · rw [if_pos past] at ran
      refine ⟨?_, fun other same => ?_, fun _ done => ?_, fun _ _ => ?_⟩
      · rw [step, ran]
        exact inside
      · cases asks.symm.trans same
        rw [ran]
        exact iff_of_false (by simp) (by omega)
      · rw [ran] at done
        cases done
      · rw [step, ran]
    · rw [if_neg past] at ran
      refine ⟨?_, fun other same => ?_, fun _ _ => ?_, fun _ failed => ?_⟩
      · rw [step, ran]
        dsimp only
        omega
      · cases asks.symm.trans same
        rw [ran]
        exact iff_of_true rfl (by omega)
      · rw [step, ran]
        dsimp only
        omega
      · rw [ran] at failed
        cases failed

theorem inBounds_of_forward (none : call.asks = none) (inside : reader.offset ≤ reader.view.length)
    (ran : (∃ status, call.perform.run reader = (.error status, reader)) ∨
      ∃ offset, reader.offset ≤ offset ∧ offset ≤ reader.view.length ∧
        call.perform.run reader = (.ok (), { reader with offset := offset })) : InBounds reader call := by
  rcases ran with ⟨status, ran⟩ | ⟨offset, later, within, ran⟩
  · refine ⟨?_, fun count asks => ?_, fun _ done => ?_, fun _ _ => ?_⟩
    · rw [step, ran]
      exact inside
    · cases none.symm.trans asks
    · rw [ran] at done
      cases done
    · rw [step, ran]
  · refine ⟨?_, fun count asks => ?_, fun _ _ => ?_, fun _ failed => ?_⟩
    · rw [step, ran]
      exact within
    · cases none.symm.trans asks
    · rw [step, ran]
      exact later
    · rw [ran] at failed
      cases failed

theorem readVar_cases {α : Type} {decode : List UInt8 → Status × α × Nat}
    (consumed : ∀ input, (decode input).1.ok = true → (decode input).2.2 ≤ input.length)
    (inside : reader.offset ≤ reader.view.length) (bounded : reader.view.length < sizeLimit) :
    (∃ status, (Cursor.readVar decode >>= fun _ => pure ()).run reader = (.error status, reader)) ∨
      ∃ offset, reader.offset ≤ offset ∧ offset ≤ reader.view.length ∧
        (Cursor.readVar decode >>= fun _ => pure ()).run reader = (.ok (), { reader with offset := offset }) := by
  rcases read : decode (reader.view.drop reader.offset) with ⟨status, value, count⟩
  have few := consumed (reader.view.drop reader.offset)
  rw [read, List.length_drop] at few
  by_cases done : status.ok = true
  · have enough : count ≤ reader.view.length - reader.offset := few done
    have sum : (reader.offset + count) % sizeLimit = reader.offset + count := Nat.mod_eq_of_lt (by omega)
    refine .inr ⟨reader.offset + count, by omega, by omega, ?_⟩
    simp only [Cursor.readVar, Fallible.bind_assoc, run_bind_ok run_read, read, done, if_not_true, run_bind_ok (run_update _), sum]
    rfl
  · refine .inl ⟨status, ?_⟩
    simp only [Cursor.readVar, Fallible.bind_assoc, run_bind_ok run_read, read, done, Bool.not_false, if_true]
    rfl

theorem align_inBounds_iff {alignment : UInt64} (inside : reader.offset ≤ reader.view.length) (bounded : reader.view.length < sizeLimit) :
    InBounds reader (.align alignment) ↔ ¬ Wraps reader (.align alignment) := by
  have ran : (perform (.align alignment)).run reader = (if alignment = 0 then pure ()
      else if reader.offset % alignment.toNat ≠ 0 then
        Cursor.skip (alignment - UInt64.ofNat (reader.offset % alignment.toNat))
      else pure () : Cursor Unit).run reader := rfl
  by_cases none : alignment = 0
  · rw [if_pos none] at ran
    exact iff_of_true (inBounds_of_forward rfl inside (.inr ⟨reader.offset, Nat.le_refl _, inside, ran⟩)) fun wraps => wraps.1 none
  rw [if_neg none] at ran
  by_cases aligned : reader.offset % alignment.toNat = 0
  · rw [if_neg (not_not.mpr aligned)] at ran
    exact iff_of_true (inBounds_of_forward rfl inside (.inr ⟨reader.offset, Nat.le_refl _, inside, ran⟩)) fun wraps =>
      wraps.2.1 aligned
  -- the next multiple of the alignment
  have positive : 0 < alignment.toNat := Nat.pos_of_ne_zero fun zero => none (UInt64.toNat_inj.mp zero)
  have less := Nat.mod_lt reader.offset positive
  have small : alignment.toNat < sizeLimit := alignment.toNat_lt
  have count : (alignment - UInt64.ofNat (reader.offset % alignment.toNat)).toNat =
      alignment.toNat - reader.offset % alignment.toNat := by
    have rest : (UInt64.ofNat (reader.offset % alignment.toNat)).toNat = reader.offset % alignment.toNat := by
      rw [UInt64.toNat_ofNat']
      exact Nat.mod_eq_of_lt (less.trans small)
    rw [UInt64.toNat_sub_of_le _ _ (UInt64.le_iff_toNat_le.mpr (by omega)), rest]
  rw [if_pos aligned, Cursor.skip, Cursor.forward_run, count] at ran
  have wraps : Wraps reader (.align alignment) ↔
      sizeLimit ≤ reader.offset + (alignment.toNat - reader.offset % alignment.toNat) :=
    ⟨fun wraps => wraps.2.2, fun past => ⟨none, aligned, past⟩⟩
  rw [wraps]
  constructor
  · intro stays past
    have back := wrapped past (by omega) (by omega)
    rw [if_neg (by omega)] at ran
    have later := stays.forward (by simp) (by rw [ran])
    rw [step, ran] at later
    dsimp only at later
    omega
  · intro fits
    rw [Nat.mod_eq_of_lt (Nat.not_le.mp fits)] at ran
    refine inBounds_of_forward rfl inside ?_
    split at ran
    next => exact .inl ⟨_, ran⟩
    next within => exact .inr ⟨_, Nat.le_add_right _ _, Nat.not_lt.mp within, ran⟩

theorem inBounds_iff (inside : reader.offset ≤ reader.view.length) (bounded : reader.view.length < sizeLimit)
    (call : ReaderCall) : InBounds reader call ↔ ¬ Wraps reader call := by
  cases call with
  | seek position =>
    have ran : perform (.seek position) = Cursor.seek position := rfl
    refine iff_of_true ?_ id
    by_cases past : position.toNat > reader.view.length
    · have failed : (perform (.seek position)).run reader =
          (.error (Status.invalidArgument "BinaryReader::seek: position out of range"), reader) := by
        rw [ran, Cursor.seek, run_bind_ok run_read, if_pos past]
        rfl
      exact inBounds_of_forward rfl inside (.inl ⟨_, failed⟩)
    · have moved : (perform (.seek position)).run reader = (.ok (), { reader with offset := position.toNat }) := by
        rw [ran, Cursor.seek, run_bind_ok run_read, if_neg past]
        rfl
      refine ⟨?_, fun _ asked => (by cases asked), fun other => absurd rfl (other position), fun _ failed => ?_⟩
      · rw [step, moved]
        exact Nat.not_lt.mp past
      · rw [moved] at failed
        cases failed
  | skip count => exact inBounds_of_asks rfl inside bounded (.inr rfl) (Cursor.forward_run _ _ _)
  | align alignment => exact align_inBounds_iff inside bounded
  | readBytes count =>
    refine @inBounds_of_asks reader _ count BinaryReader.endOfInput _ rfl inside bounded (.inr rfl) ?_
    rw [perform, Cursor.readBytes, Fallible.bind_assoc, run_bind_ok run_read]
    by_cases none : count = 0
    · have still : (reader.offset + count.toNat) % sizeLimit = reader.offset := by
        rw [none, UInt64.toNat_zero, Nat.add_zero, Nat.mod_eq_of_lt (Nat.lt_of_le_of_lt inside bounded)]
      rw [if_pos none, still, if_neg (Nat.not_lt.mpr inside)]
      rfl
    · rw [if_neg none, Fallible.bind_assoc, Cursor.forward_bind_run]
      rfl
  | readBytesInto dest count =>
    refine @inBounds_of_asks reader _ count BinaryReader.endOfInput _ rfl inside bounded (.inr rfl) ?_
    rw [perform, Cursor.readBytesInto, Fallible.bind_assoc, run_bind_ok run_read, Fallible.bind_assoc, Cursor.forward_bind_run]
    rfl
  | readVarU32 value =>
    exact iff_of_true (inBounds_of_forward rfl inside (readVar_cases (fun _ => VarInt.decodeU32_consumed) inside bounded)) id
  | readVarU64 =>
    exact iff_of_true (inBounds_of_forward rfl inside (readVar_cases (fun _ => VarInt.decodeImpl_consumed (by decide)) inside bounded)) id
  | readVarS32 value =>
    exact iff_of_true (inBounds_of_forward rfl inside (readVar_cases (fun _ => VarInt.decodeS32_consumed) inside bounded)) id
  | readVarS64 value =>
    exact iff_of_true (inBounds_of_forward rfl inside (readVar_cases (fun _ => VarInt.decodeS64_consumed) inside bounded)) id
  | ensure count =>
    refine @inBounds_of_asks reader _ count BinaryReader.endOfInput _ rfl inside bounded (.inl rfl) ?_
    rw [perform, Cursor.ensure, run_bind_ok run_read]
    by_cases past : (reader.offset + count.toNat) % sizeLimit > reader.view.length
    · rw [if_pos past, if_pos past]
      rfl
    · rw [if_neg past, if_neg past]
      rfl

section Inside

variable {view : List UInt8}

def Inside (view : List UInt8) (reader : BinaryReader) : Prop := reader.view = view ∧ reader.offset ≤ view.length

theorem forward_inside (message : String) (count : Nat) : Keeps (Inside view) (Cursor.forward message count) := by
  refine keeps_of_run fun reader holds => ?_
  rw [Cursor.forward_run]
  obtain ⟨rfl, inside⟩ := holds
  split
  next => exact ⟨rfl, inside⟩
  next within => exact ⟨rfl, Nat.not_lt.mp within⟩

theorem readVar_inside {α : Type} {decode : List UInt8 → Status × α × Nat}
    (consumed : ∀ input, (decode input).1.ok = true → (decode input).2.2 ≤ input.length) (bounded : view.length < sizeLimit) :
    Keeps (Inside view) (Cursor.readVar decode >>= fun _ => pure ()) := by
  refine keeps_of_run fun reader holds => ?_
  obtain ⟨rfl, inside⟩ := holds
  rcases readVar_cases consumed inside bounded with ⟨status, ran⟩ | ⟨offset, -, within, ran⟩ <;> rw [ran]
  · exact ⟨rfl, inside⟩
  · exact ⟨rfl, within⟩

theorem perform_inside (bounded : view.length < sizeLimit) (call : ReaderCall) : Keeps (Inside view) call.perform := by
  cases call with
  | seek position =>
    refine keeps_of_run fun reader holds => ?_
    rw [perform, Cursor.seek, run_bind_ok run_read]
    obtain ⟨rfl, inside⟩ := holds
    split
    next => exact ⟨rfl, inside⟩
    next within => exact ⟨rfl, Nat.not_lt.mp within⟩
  | skip count => exact forward_inside _ _
  | align alignment =>
    refine keeps_bind keeps_read fun reader => ?_
    split
    · exact keeps_pure _
    split
    · exact forward_inside _ _
    · exact keeps_pure _
  | readBytes count =>
    refine keeps_bind (keeps_bind keeps_read fun reader => ?_) fun _ => keeps_pure _
    split
    · exact keeps_pure _
    · exact keeps_bind (forward_inside _ _) fun _ => keeps_pure _
  | readBytesInto dest count =>
    exact keeps_bind (keeps_bind keeps_read fun _ => keeps_bind (forward_inside _ _) fun _ => keeps_pure _) fun _ => keeps_pure _
  | readVarU32 value => exact readVar_inside (fun _ => VarInt.decodeU32_consumed) bounded
  | readVarU64 => exact readVar_inside (fun _ => VarInt.decodeImpl_consumed (by decide)) bounded
  | readVarS32 value => exact readVar_inside (fun _ => VarInt.decodeS32_consumed) bounded
  | readVarS64 value => exact readVar_inside (fun _ => VarInt.decodeS64_consumed) bounded
  | ensure count =>
    refine keeps_bind keeps_read fun reader => ?_
    split
    · exact keeps_fail _
    · exact keeps_pure _

end Inside

/-- Whatever a reader is asked for, it stays inside its view; and at each step of a run the call
behaves exactly when the sum of the offset and its count does not wrap around. -/
theorem reader_stays_in_bounds_iff (view : List UInt8) (bounded : view.length < sizeLimit) (calls : List ReaderCall) :
    Runs.Always step (Inside view) ⟨view, 0⟩ calls ∧
      Runs.AtEachStep step (fun reader call => InBounds reader call ↔ ¬ Wraps reader call) ⟨view, 0⟩ calls := by
  have always : Runs.Always step (Inside view) ⟨view, 0⟩ calls := by
    exact Runs.always_of_invariant (fun reader call holds _ => (perform_inside bounded call).run holds)
      ⟨rfl, Nat.zero_le _⟩ (Runs.atEachStep_true _ _)
  refine ⟨always, always.atEachStep fun reader call holds => ?_⟩
  obtain ⟨rfl, inside⟩ := holds
  exact inBounds_iff inside bounded call

theorem reader_stays_in_bounds_short :
    let calls : List ReaderCall := [.seek 1, .skip 2, .align 4, .readBytes 3, .readVarU32 0, .ensure 1]
    Runs.Always step (Inside [1, 2, 3, 4]) ⟨[1, 2, 3, 4], 0⟩ calls ∧
      Runs.AtEachStep step (fun reader call => InBounds reader call ↔ ¬ Wraps reader call) ⟨[1, 2, 3, 4], 0⟩ calls :=
  reader_stays_in_bounds_iff [1, 2, 3, 4] (by decide) _

/-- Two bytes into a view of four, a skip over all but one of the numbers of `size_t` succeeds and goes back by one. -/
theorem skip_goes_back :
    let reader : BinaryReader := Runs.after step ⟨[1, 2, 3, 4], 0⟩ [.seek 2]
    (perform (.skip 0xFFFFFFFFFFFFFFFF)).run reader = (.ok (), ⟨[1, 2, 3, 4], 1⟩) ∧ reader.remaining = 2 ∧
      (perform (.ensure 0xFFFFFFFFFFFFFFFF)).run reader = (.ok (), reader) ∧
      ¬ InBounds reader (.skip 0xFFFFFFFFFFFFFFFF) := by
  intro reader
  have ran : (perform (.skip 0xFFFFFFFFFFFFFFFF)).run reader = (.ok (), ⟨[1, 2, 3, 4], 1⟩) := by decide +kernel
  refine ⟨ran, by decide +kernel, by decide +kernel, fun stays => ?_⟩
  have back := stays.forward (by simp) (by rw [ran])
  rw [step, ran] at back
  exact absurd back (by decide)

end ReaderCall
end Quartz.Serialization
