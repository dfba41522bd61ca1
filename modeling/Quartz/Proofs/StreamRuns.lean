import Quartz.Lib.Runs
import Quartz.Proofs.Streams

/-! Runs of calls on a file. The array and the place in it are what the callers see; the flags of the
stream and the size that the file remembers are hidden. -/

namespace Quartz.Storage

inductive StreamCall where
  | seek (position : UInt64)
  | readBytes (destination : List UInt8)
  | writeBytes (source : List UInt8)
  deriving DecidableEq, Repr

def DatabaseFile.perform (file : DatabaseFile) : StreamCall → DatabaseFile
  | .seek position => (file.seek position).2
  | .readBytes destination => (file.readBytes destination).2.2
  | .writeBytes source => (file.writeBytes source).2

structure Medium where
  bytes : List UInt8
  position : Nat

def Medium.perform (medium : Medium) : StreamCall → Medium
  | .seek position => { medium with position := position.toNat }
  | .readBytes destination => { medium with position := medium.position + destination.length }
  | .writeBytes source =>
    { bytes := if source.isEmpty then medium.bytes else Splice.write 0 medium.bytes medium.position source
      position := medium.position + source.length }

namespace StreamCall

variable {state : DatabaseFile × Medium} {call : StreamCall}

def step (state : DatabaseFile × Medium) (call : StreamCall) : DatabaseFile × Medium :=
  (state.1.perform call, state.2.perform call)

/-- Every read inside the file succeeds with the last bytes that were written there. -/
def Serves (state : DatabaseFile × Medium) : Prop :=
  ∀ position : UInt64, ∀ destination : List UInt8, position.toNat + destination.length ≤ state.1.fileSize →
    (state.1.seek position).1.ok = true ∧ ((state.1.seek position).2.readBytes destination).1.ok = true ∧
      ((state.1.seek position).2.readBytes destination).2.1 =
        (state.2.bytes.drop position.toNat).take destination.length

/-- A read that succeeds has delivered all it was asked for. -/
def Delivers (state : DatabaseFile × Medium) : StreamCall → Prop
  | .readBytes destination => (state.1.readBytes destination).1.ok = true →
      (state.1.readBytes destination).2.1 = (state.2.bytes.drop state.2.position).take destination.length
  | _ => True

/-- The call asks for no more than is left, does not write nothing behind the end, and stays below the largest
offset of a stream. -/
def Within (state : DatabaseFile × Medium) : StreamCall → Prop
  | .seek position => position.toNat < 2 ^ 63
  | .readBytes destination => destination.length ≤ state.1.fileSize - state.1.position
  | .writeBytes source =>
    (source = [] → state.1.position ≤ state.1.fileSize) ∧ state.1.position + source.length < 2 ^ 63

instance (state : DatabaseFile × Medium) (call : StreamCall) : Decidable (Within state call) :=
  match call with
  | .seek position => inferInstanceAs (Decidable (position.toNat < _))
  | .readBytes destination => inferInstanceAs (Decidable (destination.length ≤ _))
  | .writeBytes source => inferInstanceAs (Decidable ((source = [] → _) ∧ _))

/-- The stream is ready, and stands where its callers think. -/
structure InStep (state : DatabaseFile × Medium) : Prop where
  ready : state.1.Ready
  bytes : state.1.bytes = state.2.bytes
  position : state.1.position = state.2.position
  small : state.1.fileSize < 2 ^ 63

theorem InStep.serves (inStep : InStep state) : Serves state := by
  intro position destination inside
  obtain ⟨sought, seek, stream, moved, clean⟩ := inStep.ready.stream.seekTo position.toNat
  have small := inStep.small
  have size : state.1.fileSize = state.1.bytes.length := inStep.ready.stream.size
  have read := @Over.readBytes _ _ stream clean destination (by omega)
  rw [DatabaseFile.seek, if_pos (by omega), seek]
  dsimp only
  rw [read, moved, inStep.bytes]
  exact ⟨rfl, rfl, rfl⟩

theorem InStep.delivers (inStep : InStep state) (within : Within state call) : Delivers state call := by
  cases call with
  | readBytes destination =>
    intro _
    have size : state.1.fileSize = state.1.bytes.length := inStep.ready.stream.size
    simp only [Within, size] at within
    rw [inStep.ready.stream.readBytes inStep.ready.clean within, inStep.bytes, inStep.position]
  | _ => trivial

theorem InStep.keeps (inStep : InStep state) (within : Within state call) : InStep (step state call) := by
  obtain ⟨ready, bytes, position, small⟩ := inStep
  have size : state.1.fileSize = state.1.bytes.length := ready.stream.size
  cases call with
  | seek target =>
    obtain ⟨sought, seek, stream, moved, clean⟩ := ready.stream.seekTo target.toNat
    simp only [Within] at within
    simp only [step, DatabaseFile.perform, Medium.perform, DatabaseFile.seek, if_pos within, seek]
    refine ⟨.of_stream stream clean, stream.holds.trans bytes, moved, ?_⟩
    rw [size] at small
    exact stream.size.trans_lt small
  | readBytes destination =>
    simp only [Within, size] at within
    simp only [step, DatabaseFile.perform, Medium.perform, ready.stream.readBytes ready.clean within]
    exact ⟨⟨⟨ready.stream.isOpen, ready.stream.good, rfl, ready.stream.size⟩, ready.clean⟩, bytes, by rw [position], small⟩
  | writeBytes source =>
    by_cases none : source = []
    · have inside : state.1.position ≤ state.1.size := within.1 none
      subst none
      simp only [step, DatabaseFile.perform, Medium.perform, ready.stream.writeNothing ready.clean, Nat.max_eq_right inside]
      exact ⟨⟨⟨ready.stream.isOpen, ready.stream.good, rfl, ready.stream.size⟩, ready.clean⟩, bytes, position, small⟩
    · obtain ⟨written, write, stream, moved, clean⟩ := ready.stream.writeBytes ready.clean none
      simp only [step, DatabaseFile.perform, Medium.perform, write, List.isEmpty_iff, none, if_false]
      refine ⟨.of_stream stream clean, ?_, ?_, ?_⟩
      · rw [stream.holds, bytes, position]
      · rw [moved, position]
      · have room := within.2
        rw [size] at small
        refine stream.size.trans_lt ?_
        rw [Splice.length_write]
        omega

private theorem length_readBytes (file : DatabaseFile) (destination : List UInt8) :
    (file.readBytes destination).2.1.length = destination.length := by
  rw [DatabaseFile.readBytes]
  split
  · rfl
  split
  · rfl
  · simp only [List.length_append, List.length_take, List.length_drop]
    omega

theorem Serves.good (serves : Serves state) : state.1.fail = false := by
  have first := (serves 0 [] (Nat.zero_le _)).1
  by_contra failed
  rw [Bool.not_eq_false] at failed
  rw [DatabaseFile.seek, if_pos (by decide), DatabaseFile.seekTo] at first
  cases isOpen : state.1.isOpen <;> simp [isOpen, failed, Status.ioError, Status.ok] at first

theorem Serves.small (serves : Serves state) : state.1.fileSize < 2 ^ 63 := by
  by_contra large
  have last := (serves 9223372036854775808 [] (Nat.le_of_not_lt large)).1
  rw [DatabaseFile.seek, if_neg (by decide)] at last
  cases isOpen : state.1.isOpen <;> simp [isOpen, Status.ioError, Status.ok] at last

/-- The first call that is not within its bounds leaves a file that does not serve. -/
theorem InStep.loses (inStep : InStep state) (serves : Serves (step state call)) : Within state call := by
  obtain ⟨ready, bytes, position, small⟩ := inStep
  have size : state.1.fileSize = state.1.bytes.length := ready.stream.size
  by_contra outside
  cases call with
  | seek target =>
    have good : (state.1.seek target).2.fail = false := serves.good
    rw [Within] at outside
    rw [DatabaseFile.seek, if_neg outside] at good
    simp [ready.stream.isOpen] at good
  | readBytes destination =>
    simp only [Within, size, Nat.not_le] at outside
    obtain ⟨-, -, failed⟩ := ready.stream.readBytes_short ready.clean outside
    exact absurd serves.good (by simp [step, DatabaseFile.perform, failed])
  | writeBytes source =>
    by_cases none : source = []
    swap
    · obtain ⟨written, write, stream, -⟩ := ready.stream.writeBytes ready.clean none
      have most := serves.small
      simp only [step, DatabaseFile.perform, write, DatabaseFile.fileSize, stream.size, Splice.length_write] at most
      exact outside ⟨fun empty => absurd empty none, by omega⟩
    subst none
    have behind : state.1.bytes.length < state.1.position := by
      by_contra inside
      rw [Nat.not_lt, ← size] at inside
      exact outside ⟨fun _ => inside, Nat.lt_of_le_of_lt inside small⟩
    -- the size is raised to the position, and what lies between is not there
    have length : (UInt64.ofNat state.1.bytes.length).toNat = state.1.bytes.length := by
      rw [UInt64.toNat_ofNat']
      omega
    have gap := serves (.ofNat state.1.bytes.length) (List.replicate (state.1.position - state.1.bytes.length) 0) (by
      simp only [step, DatabaseFile.perform, ready.stream.writeNothing ready.clean, DatabaseFile.fileSize, List.length_replicate, length]
      omega)
    have lengths := congrArg List.length gap.2.2
    rw [length_readBytes] at lengths
    simp only [step, Medium.perform, List.isEmpty_nil, if_true, List.length_take, List.length_drop, List.length_replicate,
      length, ← bytes] at lengths
    omega

/-- A file serves its callers in every state and delivers at every step exactly when no call leaves its bounds. -/
theorem file_serves_iff {file : DatabaseFile} (ready : file.Ready) (small : file.fileSize < 2 ^ 63) (calls : List StreamCall) :
    (Runs.Always step Serves (file, ⟨file.bytes, file.position⟩) calls ∧
      Runs.AtEachStep step Delivers (file, ⟨file.bytes, file.position⟩) calls) ↔
      Runs.AtEachStep step Within (file, ⟨file.bytes, file.position⟩) calls := by
  have start : InStep (file, ⟨file.bytes, file.position⟩) := ⟨ready, rfl, rfl, small⟩
  have serves : Runs.Always step Serves (file, ⟨file.bytes, file.position⟩) calls ↔
      Runs.AtEachStep step Within (file, ⟨file.bytes, file.position⟩) calls :=
    Runs.always_iff_atEachStep InStep (fun _ => InStep.serves) (fun _ _ inStep _ => inStep.keeps)
      (fun _ _ inStep _ => inStep.loses) start (Runs.atEachStep_true _ calls)
  constructor
  · exact fun both => serves.mp both.1
  · intro within
    have always := Runs.always_of_invariant (fun _ _ => InStep.keeps) start within
    exact ⟨serves.mpr within, fun done next inside =>
      (always done ((List.prefix_append done _).trans inside)).delivers (within done next inside)⟩

theorem file_serves_inside :
    let file : DatabaseFile := { contents := some [1, 2, 3], isOpen := true, size := 3 }
    let calls : List StreamCall := [.seek 1, .readBytes [0, 0], .writeBytes [4, 5], .writeBytes [], .seek 7, .writeBytes [6]]
    Runs.Always step Serves (file, ⟨[1, 2, 3], 0⟩) calls ∧ Runs.AtEachStep step Delivers (file, ⟨[1, 2, 3], 0⟩) calls :=
  (file_serves_iff ⟨⟨rfl, rfl, rfl, rfl⟩, rfl⟩ (by decide) _).mpr (by decide)

/-- Four bytes are asked of a file that has three: the read is a success, and no byte is read after it. -/
theorem short_read_disables_file :
    let file : DatabaseFile := { contents := some [1, 2, 3], isOpen := true, size := 3 }
    let start : DatabaseFile × Medium := (file, ⟨[1, 2, 3], 0⟩)
    (file.readBytes [0, 0, 0, 0]).1 = Status.success ∧ (file.readBytes [0, 0, 0, 0]).2.1 = [1, 2, 3, 0] ∧
      ((file.readBytes [0, 0, 0, 0]).2.2.seek 0).1 = Status.ioError "Failed to seek in file" ∧
      ¬ Delivers start (.readBytes [0, 0, 0, 0]) ∧ ¬ Serves (step start (.readBytes [0, 0, 0, 0])) := by
  refine ⟨by decide, by decide, by decide, fun delivers => ?_, fun serves => ?_⟩
  · exact absurd (delivers rfl) (by decide)
  · exact absurd (serves 0 [] (Nat.zero_le _)).1 (by decide)

end StreamCall
end Quartz.Storage
