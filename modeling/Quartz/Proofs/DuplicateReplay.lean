import Quartz.Proofs.LogicalReplay
import Quartz.Proofs.LoneLeaf
import Quartz.Proofs.WrittenBlocks

/-! Replay of the records as the writer leaves them. The payload of a record about a key is zeros,
and zero is the byte of no key type: the replay of a run ends at the first of its entries, before
it comes to what a repeated key does to it. -/

namespace Quartz.Btree
open Storage Format Serialization BinaryWriter Wal Recovery TreeM Fallible BTree LogReplayer

/-! ### A payload of zeros -/

section Apply

variable {ω : Type} [BTreeWalSink ω] {record : LogRecord} {tree : BTree ω} {count : Nat}

theorem applyRecord_zeros (keyed : Keyed record) (zeros : record.payload = List.replicate (count + 1) 0) :
    (applyRecord record).run tree = (.error (.status unknownKey), tree) := by
  have behind : 0 < count + 1 := Nat.zero_lt_succ count
  rcases keyed with type | type
  · rw [applyRecord, if_pos type, zeros, decode, entry_zeros 0 behind (by decide)]
    rfl
  · rw [applyRecord, if_neg (by rw [type]; decide), if_pos type, zeros, decode, Key.deserialize_zeros 0 behind (by decide)]
    rfl

theorem applyAll_stops {first : List LogRecord} (idle : ∀ other ∈ first, Idle other) (keyed : Keyed record)
    (zeros : record.payload = List.replicate (count + 1) 0) (later : List LogRecord) :
    (applyAll (first ++ record :: later)).run tree = (.error (.status unknownKey), tree) := by
  rw [applyAll_append, run_bind_ok (applyAll_idle idle), applyAll, run_bind_error (applyRecord_zeros keyed zeros)]

end Apply

/-- The blocks of an entry have a type byte in front and fit into any buffer. -/
theorem written_entry (key : Key) (value : PageReference) :
    ∃ count, written (BTreeWalAdapter.entryBlocks key value) = List.replicate (count + 1) 0 := by
  have front : 0 < (BTreeWalAdapter.entryBlocks key value).flatten.length := by
    simp only [BTreeWalAdapter.entryBlocks, Key.blocks, List.cons_append, List.flatten_cons, List.length_append, Bytes.encode_length]
    omega
  have short := key.length_serialize_lt
  have small : (BTreeWalAdapter.entryBlocks key value).flatten.length < lengthLimit := by
    rw [BTreeWalAdapter.entryBlocks, List.flatten_append, List.length_append, Key.flatten_blocks]
    split
    · rw [List.flatten_singleton, PageReference.length_serialize, lengthLimit, PageReference.kSize]
      omega
    · rw [List.flatten_nil, List.length_nil, lengthLimit]
      omega
  obtain ⟨count, more⟩ := Nat.exists_eq_succ_of_ne_zero front.ne'
  exact ⟨count, by rw [written_eq small, more]⟩

/-! ### Runs -/

namespace TreeCall

open LoggedCall

variable {tree after : BTree BTreeWalAdapter} {calls : List TreeCall}

/-- A successful call leaves one record about its key, with records that are not about a key around it. -/
theorem Succeeds.recorded {writing : Writing} {call : TreeCall} (succeeds : Succeeds tree call) (sink : tree.writing = some writing) :
    ∃ first entry last, (call.step tree).appended = tree.appended ++ first ++ entry :: last ∧
      (∀ other ∈ first, Idle other.1) ∧ Keyed entry.1 ∧
      ∃ key value, entry.1.payload = writing (BTreeWalAdapter.entryBlocks key value) := by
  have ended : call.perform.run tree = (.ok (), call.step tree) := Prod.ext succeeds rfl
  cases call with
  | insert key value =>
    obtain ⟨first, entry, whole, idle, told, -⟩ := insert_recorded sink ended
    exact ⟨first, entry, [], whole, idle, .inl told.names.1, key, value, told.payload rfl⟩
  | erase key =>
    obtain ⟨first, entry, last, whole, idle, -, told, -⟩ := erase_recorded sink ended
    exact ⟨first, entry, last, whole, idle, .inr told.names.1, key, .invalid, told.payload rfl⟩

theorem logs_run (tree : BTree BTreeWalAdapter) (calls : List TreeCall) :
    LogExtends (fun _ => True) tree (Runs.after step tree calls) := by
  induction calls generalizing tree with
  | nil => exact .refl _ rfl
  | cons call rest ih => exact (call.logs_perform tree).1.trans (ih _)

/-- The replay of a run of successful calls ends at the record of the first. -/
theorem applyAll_written {start : BTree BTreeWalAdapter} (space : Space.SpaceManager) (config : BTreeNodeConfig)
    (manager : LogManager) (clock : Nat → UInt64) (framed : LogRecord → List UInt8) {call : TreeCall}
    (succeeds : Succeeds (opened space config manager clock written framed) call) (rest : List TreeCall) :
    (applyAll (Runs.after step (opened space config manager clock written framed) (call :: rest)).emitted).run start =
      (.error (.status unknownKey), start) := by
  obtain ⟨first, entry, last, whole, idle, keyed, key, value, payload⟩ := succeeds.recorded rfl
  obtain ⟨more, grown, -⟩ := (logs_run (step (opened space config manager clock written framed) call) rest).records
  obtain ⟨count, zeros⟩ := written_entry key value
  have records : (Runs.after step (opened space config manager clock written framed) (call :: rest)).appended =
      first ++ entry :: (last ++ more) := by
    rw [Runs.after_cons, grown, whole]
    simp [opened, appended]
  rw [emitted, records, List.map_append, List.map_cons]
  refine applyAll_stops (fun record member => ?_) keyed (payload.trans zeros) _
  obtain ⟨other, inside, rfl⟩ := List.mem_map.mp member
  exact idle other inside

/-- The replay of the log gives a tree with the size and the entries of the first. -/
def Reproduced (start tree : BTree BTreeWalAdapter) : Prop :=
  ∃ replayed, (applyAll tree.emitted).run start = (.ok (), replayed) ∧ replayed.size = tree.size ∧
    replayed.inLeaves.Perm tree.inLeaves

/-- A run of successful calls, whether its keys repeat or not, is reproduced by what the writer has left of its
records exactly when it is empty. -/
theorem replay_keeps_duplicates_iff (policy : Space.AllocationPolicy) (space : Space.SpaceManager) (config : BTreeNodeConfig)
    (manager : LogManager) (clock : Nat → UInt64) (calls : List TreeCall)
    (succeed : Runs.AtEachStep step Succeeds (opened space config manager clock written LogWriter.writtenFrame) calls) :
    Reproduced (BTree.create (Space.SpaceManager.withPolicy policy) config)
      (Runs.after step (opened space config manager clock written LogWriter.writtenFrame) calls) ↔ calls = [] := by
  constructor
  · rintro ⟨replayed, replay, -⟩
    cases calls with
    | nil => rfl
    | cons call rest =>
      obtain ⟨succeeds, -⟩ := Runs.atEachStep_cons.mp succeed
      rw [applyAll_written space config manager clock _ succeeds rest] at replay
      cases replay
  · rintro rfl
    exact ⟨_, rfl, rfl, List.Perm.refl _⟩

/-- A tree for 32-bit keys that may repeat, over a new log. -/
def repeating : BTree BTreeWalAdapter :=
  opened (Space.SpaceManager.withPolicy .firstFit) { allowDuplicates := true } freshLog (fun _ => 7) written
    LogWriter.writtenFrame

def twice : List TreeCall :=
  [.insert (.uint32 5) (PageReference.make 100 1 4), .insert (.uint32 5) (PageReference.make 101 1 4)]

theorem replay_keeps_duplicates_iff_twice :
    Runs.AtEachStep step Succeeds repeating twice ∧
      ¬ Reproduced (BTree.create (Space.SpaceManager.withPolicy .bestFit) { allowDuplicates := true })
        (Runs.after step repeating twice) := by
  have succeed : Runs.AtEachStep step Succeeds repeating twice := by
    simp only [twice, Runs.atEachStep_cons, Runs.atEachStep_nil, and_true]
    refine ⟨?_, ?_⟩
    all_goals decide +kernel
  refine ⟨succeed, fun reproduced => ?_⟩
  have none := (replay_keeps_duplicates_iff .bestFit _ _ _ _ twice succeed).mp reproduced
  cases none

/-- One insertion; the payload of its record is 25 zeros, which is no key. -/
theorem replay_refuses_entry :
    let calls := [insert (.uint32 5) (PageReference.make 100 1 4)]
    let tree := Runs.after step repeating calls
    Runs.AtEachStep step Succeeds repeating calls ∧ tree.Granted ∧ tree.size = 1 ∧
      (tree.emitted.filter fun record => record.type = .pageUpdate).map LogRecord.payload = [List.replicate 25 0] ∧
      ((applyAll tree.emitted).run (BTree.create (Space.SpaceManager.withPolicy .firstFit) { allowDuplicates := true } :
          BTree BTreeWalAdapter)).1 = .error (.status (Status.corruption "Key: unknown key type")) ∧
      ¬ Reproduced (BTree.create (Space.SpaceManager.withPolicy .firstFit) { allowDuplicates := true }) tree := by
  intro calls tree
  refine ⟨?_, by decide +kernel, by decide +kernel, by decide +kernel, by decide +kernel, ?_⟩
  · simp only [calls, Runs.atEachStep_cons, Runs.atEachStep_nil, and_true]
    decide +kernel
  · rintro ⟨replayed, replay, -⟩
    exact absurd (show _ = Except.ok () from congrArg Prod.fst replay) (by decide +kernel)

end TreeCall
end Quartz.Btree
