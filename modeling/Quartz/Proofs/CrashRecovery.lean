import Quartz.Proofs.RecoveryReports
import Quartz.Proofs.TreeValidity

/-! Recovery from a log that was cut off anywhere. A record that is cut breaks the stream, and a recovery that ends
well shows a stream that has never failed; without such a record the log is the front of a run's log, which gives a
valid tree wherever it ends. -/

namespace Quartz.Wal
open Storage Serialization Bytes LogWriter LogFile

/-- The records of which every byte lies within the limit, counted from the first. -/
def wholeRecords : Nat → List LogRecord → List LogRecord
  | _, [] => []
  | limit, record :: rest =>
    if 49 + record.payload.length ≤ limit then record :: wholeRecords (limit - padded (49 + record.payload.length)) rest
    else []

/-- The cut lies within one of the records. -/
def TornAt (records : List LogRecord) (limit : Nat) : Prop :=
  ∃ before record after, records = before ++ record :: after ∧ Torn record (offsetAfter before) limit

/-- Records that are whole, and the front of one more. -/
def Cut (bytes : List UInt8) : Prop :=
  ∃ before record kept, 0 < kept ∧ kept < 49 + record.payload.length ∧ (∀ other ∈ before ++ [record], other.Fits) ∧
    bytes = before.flatMap paddedFrame ++ (frame record).take kept

theorem Ordered.of_prefix {previous : LogSequenceNumber} {front records : List LogRecord} (ordered : Ordered previous records)
    (begins : front <+: records) : Ordered previous front := by
  induction front generalizing previous records with
  | nil => trivial
  | cons record front ih =>
    obtain ⟨rest, rfl⟩ := begins
    obtain ⟨order, valid, fits, later⟩ := ordered
    exact ⟨order, valid, fits, ih later (List.prefix_append front rest)⟩

section Bytes

variable {record : LogRecord} {rest records : List LogRecord} {limit : Nat}

theorem take_frames (whole : 49 + record.payload.length ≤ limit) :
    ∃ tail, ((record :: rest).flatMap paddedFrame).take limit = frame record ++ tail ∧
      tail.drop (padded (49 + record.payload.length) - (49 + record.payload.length)) =
        (rest.flatMap paddedFrame).take (limit - padded (49 + record.payload.length)) := by
  have fits := padded_ge (49 + record.payload.length)
  refine ⟨(List.replicate (padded (49 + record.payload.length) - (49 + record.payload.length)) 0 ++
    rest.flatMap paddedFrame).take (limit - (49 + record.payload.length)), ?_, ?_⟩
  · rw [List.flatMap_cons, paddedFrame, List.append_assoc, List.take_append, length_frame,
      List.take_of_length_le (by rw [length_frame]; exact whole)]
  · rw [List.drop_take, List.drop_left' List.length_replicate]
    congr 1
    omega

theorem offsetAfter_cons (record : LogRecord) (before : List LogRecord) :
    offsetAfter (record :: before) = padded (49 + record.payload.length) + offsetAfter before := by
  rw [offsetAfter, offsetAfter, List.flatMap_cons, List.length_append, length_paddedFrame]
  omega

theorem torn_or_laid (limit : Nat) (records : List LogRecord) :
    TornAt records (WalFileHeader.kSize + limit) ∨
      Laid (wholeRecords limit records) ((records.flatMap paddedFrame).take limit) := by
  induction records generalizing limit with
  | nil => exact .inr (by simp [wholeRecords, Laid])
  | cons record rest ih =>
    have fits := padded_ge (49 + record.payload.length)
    by_cases whole : 49 + record.payload.length ≤ limit
    · obtain ⟨tail, front, behind⟩ := @take_frames record rest limit whole
      rw [front, wholeRecords, if_pos whole]
      rcases ih (limit - padded (49 + record.payload.length)) with ⟨before, torn, after, rfl, above, below⟩ | laid
      · have least : WalFileHeader.kSize ≤ offsetAfter before := Nat.le_add_right _ _
        exact .inl ⟨record :: before, torn, after, rfl, by rw [offsetAfter_cons]; omega, by rw [offsetAfter_cons]; omega⟩
      · exact .inr ⟨tail, rfl, by rw [behind]; exact laid⟩
    · rw [wholeRecords, if_neg whole]
      have start : offsetAfter [] = WalFileHeader.kSize := rfl
      rcases Nat.eq_zero_or_pos limit with rfl | positive
      · exact .inr rfl
      · exact .inl ⟨[], record, rest, rfl, by rw [start]; omega, by rw [start, length_frame]; omega⟩

theorem TornAt.cut (torn : TornAt records limit) (fits : ∀ record ∈ records, record.Fits) :
    Cut ((records.flatMap paddedFrame).take (limit - WalFileHeader.kSize)) := by
  obtain ⟨before, record, after, rfl, above, below⟩ := torn
  rw [offsetAfter] at above below
  rw [length_frame] at below
  refine ⟨before, record, limit - WalFileHeader.kSize - (before.flatMap paddedFrame).length, by omega, by omega,
    fun other member => fits other ?_, ?_⟩
  · rw [List.append_cons]
    exact List.mem_append_left _ member
  · rw [List.flatMap_append, List.flatMap_cons, paddedFrame, List.append_assoc, List.take_append,
      List.take_of_length_le (by omega), List.take_append_of_le_length (by rw [length_frame]; omega)]

end Bytes

/-! ### Broken streams -/

section Broken

variable {log : LogFile} {offset : Nat} {record : LogRecord} {records rest : List LogRecord}

theorem readRecord_torn {kept : Nat} (ready : log.Ready) (fits : record.Fits) (positive : 0 < kept)
    (short : kept < 49 + record.payload.length) (placed : log.file.bytes.drop offset = (frame record).take kept) :
    (log.readRecord offset).2.Broken := by
  have length := congrArg List.length placed
  simp only [List.length_drop, List.length_take, length_frame] at length
  rcases Nat.lt_or_ge kept 4 with unsized | sized
  · obtain ⟨status, position, eof, found⟩ := readRecord_unsized ready (show log.file.bytes.length < offset + 4 by omega)
    rw [found]
    exact ⟨ready.attached, ready.isOpen, rfl⟩
  · obtain ⟨position, found⟩ := readRecord_cut ready fits sized short placed
    rw [found]
    exact ready.broken position

theorem Cut.inside (cut : Cut (log.file.bytes.drop offset)) (ready : log.Ready) : offset < log.fileSize := by
  obtain ⟨before, record, kept, positive, short, -, placed⟩ := cut
  have length := congrArg List.length placed
  simp only [List.length_drop, List.length_append, List.length_take, length_frame] at length
  rw [ready.fileSize]
  omega

/-- What stands in a cut log up to its end cannot be read without breaking the stream. -/
theorem Cut.not_stands (cut : Cut (log.file.bytes.drop offset)) (ready : log.Ready) {found : List LogRecord} :
    ¬ log.Stands offset found := by
  intro stands
  obtain ⟨before, record, kept, positive, short, fits, placed⟩ := cut
  -- the records that are whole are read, and then the one that is cut
  induction before generalizing log offset found with
  | nil =>
    have inside := Cut.inside ⟨[], record, kept, positive, short, fits, placed⟩ ready
    cases found with
    | nil => exact absurd inside (Nat.not_lt.mpr stands)
    | cons other found =>
      obtain ⟨-, size, moved, read, same, -⟩ := stands
      have broken := readRecord_torn ready (fits record (by simp)) positive short placed
      rw [read] at broken
      exact absurd (broken.bad.symm.trans (fail_congr same)) (by simp [ready.good])
  | cons first before ih =>
    have inside := Cut.inside ⟨first :: before, record, kept, positive, short, fits, placed⟩ ready
    rw [List.flatMap_cons, List.append_assoc] at placed
    obtain ⟨fit, later⟩ := List.forall_mem_cons.mp fits
    cases found with
    | nil => exact absurd inside (Nat.not_lt.mpr stands)
    | cons other found =>
      obtain ⟨-, size, moved, read, same, behind⟩ := stands
      obtain ⟨position, whole⟩ := readRecord_whole ready fit (placed.trans (by rw [paddedFrame, List.append_assoc]))
      obtain ⟨⟨-, rfl⟩, rfl⟩ := by simpa only [Prod.mk.injEq, Except.ok.injEq] using read.symm.trans whole
      refine ih (ready.movedTo position) (behind.congr same.symm) later ?_
      rw [bytes_movedTo, ← List.drop_drop, placed, List.drop_left' (length_paddedFrame first)]

end Broken

namespace LogManager

variable {records : List LogRecord}

/-! ### Opening a log -/

def reopened (bytes : List UInt8) (path : String) (create : Bool) : Status × LogManager :=
  ({ file := { file := { contents := some bytes } } } : LogManager).initializeLog path create

variable {rest : List UInt8} (path : String)

private theorem created (rest : List UInt8) :
    ∃ after, reopened (walHeader ++ rest) path true = (Status.success, after) ∧ after.initialized = true ∧ after.file.Ready ∧
      after.file.file.bytes = walHeader ++ rest := by
  obtain ⟨after, done, initialized, ready, bytes, -⟩ :=
    @initialize_create { file := { file := { contents := some (walHeader ++ rest) } } } rfl rfl path
  refine ⟨after, done, initialized, ready, ?_⟩
  rw [bytes]
  change walHeader ++ (walHeader ++ rest).drop walHeader.length = _
  rw [List.drop_left]

private theorem opened (rest : List UInt8) :
    ∃ file : LogFile, file.Ready ∧ file.file.bytes = walHeader ++ rest ∧
      ∃ writer, reopened (walHeader ++ rest) path false = (Status.success, ⟨true,
        if file.fileSize > WalFileHeader.kSize then (lastLsn file.fileSize file WalFileHeader.kSize .invalid).2 else file,
        writer, {}⟩) := by
  obtain ⟨opened, opens, ready, bytes⟩ :=
    @LogFile.open_closed { file := { contents := some (walHeader ++ rest) } } rest rfl rfl path
  obtain ⟨position, validated⟩ := validate_ready ready bytes
  refine ⟨opened.movedTo position false, ready.movedTo position, bytes, ?_⟩
  simp only [reopened, initializeLog, opens, validated, Status.ok_success, Bool.not_true, Bool.not_false, if_false_true, Bool.true_and,
    decide_eq_true_eq]
  by_cases more : (opened.movedTo position false).fileSize > WalFileHeader.kSize
  · simp only [more, if_true, restoreFromFile]
    split <;> exact ⟨_, rfl⟩
  · simp only [more, if_false]
    exact ⟨_, rfl⟩

theorem reopened_laid (ordered : Ordered .invalid records) (laid : Laid records rest) (create : Bool) :
    ∃ after, reopened (walHeader ++ rest) path create = (Status.success, after) ∧ after.Holds records := by
  cases create with
  | true =>
    obtain ⟨after, done, initialized, ready, bytes⟩ := created path rest
    exact ⟨after, done, initialized, ready, ⟨rest, bytes, laid⟩, ordered⟩
  | false =>
    obtain ⟨file, ready, bytes, writer, done⟩ := opened path rest
    refine ⟨_, done, ?_⟩
    have behind : Laid records (file.file.bytes.drop WalFileHeader.kSize) := by
      rw [bytes, show WalFileHeader.kSize = walHeader.length from rfl, List.drop_left]
      exact laid
    have enough : records.length ≤ file.fileSize := by
      have frames := laid.length_le
      rw [ready.fileSize, bytes, List.length_append]
      omega
    obtain ⟨after, scanned, good, same, -⟩ := lastLsn_laid behind ready ordered.fits enough .invalid
    by_cases more : file.fileSize > WalFileHeader.kSize
    · simp only [more, if_true, scanned]
      exact ⟨rfl, good, ⟨rest, same.trans bytes, laid⟩, ordered⟩
    · simp only [more, if_false]
      exact ⟨rfl, ready, ⟨rest, bytes, laid⟩, ordered⟩

/-- Opened either way, a cut log does not stand with a stream that has not failed. -/
theorem reopened_cut (cut : Cut rest) (create : Bool) {found : List LogRecord}
    (stands : (reopened (walHeader ++ rest) path create).2.file.Stands WalFileHeader.kSize found) :
    (reopened (walHeader ++ rest) path create).2.file.file.fail = true := by
  have behind : ∀ {file : LogFile}, file.file.bytes = walHeader ++ rest →
      Cut (file.file.bytes.drop WalFileHeader.kSize) := fun bytes => by
    rw [bytes, show WalFileHeader.kSize = walHeader.length from rfl, List.drop_left]
    exact cut
  cases create with
  | true =>
    obtain ⟨after, done, -, ready, bytes⟩ := created path rest
    rw [done] at stands
    exact absurd stands ((behind bytes).not_stands ready)
  | false =>
    obtain ⟨file, ready, bytes, writer, done⟩ := opened path rest
    have more : file.fileSize > WalFileHeader.kSize := (behind bytes).inside ready
    rw [done] at stands ⊢
    simp only [more, if_true] at stands ⊢
    by_contra good
    have kept := (lastLsn_reads file.fileSize file WalFileHeader.kSize .invalid).good (Bool.eq_false_of_not_eq_true good)
    exact (behind bytes).not_stands ready (stands.congr kept)

end LogManager
end Quartz.Wal

namespace Quartz.Recovery
open Storage Serialization Btree Wal Fallible

namespace RecoveryManager
open CheckpointManager LogReplayer

variable {ω : Type} [BTreeWalSink ω] {wal : LogManager}

theorem examine_unmarked {record : LogRecord} (unmarked : record.type ≠ .checkpointMarker) (search : CheckpointSearch) :
    (examine record).run search = (.ok (), search) := by
  rw [examine, if_pos unmarked]
  rfl

theorem searchRecords_unmarked {records : List LogRecord} (unmarked : ∀ record ∈ records, record.type ≠ .checkpointMarker) :
    searchRecords records = (Status.invalidArgument "CheckpointManager: no checkpoint found", {}) := by
  have passed : (forM records examine).run {} = (.ok (), {}) := by
    induction records with
    | nil => rfl
    | cons record rest ih =>
      obtain ⟨first, others⟩ := List.forall_mem_cons.mp unmarked
      rw [List.forM_cons, run_bind_ok (examine_unmarked first _)]
      exact ih others
  rw [searchRecords, passed]
  rfl

/-- Without checkpoints recovery is the replay of all records, and the checks at the end. -/
theorem recoverRecords_unmarked {records : List LogRecord} (ordered : Ordered .invalid records)
    (unmarked : ∀ record ∈ records, record.type ≠ .checkpointMarker) (tree : BTree ω) :
    recoverRecords records tree =
      match (applyAll records).run tree.clear with
      | (.error failure, built) => (.error failure, built)
      | (.ok _, built) => (TreeValidator.validate built, built) := by
  have all : (applyAll (pending .invalid records)).run tree.clear = (applyAll records).run tree.clear := by
    refine applyAll_pending ordered.valid (fun record member _ => ?_) tree.clear
    have positive := (ordered.valid record member).lsn
    exact UInt64.pos_iff_ne_zero.mpr (by simpa [LogSequenceNumber.isValid] using positive)
  have base : baseTree (Status.invalidArgument "CheckpointManager: no checkpoint found") {} tree =
    (Status.success, tree.clear) := rfl
  simp only [recoverRecords, searchRecords_unmarked unmarked, base, Status.ok_success, if_not_true]
  rewrite [all]
  rcases (applyAll records).run tree.clear with ⟨failure | _, built⟩ <;> rfl

/-- The log is cut at the length, opened, and recovered: recovery ends well, with the tree of the
records that are whole. -/
def Recovers (records : List LogRecord) (limit : Nat) (path : String) (create : Bool) (tree : BTree ω) : Prop :=
  (recover (LogManager.reopened ((logBytes records).take limit) path create).2 tree).1.1 = .ok () ∧
    (recover (LogManager.reopened ((logBytes records).take limit) path create).2 tree).1.2.1 =
      ((applyAll (wholeRecords (limit - WalFileHeader.kSize) records)).run tree.clear).2

theorem wholeRecords_front (limit : Nat) (records : List LogRecord) : wholeRecords limit records <+: records := by
  induction records generalizing limit with
  | nil => exact List.prefix_refl _
  | cons record rest ih =>
    rw [wholeRecords]
    split
    · exact List.cons_prefix_cons.mpr ⟨rfl, ih _⟩
    · exact List.nil_prefix

theorem take_logBytes (records : List LogRecord) {limit : Nat} (enough : WalFileHeader.kSize ≤ limit) :
    (logBytes records).take limit = walHeader ++ (records.flatMap paddedFrame).take (limit - WalFileHeader.kSize) := by
  rw [logBytes, List.take_append, List.take_of_length_le (by rw [length_walHeader]; exact enough)]
  rfl

variable {records : List LogRecord} {limit : Nat}

theorem torn_not_recovers (ordered : Ordered .invalid records) (enough : WalFileHeader.kSize ≤ limit)
    (torn : TornAt records limit) (path : String) (create : Bool) (tree : BTree ω) : ¬ Recovers records limit path create tree := by
  rintro ⟨ended, -⟩
  rw [take_logBytes records enough] at ended
  rcases recovered : recover (LogManager.reopened (walHeader ++ (records.flatMap paddedFrame).take (limit - WalFileHeader.kSize))
    path create).2 tree with ⟨⟨_, built, result⟩, after⟩
  rw [recovered] at ended
  obtain rfl := ended
  obtain ⟨before, good, -⟩ := recover_ok recovered
  have failed := LogManager.reopened_cut path (torn.cut ordered.fits) create before.stands
  cases failed.symm.trans good

theorem untorn_recovers (ordered : Ordered .invalid records)
    (unmarked : ∀ record ∈ records, record.type ≠ .checkpointMarker) (enough : WalFileHeader.kSize ≤ limit)
    (untorn : ¬ TornAt records limit) (path : String) (create : Bool) {tree built : BTree ω}
    (replays : (applyAll (wholeRecords (limit - WalFileHeader.kSize) records)).run tree.clear = (.ok (), built))
    (valid : TreeValidator.validate built = .ok ()) : Recovers records limit path create tree := by
  have laid := (torn_or_laid (limit - WalFileHeader.kSize) records).resolve_left (by rwa [Nat.add_sub_cancel' enough])
  have front := wholeRecords_front (limit - WalFileHeader.kSize) records
  have kept := ordered.of_prefix front
  obtain ⟨after, done, holds⟩ := LogManager.reopened_laid path kept laid create
  obtain ⟨result, recovered⟩ := recover_holds holds tree
  rw [recoverRecords_unmarked kept fun record member => unmarked record (front.subset member), replays] at recovered
  rw [Recovers, take_logBytes records enough, done, recovered, replays]
  exact ⟨valid, rfl⟩

end RecoveryManager
end Quartz.Recovery

namespace Quartz.Btree.LoggedCall
open Storage Wal Recovery Fallible TreeCall LogReplayer BTree

def treeCalls (inputs : List LoggedCall) : List TreeCall :=
  inputs.filterMap fun
    | .tree call => some call
    | .flush => none

variable {space : Space.SpaceManager} {config : BTreeNodeConfig} {tree : BTree BTreeWalAdapter} {order : List Key}

/-- Wherever the log of the tree ends, applying it gives a sorted tree. -/
def FrontsReplay (space : Space.SpaceManager) (config : BTreeNodeConfig) (tree : BTree BTreeWalAdapter) : Prop :=
  ∀ front, front <+: tree.emitted → ∃ built order,
    (applyAll front).run (BTree.create space config : BTree BTreeWalAdapter) = (.ok (), built) ∧ built.config = config ∧
      built.Ordered order

theorem silenced_ordered (ordered : tree.silenced.Ordered order) {input : LoggedCall} (clean : Clean tree input)
    (granted : (step tree input).Granted) (matching : ∀ call ∈ treeCalls [input], call.key.Matches tree.config)
    (new : ∀ key ∈ insertedKeys (treeCalls [input]), key ∉ order) :
    ∃ order', (step tree input).config = tree.config ∧ (step tree input).silenced.Ordered order' ∧
      ∀ key ∈ order', key ∈ order ∨ key ∈ insertedKeys (treeCalls [input]) := by
  have same : (step tree input).silenced = tree.silenced → ∃ order', (step tree input).config = tree.config ∧
      (step tree input).silenced.Ordered order' ∧ ∀ key ∈ order', key ∈ order ∨ key ∈ insertedKeys (treeCalls [input]) :=
    fun same => ⟨order, show (step tree input).silenced.config = _ by rw [same]; rfl, same ▸ ordered, fun key => .inl⟩
  cases input with
  | flush => exact same rfl
  | tree call =>
    by_cases done : (call.perform.run tree).1 = .ok ()
    · have alike : call.perform.run tree.silenced = (.ok (), (call.step tree).silenced) := by
        rw [(call.logs_perform tree).2 granted, done]
        rfl
      have stepped : call.step tree.silenced = (call.step tree).silenced := congrArg Prod.snd alike
      have pages : ¬ Exhausts call.perform tree.silenced := by
        rintro ⟨status, after, failed, -⟩
        cases failed.symm.trans alike
      have kept := step_ordered ordered (matching call List.mem_cons_self) new pages
      rw [stepped] at kept
      exact kept
    · exact same (clean.resolve_left done)

theorem FrontsReplay.step (fronts : FrontsReplay space config tree) (replayed : Replayed space config tree)
    (unique : config.allowDuplicates = false) {input : LoggedCall} (clean : Clean tree input)
    (granted : (step tree input).Granted) (made : tree.config = config) (ordered : tree.silenced.Ordered order)
    {order' : List Key} (made' : (LoggedCall.step tree input).config = config)
    (ordered' : (LoggedCall.step tree input).silenced.Ordered order') : FrontsReplay space config (LoggedCall.step tree input) := by
  obtain ⟨more, grown, moves⟩ := replayed.moves unique clean granted
  have before := replayed.replay ((step_extends tree input).granted granted)
  intro front inside
  rw [emitted, grown, List.map_append] at inside
  rcases List.prefix_or_prefix_of_prefix inside (List.prefix_append _ _) with old | ⟨rest, rfl⟩
  · exact fronts front old
  · rw [applyAll_append]
    rcases moves.fronts rest ((List.prefix_append_right_inj _).mp inside) with stays | moved
    · exact ⟨_, order, (run_bind_ok before).trans stays, made, ordered⟩
    · exact ⟨_, order', (run_bind_ok before).trans moved, made', ordered'⟩

theorem granted_before {inputs : List LoggedCall} (granted : (Runs.after step tree inputs).Granted) : tree.Granted := by
  induction inputs generalizing tree with
  | nil => exact granted
  | cons input rest ih => exact (step_extends tree input).granted (ih granted)

/-- The run lemma: no key is inserted that was inserted before. -/
theorem fronts_replay (replayed : Replayed space config tree) (unique : config.allowDuplicates = false)
    (fronts : FrontsReplay space config tree) (made : tree.config = config) (ordered : tree.silenced.Ordered order)
    {inputs : List LoggedCall} (matching : ∀ call ∈ treeCalls inputs, call.key.Matches config)
    (new : ∀ key ∈ insertedKeys (treeCalls inputs), key ∉ order) (once : (insertedKeys (treeCalls inputs)).Nodup)
    (clean : Runs.AtEachStep step Clean tree inputs) (granted : (Runs.after step tree inputs).Granted) :
    FrontsReplay space config (Runs.after step tree inputs) := by
  induction inputs generalizing tree order with
  | nil => exact fronts
  | cons input rest ih =>
    have calls : treeCalls (input :: rest) = treeCalls [input] ++ treeCalls rest := by
      simp [treeCalls, ← List.filterMap_append]
    have parts : insertedKeys (treeCalls (input :: rest)) = insertedKeys (treeCalls [input]) ++ insertedKeys (treeCalls rest) := by
      rw [calls, insertedKeys, List.filterMap_append]
      rfl
    rw [calls] at matching
    rw [parts] at new once
    obtain ⟨-, later, apart⟩ := List.nodup_append.mp once
    obtain ⟨now, clean⟩ := Runs.atEachStep_cons.mp clean
    have accepted : (step tree input).Granted := granted_before granted
    obtain ⟨order', kept, ordered', grown⟩ := silenced_ordered ordered now accepted
      (fun call member => made ▸ matching call (List.mem_append_left _ member))
      fun key member => new key (List.mem_append_left _ member)
    have made' := kept.trans made
    refine ih (replayed.step unique now) (fronts.step replayed unique now accepted made ordered made' ordered') made' ordered'
      (fun call member => matching call (List.mem_append_right _ member)) (fun key member inside => ?_) later clean granted
    rcases grown key inside with old | fresh
    · exact new key (List.mem_append_right _ member) old
    · exact apart key fresh key member rfl

end Quartz.Btree.LoggedCall

namespace Quartz.Recovery.RecoveryManager
open Storage Btree Wal LoggedCall TreeCall

/-- For every run over its log that inserts no key twice, in which every call succeeds or changes nothing, with the log
cut at any length and opened either way: recovery ends well with the tree of the whole records exactly if no record is
cut. -/
theorem truncated_log_recovers_iff (space : Space.SpaceManager) (sound : space.pageAllocator.Sound) (config : BTreeNodeConfig)
    (unique : config.allowDuplicates = false) (small : config.binaryKeySize.toNat ≤ kMaxBinaryKeySize) (manager : LogManager)
    (clock : Nat → UInt64) (inputs : List LoggedCall) (matching : ∀ call ∈ treeCalls inputs, call.key.Matches config)
    (once : (insertedKeys (treeCalls inputs)).Nodup)
    (clean : Runs.AtEachStep step Clean (opened space config manager clock) inputs)
    (granted : (Runs.after step (opened space config manager clock) inputs).Granted)
    (ordered : Ordered .invalid (Runs.after step (opened space config manager clock) inputs).emitted)
    (limit : Nat) (enough : WalFileHeader.kSize ≤ limit) (path : String) (create : Bool) :
    Recovers (Runs.after step (opened space config manager clock) inputs).emitted limit path create
        (BTree.create space config : BTree BTreeWalAdapter) ↔
      ¬ TornAt (Runs.after step (opened space config manager clock) inputs).emitted limit := by
  refine ⟨fun recovers torn => torn_not_recovers ordered enough torn path create _ recovers, fun untorn => ?_⟩
  have blank : (opened space config manager clock).silenced.Ordered [] := ordered_create sound config
  have begun : FrontsReplay space config (opened space config manager clock) := by
    intro front inside
    obtain rfl := List.prefix_nil.mp inside
    exact ⟨_, [], rfl, rfl, ordered_create sound config⟩
  have fronts := fronts_replay (replayed_opened manager clock) unique begun rfl blank matching (by simp) once clean granted
  obtain ⟨built, order, replays, made, sorted⟩ := fronts _ (wholeRecords_front (limit - WalFileHeader.kSize) _)
  refine untorn_recovers ordered (emitted_unmarked space config manager clock inputs) enough untorn path create replays ?_
  exact TreeValidator.validate_ok sorted (by rw [made]; exact computeCapacity_pos small)

def singleRun : List LoggedCall := [.tree (.insert (.uint32 5) (Format.PageReference.make 100 1 4))]

def singleTree : BTree BTreeWalAdapter :=
  Runs.after LoggedCall.step (LoggedCall.opened (Space.SpaceManager.withPolicy .firstFit) {} LoggedCall.freshLog fun _ => 7)
    singleRun

theorem emitted_singleTree :
    singleTree.emitted =
      [{ LogRecord.make .allocation 8 0 7 with lsn := ⟨1⟩ },
        { LogRecord.make .pageUpdate 100 0 7 with
          lsn := ⟨2⟩, payload := (Key.uint32 5).serialize ++ (Format.PageReference.make 100 1 4).serialize }] := by
  decide +kernel

theorem ordered_singleTree : Ordered .invalid singleTree.emitted := by
  rw [emitted_singleTree]
  refine ⟨fun known => absurd known (by decide), ⟨by decide, by decide, by decide⟩, (by decide : 45 + 0 < 2 ^ 32), ?_⟩
  exact ⟨fun _ => by decide, ⟨by decide, by decide, by decide⟩, (by decide : 45 + 25 < 2 ^ 32), trivial⟩

def blankTree : BTree BTreeWalAdapter := BTree.create (Space.SpaceManager.withPolicy .firstFit) {}

/-- Cut within the padding of the last record, the log is recovered. -/
theorem truncated_log_recovers_iff_in_padding : Recovers singleTree.emitted 150 "wal" false blankTree := by
  refine (truncated_log_recovers_iff _ PageAllocator.sound_new {} rfl (by decide) _ _ singleRun ?_ (by decide) ?_
    (by decide +kernel) ordered_singleTree 150 (by decide) "wal" false).mpr ?_
  · simp [singleRun, treeCalls, TreeCall.key, Key.Matches, Key.type]
  · exact Runs.atEachStep_cons.mpr ⟨.inl (by decide +kernel), Runs.atEachStep_nil⟩
  · rw [← singleTree, emitted_singleTree]
    rintro ⟨before, record, after, split, above, below⟩
    rcases List.cons_eq_append_iff.mp split with ⟨rfl, same⟩ | ⟨later, rfl, rest⟩
    · obtain ⟨rfl, -⟩ := List.cons.inj same
      exact absurd below (by decide)
    rcases List.cons_eq_append_iff.mp rest with ⟨rfl, same⟩ | ⟨last, rfl, none⟩
    · obtain ⟨rfl, -⟩ := List.cons.inj same
      exact absurd below (by decide)
    · simp at none

/-- Cut within the record of the key, the log is not recovered at all. -/
theorem torn_record_stops_recovery :
    Ordered .invalid singleTree.emitted ∧
      (recover (LogManager.reopened ((logBytes singleTree.emitted).take 100) "wal" false).2 blankTree).1.1 =
        .error (.status (Status.ioError "Failed to seek in file")) ∧
      ¬ Recovers singleTree.emitted 100 "wal" false blankTree := by
  have stopped : (recover (LogManager.reopened ((logBytes singleTree.emitted).take 100) "wal" false).2 blankTree).1.1 =
    .error (.status (Status.ioError "Failed to seek in file")) := by decide +kernel
  refine ⟨ordered_singleTree, stopped, fun recovers => ?_⟩
  rw [Recovers, stopped] at recovers
  cases recovers.1

end Quartz.Recovery.RecoveryManager
