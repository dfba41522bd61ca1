import Quartz.Proofs.NodeOwnership

/-! A tree does with a sink what it does without one, as long as the sink refuses nothing. What
keeps the sink from refusing may be known before a computation or only after it. -/

namespace Quartz.Btree
open Storage Format TreeM Fallible

variable {ω : Type}

def BTree.silenced (tree : BTree ω) : BTree ω := { tree with walSink := none }

/-- How the sinks of the trees before and after a computation belong together, and when nothing
was refused in between. -/
structure Hearing (moves clear : BTree ω → BTree ω → Prop) : Prop where
  refl : ∀ {tree after}, after.walSink = tree.walSink → moves tree after
  trans : ∀ {tree middle after}, moves tree middle → moves middle after → moves tree after
  front : ∀ {tree middle after}, moves tree middle → moves middle after → clear tree after → clear tree middle
  back : ∀ {tree middle after}, moves tree middle → moves middle after → clear tree after → clear middle after

/-- The computation moves the sink, and when nothing is refused it does what it does without one. -/
def Shadows (moves clear : BTree ω → BTree ω → Prop) {α : Type} (computation : TreeM ω α) : Prop :=
  ∀ tree, moves tree (computation.run tree).2 ∧ (clear tree (computation.run tree).2 →
    computation.run tree.silenced = ((computation.run tree).1, (computation.run tree).2.silenced))

theorem notify_heard [BTreeWalSink ω] {tree : BTree ω} {sink : ω} (heard : tree.walSink = some sink) (event : TreeEvent) :
    (notify event).run tree =
      (if (BTreeWalSink.notify sink event).1.ok then .ok () else .error (.status (BTreeWalSink.notify sink event).1),
        { tree with walSink := some (BTreeWalSink.notify sink event).2 }) := by
  rw [notify, run_bind_ok run_read, heard]
  simp only
  rw [run_bind_ok (run_update _), check_run]

theorem BTree.notify_silent [BTreeWalSink ω] {tree : BTree ω} (silent : tree.walSink = none) (event : TreeEvent) :
    (notify event).run tree = (.ok (), tree) := by
  rw [notify, run_bind_ok run_read, silent]
  rfl

namespace Hearing

variable {moves clear : BTree ω → BTree ω → Prop} {α β : Type} (hearing : Hearing moves clear)
include hearing

theorem pure (value : α) : Shadows moves clear (pure value : TreeM ω α) := fun _ => ⟨hearing.refl rfl, fun _ => rfl⟩

theorem fail (failure : Failure) : Shadows moves clear (Fallible.fail failure : TreeM ω α) :=
  fun _ => ⟨hearing.refl rfl, fun _ => rfl⟩

theorem bind {first : TreeM ω α} {next : α → TreeM ω β} (begins : Shadows moves clear first)
    (continues : ∀ value, Shadows moves clear (next value)) : Shadows moves clear (first >>= next) := by
  intro tree
  obtain ⟨moved, alike⟩ := begins tree
  rcases ended : first.run tree with ⟨failure | value, middle⟩
  · rw [run_bind_error ended]
    rw [ended] at moved alike
    exact ⟨moved, fun granted => run_bind_error (alike granted)⟩
  · rw [run_bind_ok ended]
    rw [ended] at moved alike
    obtain ⟨further, same⟩ := continues value middle
    refine ⟨hearing.trans moved further, fun granted => ?_⟩
    rw [run_bind_ok (alike (hearing.front moved further granted)), same (hearing.back moved further granted)]

omit hearing in
theorem read {next : BTree ω → TreeM ω β} (each : ∀ tree, Shadows moves clear (next tree))
    (blind : ∀ tree sink, next { tree with walSink := sink } = next tree) :
    Shadows moves clear (Fallible.read >>= next) := by
  intro tree
  have quiet : next tree.silenced = next tree := blind tree none
  rw [run_bind_ok run_read, run_bind_ok run_read, quiet]
  exact each tree tree

/-- A change that neither looks at the sink nor touches it. -/
theorem update {change : BTree ω → BTree ω} (blind : ∀ tree, change tree.silenced = (change tree).silenced)
    (keeps : ∀ tree, (change tree).walSink = tree.walSink) : Shadows moves clear (Fallible.update change) := by
  intro tree
  refine ⟨hearing.refl (keeps tree), fun _ => ?_⟩
  rw [run_update, run_update, blind]

theorem check (status : Status) : Shadows moves clear (TreeM.check status) := by
  unfold TreeM.check
  split
  · exact hearing.pure _
  · exact hearing.fail _

theorem ofOption (value : Option α) : Shadows moves clear (TreeM.ofOption value) := by
  cases value with
  | none => exact hearing.fail _
  | some value => exact hearing.pure _

theorem leaf (id : PageId) : Shadows moves clear (TreeM.leaf id) := read (fun _ => hearing.ofOption _) fun _ _ => rfl

theorem internal (id : PageId) : Shadows moves clear (TreeM.internal id) :=
  read (fun _ => hearing.ofOption _) fun _ _ => rfl

omit hearing in
theorem ignore {computation : TreeM ω α} (shadows : Shadows moves clear computation) :
    Shadows moves clear computation.ignore := by
  intro tree
  obtain ⟨moved, alike⟩ := shadows tree
  refine ⟨moved, fun granted => ?_⟩
  rw [run_ignore, run_ignore, alike granted]

theorem takePage (failed : Status) : Shadows moves clear (TreeM.takePage failed) := by
  refine read (fun tree => hearing.bind (hearing.update (fun _ => rfl) fun _ => rfl) fun _ => ?_) fun _ _ => rfl
  split
  · exact hearing.fail _
  · simp only
    split
    · exact hearing.bind (hearing.update (fun _ => rfl) fun _ => rfl) fun _ => hearing.pure _
    · exact hearing.pure _

/-- What is to be shown of a sink is what it does with an event. -/
theorem rules [BTreeWalSink ω] (notify : ∀ event, event.structural = true → Shadows moves clear (TreeM.notify event)) :
    Rules (fun _ => True) (fun _ _ => True) (fun _ _ => True) (Shadows moves clear) where
  toClosed := closed_true
  pure := hearing.pure
  fail := hearing.fail
  bind := hearing.bind
  read := read
  update change few blind := hearing.update (fun tree => blind tree none) fun tree => by
    obtain ⟨rootId, height, same⟩ := few tree
    rw [same]
  leaf id next each := hearing.bind (hearing.leaf id) fun node => each node trivial
  internal id next each := hearing.bind (hearing.internal id) fun node => each node trivial
  onLeaf id change _ := hearing.bind (hearing.leaf id) fun _ =>
    hearing.bind (hearing.update (fun _ => rfl) fun _ => rfl) fun _ => hearing.check _
  onInternal id change _ := hearing.bind (hearing.internal id) fun _ =>
    hearing.bind (hearing.update (fun _ => rfl) fun _ => rfl) fun _ => hearing.check _
  allocateLeaf level := by
    refine hearing.bind (hearing.takePage _) fun id => read (fun tree => ?_) fun _ _ => rfl
    split
    · exact hearing.fail _
    · exact hearing.bind (hearing.update (fun _ => rfl) fun _ => rfl) fun _ =>
        hearing.bind (notify _ rfl) fun _ => hearing.pure _
  allocateInternal level := by
    refine hearing.bind (hearing.takePage _) fun id => read (fun tree => ?_) fun _ _ => rfl
    split
    · exact hearing.fail _
    · exact hearing.bind (hearing.update (fun _ => rfl) fun _ => rfl) fun _ =>
        hearing.bind (notify _ rfl) fun _ => hearing.pure _
  releaseNode id := by
    refine hearing.bind (ignore (notify _ rfl)) fun _ => ?_
    refine hearing.bind (hearing.update (fun tree => ?_) fun tree => ?_) fun _ => hearing.update (fun _ => rfl) fun _ => rfl
    · by_cases leaf : id ∈ tree.leaves
      · simp [BTree.silenced, leaf]
      · by_cases internal : id ∈ tree.internals <;> simp [BTree.silenced, leaf, internal]
    · split
      · rfl
      · split <;> rfl
  notify := notify

/-- Every call shadows when every event does. -/
theorem perform [BTreeWalSink ω] (notify : ∀ event, Shadows moves clear (TreeM.notify event)) (call : TreeCall) :
    Shadows moves clear (call.perform : TreeM ω Unit) :=
  (hearing.rules fun event _ => notify event).perform (fun _ => hearing.update (fun _ => rfl) fun _ => rfl) notify call trivial

end Hearing

/-! ### One event -/

namespace BTree

variable [BTreeWalSink ω] {tree : BTree ω}

def Accepts (tree : BTree ω) (event : TreeEvent) : Prop :=
  ∀ sink, tree.walSink = some sink → (BTreeWalSink.notify sink event).1.ok = true

def told (tree : BTree ω) (event : TreeEvent) : BTree ω :=
  { tree with walSink := tree.walSink.map fun sink => (BTreeWalSink.notify sink event).2 }

theorem notify_accepted {event : TreeEvent} (accepts : tree.Accepts event) :
    (notify event).run tree = (.ok (), tree.told event) := by
  cases heard : tree.walSink with
  | none => rw [notify_silent heard, told, heard, Option.map_none, ← heard]
  | some sink => rw [notify_heard heard, if_pos (accepts sink heard), told, heard, Option.map_some]

theorem notify_refused {event : TreeEvent} (refuses : ¬ tree.Accepts event) :
    ∃ status, (notify event).run tree = (.error (.status status), tree.told event) := by
  obtain ⟨sink, refuses⟩ := not_forall.mp refuses
  obtain ⟨heard, refused⟩ := Classical.not_imp.mp refuses
  exact ⟨_, by rw [notify_heard heard, if_neg refused, told, heard, Option.map_some]⟩

end BTree

/-! ### Sinks that refuse nothing -/

section Obliging

variable [BTreeWalSink ω]

/-- The sink accepts every event, whatever it has been told before. -/
def Obliging (sink : ω) : Prop :=
  ∀ told event, (BTreeWalSink.notify (Runs.after (fun sink event => (BTreeWalSink.notify sink event).2) sink told) event).1.ok

theorem Obliging.accepts {sink : ω} (obliging : Obliging sink) (event : TreeEvent) :
    (BTreeWalSink.notify sink event).1.ok = true := obliging [] event

theorem Obliging.after {sink : ω} (obliging : Obliging sink) (event : TreeEvent) :
    Obliging (BTreeWalSink.notify sink event).2 := fun told => obliging (event :: told)

def BTree.Unrefused (tree : BTree ω) : Prop := ∀ sink, tree.walSink = some sink → Obliging sink

theorem obliging_hearing :
    Hearing (fun tree after : BTree ω => tree.Unrefused → after.Unrefused) (fun tree _ => tree.Unrefused) where
  refl same unrefused sink heard := unrefused sink (same ▸ heard)
  trans first second unrefused := second (first unrefused)
  front _ _ unrefused := unrefused
  back first _ unrefused := first unrefused

theorem obliging_notify (event : TreeEvent) :
    Shadows (fun tree after : BTree ω => tree.Unrefused → after.Unrefused) (fun tree _ => tree.Unrefused) (notify event) := by
  intro tree
  cases heard : tree.walSink with
  | none =>
    rw [BTree.notify_silent heard, BTree.notify_silent rfl]
    exact ⟨id, fun _ => rfl⟩
  | some sink =>
    rw [notify_heard heard, BTree.notify_silent rfl]
    refine ⟨fun unrefused other same => ?_, fun unrefused => ?_⟩
    · cases same
      exact (unrefused sink heard).after event
    · rw [if_pos ((unrefused sink heard).accepts event)]
      rfl

/-- With a sink that refuses nothing a call ends as it does without one. -/
theorem TreeCall.perform_unrefused {tree : BTree ω} (unrefused : tree.Unrefused) (call : TreeCall) :
    call.perform.run tree.silenced = ((call.perform.run tree).1, (call.step tree).silenced) :=
  (obliging_hearing.perform obliging_notify call tree).2 unrefused

end Obliging
end Quartz.Btree
