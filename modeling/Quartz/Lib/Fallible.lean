import Mathlib.Logic.Basic

/-! Computations on a state that may stop with an error. The state is kept in either case:
what was written before the error stays written. -/

/-- A computation over `σ` that ends in a value or in an error, and in a state. -/
def Fallible (σ ε α : Type) := σ → Except ε α × σ

namespace Fallible

variable {σ ε α β : Type}

def run (computation : Fallible σ ε α) (state : σ) : Except ε α × σ := computation state

instance : Monad (Fallible σ ε) where
  pure value := fun state => (.ok value, state)
  bind first next := fun state =>
    match first state with
    | (.ok value, after) => next value after
    | (.error failure, after) => (.error failure, after)

def fail (failure : ε) : Fallible σ ε α := fun state => (.error failure, state)

def read : Fallible σ ε σ := fun state => (.ok state, state)

def update (change : σ → σ) : Fallible σ ε Unit := fun state => (.ok (), change state)

/-- Goes on whatever the computation ended in. -/
def ignore (computation : Fallible σ ε α) : Fallible σ ε Unit := fun state => (.ok (), (computation state).2)

/-- What has succeeded in two steps. -/
theorem except_bind_ok {first : Except ε α} {next : α → Except ε β} {result : β} (done : first >>= next = .ok result) :
    ∃ value, first = .ok value ∧ next value = .ok result := by
  cases first with
  | error failure => cases done
  | ok value => exact ⟨value, rfl, done⟩

section Run

variable {state after : σ}

@[simp] theorem run_pure (value : α) : (pure value : Fallible σ ε α).run state = (.ok value, state) := rfl

@[simp] theorem run_fail (failure : ε) : (fail failure : Fallible σ ε α).run state = (.error failure, state) := rfl

@[simp] theorem run_read : (read : Fallible σ ε σ).run state = (.ok state, state) := rfl

@[simp] theorem run_update (change : σ → σ) :
    (update change : Fallible σ ε Unit).run state = (.ok (), change state) := rfl

@[simp] theorem run_ignore (computation : Fallible σ ε α) :
    computation.ignore.run state = (.ok (), (computation.run state).2) := rfl

theorem run_bind (first : Fallible σ ε α) (next : α → Fallible σ ε β) :
    (first >>= next).run state =
      match first.run state with
      | (.ok value, after) => (next value).run after
      | (.error failure, after) => (.error failure, after) := rfl

theorem run_bind_ok {first : Fallible σ ε α} {next : α → Fallible σ ε β} {value : α}
    (done : first.run state = (.ok value, after)) : (first >>= next).run state = (next value).run after := by
  rw [run_bind, done]

theorem run_bind_error {first : Fallible σ ε α} {next : α → Fallible σ ε β} {failure : ε}
    (stopped : first.run state = (.error failure, after)) : (first >>= next).run state = (.error failure, after) := by
  rw [run_bind, stopped]

/-- A sequence ends well only through both of its parts. -/
theorem bind_ok {first : Fallible σ ε α} {next : α → Fallible σ ε β} {result : β}
    (done : (first >>= next).run state = (.ok result, after)) :
    ∃ value middle, first.run state = (.ok value, middle) ∧ (next value).run middle = (.ok result, after) := by
  rw [run_bind] at done
  split at done
  next value middle begun => exact ⟨value, middle, begun, done⟩
  next => cases done

theorem bind_assoc {γ : Type} (first : Fallible σ ε α) (middle : α → Fallible σ ε β) (last : β → Fallible σ ε γ) :
    first >>= middle >>= last = first >>= fun value => middle value >>= last := by
  funext state
  change (first >>= middle >>= last).run state = (first >>= fun value => middle value >>= last).run state
  rw [run_bind, run_bind, run_bind]
  rcases first.run state with ⟨failure | value, after⟩ <;> rfl

instance : LawfulMonad (Fallible σ ε) := by
  refine LawfulMonad.mk' _ (fun computation => ?_) (fun _ _ => rfl) bind_assoc
  funext state
  change (computation >>= fun value => pure value).run state = computation.run state
  rw [run_bind]
  rcases computation.run state with ⟨failure | value, after⟩ <;> rfl

end Run

/-- From a state of `pre`, a value is returned under `post` and an error is raised under `failed`. -/
def Spec (pre : σ → Prop) (computation : Fallible σ ε α) (post : α → σ → Prop) (failed : ε → σ → Prop) : Prop :=
  ∀ state, pre state →
    match computation.run state with
    | (.ok value, after) => post value after
    | (.error failure, after) => failed failure after

/-- The computation ends in the invariant, with or without an error. -/
def Keeps (invariant : σ → Prop) (computation : Fallible σ ε α) : Prop :=
  Spec invariant computation (fun _ => invariant) (fun _ => invariant)

section Rules

variable {pre : σ → Prop} {post : α → σ → Prop} {final : β → σ → Prop} {failed : ε → σ → Prop} {invariant : σ → Prop}

theorem spec_pure {value : α} (holds : ∀ state, pre state → post value state) :
    Spec pre (pure value : Fallible σ ε α) post failed := holds

theorem spec_fail {failure : ε} (holds : ∀ state, pre state → failed failure state) :
    Spec pre (fail failure : Fallible σ ε α) post failed := holds

theorem spec_bind {first : Fallible σ ε α} {next : α → Fallible σ ε β} (begins : Spec pre first post failed)
    (continues : ∀ value, Spec (post value) (next value) final failed) : Spec pre (first >>= next) final failed := by
  intro state holds
  have begun := begins state holds
  rw [run_bind]
  rcases ended : first.run state with ⟨failure | value, middle⟩ <;> rw [ended] at begun
  · exact begun
  · exact continues value middle begun

theorem spec_read : Spec pre (read : Fallible σ ε σ) (fun _ => pre) failed := fun _ holds => holds

theorem spec_update {change : σ → σ} {post : Unit → σ → Prop} (holds : ∀ state, pre state → post () (change state)) :
    Spec pre (update change : Fallible σ ε Unit) post failed := holds

theorem Spec.weaken {computation : Fallible σ ε α} {post' : α → σ → Prop} (holds : Spec pre computation post failed)
    (weaker : ∀ value state, post value state → post' value state) : Spec pre computation post' failed := by
  intro state start
  have kept := holds state start
  rcases ended : computation.run state with ⟨failure | value, after⟩ <;> rw [ended] at kept
  · exact kept
  · exact weaker value after kept

theorem Keeps.run {computation : Fallible σ ε α} (keeps : Keeps invariant computation) {state : σ}
    (holds : invariant state) : invariant (computation.run state).2 := by
  have kept := keeps state holds
  rcases ended : computation.run state with ⟨failure | value, after⟩ <;> rw [ended] at kept <;> exact kept

theorem keeps_of_run {computation : Fallible σ ε α} (kept : ∀ state, invariant state → invariant (computation.run state).2) :
    Keeps invariant computation := by
  intro state holds
  have after := kept state holds
  rcases ended : computation.run state with ⟨failure | value, final⟩ <;> rw [ended] at after <;> exact after

theorem keeps_pure (value : α) : Keeps invariant (pure value : Fallible σ ε α) := fun _ holds => holds

theorem keeps_fail (failure : ε) : Keeps invariant (fail failure : Fallible σ ε α) := fun _ holds => holds

theorem keeps_read : Keeps invariant (read : Fallible σ ε σ) := fun _ holds => holds

theorem keeps_bind {first : Fallible σ ε α} {next : α → Fallible σ ε β} (begins : Keeps invariant first)
    (continues : ∀ value, Keeps invariant (next value)) : Keeps invariant (first >>= next) :=
  spec_bind begins continues

theorem keeps_update {change : σ → σ} (keeps : ∀ state, invariant state → invariant (change state)) :
    Keeps invariant (update change : Fallible σ ε Unit) := keeps

end Rules
end Fallible
