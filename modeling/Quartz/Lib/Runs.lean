import Mathlib.Data.List.Infix

/-! Runs of a deterministic machine over a list of inputs: what holds in every state
of a run, what holds at every step of it, and how the first follows from the second. -/

namespace Runs

variable {σ : Type*} {ι : Type*}

def after (step : σ → ι → σ) (start : σ) (inputs : List ι) : σ := inputs.foldl step start

@[simp] theorem after_nil (step : σ → ι → σ) (start : σ) : after step start [] = start := rfl

@[simp] theorem after_cons (step : σ → ι → σ) (start : σ) (input : ι) (rest : List ι) :
    after step start (input :: rest) = after step (step start input) rest := rfl

theorem after_append (step : σ → ι → σ) (start : σ) (first second : List ι) :
    after step start (first ++ second) = after step (after step start first) second :=
  List.foldl_append

/-- The property holds in every state the run passes through, the first and the last included. -/
def Always (step : σ → ι → σ) (property : σ → Prop) (start : σ) (inputs : List ι) : Prop :=
  ∀ done, done <+: inputs → property (after step start done)

/-- The condition holds of every input in the state it arrives in. -/
def AtEachStep (step : σ → ι → σ) (condition : σ → ι → Prop) (start : σ) (inputs : List ι) : Prop :=
  ∀ done next, done ++ [next] <+: inputs → condition (after step start done) next

variable {step : σ → ι → σ} {property : σ → Prop} {condition : σ → ι → Prop} {start : σ}

@[simp] theorem always_nil : Always step property start [] ↔ property start := by
  simp [Always]

@[simp] theorem always_cons {input : ι} {rest : List ι} :
    Always step property start (input :: rest) ↔
      property start ∧ Always step property (step start input) rest := by
  constructor
  · intro holds
    refine ⟨holds [] (List.nil_prefix), fun done inside => ?_⟩
    exact holds (input :: done) ((List.prefix_cons_inj input).mpr inside)
  · rintro ⟨first, later⟩ done inside
    rcases List.prefix_cons_iff.mp inside with rfl | ⟨tail, rfl, rest⟩
    · exact first
    · exact later tail rest

@[simp] theorem atEachStep_nil : AtEachStep step condition start [] := by
  intro done next inside
  simp at inside

@[simp] theorem atEachStep_cons {input : ι} {rest : List ι} :
    AtEachStep step condition start (input :: rest) ↔
      condition start input ∧ AtEachStep step condition (step start input) rest := by
  constructor
  · intro holds
    refine ⟨holds [] input ⟨rest, rfl⟩, fun done next inside => ?_⟩
    exact holds (input :: done) next ((List.prefix_cons_inj input).mpr inside)
  · rintro ⟨first, later⟩ done next inside
    cases done with
    | nil =>
      obtain rfl : next = input := ((List.cons_prefix_cons.mp inside).1)
      exact first
    | cons head tail =>
      obtain ⟨rfl, rest⟩ := List.cons_prefix_cons.mp inside
      exact later tail next rest

theorem atEachStep_concat {inputs : List ι} {input : ι} :
    AtEachStep step condition start (inputs ++ [input]) ↔
      AtEachStep step condition start inputs ∧ condition (after step start inputs) input := by
  constructor
  · intro holds
    exact ⟨fun done next inside => holds done next (inside.trans (List.prefix_append _ _)),
      holds inputs input (List.prefix_refl _)⟩
  · rintro ⟨before, last⟩ done next inside
    rcases List.prefix_concat_iff.mp inside with whole | inside
    · obtain ⟨rfl, same⟩ := List.append_inj' whole rfl
      obtain rfl := List.singleton_inj.mp same
      exact last
    · exact before done next inside

theorem atEachStep_of_forall {inputs : List ι} (each : ∀ input ∈ inputs, ∀ state, condition state input) :
    AtEachStep step condition start inputs :=
  fun _ next inside => each next (inside.subset (by simp)) _

instance Always.decidable [DecidablePred property] :
    (start : σ) → (inputs : List ι) → Decidable (Always step property start inputs)
  | start, [] => decidable_of_iff (property start) always_nil.symm
  | start, input :: rest =>
    have := Always.decidable (step start input) rest
    decidable_of_iff (property start ∧ Always step property (step start input) rest) always_cons.symm

instance AtEachStep.decidable [∀ state input, Decidable (condition state input)] :
    (start : σ) → (inputs : List ι) → Decidable (AtEachStep step condition start inputs)
  | _, [] => isTrue atEachStep_nil
  | start, input :: rest =>
    have := AtEachStep.decidable (step start input) rest
    decidable_of_iff (condition start input ∧ AtEachStep step condition (step start input) rest)
      atEachStep_cons.symm

theorem Always.head {inputs : List ι} (holds : Always step property start inputs) : property start :=
  holds [] List.nil_prefix

theorem Always.last {inputs : List ι} (holds : Always step property start inputs) :
    property (after step start inputs) :=
  holds inputs (List.prefix_refl inputs)

theorem Always.atEachStep {inputs : List ι} (holds : Always step property start inputs)
    (implies : ∀ state input, property state → condition state input) : AtEachStep step condition start inputs :=
  fun done _ inside => implies _ _ (holds done ((List.prefix_append done _).trans inside))

theorem atEachStep_true (start : σ) (inputs : List ι) : AtEachStep step (fun _ _ => True) start inputs :=
  fun _ _ _ => trivial

/-- An invariant of the allowed steps holds in every state of a run of allowed steps. -/
theorem always_of_invariant (keeps : ∀ state input, property state → condition state input →
      property (step state input))
    {inputs : List ι} (initial : property start) (allowed : AtEachStep step condition start inputs) :
    Always step property start inputs := by
  induction inputs generalizing start with
  | nil => exact always_nil.mpr initial
  | cons input rest ih =>
    obtain ⟨now, later⟩ := atEachStep_cons.mp allowed
    exact always_cons.mpr ⟨initial, ih (keeps start input initial now) later⟩

/-- What every accepted step brings about holds at the end of a run that is not empty, and what a state holds comes
from the inputs. -/
theorem after_accepted {κ : Type*} {shaped : σ → Prop} (written : σ → Prop) (items : σ → List κ) {brought : ι → List κ}
    (works : ∀ state input, shaped state → condition state input → shaped (step state input) ∧ written (step state input) ∧
      ∀ item ∈ items (step state input), item ∈ items state ∨ item ∈ brought input)
    {inputs : List ι} (some : inputs ≠ []) (begun : shaped start) (bare : items start = []) {known : κ → Prop}
    (each : ∀ input ∈ inputs, ∀ item ∈ brought input, known item) (accepted : AtEachStep step condition start inputs) :
    shaped (after step start inputs) ∧ written (after step start inputs) ∧ ∀ item ∈ items (after step start inputs), known item := by
  obtain ⟨front, last, rfl⟩ := (List.eq_nil_or_concat inputs).resolve_left some
  rw [List.concat_eq_append] at accepted each ⊢
  obtain ⟨before, now⟩ := atEachStep_concat.mp accepted
  have allowed : AtEachStep step (fun state input => condition state input ∧ ∀ item ∈ brought input, known item) start
      front := fun done next inside =>
    ⟨before done next inside, each next (List.mem_append_left _ (inside.subset (by simp)))⟩
  have kept : Always step (fun state => shaped state ∧ ∀ item ∈ items state, known item) start front := by
    refine always_of_invariant ?_ ⟨begun, by simp [bare]⟩ allowed
    rintro state input ⟨fine, old⟩ ⟨legal, new⟩
    obtain ⟨after, -, held⟩ := works state input fine legal
    exact ⟨after, fun item member => (held item member).elim (old item) (new item)⟩
  rw [after_append]
  obtain ⟨after, wrote, held⟩ := works _ last kept.last.1 now
  exact ⟨after, wrote, fun item member => (held item member).elim (kept.last.2 item) (each last (by simp) item)⟩

/-- When an invariant survives exactly the steps that meet a condition, and the property
is lost at the first step that does not, the runs that keep the property are those that
meet the condition throughout. -/
theorem always_iff_atEachStep (invariant : σ → Prop) {allowed : σ → ι → Prop}
    (implies : ∀ state, invariant state → property state)
    (keeps : ∀ state input, invariant state → allowed state input → condition state input →
      invariant (step state input))
    (loses : ∀ state input, invariant state → allowed state input → property (step state input) →
      condition state input)
    {inputs : List ι} (initial : invariant start) (legal : AtEachStep step allowed start inputs) :
    Always step property start inputs ↔ AtEachStep step condition start inputs := by
  induction inputs generalizing start with
  | nil => simp [implies start initial]
  | cons input rest ih =>
    obtain ⟨now, later⟩ := atEachStep_cons.mp legal
    rw [always_cons, atEachStep_cons]
    constructor
    · rintro ⟨_, holds⟩
      have met := loses start input initial now holds.head
      exact ⟨met, (ih (keeps start input initial now met) later).mp holds⟩
    · rintro ⟨met, holds⟩
      exact ⟨implies start initial, (ih (keeps start input initial now met) later).mpr holds⟩

end Runs
