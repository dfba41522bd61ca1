import Mathlib.Order.Basic
import Mathlib.Tactic.Common

/-! Loops that read at a position: when each round that goes on has read below a limit and moves the position up by at
least a width, the loop is left, after no more reads than there are widths below the limit. -/

/-- A loop by its rounds: a round leaves the loop with a result or goes on from a new state. -/
structure Scan (σ ρ : Type*) where
  round : σ → ρ ⊕ σ
  /-- How often the round reads. -/
  reads : σ → Nat

namespace Scan

variable {σ ρ : Type*} {scan : Scan σ ρ}

/-- From the state the loop is left with the result, having read so often. -/
inductive Ends (scan : Scan σ ρ) : σ → Nat → ρ → Prop
  | leaves {state : σ} {result : ρ} (left : scan.round state = .inl result) : Ends scan state (scan.reads state) result
  | goesOn {state next : σ} {count : Nat} {result : ρ} (on : scan.round state = .inr next)
      (later : Ends scan next count result) : Ends scan state (scan.reads state + count) result

/-- The loop is left with the result after at most so many reads. -/
def EndsWithin (scan : Scan σ ρ) (most : Nat) (state : σ) (result : ρ) : Prop := ∃ count ≤ most, scan.Ends state count result

/-- A round reads at most once and only below the limit, and one that goes on moves up. -/
structure Advances (scan : Scan σ ρ) (position limit : σ → Nat) (width : Nat) : Prop where
  once : ∀ state, scan.reads state ≤ 1
  inside : ∀ state, 0 < scan.reads state → position state < limit state
  moves : ∀ {state next}, scan.round state = .inr next → 0 < scan.reads state ∧
    position state + width ≤ position next ∧ limit next = limit state

variable {position limit : σ → Nat} {width : Nat}

theorem Advances.ends (advances : scan.Advances position limit width) (positive : 0 < width) (state : σ) :
    ∃ count result, scan.Ends state count result ∧ count * width < limit state - position state + width := by
  induction left : limit state - position state using Nat.strongRecOn generalizing state with
  | ind room ih =>
    have once := advances.once state
    have inside := advances.inside state
    rcases round : scan.round state with result | next
    · refine ⟨scan.reads state, result, .leaves round, ?_⟩
      rcases Nat.le_one_iff_eq_zero_or_eq_one.mp once with none | one
      · rw [none, Nat.zero_mul]
        omega
      · have := inside (by omega)
        rw [one, Nat.one_mul]
        omega
    · obtain ⟨read, moved, same⟩ := advances.moves round
      have below := inside read
      obtain ⟨count, result, ended, bound⟩ := ih (limit next - position next) (by omega) next rfl
      refine ⟨scan.reads state + count, result, .goesOn round ended, ?_⟩
      have one : scan.reads state = 1 := by omega
      rw [one, Nat.add_mul, Nat.one_mul]
      by_cases past : limit next ≤ position next
      · -- behind the limit nothing is read any more
        have none : count = 0 := by
          by_contra some
          have : width ≤ count * width := Nat.le_mul_of_pos_left _ (Nat.pos_of_ne_zero some)
          omega
        rw [none, Nat.zero_mul]
        omega
      · omega

/-- A function that does the rounds one by one, as long as its fuel lasts, gives the result of the loop. -/
theorem Ends.eq_run {run : Nat → σ → ρ} {state : σ} {count : Nat} {result : ρ} (ended : scan.Ends state count result)
    (advances : scan.Advances position limit width)
    (stops : ∀ state result, scan.round state = .inl result → scan.reads state = 0 → run 0 state = result)
    (unfolds : ∀ fuel state, run (fuel + 1) state = (scan.round state).elim id (run fuel))
    {fuel : Nat} (enough : count ≤ fuel) : run fuel state = result := by
  induction ended generalizing fuel with
  | leaves left =>
    cases fuel with
    | zero => exact stops _ _ left (Nat.le_zero.mp enough)
    | succ fuel => rw [unfolds, left, Sum.elim_inl, id]
  | goesOn on later ih =>
    have read := (advances.moves on).1
    cases fuel with
    | zero => omega
    | succ fuel =>
      rw [unfolds, on, Sum.elim_inr]
      exact ih (by omega)

/-- With a unit of fuel for each position below the limit such a function is the loop. -/
theorem Advances.run_endsWithin (advances : scan.Advances position limit width) (positive : 0 < width) (run : Nat → σ → ρ)
    (stops : ∀ state result, scan.round state = .inl result → scan.reads state = 0 → run 0 state = result)
    (unfolds : ∀ fuel state, run (fuel + 1) state = (scan.round state).elim id (run fuel))
    (state : σ) {fuel : Nat} (enough : limit state - position state ≤ fuel) :
    scan.EndsWithin ((limit state - position state) / width + 1) state (run fuel state) := by
  obtain ⟨count, result, ended, bound⟩ := advances.ends positive state
  have few : count ≤ limit state - position state := by
    by_contra more
    have rest : (limit state - position state) * 1 ≤ (limit state - position state) * width := Nat.mul_le_mul_left _ positive
    have most : (limit state - position state + 1) * width ≤ count * width := Nat.mul_le_mul_right _ (by omega)
    rw [Nat.add_mul] at most
    omega
  rw [ended.eq_run advances stops unfolds (Nat.le_trans few enough)]
  refine ⟨count, ?_, ended⟩
  rw [← Nat.add_div_right _ positive]
  exact (Nat.le_div_iff_mul_le positive).mpr (Nat.le_of_lt bound)

end Scan
