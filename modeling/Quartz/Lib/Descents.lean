import Mathlib.Logic.Relation
import Mathlib.Order.Preorder.Finite
import Mathlib.Order.WellFounded

/-! Walks down along a relation. With finitely many spots to go down from, all walks end
exactly when none comes back to where it was. -/

namespace Descents

open Relation

variable {α : Type*} {down : α → α → Prop} {start : α}

/-- Every walk down from the start comes to an end. -/
def Ends (down : α → α → Prop) (start : α) : Prop := Acc (fun lower upper => down upper lower) start

/-- No walk from the start comes back to where it was. -/
def Acyclic (down : α → α → Prop) (start : α) : Prop := ∀ spot, ReflTransGen down start spot → ¬ TransGen down spot spot

theorem ends_of_steps (each : ∀ next, down start next → Ends down next) : Ends down start := Acc.intro start each

theorem Ends.step (ends : Ends down start) {next : α} (taken : down start next) : Ends down next := Acc.inv ends taken

theorem Ends.reach (ends : Ends down start) {spot : α} (walked : ReflTransGen down start spot) : Ends down spot := by
  induction walked with
  | refl => exact ends
  | tail _ taken ih => exact ih.step taken

/-- Walks may be taken several steps at a time. -/
theorem Ends.induction {motive : α → Prop} (ends : Ends down start)
    (each : ∀ spot, (∀ next, TransGen down spot next → motive next) → motive spot) : motive start := by
  have acc : Acc (TransGen fun lower upper => down upper lower) start := Acc.transGen ends
  clear ends
  induction acc with
  | intro spot _ ih => exact each spot fun next walked => ih next (transGen_swap.mp walked)

theorem Ends.acyclic (ends : Ends down start) : Acyclic down start := by
  intro spot walked
  have each : ∀ spot, (∀ next, TransGen down spot next → ¬ TransGen down next next) → ¬ TransGen down spot spot :=
    fun spot ih round => ih spot round round
  exact (ends.reach walked).induction each

theorem exists_chain (endless : ¬ Ends down start) :
    ∃ walk : ℕ → α, walk 0 = start ∧ ∀ index, down (walk index) (walk (index + 1)) :=
  not_acc_iff_exists_descending_chain.mp endless

variable {walk : ℕ → α}

theorem reach_of_chain (steps : ∀ index, down (walk index) (walk (index + 1))) (index : ℕ) :
    ReflTransGen down (walk 0) (walk index) := by
  induction index with
  | zero => exact .refl
  | succ index ih => exact ih.tail (steps index)

theorem transGen_of_part {first last : ℕ} (earlier : first < last)
    (steps : ∀ index, first ≤ index → index < last → down (walk index) (walk (index + 1))) :
    TransGen down (walk first) (walk last) := by
  induction last, earlier using Nat.le_induction with
  | base => exact .single (steps first (Nat.le_refl _) (Nat.lt_succ_self _))
  | succ last earlier ih =>
    have before := ih fun index after early => steps index after (by omega)
    exact before.tail (steps last (by omega) (Nat.lt_succ_self _))

theorem exists_round {spots : Set α} (finite : spots.Finite) (steps : ∀ index, down (walk index) (walk (index + 1)))
    (inside : ∀ index, walk index ∈ spots) : ∃ index, TransGen down (walk index) (walk index) := by
  obtain ⟨first, second, earlier, same⟩ := Set.Finite.exists_lt_map_eq_of_forall_mem inside finite
  have round := transGen_of_part earlier fun index _ _ => steps index
  exact ⟨first, by rwa [← same] at round⟩

theorem Acyclic.ends {spots : Set α} (finite : spots.Finite) (inside : ∀ spot next, down spot next → spot ∈ spots)
    (acyclic : Acyclic down start) : Ends down start := by
  by_contra endless
  obtain ⟨walk, rfl, steps⟩ := exists_chain endless
  obtain ⟨index, round⟩ := exists_round finite steps fun index => inside _ _ (steps index)
  exact acyclic (walk index) (reach_of_chain steps index) round

end Descents
