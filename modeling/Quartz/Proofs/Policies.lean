import Quartz.Proofs.Extents

/-! The allocation policies. Each of them finds a free extent that is long enough whenever there is
one, and hands out a part of it. -/

namespace Quartz.Space
open Storage

namespace AllocationPolicy
open FreeSpaceMap

variable {map : FreeSpaceMap} {length : UInt32} {fits : Extent → Prop} {extent : Extent}

/-- The answer to a request of this length from the free extents that fit. -/
inductive Answers (map : FreeSpaceMap) (length : UInt32) (fits : Extent → Prop) : Extent → Prop
  | missing (none : ∀ current ∈ map.extents, ¬ fits current) : Answers map length fits {}
  | found {extent current : Extent} (member : current ∈ map.extents) (fit : fits current)
      (exact : extent.length = length) (within : extent.Within current) : Answers map length fits extent

theorem Answers.isValid_iff (answers : Answers map length fits extent) (spaced : Spaced map.extents)
    (positive : 0 < length.toNat) : extent.isValid = true ↔ ∃ current ∈ map.extents, fits current := by
  cases answers with
  | missing none =>
    refine iff_of_false (by decide) ?_
    rintro ⟨current, member, fit⟩
    exact none current member fit
  | found member fit exact within =>
    refine iff_of_true ?_ ⟨_, member, fit⟩
    exact ((spaced.proper _ member).of_within (by rw [exact]; exact positive) within).isValid

theorem Answers.inside (answers : Answers map length fits extent) (valid : extent.isValid = true) :
    extent.length = length ∧ ∃ current ∈ map.extents, extent.Within current := by
  cases answers with
  | missing => cases valid
  | found member fit exact within => exact ⟨exact, _, member, within⟩

theorem front_within {current : Extent} (enough : length ≤ current.length) :
    Extent.Within ⟨current.start, length⟩ current := by
  rw [UInt32.le_iff_toNat_le] at enough
  exact ⟨Nat.le_refl _, by simp only [Extent.limit]; omega⟩

theorem back_within {current : Extent} (proper : current.Proper) (enough : length ≤ current.length) :
    Extent.Within ⟨current.start + (current.length - length), length⟩ current := by
  have small := proper.small
  rw [UInt32.le_iff_toNat_le] at enough
  have start : (current.start + (current.length - length)).toNat =
      current.start.toNat + (current.length.toNat - length.toNat) := by
    rw [UInt32.toNat_add, UInt32.toNat_sub_of_le _ _ (UInt32.le_iff_toNat_le.mpr enough)]
    exact Nat.mod_eq_of_lt (by simp only [Extent.limit] at small; omega)
  simp only [Extent.Within, Extent.limit, start]
  omega

theorem length_ne_zero (positive : 0 < length.toNat) : (length == 0) = false := by
  rw [beq_eq_false_iff_ne]
  rintro rfl
  exact absurd positive (by decide)

/-- The search through the extents, in one direction or the other. -/
theorem findFreeRange_eq (positive : 0 < length.toNat) (preferBeginning : Bool) :
    map.findFreeRange length preferBeginning =
      if preferBeginning then
        match map.extents.find? (fun extent => decide (extent.length ≥ length)) with
        | some extent => ⟨extent.start, length⟩
        | none => {}
      else
        match map.extents.reverse.find? (fun extent => decide (extent.length ≥ length)) with
        | some extent => ⟨extent.start + (extent.length - length), length⟩
        | none => {} := by
  rw [findFreeRange, length_ne_zero positive, Bool.or_false]
  cases empty : map.extents.isEmpty with
  | false => rfl
  | true =>
    rw [List.isEmpty_iff.mp empty]
    cases preferBeginning <;> rfl

theorem answers_findFreeRange (spaced : Spaced map.extents) (positive : 0 < length.toNat) (preferBeginning : Bool) :
    Answers map length (fun current => length ≤ current.length) (map.findFreeRange length preferBeginning) := by
  rw [findFreeRange_eq positive]
  cases preferBeginning with
  | true =>
    cases found : map.extents.find? (fun extent => decide (extent.length ≥ length)) with
    | none => exact .missing (by simpa using found)
    | some current =>
      have enough : length ≤ current.length := by simpa using List.find?_some found
      exact .found (List.mem_of_find?_eq_some found) enough rfl (front_within enough)
  | false =>
    cases found : map.extents.reverse.find? (fun extent => decide (extent.length ≥ length)) with
    | none => exact .missing (by simpa using found)
    | some current =>
      have member := List.mem_reverse.mp (List.mem_of_find?_eq_some found)
      have enough : length ≤ current.length := by simpa using List.find?_some found
      exact .found member enough rfl (back_within (spaced.proper current member) enough)

theorem findFreeRange_lowest (spaced : Spaced map.extents) (positive : 0 < length.toNat) {current : Extent}
    (member : current ∈ map.extents) (enough : length ≤ current.length)
    (lowest : ∀ other ∈ map.extents, length ≤ other.length → current.start ≤ other.start) :
    map.findFreeRange length true = ⟨current.start, length⟩ := by
  rw [findFreeRange_eq positive, if_pos rfl]
  cases found : map.extents.find? (fun extent => decide (extent.length ≥ length)) with
  | none => exact absurd enough (by simpa using List.find?_eq_none.mp found current member)
  | some first =>
    obtain ⟨fit, before, after, split, shorter⟩ := List.find?_eq_some_iff_append.mp found
    have low := lowest first (List.mem_of_find?_eq_some found) (by simpa using fit)
    rw [split] at member spaced
    rw [UInt32.le_iff_toNat_le] at low
    have same : first.start = current.start := by
      rcases List.mem_append.mp member with earlier | later
      · exact absurd enough (by simpa using shorter current earlier)
      · rcases List.mem_cons.mp later with rfl | behind
        · rfl
        · have gap := (spaced_cons.mp (spaced_append.mp spaced).2.1).2.2 current behind
          simp only [Extent.limit] at gap
          omega
    simp only [same]

theorem answers_findExactRange : Answers map length (fun current => current.length = length) (map.findExactRange length) := by
  rw [findExactRange]
  cases found : map.extents.find? (fun extent => extent.length == length) with
  | none => exact .missing (by simpa using found)
  | some current =>
    have same : current.length = length := by simpa using List.find?_some found
    exact .found (List.mem_of_find?_eq_some found) same same ⟨Nat.le_refl _, Nat.le_refl _⟩

theorem best_cases {found : Option Extent} {extents : List Extent} (enough : ∀ current ∈ found, length ≤ current.length) :
    (best length found extents = none ∧ found = none ∧ ∀ current ∈ extents, ¬ length ≤ current.length) ∨
    ∃ current, best length found extents = some current ∧ (found = some current ∨ current ∈ extents) ∧
      length ≤ current.length ∧ ∀ other, found = some other ∨ other ∈ extents → length ≤ other.length →
        current.length ≤ other.length := by
  induction extents generalizing found with
  | nil =>
    cases found with
    | none => exact .inl ⟨rfl, rfl, by simp⟩
    | some current =>
      refine .inr ⟨current, rfl, .inl rfl, enough current rfl, ?_⟩
      rintro other (same | member) -
      · rw [Option.some.inj same]
        exact UInt32.le_refl _
      · cases member
  | cons next rest ih =>
    rw [best]
    split
    next better =>
      simp only [Bool.and_eq_true, decide_eq_true_eq, Option.all_eq_true] at better
      obtain ⟨long, shorter⟩ := better
      rcases @ih (some next) (fun current same => by rw [← Option.some.inj same]; exact long) with ⟨-, impossible, -⟩ | chosen
      · cases impossible
      · obtain ⟨current, result, place, fit, least⟩ := chosen
        refine .inr ⟨current, result, .inr ?_, fit, ?_⟩
        · rcases place with same | member
          · rw [Option.some.inj same]
            exact List.mem_cons_self
          · exact List.mem_cons_of_mem _ member
        · rintro other (same | member) otherFit
          · exact UInt32.le_trans (least next (.inl rfl) long) (UInt32.le_of_lt (shorter other same))
          · rcases List.mem_cons.mp member with rfl | inRest
            · exact least other (.inl rfl) otherFit
            · exact least other (.inr inRest) otherFit
    next worse =>
      rcases ih enough with ⟨result, none, short⟩ | ⟨current, result, place, fit, least⟩
      · refine .inl ⟨result, none, ?_⟩
        subst none
        simp only [Option.all_none, Bool.and_true, decide_eq_true_eq] at worse
        exact List.forall_mem_cons.mpr ⟨worse, short⟩
      · refine .inr ⟨current, result, place.imp_right (List.mem_cons_of_mem _), fit, ?_⟩
        rintro other (same | member) otherFit
        · exact least other (.inl same) otherFit
        rcases List.mem_cons.mp member with rfl | inRest
        · -- an extent that is passed by is no shorter than the one kept so far
          simp only [Bool.and_eq_true, decide_eq_true_eq, Option.all_eq_true, otherFit, true_and, not_forall] at worse
          obtain ⟨smallest, kept, longer⟩ := worse
          exact UInt32.le_trans (least smallest (.inl kept) (enough smallest kept)) (UInt32.not_lt.mp longer)
        · exact least other (.inr inRest) otherFit

theorem answers_findBestRange : Answers map length (fun current => length ≤ current.length) (map.findBestRange length) := by
  rw [findBestRange]
  rcases @best_cases length none map.extents (by simp) with ⟨none, -, short⟩ | ⟨current, some, place, fit, -⟩
  · rw [none]
    exact .missing short
  · rw [some]
    exact .found (place.resolve_left (by simp)) fit rfl (front_within fit)

theorem findBestRange_least (valid : (map.findBestRange length).isValid = true) :
    ∃ current ∈ map.extents, length ≤ current.length ∧ (map.findBestRange length).start = current.start ∧
      ∀ other ∈ map.extents, length ≤ other.length → current.length ≤ other.length := by
  rw [findBestRange] at valid ⊢
  rcases @best_cases length none map.extents (by simp) with ⟨none, -, -⟩ | ⟨current, some, place, fit, least⟩
  · rw [none] at valid
    cases valid
  · rw [some]
    exact ⟨current, place.resolve_left (by simp), fit, rfl, fun other member => least other (.inr member)⟩

theorem answers_sequential (cursor : PageId) :
    Answers map length (fun current => length ≤ current.length) (sequentialAllocate cursor map length).1 := by
  simp only [sequentialAllocate]
  generalize (if _ = map.extents.length then 0 else _ : Nat) = first
  have members : ∀ current, current ∈ map.extents.drop first ++ map.extents.take first ↔ current ∈ map.extents := by
    intro current
    rw [List.mem_append, or_comm, ← List.mem_append, List.take_append_drop]
  cases found : (map.extents.drop first ++ map.extents.take first).find? (fun extent => decide (extent.length ≥ length)) with
  | none =>
    refine .missing fun current member => ?_
    simpa using List.find?_eq_none.mp found current ((members current).mpr member)
  | some current =>
    have enough : length ≤ current.length := by simpa using List.find?_some found
    exact .found ((members current).mp (List.mem_of_find?_eq_some found)) enough rfl (front_within enough)

def Fits (policy : AllocationPolicy) (hints : AllocationHints) (length : UInt32) (extent : Extent) : Prop :=
  match policy with
  | .sequential _ => length ≤ extent.length
  | _ => if hints.exactFit then extent.length = length else length ≤ extent.length

/-- Every policy finds an extent that fits when there is one. -/
theorem allocate_answers (policy : AllocationPolicy) (spaced : Spaced map.extents) (positive : 0 < length.toNat)
    (hints : AllocationHints) : Answers map length (policy.Fits hints length) (policy.allocate map length hints).1 := by
  cases policy with
  | sequential cursor => exact answers_sequential cursor
  | firstFit =>
    simp only [allocate, firstFitAllocate]
    cases exactly : hints.exactFit with
    | true =>
      have fits : firstFit.Fits hints length = fun current => current.length = length := by simp [funext_iff, Fits, exactly]
      rw [fits]
      exact answers_findExactRange
    | false =>
      have fits : firstFit.Fits hints length = fun current => length ≤ current.length := by simp [funext_iff, Fits, exactly]
      rw [fits]
      simp only [if_false_true]
      split <;> exact answers_findFreeRange spaced positive _
  | bestFit =>
    simp only [allocate, bestFitAllocate]
    cases exactly : hints.exactFit with
    | true =>
      have fits : bestFit.Fits hints length = fun current => current.length = length := by simp [funext_iff, Fits, exactly]
      rw [fits]
      exact answers_findExactRange
    | false =>
      have fits : bestFit.Fits hints length = fun current => length ≤ current.length := by simp [funext_iff, Fits, exactly]
      rw [fits]
      simp only [if_false_true]
      split
      · split
        · exact answers_findBestRange
        · exact answers_findFreeRange spaced positive _
      · exact answers_findFreeRange spaced positive _

/-- What the policies promise. -/
theorem allocation_policies_complete (map : FreeSpaceMap) (spaced : Spaced map.extents) (length : UInt32) (positive : 1 ≤ length)
    (hints : AllocationHints) (policy : AllocationPolicy) :
    ((policy.allocate map length hints).1.isValid = true ↔ ∃ current ∈ map.extents, policy.Fits hints length current) ∧
      ((policy.allocate map length hints).1.isValid = true → (policy.allocate map length hints).1.length = length ∧
        ∃ current ∈ map.extents, (policy.allocate map length hints).1.Within current) ∧
      (policy = .firstFit → hints.exactFit = false → hints.preferEnd = false → ∀ current ∈ map.extents,
        length ≤ current.length → (∀ other ∈ map.extents, length ≤ other.length → current.start ≤ other.start) →
        (policy.allocate map length hints).1 = ⟨current.start, length⟩) ∧
      (policy = .bestFit → hints.exactFit = false → (1 < length ∨ hints.preferContiguous = true) →
        (policy.allocate map length hints).1.isValid = true → ∃ current ∈ map.extents, length ≤ current.length ∧
          (policy.allocate map length hints).1.start = current.start ∧
          ∀ other ∈ map.extents, length ≤ other.length → current.length ≤ other.length) := by
  have positive : 0 < length.toNat := UInt32.le_iff_toNat_le.mp positive
  have answers := allocate_answers policy spaced positive hints
  refine ⟨answers.isValid_iff spaced positive, answers.inside, ?_, ?_⟩
  · rintro rfl inexact forward current member enough lowest
    have found := findFreeRange_lowest spaced positive member enough lowest
    simp only [allocate, firstFitAllocate, inexact, forward, Bool.not_false, if_false_true, found, ite_self]
  · rintro rfl inexact contiguous valid
    have asked : (hints.preferContiguous || decide (length > 1)) = true := by simpa [or_comm] using contiguous
    have exists_fit := (answers.isValid_iff spaced positive).mp valid
    have chosen : (map.findBestRange length).isValid = true := by
      refine (answers_findBestRange.isValid_iff spaced positive).mpr ?_
      simpa [Fits, inexact] using exists_fit
    simp only [allocate, bestFitAllocate, inexact, asked, chosen, if_false_true, if_true]
    exact findBestRange_least chosen

/-- Seven pages from the second of three free extents. -/
theorem allocation_policies_complete_middle :
    Spaced [⟨8, 3⟩, ⟨20, 9⟩, ⟨40, 20⟩] ∧
      (allocate .bestFit ⟨[⟨8, 3⟩, ⟨20, 9⟩, ⟨40, 20⟩]⟩ 7 {}).1.isValid = true := by
  have spaced : Spaced [⟨8, 3⟩, ⟨20, 9⟩, ⟨40, 20⟩] := by decide
  refine ⟨spaced, (allocation_policies_complete ⟨_⟩ spaced 7 (by decide) {} .bestFit).1.mpr ⟨⟨20, 9⟩, by simp, ?_⟩⟩
  show (7 : UInt32) ≤ 9
  decide

end AllocationPolicy
end Quartz.Space
