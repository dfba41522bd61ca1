import Mathlib.Algebra.Group.Nat.Defs
import Mathlib.Data.List.Basic

/-! Binary search for the first position at which a predicate stops holding. On a list
that the predicate splits into a front and a back, the search finds the split. -/

namespace Search

variable {α : Type*}

/-- The halving loop over `[low, high)`. Each round narrows the interval, so fuel for its
length is enough. -/
def scan (before : Nat → Bool) : Nat → Nat → Nat → Nat
  | 0, low, _ => low
  | fuel + 1, low, high =>
    if low < high then
      if before (low + (high - low) / 2) then scan before fuel (low + (high - low) / 2 + 1) high
      else scan before fuel low (low + (high - low) / 2)
    else low

def lowerBound (before : α → Bool) (items : List α) : Nat :=
  scan (fun index => items[index]?.any before) items.length 0 items.length

/-- The loop on 64-bit positions. It has no value when a read misses the list or when the loop
has not ended after so many tests of its condition. -/
def wordScan (before : α → Bool) (items : List α) : Nat → UInt64 → UInt64 → Option UInt64
  | 0, _, _ => none
  | rounds + 1, low, high =>
    if low < high then
      match items[(low + (high - low) / 2).toNat]? with
      | none => none
      | some item =>
        if before item then wordScan before items rounds (low + (high - low) / 2 + 1) high
        else wordScan before items rounds low (low + (high - low) / 2)
    else some low

def wordLowerBound (before : α → Bool) (items : List α) (rounds : Nat) : Option UInt64 :=
  wordScan before items rounds 0 (UInt64.ofNat items.length)

theorem scan_splits {before : Nat → Bool} (downward : ∀ i j, i ≤ j → before j = true → before i = true)
    {fuel low high : Nat} (enough : high - low ≤ fuel) (below : ∀ i, i < low → before i = true)
    (above : ∀ i, high ≤ i → before i = false) :
    (∀ i, i < scan before fuel low high → before i = true) ∧
      (∀ i, scan before fuel low high ≤ i → before i = false) := by
  induction fuel generalizing low high with
  | zero => exact ⟨below, fun i past => above i (by simp only [scan] at past; omega)⟩
  | succ fuel ih =>
    rw [scan]
    split
    next narrow =>
      split
      next inFront =>
        refine ih (by omega) (fun i inside => downward i _ ?_ inFront) above
        omega
      next behind =>
        refine ih (by omega) below fun i past => ?_
        cases seen : before i with
        | false => rfl
        | true => exact absurd (downward _ _ past seen) behind
    next closed => exact ⟨below, fun i past => above i (by omega)⟩

theorem lowerBound_append {before : α → Bool} {front back : List α} (inFront : ∀ item ∈ front, before item = true)
    (behind : ∀ item ∈ back, before item = false) : lowerBound before (front ++ back) = front.length := by
  have holds : ∀ i, i < front.length → (front ++ back)[i]?.any before = true := by
    intro i inside
    rw [List.getElem?_append_left inside, List.getElem?_eq_getElem inside]
    exact inFront _ (List.getElem_mem inside)
  have fails : ∀ i, front.length ≤ i → (front ++ back)[i]?.any before = false := by
    intro i past
    rw [List.getElem?_append_right past]
    cases seen : back[i - front.length]? with
    | none => rfl
    | some item => exact behind item (List.mem_of_getElem? seen)
  have downward : ∀ i j : Nat, i ≤ j → (front ++ back)[j]?.any before = true → (front ++ back)[i]?.any before = true := by
    intro i j ordered later
    rcases Nat.lt_or_ge j front.length with inside | past
    · exact holds i (by omega)
    · simp [fails j past] at later
  obtain ⟨below, above⟩ := scan_splits downward (Nat.sub_le (front ++ back).length 0) (by omega)
    (fun i past => by rw [List.getElem?_eq_none past]; rfl)
  rw [← lowerBound] at below above
  rcases Nat.lt_trichotomy (lowerBound before (front ++ back)) front.length with short | same | long
  · simpa [above _ (Nat.le_refl _)] using holds _ short
  · exact same
  · simpa [fails _ (Nat.le_refl _)] using below _ long

/-- The predicate holds of a front of the list and of nothing behind it. -/
def Splits (before : α → Bool) (items : List α) : Prop :=
  items.Pairwise fun first second => before second = true → before first = true

theorem Splits.exists_append {before : α → Bool} {items : List α} (splits : Splits before items) :
    ∃ front back, items = front ++ back ∧ (∀ item ∈ front, before item = true) ∧
      (∀ item ∈ back, before item = false) := by
  induction items with
  | nil => exact ⟨[], [], rfl, by simp, by simp⟩
  | cons item rest ih =>
    obtain ⟨first, later⟩ := List.pairwise_cons.mp splits
    cases seen : before item with
    | false =>
      refine ⟨[], item :: rest, rfl, by simp, ?_⟩
      simp only [List.mem_cons, forall_eq_or_imp, seen, true_and]
      intro other member
      simpa [seen] using first other member
    | true =>
      obtain ⟨front, back, rfl, inFront, behind⟩ := ih later
      exact ⟨item :: front, back, rfl, by simpa [seen] using inFront, behind⟩

theorem Splits.lowerBound_eq_countP {before : α → Bool} {items : List α} (splits : Splits before items) :
    lowerBound before items = items.countP before := by
  obtain ⟨front, back, rfl, inFront, behind⟩ := splits.exists_append
  have all : front.countP before = front.length := List.countP_eq_length.mpr inFront
  have none : back.countP before = 0 := List.countP_eq_zero.mpr fun item member => by simp [behind item member]
  rw [lowerBound_append inFront behind, List.countP_append, all, none, Nat.add_zero]

section Words

theorem toNat_middle {low high : UInt64} (ordered : low.toNat ≤ high.toNat) :
    (low + (high - low) / 2).toNat = low.toNat + (high.toNat - low.toNat) / 2 := by
  have bound := high.toNat_lt
  have gap : (high - low).toNat = high.toNat - low.toNat :=
    UInt64.toNat_sub_of_le _ _ (UInt64.le_iff_toNat_le.mpr ordered)
  have half : (high.toNat - low.toNat) / (2 : UInt64).toNat = (high.toNat - low.toNat) / 2 := rfl
  rw [UInt64.toNat_add, UInt64.toNat_div, gap, half]
  exact Nat.mod_eq_of_lt (by omega)

theorem scan_closed {before : Nat → Bool} {fuel low high : Nat} (closed : ¬ low < high) :
    scan before fuel low high = low := by
  cases fuel with
  | zero => rfl
  | succ fuel => rw [scan, if_neg closed]

/-- A round halves the interval, so one for each bit of its length is enough, and every
position it reads lies inside the list. -/
theorem wordScan_eq {before : α → Bool} {items : List α} {rounds fuel : Nat} {low high : UInt64}
    (ordered : low.toNat ≤ high.toNat) (inside : high.toNat ≤ items.length)
    (enough : high.toNat - low.toNat < 2 ^ rounds) (fueled : high.toNat - low.toNat ≤ fuel) :
    (wordScan before items (rounds + 1) low high).map UInt64.toNat =
      some (scan (fun index => items[index]?.any before) fuel low.toNat high.toNat) := by
  induction rounds generalizing low high fuel with
  | zero =>
    have closed : ¬ low < high := by
      rw [UInt64.lt_iff_toNat_lt]
      omega
    rw [wordScan, if_neg closed, scan_closed (by omega)]
    rfl
  | succ rounds ih =>
    rw [wordScan]
    by_cases narrow : low < high
    · have less := UInt64.lt_iff_toNat_lt.mp narrow
      have middle := toNat_middle ordered
      have read : low.toNat + (high.toNat - low.toNat) / 2 < items.length := by omega
      have past : (low + (high - low) / 2 + 1).toNat = low.toNat + (high.toNat - low.toNat) / 2 + 1 := by
        have bound := high.toNat_lt
        rw [UInt64.toNat_add, middle, UInt64.toNat_one]
        exact Nat.mod_eq_of_lt (by omega)
      rw [Nat.pow_succ] at enough
      obtain _ | fuel := fuel
      · omega
      rw [if_pos narrow, middle, List.getElem?_eq_getElem read, scan, if_pos less, List.getElem?_eq_getElem read]
      simp only [Option.any_some]
      split
      · rw [← past]
        exact ih (by omega) inside (by omega) (by omega)
      · rw [← middle]
        exact ih (by omega) (by omega) (by omega) (by omega)
    · have closed : ¬ low.toNat < high.toNat := fun less => narrow (UInt64.lt_iff_toNat_lt.mpr less)
      rw [if_neg narrow, scan_closed closed]
      rfl

theorem wordLowerBound_eq {items : List α} (small : items.length < 2 ^ 63) (before : α → Bool) {rounds : Nat}
    (enough : 64 ≤ rounds) :
    (wordLowerBound before items rounds).map UInt64.toNat = some (lowerBound before items) := by
  have length : (UInt64.ofNat items.length).toNat = items.length := UInt64.toNat_ofNat_of_lt' (Nat.lt_trans small (by decide))
  have zero : (0 : UInt64).toNat = 0 := rfl
  obtain ⟨more, rfl⟩ := Nat.exists_eq_add_of_le' enough
  have bits : 2 ^ 63 ≤ 2 ^ (more + 63) := Nat.pow_le_pow_right (by decide) (by omega)
  have scanned : (wordScan before items (more + 63 + 1) 0 (UInt64.ofNat items.length)).map UInt64.toNat =
      some (scan (fun index => items[index]?.any before) items.length (0 : UInt64).toNat
        (UInt64.ofNat items.length).toNat) := by
    refine wordScan_eq ?_ ?_ ?_ ?_
    all_goals omega
  rw [length, zero] at scanned
  exact scanned

end Words

end Search
