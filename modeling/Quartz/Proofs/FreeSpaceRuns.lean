import Quartz.Lib.Runs
import Quartz.Proofs.Extents

/-! Runs of a free space map on extents that do not wrap. The extents stay in order with a
page between any two of them, which is all that the map's own check and its membership
test rely on. -/

namespace Quartz.Space.FreeSpaceMap
open Storage Runs

inductive Call where
  | initializeMap (start : PageId) (length : UInt32)
  | markAllocated (range : Extent)
  | markFree (range : Extent)
  | clear
  deriving DecidableEq, Repr

/-- The call's extent ends below the largest page number. -/
def Call.Bounded : Call → Prop
  | .initializeMap start length => start.toNat + length.toNat < 2 ^ 32
  | .markAllocated range | .markFree range => range.start.toNat + range.length.toNat < 2 ^ 32
  | .clear => True

instance : (call : Call) → Decidable call.Bounded
  | .initializeMap start length => inferInstanceAs (Decidable (start.toNat + length.toNat < 2 ^ 32))
  | .markAllocated range | .markFree range =>
    inferInstanceAs (Decidable (range.start.toNat + range.length.toNat < 2 ^ 32))
  | .clear => isTrue trivial

def step (map : FreeSpaceMap) : Call → FreeSpaceMap
  | .initializeMap start length => map.initializeMap start length
  | .markAllocated range => (map.markAllocated range).2
  | .markFree range => (map.markFree range).2
  | .clear => map.clear

variable {map : FreeSpaceMap}

theorem Spaced.step (spaced : Spaced map.extents) {call : Call} (bounded : call.Bounded) :
    Spaced (map.step call).extents := by
  cases call with
  | clear => exact spaced_nil
  | initializeMap start length =>
    simp only [FreeSpaceMap.step, initializeMap]
    split
    next positive =>
      rw [gt_iff_lt, UInt32.lt_iff_toNat_lt] at positive
      exact spaced_cons.mpr ⟨⟨positive, bounded⟩, spaced_nil, by simp⟩
    next => exact spaced_nil
  | markAllocated range =>
    cases valid : range.isValid with
    | false => simpa [FreeSpaceMap.step, markAllocated, valid] using spaced
    | true => exact (markAllocated_refines spaced (.of_isValid valid bounded)).spaced
  | markFree range =>
    cases valid : range.isValid with
    | false => simpa [FreeSpaceMap.step, markFree, valid] using spaced
    | true =>
      obtain ⟨after, freed, afterSpaced, -⟩ := markFree_covers spaced (.of_isValid valid bounded)
      simpa only [FreeSpaceMap.step, freed] using afterSpaced

private theorem apart {first second : Extent} (firstProper : first.Proper) (secondProper : second.Proper)
    (gap : first.limit < second.start.toNat) :
    first.start < second.start ∧ first.intersects second = false ∧ first.adjacentTo second = false := by
  have far : ¬ first.canMerge second = true := by
    rw [Extent.canMerge_iff firstProper secondProper]
    omega
  rw [Extent.canMerge, Bool.not_eq_true, Bool.or_eq_false_iff] at far
  refine ⟨?_, far⟩
  rw [UInt32.lt_iff_toNat_lt]
  simp only [Extent.limit] at gap
  omega

theorem validateFrom_spaced {extents : List Extent} (spaced : Spaced extents) (index : Nat) :
    validateFrom index extents = Status.success := by
  induction extents generalizing index with
  | nil => rfl
  | cons prev rest ih =>
    obtain ⟨proper, restSpaced, gap⟩ := spaced_cons.mp spaced
    cases rest with
    | nil => rfl
    | cons curr rest =>
      have currProper := restSpaced.proper curr List.mem_cons_self
      obtain ⟨order, disjoint, distant⟩ := apart proper currProper (gap curr List.mem_cons_self)
      have sorted : ¬ prev.start ≥ curr.start := UInt32.not_le.mpr order
      simp only [validateFrom, proper.isValid, currProper.isValid, sorted, disjoint, distant, if_not_true]
      exact ih restSpaced (index + 1)

theorem containsPage_iff {extent : Extent} (proper : extent.Proper) (page : PageId) :
    extent.containsPage page = true ↔ extent.Covers page.toNat := by
  simp only [Extent.containsPage, Bool.and_eq_true, decide_eq_true_eq, ge_iff_le, UInt32.le_iff_toNat_le,
    UInt32.lt_iff_toNat_lt, proper.endPage, Extent.Covers]

theorem covered_back {back : List Extent} {page : Nat} (spaced : Spaced back)
    (behind : ∀ extent ∈ back, page ≤ extent.start.toNat) :
    Covered back page ↔ ∃ first, back.head? = some first ∧ first.start.toNat = page := by
  cases back with
  | nil => simp
  | cons first rest =>
    obtain ⟨proper, -, gap⟩ := spaced_cons.mp spaced
    have starts := behind first List.mem_cons_self
    have nonempty := proper.nonempty
    constructor
    · rintro ⟨extent, member, lower, upper⟩
      refine ⟨first, rfl, ?_⟩
      rcases List.mem_cons.mp member with rfl | later
      · omega
      · have := gap extent later
        simp only [Extent.limit] at this
        omega
    · rintro ⟨head, found, same⟩
      obtain rfl := Option.some.inj found
      refine ⟨first, List.mem_cons_self, ?_⟩
      simp only [Extent.Covers, Extent.limit]
      omega

theorem covered_front {front : List Extent} {page : Nat} (spaced : Spaced front)
    (before : ∀ extent ∈ front, extent.start.toNat < page) :
    Covered front page ↔ ∃ prev, front.getLast? = some prev ∧ prev.Covers page := by
  rcases List.eq_nil_or_concat front with rfl | ⟨init, prev, rfl⟩
  · simp
  rw [List.concat_eq_append] at *
  obtain ⟨-, -, gap⟩ := spaced_append.mp spaced
  have starts := before prev (by simp)
  have elsewhere : ¬ Covered init page := by
    rintro ⟨extent, member, -, upper⟩
    have := gap extent member prev List.mem_cons_self
    omega
  simp [elsewhere]

theorem Spaced.contains_iff (spaced : Spaced map.extents) (page : PageId) :
    map.contains page = true ↔ Covered map.extents page.toNat := by
  obtain ⟨extents⟩ := map
  have splits : Search.Splits (fun extent : Extent => decide (extent.start < page)) extents := by
    refine spaced.gaps.imp ?_
    intro first second gap holds
    rw [decide_eq_true_eq, UInt32.lt_iff_toNat_lt] at holds ⊢
    simp only [Extent.limit] at gap
    omega
  obtain ⟨front, back, rfl, before, after⟩ := splits.exists_append
  have bound := Search.lowerBound_append before after
  simp only [decide_eq_true_eq, decide_eq_false_iff_not, UInt32.lt_iff_toNat_lt, Nat.not_lt] at before after
  obtain ⟨frontSpaced, backSpaced, -⟩ := spaced_append.mp spaced
  have last : (front.getLast?.any fun prev => prev.containsPage page) = true ↔ Covered front page.toNat := by
    rw [covered_front frontSpaced before, Option.any_eq_true]
    refine exists_congr fun prev => and_congr_right fun found => ?_
    exact containsPage_iff (frontSpaced.proper prev (List.mem_of_getLast? found)) page
  have first : (back.head?.any fun extent => extent.start == page) = true ↔ Covered back page.toNat := by
    simp only [covered_back backSpaced after, Option.any_eq_true, beq_iff_eq, ← UInt32.toNat_inj]
  have next : (front ++ back)[front.length]? = back.head? := by
    rw [List.getElem?_append_right (Nat.le_refl _), Nat.sub_self, List.head?_eq_getElem?]
  rw [contains, bound, next, List.take_left, Bool.or_eq_true, last, first, covered_append, or_comm]

/-- Sorted, valid, disjoint and maximal extents, which the map's own check accepts and its
membership test searches rightly. -/
structure Represented (map : FreeSpaceMap) : Prop where
  bounded : ∀ extent ∈ map.extents, extent.start.toNat + extent.length.toNat < 2 ^ 32
  valid : ∀ extent ∈ map.extents, extent.isValid = true
  sorted : map.extents.Pairwise fun first second => first.start < second.start
  disjoint : map.extents.Pairwise fun first second => first.intersects second = false
  maximal : map.extents.Pairwise fun first second => first.adjacentTo second = false
  validates : map.validate = Status.success
  members : ∀ page : PageId, map.contains page = true ↔
    ∃ extent ∈ map.extents, extent.start.toNat ≤ page.toNat ∧ page.toNat < extent.start.toNat + extent.length.toNat

theorem Spaced.represented (spaced : Spaced map.extents) : map.Represented := by
  have apart : map.extents.Pairwise fun first second =>
      first.start < second.start ∧ first.intersects second = false ∧ first.adjacentTo second = false :=
    spaced.gaps.imp_of_mem fun inFirst inSecond gap =>
      apart (spaced.proper _ inFirst) (spaced.proper _ inSecond) gap
  exact ⟨fun extent member => (spaced.proper extent member).small,
    fun extent member => (spaced.proper extent member).isValid, apart.imp (·.1), apart.imp (·.2.1), apart.imp (·.2.2),
    validateFrom_spaced spaced 1, spaced.contains_iff⟩

/-- In every run of bounded calls from the empty map the representation is kept. -/
theorem representation_is_kept (calls : List Call) (bounded : ∀ call ∈ calls, call.Bounded) :
    Always step Represented {} calls := by
  have spaced : Always step (fun map => Spaced map.extents) {} calls :=
    always_of_invariant (fun _ _ spaced bounded => spaced.step bounded) spaced_nil
      (atEachStep_of_forall fun call member _ => bounded call member)
  exact fun done inside => (spaced done inside).represented

/-- A run in which a freed range swallows the extents on both sides of it. -/
theorem representation_is_kept_when_swallowing :
    let calls := [.initializeMap 8 100, .markAllocated ⟨20, 5⟩, .markAllocated ⟨40, 30⟩, .markFree ⟨18, 60⟩]
    (after step {} calls).extents = [⟨8, 100⟩] ∧ Always step Represented {} calls :=
  ⟨by decide +kernel, representation_is_kept _ (by decide)⟩

end Quartz.Space.FreeSpaceMap
