import Mathlib.Data.List.Nodup
import Mathlib.Data.List.Pairwise
import Mathlib.Data.List.Perm.Basic
import Mathlib.Tactic.Ring
import Quartz.Space.SpaceManager

/-! Extents that do not wrap and lists of them in increasing order with a page between any
two. The operations of the free space map keep such lists. Marking a range carves it out
of the extent that holds it, unless the range is a proper front of that extent: then
nothing changes. -/

namespace Quartz.Space
open Storage

namespace Extent

/-- The first page past the extent, counted without wrapping. -/
def limit (extent : Extent) : Nat := extent.start.toNat + extent.length.toNat

def Covers (extent : Extent) (page : Nat) : Prop := extent.start.toNat ≤ page ∧ page < extent.limit

/-- A nonempty extent whose page numbers do not wrap. -/
structure Proper (extent : Extent) : Prop where
  nonempty : 0 < extent.length.toNat
  small : extent.limit < 2 ^ 32

instance (extent : Extent) : Decidable extent.Proper :=
  decidable_of_iff (0 < extent.length.toNat ∧ extent.limit < 2 ^ 32)
    ⟨fun ⟨nonempty, small⟩ => ⟨nonempty, small⟩, fun ⟨nonempty, small⟩ => ⟨nonempty, small⟩⟩

def Within (extent current : Extent) : Prop :=
  current.start.toNat ≤ extent.start.toNat ∧ extent.limit ≤ current.limit

def pages (extent : Extent) : List Nat := List.range' extent.start.toNat extent.length.toNat

variable {extent other : Extent}

@[simp] theorem mem_pages {page : Nat} : page ∈ extent.pages ↔ extent.Covers page := by
  simp [pages, Covers, limit]

@[simp] theorem length_pages (extent : Extent) : extent.pages.length = extent.length.toNat := by
  simp [pages]

theorem nodup_pages (extent : Extent) : extent.pages.Nodup := List.nodup_range'

theorem Proper.endPage (proper : extent.Proper) : extent.endPage.toNat = extent.limit := by
  have := proper.small
  simp only [Extent.endPage, limit, UInt32.toNat_add] at this ⊢
  exact Nat.mod_eq_of_lt (by omega)

theorem Proper.isValid (proper : extent.Proper) : extent.isValid = true := by
  have small := proper.small
  have nonempty := proper.nonempty
  simp only [limit] at small
  simp only [Extent.isValid, gt_iff_lt, Bool.and_eq_true, decide_eq_true_eq, bne_iff_ne, ne_eq,
    UInt32.lt_iff_toNat_lt, ← UInt32.toNat_inj]
  refine ⟨nonempty, ?_⟩
  simp only [kInvalidPageId, UInt32.reduceToNat]
  omega

theorem Proper.of_isValid (valid : extent.isValid = true) (small : extent.limit < 2 ^ 32) : extent.Proper := by
  simp only [Extent.isValid, Bool.and_eq_true, decide_eq_true_eq, gt_iff_lt, UInt32.lt_iff_toNat_lt] at valid
  exact ⟨valid.1, small⟩

theorem Proper.of_within (proper : other.Proper) (nonempty : 0 < extent.length.toNat)
    (within : extent.Within other) : extent.Proper :=
  ⟨nonempty, Nat.lt_of_le_of_lt within.2 proper.small⟩

theorem contains_iff (proper : extent.Proper) (otherProper : other.Proper) :
    extent.contains other = true ↔ other.Within extent := by
  simp only [contains, otherProper.isValid, Bool.true_and, Bool.and_eq_true, decide_eq_true_eq, ge_iff_le,
    UInt32.le_iff_toNat_le, proper.endPage, otherProper.endPage, Within]

theorem intersects_iff (valid : extent.isValid = true) (otherProper : other.Proper) :
    extent.intersects other = true ↔ extent.start.toNat < other.limit ∧ other.start < extent.endPage := by
  simp only [intersects, valid, otherProper.isValid, Bool.not_true, Bool.or_self, if_false_true, Bool.and_eq_true, decide_eq_true_eq,
    UInt32.lt_iff_toNat_lt, otherProper.endPage]

theorem canMerge_iff (proper : extent.Proper) (otherProper : other.Proper) :
    extent.canMerge other = true ↔ extent.start.toNat ≤ other.limit ∧ other.start.toNat ≤ extent.limit := by
  have nonempty := proper.nonempty
  have otherNonempty := otherProper.nonempty
  simp only [canMerge, intersects, adjacentTo, proper.isValid, otherProper.isValid, Bool.not_true, Bool.or_self, if_false_true,
    Bool.or_eq_true, Bool.and_eq_true, decide_eq_true_eq, beq_iff_eq, UInt32.lt_iff_toNat_lt, ← UInt32.toNat_inj, proper.endPage,
    otherProper.endPage, limit]
  omega

theorem merge_eq (proper : extent.Proper) (otherProper : other.Proper) :
    ∃ merged, extent.merge other = some merged ∧
      merged.start.toNat = min extent.start.toNat other.start.toNat ∧
      merged.limit = max extent.limit other.limit := by
  have nonempty := proper.nonempty
  have lower : (min extent.start other.start).toNat = min extent.start.toNat other.start.toNat := by
    rw [show min extent.start other.start = if extent.start ≤ other.start then extent.start else other.start from rfl]
    split <;> rename_i order <;> rw [UInt32.le_iff_toNat_le] at order <;> omega
  have upper : (max extent.endPage other.endPage).toNat = max extent.limit other.limit := by
    rw [← proper.endPage, ← otherProper.endPage]
    rw [show max extent.endPage other.endPage =
      if extent.endPage ≤ other.endPage then other.endPage else extent.endPage from rfl]
    split <;> rename_i order <;> rw [UInt32.le_iff_toNat_le] at order <;> omega
  have increasing : min extent.start.toNat other.start.toNat < max extent.limit other.limit := by
    simp only [limit]
    omega
  have ordered : ¬ max extent.endPage other.endPage ≤ min extent.start other.start := by
    rw [UInt32.le_iff_toNat_le, lower, upper]
    omega
  refine ⟨⟨min extent.start other.start, max extent.endPage other.endPage - min extent.start other.start⟩, ?_, lower, ?_⟩
  · simp only [merge, proper.isValid, otherProper.isValid, Bool.not_true, Bool.or_self, if_false_true, ordered, if_false]
  · simp only [limit] at lower upper increasing ⊢
    rw [UInt32.toNat_sub_of_le _ _ (by rw [UInt32.le_iff_toNat_le]; omega), lower, upper]
    omega

end Extent

namespace FreeSpaceMap

def total (extents : List Extent) : Nat := (extents.map fun extent => extent.length.toNat).sum

def Covered (extents : List Extent) (page : Nat) : Prop := ∃ extent ∈ extents, extent.Covers page

/-- Proper extents in increasing order with a page between any two of them. -/
structure Spaced (extents : List Extent) : Prop where
  proper : ∀ extent ∈ extents, extent.Proper
  gaps : extents.Pairwise fun first second => first.limit < second.start.toNat

instance (extents : List Extent) : Decidable (Spaced extents) :=
  decidable_of_iff ((∀ extent ∈ extents, extent.Proper) ∧ extents.Pairwise fun first second => first.limit < second.start.toNat)
    ⟨fun ⟨proper, gaps⟩ => ⟨proper, gaps⟩, fun ⟨proper, gaps⟩ => ⟨proper, gaps⟩⟩

@[simp] theorem total_nil : total [] = 0 := rfl

@[simp] theorem total_cons (extent : Extent) (rest : List Extent) :
    total (extent :: rest) = extent.length.toNat + total rest := by
  simp [total]

@[simp] theorem covered_nil (page : Nat) : Covered [] page ↔ False := by simp [Covered]

@[simp] theorem covered_cons (extent : Extent) (rest : List Extent) (page : Nat) :
    Covered (extent :: rest) page ↔ extent.Covers page ∨ Covered rest page := by
  simp [Covered]

@[simp] theorem covered_append (first second : List Extent) (page : Nat) :
    Covered (first ++ second) page ↔ Covered first page ∨ Covered second page := by
  simp [Covered, or_and_right, exists_or]

theorem spaced_nil : Spaced [] := ⟨by simp, List.Pairwise.nil⟩

theorem spaced_append {first second : List Extent} :
    Spaced (first ++ second) ↔ Spaced first ∧ Spaced second ∧
      ∀ before ∈ first, ∀ after ∈ second, before.limit < after.start.toNat := by
  constructor
  · rintro ⟨proper, gaps⟩
    obtain ⟨front, back, across⟩ := List.pairwise_append.mp gaps
    exact ⟨⟨fun extent member => proper extent (List.mem_append_left _ member), front⟩,
      ⟨fun extent member => proper extent (List.mem_append_right _ member), back⟩, across⟩
  · rintro ⟨front, back, across⟩
    refine ⟨fun extent member => ?_, List.pairwise_append.mpr ⟨front.gaps, back.gaps, across⟩⟩
    rcases List.mem_append.mp member with inFront | inBack
    · exact front.proper extent inFront
    · exact back.proper extent inBack

theorem spaced_cons {extent : Extent} {rest : List Extent} :
    Spaced (extent :: rest) ↔ extent.Proper ∧ Spaced rest ∧
      ∀ after ∈ rest, extent.limit < after.start.toNat := by
  constructor
  · rintro ⟨proper, gaps⟩
    obtain ⟨across, back⟩ := List.pairwise_cons.mp gaps
    exact ⟨proper extent List.mem_cons_self, ⟨fun other member => proper other (List.mem_cons_of_mem _ member), back⟩, across⟩
  · rintro ⟨proper, back, across⟩
    exact ⟨by simpa using ⟨proper, back.proper⟩, List.pairwise_cons.mpr ⟨across, back.gaps⟩⟩

theorem Spaced.same_of_covers {extents : List Extent} {first second : Extent} (spaced : Spaced extents)
    (isFirst : first ∈ extents) (isSecond : second ∈ extents) {page : Nat} (covers : first.Covers page)
    (alsoCovers : second.Covers page) : first = second := by
  obtain ⟨front, back, rfl⟩ := List.append_of_mem isFirst
  obtain ⟨_, later, across⟩ := spaced_append.mp spaced
  obtain ⟨_, _, gap⟩ := spaced_cons.mp later
  obtain ⟨lower, upper⟩ := covers
  obtain ⟨alsoLower, alsoUpper⟩ := alsoCovers
  rcases List.mem_append.mp isSecond with early | late
  · have := across second early first List.mem_cons_self
    omega
  · refine ((List.mem_cons.mp late).resolve_right fun behind => ?_).symm
    have := gap second behind
    omega

theorem mem_flatMap_pages {extents : List Extent} {page : Nat} :
    page ∈ extents.flatMap Extent.pages ↔ Covered extents page := by
  simp [Covered]

theorem length_flatMap_pages (extents : List Extent) : (extents.flatMap Extent.pages).length = total extents := by
  simp [List.length_flatMap, total]

theorem Spaced.nodup {extents : List Extent} (spaced : Spaced extents) : (extents.flatMap Extent.pages).Nodup := by
  refine List.nodup_flatMap.mpr ⟨fun extent _ => extent.nodup_pages, spaced.gaps.imp ?_⟩
  intro first second gap page inFirst inSecond
  rw [Extent.mem_pages] at inFirst inSecond
  have := inFirst.2
  have := inSecond.1
  omega

/-- Two lists of which one covers a range more than the other. -/
theorem total_eq {more fewer : List Extent} {range : Extent} (moreSpaced : Spaced more) (fewerSpaced : Spaced fewer)
    (cover : ∀ page, Covered more page ↔ Covered fewer page ∨ range.Covers page)
    (apart : ∀ page, range.Covers page → ¬ Covered fewer page) :
    total more = total fewer + range.length.toNat := by
  have distinct : (fewer.flatMap Extent.pages ++ range.pages).Nodup := by
    refine List.nodup_append.mpr ⟨fewerSpaced.nodup, range.nodup_pages, ?_⟩
    rintro page covered other inRange rfl
    exact apart page (Extent.mem_pages.mp inRange) (mem_flatMap_pages.mp covered)
  have same : (more.flatMap Extent.pages).Perm (fewer.flatMap Extent.pages ++ range.pages) := by
    refine (List.perm_ext_iff_of_nodup moreSpaced.nodup distinct).mpr fun page => ?_
    rw [List.mem_append, mem_flatMap_pages, mem_flatMap_pages, Extent.mem_pages, cover]
  rw [← length_flatMap_pages, same.length_eq, List.length_append, length_flatMap_pages, Extent.length_pages]

variable {range current : Extent}

theorem split_at_start (proper : current.Proper) (same : range.start = current.start) :
    carve current range = [current] := by
  simp [carve, Extent.split, proper.isValid, same]

theorem carve_shape (proper : current.Proper) (nonempty : 0 < range.length.toNat)
    (within : range.Within current) (behind : current.start.toNat < range.start.toNat) :
    ∃ left, left.start.toNat = current.start.toNat ∧ left.limit = range.start.toNat ∧
      (range.limit = current.limit ∧ carve current range = [left] ∨
        range.limit < current.limit ∧ ∃ right, right.start.toNat = range.limit ∧ right.limit = current.limit ∧
          carve current range = [left, right]) := by
  have currentEnd := proper.endPage
  have rangeEnd := (proper.of_within nonempty within).endPage
  obtain ⟨lower, upper⟩ := within
  have inside : range.start.toNat ≤ current.limit := by simp only [Extent.limit] at upper ⊢; omega
  have leftLength : (range.start - current.start).toNat = range.start.toNat - current.start.toNat :=
    UInt32.toNat_sub_of_le _ _ (UInt32.le_iff_toNat_le.mpr lower)
  have rightEnd : (current.endPage - range.start).toNat = current.limit - range.start.toNat := by
    rw [UInt32.toNat_sub_of_le _ _ (by rw [UInt32.le_iff_toNat_le, currentEnd]; exact inside), currentEnd]
  have rightLength : (current.endPage - range.start - range.length).toNat = current.limit - range.limit := by
    rw [UInt32.toNat_sub_of_le _ _ (by rw [UInt32.le_iff_toNat_le, rightEnd]; simp only [Extent.limit] at upper ⊢; omega), rightEnd]
    simp only [Extent.limit]
    omega
  have leftProper : Extent.Proper ⟨current.start, range.start - current.start⟩ := by
    refine proper.of_within (by simp only [leftLength]; omega) ⟨Nat.le_refl _, ?_⟩
    simp only [Extent.limit, leftLength] at inside ⊢
    omega
  have split : current.split range.start = some (⟨current.start, range.start - current.start⟩,
      ⟨range.start, current.endPage - range.start⟩) := by
    have notBefore : ¬ range.start ≤ current.start := by rw [UInt32.le_iff_toNat_le]; omega
    have notPast : ¬ current.endPage ≤ range.start := by
      rw [UInt32.le_iff_toNat_le, currentEnd]
      simp only [Extent.limit] at upper ⊢
      omega
    simp [Extent.split, proper.isValid, notBefore, notPast]
  refine ⟨⟨current.start, range.start - current.start⟩, rfl, by simp only [Extent.limit, leftLength]; omega, ?_⟩
  rcases Nat.eq_or_lt_of_le upper with whole | part
  · have none : ¬ current.endPage - range.start - range.length > 0 := by
      rw [gt_iff_lt, UInt32.lt_iff_toNat_lt, rightLength]
      simp [whole]
    exact .inl ⟨whole, by simp only [carve, split, leftProper.isValid, if_true, none, if_false, List.append_nil]⟩
  · have some : current.endPage - range.start - range.length > 0 := by
      rw [gt_iff_lt, UInt32.lt_iff_toNat_lt, rightLength]
      simpa using part
    refine .inr ⟨part, ⟨range.endPage, current.endPage - range.start - range.length⟩, rangeEnd, ?_, ?_⟩
    · rw [Extent.limit, rangeEnd, rightLength]
      omega
    · simp only [carve, split, leftProper.isValid, if_true, some, List.cons_append, List.nil_append]

theorem carve_facts (proper : current.Proper) (nonempty : 0 < range.length.toNat) (within : range.Within current)
    (behind : current.start.toNat < range.start.toNat) :
    Spaced (carve current range) ∧ (∀ part ∈ carve current range, part.Within current) ∧
      ∀ page, Covered (carve current range) page ↔ current.Covers page ∧ ¬ range.Covers page := by
  obtain ⟨left, leftStart, leftLimit, shape⟩ := carve_shape proper nonempty within behind
  have leftWithin : left.Within current := by
    refine ⟨Nat.le_of_eq leftStart.symm, ?_⟩
    have := within.2
    simp only [Extent.limit] at *
    omega
  have leftProper : left.Proper :=
    proper.of_within (by simp only [Extent.limit] at leftLimit; omega) leftWithin
  rcases shape with ⟨whole, parts⟩ | ⟨part, right, rightStart, rightLimit, parts⟩ <;> rw [parts]
  · refine ⟨spaced_cons.mpr ⟨leftProper, spaced_nil, by simp⟩, by simpa using leftWithin, fun page => ?_⟩
    simp only [covered_cons, covered_nil, or_false, Extent.Covers, Extent.limit] at *
    omega
  · have rightWithin : right.Within current := by
      refine ⟨?_, Nat.le_of_eq rightLimit⟩
      rw [rightStart]
      simp only [Extent.limit] at *
      omega
    have rightProper : right.Proper :=
      proper.of_within (by simp only [Extent.limit] at *; omega) rightWithin
    refine ⟨spaced_cons.mpr ⟨leftProper, spaced_cons.mpr ⟨rightProper, spaced_nil, by simp⟩, ?_⟩,
      by simpa using ⟨leftWithin, rightWithin⟩, fun page => ?_⟩
    · rw [List.forall_mem_singleton, leftLimit, rightStart]
      simp only [Extent.limit]
      omega
    · simp only [covered_cons, covered_nil, or_false, Extent.Covers, Extent.limit] at *
      omega

/-- A loop that finds nothing changes nothing, and its first extent does not meet the range. -/
theorem markFrom_unchanged {rest : List Extent} {changed : Bool}
    (nothing : (markFrom range rest changed).1 = false) : changed = false ∧ (markFrom range rest changed).2 = rest ∧
      ∀ first ∈ rest.head?, first.start < range.endPage → ¬ range.start < first.endPage := by
  induction rest generalizing changed with
  | nil => exact ⟨nothing, rfl, by simp⟩
  | cons current rest ih =>
    -- every branch that touches an extent goes on with the flag set
    have flagged : ¬ (markFrom range rest true).1 = false := fun clear => Bool.noConfusion (ih clear).1
    simp only [markFrom] at nothing ⊢
    by_cases entered : current.start < range.endPage
    · rw [if_pos entered] at nothing ⊢
      split at nothing
      · exact absurd nothing flagged
      rw [if_neg (by assumption)]
      split at nothing
      · cases nothing
      rw [if_neg (by assumption)]
      split at nothing
      · exact absurd nothing flagged
      next notBefore =>
        rw [if_neg notBefore]
        split at nothing
        · split at nothing
          · cases nothing
          · exact absurd nothing flagged
        next notAfter =>
          rw [if_neg notAfter]
          obtain ⟨clear, same, -⟩ := ih nothing
          refine ⟨clear, congrArg (current :: ·) same, fun first isFirst _ ends => ?_⟩
          obtain rfl : current = first := by simpa using isFirst
          simp only [ends, entered, decide_true, Bool.and_true, decide_eq_true_eq, UInt32.not_lt, ge_iff_le] at notBefore notAfter
          exact notAfter notBefore
    · rw [if_neg entered] at nothing ⊢
      refine ⟨nothing, rfl, fun first isFirst starts => absurd starts ?_⟩
      obtain rfl : current = first := by simpa using isFirst
      exact entered

/-- A marking that fails changes nothing. -/
theorem markAllocated_failed {map : FreeSpaceMap} (failed : (map.markAllocated range).1.ok = false) :
    (map.markAllocated range).2 = map := by
  by_cases valid : (!range.isValid) = true
  · rw [markAllocated, if_pos valid]
  by_cases empty : map.extents.isEmpty = true
  · rw [markAllocated, if_neg valid, if_pos empty]
  simp only [markAllocated, if_neg valid, if_neg empty] at failed ⊢
  generalize Search.lowerBound _ map.extents = first at failed ⊢
  have nothing : (markFrom range (map.extents.drop first) false).1 = false := by
    cases found : (markFrom range (map.extents.drop first) false).1 with
    | false => rfl
    | true => simp [found] at failed
  rw [(markFrom_unchanged nothing).2.1, List.take_append_drop]

theorem markAllocated_success {map : FreeSpaceMap} (ok : (map.markAllocated range).1.ok = true) :
    (map.markAllocated range).1 = Status.success := by
  simp only [markAllocated] at ok ⊢
  split_ifs at ok ⊢ <;> first | rfl | cases ok

/-- The loop runs on the extents that end past the start of the range. -/
theorem markAllocated_runs {extents : List Extent} (spaced : Spaced extents) (valid : range.isValid = true) :
    ∃ front back, extents = front ++ back ∧ (∀ extent ∈ front, extent.limit ≤ range.start.toNat) ∧
      (∀ extent ∈ back, range.start.toNat < extent.limit) ∧
      (markAllocated ⟨extents⟩ range).2 = ⟨front ++ (markFrom range back false).2⟩ ∧
      ((markAllocated ⟨extents⟩ range).1.ok = true ↔ (markFrom range back false).1 = true) := by
  have splits : Search.Splits (fun extent : Extent => decide (extent.limit ≤ range.start.toNat)) extents := by
    refine spaced.gaps.imp ?_
    intro first second gap holds
    rw [decide_eq_true_eq] at holds ⊢
    simp only [Extent.limit] at *
    omega
  obtain ⟨front, back, rfl, before, after⟩ := splits.exists_append
  simp only [decide_eq_true_eq, decide_eq_false_iff_not, Nat.not_le] at before after
  refine ⟨front, back, rfl, before, after, ?_⟩
  by_cases none : front ++ back = []
  · obtain ⟨rfl, rfl⟩ := List.append_eq_nil_iff.mp none
    simp [markAllocated, markFrom, valid]
  have first : Search.lowerBound (fun extent : Extent => decide (extent.endPage ≤ range.start)) (front ++ back) =
      front.length := by
    refine Search.lowerBound_append (fun extent member => ?_) (fun extent member => ?_)
    · rw [decide_eq_true_eq, UInt32.le_iff_toNat_le, (spaced.proper _ (List.mem_append_left _ member)).endPage]
      exact before extent member
    · rw [decide_eq_false_iff_not, UInt32.le_iff_toNat_le, (spaced.proper _ (List.mem_append_right _ member)).endPage]
      exact Nat.not_le.mpr (after extent member)
  simp only [markAllocated, valid, if_not_true, List.isEmpty_iff, none, first, List.drop_left, List.take_left]
  cases (markFrom range back false).1 <;> simp

theorem markAllocated_ok_iff {map : FreeSpaceMap} (spaced : Spaced map.extents) :
    (map.markAllocated range).1.ok = true ↔ ∃ free ∈ map.extents, range.intersects free = true := by
  cases valid : range.isValid with
  | false => simp [markAllocated, valid, Extent.intersects]
  | true =>
    obtain ⟨extents⟩ := map
    obtain ⟨front, back, rfl, before, after, -, status⟩ := markAllocated_runs spaced valid
    have meets := fun free member => Extent.intersects_iff valid (spaced.proper free member)
    rw [status]
    constructor
    · intro changed
      cases back with
      | nil => cases changed
      | cons next rest =>
        refine ⟨next, by simp, (meets next (by simp)).mpr ⟨after next List.mem_cons_self, ?_⟩⟩
        by_contra behind
        simp [markFrom, behind] at changed
    · rintro ⟨free, member, found⟩
      obtain ⟨ends, entered⟩ := (meets free member).mp found
      have inBack : free ∈ back := (List.mem_append.mp member).resolve_left fun early =>
        Nat.not_lt.mpr (before free early) ends
      cases back with
      | nil => cases inBack
      | cons next rest =>
        have starts : next.start < range.endPage := by
          rcases List.mem_cons.mp inBack with rfl | later
          · exact entered
          · have gap := List.rel_of_pairwise_cons (spaced_append.mp spaced).2.1.gaps later
            rw [UInt32.lt_iff_toNat_lt] at entered ⊢
            simp only [Extent.limit] at gap
            omega
        have past : range.start < next.endPage := by
          rw [UInt32.lt_iff_toNat_lt, (spaced.proper next (by simp)).endPage]
          exact after next List.mem_cons_self
        by_contra nothing
        exact (markFrom_unchanged (Bool.not_eq_true _ ▸ nothing)).2.2 next rfl starts past

/-- A proper range is marked exactly when it shares a page with the map. -/
theorem markAllocated_ok_iff_shared {map : FreeSpaceMap} (spaced : Spaced map.extents) (proper : range.Proper) :
    (map.markAllocated range).1.ok = true ↔ ∃ page, Covered map.extents page ∧ range.Covers page := by
  have nonempty := proper.nonempty
  rw [markAllocated_ok_iff spaced]
  constructor
  · rintro ⟨free, member, meets⟩
    have freeProper := spaced.proper free member
    have freeNonempty := freeProper.nonempty
    rw [Extent.intersects_iff proper.isValid freeProper, UInt32.lt_iff_toNat_lt, proper.endPage] at meets
    refine ⟨max range.start.toNat free.start.toNat, ⟨free, member, ?_⟩, ?_⟩
    all_goals
      simp only [Extent.Covers, Extent.limit] at *
      omega
  · rintro ⟨page, ⟨free, member, covered⟩, inRange⟩
    refine ⟨free, member, ?_⟩
    rw [Extent.intersects_iff proper.isValid (spaced.proper free member), UInt32.lt_iff_toNat_lt, proper.endPage]
    exact ⟨Nat.lt_of_le_of_lt inRange.1 covered.2, Nat.lt_of_le_of_lt covered.1 inRange.2⟩

theorem start_covered (proper : current.Proper) : current.Covers current.start.toNat := by
  have nonempty := proper.nonempty
  exact ⟨Nat.le_refl _, by simp only [Extent.limit]; omega⟩

theorem markAllocated_ok_of_within {map : FreeSpaceMap} (spaced : Spaced map.extents) (member : current ∈ map.extents)
    (nonempty : 0 < range.length.toNat) (within : range.Within current) : (map.markAllocated range).1.ok = true := by
  have proper := (spaced.proper current member).of_within nonempty within
  have start := start_covered proper
  exact (markAllocated_ok_iff_shared spaced proper).mpr
    ⟨range.start.toNat, ⟨current, member, within.1, Nat.lt_of_lt_of_le start.2 within.2⟩, start⟩

/-- Spaced parts of the extents of a list. -/
structure Refines (parts extents : List Extent) : Prop where
  spaced : Spaced parts
  within : ∀ part ∈ parts, ∃ whole ∈ extents, part.Within whole

theorem Refines.refl {extents : List Extent} (spaced : Spaced extents) : Refines extents extents :=
  ⟨spaced, fun part member => ⟨part, member, Nat.le_refl _, Nat.le_refl _⟩⟩

theorem Refines.covered {parts extents : List Extent} (refines : Refines parts extents) {page : Nat}
    (covered : Covered parts page) : Covered extents page := by
  obtain ⟨part, member, lower, upper⟩ := covered
  obtain ⟨whole, inside, starts, ends⟩ := refines.within part member
  exact ⟨whole, inside, Nat.le_trans starts lower, Nat.lt_of_lt_of_le upper ends⟩

/-- Parts of one list before parts of the list that follows it. -/
theorem Refines.append {pieces parts front rest : List Extent} (before : Refines pieces front)
    (after : Refines parts rest) (spaced : Spaced (front ++ rest)) : Refines (pieces ++ parts) (front ++ rest) := by
  obtain ⟨_, _, across⟩ := spaced_append.mp spaced
  refine ⟨spaced_append.mpr ⟨before.spaced, after.spaced, fun piece inPieces part inParts => ?_⟩, fun part member => ?_⟩
  · obtain ⟨first, inFront, -, ends⟩ := before.within piece inPieces
    obtain ⟨second, inRest, starts, -⟩ := after.within part inParts
    have := across first inFront second inRest
    omega
  · rcases List.mem_append.mp member with inPieces | inParts
    · obtain ⟨whole, inFront, within⟩ := before.within part inPieces
      exact ⟨whole, List.mem_append_left _ inFront, within⟩
    · obtain ⟨whole, inRest, within⟩ := after.within part inParts
      exact ⟨whole, List.mem_append_right _ inRest, within⟩

theorem spaced_singleton (proper : current.Proper) : Spaced [current] :=
  spaced_cons.mpr ⟨proper, spaced_nil, by simp⟩

theorem part_refines {kept : Extent} (proper : current.Proper) (within : kept.Within current)
    (nonempty : kept.start.toNat < kept.limit) : Refines [kept] [current] := by
  refine ⟨spaced_singleton (proper.of_within ?_ within), by simpa using within⟩
  simp only [Extent.limit] at nonempty
  omega

theorem carve_refines (proper : current.Proper) (nonempty : 0 < range.length.toNat)
    (within : range.Within current) : Refines (carve current range) [current] := by
  rcases Nat.eq_or_lt_of_le within.1 with same | behind
  · rw [split_at_start proper (UInt32.toNat_inj.mp same.symm)]
    exact .refl (spaced_singleton proper)
  · obtain ⟨spaced, inside, -⟩ := carve_facts proper nonempty within behind
    exact ⟨spaced, by simpa using inside⟩

/-- What one round of the loop of `markAllocated` does with the extent it looks at. -/
inductive Marks (range current : Extent) (rest : List Extent) (changed : Bool) : Bool × List Extent → Prop
  | behind (apart : range.limit ≤ current.start.toNat) : Marks range current rest changed (changed, current :: rest)
  | covered (within : current.Within range) : Marks range current rest changed (markFrom range rest true)
  | inside (within : range.Within current) (part : ¬ current.Within range) :
    Marks range current rest changed (true, carve current range ++ rest)
  | cutEnd {kept : Extent} (start : kept.start.toNat = current.start.toNat) (limit : kept.limit = range.start.toNat)
      (begins : current.start.toNat < range.start.toNat) (overlaps : range.start.toNat < current.limit)
      (ends : current.limit < range.limit) :
    Marks range current rest changed ((markFrom range rest true).1, kept :: (markFrom range rest true).2)
  | cutStart {kept : Extent} (start : kept.start.toNat = range.limit) (limit : kept.limit = current.limit)
      (begins : range.start.toNat < current.start.toNat) (overlaps : current.start.toNat < range.limit)
      (ends : range.limit < current.limit) : Marks range current rest changed (true, kept :: rest)
  | skipped (before : current.limit ≤ range.start.toNat) :
    Marks range current rest changed ((markFrom range rest changed).1, current :: (markFrom range rest changed).2)

theorem markFrom_cases (rangeProper : range.Proper) (proper : current.Proper) (rest : List Extent) (changed : Bool) :
    Marks range current rest changed (markFrom range (current :: rest) changed) := by
  have currentEnd := proper.endPage
  have rangeEnd := rangeProper.endPage
  simp only [markFrom]
  split
  next entered =>
    rw [UInt32.lt_iff_toNat_lt, rangeEnd] at entered
    split
    next covers => exact .covered ((Extent.contains_iff rangeProper proper).mp covers)
    next notCovered =>
      rw [Extent.contains_iff rangeProper proper] at notCovered
      split
      next inside => exact .inside ((Extent.contains_iff proper rangeProper).mp inside) notCovered
      next notInside =>
        rw [Extent.contains_iff proper rangeProper] at notInside
        simp only [Extent.Within] at notCovered notInside
        split
        next overlapsEnd =>
          simp only [Bool.and_eq_true, decide_eq_true_eq, gt_iff_lt, UInt32.lt_iff_toNat_lt, currentEnd] at overlapsEnd
          have length : (range.start - current.start).toNat = range.start.toNat - current.start.toNat :=
            UInt32.toNat_sub_of_le _ _ (UInt32.le_iff_toNat_le.mpr (by omega))
          exact .cutEnd rfl (by simp only [Extent.limit, length]; omega) overlapsEnd.1 overlapsEnd.2 (by omega)
        next =>
          split
          next overlapsStart =>
            simp only [Bool.and_eq_true, decide_eq_true_eq, ge_iff_le, UInt32.le_iff_toNat_le] at overlapsStart
            have overlap : (range.endPage - current.start).toNat = range.limit - current.start.toNat := by
              rw [UInt32.toNat_sub_of_le _ _ (UInt32.le_iff_toNat_le.mpr (by omega)), rangeEnd]
            have length : (current.length - (range.endPage - current.start)).toNat = current.limit - range.limit := by
              rw [UInt32.toNat_sub_of_le _ _ (UInt32.le_iff_toNat_le.mpr (by simp only [Extent.limit] at *; omega)), overlap]
              simp only [Extent.limit] at *
              omega
            rw [if_pos (by rw [gt_iff_lt, UInt32.lt_iff_toNat_lt, length, UInt32.toNat_zero]; omega)]
            exact .cutStart rangeEnd (by rw [Extent.limit, length, rangeEnd]; omega) (by omega) entered (by omega)
          next apart =>
            simp only [Bool.and_eq_true, decide_eq_true_eq, ge_iff_le, UInt32.le_iff_toNat_le, UInt32.lt_iff_toNat_lt,
              rangeEnd, entered, and_true, gt_iff_lt, currentEnd, not_and, Nat.not_lt] at *
            exact .skipped (by omega)
  next stops =>
    rw [UInt32.lt_iff_toNat_lt, rangeEnd] at stops
    exact .behind (by omega)

theorem markFrom_refines (rangeProper : range.Proper) {rest : List Extent} (spaced : Spaced rest)
    (changed : Bool) : Refines (markFrom range rest changed).2 rest := by
  induction rest generalizing changed with
  | nil => exact .refl spaced_nil
  | cons current rest ih =>
    obtain ⟨proper, restSpaced, -⟩ := spaced_cons.mp spaced
    have kept := Refines.refl restSpaced
    have marks := markFrom_cases rangeProper proper rest changed
    generalize markFrom range (current :: rest) changed = result at marks ⊢
    cases marks with
    | behind => exact .refl spaced
    | covered => exact (show Refines [] [current] from ⟨spaced_nil, by simp⟩).append (ih restSpaced true) spaced
    | inside within => exact (carve_refines proper rangeProper.nonempty within).append kept spaced
    | cutEnd start limit begins overlaps ends =>
      exact (part_refines proper ⟨by omega, by omega⟩ (by omega)).append (ih restSpaced true) spaced
    | cutStart start limit begins overlaps ends =>
      exact (part_refines proper ⟨by omega, by omega⟩ (by omega)).append kept spaced
    | skipped => exact (Refines.refl (spaced_singleton proper)).append (ih restSpaced changed) spaced

/-- Whatever range is marked, the map is left with parts of its extents. -/
theorem markAllocated_refines {map : FreeSpaceMap} (spaced : Spaced map.extents) (rangeProper : range.Proper) :
    Refines (map.markAllocated range).2.extents map.extents := by
  obtain ⟨extents⟩ := map
  obtain ⟨front, back, rfl, -, -, result, -⟩ := markAllocated_runs spaced rangeProper.isValid
  obtain ⟨frontSpaced, backSpaced, -⟩ := spaced_append.mp spaced
  rw [result]
  exact (Refines.refl frontSpaced).append (markFrom_refines rangeProper backSpaced false) spaced

theorem apart_or {first second taken : Prop} (apart : first → ¬ taken) :
    first ∨ second ∧ ¬ taken ↔ (first ∨ second) ∧ ¬ taken := by tauto

theorem or_apart {first second taken : Prop} (apart : second → ¬ taken) :
    first ∧ ¬ taken ∨ second ↔ (first ∨ second) ∧ ¬ taken := by tauto

theorem markFrom_removes (rangeProper : range.Proper) {rest : List Extent} (spaced : Spaced rest)
    (whole : ∀ extent ∈ rest, extent.start = range.start → ¬ range.length < extent.length) (changed : Bool) (page : Nat) :
    Covered (markFrom range rest changed).2 page ↔ Covered rest page ∧ ¬ range.Covers page := by
  induction rest generalizing changed with
  | nil => simp [markFrom]
  | cons current rest ih =>
    obtain ⟨proper, restSpaced, gap⟩ := spaced_cons.mp spaced
    obtain ⟨notFront, restWhole⟩ := List.forall_mem_cons.mp whole
    -- past the end of the first extent the range meets nothing of the others
    have later : range.limit ≤ current.limit → Covered rest page → ¬ range.Covers page := by
      rintro ends ⟨extent, member, lower, -⟩ ⟨-, upper⟩
      have := gap extent member
      omega
    have marks := markFrom_cases rangeProper proper rest changed
    generalize markFrom range (current :: rest) changed = result at marks ⊢
    cases marks with
    | behind apart =>
      have first : current.Covers page → ¬ range.Covers page := fun covers met =>
        absurd (Nat.lt_of_le_of_lt covers.1 met.2) (Nat.not_lt.mpr apart)
      have others := later (Nat.le_trans apart (Nat.le_add_right _ _))
      exact ⟨fun covered => ⟨covered, ((covered_cons current rest page).mp covered).elim first others⟩, fun kept => kept.1⟩
    | covered within =>
      have inside : current.Covers page → range.Covers page := fun covers =>
        ⟨Nat.le_trans within.1 covers.1, Nat.lt_of_lt_of_le covers.2 within.2⟩
      rw [ih restSpaced restWhole, covered_cons]
      exact ⟨fun ⟨covered, out⟩ => ⟨.inr covered, out⟩,
        fun ⟨covered, out⟩ => ⟨covered.resolve_left fun covers => out (inside covers), out⟩⟩
    | inside within part =>
      have begins : current.start.toNat < range.start.toNat := by
        refine Nat.lt_of_le_of_ne within.1 fun same => part ⟨Nat.le_of_eq same.symm, ?_⟩
        have shorter := notFront (UInt32.toNat_inj.mp same)
        rw [UInt32.lt_iff_toNat_lt] at shorter
        simp only [Extent.limit]
        omega
      obtain ⟨-, -, carved⟩ := carve_facts proper rangeProper.nonempty within begins
      rw [covered_append, carved, covered_cons]
      exact or_apart (later within.2)
    | @cutEnd kept start limit begins overlaps ends =>
      have cut : kept.Covers page ↔ current.Covers page ∧ ¬ range.Covers page := by
        simp only [Extent.Covers]
        omega
      rw [covered_cons, covered_cons, cut, ih restSpaced restWhole, or_and_right]
    | @cutStart kept start limit begins overlaps ends =>
      have cut : kept.Covers page ↔ current.Covers page ∧ ¬ range.Covers page := by
        simp only [Extent.Covers]
        omega
      rw [covered_cons, covered_cons, cut]
      exact or_apart (later (Nat.le_of_lt ends))
    | skipped before =>
      rw [covered_cons, covered_cons, ih restSpaced restWhole]
      refine apart_or ?_
      rintro ⟨-, upper⟩ ⟨lower, -⟩
      omega

theorem markAllocated_removes {map : FreeSpaceMap} (spaced : Spaced map.extents) (rangeProper : range.Proper)
    (whole : ∀ extent ∈ map.extents, extent.start = range.start → ¬ range.length < extent.length) (page : Nat) :
    Covered (map.markAllocated range).2.extents page ↔ Covered map.extents page ∧ ¬ range.Covers page := by
  obtain ⟨extents⟩ := map
  obtain ⟨front, back, rfl, before, -, result, -⟩ := markAllocated_runs spaced rangeProper.isValid
  rw [result, covered_append, covered_append, markFrom_removes rangeProper (spaced_append.mp spaced).2.1
    (fun extent member => whole extent (List.mem_append_right _ member))]
  refine apart_or ?_
  rintro ⟨extent, member, -, upper⟩ ⟨lower, -⟩
  have := before extent member
  omega

/-- A range that is not a proper front of its extent is taken out of the free pages. -/
theorem markAllocated_takes {map : FreeSpaceMap} (spaced : Spaced map.extents) (member : current ∈ map.extents)
    (nonempty : 0 < range.length.toNat) (within : range.Within current)
    (carved : range.start = current.start → ¬ range.length < current.length) :
    ∃ after, map.markAllocated range = (Status.success, after) ∧ Spaced after.extents ∧
      ∀ page, Covered after.extents page ↔ Covered map.extents page ∧ ¬ range.Covers page := by
  have proper := (spaced.proper current member).of_within nonempty within
  have ok := markAllocated_ok_of_within spaced member nonempty within
  refine ⟨(map.markAllocated range).2, Prod.ext (markAllocated_success ok) rfl,
    (markAllocated_refines spaced proper).spaced, markAllocated_removes spaced proper fun extent inside same => ?_⟩
  -- an extent that starts inside another one is that one
  obtain rfl : extent = current := by
    refine spaced.same_of_covers inside member (start_covered (spaced.proper extent inside)) ?_
    rw [same]
    exact ⟨within.1, Nat.lt_of_lt_of_le (start_covered proper).2 within.2⟩
  exact carved same.symm

/-- A proper front of a free extent is reported as marked and stays free. -/
theorem markAllocated_ignores {map : FreeSpaceMap} (spaced : Spaced map.extents) (member : current ∈ map.extents)
    (nonempty : 0 < range.length.toNat) (front : range.start = current.start) (shorter : range.length < current.length) :
    map.markAllocated range = (Status.success, map) := by
  have proper := spaced.proper current member
  have isFront : range.start.toNat = current.start.toNat := congrArg UInt32.toNat front
  rw [UInt32.lt_iff_toNat_lt] at shorter
  have currentLimit : current.limit = current.start.toNat + current.length.toNat := rfl
  have rangeLimit : range.limit = range.start.toNat + range.length.toNat := rfl
  have within : range.Within current := ⟨Nat.le_of_eq isFront.symm, by omega⟩
  have rangeProper := proper.of_within nonempty within
  refine Prod.ext (markAllocated_success (markAllocated_ok_of_within spaced member nonempty within)) ?_
  obtain ⟨extents⟩ := map
  obtain ⟨before, back, rfl, ends, past, result, -⟩ := markAllocated_runs spaced rangeProper.isValid
  have inBack : current ∈ back := (List.mem_append.mp member).resolve_left fun early => by
    have := ends current early
    omega
  cases back with
  | nil => cases inBack
  | cons next rest =>
    obtain rfl : current = next := by
      refine (List.mem_cons.mp inBack).resolve_right fun later => ?_
      have gap := List.rel_of_pairwise_cons (spaced_append.mp spaced).2.1.gaps later
      have := past next List.mem_cons_self
      omega
    rw [result]
    have marks := markFrom_cases rangeProper proper rest false
    generalize markFrom range (current :: rest) false = marked at marks ⊢
    -- only the branch for a range inside its extent is left, and it carves nothing
    cases marks with
    | inside => rw [split_at_start proper front]; rfl
    | behind apart => omega
    | covered outside => exact absurd outside.2 (by omega)
    | cutEnd _ _ begins => omega
    | cutStart _ _ begins => omega
    | skipped apart => omega

theorem merge_joins {first second : Extent} (firstProper : first.Proper) (secondProper : second.Proper)
    (order : first.start.toNat ≤ second.start.toNat) (reaches : second.start.toNat ≤ first.limit) :
    first.canMerge second = true ∧ ∃ merged, first.merge second = some merged ∧ merged.Proper ∧
      merged.start.toNat = first.start.toNat ∧
      ∀ page, merged.Covers page ↔ first.Covers page ∨ second.Covers page := by
  obtain ⟨merged, found, start, limit⟩ := Extent.merge_eq firstProper secondProper
  have firstSmall := firstProper.small
  have secondSmall := secondProper.small
  have nonempty := firstProper.nonempty
  refine ⟨?_, merged, found, ⟨?_, ?_⟩, ?_, fun page => ?_⟩
  · rw [Extent.canMerge_iff firstProper secondProper]
    simp only [Extent.limit] at *
    omega
  all_goals
    simp only [Extent.Covers, Extent.limit] at *
    omega

theorem mergeRight_facts {left : Extent} (proper : left.Proper) {rest : List Extent} (spaced : Spaced rest)
    (order : ∀ extent ∈ rest, left.start.toNat ≤ extent.start.toNat) :
    Spaced (mergeRight left rest) ∧ (∀ page, Covered (mergeRight left rest) page ↔ left.Covers page ∨ Covered rest page) ∧
      ∀ extent ∈ mergeRight left rest, left.start.toNat ≤ extent.start.toNat := by
  induction rest generalizing left with
  | nil => exact ⟨spaced_singleton proper, by simp [mergeRight], by simp [mergeRight]⟩
  | cons next rest ih =>
    obtain ⟨nextProper, restSpaced, gap⟩ := spaced_cons.mp spaced
    have before := order next List.mem_cons_self
    rcases Nat.lt_or_ge left.limit next.start.toNat with apart | reaches
    · have far : ¬ left.canMerge next = true := by
        rw [Extent.canMerge_iff proper nextProper]
        omega
      have gaps : ∀ extent ∈ next :: rest, left.limit < extent.start.toNat := by
        intro extent member
        rcases List.mem_cons.mp member with rfl | inRest
        · exact apart
        · have := gap extent inRest
          simp only [Extent.limit] at *
          omega
      simp only [mergeRight, far, if_false_true]
      exact ⟨spaced_cons.mpr ⟨proper, spaced, gaps⟩, by simp, by simpa using order⟩
    · obtain ⟨joins, merged, found, mergedProper, start, joined⟩ := merge_joins proper nextProper before reaches
      obtain ⟨result, cover, starts⟩ := ih mergedProper restSpaced fun extent member => by
        rw [start]
        exact order extent (List.mem_cons_of_mem _ member)
      simp only [mergeRight, joins, if_true, found]
      refine ⟨result, fun page => ?_, by rwa [start] at starts⟩
      rw [cover, joined, covered_cons, or_assoc]

theorem mergeLeft_facts {front : List Extent} (proper : range.Proper) (spaced : Spaced front)
    (order : ∀ extent ∈ front, extent.start.toNat < range.start.toNat) :
    ∃ kept left, (mergeLeft front range).getD (front, range) = (kept, left) ∧ left.Proper ∧ Spaced kept ∧
      left.start.toNat ≤ range.start.toNat ∧ (∀ extent ∈ kept, extent.limit < left.start.toNat) ∧
      ∀ page, Covered kept page ∨ left.Covers page ↔ Covered front page ∨ range.Covers page := by
  rcases List.eq_nil_or_concat front with rfl | ⟨init, prev, rfl⟩
  · exact ⟨[], range, rfl, proper, spaced, Nat.le_refl _, by simp, fun page => Iff.rfl⟩
  rw [List.concat_eq_append] at *
  obtain ⟨initSpaced, lastSpaced, gap⟩ := spaced_append.mp spaced
  have prevProper := lastSpaced.proper prev List.mem_cons_self
  have before := order prev (by simp)
  rcases Nat.lt_or_ge prev.limit range.start.toNat with apart | reaches
  · have far : ¬ prev.canMerge range = true := by
      rw [Extent.canMerge_iff prevProper proper]
      omega
    refine ⟨init ++ [prev], range, by simp [mergeLeft, far], proper, spaced, Nat.le_refl _, ?_, fun page => Iff.rfl⟩
    intro extent member
    rcases List.mem_append.mp member with inInit | isPrev
    · have := gap extent inInit prev List.mem_cons_self
      omega
    · obtain rfl := List.mem_singleton.mp isPrev
      exact apart
  · obtain ⟨joins, merged, found, mergedProper, start, joined⟩ :=
      merge_joins prevProper proper (Nat.le_of_lt before) reaches
    refine ⟨init, merged, by simp [mergeLeft, joins, found], mergedProper, initSpaced, by omega, ?_, fun page => ?_⟩
    · intro extent member
      rw [start]
      exact gap extent member prev List.mem_cons_self
    · simp only [joined, covered_append, covered_cons, covered_nil, or_false, or_assoc]

/-- Whatever range is freed, the map is left with exactly its pages and those of the range. -/
theorem markFree_covers {map : FreeSpaceMap} (spaced : Spaced map.extents) (proper : range.Proper) :
    ∃ after, map.markFree range = (Status.success, after) ∧ Spaced after.extents ∧
      ∀ page, Covered after.extents page ↔ Covered map.extents page ∨ range.Covers page := by
  obtain ⟨extents⟩ := map
  have splits : Search.Splits (fun extent : Extent => decide (extent.start < range.start)) extents := by
    refine spaced.gaps.imp ?_
    intro first second gap holds
    rw [decide_eq_true_eq, UInt32.lt_iff_toNat_lt] at holds ⊢
    simp only [Extent.limit] at *
    omega
  obtain ⟨front, back, rfl, before, after⟩ := splits.exists_append
  have first := Search.lowerBound_append before after
  simp only [decide_eq_true_eq, decide_eq_false_iff_not, UInt32.lt_iff_toNat_lt, Nat.not_lt] at before after
  obtain ⟨frontSpaced, backSpaced, -⟩ := spaced_append.mp spaced
  obtain ⟨kept, left, merged, leftProper, keptSpaced, leftStart, keptGap, keptCover⟩ :=
    mergeLeft_facts proper frontSpaced before
  obtain ⟨rightSpaced, rightCover, rightStart⟩ := mergeRight_facts leftProper backSpaced
    fun extent member => Nat.le_trans leftStart (after extent member)
  refine ⟨⟨kept ++ mergeRight left back⟩, ?_, ?_, fun page => ?_⟩
  · simp only [markFree, proper.isValid, if_not_true, first, List.take_left, List.drop_left, merged]
  · refine spaced_append.mpr ⟨keptSpaced, rightSpaced, fun extent inKept other inRight => ?_⟩
    exact Nat.lt_of_lt_of_le (keptGap extent inKept) (rightStart other inRight)
  · have := keptCover page
    simp only [covered_append, rightCover]
    tauto

theorem countFree_toNat {map : FreeSpaceMap} (small : total map.extents < 2 ^ 32) :
    map.countFree.toNat = total map.extents := by
  suffices ∀ (extents : List Extent) (start : UInt32), start.toNat + total extents < 2 ^ 32 →
      (extents.foldl (fun count extent => count + extent.length) start).toNat = start.toNat + total extents by
    simpa [countFree] using this map.extents 0 (by simpa using small)
  intro extents
  induction extents with
  | nil => simp
  | cons extent rest ih =>
    intro start bound
    simp only [total_cons] at bound ⊢
    have step : (start + extent.length).toNat = start.toNat + extent.length.toNat := by
      rw [UInt32.toNat_add]
      exact Nat.mod_eq_of_lt (by omega)
    rw [List.foldl_cons, ih _ (by omega), step]
    omega

end FreeSpaceMap
end Quartz.Space
