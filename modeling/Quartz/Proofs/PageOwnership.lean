import Quartz.Lib.Runs
import Quartz.Proofs.FreeSpace

/-! Who holds which page. The page allocator never hands out a page it still owes; the
free space map and the held pages share out the managed pages, as long as no allocation
is served from the front of a larger free extent. -/

namespace Quartz.Storage.PageAllocator

structure Sound (allocator : PageAllocator) : Prop where
  lower : kReservedPageCount.toNat ≤ allocator.nextPageId.toNat
  upper : allocator.nextPageId.toNat ≤ kMaxPageCount.toNat
  distinct : allocator.freeList.Nodup
  used : ∀ id ∈ allocator.freeList, kReservedPageCount.toNat ≤ id.toNat ∧ id.toNat < allocator.nextPageId.toNat

/-- A data page that was handed out and not given back. -/
def Owns (allocator : PageAllocator) (id : PageId) : Prop :=
  kReservedPageCount.toNat ≤ id.toNat ∧ id.toNat < allocator.nextPageId.toNat ∧ id ∉ allocator.freeList

variable {allocator : PageAllocator}

theorem sound_new : Sound {} := ⟨by decide, by decide, List.nodup_nil, by simp⟩

theorem owns_new (id : PageId) : ¬ Owns {} id := by
  rintro ⟨lower, upper, -⟩
  exact absurd upper (Nat.not_lt.mpr lower)

theorem Owns.data {id : PageId} (sound : allocator.Sound) (owns : allocator.Owns id) :
    kFirstDataPageId.toNat ≤ id.toNat ∧ id.toNat < kMaxPageCount.toNat :=
  ⟨owns.1, Nat.lt_of_lt_of_le owns.2.1 sound.upper⟩

theorem ne_invalid {id : PageId} (small : id.toNat < kMaxPageCount.toNat) : id ≠ kInvalidPageId := by
  rintro rfl
  exact absurd small (by decide)

theorem allocate_cases (sound : allocator.Sound) :
    allocator.allocate = (kInvalidPageId, allocator) ∨
      ∃ id after, allocator.allocate = (id, after) ∧ id ≠ kInvalidPageId ∧ after.Sound ∧ ¬ allocator.Owns id ∧
        ∀ other, after.Owns other ↔ allocator.Owns other ∨ other = id := by
  obtain ⟨lower, upper, distinct, used⟩ := sound
  obtain ⟨freeList, next, stats⟩ := allocator
  cases freeList with
  | cons id rest =>
    obtain ⟨fresh, restDistinct⟩ := List.nodup_cons.mp distinct
    have inside := used id List.mem_cons_self
    refine .inr ⟨id, _, rfl, ne_invalid (Nat.lt_of_lt_of_le inside.2 upper),
      ⟨lower, upper, restDistinct, fun other member => used other (List.mem_cons_of_mem _ member)⟩, ?_, ?_⟩
    · rintro ⟨-, -, notFree⟩
      exact notFree List.mem_cons_self
    · intro other
      simp only [Owns, List.mem_cons, not_or]
      constructor
      · rintro ⟨low, high, notFree⟩
        by_cases same : other = id
        · exact .inr same
        · exact .inl ⟨low, high, same, notFree⟩
      · rintro (⟨low, high, -, notFree⟩ | rfl)
        · exact ⟨low, high, notFree⟩
        · exact ⟨inside.1, inside.2, fresh⟩
  | nil =>
    by_cases exhausted : next > kMaxPageId
    · exact .inl (by simp [allocate, exhausted])
    have room : next.toNat < kMaxPageCount.toNat := by
      have most : kMaxPageId.toNat = 1048575 := rfl
      have count : kMaxPageCount.toNat = 1048576 := rfl
      rw [gt_iff_lt, UInt32.lt_iff_toNat_lt, most] at exhausted
      omega
    have step : (next + 1).toNat = next.toNat + 1 := by
      have count : kMaxPageCount.toNat = 1048576 := rfl
      rw [UInt32.toNat_add, UInt32.toNat_one]
      exact Nat.mod_eq_of_lt (by omega)
    refine .inr ⟨next, { nextPageId := next + 1, stats := record stats 0 }, by simp only [allocate, exhausted, if_false],
      ne_invalid room, ⟨?_, ?_, List.nodup_nil, by simp⟩, ?_, ?_⟩
    · simp only [step] at lower ⊢
      omega
    · simp only [step]
      omega
    · rintro ⟨-, high, -⟩
      exact absurd high (Nat.lt_irrefl _)
    · intro other
      simp only [Owns, step, List.not_mem_nil, not_false_eq_true, and_true] at lower ⊢
      constructor
      · rintro ⟨low, high⟩
        rcases Nat.lt_succ_iff_lt_or_eq.mp high with earlier | same
        · exact .inl ⟨low, earlier⟩
        · exact .inr (UInt32.toNat_inj.mp same)
      · rintro (⟨low, high⟩ | rfl)
        · exact ⟨low, by omega⟩
        · exact ⟨lower, by omega⟩

/-- An owned page can be given back. -/
theorem free_owned (sound : allocator.Sound) {id : PageId} (owns : allocator.Owns id) :
    ∃ after, allocator.free id = (true, after) ∧ after.Sound ∧
      ∀ other, after.Owns other ↔ allocator.Owns other ∧ other ≠ id := by
  obtain ⟨low, high, notFree⟩ := owns
  have valid : ¬ (id = kInvalidPageId ∨ id < kReservedPageCount) := by
    rw [not_or, UInt32.lt_iff_toNat_lt]
    exact ⟨ne_invalid (Nat.lt_of_lt_of_le high sound.upper), Nat.not_lt.mpr low⟩
  have known : ¬ id ≥ allocator.nextPageId := by
    rw [ge_iff_le, UInt32.le_iff_toNat_le]
    exact Nat.not_le.mpr high
  rw [free, if_neg valid, if_neg known, if_neg notFree]
  refine ⟨_, rfl, ⟨sound.lower, sound.upper, List.nodup_cons.mpr ⟨notFree, sound.distinct⟩, ?_⟩, ?_⟩
  · intro other member
    rcases List.mem_cons.mp member with rfl | earlier
    · exact ⟨low, high⟩
    · exact sound.used other earlier
  · intro other
    simp only [Owns, List.mem_cons, not_or]
    tauto

/-- Any other id is refused. -/
theorem free_cases (allocator : PageAllocator) (id : PageId) :
    allocator.free id = (false, allocator) ∨ allocator.Owns id := by
  unfold free
  split
  · exact .inl rfl
  next valid =>
    split
    · exact .inl rfl
    next known =>
      split
      · exact .inl rfl
      next notFree =>
        rw [not_or, UInt32.lt_iff_toNat_lt] at valid
        rw [ge_iff_le, UInt32.le_iff_toNat_le] at known
        exact .inr ⟨Nat.not_lt.mp valid.2, Nat.not_le.mp known, notFree⟩

end Quartz.Storage.PageAllocator

namespace Quartz.Space
open Storage FreeSpaceMap

/-- The managed pages are shared out between the free map and the held pages. -/
structure Balanced (map : FreeSpaceMap) (held : List Nat) : Prop where
  separated : Separated map.extents
  apart : held.Nodup
  managed : ∀ page ∈ held, kFirstDataPageId.toNat ≤ page ∧ page ≤ kMaxPageId.toNat
  unfree : ∀ page ∈ held, ¬ Covered map.extents page
  counted : total map.extents + held.length = SpaceManager.managedPages.toNat

namespace Balanced

variable {map : FreeSpaceMap} {held : List Nat} {range current : Extent}

theorem perm {other : List Nat} (balanced : Balanced map held) (same : held.Perm other) : Balanced map other :=
  ⟨balanced.separated, same.nodup balanced.apart, fun page member => balanced.managed page (same.mem_iff.mpr member),
    fun page member => balanced.unfree page (same.mem_iff.mpr member), same.length_eq ▸ balanced.counted⟩

theorem small (balanced : Balanced map held) : total map.extents < 2 ^ 32 := by
  have counted := balanced.counted
  have count : SpaceManager.managedPages.toNat = 1048568 := rfl
  omega

theorem take (balanced : Balanced map held) (member : current ∈ map.extents) (nonempty : 0 < range.length.toNat)
    (within : range.Within current) (carved : range.start = current.start → ¬ range.length < current.length) :
    ∃ after, map.markAllocated range = (Status.success, after) ∧ Balanced after (range.pages ++ held) := by
  obtain ⟨after, marked, separated, count, cover⟩ :=
    balanced.separated.markAllocated_takes member nonempty within carved
  have managed := (balanced.separated.managed current member).of_within nonempty within
  have covered : ∀ page, range.Covers page → Covered map.extents page := fun page inside =>
    ⟨current, member, Nat.le_trans within.1 inside.1, Nat.lt_of_lt_of_le inside.2 within.2⟩
  refine ⟨after, marked, separated, ?_, ?_, ?_, ?_⟩
  · refine List.nodup_append.mpr ⟨range.nodup_pages, balanced.apart, ?_⟩
    rintro page inRange other inHeld rfl
    exact balanced.unfree page inHeld (covered page (Extent.mem_pages.mp inRange))
  · intro page inside
    rcases List.mem_append.mp inside with inRange | inHeld
    · obtain ⟨low, high⟩ := Extent.mem_pages.mp inRange
      have := managed.first
      have := managed.small
      have : kMaxPageId.toNat = 1048575 := rfl
      omega
    · exact balanced.managed page inHeld
  · intro page inside
    rw [cover]
    rcases List.mem_append.mp inside with inRange | inHeld
    · exact fun both => both.2 (Extent.mem_pages.mp inRange)
    · exact fun both => balanced.unfree page inHeld both.1
  · have counted := balanced.counted
    rw [List.length_append, Extent.length_pages]
    omega

theorem give (balanced : Balanced map (range.pages ++ held)) (managed : range.Managed) :
    ∃ after, map.markFree range = (Status.success, after) ∧ Balanced after held := by
  have taken : ∀ page, range.Covers page → ¬ Covered map.extents page := fun page inside =>
    balanced.unfree page (List.mem_append_left _ (Extent.mem_pages.mpr inside))
  obtain ⟨after, marked, separated, cover⟩ := balanced.separated.markFree_covers managed
  have count := total_eq separated.spaced balanced.separated.spaced cover taken
  obtain ⟨-, apart, across⟩ := List.nodup_append.mp balanced.apart
  refine ⟨after, marked, separated, apart, fun page inHeld => balanced.managed page (List.mem_append_right _ inHeld), ?_, ?_⟩
  · intro page inHeld covered
    rcases (cover page).mp covered with free | inRange
    · exact balanced.unfree page (List.mem_append_right _ inHeld) free
    · exact across page (Extent.mem_pages.mpr inRange) page inHeld rfl
  · have counted := balanced.counted
    rw [List.length_append, Extent.length_pages] at counted
    omega

end Balanced

theorem markAllocated_page_ok {map : FreeSpaceMap} (separated : Separated map.extents) {id : PageId}
    (managed : (Extent.mk id 1).Managed) :
    (map.markAllocated ⟨id, 1⟩).1.ok = true ↔ Covered map.extents id.toNat := by
  rw [markAllocated_ok_iff_shared separated.spaced managed.proper]
  constructor
  · rintro ⟨page, covered, starts, ends⟩
    obtain rfl : page = id.toNat := Nat.le_antisymm (Nat.le_of_lt_succ ends) starts
    exact covered
  · exact fun covered => ⟨id.toNat, covered, Nat.le_refl _, Nat.lt_succ_self _⟩

namespace SpaceManager

def freeSpaceMap (manager : SpaceManager) : FreeSpaceMap := manager.extentAllocator.freeSpaceMap

/-- A page request fails and leaves every ownership as it was, or hands out a page that
nobody owned and that the map has marked. -/
theorem allocatePage_cases {manager : SpaceManager} (sound : manager.pageAllocator.Sound) :
    (∃ after, manager.allocatePage = (kInvalidPageId, after) ∧ after.pageAllocator.Sound ∧
      (∀ other, after.pageAllocator.Owns other ↔ manager.pageAllocator.Owns other) ∧
      (after.freeSpaceMap = manager.freeSpaceMap ∨
        ∃ id, (Extent.mk id 1).Managed ∧ (manager.freeSpaceMap.markAllocated ⟨id, 1⟩).1.ok = false ∧
          after.freeSpaceMap = (manager.freeSpaceMap.markAllocated ⟨id, 1⟩).2)) ∨
    ∃ id after, manager.allocatePage = (id, after) ∧ id ≠ kInvalidPageId ∧ after.pageAllocator.Sound ∧
      ¬ manager.pageAllocator.Owns id ∧
      (∀ other, after.pageAllocator.Owns other ↔ manager.pageAllocator.Owns other ∨ other = id) ∧
      (Extent.mk id 1).Managed ∧ (manager.freeSpaceMap.markAllocated ⟨id, 1⟩).1.ok = true ∧
      after.freeSpaceMap = (manager.freeSpaceMap.markAllocated ⟨id, 1⟩).2 := by
  rcases PageAllocator.allocate_cases sound with failed | ⟨id, pages, allocated, valid, after, fresh, owns⟩
  · refine .inl ⟨{ manager with stats := manager.stats.recordAllocation false }, ?_, sound, fun _ => Iff.rfl, .inl rfl⟩
    simp only [allocatePage, failed, ne_eq, not_true, if_false]
  have owned : pages.Owns id := (owns id).mpr (.inr rfl)
  have managed : (Extent.mk id 1).Managed := by
    obtain ⟨low, high⟩ := owned.data after
    exact ⟨Nat.one_pos, low, high⟩
  cases marked : (manager.freeSpaceMap.markAllocated ⟨id, 1⟩).1.ok with
  | false =>
    obtain ⟨rolledBack, freed, backSound, backOwns⟩ := PageAllocator.free_owned after owned
    refine .inl ⟨⟨rolledBack, { manager.extentAllocator with
      freeSpaceMap := (manager.freeSpaceMap.markAllocated ⟨id, 1⟩).2 }, manager.stats.recordAllocation false⟩,
      ?_, backSound, fun other => ?_, .inr ⟨id, managed, marked, rfl⟩⟩
    · simp only [freeSpaceMap] at marked ⊢
      simp only [allocatePage, allocated, valid, ne_eq, not_false_eq_true, if_true, marked, Bool.not_false, freed]
    · rw [backOwns, owns]
      constructor
      · rintro ⟨either, different⟩
        exact either.resolve_right different
      · intro before
        refine ⟨.inl before, ?_⟩
        rintro rfl
        exact fresh before
  | true =>
    refine .inr ⟨id, ⟨pages, { manager.extentAllocator with
      freeSpaceMap := (manager.freeSpaceMap.markAllocated ⟨id, 1⟩).2 }, manager.stats.recordAllocation true⟩,
      ?_, valid, after, fresh, owns, managed, marked, rfl⟩
    simp only [freeSpaceMap] at marked ⊢
    simp only [allocatePage, allocated, valid, ne_eq, not_false_eq_true, if_true, marked, if_not_true]

/-- An owned page goes back to the allocator and to the map. -/
theorem freePage_owned {manager : SpaceManager} (sound : manager.pageAllocator.Sound)
    (separated : Separated manager.freeSpaceMap.extents) {id : PageId} (owns : manager.pageAllocator.Owns id) :
    ∃ pages map, manager.freePage id =
        (true, ⟨pages, { manager.extentAllocator with freeSpaceMap := map }, manager.stats.recordFree true⟩) ∧
      pages.Sound ∧ (∀ other, pages.Owns other ↔ manager.pageAllocator.Owns other ∧ other ≠ id) ∧
      (Extent.mk id 1).Managed ∧ Separated map.extents ∧
      manager.freeSpaceMap.markFree ⟨id, 1⟩ = (Status.success, map) := by
  obtain ⟨pages, freed, allocator, others⟩ := PageAllocator.free_owned sound owns
  obtain ⟨low, high⟩ := owns.data sound
  have managed : (Extent.mk id 1).Managed := ⟨Nat.one_pos, low, high⟩
  obtain ⟨map, marked, after, -⟩ := separated.markFree_covers managed
  refine ⟨pages, map, ?_, allocator, others, managed, after, marked⟩
  rw [freeSpaceMap] at marked
  simp only [freePage, freed, marked, if_not_true, Status.ok_success]

end SpaceManager

theorem pos_of_ne_zero {length : UInt32} (requested : length ≠ 0) : 0 < length.toNat := by
  rw [Nat.pos_iff_ne_zero]
  exact fun zero => requested (UInt32.toNat_inj.mp zero)

namespace ExtentAllocator

/-- An answer without effect on the map, or an extent from one of the free ones. -/
def Serves (allocator : ExtentAllocator) (answer : Extent × ExtentAllocator) : Prop :=
  answer.1.isValid = false ∧ answer.2.freeSpaceMap = allocator.freeSpaceMap ∨
    answer.1.isValid = true ∧ answer.2.freeSpaceMap = (allocator.freeSpaceMap.markAllocated answer.1).2 ∧
      0 < answer.1.length.toNat ∧ ∃ current ∈ allocator.freeSpaceMap.extents, answer.1.Within current

variable {allocator : ExtentAllocator} {length : UInt32}

/-- An extent that was asked for is the one the policy has chosen. -/
theorem allocate_chosen (separated : Separated allocator.freeSpaceMap.extents) (requested : length ≠ 0) (hints : AllocationHints) :
    (allocator.allocate length hints).1 = (allocator.policy.allocate allocator.freeSpaceMap length hints).1 ∧
      allocator.Serves (allocator.allocate length hints) := by
  have served := AllocationPolicy.allocate_served allocator.policy separated (pos_of_ne_zero requested) hints
  simp only [Serves, allocate, beq_false_of_ne requested, if_false_true]
  generalize (allocator.policy.allocate allocator.freeSpaceMap length hints).1 = extent at served
  rcases served with rfl | ⟨nonempty, current, member, within⟩
  · have invalid : (Extent.mk kInvalidPageId 0).isValid = false := rfl
    simp [invalid]
  have valid := ((separated.managed current member).of_within nonempty within).isValid
  have marked := markAllocated_ok_of_within separated.spaced member nonempty within
  simp only [valid, marked, if_true]
  exact ⟨trivial, .inr ⟨trivial, trivial, nonempty, current, member, within⟩⟩

theorem allocate_cases (separated : Separated allocator.freeSpaceMap.extents) (length : UInt32) (hints : AllocationHints) :
    allocator.Serves (allocator.allocate length hints) := by
  by_cases empty : length = 0
  · have refused : allocator.allocate length hints = ({}, allocator) := by
      simp only [allocate, empty, beq_self_eq_true, if_true]
    rw [refused]
    exact .inl ⟨rfl, rfl⟩
  · exact (allocate_chosen separated empty hints).2

theorem allocate_isValid_iff (spaced : Spaced allocator.freeSpaceMap.extents) (length : UInt32) (hints : AllocationHints) :
    (allocator.allocate length hints).1.isValid = true ↔
      length ≠ 0 ∧ ∃ free ∈ allocator.freeSpaceMap.extents, allocator.policy.Fits hints length free := by
  by_cases empty : length = 0
  · refine iff_of_false ?_ (fun requested => requested.1 empty)
    simp only [allocate, empty, beq_self_eq_true, if_true]
    decide
  have positive := pos_of_ne_zero empty
  have answers := AllocationPolicy.allocate_answers allocator.policy spaced positive hints
  rw [and_iff_right empty, ← answers.isValid_iff spaced positive]
  simp only [allocate, beq_false_of_ne empty, if_false_true]
  cases valid : (allocator.policy.allocate allocator.freeSpaceMap length hints).1.isValid with
  | false => simp [valid]
  | true =>
    obtain ⟨exactly, current, member, within⟩ := answers.inside valid
    have marked := markAllocated_ok_of_within spaced member (by rw [exactly]; exact positive) within
    simp [valid, marked]

end ExtentAllocator

inductive SpaceCall where
  | allocatePage
  | allocateExtent (length : UInt32) (hints : AllocationHints)
  | freePage (id : PageId)
  | freeExtent (extent : Extent)
  deriving DecidableEq, Repr

/-- A space manager and what its clients hold of it. -/
structure Ledger where
  manager : SpaceManager
  pages : List PageId := []
  extents : List Extent := []
  deriving DecidableEq, Repr

namespace Ledger

def held (ledger : Ledger) : List Nat := ledger.pages.map UInt32.toNat ++ ledger.extents.flatMap Extent.pages

def call (ledger : Ledger) : SpaceCall → Ledger
  | .allocatePage =>
    let (id, manager) := ledger.manager.allocatePage
    { ledger with manager := manager, pages := if id ≠ kInvalidPageId then id :: ledger.pages else ledger.pages }
  | .allocateExtent length hints =>
    let (extent, manager) := ledger.manager.allocateExtent length hints
    { ledger with manager := manager, extents := if extent.isValid then extent :: ledger.extents else ledger.extents }
  | .freePage id => { ledger with manager := (ledger.manager.freePage id).2, pages := ledger.pages.erase id }
  | .freeExtent extent =>
    { ledger with manager := (ledger.manager.freeExtent extent).2, extents := ledger.extents.erase extent }

/-- Clients free what they hold. -/
def Legal (ledger : Ledger) : SpaceCall → Prop
  | .freePage id => id ∈ ledger.pages
  | .freeExtent extent => extent ∈ ledger.extents
  | _ => True

instance (ledger : Ledger) : (next : SpaceCall) → Decidable (ledger.Legal next)
  | .freePage id => inferInstanceAs (Decidable (id ∈ ledger.pages))
  | .freeExtent extent => inferInstanceAs (Decidable (extent ∈ ledger.extents))
  | .allocatePage | .allocateExtent _ _ => isTrue trivial

structure Exclusive (ledger : Ledger) : Prop where
  disjoint : ledger.held.Nodup
  managed : ∀ page ∈ ledger.held, kFirstDataPageId.toNat ≤ page ∧ page ≤ kMaxPageId.toNat
  counted : (ledger.manager.freePageCount.toNat : Int) = SpaceManager.managedPages.toNat - ledger.held.length

def handed (ledger : Ledger) : SpaceCall → Option Extent
  | .allocatePage =>
    let (id, _) := ledger.manager.allocatePage
    if id ≠ kInvalidPageId then some ⟨id, 1⟩ else none
  | .allocateExtent length hints =>
    let (extent, _) := ledger.manager.allocateExtent length hints
    if extent.isValid then some extent else none
  | _ => none

/-- The id that the page allocator would hand out next. -/
def nextId (allocator : PageAllocator) : Option PageId :=
  match allocator.freeList with
  | id :: _ => some id
  | [] => if allocator.nextPageId > kMaxPageId then none else some allocator.nextPageId

/-- What a call asks the map for: the allocator's next page, or the extent that the policy chooses. -/
def chosen (ledger : Ledger) : SpaceCall → Option Extent
  | .allocatePage => (nextId ledger.manager.pageAllocator).map fun id => ⟨id, 1⟩
  | .allocateExtent length hints =>
    if length = 0 then none
    else some (ledger.manager.extentAllocator.policy.allocate ledger.manager.freeSpaceMap length hints).1
  | _ => none

/-- The range that is asked for is not a proper front of a free extent. -/
def Carved (ledger : Ledger) (next : SpaceCall) : Prop :=
  ∀ range ∈ ledger.chosen next, ∀ free ∈ ledger.manager.freeSpaceMap.extents,
    range.start = free.start → ¬ range.length < free.length

structure Sound (ledger : Ledger) : Prop where
  balanced : Balanced ledger.manager.freeSpaceMap ledger.held
  allocator : ledger.manager.pageAllocator.Sound
  owned : ∀ id ∈ ledger.pages, ledger.manager.pageAllocator.Owns id
  nonempty : ∀ extent ∈ ledger.extents, 0 < extent.length.toNat

theorem Sound.exclusive {ledger : Ledger} (sound : ledger.Sound) : ledger.Exclusive := by
  refine ⟨sound.balanced.apart, sound.balanced.managed, ?_⟩
  have counted := sound.balanced.counted
  have free : ledger.manager.freePageCount.toNat = total ledger.manager.freeSpaceMap.extents :=
    countFree_toNat sound.balanced.small
  omega

theorem sound_new (policy : AllocationPolicy) : Sound { manager := SpaceManager.withPolicy policy } := by
  refine ⟨⟨?_, List.nodup_nil, by simp [held], by simp [held], rfl⟩, PageAllocator.sound_new, by simp, by simp⟩
  exact ⟨List.forall_mem_singleton.mpr ⟨by decide, by decide, by decide⟩, List.pairwise_singleton _ _⟩

/-- The map has managed pages only, and the extents the clients hold are such too. -/
structure Kept (ledger : Ledger) : Prop where
  separated : Separated ledger.manager.freeSpaceMap.extents
  allocator : ledger.manager.pageAllocator.Sound
  held : ∀ extent ∈ ledger.extents, extent.Managed

theorem managed_of_held {ledger : Ledger} (sound : ledger.Sound) {extent : Extent}
    (member : extent ∈ ledger.extents) : extent.Managed := by
  refine .of_covers (sound.nonempty extent member) fun page covers => ?_
  have inside := sound.balanced.managed page
    (List.mem_append_right _ (List.mem_flatMap.mpr ⟨extent, member, Extent.mem_pages.mpr covers⟩))
  have most : kMaxPageId.toNat + 1 = kMaxPageCount.toNat := rfl
  omega

theorem Sound.kept {ledger : Ledger} (sound : ledger.Sound) : ledger.Kept :=
  ⟨sound.balanced.separated, sound.allocator, fun _ member => managed_of_held sound member⟩

theorem page_pages (id : PageId) : (Extent.mk id 1).pages = [id.toNat] := rfl

/-- What every allocation does: the range lies in a free extent, the map marks it and the
clients hold it. -/
theorem handed_facts {ledger : Ledger} (kept : ledger.Kept) {next : SpaceCall} {range : Extent}
    (handed : ledger.handed next = some range) :
    0 < range.length.toNat ∧ (∃ current ∈ ledger.manager.freeSpaceMap.extents, range.Within current) ∧
      (ledger.call next).manager.freeSpaceMap = (ledger.manager.freeSpaceMap.markAllocated range).2 ∧
      (range.pages ++ ledger.held).Perm (ledger.call next).held := by
  cases next with
  | freePage | freeExtent => cases handed
  | allocatePage =>
    rcases SpaceManager.allocatePage_cases kept.allocator with
      ⟨after, failed, -⟩ | ⟨id, after, allocated, valid, -, -, -, managed, marked, map⟩
    · simp [Ledger.handed, failed] at handed
    · simp only [Ledger.handed, allocated, valid, ne_eq, not_false_eq_true, if_true, Option.some.injEq] at handed
      subst handed
      refine ⟨Nat.one_pos, (markAllocated_page_ok kept.separated managed).mp marked, ?_, ?_⟩
      · simpa only [call, allocated] using map
      · simp [call, allocated, valid, held, page_pages]
  | allocateExtent length hints =>
    simp only [Ledger.handed, SpaceManager.allocateExtent] at handed
    rcases ExtentAllocator.allocate_cases kept.separated length hints with ⟨invalid, -⟩ | ⟨valid, map, nonempty, inside⟩
    · simp only [invalid, if_false_true] at handed
      cases handed
    · simp only [valid, if_true, Option.some.injEq] at handed
      subst handed
      refine ⟨nonempty, inside, map, ?_⟩
      simp only [call, SpaceManager.allocateExtent, valid, if_true, held, List.flatMap_cons]
      rw [← List.append_assoc, ← List.append_assoc]
      exact List.perm_append_comm.append_right _

theorem refused_facts {ledger : Ledger} (kept : ledger.Kept) {next : SpaceCall}
    (allocates : next = .allocatePage ∨ ∃ length hints, next = .allocateExtent length hints)
    (refused : ledger.handed next = none) :
    (ledger.call next).manager.freeSpaceMap = ledger.manager.freeSpaceMap ∧ (ledger.call next).held = ledger.held := by
  rcases allocates with rfl | ⟨length, hints, rfl⟩
  · rcases SpaceManager.allocatePage_cases kept.allocator with
      ⟨after, failed, -, -, map⟩ | ⟨id, after, allocated, valid, -⟩
    · refine ⟨?_, by simp [call, failed, held]⟩
      simp only [call, failed]
      rcases map with same | ⟨id, managed, unmarked, map⟩
      · exact same
      · exact map.trans (markAllocated_failed unmarked)
    · simp [Ledger.handed, allocated, valid] at refused
  · simp only [Ledger.handed, SpaceManager.allocateExtent] at refused
    rcases ExtentAllocator.allocate_cases kept.separated length hints with ⟨invalid, map⟩ | ⟨valid, -⟩
    · exact ⟨map, by simp only [call, SpaceManager.allocateExtent, invalid, if_false_true, held]⟩
    · simp [valid] at refused

theorem allocate_nextId {allocator : PageAllocator} (sound : allocator.Sound) :
    nextId allocator = none ∧ allocator.allocate.1 = kInvalidPageId ∨
      ∃ id, nextId allocator = some id ∧ allocator.allocate.1 = id ∧ (Extent.mk id 1).Managed := by
  obtain ⟨lower, upper, -, used⟩ := sound
  obtain ⟨freeList, next, stats⟩ := allocator
  cases freeList with
  | cons id rest =>
    obtain ⟨low, high⟩ := used id List.mem_cons_self
    exact .inr ⟨id, rfl, rfl, Nat.one_pos, low, Nat.lt_of_lt_of_le high upper⟩
  | nil =>
    by_cases exhausted : next > kMaxPageId
    · exact .inl (by simp [nextId, PageAllocator.allocate, exhausted])
    · refine .inr ⟨next, by simp [nextId, exhausted], by simp [PageAllocator.allocate, exhausted], Nat.one_pos, lower, ?_⟩
      rw [gt_iff_lt, UInt32.lt_iff_toNat_lt] at exhausted
      have most : kMaxPageId.toNat + 1 = kMaxPageCount.toNat := rfl
      simp only [Extent.limit, UInt32.toNat_one]
      omega

theorem Kept.handed_page_iff {ledger : Ledger} (kept : ledger.Kept) (range : Extent) :
    ledger.handed .allocatePage = some range ↔ ∃ id, nextId ledger.manager.pageAllocator = some id ∧
      Covered ledger.manager.freeSpaceMap.extents id.toNat ∧ range = ⟨id, 1⟩ := by
  rcases allocate_nextId kept.allocator with ⟨none, failed⟩ | ⟨id, found, allocated, managed⟩
  · simp [Ledger.handed, SpaceManager.allocatePage, failed, none]
  have valid : id ≠ kInvalidPageId := PageAllocator.ne_invalid managed.last
  have marked := markAllocated_page_ok kept.separated managed
  rw [SpaceManager.freeSpaceMap] at marked ⊢
  simp only [found, Option.some.injEq, exists_eq_left', ← marked]
  simp only [Ledger.handed, SpaceManager.allocatePage, allocated, valid, ne_eq, not_false_eq_true, if_true]
  cases (ledger.manager.extentAllocator.freeSpaceMap.markAllocated ⟨id, 1⟩).1.ok with
  | false => simp
  | true => simp [valid, eq_comm]

theorem Kept.handed_chosen {ledger : Ledger} (kept : ledger.Kept) {next : SpaceCall} {range : Extent}
    (handed : ledger.handed next = some range) : ledger.chosen next = some range := by
  cases next with
  | freePage | freeExtent => cases handed
  | allocatePage =>
    obtain ⟨id, found, -, rfl⟩ := (kept.handed_page_iff range).mp handed
    rw [chosen, found, Option.map_some]
  | allocateExtent length hints =>
    by_cases empty : length = 0
    · simp [Ledger.handed, SpaceManager.allocateExtent, ExtentAllocator.allocate, empty, Extent.isValid] at handed
    · have same := (ExtentAllocator.allocate_chosen kept.separated empty hints).1
      rw [chosen, if_neg empty, SpaceManager.freeSpaceMap, ← same]
      exact (Option.ite_none_right_eq_some.mp handed).2

/-- A range in front of a free extent is handed out when it is asked for. -/
theorem Kept.chosen_handed {ledger : Ledger} (kept : ledger.Kept) {next : SpaceCall} {range free : Extent}
    (chosen : ledger.chosen next = some range) (member : free ∈ ledger.manager.freeSpaceMap.extents)
    (starts : range.start = free.start) : ledger.handed next = some range := by
  have managed := kept.separated.managed free member
  cases next with
  | freePage | freeExtent => cases chosen
  | allocatePage =>
    obtain ⟨id, found, rfl⟩ := Option.map_eq_some_iff.mp chosen
    have covered : Covered ledger.manager.freeSpaceMap.extents id.toNat := by
      have same : id.toNat = free.start.toNat := congrArg UInt32.toNat starts
      have nonempty := managed.nonempty
      refine ⟨free, member, by rw [same], ?_⟩
      rw [same, Extent.limit]
      omega
    exact (kept.handed_page_iff _).mpr ⟨id, found, covered, rfl⟩
  | allocateExtent length hints =>
    by_cases empty : length = 0
    · rw [Ledger.chosen, if_pos empty] at chosen
      cases chosen
    have same := (ExtentAllocator.allocate_chosen kept.separated empty hints).1
    have served := AllocationPolicy.allocate_served ledger.manager.extentAllocator.policy kept.separated
      (pos_of_ne_zero empty) hints
    rw [Ledger.chosen, if_neg empty, Option.some.injEq] at chosen
    rw [chosen] at served
    rw [SpaceManager.freeSpaceMap, ← same] at chosen
    rcases served with rfl | ⟨nonempty, current, inside, within⟩
    · have small := managed.last
      rw [Extent.limit, ← starts] at small
      exact absurd (Nat.le_trans (Nat.le_add_right _ _) small) (by decide)
    · have valid := ((kept.separated.managed current inside).of_within nonempty within).isValid
      rw [← chosen] at valid
      exact Option.ite_none_right_eq_some.mpr ⟨valid, congrArg some chosen⟩

theorem balanced_allocation {ledger : Ledger} (sound : ledger.Sound) {next : SpaceCall}
    (allocates : next = .allocatePage ∨ ∃ length hints, next = .allocateExtent length hints)
    (carved : ledger.Carved next) : Balanced (ledger.call next).manager.freeSpaceMap (ledger.call next).held := by
  cases handed : ledger.handed next with
  | none =>
    obtain ⟨map, same⟩ := refused_facts sound.kept allocates handed
    rw [map, same]
    exact sound.balanced
  | some range =>
    obtain ⟨nonempty, ⟨current, member, within⟩, map, perm⟩ := handed_facts sound.kept handed
    have whole := carved range (sound.kept.handed_chosen handed) current member
    obtain ⟨after, marked, balanced⟩ := sound.balanced.take member nonempty within whole
    rw [map, marked]
    exact balanced.perm perm

theorem pages_nodup {ledger : Ledger} (sound : ledger.Sound) : ledger.pages.Nodup :=
  List.Nodup.of_map _ (List.nodup_append.mp sound.balanced.apart).1

/-- A legal call that carves what it hands out keeps the ledger sound. -/
theorem call_sound {ledger : Ledger} (sound : ledger.Sound) {next : SpaceCall} (legal : ledger.Legal next)
    (carved : ledger.Carved next) : (ledger.call next).Sound := by
  cases next with
  | allocatePage =>
    refine ⟨balanced_allocation sound (.inl rfl) carved, ?_, ?_, sound.nonempty⟩ <;>
      rcases SpaceManager.allocatePage_cases sound.allocator with
        ⟨after, failed, allocator, owns, -⟩ | ⟨id, after, allocated, valid, allocator, -, owns, -⟩
    · simpa only [call, failed] using allocator
    · simpa only [call, allocated] using allocator
    · simp only [call, failed, ne_eq, not_true, if_false, owns]
      exact sound.owned
    · simp only [call, allocated, valid, ne_eq, not_false_eq_true, if_true, List.mem_cons, owns]
      rintro other (rfl | earlier)
      · exact .inr rfl
      · exact .inl (sound.owned other earlier)
  | allocateExtent length hints =>
    refine ⟨balanced_allocation sound (.inr ⟨length, hints, rfl⟩) carved, sound.allocator, sound.owned, ?_⟩
    rcases ExtentAllocator.allocate_cases sound.balanced.separated length hints with
      ⟨invalid, -⟩ | ⟨valid, -, nonempty, -⟩
    · simp only [call, SpaceManager.allocateExtent] at invalid ⊢
      simp only [invalid, if_false_true]
      exact sound.nonempty
    · simp only [call, SpaceManager.allocateExtent] at valid nonempty ⊢
      simp only [valid, if_true, List.mem_cons, forall_eq_or_imp]
      exact ⟨nonempty, sound.nonempty⟩
  | freePage id =>
    obtain ⟨pages, map, called, allocator, owns, managed, -, freed⟩ :=
      SpaceManager.freePage_owned sound.allocator sound.balanced.separated (sound.owned id legal)
    have perm : ledger.held.Perm ((Extent.mk id 1).pages ++ (ledger.call (.freePage id)).held) := by
      rw [page_pages]
      exact ((List.perm_cons_erase legal).map UInt32.toNat).append_right _
    obtain ⟨after, marked, balanced⟩ := (sound.balanced.perm perm).give managed
    cases freed.symm.trans marked
    refine ⟨?_, ?_, ?_, sound.nonempty⟩
    · simpa only [call, called, SpaceManager.freeSpaceMap] using balanced
    · simpa only [call, called] using allocator
    · intro other member
      simp only [call, called, owns] at member ⊢
      obtain ⟨different, earlier⟩ := (pages_nodup sound).mem_erase_iff.mp member
      exact ⟨sound.owned other earlier, different⟩
  | freeExtent extent =>
    have managed := managed_of_held sound legal
    have perm : ledger.held.Perm (extent.pages ++ (ledger.call (.freeExtent extent)).held) := by
      have moved := ((List.perm_cons_erase legal).flatMap_right Extent.pages).append_left (ledger.pages.map UInt32.toNat)
      refine moved.trans ?_
      rw [List.flatMap_cons, ← List.append_assoc]
      exact (List.perm_append_comm.append_right _).trans (List.append_assoc _ _ _ ▸ List.Perm.refl _)
    obtain ⟨after, marked, balanced⟩ := (sound.balanced.perm perm).give managed
    rw [SpaceManager.freeSpaceMap] at marked
    have called : (ledger.manager.extentAllocator.release extent).2.freeSpaceMap = after := by
      simp only [ExtentAllocator.release, managed.isValid, marked, if_not_true]
    refine ⟨?_, sound.allocator, sound.owned, fun other member => sound.nonempty other (List.mem_of_mem_erase member)⟩
    rw [show (ledger.call (.freeExtent extent)).manager.freeSpaceMap = after from called]
    exact balanced

theorem call_carved {ledger : Ledger} (sound : ledger.Sound) {next : SpaceCall}
    (exclusive : (ledger.call next).Exclusive) : ledger.Carved next := by
  intro range chosen current member start shorter
  have handed := sound.kept.chosen_handed chosen member start
  obtain ⟨nonempty, -, map, perm⟩ := handed_facts sound.kept handed
  have ignored := markAllocated_ignores sound.balanced.separated.spaced member nonempty start shorter
  have map : (ledger.call next).manager.freeSpaceMap = ledger.manager.freeSpaceMap :=
    map.trans (congrArg Prod.snd ignored)
  have free : (ledger.call next).manager.freePageCount.toNat = total ledger.manager.freeSpaceMap.extents := by
    have small := sound.balanced.small
    rw [← map] at small ⊢
    exact countFree_toNat small
  have counted := exclusive.counted
  have before := sound.balanced.counted
  rw [free, ← perm.length_eq, List.length_append, Extent.length_pages] at counted
  omega

theorem exclusive_iff_carved (policy : AllocationPolicy) (calls : List SpaceCall)
    (legal : Runs.AtEachStep call Legal { manager := SpaceManager.withPolicy policy } calls) :
    Runs.Always call Exclusive { manager := SpaceManager.withPolicy policy } calls ↔
      Runs.AtEachStep call Carved { manager := SpaceManager.withPolicy policy } calls :=
  Runs.always_iff_atEachStep Sound (fun _ sound => sound.exclusive)
    (fun _ _ sound legal carved => call_sound sound legal carved)
    (fun _ _ sound _ exclusive => call_carved sound exclusive) (sound_new policy) legal

theorem exclusive_iff_carved_from_the_end :
    let start : Ledger := { manager := SpaceManager.withPolicy .firstFit }
    let calls := [.allocateExtent 10 { preferEnd := true }, .freeExtent ⟨1048566, 10⟩]
    Runs.AtEachStep call Legal start calls ∧
      (Runs.Always call Exclusive start calls ↔ Runs.AtEachStep call Carved start calls) :=
  ⟨by decide +kernel, exclusive_iff_carved .firstFit _ (by decide +kernel)⟩

/-- The first page handed out is still counted as free. -/
theorem first_page_stays_free :
    let start : Ledger := { manager := SpaceManager.withPolicy .firstFit }
    Runs.AtEachStep call Legal start [.allocatePage] ∧ (start.call .allocatePage).pages = [8] ∧
      (start.call .allocatePage).manager.freePageCount = SpaceManager.managedPages ∧
      ¬ Runs.Always call Exclusive start [.allocatePage] := by
  refine ⟨by decide +kernel, by decide +kernel, by decide +kernel, fun always => ?_⟩
  have counted := always.last.counted
  revert counted
  decide +kernel

end Ledger
end Quartz.Space
