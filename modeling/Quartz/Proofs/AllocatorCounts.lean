import Quartz.Proofs.PageOwnership

/-! The page allocator against a record of its own answers. The pages handed out and not
given back, together with the free list, are exactly the ids below the next fresh one. The
five counters follow from that. -/

namespace Quartz.Storage.PageAllocator
open Runs

inductive Call where
  | allocate
  | free (id : PageId)
  | reset
  deriving DecidableEq, Repr

/-- An allocator with what its answers amount to since it was fresh: the pages it has
handed out and not taken back, how often it did either, and the most pages its counter
has shown at once. -/
structure History where
  allocator : PageAllocator := {}
  live : List PageId := []
  granted : Nat := 0
  returned : Nat := 0
  most : Nat := 0
  deriving DecidableEq, Repr

namespace History

def step (history : History) : Call → History
  | .allocate =>
    let (id, after) := history.allocator.allocate
    let most := max history.most after.stats.currentAllocated.toNat
    if id = kInvalidPageId then { history with allocator := after, most := most }
    else { history with allocator := after, live := id :: history.live, granted := history.granted + 1, most := most }
  | .free id =>
    let (freed, after) := history.allocator.free id
    let most := max history.most after.stats.currentAllocated.toNat
    if freed then
      { history with allocator := after, live := history.live.erase id, returned := history.returned + 1, most := most }
    else { history with allocator := after, most := most }
  | .reset => { allocator := history.allocator.reset }

def known (allocator : PageAllocator) : List Nat :=
  List.range' kReservedPageCount.toNat (allocator.nextPageId.toNat - kReservedPageCount.toNat)

/-- The live pages and the free list share out the ids ever used, and the counters count them. -/
structure Shared (history : History) : Prop where
  lower : kReservedPageCount.toNat ≤ history.allocator.nextPageId.toNat
  upper : history.allocator.nextPageId.toNat ≤ kMaxPageCount.toNat
  ids : ((history.live ++ history.allocator.freeList).map UInt32.toNat).Perm (known history.allocator)
  balance : history.granted = history.returned + history.live.length
  current : history.allocator.stats.currentAllocated.toNat = history.live.length
  allocated : history.allocator.stats.totalAllocated.toNat = history.granted % 2 ^ 32
  freed : history.allocator.stats.totalFreed.toNat = history.returned % 2 ^ 32
  size : history.allocator.stats.freeListSize.toNat = history.allocator.freeList.length
  peak : history.allocator.stats.peakAllocated.toNat = history.most
  reached : history.live.length ≤ history.most

variable {history : History}

theorem reserved_eq : kReservedPageCount.toNat = 8 := rfl

theorem most_eq : kMaxPageCount.toNat = 1048576 := rfl

theorem shared_new : Shared {} :=
  ⟨by decide, by decide, .refl _, rfl, rfl, rfl, rfl, rfl, rfl, Nat.le_refl _⟩

theorem Shared.nodup (shared : history.Shared) : (history.live ++ history.allocator.freeList).Nodup :=
  List.Nodup.of_map _ (shared.ids.nodup_iff.mpr List.nodup_range')

theorem Shared.mem (shared : history.Shared) (id : PageId) :
    id ∈ history.live ∨ id ∈ history.allocator.freeList ↔
      kReservedPageCount.toNat ≤ id.toNat ∧ id.toNat < history.allocator.nextPageId.toNat := by
  have lower := shared.lower
  have same : id ∈ history.live ++ history.allocator.freeList ↔ id.toNat ∈ known history.allocator := by
    rw [← shared.ids.mem_iff, List.mem_map_of_injective fun _ _ => UInt32.toNat_inj.mp]
  rw [← List.mem_append, same, known, List.mem_range'_1]
  omega

theorem Shared.known_valid (shared : history.Shared) {id : PageId}
    (known : id ∈ history.live ∨ id ∈ history.allocator.freeList) : id ≠ kInvalidPageId :=
  ne_invalid (Nat.lt_of_lt_of_le ((shared.mem id).mp known).2 shared.upper)

theorem Shared.count (shared : history.Shared) :
    kReservedPageCount.toNat + history.live.length + history.allocator.freeList.length =
      history.allocator.nextPageId.toNat := by
  have lower := shared.lower
  have lengths := shared.ids.length_eq
  simp only [List.length_map, List.length_append, known, List.length_range'] at lengths
  omega

theorem Shared.isAllocated_iff (shared : history.Shared) (id : PageId) :
    kReservedPageCount ≤ id ∧ history.allocator.isAllocated id = true ↔ id ∈ history.live := by
  have apart : id ∈ history.live → id ∉ history.allocator.freeList :=
    fun held free => (List.nodup_append.mp shared.nodup).2.2 id held id free rfl
  have split := shared.mem id
  have upper := shared.upper
  rw [most_eq] at upper
  simp only [isAllocated, UInt32.le_iff_toNat_le, UInt32.lt_iff_toNat_lt, ge_iff_le, ← UInt32.toNat_inj, kInvalidPageId,
    UInt32.reduceToNat]
  split <;> try split
  all_goals try split
  all_goals simp only [decide_not, Bool.not_eq_true', decide_eq_false_iff_not, Bool.false_eq_true, and_false, and_true]
  all_goals grind

theorem small_succ {number : UInt32} {count : Nat} (same : number.toNat = count) (small : count < 1048576) :
    (number + 1).toNat = count + 1 := by
  rw [UInt32.toNat_add, same, UInt32.toNat_one]
  exact Nat.mod_eq_of_lt (by omega)

theorem wrapped_succ {number : UInt32} {count : Nat} (same : number.toNat = count % 2 ^ 32) :
    (number + 1).toNat = (count + 1) % 2 ^ 32 := by
  rw [UInt32.toNat_add, same, UInt32.toNat_one, Nat.mod_add_mod]

theorem Shared.granting (shared : history.Shared) {id : PageId} {after : PageAllocator}
    (lower : kReservedPageCount.toNat ≤ after.nextPageId.toNat) (upper : after.nextPageId.toNat ≤ kMaxPageCount.toNat)
    (ids : ((id :: history.live ++ after.freeList).map UInt32.toNat).Perm (known after))
    (room : history.live.length + after.freeList.length < 1048576)
    (stats : after.stats = record history.allocator.stats after.freeList.length) :
    Shared ⟨after, id :: history.live, history.granted + 1, history.returned,
      max history.most after.stats.currentAllocated.toNat⟩ := by
  have current := small_succ shared.current (by omega)
  have peak := shared.peak
  have reached := shared.reached
  have balance := shared.balance
  refine ⟨lower, upper, ids, ?_, ?_, ?_, ?_, ?_, ?_, ?_⟩
  all_goals simp only [stats, record, List.length_cons]
  · omega
  · exact current
  · exact wrapped_succ shared.allocated
  · exact shared.freed
  · exact UInt32.toNat_ofNat_of_lt' (by simp [UInt32.size]; omega)
  · split
    · rename_i higher
      rw [gt_iff_lt, UInt32.lt_iff_toNat_lt] at higher
      omega
    · rename_i lower
      rw [gt_iff_lt, UInt32.lt_iff_toNat_lt] at lower
      omega
  · rw [current]
    exact Nat.le_max_right _ _

private theorem Shared.room (shared : history.Shared) :
    history.live.length + history.allocator.freeList.length < 1048576 := by
  have count := shared.count
  have upper := shared.upper
  rw [reserved_eq] at count
  rw [most_eq] at upper
  omega

theorem next_below {next : PageId} (more : ¬ next > kMaxPageId) : next.toNat < kMaxPageCount.toNat := by
  rw [gt_iff_lt, UInt32.lt_iff_toNat_lt, show kMaxPageId.toNat = 1048575 from rfl] at more
  rw [most_eq]
  omega

theorem known_grown {allocator after : PageAllocator} (lower : kReservedPageCount.toNat ≤ allocator.nextPageId.toNat)
    (next : after.nextPageId.toNat = allocator.nextPageId.toNat + 1) :
    known after = known allocator ++ [allocator.nextPageId.toNat] := by
  rw [known, known, next, Nat.sub_add_comm lower, List.range'_concat]
  congr 2
  omega

theorem Shared.allocate (shared : history.Shared) : (history.step .allocate).Shared := by
  have room := shared.room
  obtain ⟨⟨freeList, next, stats⟩, live, granted, returned, most⟩ := history
  cases freeList with
  | cons id rest =>
    have valid := shared.known_valid (.inr List.mem_cons_self)
    simp only [List.length_cons] at room
    have took : PageAllocator.allocate ⟨id :: rest, next, stats⟩ = (id, ⟨rest, next, record stats rest.length⟩) := rfl
    simp only [step, took, if_neg valid]
    refine shared.granting ?_ ?_ (.trans ?_ shared.ids) ?_ rfl
    · exact shared.lower
    · exact shared.upper
    · exact (List.perm_middle.symm).map _
    · simp only
      omega
  | nil =>
    by_cases exhausted : next > kMaxPageId
    · have reached := shared.reached
      have current := shared.current
      have same : max most stats.currentAllocated.toNat = most := Nat.max_eq_left (by simp only at *; omega)
      simpa only [step, PageAllocator.allocate, if_pos exhausted, if_true, same] using shared
    have below := next_below exhausted
    have valid := ne_invalid below
    have lower := shared.lower
    have grown := small_succ rfl below
    simp only [step, PageAllocator.allocate, if_neg exhausted, if_neg valid]
    refine shared.granting ?_ ?_ ?_ room rfl
    · simp only [grown] at lower ⊢
      omega
    · simp only [grown]
      omega
    · rw [known_grown lower grown]
      simpa using (shared.ids.cons next.toNat).trans (List.perm_append_singleton _ _).symm

/-- A page is taken back exactly when it is live. -/
theorem Shared.free_cases (shared : history.Shared) (id : PageId) :
    id ∉ history.live ∧ history.allocator.free id = (false, history.allocator) ∨
      id ∈ history.live ∧ history.allocator.free id = (true, { history.allocator with
        freeList := id :: history.allocator.freeList
        stats := { history.allocator.stats with
          totalFreed := history.allocator.stats.totalFreed + 1
          currentAllocated := history.allocator.stats.currentAllocated - 1
          freeListSize := UInt32.ofNat (history.allocator.freeList.length + 1) } }) := by
  have known := shared.mem id
  have apart := (List.nodup_append.mp shared.nodup).2.2 id
  have upper := shared.upper
  rw [most_eq] at upper
  simp only [PageAllocator.free, ge_iff_le, UInt32.le_iff_toNat_le, UInt32.lt_iff_toNat_lt, ← UInt32.toNat_inj,
    kInvalidPageId, UInt32.reduceToNat]
  by_cases held : id ∈ history.live
  · have notFree : id ∉ history.allocator.freeList := fun free => apart held id free rfl
    obtain ⟨low, high⟩ := known.mp (.inl held)
    rw [if_neg (by omega), if_neg (by omega), if_neg notFree]
    exact .inr ⟨held, rfl⟩
  · refine .inl ⟨held, ?_⟩
    split
    · rfl
    split
    · rfl
    split
    · rfl
    next low high notFree => exact absurd (known.mpr (by omega)) (by simp [held, notFree])

theorem Shared.free (shared : history.Shared) (id : PageId) : (history.step (.free id)).Shared := by
  have room := shared.room
  have reached := shared.reached
  have current := shared.current
  rcases shared.free_cases id with ⟨-, refused⟩ | ⟨held, accepted⟩
  · have same : max history.most history.allocator.stats.currentAllocated.toNat = history.most :=
      Nat.max_eq_left (by omega)
    simpa only [step, refused, same, if_false_true] using shared
  have some : 1 ≤ history.live.length := List.length_pos_of_mem held
  have fewer : (history.allocator.stats.currentAllocated - 1).toNat = history.live.length - 1 := by
    rw [UInt32.toNat_sub_of_le _ _ (by rw [UInt32.le_iff_toNat_le, UInt32.toNat_one]; omega), current, UInt32.toNat_one]
  have same : max history.most (history.live.length - 1) = history.most := Nat.max_eq_left (by omega)
  have length := List.length_erase_of_mem held
  simp only [step, accepted, fewer, same, if_true]
  refine ⟨shared.lower, shared.upper, .trans ?_ shared.ids, ?_, ?_, shared.allocated, wrapped_succ shared.freed, ?_, shared.peak, ?_⟩
  · have back : (history.live.erase id ++ id :: history.allocator.freeList).Perm
        (history.live ++ history.allocator.freeList) :=
      List.perm_middle.trans ((List.perm_cons_erase held).symm.append_right _)
    exact back.map _
  · have balance := shared.balance
    simp only [length]
    omega
  · simp only [length, fewer]
  · exact UInt32.toNat_ofNat_of_lt' (by simp [UInt32.size]; omega)
  · simp only [length]
    omega

theorem Shared.step (shared : history.Shared) (call : Call) : (history.step call).Shared :=
  match call with
  | .allocate => shared.allocate
  | .free id => shared.free id
  | .reset => shared_new

/-- What the allocator's state says of the answers it has given so far. -/
structure Consistent (history : History) : Prop where
  distinct : history.allocator.freeList.Nodup
  used : ∀ id ∈ history.allocator.freeList, kReservedPageCount ≤ id ∧ id < history.allocator.nextPageId
  held : ∀ id, kReservedPageCount ≤ id ∧ history.allocator.isAllocated id = true ↔ id ∈ history.live
  once : history.live.Nodup
  outstanding : kReservedPageCount.toNat + history.allocator.freeList.length +
    history.allocator.stats.currentAllocated.toNat = history.allocator.nextPageId.toNat
  totals : history.granted < 2 ^ 32 →
    history.allocator.stats.totalAllocated.toNat = history.granted ∧
      history.allocator.stats.totalFreed.toNat = history.returned ∧
      history.allocator.stats.currentAllocated.toNat + history.allocator.stats.totalFreed.toNat =
        history.allocator.stats.totalAllocated.toNat
  size : history.allocator.stats.freeListSize.toNat = history.allocator.freeList.length
  peak : history.allocator.stats.peakAllocated.toNat = history.most

/-- What a call answers and, when it is refused, that it leaves the allocator as it was. -/
def Answers (history : History) : Call → Prop
  | .allocate =>
    history.allocator.isAllocated history.allocator.allocate.1 = false ∧
      (history.allocator.allocate.1 = kInvalidPageId ↔ history.allocator.freeList = [] ∧ history.allocator.nextPageId > kMaxPageId)
  | .free id =>
    ((history.allocator.free id).1 = true ↔ kReservedPageCount ≤ id ∧ history.allocator.isAllocated id = true) ∧
      ((history.allocator.free id).1 = false → (history.allocator.free id).2 = history.allocator)
  | .reset => True

theorem Shared.consistent (shared : history.Shared) : history.Consistent := by
  have count := shared.count
  have current := shared.current
  have balance := shared.balance
  refine ⟨(List.nodup_append.mp shared.nodup).2.1, fun id free => ?_, shared.isAllocated_iff,
    (List.nodup_append.mp shared.nodup).1, by omega, fun small => ?_, shared.size, shared.peak⟩
  · rw [UInt32.le_iff_toNat_le, UInt32.lt_iff_toNat_lt]
    exact (shared.mem id).mp (.inr free)
  · have allocated := shared.allocated
    have freed := shared.freed
    rw [Nat.mod_eq_of_lt small] at allocated
    rw [Nat.mod_eq_of_lt (by omega)] at freed
    omega

theorem Shared.answers (shared : history.Shared) (call : Call) : history.Answers call := by
  cases call with
  | reset => trivial
  | free id =>
    rcases shared.free_cases id with ⟨absent, refused⟩ | ⟨held, accepted⟩
    · simpa [Answers, refused] using fun low allocated => absent ((shared.isAllocated_iff id).mp ⟨low, allocated⟩)
    · simpa [Answers, accepted] using (shared.isAllocated_iff id).mpr held
  | allocate =>
    obtain ⟨⟨freeList, next, stats⟩, live, granted, returned, most⟩ := history
    cases freeList with
    | cons id rest =>
      have inside := (shared.mem id).mp (.inr List.mem_cons_self)
      have valid := shared.known_valid (.inr List.mem_cons_self)
      have notReserved : ¬ id < kReservedPageCount := by
        rw [UInt32.lt_iff_toNat_lt]
        omega
      simp [Answers, PageAllocator.allocate, isAllocated, valid, notReserved]
    | nil =>
      by_cases exhausted : next > kMaxPageId
      · simp [Answers, PageAllocator.allocate, isAllocated, exhausted]
      · have valid := ne_invalid (next_below exhausted)
        simp [Answers, PageAllocator.allocate, isAllocated, exhausted, valid]

/-- In every run of calls with any ids the counters, the free list and the answers agree. -/
theorem counts_agree_throughout (calls : List Call) :
    Always step Consistent {} calls ∧ AtEachStep step Answers {} calls := by
  have shared : Always step Shared {} calls :=
    always_of_invariant (fun _ call shared _ => shared.step call) shared_new (atEachStep_true _ calls)
  exact ⟨fun done inside => (shared done inside).consistent, shared.atEachStep fun _ call shared => shared.answers call⟩

end History
end Quartz.Storage.PageAllocator
