import Mathlib.Data.Prod.Lex
import Quartz.Btree.TreeValidator
import Quartz.Lib.HeapOrder
import Quartz.Proofs.TreeDescent

/-! The walk of the validator without its fuel. At a page the walk stops, or it opens an internal
node and goes through the children; more fuel never changes what a walk that ends returns. What it
accepts are sound nodes with all keys in one order from left to right. -/

namespace Quartz.Btree.TreeValidator
open Storage Format HeapTree BTree

/-- Keys in order behind a key, not below one bound and under another. -/
structure Ranged (low : Option Key) (under : Key → Prop) (previous : Option Key) (keys : List Key) : Prop where
  low : ∀ key ∈ keys, ∀ bound ∈ low, bound ≤ key
  high : ∀ key ∈ keys, under key
  sorted : keys.Pairwise (· ≤ ·)
  behind : ∀ bound ∈ previous, ∀ key ∈ keys, bound ≤ key

section Ranges

variable {low high previous : Option Key} {under : Key → Prop} {key : Key} {keys : List Key}

theorem belowMin_iff : belowMin low key = false ↔ ∀ bound ∈ low, bound ≤ key := by
  cases low <;> simp [belowMin]

theorem ranged_cons : Ranged low under previous (key :: keys) ↔
    (∀ bound ∈ low, bound ≤ key) ∧ under key ∧ (∀ bound ∈ previous, bound ≤ key) ∧ Ranged low under (some key) keys := by
  constructor
  · rintro ⟨least, most, sorted, behind⟩
    obtain ⟨first, sorted⟩ := List.pairwise_cons.mp sorted
    exact ⟨least key List.mem_cons_self, most key List.mem_cons_self, fun bound member => behind bound member key List.mem_cons_self,
      fun item member => least item (List.mem_cons_of_mem _ member), fun item member => most item (List.mem_cons_of_mem _ member),
      sorted, by simpa using first⟩
  · rintro ⟨overLow, isUnder, follows, least, most, sorted, behind⟩
    have first : ∀ other ∈ keys, key ≤ other := behind key rfl
    refine ⟨List.forall_mem_cons.mpr ⟨overLow, least⟩, List.forall_mem_cons.mpr ⟨isUnder, most⟩,
      List.pairwise_cons.mpr ⟨first, sorted⟩, fun bound member => ?_⟩
    exact List.forall_mem_cons.mpr ⟨follows bound member, fun other inside => (follows bound member).trans (first other inside)⟩

theorem ranged_nil : Ranged low under previous [] := ⟨by simp, by simp, .nil, by simp⟩

theorem leafRange_iff : (leafRange low high previous keys).ok = true ↔
    Ranged low (fun key => ∀ bound ∈ high, key < bound) previous keys := by
  induction keys generalizing previous with
  | nil => exact iff_of_true rfl ranged_nil
  | cons key rest ih =>
    have under : (high.any fun bound => !KeyComparator.less key bound) = false ↔ ∀ bound ∈ high, key < bound := by
      cases high <;> simp
    rw [ranged_cons, ← belowMin_iff, ← belowMin_iff, ← under, ← ih, leafRange]
    split
    · simp_all
    · split
      · simp_all
      · split <;> simp_all

theorem internalRange_iff : (internalRange low high previous keys).ok = true ↔
    Ranged low (fun key => ∀ bound ∈ high, key ≤ bound) previous keys := by
  induction keys generalizing previous with
  | nil => exact iff_of_true rfl ranged_nil
  | cons key rest ih =>
    have under : (high.any fun bound => KeyComparator.greater key bound) = false ↔ ∀ bound ∈ high, key ≤ bound := by
      cases high <;> simp
    rw [ranged_cons, ← belowMin_iff, ← belowMin_iff, ← under, ← ih, internalRange]
    split
    · simp_all
    · split
      · simp_all
      · split <;> simp_all

end Ranges

variable {ω : Type} {tree : BTree ω} {id : PageId} {depth leafDepth fuel : Nat} {low high : Option Key}
  {entries : List (PageReference × Option Key × Option Key)}

def visit (tree : BTree ω) (fuel depth : Nat) (leafDepth : Nat) (child : PageReference × Option Key × Option Key) :
    Except Failure Nat :=
  if !child.1.isValid then .error (.status (Status.corruption "TreeValidator: invalid child reference"))
  else validateSubtree tree fuel child.1.pageId depth leafDepth child.2.1 child.2.2

/-- An internal node that passes its own checks between two bounds, with its children and theirs. -/
def Opens (tree : BTree ω) (id : PageId) (low high : Option Key)
    (entries : List (PageReference × Option Key × Option Key)) : Prop :=
  id ∉ tree.leaves ∧ ∃ node, tree.internals.lookup id = some node ∧ node.validate.ok = true ∧
    (internalRange low high none node.keys).ok = true ∧ entries = node.children.zip (childBounds low high node.keys)

/-- A subtree that passes every check: leaves at one depth, between bounds that narrow. -/
def Passes (tree : BTree ω) : Nat → PageId → Option Key → Option Key → Prop
  | 0, id, low, high => ∃ leaf, tree.leaves.lookup id = some leaf ∧ (validateLeafRange leaf low high).ok = true
  | height + 1, id, low, high => ∃ entries, Opens tree id low high entries ∧
      ∀ entry ∈ entries, entry.1.isValid = true ∧ Passes tree height entry.1.pageId entry.2.1 entry.2.2

theorem length_childBounds (low high : Option Key) (keys : List Key) :
    (childBounds low high keys).length = keys.length + 1 := by
  simp [childBounds]

theorem Opens.ne_nil (opens : Opens tree id low high entries) : entries ≠ [] := by
  obtain ⟨-, node, -, valid, -, rfl⟩ := opens
  have children : node.children.length = node.keys.length + 1 := by
    unfold InternalNode.validate at valid
    grind [Status.corruption, Status.ok]
  rw [← List.length_pos_iff, List.length_zip, length_childBounds, children]
  omega

theorem check_bind {status : Status} {rest : Except Failure Nat} :
    (check status >>= fun _ => rest) = if status.ok then rest else .error (.status status) := by
  unfold check
  split <;> rfl

theorem validateSubtree_leaf (passes : Passes tree 0 id low high) (level : leafDepth = 0 ∨ leafDepth = depth) (fuel : Nat) :
    validateSubtree tree (fuel + 1) id depth leafDepth low high = .ok depth := by
  obtain ⟨leaf, standing, passed⟩ := passes
  have reached : (if leafDepth = 0 then depth else leafDepth) = depth := by split <;> omega
  simp only [validateSubtree, standing, check_bind]
  rw [if_neg (by omega), if_pos passed, reached]
  rfl

theorem validateSubtree_opens (opens : Opens tree id low high entries) (depth leafDepth fuel : Nat) :
    validateSubtree tree (fuel + 1) id depth leafDepth low high = entries.foldlM (visit tree fuel (depth + 1)) leafDepth := by
  obtain ⟨noLeaf, node, inner, valid, range, rfl⟩ := opens
  simp only [validateSubtree, AList.lookup_eq_none.mpr noLeaf, inner, check_bind]
  rw [if_pos valid, if_pos range]
  rfl

/-- At a page the walk is refused, finds a leaf, or opens an internal node. -/
theorem validateSubtree_cases (tree : BTree ω) (id : PageId) (depth leafDepth : Nat) (low high : Option Key) :
    (∃ status, ∀ fuel, validateSubtree tree (fuel + 1) id depth leafDepth low high = .error (.status status)) ∨
    (Passes tree 0 id low high ∧ (leafDepth = 0 ∨ leafDepth = depth)) ∨ ∃ entries, Opens tree id low high entries := by
  cases standing : tree.leaves.lookup id with
  | some leaf =>
    simp only [validateSubtree, standing, check_bind]
    by_cases level : leafDepth ≠ 0 ∧ leafDepth ≠ depth
    · exact .inl ⟨_, fun _ => if_pos level⟩
    by_cases passed : (validateLeafRange leaf low high).ok = true
    · exact .inr (.inl ⟨⟨leaf, standing, passed⟩, by omega⟩)
    · exact .inl ⟨_, fun _ => by rw [if_neg level, if_neg passed]⟩
  | none =>
    cases inner : tree.internals.lookup id with
    | none => exact .inl ⟨_, fun _ => by simp only [validateSubtree, standing, inner]; rfl⟩
    | some node =>
      simp only [validateSubtree, standing, inner, check_bind]
      by_cases valid : node.validate.ok = true
      · by_cases range : (internalRange low high none node.keys).ok = true
        · exact .inr (.inr ⟨_, AList.lookup_eq_none.mp standing, node, inner, valid, range, rfl⟩)
        · exact .inl ⟨_, fun _ => by rw [if_pos valid, if_neg range]⟩
      · exact .inl ⟨_, fun _ => by rw [if_neg valid]⟩

/-! ### What passes is accepted, and nothing else -/

private theorem children_passed {found : Nat} (each : ∀ {id : PageId} {leafDepth found : Nat} {low high : Option Key},
      validateSubtree tree fuel id depth leafDepth low high = .ok found →
        (leafDepth ≠ 0 → found = leafDepth) ∧ ∃ height, found = depth + height ∧ Passes tree height id low high)
    (positive : 0 < depth) (walked : entries.foldlM (visit tree fuel depth) leafDepth = .ok found) :
    (leafDepth ≠ 0 → found = leafDepth) ∧ ∀ entry ∈ entries, entry.1.isValid = true ∧
      ∃ height, found = depth + height ∧ Passes tree height entry.1.pageId entry.2.1 entry.2.2 := by
  induction entries generalizing leafDepth with
  | nil =>
    obtain rfl := Except.ok.inj walked
    simp
  | cons entry rest ih =>
    rw [List.foldlM_cons] at walked
    obtain ⟨reached, first, walked⟩ := Fallible.except_bind_ok walked
    rw [visit] at first
    split at first
    · cases first
    next valid =>
    obtain ⟨same, height, deep, passes⟩ := each first
    obtain ⟨final, others⟩ := ih walked
    have final : found = reached := final (by omega)
    refine ⟨fun known => by rw [final, same known], List.forall_mem_cons.mpr ⟨⟨by simpa using valid, height, ?_, passes⟩, others⟩⟩
    rw [final, deep]

theorem validateSubtree_passes {found : Nat} (positive : 0 < depth)
    (accepted : validateSubtree tree fuel id depth leafDepth low high = .ok found) :
    (leafDepth ≠ 0 → found = leafDepth) ∧ ∃ height, found = depth + height ∧ Passes tree height id low high := by
  induction fuel generalizing id depth leafDepth found low high with
  | zero => cases accepted
  | succ fuel ih =>
    rcases validateSubtree_cases tree id depth leafDepth low high with ⟨status, refused⟩ | ⟨passes, level⟩ | ⟨entries, opens⟩
    · rw [refused] at accepted
      cases accepted
    · rw [validateSubtree_leaf passes level] at accepted
      obtain rfl := Except.ok.inj accepted
      exact ⟨by omega, 0, rfl, passes⟩
    · rw [validateSubtree_opens opens] at accepted
      obtain ⟨same, each⟩ := children_passed (fun sub => ih (Nat.succ_pos depth) sub) (Nat.succ_pos depth) accepted
      obtain ⟨first, inside⟩ := List.exists_mem_of_ne_nil entries opens.ne_nil
      obtain ⟨-, top, deep, -⟩ := each first inside
      refine ⟨same, top + 1, by omega, entries, opens, fun entry member => ?_⟩
      obtain ⟨valid, height, level, passes⟩ := each entry member
      obtain rfl : height = top := by omega
      exact ⟨valid, passes⟩

/-- Children that pass at one depth are walked through, and the depth of the leaves is known then. -/
theorem children_accepted {reached : Nat} (known : leafDepth ≠ 0 → reached = leafDepth) (none : entries = [] → reached = leafDepth)
    (each : ∀ entry ∈ entries, ∀ leafDepth, leafDepth = 0 ∨ leafDepth = reached → visit tree fuel depth leafDepth entry = .ok reached) :
    entries.foldlM (visit tree fuel depth) leafDepth = .ok reached := by
  induction entries generalizing leafDepth with
  | nil => rw [none rfl]; rfl
  | cons entry rest ih =>
    have first := each entry List.mem_cons_self leafDepth (by omega)
    rw [List.foldlM_cons, first]
    exact ih (fun _ => rfl) (fun _ => rfl) fun other member => each other (List.mem_cons_of_mem _ member)

theorem Passes.accepted {height : Nat} (passes : Passes tree height id low high)
    (level : leafDepth = 0 ∨ leafDepth = depth + height) (enough : height < fuel) :
    validateSubtree tree fuel id depth leafDepth low high = .ok (depth + height) := by
  induction height generalizing fuel id depth leafDepth low high with
  | zero =>
    obtain ⟨fuel, rfl⟩ := Nat.exists_eq_add_of_lt enough
    rw [Nat.zero_add]
    exact validateSubtree_leaf passes level _
  | succ height ih =>
    obtain ⟨fuel, rfl⟩ : ∃ rest, fuel = rest + 1 := ⟨fuel - 1, by omega⟩
    obtain ⟨entries, opens, each⟩ := passes
    rw [validateSubtree_opens opens]
    refine children_accepted (by omega) (fun none => absurd none opens.ne_nil) fun entry member leafDepth level => ?_
    obtain ⟨valid, passes⟩ := each entry member
    rw [visit, if_neg (by simp [valid]), ih passes (by omega) (by omega)]
    congr 1
    omega

/-! ### More fuel -/

private theorem children_more {more : Nat} (each : ∀ child leafDepth, visit tree fuel depth leafDepth child ≠ .error .diverges →
      visit tree more depth leafDepth child = visit tree fuel depth leafDepth child)
    (stops : entries.foldlM (visit tree fuel depth) leafDepth ≠ .error .diverges) :
    entries.foldlM (visit tree more depth) leafDepth = entries.foldlM (visit tree fuel depth) leafDepth := by
  induction entries generalizing leafDepth with
  | nil => rfl
  | cons entry rest ih =>
    rw [List.foldlM_cons] at stops
    rw [List.foldlM_cons, List.foldlM_cons]
    cases first : visit tree fuel depth leafDepth entry with
    | error failure =>
      rw [first] at stops
      rw [each entry leafDepth (by rw [first]; exact stops), first]
      rfl
    | ok reached =>
      rw [first] at stops
      rw [each entry leafDepth (by rw [first]; exact fun same => nomatch same), first]
      exact ih stops

theorem validateSubtree_more {more : Nat} (stops : validateSubtree tree fuel id depth leafDepth low high ≠ .error .diverges)
    (enough : fuel ≤ more) :
    validateSubtree tree more id depth leafDepth low high = validateSubtree tree fuel id depth leafDepth low high := by
  induction fuel generalizing more id depth leafDepth low high with
  | zero => exact absurd rfl stops
  | succ fuel ih =>
    obtain ⟨more, rfl⟩ : ∃ rest, more = rest + 1 := ⟨more - 1, by omega⟩
    rcases validateSubtree_cases tree id depth leafDepth low high with ⟨status, refused⟩ | ⟨passes, level⟩ | ⟨entries, opens⟩
    · rw [refused, refused]
    · rw [validateSubtree_leaf passes level, validateSubtree_leaf passes level]
    · rw [validateSubtree_opens opens] at stops
      rw [validateSubtree_opens opens, validateSubtree_opens opens]
      refine children_more (fun child leafDepth stops => ?_) stops
      unfold visit at stops ⊢
      split
      · rfl
      next valid =>
        rw [if_neg valid] at stops
        exact ih stops (by omega)

/-! ### The order that is checked -/

theorem validate_passes (accepted : validate tree = .ok ()) (live : tree.empty = false) :
    ∃ top, Passes tree top tree.rootId none none := by
  unfold validate at accepted
  rw [live] at accepted
  simp only [if_false_true] at accepted
  split at accepted
  · cases accepted
  obtain ⟨found, walked, -⟩ := Fallible.except_bind_ok accepted
  obtain ⟨-, height, -, passes⟩ := validateSubtree_passes Nat.one_pos walked
  exact ⟨height, passes⟩

theorem Passes.validated {top : Nat} (passes : Passes tree top tree.rootId none none) (grown : Tree tree.view top tree.rootId) :
    validate tree = .ok () := by
  have enough : top < 2 * tree.internals.keys.length + 2 := by
    have := height_le grown
    omega
  have stands : tree.rootId ∈ tree.leaves ∨ tree.rootId ∈ tree.internals := view_isSome.mp (grown.stands _ (mem_ids _ _ _))
  unfold validate
  split
  · rfl
  · rw [if_neg (by tauto), passes.accepted (.inl rfl) enough]
    rfl

/-- A key of a leaf comes behind a separator that is equal to it. -/
def rank (inLeaf : Bool) (key : Key) : Key ×ₗ Bool := toLex (key, inLeaf)

theorem rank_le {first second : Bool} {key other : Key} :
    rank first key ≤ rank second other ↔ key < other ∨ key = other ∧ first ≤ second :=
  Prod.Lex.toLex_le_toLex

theorem rank_le_iff_le {first second : Bool} (before : first ≤ second) {key other : Key} :
    rank first key ≤ rank second other ↔ key ≤ other := by
  rw [rank_le, and_iff_left before, ← le_iff_lt_or_eq]

/-- The tree with the ranks of its keys. -/
abbrev ranks (tree : BTree ω) : PageId → Option (Node PageId (Key ×ₗ Bool)) :=
  relabel (fun _ keys => keys.map (rank true)) (rank false) tree.view

/-- A node that passes the checks that are made without bounds. -/
structure Sane (tree : BTree ω) (id : PageId) : Prop where
  leaf : ∀ leaf, tree.leaves.lookup id = some leaf → leaf.validate.ok = true
  internal : id ∉ tree.leaves → ∀ node, tree.internals.lookup id = some node →
    node.validate.ok = true ∧ ∀ child ∈ node.children, child.isValid = true

private theorem bounded_iff {inLeaf : Bool} {under : Key → Key → Prop}
    (isUnder : ∀ key bound, under key bound ↔ rank inLeaf key ≤ rank false bound) {keys : List Key} :
    Bounded (· ≤ ·) (low.map (rank false)) (high.map (rank false)) (keys.map (rank inLeaf)) ↔
      Ranged low (fun key => ∀ bound ∈ high, under key bound) none keys := by
  have above : ∀ bound key, rank false bound ≤ rank inLeaf key ↔ bound ≤ key := fun _ _ => rank_le_iff_le (Bool.false_le _)
  constructor
  · rintro ⟨sorted, lower, upper⟩
    simp only [List.forall_mem_map, Option.mem_map, forall_exists_index, and_imp, forall_apply_eq_imp_iff₂, above, ← isUnder] at lower upper
    exact ⟨fun key member bound isLow => lower bound isLow key member, fun key member bound isHigh => upper bound isHigh key member,
      (List.pairwise_map.mp sorted).imp (rank_le_iff_le (le_refl _)).mp, by simp⟩
  · rintro ⟨lower, upper, sorted, -⟩
    refine ⟨List.pairwise_map.mpr (sorted.imp (rank_le_iff_le (le_refl _)).mpr), ?_, ?_⟩
    · simp only [List.forall_mem_map, Option.mem_map, forall_exists_index, and_imp, forall_apply_eq_imp_iff₂, above]
      exact fun bound isLow key member => lower key member bound isLow
    · simp only [List.forall_mem_map, Option.mem_map, forall_exists_index, and_imp, forall_apply_eq_imp_iff₂, ← isUnder]
      exact fun bound isHigh key member => upper key member bound isHigh

private theorem validateLeafRange_iff {leaf : LeafNode} : (validateLeafRange leaf low high).ok = true ↔ leaf.validate.ok = true ∧
    Bounded (· ≤ ·) (low.map (rank false)) (high.map (rank false)) (leaf.keys.map (rank true)) := by
  rw [@bounded_iff low high true (· < ·) (by simp [rank_le]), ← leafRange_iff, validateLeafRange]
  cases valid : leaf.validate.ok <;> simp [valid]

private theorem internalRange_bounded {keys : List Key} : (internalRange low high none keys).ok = true ↔
    Bounded (· ≤ ·) (low.map (rank false)) (high.map (rank false)) (keys.map (rank false)) := by
  rw [@bounded_iff low high false (· ≤ ·) fun _ _ => (rank_le_iff_le (le_refl _)).symm, ← internalRange_iff]

theorem passes_iff {height : Nat} (grown : Tree tree.view height id) :
    Passes tree height id low high ↔ (∀ other ∈ ids tree.view height id, Sane tree other) ∧
      Bounded (· ≤ ·) (low.map (rank false)) (high.map (rank false)) (inorder (ranks tree) height id) := by
  induction height generalizing id low high with
  | zero =>
    obtain ⟨keys, found⟩ := grown
    obtain ⟨leaf, standing, rfl⟩ := view_leaf.mp found
    rw [inorder_leaf (relabel_leaf found), Passes, ids]
    constructor
    · rintro ⟨other, same, passed⟩
      obtain rfl := Option.some.inj (standing.symm.trans same)
      obtain ⟨valid, bounded⟩ := validateLeafRange_iff.mp passed
      refine ⟨List.forall_mem_singleton.mpr ⟨fun leaf same => ?_, fun noLeaf => absurd (mem_leaves standing) noLeaf⟩, bounded⟩
      obtain rfl := Option.some.inj (standing.symm.trans same)
      exact valid
    · rintro ⟨sane, bounded⟩
      exact ⟨leaf, standing, validateLeafRange_iff.mpr ⟨(sane id List.mem_cons_self).leaf leaf standing, bounded⟩⟩
  | succ height ih =>
    obtain ⟨_, _, found, count, trees⟩ := grown
    obtain ⟨noLeaf, node, standing, rfl, rfl⟩ := view_branch.mp found
    rw [List.length_map] at count
    have listed : (node.children.zip (childBounds low high node.keys)).map Prod.fst = node.children :=
      List.map_fst_zip (by rw [length_childBounds, count])
    have rows : ((node.children.map (·.pageId)).map (inorder (ranks tree) height)).zip
          (windows (low.map (rank false)) (high.map (rank false)) (node.keys.map (rank false))) =
        (node.children.zip (childBounds low high node.keys)).map (Prod.map (fun ref => inorder (ranks tree) height ref.pageId)
          (Prod.map (Option.map (rank false)) (Option.map (rank false)))) := by
      rw [windows_map, List.map_map, List.zip_map]
      rfl
    have below : ∀ entry ∈ node.children.zip (childBounds low high node.keys), entry.1.pageId ∈ node.children.map (·.pageId) :=
      fun entry member => List.mem_map_of_mem (List.of_mem_zip member).1
    rw [inorder_branch (relabel_branch found), bounded_interleave (by simpa using count), rows, List.forall_mem_map, ids_branch found,
      List.forall_mem_cons, ← internalRange_bounded]
    constructor
    · rintro ⟨_, ⟨-, other, same, valid, range, rfl⟩, each⟩
      obtain rfl := Option.some.inj (standing.symm.trans same)
      have deeper := fun entry member => (ih (trees _ (below entry member))).mp (each entry member).2
      refine ⟨⟨⟨fun leaf same => absurd (mem_leaves same) noLeaf, fun _ other same => ?_⟩, fun other member => ?_⟩, range,
        fun entry member => (deeper entry member).2⟩
      · obtain rfl := Option.some.inj (standing.symm.trans same)
        rw [← listed, List.forall_mem_map]
        exact ⟨valid, fun entry member => (each entry member).1⟩
      · obtain ⟨_, inside, held⟩ := List.mem_flatMap.mp member
        obtain ⟨ref, member, rfl⟩ := List.mem_map.mp inside
        rw [← listed] at member
        obtain ⟨entry, taken, rfl⟩ := List.mem_map.mp member
        exact (deeper entry taken).1 other held
    · rintro ⟨⟨sane, others⟩, range, each⟩
      obtain ⟨valid, refs⟩ := sane.internal noLeaf node standing
      refine ⟨_, ⟨noLeaf, node, standing, valid, range, rfl⟩, fun entry member => ?_⟩
      exact ⟨refs _ (List.of_mem_zip member).1, (ih (trees _ (below entry member))).mpr
        ⟨fun other held => others other (List.mem_flatMap.mpr ⟨_, below entry member, held⟩), each entry member⟩⟩

end Quartz.Btree.TreeValidator
