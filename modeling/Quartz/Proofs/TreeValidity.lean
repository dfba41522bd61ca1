import Quartz.Proofs.TreeErasure
import Quartz.Proofs.ValidatorWalk

/-! A sound tree with sorted keys passes the validator, and so does every tree that a run of
insertions of new keys and of erasures passes through. -/

namespace Quartz.Btree
open Storage Format TreeM Fallible HeapTree BTree

/-- The order that keys are held to, with or without duplicates. -/
def Key.Precedes (allowDuplicates : Bool) (first second : Key) : Prop := first < second ∨ allowDuplicates = true ∧ first = second

instance (allowDuplicates : Bool) : IsTrans Key (Key.Precedes allowDuplicates) where
  trans first second third := by
    rintro (less | ⟨repeats, rfl⟩) (more | ⟨repeats, rfl⟩)
    · exact .inl (less.trans more)
    · exact .inl less
    · exact .inl more
    · exact .inr ⟨repeats, rfl⟩

theorem LeafNode.unsorted_iff {allowDuplicates : Bool} {keys : List Key} :
    LeafNode.unsorted allowDuplicates keys = false ↔ keys.Pairwise (Key.Precedes allowDuplicates) := by
  rw [← List.isChain_iff_pairwise]
  induction keys with
  | nil => simp [LeafNode.unsorted]
  | cons first rest ih =>
    cases rest with
    | nil => simp [LeafNode.unsorted]
    | cons second rest =>
      rw [List.isChain_cons_cons, ← ih, LeafNode.unsorted, Bool.or_eq_false_iff]
      refine and_congr_left fun _ => ?_
      by_cases less : first < second <;> cases allowDuplicates <;> simp [Key.Precedes, less]

theorem LeafNode.unsorted_false {keys : List Key} (sorted : keys.Pairwise (· < ·)) (allowDuplicates : Bool) :
    LeafNode.unsorted allowDuplicates keys = false :=
  unsorted_iff.mpr (sorted.imp .inl)

theorem LeafNode.unsorted_repeats {keys : List Key} (sorted : keys.Pairwise (· ≤ ·)) :
    LeafNode.unsorted true keys = false :=
  unsorted_iff.mpr (sorted.imp fun ordered => (lt_or_eq_of_le ordered).imp_right fun same => ⟨rfl, same⟩)

variable {config : BTreeNodeConfig}

theorem computeCapacity_pos (small : config.binaryKeySize.toNat ≤ kMaxBinaryKeySize) (kind : NodeType) :
    0 < computeCapacity config kind := by
  refine Nat.lt_of_lt_of_le (by decide) (le_computeCapacity ?_ kind)
  rw [kMaxBinaryKeySize] at small
  rw [entrySize, keyWireSize, PageReference.kSize]
  split <;> omega

theorem page_validate {kind : NodeType} {node : BTreeNode} (ok : PageOk config kind node)
    (positive : 0 < computeCapacity config kind) (room : node.keyCount ≤ computeCapacity config kind) :
    node.page.validate = Status.success := by
  have capacity := ok.capacity
  rw [← capacity] at positive room
  have valid : node.page.layout.isValid = true := Bool.and_eq_true_iff.mpr ⟨decide_eq_true positive, decide_eq_true room⟩
  rw [Pages.IndexPage.validate, valid]
  rfl

theorem LeafOk.validate {leaf : LeafNode} (ok : LeafOk config leaf) (sorted : leaf.keys.Pairwise (· < ·))
    (positive : 0 < computeCapacity config .leaf) : leaf.validate = Status.success := by
  have page := page_validate ok.page positive (by rw [ok.count]; exact ok.room)
  simp [LeafNode.validate, page, Status.ok, ok.page.type, ok.refs, ok.count, LeafNode.unsorted_false sorted]

theorem InternalOk.validate {node : InternalNode} (ok : InternalOk config node) (sorted : node.keys.Pairwise (· < ·))
    (positive : 0 < computeCapacity config .internal) : node.validate = Status.success := by
  have page := page_validate ok.page positive (by rw [ok.count]; exact ok.room)
  simp [InternalNode.validate, page, Status.ok, ok.page.type, ok.children, ok.count, LeafNode.unsorted_false sorted]

namespace TreeValidator

variable {ω : Type} {tree : BTree ω}

/-- Sound nodes whose keys are sorted from left to right pass. -/
theorem passes_of_sorted (sound : tree.Sound) (positive : ∀ kind, 0 < computeCapacity tree.config kind) {height : Nat} {id : PageId}
    (grown : Tree tree.view height id) (sorted : (inorder tree.view height id).Pairwise (· < ·)) :
    Passes tree height id none none := by
  refine (passes_iff grown).mpr ⟨fun other member => ⟨fun leaf standing => ?_, fun noLeaf node standing => ?_⟩, ?_, by simp, by simp⟩
  · have inside := grown.leaf_sublist member (view_leaf.mpr ⟨leaf, standing, rfl⟩)
    rw [(sound.leaves other leaf standing).validate (sorted.sublist inside) (positive .leaf)]
    rfl
  · obtain ⟨inside, children⟩ := grown.branch_sublist member (view_branch.mpr ⟨noLeaf, node, standing, rfl, rfl⟩)
    rw [(sound.internals other node standing).validate (sorted.sublist inside) (positive .internal)]
    refine ⟨rfl, fun child listed => ?_⟩
    simpa [PageReference.isValid] using (sound.live (children _ (List.mem_map_of_mem listed))).2
  · have keys := @map_inorder_relabel _ _ _ tree.view (fun _ keys => keys.map (rank true)) (rank false) height id
      (fun item => (ofLex item).1) (by simp [Function.comp_def, rank]) (by simp [rank])
    rw [← keys, List.pairwise_map] at sorted
    exact sorted.imp fun less => Prod.Lex.le_iff.mpr (.inl less)

theorem validate_ok {order : List Key} (ordered : tree.Ordered order)
    (positive : ∀ kind, 0 < computeCapacity tree.config kind) : validate tree = .ok () := by
  rcases ordered.standing with ⟨bare, -⟩ | ⟨top, shape⟩
  · simp [validate, empty, bare]
  · have sorted : (inorder tree.view top tree.rootId).Pairwise (· < ·) := by
      rw [shape.order]
      exact ordered.sorted
    exact (passes_of_sorted ordered.sound positive shape.grown sorted).validated shape.grown

end TreeValidator

namespace TreeCall

variable {ω : Type} [BTreeWalSink ω] {tree : BTree ω}

/-- A call with a new key, or an erasure of any key, leaves a sorted tree behind. -/
theorem step_ordered {order : List Key} (ordered : tree.Ordered order) {call : TreeCall}
    (matching : call.key.Matches tree.config) (new : ∀ key ∈ insertedKeys [call], key ∉ order)
    (pages : ¬ Exhausts call.perform tree) :
    ∃ order', (step tree call).config = tree.config ∧ (step tree call).Ordered order' ∧
      ∀ item ∈ order', item ∈ order ∨ item ∈ insertedKeys [call] := by
  cases call with
  | erase key =>
    obtain ⟨order', fewer, config, after⟩ := erase_ordered ordered key
    exact ⟨order', config, after, fun item member => .inl (fewer.subset member)⟩
  | insert key value =>
    by_cases valid : value.isValid = true
    · obtain ⟨next, front, back, rfl, ran, config, after, -⟩ :=
        (insert_grows ordered (new key (by simp [insertedKeys])) matching valid).resolve_left pages
      have stepped : step tree (insert key value) = next := congrArg Prod.snd ran
      rw [stepped]
      refine ⟨front ++ key :: back, config, after, fun item member => ?_⟩
      simp only [insertedKeys, List.filterMap_cons, List.filterMap_nil, List.mem_singleton]
      rcases List.mem_append.mp member with member | member
      · exact .inl (List.mem_append_left _ member)
      · exact (List.mem_cons.mp member).symm.imp_left (List.mem_append_right _)
    · have refused : step tree (insert key value) = tree := by
        rw [step, perform, BTree.insert, if_pos (by simp [valid])]
        rfl
      rw [refused]
      exact ⟨order, rfl, ordered, fun item member => .inl member⟩

/-- The run lemma: no key is inserted that was inserted before. -/
theorem always_ordered {order : List Key} (ordered : tree.Ordered order) {calls : List TreeCall}
    (matching : ∀ call ∈ calls, call.key.Matches tree.config) (new : ∀ key ∈ insertedKeys calls, key ∉ order)
    (once : (insertedKeys calls).Nodup)
    (pages : Runs.AtEachStep step (fun tree call => ¬ Exhausts call.perform tree) tree calls) :
    Runs.Always step (fun after => after.config = tree.config ∧ ∃ order', after.Ordered order' ∧
      ∀ key ∈ order', key ∈ order ∨ key ∈ insertedKeys calls) tree calls := by
  induction calls generalizing tree order with
  | nil => exact Runs.always_nil.mpr ⟨rfl, order, ordered, fun key => .inl⟩
  | cons call rest ih =>
    have parts : insertedKeys (call :: rest) = insertedKeys [call] ++ insertedKeys rest := by
      simp [insertedKeys, ← List.filterMap_append]
    rw [parts] at new once
    obtain ⟨-, later, apart⟩ := List.nodup_append.mp once
    obtain ⟨now, pages⟩ := Runs.atEachStep_cons.mp pages
    obtain ⟨order', config, after, grown⟩ := step_ordered ordered (matching call List.mem_cons_self)
      (fun key member => new key (List.mem_append_left _ member)) now
    refine Runs.always_cons.mpr ⟨⟨rfl, order, ordered, fun key => .inl⟩, ?_⟩
    rw [← config] at matching ⊢
    have always := ih after (fun other member => matching other (List.mem_cons_of_mem _ member)) (fun key member inside => by
      rcases grown key inside with old | fresh
      · exact new key (List.mem_append_right _ member) old
      · exact apart key fresh key member rfl) later pages
    intro done inside
    obtain ⟨same, last, sorted, held⟩ := always done inside
    refine ⟨same, last, sorted, fun key member => ?_⟩
    rw [parts, List.mem_append]
    rcases held key member with before | further
    · exact (grown key before).imp_right .inl
    · exact .inr (.inr further)

omit [BTreeWalSink ω] in
theorem ordered_create {space : Space.SpaceManager} (sound : space.pageAllocator.Sound) (config : BTreeNodeConfig) :
    (BTree.create space config : BTree ω).Ordered [] :=
  ⟨⟨owned_create sound config none, by simp [BTree.create], by simp [BTree.create], rfl⟩, List.Pairwise.nil, .inl ⟨rfl, rfl⟩⟩

/-- Every tree on the way of a run of insertions and erasures that inserts no key twice passes
the validator: it is one tree of sound nodes whose keys are sorted from left to right. -/
theorem every_tree_is_valid (space : Space.SpaceManager) (sound : space.pageAllocator.Sound) (config : BTreeNodeConfig)
    (small : config.binaryKeySize.toNat ≤ kMaxBinaryKeySize) (calls : List TreeCall)
    (matching : ∀ call ∈ calls, call.key.Matches config) (once : (insertedKeys calls).Nodup)
    (pages : Runs.AtEachStep step (fun tree call => ¬ Exhausts call.perform tree) (BTree.create space config : BTree ω) calls) :
    Runs.Always step (fun tree => TreeValidator.validate tree = .ok () ∧ ∃ order, tree.Ordered order)
      (BTree.create space config : BTree ω) calls := by
  have always := always_ordered (ordered_create sound config) matching (by simp) once pages
  refine fun done inside => ?_
  obtain ⟨same, order, ordered, -⟩ := always done inside
  exact ⟨TreeValidator.validate_ok ordered (by rw [same]; exact computeCapacity_pos small), order, ordered⟩

/-- Fifteen of the widest keys. Fourteen fill a leaf, so it is split. -/
def wideEntries : List (Key × PageReference) :=
  (List.range 15).map fun byte => (wideKey (UInt8.ofNat byte), PageReference.make 9 0 1)

def wideTree : BTree Empty :=
  BTree.create (Space.SpaceManager.withPolicy .firstFit) { keyType := .binary, binaryKeySize := 256 }

/-- All of them are inserted, one is erased, and one that was never there. -/
def splitRun : List TreeCall :=
  wideEntries.map (fun entry => .insert entry.1 entry.2) ++ [.erase (wideKey 3), .erase (wideKey 15)]

theorem splitRun_matches : ∀ call ∈ splitRun, call.key.Matches { keyType := .binary, binaryKeySize := 256 } := by
  have keys : ∀ call ∈ splitRun, ∃ byte, call.key = wideKey byte := by
    simp only [splitRun, wideEntries, List.mem_append, List.mem_map, List.mem_cons, List.not_mem_nil, or_false]
    rintro call (⟨entry, ⟨byte, -, rfl⟩, rfl⟩ | rfl | rfl) <;> exact ⟨_, rfl⟩
  intro call member
  obtain ⟨byte, same⟩ := keys call member
  exact same ▸ wideKey_matches byte

theorem splitRun_supplied : (insertedKeys splitRun).Nodup ∧
    Runs.AtEachStep step (fun tree call => ¬ Exhausts call.perform tree) wideTree splitRun := by
  decide +kernel

theorem every_tree_is_valid_split :
    Runs.Always step (fun tree => TreeValidator.validate tree = .ok () ∧ ∃ order, tree.Ordered order) wideTree splitRun :=
  every_tree_is_valid (Space.SpaceManager.withPolicy .firstFit) PageAllocator.sound_new _ (by decide) splitRun
    splitRun_matches splitRun_supplied.1 splitRun_supplied.2

/-- The tree after a part of this run is sorted, and has no key that was not inserted. -/
theorem splitRun_ordered {calls : List TreeCall} (begins : calls <+: splitRun) :
    (Runs.after step wideTree calls).config = { keyType := .binary, binaryKeySize := 256 } ∧
      ∃ order, (Runs.after step wideTree calls).Ordered order ∧ ∀ key ∈ order, key ∈ insertedKeys calls := by
  have start : wideTree.Ordered [] := ordered_create PageAllocator.sound_new _
  obtain ⟨config, order, ordered, held⟩ := (always_ordered start (fun call member => splitRun_matches call (begins.subset member))
    (by simp) (splitRun_supplied.1.sublist (begins.sublist.filterMap _))
    fun done next inside => splitRun_supplied.2 done next (inside.trans begins)).last
  exact ⟨config, order, ordered, fun key member => (held key member).resolve_left (by simp)⟩

end TreeCall
end Quartz.Btree
