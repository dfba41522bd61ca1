import Quartz.Proofs.DuplicateTrees
import Quartz.Proofs.SearchPaths

/-! The way of a split up the tree. One child and one separator come in, at the place that the path down has
recorded, however many nodes fall into two for them. -/

namespace Quartz.Btree
open Storage Format TreeM Fallible HeapTree BTree

variable {ω : Type}

namespace BTree

def rowBelow (tree : BTree ω) : Nat → PageId → List (PageId ⊕ Key)
  | 0, _ => []
  | fuel + 1, id =>
    if id ∈ tree.leaves then [.inl id]
    else
      match tree.internals.lookup id with
      | none => []
      | some node => interleave (node.children.map fun child => rowBelow tree fuel child.pageId) (node.keys.map .inr)

def row (tree : BTree ω) : List (PageId ⊕ Key) := tree.rowBelow (tree.internals.keys.length + 1) tree.rootId

def separators (tree : BTree ω) : List Key := tree.row.filterMap Sum.getRight?

variable {tree : BTree ω} {height : Nat} {id : PageId}

theorem rowBelow_eq (grown : Tree tree.view height id) {fuel : Nat} (enough : height < fuel) :
    tree.rowBelow fuel id = inorder (mark tree.view) height id := by
  induction height generalizing id fuel with
  | zero =>
    obtain ⟨fuel, rfl⟩ := Nat.exists_eq_add_one.mpr enough
    obtain ⟨keys, found⟩ := grown
    obtain ⟨leaf, standing, -⟩ := view_leaf.mp found
    rw [rowBelow, if_pos (mem_leaves standing)]
    rw [inorder_leaf (relabel_leaf found)]
  | succ height ih =>
    obtain ⟨fuel, rfl⟩ := Nat.exists_eq_add_one.mpr (Nat.zero_lt_of_lt enough)
    obtain ⟨keys, children, found, count, below⟩ := grown
    obtain ⟨noLeaf, node, standing, rfl, rfl⟩ := view_branch.mp found
    rw [rowBelow, if_neg noLeaf, standing, inorder_branch (relabel_branch found), List.map_map]
    dsimp only
    congr 1
    exact List.map_congr_left fun child member => ih (below _ (List.mem_map_of_mem member)) (by omega)

theorem row_eq (grown : Tree tree.view height tree.rootId) : tree.row = inorder (mark tree.view) height tree.rootId :=
  rowBelow_eq grown (Nat.lt_succ_of_le (height_le grown))

theorem separates_of_mem {key : Key} (grown : Tree tree.view height id)
    (member : .inr key ∈ inorder (mark tree.view) height id) : tree.Separates id key := by
  induction height generalizing id with
  | zero =>
    obtain ⟨keys, found⟩ := grown
    rw [inorder_leaf (relabel_leaf found)] at member
    cases List.mem_singleton.mp member
  | succ height ih =>
    obtain ⟨keys, children, found, count, below⟩ := grown
    obtain ⟨noLeaf, node, standing, rfl, rfl⟩ := view_branch.mp found
    rw [inorder_branch (relabel_branch found), (interleave_perm (by simpa using count)).mem_iff] at member
    rw [separates_internal noLeaf standing]
    rcases List.mem_append.mp member with deep | here
    · obtain ⟨part, listed, inside⟩ := List.mem_flatten.mp deep
      obtain ⟨child, isChild, rfl⟩ := List.mem_map.mp listed
      obtain ⟨ref, known, rfl⟩ := List.mem_map.mp isChild
      exact .inr ⟨ref, known, ih (below _ isChild) inside⟩
    · exact .inl (by simpa using here)

theorem pagesBelow_eq (grown : Tree tree.view height id) {fuel : Nat} (enough : height < fuel) :
    tree.pagesBelow fuel id = ids tree.view height id := by
  induction height generalizing id fuel with
  | zero =>
    obtain ⟨fuel, rfl⟩ := Nat.exists_eq_add_one.mpr enough
    obtain ⟨keys, found⟩ := grown
    obtain ⟨leaf, standing, -⟩ := view_leaf.mp found
    rw [pagesBelow, if_pos (mem_leaves standing)]
    rfl
  | succ height ih =>
    obtain ⟨fuel, rfl⟩ := Nat.exists_eq_add_one.mpr (Nat.zero_lt_of_lt enough)
    obtain ⟨keys, children, found, count, below⟩ := grown
    obtain ⟨noLeaf, node, standing, rfl, rfl⟩ := view_branch.mp found
    rw [pagesBelow, if_neg noLeaf, standing, ids_branch found, List.flatMap_map]
    dsimp only
    congr 1
    exact List.flatMap_congr fun child member => ih (below _ (List.mem_map_of_mem member)) (by omega)

/-- The separators next to the end of a path, in front of it and behind it. -/
def bounds (tree : BTree ω) : List SearchPathEntry → Option Key × Option Key
  | [] => (none, none)
  | frame :: rest =>
    match tree.internals.lookup frame.pageId with
    | none => (none, none)
    | some node => (TreeValidator.boundBefore (tree.bounds rest).1 node.keys frame.childIndex,
        TreeValidator.boundBehind (tree.bounds rest).2 node.keys frame.childIndex)

variable {path : List SearchPathEntry} {top : Nat} {key : Key}

theorem descend_leads {fuel : Nat} {id leafId : PageId} {path path' : List SearchPathEntry} (leads : tree.PathTo path id)
    (done : tree.descend key fuel id path = .ok (leafId, path')) : tree.PathTo path' leafId ∧ leafId ∈ tree.leaves := by
  induction fuel generalizing id path with
  | zero => cases done
  | succ fuel ih =>
    rw [descend] at done
    split at done
    next leaf =>
      cases done
      exact ⟨leads, leaf⟩
    next noLeaf =>
      split at done
      · cases done
      next node found =>
        split at done
        · cases done
        next child taken =>
          split at done
          · cases done
          · exact ih (leads.step noLeaf found taken) done

theorem descendToLeaf_leads {leafId : PageId} {index : Nat} {exactMatch : Bool}
    (done : tree.descendToLeaf key exactMatch = .ok (leafId, index, path)) :
    tree.empty = false ∧ tree.PathTo path leafId ∧ leafId ∈ tree.leaves := by
  unfold descendToLeaf at done
  split at done
  · cases done
  next live =>
    refine ⟨Bool.not_eq_true _ ▸ live, ?_⟩
    split at done
    · cases done
    next reached way walked =>
      have leads := descend_leads .root walked
      split at done
      · cases done
      next leaf found =>
        split at done
        · split at done
          · cases done
          · split at done
            · cases done
            · split at done
              · cases done
              · cases done
                exact leads
        · cases done
          exact leads

/-- The nodes of a path are internal nodes. -/
theorem PathTo.inner (leads : tree.PathTo path id) :
    ∀ frame ∈ path, frame.pageId ∉ tree.leaves ∧ ∃ node, tree.internals.lookup frame.pageId = some node := by
  induction leads with
  | root => simp
  | step _ noLeaf found taken ih =>
    intro frame member
    rcases List.mem_cons.mp member with rfl | member
    · exact ⟨noLeaf, _, found⟩
    · exact ih frame member

/-- The end of a path is checked between the separators next to it. -/
theorem PathTo.checked (leads : tree.PathTo path id) (whole : TreeValidator.Checked tree top tree.rootId none none) :
    ∃ height, TreeValidator.Checked tree height id (tree.bounds path).1 (tree.bounds path).2 := by
  induction leads with
  | root => exact ⟨top, whole⟩
  | step _ noLeaf found taken ih =>
    obtain ⟨height, deep⟩ := ih
    cases height with
    | zero =>
      obtain ⟨leaf, standing, -⟩ := deep
      exact absurd (mem_leaves standing) noLeaf
    | succ height =>
      obtain ⟨node, -, same, -, below⟩ := deep.branch
      cases found.symm.trans same
      rw [bounds, found]
      exact ⟨height, (below _ _ taken).2.2⟩

theorem PathTo.separates (leads : tree.PathTo path id) (whole : TreeValidator.Checked tree top tree.rootId none none)
    (above : ∀ low ∈ (tree.bounds path).1, low < key) (under : ∀ high ∈ (tree.bounds path).2, key < high)
    (separates : tree.Separates tree.rootId key) : tree.Separates id key := by
  induction leads with
  | root => exact separates
  | @step path id node index child way noLeaf found taken ih =>
    obtain ⟨height, deep⟩ := way.checked whole
    cases height with
    | zero =>
      obtain ⟨leaf, standing, -⟩ := deep
      exact absurd (mem_leaves standing) noLeaf
    | succ height =>
      obtain ⟨other, -, same, inner, below⟩ := deep.branch
      cases found.symm.trans same
      rw [bounds, found] at above under
      dsimp only at above under
      obtain ⟨inside, -, -⟩ := below index child taken
      obtain ⟨low, smaller⟩ := inner.left (fun first second less most => less.trans_lt most) inside above
      obtain ⟨high, larger⟩ := inner.right (fun first second less most => most.trans_le less) under
      rcases (separates_internal noLeaf found).mp (ih low high) with here | ⟨sibling, member, deeper⟩
      · obtain ⟨place, stands⟩ := List.mem_iff_getElem?.mp here
        rcases Nat.lt_or_ge place index with before | behind
        · exact absurd (smaller place before key stands) (lt_irrefl _)
        · exact absurd (larger place behind key stands) (lt_irrefl _)
      obtain ⟨place, stands⟩ := List.mem_iff_getElem?.mp member
      obtain ⟨within, -, checked⟩ := below place sibling stands
      obtain ⟨least, most⟩ := checked.separates_range deeper
      rcases Nat.lt_trichotomy place index with before | rfl | behind
      · have separator : node.keys[place]? = some node.keys[place] := List.getElem?_eq_getElem (by omega)
        have small := smaller place before _ separator
        exact absurd (most _ (by simp [TreeValidator.boundBehind, separator])) (not_le_of_gt small)
      · cases taken.symm.trans stands
        exact deeper
      · have separator : node.keys[place - 1]? = some node.keys[place - 1] := List.getElem?_eq_getElem (by omega)
        have large := larger (place - 1) (by omega) _ separator
        refine absurd (least _ ?_) (not_le_of_gt large)
        rw [TreeValidator.boundBefore, if_neg (by omega)]
        exact separator

end BTree

namespace BTree

def PathFull (tree : BTree ω) (path : List SearchPathEntry) : Prop :=
  ∀ frame ∈ path, ∀ node, tree.internals.lookup frame.pageId = some node → node.capacity ≤ node.keyCount

/-- A leaf of an accepted tree has fallen into two, and the key between the halves is to be placed above. The nodes are
those of the tree's configuration, on pages of their own, and there is no sink. -/
structure Promotes (tree : BTree ω) (path : List SearchPathEntry) (promoted : Key) (leftId rightId : PageId) : Prop where
  accepted : TreeValidator.validate tree = .ok ()
  sound : tree.Sound
  once : tree.pages.Nodup
  distinct : tree.separators.Nodup
  reached : ∃ key exactMatch index, tree.descendToLeaf key exactMatch = .ok (leftId, index, path)
  new : rightId ∈ tree.leaves ∧ rightId ∉ tree.pages
  matching : promoted.Matches tree.config
  above : ∀ low ∈ (tree.bounds path).1, low < promoted
  under : ∀ high ∈ (tree.bounds path).2, promoted < high

/-- One child and one separator have come in, and nothing else has changed its place. -/
structure Propagated (tree : BTree ω) (path : List SearchPathEntry) (promoted : Key) (leftId rightId : PageId)
    (outcome : Except Failure Unit × BTree ω) : Prop where
  ok : outcome.1 = .ok ()
  row : ∃ front back, tree.row = front ++ .inl leftId :: back ∧
    outcome.2.row = front ++ .inl leftId :: .inr promoted :: .inl rightId :: back
  leaves : outcome.2.leaves = tree.leaves
  capacity : (∀ id leaf, outcome.2.leaves.lookup id = some leaf → leaf.keyCount ≤ leaf.capacity) ∧
    ∀ id node, outcome.2.internals.lookup id = some node → node.keyCount ≤ node.capacity
  height : outcome.2.height = tree.height + 1 ∧ tree.PathFull path ∨ outcome.2.height = tree.height ∧ ¬ tree.PathFull path

theorem PathTo.filled {tree : BTree ω} {path : List SearchPathEntry} {id : PageId} (leads : tree.PathTo path id)
    (sound : tree.Sound) : tree.PathFull path ↔ ∀ frame ∈ path, Rebalance.Filled tree frame.pageId := by
  refine forall₂_congr fun frame member => ?_
  obtain ⟨noLeaf, node, found⟩ := leads.inner frame member
  have ok := sound.internals frame.pageId node found
  have view : tree.view frame.pageId = some (.branch node.keys (node.children.map (·.pageId))) :=
    view_branch.mpr ⟨noLeaf, node, found, rfl, rfl⟩
  simp only [found, Option.some.injEq, forall_eq', Rebalance.Filled, view, Node.branch.injEq]
  rw [ok.count, ok.page.capacity]
  constructor
  · exact fun full => ⟨_, _, ⟨rfl, rfl⟩, full⟩
  · rintro ⟨_, _, ⟨same, -⟩, full⟩
    exact same ▸ full

section Promotes

variable {tree : BTree ω} {path : List SearchPathEntry} {promoted : Key} {leftId rightId : PageId}

theorem Promotes.standing (promotes : tree.Promotes path promoted leftId rightId) :
    tree.PathTo path leftId ∧ leftId ∈ tree.leaves ∧
      ∃ top, TreeValidator.Checked tree top tree.rootId none none ∧ Tree tree.view top tree.rootId := by
  obtain ⟨key, exactMatch, index, walked⟩ := promotes.reached
  obtain ⟨live, leads, leaf⟩ := descendToLeaf_leads walked
  obtain ⟨top, passes⟩ := TreeValidator.validate_passes promotes.accepted live
  exact ⟨leads, leaf, top, passes.checked, passes.checked.grown⟩

theorem Promotes.unknown (promotes : tree.Promotes path promoted leftId rightId) : promoted ∉ tree.separators := by
  obtain ⟨leads, leaf, top, checked, grown⟩ := promotes.standing
  intro member
  obtain ⟨entry, listed, right⟩ := List.mem_filterMap.mp member
  obtain rfl := Sum.getRight?_eq_some_iff.mp right
  rw [row_eq grown] at listed
  obtain ⟨found, standing⟩ := Option.isSome_iff_exists.mp (AList.lookup_isSome.mpr leaf)
  exact not_separates_leaf standing
    (leads.separates checked promotes.above promotes.under (separates_of_mem grown listed))

/-- The two halves where the leaf was. -/
theorem Promotes.twin (promotes : tree.Promotes path promoted leftId rightId) :
    ∃ top before after outside, tree.row = before ++ .inl leftId :: after ∧
      Twin (mark tree.view) top tree.rootId (places path) 0 leftId rightId (.inr promoted) before after outside
        (before ++ .inl leftId :: .inr promoted :: .inl rightId :: after) := by
  obtain ⟨leads, leaf, top, checked, grown⟩ := promotes.standing
  obtain ⟨height, _, _, outside, -, deep, place⟩ := leads.within grown
  obtain ⟨before, after, within⟩ := place.relabel (fun id _ => [(.inl id : PageId ⊕ Key)]) .inr
  have view : ∀ id ∈ tree.leaves, ∃ keys, tree.view id = some (.leaf keys) := fun id member =>
    let ⟨found, standing⟩ := Option.isSome_iff_exists.mp (AList.lookup_isSome.mpr member)
    ⟨found.keys, view_leaf.mpr ⟨found, standing, rfl⟩⟩
  obtain ⟨keys, left⟩ := view leftId leaf
  obtain ⟨keys', right⟩ := view rightId promotes.new.1
  obtain rfl := deep.height_unique (tree_leaf left)
  obtain ⟨-, order, nodes⟩ := within.plug (tree_relabel.mpr deep)
  have leftOrder : inorder (mark tree.view) 0 leftId = [.inl leftId] := inorder_leaf (relabel_leaf left)
  have rightOrder : inorder (mark tree.view) 0 rightId = [.inl rightId] := inorder_leaf (relabel_leaf right)
  refine ⟨top, before, after, outside, ?_, within, tree_relabel.mpr deep, tree_relabel.mpr (tree_leaf right), ?_, ?_⟩
  · rw [row_eq grown, order, leftOrder, List.append_assoc]
    rfl
  · have once := promotes.once
    have away := promotes.new.2
    rw [pages, pagesBelow_eq grown (Nat.lt_succ_of_le (height_le grown)), ← ids_relabel] at once away
    rw [nodes.mem_iff] at away
    rw [nodes.nodup_iff] at once
    exact (List.Perm.swap leftId rightId outside).nodup_iff.mp (List.nodup_cons.mpr ⟨away, once⟩)
  · rw [leftOrder, rightOrder]
    simp

end Promotes

variable [BTreeWalSink ω]

/-- The split of a leaf is carried up: if no page is missing, one child and one separator come in, next to the leaf. -/
theorem split_is_propagated (tree : BTree ω) (path : List SearchPathEntry) (promoted : Key) (leftId rightId : PageId)
    (promotes : tree.Promotes path promoted leftId rightId)
    (enough : ¬ Exhausts (Rebalance.insertIntoParent path promoted leftId rightId) tree) :
    tree.Propagated path promoted leftId rightId
      ((Rebalance.insertIntoParent path promoted leftId rightId).run tree) := by
  obtain ⟨top, before, after, outside, row, twin⟩ := promotes.twin
  have distinct : ((before ++ Sum.inl leftId :: .inr promoted :: .inl rightId :: after).filterMap Sum.getRight?).Nodup := by
    have known := promotes.distinct
    have unknown := promotes.unknown
    rw [separators, row, List.filterMap_append, List.filterMap_cons_none rfl] at known unknown
    have more : (before ++ Sum.inl leftId :: .inr promoted :: .inl rightId :: after).filterMap Sum.getRight? =
        before.filterMap Sum.getRight? ++ promoted :: after.filterMap Sum.getRight? := by
      rw [List.filterMap_append]
      rfl
    rw [more]
    exact List.nodup_middle.mpr (List.nodup_cons.mpr ⟨unknown, known⟩)
  have single : ∀ keys : List Key,
      (keys.map Sum.inr).Sublist (before ++ Sum.inl leftId :: .inr promoted :: .inl rightId :: after) → keys.Nodup := by
    intro keys part
    have kept := part.filterMap Sum.getRight?
    rw [List.filterMap_map, show Sum.getRight? ∘ Sum.inr = some from rfl, List.filterMap_some] at kept
    exact distinct.sublist kept
  obtain ⟨next, ran, carried⟩ :=
    (Rebalance.insertIntoParent_climbs ⟨promotes.sound, twin, single, promotes.matching⟩).resolve_left enough
  obtain ⟨top', grown, -, order, -⟩ := carried.shape
  have leaves := leaves_kept (fun _ => insertIntoParent_leaves _ _ _ _) ran
  have filled := promotes.standing.1.filled promotes.sound
  rw [ran]
  refine ⟨rfl, ⟨before, after, row, (row_eq grown).trans order⟩, leaves, ⟨fun id leaf found => ?_, fun id node found => ?_⟩, ?_⟩
  · have ok := carried.sound.leaves id leaf found
    rw [ok.count, ok.page.capacity]
    exact ok.room
  · have ok := carried.sound.internals id node found
    rw [ok.count, ok.page.capacity]
    exact ok.room
  · rw [filled]
    by_cases full : ∀ frame ∈ path, Rebalance.Filled tree frame.pageId
    · exact .inl ⟨carried.grew full, full⟩
    · refine .inr ⟨carried.stayed ?_, full⟩
      simpa using full

/-- A root over two leaves, and a new leaf next to them. -/
def spareLeaf : BTree Empty :=
  ((allocateLeaf 0).run (Runs.after TreeCall.step TreeCall.wideTree (TreeCall.insertions TreeCall.wideEntries))).2

theorem spareLeaf_sound : spareLeaf.Sound := by
  obtain ⟨-, order, ordered, -⟩ := TreeCall.splitRun_ordered (List.prefix_append (TreeCall.insertions TreeCall.wideEntries) _)
  rcases allocateLeaf_becomes ordered.sound 0 with failed | ⟨id, after, ran, -, becomes⟩
  · exact absurd (show Exhausts (allocateLeaf 0) _ from failed) (by decide +kernel)
  · rw [spareLeaf, ran]
    exact becomes.sound

/-- The second leaf has fallen into two: the root gets a child and a separator at its end. -/
theorem split_is_propagated_second :
    spareLeaf.Promotes [⟨10, 1⟩] (wideKey 20) 9 11 ∧
      spareLeaf.Propagated [⟨10, 1⟩] (wideKey 20) 9 11
        ((Rebalance.insertIntoParent [⟨10, 1⟩] (wideKey 20) 9 11).run spareLeaf) := by
  have facts : TreeValidator.validate spareLeaf = .ok () ∧ spareLeaf.pages.Nodup ∧ spareLeaf.separators.Nodup ∧
      spareLeaf.descendToLeaf (wideKey 14) false = .ok (9, 6, [⟨10, 1⟩]) ∧ (11 ∈ spareLeaf.leaves ∧ 11 ∉ spareLeaf.pages) ∧
      spareLeaf.config = { keyType := .binary, binaryKeySize := 256 } ∧
      spareLeaf.bounds [⟨10, 1⟩] = (some (wideKey 7), none) ∧
      ¬ Exhausts (Rebalance.insertIntoParent [⟨10, 1⟩] (wideKey 20) 9 11) spareLeaf := by decide +kernel
  obtain ⟨accepted, once, distinct, reached, new, config, bounds, pages⟩ := facts
  have promotes : spareLeaf.Promotes [⟨10, 1⟩] (wideKey 20) 9 11 := by
    refine ⟨accepted, spareLeaf_sound, once, distinct, ⟨wideKey 14, false, 6, reached⟩, new, ?_, ?_, ?_⟩
    · rw [config]
      exact wideKey_matches 20
    · rw [bounds]
      decide
    · simp [bounds]
  exact ⟨promotes, split_is_propagated _ _ _ _ _ promotes pages⟩

end BTree
end Quartz.Btree
