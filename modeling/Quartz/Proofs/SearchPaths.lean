import Quartz.Proofs.BoundQueries

/-! Search paths as the descent records them, and what lies around the end of one. -/

namespace Quartz.Btree
open Storage Format Fallible HeapTree BTree

variable {ω : Type}

namespace BTree

/-- The search path to a page, the entry of its parent first. -/
inductive PathTo (tree : BTree ω) : List SearchPathEntry → PageId → Prop
  | root : PathTo tree [] tree.rootId
  | step {path : List SearchPathEntry} {id : PageId} {node : InternalNode} {index : Nat} {child : PageReference} :
      PathTo tree path id → id ∉ tree.leaves → tree.internals.lookup id = some node → node.children[index]? = some child →
      PathTo tree (⟨id, index⟩ :: path) child.pageId

/-- Only where a leaf stands, and not what is in it. -/
abbrev mark : (PageId → Option (Node PageId Key)) → PageId → Option (Node PageId (PageId ⊕ Key)) :=
  relabel (fun id _ => [.inl id]) .inr

variable {tree : BTree ω} {height top : Nat} {id other : PageId} {path : List SearchPathEntry}

/-- What lies around the end of a path. -/
theorem PathTo.within (leads : tree.PathTo path id) (grown : Tree tree.view top tree.rootId) :
    ∃ height before after outside, top = height + path.length ∧ Tree tree.view height id ∧
      Within tree.view top tree.rootId (places path) height id before after outside := by
  induction leads with
  | root => exact ⟨top, [], [], [], rfl, grown, .whole⟩
  | @step path id node index child _ noLeaf found taken ih =>
    obtain ⟨height, before, after, outside, level, deep, within⟩ := ih
    have view : tree.view id = some (.branch node.keys (node.children.map (·.pageId))) :=
      view_branch.mpr ⟨noLeaf, node, found, rfl, rfl⟩
    cases height with
    | zero =>
      obtain ⟨keys, leaf⟩ := deep
      cases view.symm.trans leaf
    | succ height =>
      obtain ⟨count, below⟩ := (tree_branch view).mp deep
      obtain ⟨left, right, parts, rfl⟩ := split_at taken
      rw [← List.take_append_drop left.length node.keys, parts, List.map_append, List.map_cons] at view
      rw [parts] at count below
      simp only [List.map_append, List.map_cons, List.length_append, List.length_cons, List.length_map] at count below
      have place := within.child view (by simp only [List.length_map, List.length_take]; omega)
        (by simp only [List.length_map, List.length_drop]; omega)
        fun other member => below other (by
          rcases List.mem_append.mp member with member | member
          · exact List.mem_append_left _ member
          · exact List.mem_append_right _ (List.mem_cons_of_mem _ member))
      rw [List.length_map] at place
      exact ⟨height, _, _, _, by rw [List.length_cons]; omega, below _ (by simp), place⟩

end BTree
end Quartz.Btree
