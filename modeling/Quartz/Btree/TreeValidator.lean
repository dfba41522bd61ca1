import Quartz.Btree.BTree

/-! The validator: one walk over the whole tree with the bounds the separators give. -/

namespace Quartz.Btree.TreeValidator
open Storage Format

variable {ω : Type}

def belowMin (min : Option Key) (key : Key) : Bool := min.any fun bound => KeyComparator.less key bound

/-- The checks of the keys of a leaf, each with the key before it. -/
def leafRange (min max : Option Key) : Option Key → List Key → Status
  | _, [] => Status.success
  | previous, key :: rest =>
    if belowMin min key then Status.corruption "TreeValidator: leaf key below parent separator"
    else if max.any fun bound => !KeyComparator.less key bound then
      Status.corruption "TreeValidator: leaf key at or above upper separator"
    else if belowMin previous key then Status.corruption "TreeValidator: leaf keys not sorted"
    else leafRange min max (some key) rest

/-- After the checks of the leaf itself its keys are as many as its page says. -/
def validateLeafRange (leaf : LeafNode) (min max : Option Key) : Status :=
  if !leaf.validate.ok then leaf.validate else leafRange min max none leaf.keys

def internalRange (min max : Option Key) : Option Key → List Key → Status
  | _, [] => Status.success
  | previous, key :: rest =>
    if belowMin min key then Status.corruption "TreeValidator: internal key below bound"
    else if max.any fun bound => KeyComparator.greater key bound then
      Status.corruption "TreeValidator: internal key above bound"
    else if belowMin previous key then Status.corruption "TreeValidator: internal keys not sorted"
    else internalRange min max (some key) rest

/-- The bounds of the children, from left to right. -/
def childBounds (min max : Option Key) (keys : List Key) : List (Option Key × Option Key) :=
  (min :: keys.map some).zip (keys.map some ++ [max])

def check (status : Status) : Except Failure Unit := if status.ok then .ok () else .error (.status status)

/-- Returns the depth of the leaves, zero before the first one. Bounds only narrow, and on a
cycle they stand still from its second round on; a walk this long never ends. -/
def validateSubtree (tree : BTree ω) :
    Nat → PageId → Nat → Nat → Option Key → Option Key → Except Failure Nat
  | 0, _, _, _, _, _ => .error .diverges
  | fuel + 1, pageId, depth, leafDepth, min, max =>
    match tree.leaves.lookup pageId with
    | some leaf =>
      if leafDepth ≠ 0 ∧ leafDepth ≠ depth then
        .error (.status (Status.corruption "TreeValidator: leaves at different depths"))
      else do
        check (validateLeafRange leaf min max)
        return if leafDepth = 0 then depth else leafDepth
    | none =>
      match tree.internals.lookup pageId with
      | none => .error (.status (Status.corruption "TreeValidator: unknown page in tree"))
      | some node => do
        check node.validate
        check (internalRange min max none node.keys)
        (node.children.zip (childBounds min max node.keys)).foldlM
          (fun leafDepth child =>
            if !child.1.isValid then .error (.status (Status.corruption "TreeValidator: invalid child reference"))
            else validateSubtree tree fuel child.1.pageId (depth + 1) leafDepth child.2.1 child.2.2)
          leafDepth

def validate (tree : BTree ω) : Except Failure Unit :=
  if tree.empty then .ok ()
  else if tree.rootId ∉ tree.leaves ∧ tree.rootId ∉ tree.internals then
    .error (.status (Status.corruption "TreeValidator: invalid root page"))
  else do
    let _ ← validateSubtree tree (2 * tree.internals.keys.length + 2) tree.rootId 1 0 none none
    return ()

end Quartz.Btree.TreeValidator
