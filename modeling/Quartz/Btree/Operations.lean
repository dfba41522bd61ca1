import Quartz.Btree.Rebalance

/-! The public operations of the tree that change it. -/

namespace Quartz.Btree
open Storage Serialization Format Pages Space TreeM

namespace BTree

variable {ω : Type}

def create (space : SpaceManager) (config : BTreeNodeConfig) : BTree ω := { space := space, config := config }

def clear (tree : BTree ω) : BTree ω :=
  { tree with
    space := (tree.leaves.keys ++ tree.internals.keys).foldl (fun space id => (space.freePage id).2) tree.space
    leaves := ∅
    internals := ∅
    rootId := kInvalidPageId
    size := 0
    height := 0 }

section Update

variable [BTreeWalSink ω]

def inserted (key : Key) (value : PageReference) : TreeM ω Unit := do
  Fallible.update fun tree => { tree with size := tree.size + 1 }
  notify (.insert key value)

def insertFirst (key : Key) (value : PageReference) : TreeM ω Unit := do
  let leafId ← allocateLeaf 0
  onLeaf leafId fun leaf => leaf.insert key value
  Fallible.update fun tree => { tree with rootId := leafId, height := 1 }
  inserted key value

def place (leafId : PageId) (path : List SearchPathEntry) (key : Key) (value : PageReference) : TreeM ω Unit := do
  let leaf ← TreeM.leaf leafId
  if leaf.keyCount < leaf.capacity then onLeaf leafId fun leaf => leaf.insert key value
  else Rebalance.splitAndInsertLeaf leafId path key value

def insert (key : Key) (value : PageReference) : TreeM ω Unit := do
  if !value.isValid then Fallible.fail (.status (Status.invalidArgument "BTree: invalid page reference"))
  else
    let tree ← Fallible.read
    if tree.empty then insertFirst key value
    else
      let found ← ofExcept (tree.descendForInsert key)
      place found.1 found.2.2 key value
      inserted key value

/-- An empty root leaf is given back; a leaf below a parent is fixed when it is underfull. -/
def afterErase (leafId : PageId) (path : List SearchPathEntry) : TreeM ω Unit := do
  let leaf ← TreeM.leaf leafId
  if path.isEmpty then
    if leaf.keyCount = 0 then
      releaseNode leafId
      Fallible.update fun tree => { tree with rootId := kInvalidPageId, height := 0 }
    else pure ()
  else if isUnderfull leaf.keyCount leaf.capacity false then Rebalance.fixLeafUnderflow leafId path
  else pure ()

def erase (key : Key) : TreeM ω Unit := do
  let tree ← Fallible.read
  if tree.empty then Fallible.fail (.status (Status.invalidArgument "BTree: key not found"))
  else
    let found ← ofExcept (tree.descendToLeaf key true)
    onLeaf found.1 fun leaf => leaf.eraseAt found.2.1
    Fallible.update fun tree => { tree with size := tree.size - 1 }
    notify (.erase key)
    afterErase found.1 found.2.2

end Update
end BTree

inductive TreeCall where
  | insert (key : Key) (value : PageReference)
  | erase (key : Key)
  deriving DecidableEq, Repr

namespace TreeCall

variable {ω : Type} [BTreeWalSink ω]

def key : TreeCall → Key
  | insert key _ => key
  | erase key => key

def perform : TreeCall → TreeM ω Unit
  | insert key value => BTree.insert key value
  | erase key => BTree.erase key

/-- The tree a call leaves behind, whatever it returns. -/
def step (tree : BTree ω) (call : TreeCall) : BTree ω := (call.perform.run tree).2

def insertedKeys (calls : List TreeCall) : List Key :=
  calls.filterMap fun
    | insert key _ => some key
    | erase _ => none

end TreeCall
end Quartz.Btree
