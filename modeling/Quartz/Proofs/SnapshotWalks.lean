import Quartz.Btree.Snapshot
import Quartz.Lib.Descents
import Quartz.Proofs.ValidatedSearch

/-! When a search and the validator come to an end. A snapshot may have any child references, also
such that lead back to where the walk came from. The validator meets its leaves at one depth, so a
walk of it that does not end goes down along first children from some page on. -/

namespace Quartz.Btree
open Storage Format Serialization Relation Descents

variable {ω : Type}

namespace BTree

/-- The descent for the key goes from the first page to the second. -/
def Leads (tree : BTree ω) (key : Key) (id next : PageId) : Prop :=
  id ∉ tree.leaves ∧ ∃ node child, tree.internals.lookup id = some node ∧
    node.children[node.lowerBound key]? = some child ∧ child.isValid = true ∧ child.pageId = next

/-- With enough fuel the search for the key returns. -/
def SearchEnds (tree : BTree ω) (key : Key) : Prop :=
  tree.empty = true ∨ ∃ fuel, tree.descend key fuel tree.rootId [] ≠ .error .diverges

variable {tree : BTree ω} {key : Key} {id : PageId} {path : List SearchPathEntry} {fuel : Nat}

theorem Leads.mem_internals {next : PageId} (leads : tree.Leads key id next) : id ∈ tree.internals.keys := by
  obtain ⟨-, node, -, inner, -⟩ := leads
  exact AList.mem_keys.mp (AList.lookup_isSome.mp (by rw [inner]; rfl))

theorem Leads.descend {next : PageId} (leads : tree.Leads key id next) (path : List SearchPathEntry) :
    ∃ node, tree.internals.lookup id = some node ∧ ∀ fuel,
      tree.descend key (fuel + 1) id path = tree.descend key fuel next (⟨id, node.lowerBound key⟩ :: path) := by
  obtain ⟨noLeaf, node, child, inner, below, valid, rfl⟩ := leads
  refine ⟨node, inner, fun fuel => ?_⟩
  simp only [BTree.descend, if_neg noLeaf, inner, below, valid, if_not_true]

theorem descend_cases (tree : BTree ω) (key : Key) (id : PageId) (path : List SearchPathEntry) :
    (∀ fuel, tree.descend key (fuel + 1) id path ≠ .error .diverges) ∨ ∃ next, tree.Leads key id next := by
  by_cases leaf : id ∈ tree.leaves
  · exact .inl fun _ => by rw [descend, if_pos leaf]; simp
  cases inner : tree.internals.lookup id with
  | none => exact .inl fun _ => by simp [descend, leaf, inner]
  | some node =>
    cases below : node.children[node.lowerBound key]? with
    | none => exact .inl fun _ => by simp [descend, leaf, inner, below]
    | some child =>
      by_cases valid : child.isValid = true
      · exact .inr ⟨child.pageId, leaf, node, child, inner, below, valid, rfl⟩
      · exact .inl fun _ => by simp [descend, leaf, inner, below, valid]

theorem descend_ends_iff : (∃ fuel, tree.descend key fuel id path ≠ .error .diverges) ↔ Ends (tree.Leads key) id := by
  constructor
  · rintro ⟨fuel, stops⟩
    induction fuel generalizing id path with
    | zero => exact absurd rfl stops
    | succ fuel ih =>
      refine ends_of_steps fun next leads => ?_
      obtain ⟨node, -, same⟩ := leads.descend path
      exact ih (by rwa [same] at stops)
  · intro ends
    induction ends generalizing path with
    | intro id _ ih =>
      rcases descend_cases tree key id path with stops | ⟨next, leads⟩
      · exact ⟨1, stops 0⟩
      · obtain ⟨node, -, same⟩ := leads.descend path
        obtain ⟨fuel, stops⟩ := @ih next leads (⟨id, node.lowerBound key⟩ :: path)
        exact ⟨fuel + 1, by rw [same]; exact stops⟩

theorem searchEnds_iff (live : tree.empty = false) : tree.SearchEnds key ↔ Acyclic (tree.Leads key) tree.rootId := by
  have finite : {id | id ∈ tree.internals.keys}.Finite := List.finite_toSet _
  rw [SearchEnds, live, descend_ends_iff]
  simp only [Bool.false_eq_true, false_or]
  exact ⟨Ends.acyclic, Acyclic.ends finite fun _ _ leads => leads.mem_internals⟩

end BTree

namespace TreeValidator

structure Spot where
  id : PageId
  depth : Nat
  leafDepth : Nat
  low : Option Key
  high : Option Key

namespace Spot

def place (spot : Spot) : PageId × Option Key × Option Key := (spot.id, spot.low, spot.high)

def validate (tree : BTree ω) (fuel : Nat) (spot : Spot) : Except Failure Nat :=
  validateSubtree tree fuel spot.id spot.depth spot.leafDepth spot.low spot.high

end Spot

/-- Children that the walk has passed, and the depth of the leaves that is known then. -/
structure Passed (tree : BTree ω) (depth leafDepth : Nat) (entries : List (PageReference × Option Key × Option Key))
    (reached : Nat) : Prop where
  known : leafDepth ≠ 0 → reached = leafDepth
  none : entries = [] → reached = leafDepth
  each : ∀ entry ∈ entries, entry.1.isValid = true ∧ ∃ height, reached = depth + height ∧
    Passes tree height entry.1.pageId entry.2.1 entry.2.2

/-- From the first spot the walk comes to the second when it has passed the children in front. -/
def Enters (tree : BTree ω) (spot next : Spot) : Prop :=
  ∃ before child behind reached, Opens tree spot.id spot.low spot.high (before ++ child :: behind) ∧
    child.1.isValid = true ∧ Passed tree (spot.depth + 1) spot.leafDepth before reached ∧
    next = ⟨child.1.pageId, spot.depth + 1, reached, child.2.1, child.2.2⟩

/-- From a page that opens, the first child. -/
def Leftmost (tree : BTree ω) (place next : PageId × Option Key × Option Key) : Prop :=
  ∃ child behind, Opens tree place.1 place.2.1 place.2.2 (child :: behind) ∧ child.1.isValid = true ∧
    next = (child.1.pageId, child.2.1, child.2.2)

variable {tree : BTree ω} {spot next : Spot} {fuel depth leafDepth reached : Nat}
  {entries : List (PageReference × Option Key × Option Key)}

theorem Passed.walk (passed : Passed tree depth leafDepth entries reached) (fuel : Nat) :
    entries.foldlM (visit tree fuel depth) leafDepth = .ok reached ∨
      entries.foldlM (visit tree fuel depth) leafDepth = .error .diverges := by
  obtain ⟨known, none, each⟩ := passed
  induction entries generalizing leafDepth with
  | nil => exact .inl (by rw [none rfl]; rfl)
  | cons entry rest ih =>
    obtain ⟨valid, height, deep, passes⟩ := each entry List.mem_cons_self
    rw [List.foldlM_cons, visit, if_neg (by simp [valid])]
    by_cases stops : validateSubtree tree fuel entry.1.pageId depth leafDepth entry.2.1 entry.2.2 = .error .diverges
    · rw [stops]
      exact .inr rfl
    · have first : validateSubtree tree (fuel + height + 1) entry.1.pageId depth leafDepth entry.2.1 entry.2.2 =
          .ok (depth + height) := passes.accepted (by omega) (by omega)
      rw [← validateSubtree_more stops (by omega : fuel ≤ fuel + height + 1), first, ← deep]
      exact ih (fun _ => rfl) (fun _ => rfl) fun other member => each other (List.mem_cons_of_mem _ member)

theorem ends_of_stops (stops : spot.validate tree fuel ≠ .error .diverges) : Ends (Enters tree) spot := by
  induction fuel generalizing spot with
  | zero => exact absurd rfl stops
  | succ fuel ih =>
    refine ends_of_steps ?_
    rintro _ ⟨before, child, behind, reached, opens, valid, passed, rfl⟩
    refine ih fun endless => stops ?_
    rw [Spot.validate, validateSubtree_opens opens, List.foldlM_append]
    rcases passed.walk fuel with walked | stuck
    · have last : visit tree fuel (spot.depth + 1) reached child = .error .diverges := by
        rw [visit, if_neg (by simp [valid])]
        exact endless
      rw [walked]
      change (visit tree fuel (spot.depth + 1) reached child >>= fun reached => behind.foldlM _ reached) = _
      rw [last]
      rfl
    · rw [stuck]
      rfl

theorem Passed.concat {child : PageReference × Option Key × Option Key} {level : Nat}
    (passed : Passed tree depth leafDepth entries reached) (positive : 0 < depth) (valid : child.1.isValid = true)
    (ended : validateSubtree tree fuel child.1.pageId depth reached child.2.1 child.2.2 = .ok level) :
    Passed tree depth leafDepth (entries ++ [child]) level := by
  obtain ⟨same, height, deep, passes⟩ := validateSubtree_passes positive ended
  refine ⟨fun known => ?_, by simp, fun entry member => ?_⟩
  · have before := passed.known known
    rw [same (by omega), before]
  · rcases List.mem_append.mp member with inside | last
    · obtain ⟨fine, other, level, passed⟩ := passed.each entry inside
      exact ⟨fine, other, by rw [same (by omega), level], passed⟩
    · rw [List.mem_singleton.mp last]
      exact ⟨valid, height, deep, passes⟩

theorem children_stop (before : List (PageReference × Option Key × Option Key))
    {behind : List (PageReference × Option Key × Option Key)}
    (opens : Opens tree spot.id spot.low spot.high (before ++ behind))
    (passed : Passed tree (spot.depth + 1) spot.leafDepth before reached)
    (each : ∀ next, Enters tree spot next → ∃ fuel, next.validate tree fuel ≠ .error .diverges) :
    ∃ enough, ∀ fuel, enough ≤ fuel → behind.foldlM (visit tree fuel (spot.depth + 1)) reached ≠ .error .diverges := by
  induction behind generalizing before reached with
  | nil => exact ⟨0, fun _ _ same => by cases same⟩
  | cons child behind ih =>
    by_cases valid : child.1.isValid = true
    · obtain ⟨first, stops⟩ := each _ ⟨before, child, behind, reached, opens, valid, passed, rfl⟩
      have stable : ∀ fuel, first ≤ fuel →
          visit tree fuel (spot.depth + 1) reached child = visit tree first (spot.depth + 1) reached child := by
        intro fuel enough
        rw [visit, visit, if_neg (by simp [valid]), if_neg (by simp [valid])]
        exact validateSubtree_more stops enough
      cases ended : visit tree first (spot.depth + 1) reached child with
      | error failure =>
        refine ⟨first, fun fuel enough => ?_⟩
        rw [List.foldlM_cons, stable fuel enough, ended]
        intro same
        obtain rfl : failure = .diverges := by simpa [bind, Except.bind] using same
        rw [visit, if_neg (by simp [valid])] at ended
        exact stops ended
      | ok level =>
        have grown : Passed tree (spot.depth + 1) spot.leafDepth (before ++ [child]) level := by
          rw [visit, if_neg (by simp [valid])] at ended
          exact passed.concat (Nat.succ_pos _) valid ended
        obtain ⟨enough, later⟩ := ih _ (by simpa using opens) grown
        refine ⟨max first enough, fun fuel more => ?_⟩
        rw [List.foldlM_cons, stable fuel (by omega), ended]
        exact later fuel (by omega)
    · refine ⟨0, fun fuel _ => ?_⟩
      rw [List.foldlM_cons, visit, if_pos (by simpa using valid)]
      intro same
      cases same

theorem stops_of_ends (ends : Ends (Enters tree) spot) : ∃ fuel, spot.validate tree fuel ≠ .error .diverges := by
  induction ends with
  | intro spot _ ih =>
    rcases validateSubtree_cases tree spot.id spot.depth spot.leafDepth spot.low spot.high with
      ⟨status, refused⟩ | ⟨passes, level⟩ | ⟨entries, opens⟩
    · exact ⟨1, by rw [Spot.validate, refused]; exact fun same => by cases same⟩
    · exact ⟨1, by rw [Spot.validate, validateSubtree_leaf passes level]; exact fun same => by cases same⟩
    · obtain ⟨enough, stops⟩ := children_stop [] opens ⟨fun _ => rfl, fun _ => rfl, by simp⟩ ih
      refine ⟨enough + 1, ?_⟩
      rw [Spot.validate, validateSubtree_opens opens]
      exact stops enough (Nat.le_refl _)

/-! ### First children -/

theorem Leftmost.enters {place : PageId × Option Key × Option Key} (leftmost : Leftmost tree spot.place place) :
    ∃ next, Enters tree spot next ∧ next.place = place := by
  obtain ⟨child, behind, opens, valid, rfl⟩ := leftmost
  exact ⟨_, ⟨[], child, behind, spot.leafDepth, opens, valid, ⟨fun _ => rfl, fun _ => rfl, by simp⟩, rfl⟩, rfl⟩

theorem leftmost_walk {place : PageId × Option Key × Option Key} (walked : TransGen (Leftmost tree) spot.place place) :
    ∃ next, TransGen (Enters tree) spot next ∧ next.place = place := by
  induction walked with
  | single leftmost =>
    obtain ⟨next, enters, rfl⟩ := leftmost.enters
    exact ⟨next, .single enters, rfl⟩
  | tail _ leftmost ih =>
    obtain ⟨middle, walked, rfl⟩ := ih
    obtain ⟨next, enters, rfl⟩ := leftmost.enters
    exact ⟨next, walked.tail enters, rfl⟩

theorem no_round_of_ends (ends : Ends (Enters tree) spot) : ¬ TransGen (Leftmost tree) spot.place spot.place := by
  have each : ∀ spot : Spot, (∀ next, TransGen (Enters tree) spot next → ¬ TransGen (Leftmost tree) next.place next.place) →
      ¬ TransGen (Leftmost tree) spot.place spot.place := by
    intro spot ih round
    obtain ⟨next, walked, same⟩ := leftmost_walk round
    exact ih next walked (by rwa [same])
  exact ends.induction each

/-- A walk that has passed a child knows the depth of the leaves. Deeper down it passes no child. -/
theorem Enters.leftmost (enters : Enters tree spot next) (deep : spot.leafDepth ≠ 0 → spot.leafDepth ≤ spot.depth) :
    Leftmost tree spot.place next.place ∨ spot.leafDepth = 0 ∧ next.leafDepth ≠ 0 := by
  obtain ⟨before, child, behind, reached, opens, valid, passed, rfl⟩ := enters
  cases before with
  | nil => exact .inl ⟨child, behind, opens, valid, rfl⟩
  | cons entry rest =>
    obtain ⟨-, height, level, -⟩ := passed.each entry List.mem_cons_self
    refine .inr ⟨?_, by simp only; omega⟩
    by_contra known
    have same := passed.known known
    have low := deep known
    omega

def separators (tree : BTree ω) : List Key := tree.internals.entries.flatMap fun node => node.2.keys

theorem Opens.mem_internals {id : PageId} {low high : Option Key} (opens : Opens tree id low high entries) :
    id ∈ tree.internals.keys := by
  obtain ⟨-, node, inner, -⟩ := opens
  exact AList.mem_keys.mp (AList.lookup_isSome.mp (by rw [inner]; rfl))

/-- On the way along first children the lower bound stays, and the upper one is a separator. -/
theorem Leftmost.bounds {place next : PageId × Option Key × Option Key} (leftmost : Leftmost tree place next) :
    next.2.1 = place.2.1 ∧ (next.2.2 = place.2.2 ∨ next.2.2 ∈ (separators tree).map some) := by
  obtain ⟨child, behind, ⟨-, node, inner, -, -, whole⟩, -, rfl⟩ := leftmost
  cases below : node.children with
  | nil => simp [below] at whole
  | cons first rest =>
    cases keys : node.keys with
    | nil =>
      simp [below, keys, childBounds] at whole
      simp [whole.1]
    | cons key later =>
      have member : key ∈ separators tree :=
        List.mem_flatMap.mpr ⟨_, AList.mem_lookup_iff.mp inner, by rw [keys]; exact List.mem_cons_self⟩
      simp [below, keys, childBounds] at whole
      simpa [whole.1] using Or.inr member

theorem eventually_leftmost {walk : ℕ → Spot} (steps : ∀ index, Enters tree (walk index) (walk (index + 1))) :
    ∃ start, ∀ index, Leftmost tree (walk (start + index)).place (walk (start + index + 1)).place := by
  have depth : ∀ index, index ≤ (walk index).depth := by
    intro index
    induction index with
    | zero => exact Nat.zero_le _
    | succ index ih =>
      obtain ⟨_, child, _, reached, -, -, -, next⟩ := steps index
      rw [next]
      exact Nat.succ_le_succ ih
  by_cases known : ∃ index, (walk index).leafDepth ≠ 0
  · obtain ⟨first, known⟩ := known
    have same : ∀ index, (walk (first + index)).leafDepth = (walk first).leafDepth := by
      intro index
      induction index with
      | zero => rfl
      | succ index ih =>
        obtain ⟨_, child, _, reached, -, -, passed, next⟩ := steps (first + index)
        rw [← Nat.add_assoc, next]
        exact (passed.known (by rwa [ih])).trans ih
    refine ⟨first + (walk first).leafDepth, fun index => ?_⟩
    have level := same ((walk first).leafDepth + index)
    rw [← Nat.add_assoc] at level
    have deeper := depth (first + (walk first).leafDepth + index)
    refine ((steps _).leftmost fun _ => by omega).resolve_right fun unknown => ?_
    omega
  · refine ⟨0, fun index => ?_⟩
    have unknown : ∀ index, (walk index).leafDepth = 0 := fun index => not_not.mp fun some => known ⟨index, some⟩
    exact ((steps _).leftmost fun some => absurd (unknown _) some).resolve_right fun other => other.2 (unknown _)

theorem ends_of_no_round (acyclic : ∀ next, ReflTransGen (Enters tree) spot next → ¬ TransGen (Leftmost tree) next.place next.place) :
    Ends (Enters tree) spot := by
  by_contra endless
  obtain ⟨walk, rfl, steps⟩ := exists_chain endless
  obtain ⟨start, leftmost⟩ := eventually_leftmost steps
  let bounds : List (Option Key) := (walk start).high :: (separators tree).map some
  let places := tree.internals.keys.flatMap fun id => bounds.map fun high => (id, (walk start).low, high)
  have inside : ∀ index, (walk (start + index)).low = (walk start).low ∧ (walk (start + index)).high ∈ bounds := by
    intro index
    induction index with
    | zero => exact ⟨rfl, List.mem_cons_self⟩
    | succ index ih =>
      obtain ⟨low, high⟩ := (leftmost index).bounds
      refine ⟨low.trans ih.1, ?_⟩
      rcases high with same | separator
      · have same : (walk (start + (index + 1))).high = (walk (start + index)).high := same
        rw [same]
        exact ih.2
      · exact List.mem_cons_of_mem _ separator
  have listed : ∀ index, (walk (start + index)).place ∈ {place | place ∈ places} := by
    intro index
    obtain ⟨child, behind, opens, -⟩ := leftmost index
    refine List.mem_flatMap.mpr ⟨_, opens.mem_internals, List.mem_map.mpr ⟨_, (inside index).2, ?_⟩⟩
    rw [← (inside index).1]
    rfl
  obtain ⟨index, round⟩ := @exists_round _ _ (fun index => (walk (start + index)).place) _ (List.finite_toSet places) leftmost listed
  exact acyclic (walk (start + index)) (reach_of_chain steps _) round

def start (tree : BTree ω) : Spot := ⟨tree.rootId, 1, 0, none, none⟩

/-- With enough fuel the validator returns. -/
def ValidationEnds (tree : BTree ω) : Prop :=
  tree.empty = true ∨ ∃ fuel, (start tree).validate tree fuel ≠ .error .diverges

theorem validationEnds_iff (live : tree.empty = false) :
    ValidationEnds tree ↔
      ∀ spot, ReflTransGen (Enters tree) (start tree) spot → ¬ TransGen (Leftmost tree) spot.place spot.place := by
  rw [ValidationEnds, live]
  simp only [Bool.false_eq_true, false_or]
  constructor
  · rintro ⟨fuel, stops⟩ spot walked
    exact no_round_of_ends ((ends_of_stops stops).reach walked)
  · exact fun acyclic => stops_of_ends (ends_of_no_round acyclic)

end TreeValidator

namespace BTree

open TreeValidator

/-- No search comes back to a page it has left, and the validator comes to no page from which the
first children lead back to it with the same bounds. -/
structure LeadsNowhereTwice (tree : BTree ω) : Prop where
  search : ∀ key, Acyclic (tree.Leads key) tree.rootId
  validation : ∀ spot, ReflTransGen (Enters tree) (start tree) spot → ¬ TransGen (Leftmost tree) spot.place spot.place

/-- On a tree that was read from a snapshot the validator and every search come to an end exactly
when the tree has no root or its child references lead nowhere twice. -/
theorem snapshot_walks_end_iff (target : BTree ω) (bytes : List UInt8) (loaded : BTree ω) (rest : BinaryReader)
    (_ : deserialize.run (target, { view := bytes }) = (.ok (), (loaded, rest))) :
    (ValidationEnds loaded ∧ ∀ key, loaded.SearchEnds key) ↔ loaded.empty = true ∨ loaded.LeadsNowhereTwice := by
  cases live : loaded.empty with
  | true => exact ⟨fun _ => .inl rfl, fun _ => ⟨.inl live, fun _ => .inl live⟩⟩
  | false =>
    rw [validationEnds_iff live, forall_congr' fun key => searchEnds_iff live]
    simp only [Bool.false_eq_true, false_or]
    exact ⟨fun ⟨validation, search⟩ => ⟨search, validation⟩, fun ⟨search, validation⟩ => ⟨validation, search⟩⟩

theorem leadsNowhereTwice_root {tree : BTree ω}
    (below : ∀ node ∈ tree.internals.lookup tree.rootId, ∀ child ∈ node.children, child.pageId ∈ tree.leaves) :
    tree.LeadsNowhereTwice := by
  constructor
  · intro key
    refine (ends_of_steps fun next leads => ?_).acyclic
    obtain ⟨-, node, child, inner, here, -, rfl⟩ := leads
    exact ends_of_steps fun _ further => absurd (below node inner child (List.mem_of_getElem? here)) further.1
  · intro spot walked
    have ends : Ends (Enters tree) (start tree) := by
      refine ends_of_steps fun next entered => ?_
      obtain ⟨before, child, behind, reached, ⟨-, node, inner, -, -, entries⟩, -, -, rfl⟩ := entered
      have listed : child ∈ node.children.zip (childBounds (start tree).low (start tree).high node.keys) := by
        rw [← entries]
        simp
      exact ends_of_steps fun _ ⟨_, _, _, _, opens, _⟩ => absurd (below node inner child.1 (List.of_mem_zip listed).1) opens.1
    exact no_round_of_ends (ends.reach walked)

/-- The snapshot of a root over two leaves. -/
theorem snapshot_walks_end_pair :
    let result := deserialize.run ((BTree.create (Space.SpaceManager.withPolicy .firstFit) {} : BTree Empty),
      { view := (pair (.uint32 4) [.uint32 1] [.uint32 5]).serialize (listed _) })
    10 ∈ result.2.1.internals ∧ ValidationEnds result.2.1 ∧ ∀ key, result.2.1.SearchEnds key := by
  intro result
  have ran : deserialize.run _ = result := rfl
  have facts : result.1 = .ok () ∧ 10 ∈ result.2.1.internals ∧
      ∀ node ∈ result.2.1.internals.lookup result.2.1.rootId, ∀ child ∈ node.children, child.pageId ∈ result.2.1.leaves := by
    decide +kernel
  clear_value result
  obtain ⟨_, loaded, rest⟩ := result
  obtain ⟨rfl, inner, below⟩ := facts
  exact ⟨inner, (snapshot_walks_end_iff _ _ loaded rest ran).mpr (.inr (leadsNowhereTwice_root below))⟩

/-- A snapshot of one internal node without keys, which is the root and its own child. -/
def onePage : List UInt8 :=
  List.replicate 20 0 ++ [1, 0, 0, 0] ++ List.replicate 64 0 ++ [2, 0, 0, 0, 0, 0, 0, 0, 1, 0, 0, 0] ++ List.replicate 4020 0

theorem ring_never_ends {tree : BTree ω} (live : tree.empty = false) (noLeaf : tree.rootId ∉ tree.leaves)
    (found : (tree.internals.lookup tree.rootId).map (fun node => (node.keys, node.children.map (·.pageId), node.validate.ok)) =
      some ([], [tree.rootId], true)) : ¬ ValidationEnds tree ∧ ∀ key, ¬ tree.SearchEnds key := by
  obtain ⟨node, inner, parts⟩ := Option.map_eq_some_iff.mp found
  obtain ⟨keys, children, valid⟩ : node.keys = [] ∧ node.children.map (·.pageId) = [tree.rootId] ∧ node.validate.ok = true := by
    simpa using parts
  obtain ⟨child, whole, same⟩ := List.map_eq_singleton_iff.mp children
  have proper : child.isValid = true := by simpa [PageReference.isValid, same, empty] using live
  refine ⟨fun ends => ?_, fun key ends => ?_⟩
  · have opens : Opens tree tree.rootId none none [(child, none, none)] :=
      ⟨noLeaf, node, inner, valid, by rw [keys]; rfl, by rw [keys, whole]; rfl⟩
    exact (validationEnds_iff live).mp ends _ .refl (.single ⟨_, [], opens, proper, by rw [same]; rfl⟩)
  · have leads : tree.Leads key tree.rootId tree.rootId := by
      refine ⟨noLeaf, node, child, inner, ?_, proper, same⟩
      rw [InternalNode.lowerBound, keys, whole]
      rfl
    exact (searchEnds_iff live).mp ends _ .refl (.single leads)

/-- An internal node whose only child is itself. -/
theorem snapshot_walks_in_a_ring :
    let result := deserialize.run ((BTree.create (Space.SpaceManager.withPolicy .firstFit) {} : BTree Empty), { view := onePage })
    result.1 = .ok () ∧ ¬ ValidationEnds result.2.1 ∧ ∀ key, ¬ result.2.1.SearchEnds key := by
  intro result
  have done : result.1 = .ok () := by decide +kernel
  have live : result.2.1.empty = false := by decide +kernel
  have noLeaf : result.2.1.rootId ∉ result.2.1.leaves := by decide +kernel
  have found : (result.2.1.internals.lookup result.2.1.rootId).map
      (fun node => (node.keys, node.children.map (·.pageId), node.validate.ok)) = some ([], [result.2.1.rootId], true) := by
    decide +kernel
  exact ⟨done, ring_never_ends live noLeaf found⟩

end BTree
end Quartz.Btree
