import FalconLedger.SHAMap.Operations

/-!
# Comparing two maps

`SHAMap::compare` and `SHAMap::walkBranch`: the items in which two maps differ, up to a number of
them. Both loops keep a stack of nodes. A difference is recorded with a countdown, and the one
that exhausts it is the last: the `error` of these functions is the early `return false` with the
differences found so far.
-/

namespace FalconLedger

open SHAMapTreeNode

/-- The item of the first map and that of the second. -/
abbrev DeltaItem := Option SHAMapItem × Option SHAMapItem

/-- `SHAMap::Delta`, in the order of insertion. -/
abbrev Delta := List (UInt256 × DeltaItem)

namespace SHAMap

/-- `insert` keeps what is there under a key. -/
def insertDelta (differences : Delta) (key : UInt256) (items : DeltaItem) : Delta :=
  if differences.any fun e => e.1 = key then differences else differences ++ [(key, items)]

/-- The differences found and how many more are wanted. -/
structure Progress where
  differences : Delta
  maxCount : ℤ

/-- Record a difference; `error` is `return false`. -/
def report (p : Progress) (e : UInt256 × DeltaItem) : Except Delta Progress :=
  let differences := insertDelta p.differences e.1 e.2
  if p.maxCount - 1 ≤ 0 then .error differences else .ok ⟨differences, p.maxCount - 1⟩

/-- The pair for an item of the map that is walked and an item of the other one. -/
def deltaRef (isFirstMap : Bool) (ours other : Option SHAMapItem) : DeltaItem :=
  if isFirstMap then (ours, other) else (other, ours)

/-- The size of a tree, for the loops to end. -/
def weight : SHAMapTreeNode → ℕ
  | .empty => 1
  | .leaf _ => 1
  | .inner c => ((List.finRange 16).map fun i => weight (c i)).sum + 1

/-- A leaf in `walkBranch`. The flag says that there is no other item, or that it was met. -/
def visitLeaf (otherMapItem : Option SHAMapItem) (isFirstMap : Bool) (item : SHAMapItem)
    (emptyBranch : Bool) (p : Progress) : Except Delta (Bool × Progress) :=
  match emptyBranch, otherMapItem with
  | false, some other =>
    if item.key ≠ other.key then do
      let p ← report p (item.key, deltaRef isFirstMap (some item) none)
      return (false, p)
    else if item.data ≠ other.data then do
      -- non-matching items with same tag
      let p ← report p (item.key, deltaRef isFirstMap (some item) (some other))
      return (true, p)
    else .ok (true, p)
  | emptyBranch, _ => do
    let p ← report p (item.key, deltaRef isFirstMap (some item) none)
    return (emptyBranch, p)

theorem weight_branches (c : Fin 16 → SHAMapTreeNode) (p : Fin 16 → Bool) :
    ((((List.finRange 16).filter p).reverse.map c).map weight).sum < weight (.inner c) := by
  rw [weight, List.map_map, List.map_reverse, List.sum_reverse]
  exact Nat.lt_succ_of_le (((List.filter_sublist).map _).sum_le_sum fun _ _ => Nat.zero_le _)

/-- The loop of `walkBranch`. An inner node puts its branches on the stack, the last on top. -/
def walkLoop (otherMapItem : Option SHAMapItem) (isFirstMap : Bool) :
    List SHAMapTreeNode → Bool → Progress → Except Delta (Bool × Progress)
  | [], emptyBranch, p => .ok (emptyBranch, p)
  | .empty :: nodeStack, emptyBranch, p => walkLoop otherMapItem isFirstMap nodeStack emptyBranch p
  | .leaf l :: nodeStack, emptyBranch, p => do
    let (emptyBranch, p) ← visitLeaf otherMapItem isFirstMap l.item emptyBranch p
    walkLoop otherMapItem isFirstMap nodeStack emptyBranch p
  | .inner c :: nodeStack, emptyBranch, p =>
    walkLoop otherMapItem isFirstMap ((branches c).reverse.map c ++ nodeStack) emptyBranch p
termination_by nodeStack => (nodeStack.map weight).sum
decreasing_by
  · simp [weight]
  · simp [weight]
  · have hlt := weight_branches c fun i => !(c i).isEmpty
    simp only [branches, List.map_append, List.sum_append, List.map_cons, List.sum_cons]
    omega

/-- Walk a branch that is matched by an empty branch or a single item in the other map. -/
def walkBranch (node : SHAMapTreeNode) (otherMapItem : Option SHAMapItem) (isFirstMap : Bool)
    (p : Progress) : Except Delta Progress := do
  let (emptyBranch, p) ← walkLoop otherMapItem isFirstMap [node] otherMapItem.isNone p
  match emptyBranch, otherMapItem with
  -- the other item was unmatched
  | false, some other => report p (other.key, deltaRef isFirstMap none (some other))
  | _, _ => return p

/-- Two leaves in `compare`. -/
def compareLeaves (ours other : SHAMapItem) (p : Progress) : Except Delta Progress :=
  if ours.key = other.key then
    if ours.data ≠ other.data then report p (ours.key, (some ours, some other)) else .ok p
  else do
    let p ← report p (ours.key, (some ours, none))
    report p (other.key, (none, some other))

variable (sha512Half : Blob → UInt256)

/-- The branches of two inner nodes with different hashes that both nodes have. -/
def bothBranches (ours other : Fin 16 → SHAMapTreeNode) : List (Fin 16) :=
  (List.finRange 16).filter fun i =>
    getHash sha512Half (ours i) ≠ getHash sha512Half (other i) &&
      (!(other i).isEmpty && !(ours i).isEmpty)

/-- What two inner nodes do at a branch, unless both have it; those pairs go on the stack. -/
def compareBranch (ours other : Fin 16 → SHAMapTreeNode) (p : Progress) (i : Fin 16) :
    Except Delta Progress :=
  if getHash sha512Half (ours i) ≠ getHash sha512Half (other i) then
    if (other i).isEmpty then walkBranch (ours i) none true p
    else if (ours i).isEmpty then walkBranch (other i) none false p
    else .ok p
  else .ok p

/-- What is done with a pair of nodes apart from the stack. A null node throws in the source and
is never on the stack. -/
def comparePair (p : Progress) : SHAMapTreeNode → SHAMapTreeNode → Except Delta Progress
  | .leaf ours, .leaf other => compareLeaves ours.item other.item p
  | .inner ours, .leaf other => walkBranch (.inner ours) (some other.item) true p
  | .leaf ours, .inner other => walkBranch (.inner other) (some ours.item) false p
  | .inner ours, .inner other => (List.finRange 16).foldlM (compareBranch sha512Half ours other) p
  | _, _ => .ok p

/-- The pairs of nodes that a pair puts on the stack. -/
def pairsBelow : SHAMapTreeNode → SHAMapTreeNode → List (SHAMapTreeNode × SHAMapTreeNode)
  | .inner ours, .inner other =>
    (bothBranches sha512Half ours other).map fun i => (ours i, other i)
  | _, _ => []

theorem weight_pairsBelow (ours other : SHAMapTreeNode) :
    (((pairsBelow sha512Half ours other).reverse.map Prod.fst).map weight).sum <
      weight ours := by
  cases ours with
  | empty => simp [pairsBelow, weight]
  | leaf l => simp [pairsBelow, weight]
  | inner c =>
    cases other with
    | empty => simp [pairsBelow, weight]
    | leaf l => simp [pairsBelow, weight]
    | inner c' =>
      have hlt := weight_branches c fun i =>
        getHash sha512Half (c i) ≠ getHash sha512Half (c' i) &&
          (!(c' i).isEmpty && !(c i).isEmpty)
      simpa only [pairsBelow, bothBranches, ← List.map_reverse, List.map_map, Function.comp_def]
        using hlt

/-- The loop of `compare`. -/
def compareLoop : List (SHAMapTreeNode × SHAMapTreeNode) → Progress → Except Delta Progress
  | [], p => .ok p
  | (ours, other) :: nodeStack, p => do
    let p ← comparePair sha512Half p ours other
    compareLoop ((pairsBelow sha512Half ours other).reverse ++ nodeStack) p
termination_by nodeStack => ((nodeStack.map Prod.fst).map weight).sum
decreasing_by
  have hlt := weight_pairsBelow sha512Half ours other
  simp only [List.map_append, List.sum_append, List.map_cons, List.sum_cons]
  omega

/-- Whether the differences are complete, and the differences. -/
def compare (ours other : SHAMapTreeNode) (maxCount : ℤ) : Bool × Delta :=
  if getHash sha512Half ours = getHash sha512Half other then (true, [])
  else
    match compareLoop sha512Half [(ours, other)] ⟨[], maxCount⟩ with
    | .ok p => (true, p.differences)
    | .error differences => (false, differences)

end SHAMap

end FalconLedger
