import FalconLedger.SHAMap.Canonical

/-!
# Traversal in order

`peekFirstItem`, `peekNextItem`, `upperBound` and `lowerBound`, with the stack an iterator keeps. The
places on it are those of the branch a caller went into and not of the branches taken below it; what is
used of them is the depth alone, which is right.
-/

namespace FalconLedger

open RadixTree SHAMapTreeNode

namespace SHAMap

/-- The leaf an iterator stands at, if it is not at the end, and its stack. -/
abbrev Cursor := Option SHAMapLeafNode × NodeStack

/-- The place of a node that is pushed. -/
def placeBelow (branch : Fin 16) : NodeStack → Option SHAMapNodeID
  | [] => some {}
  | (_, top) :: _ => top.getChildNodeID branch

/-- Down to a leaf, by the first branch that is not empty at each node. `firstBelow` tries a
seventeenth branch too, which is always empty. -/
def belowHelper (w : Sweep 16) (branch : Fin 16) : SHAMapTreeNode → NodeStack → Option Cursor
  | .leaf l, stack => some (some l, (.leaf l, ⟨kLeafDepth, l.item.key⟩) :: stack)
  | .inner c, stack => do
    let nodeID ← placeBelow branch stack
    match w.order.find? fun i => !(c i).isEmpty with
    | some i => belowHelper w branch (c i) ((.inner c, nodeID) :: stack)
    | none => some (none, (.inner c, nodeID) :: stack)
  | .empty, stack => some (none, stack)

def firstBelow : Fin 16 → SHAMapTreeNode → NodeStack → Option Cursor := belowHelper (Sweep.up 16)

/-- An end without a leaf is an empty stack. -/
def peekFirstItem (root : SHAMapTreeNode) : Option Cursor := do
  let (node, stack) ← firstBelow ⟨0, Nat.zero_lt_succ 15⟩ root []
  if node.isNone then some (none, []) else some (node, stack)

/-- The next branch that is not empty, past the one of a key. -/
def nextBranch (w : Sweep 16) (id : UInt256) (c : Fin 16 → SHAMapTreeNode) (nodeID : SHAMapNodeID) :
    Option (Fin 16) :=
  w.order.find? fun i => w.ahead (selectBranch nodeID id) i && !(c i).isEmpty

/-- Go below a branch; it is an exception if no leaf is there. -/
def enter (w : Sweep 16) (i : Fin 16) (child : SHAMapTreeNode) (stack : NodeStack) : Option Cursor := do
  let (node, stack) ← belowHelper w i child stack
  if node.isNone then none else some (node, stack)

def nextFrom (id : UInt256) : NodeStack → Option Cursor
  | [] => some (none, [])
  | (.inner c, nodeID) :: stack =>
    match nextBranch (Sweep.up 16) id c nodeID with
    | some i => enter (Sweep.up 16) i (c i) ((.inner c, nodeID) :: stack)
    | none => nextFrom id stack
  | _ => none

def peekNextItem (id : UInt256) (stack : NodeStack) : Option Cursor := nextFrom id stack.tail

/-- The loops of `upperBound` and `lowerBound`. -/
def boundFrom (w : Sweep 16) (beyond : UInt256 → Bool) (id : UInt256) : NodeStack → Option Cursor
  | [] => some (none, [])
  | (.inner c, nodeID) :: stack =>
    match nextBranch w id c nodeID with
    | some i => enter w i (c i) ((.inner c, nodeID) :: stack)
    | none => boundFrom w beyond id stack
  | (.leaf l, nodeID) :: stack =>
    if beyond l.item.key then some (some l, (.leaf l, nodeID) :: stack)
    else boundFrom w beyond id stack
  | (.empty, _) :: stack => boundFrom w beyond id stack

def upperBound (root : SHAMapTreeNode) (id : UInt256) : Option Cursor := do
  boundFrom (Sweep.up 16) (fun key => decide (key > id)) id (← walkTowardsKey root id)

def lowerBound (root : SHAMapTreeNode) (id : UInt256) : Option Cursor := do
  boundFrom (Sweep.down 16) (fun key => decide (key < id)) id (← walkTowardsKey root id)

/-- The items an iterator passes from where it stands to the end, in at most so many steps. -/
def iterate : ℕ → Cursor → Option (List SHAMapItem)
  | _, (none, _) => some []
  | 0, (some _, _) => none
  | n + 1, (some node, stack) => do
    let items ← iterate n (← peekNextItem node.item.key stack)
    return node.item :: items

/-! ### What is left of a pass -/

/-- The leaves on the branches past those that a stack went into. -/
def after (w : Sweep 16) (k : UInt256) : NodeStack → List SHAMapLeafNode
  | [] => []
  | (.inner c, nodeID) :: stack =>
    ((w.order.filter fun i => w.ahead (selectBranch nodeID k) i).flatMap fun i => (c i).leaves w) ++
      after w k stack
  | _ :: stack => after w k stack

/-- A stack on the way of a key that ends in an inner node. -/
def Inside (root : SHAMapTreeNode) (k : UInt256) (stack : NodeStack) : Prop :=
  OnPath root k stack ∧ ∃ c nodeID rest, stack = (.inner c, nodeID) :: rest

variable {root : SHAMapTreeNode} {k k' : UInt256} {w : Sweep 16}

theorem OnPath.congr {s : NodeStack} (h : OnPath root k s) :
    ∀ node nodeID stack, s = (node, nodeID) :: stack →
      (∀ e < nodeID.depth, nibble e k = nibble e k') →
      OnPath root k' s ∧ after w k stack = after w k' stack := by
  induction h with
  | root =>
    rintro node nodeID stack heq -
    obtain ⟨-, rfl⟩ := List.cons.inj heq
    exact ⟨.root, rfl⟩
  | @child c nodeID child m stack parent place ih =>
    rintro node nodeID' stack' heq hsame
    obtain ⟨⟨rfl, rfl⟩, rfl⟩ : (c (selectBranch nodeID k) = node ∧ child = nodeID') ∧
        (.inner c, nodeID) :: stack = stack' := by
      simpa using heq
    obtain ⟨-, hdepth, -⟩ := SHAMapNodeID.getChildNodeID_eq_some place
    have hbranch : selectBranch nodeID k = selectBranch nodeID k' := hsame _ (by omega)
    obtain ⟨hpath, hafter⟩ := ih _ _ _ rfl fun e he => hsame e (by omega)
    constructor
    · rw [hbranch]
      exact hpath.child place
    · rw [after, after, hbranch, hafter]

theorem OnPath.of_mem (hroot : Sound 0 root) {c : Fin 16 → SHAMapTreeNode} {nodeID : SHAMapNodeID}
    {stack : NodeStack} (h : OnPath root k ((.inner c, nodeID) :: stack)) {l : SHAMapLeafNode}
    (hl : l ∈ RadixTree.inner c) :
    OnPath root (keyOf l) ((.inner c, nodeID) :: stack) ∧
      after w k stack = after w (keyOf l) stack := by
  obtain ⟨-, hunder, -⟩ := h.sound hroot _ _ _ rfl
  exact h.congr _ _ _ rfl fun e he => (hunder l hl e he).symm

/-- **`belowHelper` finds the first leaf below a branch**, with the rest of the pass on its stack. -/
theorem belowHelper_spec (hroot : Sound 0 root) (branch : Fin 16) {t : SHAMapTreeNode} (hne : t ≠ .empty)
    {c : Fin 16 → SHAMapTreeNode} {nodeID : SHAMapNodeID} {stack : NodeStack} {i : Fin 16}
    (hi : c i = t) (h : OnPath root k ((.inner c, nodeID) :: stack)) :
    ∃ l top stack', belowHelper w branch t ((.inner c, nodeID) :: stack) =
        some (some l, top :: stack') ∧ Inside root (keyOf l) stack' ∧ l ∈ t ∧
      l :: after w (keyOf l) stack' =
        t.leaves w ++ after w (keyOf l) ((.inner c, nodeID) :: stack) := by
  induction t generalizing k c nodeID stack i with
  | empty => exact absurd rfl hne
  | leaf l =>
    have hl : l ∈ RadixTree.inner c := ⟨i, by rw [hi]; rfl⟩
    exact ⟨l, _, _, rfl, ⟨(h.of_mem (w := w) hroot hl).1, c, nodeID, stack, rfl⟩, rfl, rfl⟩
  | inner c' ih =>
    obtain ⟨hsound, hunder, -⟩ := h.sound hroot _ _ _ rfl
    obtain ⟨child, hchild⟩ := SHAMapNodeID.getChildNodeID_ok h.masked (hsound.depth_lt hunder) branch
    -- the node is on the way of any key below it
    have hbranching : Branching (.inner c') := hi ▸ hsound.children c rfl i
    have hpath : ∀ l ∈ RadixTree.inner c',
        OnPath root (keyOf l) ((.inner c', child) :: (.inner c, nodeID) :: stack) := by
      intro l hl
      have hin : l ∈ c i := by rwa [hi]
      have hselect : selectBranch nodeID (keyOf l) = i := hsound.placed.2 i l hin
      have := ((h.of_mem (w := w) hroot ⟨i, hin⟩).1).child hchild
      rwa [hselect, hi] at this
    obtain ⟨-, l₀, -, hl₀, -⟩ := hbranching
    cases hfind : w.order.find? fun j => !(c' j).isEmpty with
    | none =>
      obtain ⟨j, hj⟩ := hl₀
      have hempty := List.find?_eq_none.mp hfind j (w.complete j)
      rw [Bool.not_eq_true, Bool.not_eq_false', RadixTree.isEmpty_iff] at hempty
      rw [hempty] at hj
      exact absurd hj (not_mem_empty l₀)
    | some j =>
      have hj : c' j ≠ .empty := by
        have := (w.find_first hfind).1
        intro hempty
        rw [hempty] at this
        exact Bool.noConfusion this
      obtain ⟨l, top, stack', hbelow, hinside, hl, hafter⟩ := ih j hj rfl (hpath l₀ hl₀)
      refine ⟨l, top, stack', ?_, hinside, ⟨j, hl⟩, ?_⟩
      · rw [belowHelper, placeBelow, hchild]
        simp only [bind, Option.bind, hfind]
        exact hbelow
      · have hselect : selectBranch child (keyOf l) = j :=
          ((hpath l ⟨j, hl⟩).sound hroot _ _ _ rfl).1.placed.2 j l hl
        rw [hafter, after, hselect, ← List.append_assoc, leaves]
        congr 1
        exact (w.flatMap_first (fun _ => leaves_eq_nil) hfind).symm

/-- A cursor that stands where a pass has these leaves left. -/
def StandsAt (w : Sweep 16) (root : SHAMapTreeNode) (left : List SHAMapLeafNode) (cursor : Cursor) :
    Prop :=
  (left = [] ∧ cursor = (none, [])) ∨
    ∃ l top stack, cursor = (some l, top :: stack) ∧ Inside root (keyOf l) stack ∧
      l :: after w (keyOf l) stack = left

/-- Past an inner node of the stack: on to the next branch that has leaves, or to the rest. -/
theorem enter_spec (hroot : Sound 0 root) {c : Fin 16 → SHAMapTreeNode} {nodeID : SHAMapNodeID}
    {stack : NodeStack} (h : OnPath root k ((.inner c, nodeID) :: stack)) :
    (nextBranch w k c nodeID = none ∧ after w k ((.inner c, nodeID) :: stack) = after w k stack) ∨
      ∃ i cursor, nextBranch w k c nodeID = some i ∧
        enter w i (c i) ((.inner c, nodeID) :: stack) = some cursor ∧
        StandsAt w root (after w k ((.inner c, nodeID) :: stack)) cursor := by
  cases hnext : nextBranch w k c nodeID with
  | none =>
    refine .inl ⟨rfl, ?_⟩
    rw [after, w.flatMap_after_none (fun _ => leaves_eq_nil) hnext, List.nil_append]
  | some i =>
    have hi : c i ≠ .empty := by
      have hp := (w.find_first hnext).1
      intro hempty
      rw [hempty, Bool.and_eq_true] at hp
      exact Bool.noConfusion hp.2
    obtain ⟨l, top, stack', hbelow, hinside, hl, hafter⟩ := @belowHelper_spec root k w hroot i _ hi _ _ _ _ rfl h
    refine .inr ⟨i, (some l, top :: stack'), rfl, ?_, .inr ⟨l, top, stack', rfl, hinside, ?_⟩⟩
    · rw [enter, hbelow]
      rfl
    · have hselect : selectBranch nodeID (keyOf l) = i :=
        (h.sound hroot _ _ _ rfl).1.placed.2 i l hl
      have hrest : after w k stack = after w (keyOf l) stack := (h.of_mem hroot ⟨i, hl⟩).2
      rw [hafter, after, after, hselect, ← hrest,
        w.flatMap_after (fun _ => leaves_eq_nil) hnext, List.append_assoc]

theorem OnPath.tail {top : SHAMapTreeNode × SHAMapNodeID} {stack : NodeStack}
    (h : OnPath root k (top :: stack)) : stack = [] ∨ Inside root k stack := by
  cases h with
  | root => exact .inl rfl
  | child parent place => exact .inr ⟨parent, _, _, _, rfl⟩

theorem OnPath.tail_of_leaf (hroot : Sound 0 root) {l : SHAMapLeafNode} {nodeID : SHAMapNodeID}
    {stack : NodeStack} (h : OnPath root k ((.leaf l, nodeID) :: stack)) : Inside root k stack := by
  rcases h.tail with rfl | hinside
  · have hd : nodeID.depth = 0 := by
      generalize RadixTree.leaf l = node at h
      cases h
      rfl
    exact absurd (h.depth_pos hroot) (by omega)
  · exact hinside

/-- **The next leaf is the first of those left.** -/
theorem nextFrom_spec (hroot : Sound 0 root) {stack : NodeStack}
    (h : stack = [] ∨ Inside root k stack) :
    ∃ cursor, nextFrom k stack = some cursor ∧
      StandsAt (Sweep.up 16) root (after (Sweep.up 16) k stack) cursor := by
  induction stack with
  | nil => exact ⟨_, rfl, .inl ⟨rfl, rfl⟩⟩
  | cons top stack ih =>
    rcases h with hnil | ⟨hpath, c, nodeID, rest, hcons⟩
    · exact nomatch hnil
    · obtain ⟨rfl, rfl⟩ := List.cons.inj hcons
      rcases @enter_spec root k (Sweep.up 16) hroot c nodeID stack hpath with
        ⟨hnone, hafter⟩ | ⟨i, cursor, hsome, henter, hstands⟩
      · obtain ⟨cursor, hnext, hstands⟩ := ih hpath.tail
        refine ⟨cursor, ?_, hafter ▸ hstands⟩
        simp only [nextFrom, hnone, hnext]
      · refine ⟨cursor, ?_, hstands⟩
        simp only [nextFrom, hsome, henter]

theorem boundFrom_spec (hroot : Sound 0 root) {beyond : UInt256 → Bool} {stack : NodeStack}
    (h : stack = [] ∨ Inside root k stack) :
    ∃ cursor, boundFrom w beyond k stack = some cursor ∧
      StandsAt w root (after w k stack) cursor := by
  induction stack with
  | nil => exact ⟨_, rfl, .inl ⟨rfl, rfl⟩⟩
  | cons top stack ih =>
    rcases h with hnil | ⟨hpath, c, nodeID, rest, hcons⟩
    · exact nomatch hnil
    · obtain ⟨rfl, rfl⟩ := List.cons.inj hcons
      rcases @enter_spec root k w hroot c nodeID stack hpath with
        ⟨hnone, hafter⟩ | ⟨i, cursor, hsome, henter, hstands⟩
      · obtain ⟨cursor, hnext, hstands⟩ := ih hpath.tail
        refine ⟨cursor, ?_, hafter ▸ hstands⟩
        simp only [boundFrom, hnone, hnext]
      · refine ⟨cursor, ?_, hstands⟩
        simp only [boundFrom, hsome, henter]

/-- **Iterating yields the leaves left**, once there are steps enough. -/
theorem iterate_spec (hroot : Sound 0 root) {left : List SHAMapLeafNode} {cursor : Cursor}
    (h : StandsAt (Sweep.up 16) root left cursor) {n : ℕ} (hn : left.length ≤ n) :
    iterate n cursor = some (left.map SHAMapLeafNode.item) := by
  induction left generalizing cursor n with
  | nil =>
    obtain ⟨-, rfl⟩ | ⟨l, top, stack, -, -, hcons⟩ := h
    · cases n <;> rfl
    · exact nomatch hcons
  | cons l left ih =>
    obtain ⟨hnil, -⟩ | ⟨l', top, stack, rfl, hinside, hcons⟩ := h
    · exact nomatch hnil
    · obtain ⟨rfl, rfl⟩ := List.cons.inj hcons
      obtain ⟨n, rfl⟩ := Nat.exists_eq_add_one_of_ne_zero (Nat.ne_of_gt (Nat.lt_of_lt_of_le
        (Nat.succ_pos _) hn))
      obtain ⟨cursor, hnext, hstands⟩ := nextFrom_spec hroot (.inr hinside)
      have hrest := ih hstands (Nat.le_of_succ_le_succ hn)
      rw [iterate, peekNextItem, List.tail_cons, show l'.item.key = keyOf l' from rfl, hnext]
      simp only [bind, Option.bind, hrest]
      rfl

/-! ### Where a walk has ended -/

section Bound

variable {r : UInt256 → UInt256 → Bool}
  (hr : ∀ k k' d, (∀ e < d, nibble e k = nibble e k') → w.ahead (nibble d k) (nibble d k') → r k k')
  (hasymm : ∀ k k', r k k' → r k' k = false)

include hr hasymm

theorem filter_leaves {d : ℕ} {c : Fin 16 → SHAMapTreeNode} (hsound : Sound d (.inner c))
    (hunder : Under d k (.inner c)) :
    ((RadixTree.inner c).leaves w).filter (fun l => r k (keyOf l)) =
      ((c (nibble d k)).leaves w).filter (fun l => r k (keyOf l)) ++
        (w.order.filter fun i => w.ahead (nibble d k) i).flatMap fun i => (c i).leaves w := by
  have hbefore : ((w.order.filter fun i => w.ahead i (nibble d k)).flatMap
      fun i => (c i).leaves w).filter (fun l => r k (keyOf l)) = [] := by
    rw [List.filter_eq_nil_iff]
    intro l hl
    obtain ⟨i, hi, hl⟩ := List.mem_flatMap.mp hl
    rw [mem_leaves] at hl
    have hdigit := hsound.placed.2 i l hl
    have hlt := hr (keyOf l) k d (hunder l ⟨i, hl⟩) (by rw [hdigit]; exact (List.mem_filter.mp hi).2)
    rw [hasymm _ _ hlt]
    exact Bool.noConfusion
  have hafter : ((w.order.filter fun i => w.ahead (nibble d k) i).flatMap
      fun i => (c i).leaves w).filter (fun l => r k (keyOf l)) =
      (w.order.filter fun i => w.ahead (nibble d k) i).flatMap fun i => (c i).leaves w := by
    rw [List.filter_eq_self]
    intro l hl
    obtain ⟨i, hi, hl⟩ := List.mem_flatMap.mp hl
    rw [mem_leaves] at hl
    refine hr k (keyOf l) d (fun e he => (hunder l ⟨i, hl⟩ e he).symm) ?_
    rw [hsound.placed.2 i l hl]
    exact (List.mem_filter.mp hi).2
  rw [leaves, w.flatMap_split _ (nibble d k), List.filter_append, List.filter_append, hbefore, hafter,
    List.nil_append]

theorem OnPath.filter_leaves (hroot : Sound 0 root) {s : NodeStack} (h : OnPath root k s) :
    ∀ node nodeID stack, s = (node, nodeID) :: stack →
      (root.leaves w).filter (fun l => r k (keyOf l)) =
        (node.leaves w).filter (fun l => r k (keyOf l)) ++ after w k stack := by
  induction h with
  | root =>
    rintro node nodeID stack heq
    obtain ⟨⟨rfl, rfl⟩, rfl⟩ : (root = node ∧ ({} : SHAMapNodeID) = nodeID) ∧ [] = stack := by
      simpa using heq
    rw [after, List.append_nil]
  | @child c nodeID child m stack parent place ih =>
    rintro node nodeID' stack' heq
    obtain ⟨⟨rfl, rfl⟩, rfl⟩ : (c (selectBranch nodeID k) = node ∧ child = nodeID') ∧
        (.inner c, nodeID) :: stack = stack' := by
      simpa using heq
    obtain ⟨hsound, hunder, -⟩ := parent.sound hroot _ _ _ rfl
    rw [ih _ _ _ rfl, SHAMap.filter_leaves hr hasymm hsound hunder, after, List.append_assoc]
    rfl

/-- **A bound stands at the first leaf past the key.** -/
theorem bound_spec (hroot : Sound 0 root) {id : UInt256} :
    ∃ cursor, (do boundFrom w (r id) id (← walkTowardsKey root id)) = some cursor ∧
      StandsAt w root ((root.leaves w).filter fun l => r id (keyOf l)) cursor := by
  obtain ⟨node, nodeID, stack, hwalk, hpath, hend⟩ := walkTowardsKey_onPath hroot id
  have hleaves := hpath.filter_leaves hr hasymm hroot _ _ _ rfl
  rw [hwalk, hleaves]
  simp only [bind, Option.bind]
  rcases hend with ⟨l, rfl⟩ | ⟨c, rfl, hempty⟩
  · by_cases hl : r id (keyOf l)
    · obtain ⟨-, hunder, -⟩ := hpath.sound hroot _ _ _ rfl
      obtain ⟨hpath', hafter⟩ := @OnPath.congr root id (keyOf l) w _ hpath _ _ _ rfl
        fun e he => (hunder l rfl e he).symm
      refine ⟨(some l, (.leaf l, nodeID) :: stack), if_pos hl, .inr ⟨l, _, stack, rfl, ?_, ?_⟩⟩
      · exact hpath'.tail_of_leaf hroot
      · simp [leaves, hl, hafter]
    · obtain ⟨cursor, hbound, hstands⟩ := @boundFrom_spec root id w hroot (r id) stack hpath.tail
      refine ⟨cursor, ?_, ?_⟩
      · rw [boundFrom, show l.item.key = keyOf l from rfl, if_neg hl, hbound]
      · simpa [leaves, hl] using hstands
  · obtain ⟨hsound, hunder, -⟩ := hpath.sound hroot _ _ _ rfl
    obtain ⟨cursor, hbound, hstands⟩ :=
      @boundFrom_spec root id w hroot (r id) _ (.inr ⟨hpath, c, nodeID, stack, rfl⟩)
    refine ⟨cursor, hbound, ?_⟩
    rw [SHAMap.filter_leaves hr hasymm hsound hunder,
      show nibble nodeID.depth id = selectBranch nodeID id from rfl, hempty, leaves, List.filter_nil,
      List.nil_append]
    exact hstands

end Bound

end SHAMap

end FalconLedger
