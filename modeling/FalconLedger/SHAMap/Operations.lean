import FalconLedger.SHAMap.Node

/-!
# Lookup, insertion and removal

`SHAMap.cpp` on a map whose nodes are all in memory: the walk towards a key with the stack of nodes it
passes, `findKey`, `addGiveItem`, `updateGiveItem` and `delItem`. Nodes are values here: what the code
changes in place, on nodes that are not shared, is written back up the stack, and the last node written
is the root. `none` is an exception.
-/

namespace FalconLedger

open SHAMapTreeNode

/-- `SharedPtrNodeStack`, from the top down. -/
abbrev NodeStack := List (SHAMapTreeNode × SHAMapNodeID)

namespace SHAMap

/-! ### Walking towards a key -/

def walkFrom (id : UInt256) : SHAMapTreeNode → SHAMapNodeID → NodeStack → Option NodeStack
  | .inner c, nodeID, stack =>
    let branch := selectBranch nodeID id
    if (c branch).isEmpty then some ((.inner c, nodeID) :: stack)
    else do
      let child ← nodeID.getChildNodeID branch
      walkFrom id (c branch) child ((.inner c, nodeID) :: stack)
  | node, nodeID, stack => some ((node, nodeID) :: stack)

/-- The nodes on the way to a key. The leaf the walk ends at, if it does, is at the top. -/
def walkTowardsKey (root : SHAMapTreeNode) (id : UInt256) : Option NodeStack := walkFrom id root {} []

/-- The leaf at the top of a stack, if it has this key. -/
def leafAt (id : UInt256) : NodeStack → Option SHAMapLeafNode
  | (.leaf l, _) :: _ => if l.item.key = id then some l else none
  | _ => none

def findKey (root : SHAMapTreeNode) (id : UInt256) : Option (Option SHAMapLeafNode) :=
  (walkTowardsKey root id).map (leafAt id)

def hasItem (root : SHAMapTreeNode) (id : UInt256) : Option Bool :=
  (findKey root id).map Option.isSome

def peekItem (root : SHAMapTreeNode) (id : UInt256) : Option (Option SHAMapItem) :=
  (findKey root id).map fun leaf => leaf.map SHAMapLeafNode.item

/-! ### Writing back -/

def dirtyUp (target : UInt256) : NodeStack → SHAMapTreeNode → SHAMapTreeNode
  | [], child => child
  | (node, nodeID) :: stack, child =>
    dirtyUp target stack (setChild (selectBranch nodeID target) child node)

/-! ### Adding and updating -/

/-- New inner nodes as long as two keys go the same way. The first argument bounds the rounds; the
place of a leaf's child is an exception before they run out. -/
def splitLoop (tag other : UInt256) : ℕ → SHAMapNodeID → NodeStack →
    Option (NodeStack × SHAMapNodeID)
  | 0, _, _ => none
  | n + 1, nodeID, stack =>
    if selectBranch nodeID tag = selectBranch nodeID other then do
      let child ← nodeID.getChildNodeID (selectBranch nodeID tag)
      splitLoop tag other n child ((newInner, nodeID) :: stack)
    else some (stack, nodeID)

/-- The two leaves that keys part at. -/
def twoLeaves (type : SHAMapNodeType) (item other : SHAMapItem) (nodeID : SHAMapNodeID) :
    SHAMapTreeNode :=
  setChild (selectBranch nodeID other.key) (.leaf ⟨type, other⟩)
    (setChild (selectBranch nodeID item.key) (.leaf ⟨type, item⟩) newInner)

/-- Add an item where the walk towards its key has ended. -/
def addAt (type : SHAMapNodeType) (item : SHAMapItem) (root : SHAMapTreeNode) :
    NodeStack → Option (Bool × SHAMapTreeNode)
  | [] => none
  | (.leaf l, nodeID) :: stack =>
    if l.item.key = item.key then some (false, root)
    else do
      let (stack, nodeID) ← splitLoop item.key l.item.key (kLeafDepth + 1) nodeID stack
      return (true, dirtyUp item.key stack (twoLeaves type item l.item nodeID))
  | (node, nodeID) :: stack =>
    some (true,
      dirtyUp item.key stack (setChild (selectBranch nodeID item.key) (.leaf ⟨type, item⟩) node))

def addGiveItem (type : SHAMapNodeType) (item : SHAMapItem) (root : SHAMapTreeNode) :
    Option (Bool × SHAMapTreeNode) := do
  addAt type item root (← walkTowardsKey root item.key)

/-- Replace the item of the leaf the walk has ended at. A leaf that is shared with another map is copied
first, and the copy takes its place only where its hash is another (`setItem`, then `dirtyUp`). -/
def updateAt (sha512Half : Blob → UInt256) (shared : Bool) (type : SHAMapNodeType) (item : SHAMapItem)
    (root : SHAMapTreeNode) : NodeStack → Option (Bool × SHAMapTreeNode)
  | [] => none
  | (.leaf l, _) :: stack =>
    if l.item.key ≠ item.key ∨ l.type ≠ type then some (false, root)
    else
      let leaf : SHAMapLeafNode := ⟨type, item⟩
      if shared ∧ sha512Half leaf.preimage = sha512Half l.preimage then some (true, root)
      else some (true, dirtyUp item.key stack (.leaf leaf))
  | _ => some (false, root)

def updateGiveItem (sha512Half : Blob → UInt256) (shared : Bool) (type : SHAMapNodeType)
    (item : SHAMapItem) (root : SHAMapTreeNode) : Option (Bool × SHAMapTreeNode) := do
  updateAt sha512Half shared type item root (← walkTowardsKey root item.key)

/-! ### Removing -/

/-- The one item below a node. -/
def onlyBelow : SHAMapTreeNode → Option SHAMapItem
  | .leaf l => some l.item
  | .inner c =>
    match branches c with
    | [i] => onlyBelow (c i)
    | _ => none
  | .empty => none

/-- What takes the place of an inner node that has lost a child: nothing, the one item left below it,
or the node. -/
def pullUp (type : SHAMapNodeType) : SHAMapTreeNode → SHAMapTreeNode
  | .inner c =>
    match (branches c).length with
    | 0 => .empty
    | 1 =>
      match onlyBelow (.inner c) with
      | some item => .leaf ⟨type, item⟩
      | none => .inner c
    | _ => .inner c
  | node => node

def delLoop (type : SHAMapNodeType) (id : UInt256) : NodeStack → SHAMapTreeNode → SHAMapTreeNode
  | [], prevNode => prevNode
  | (node, nodeID) :: stack, prevNode =>
    let node := setChild (selectBranch nodeID id) prevNode node
    if nodeID.isRoot then node else delLoop type id stack (pullUp type node)

/-- Remove the leaf the walk has ended at. -/
def delAt (id : UInt256) (root : SHAMapTreeNode) : NodeStack → Option (Bool × SHAMapTreeNode)
  | [] => none
  | (.leaf l, _) :: stack =>
    if l.item.key ≠ id then some (false, root) else some (true, delLoop l.type id stack .empty)
  | _ => some (false, root)

def delItem (id : UInt256) (root : SHAMapTreeNode) : Option (Bool × SHAMapTreeNode) := do
  delAt id root (← walkTowardsKey root id)

end SHAMap

end FalconLedger
