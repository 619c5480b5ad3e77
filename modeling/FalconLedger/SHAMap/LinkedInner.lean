import FalconLedger.SHAMap.InnerNode

/-!
# Inner nodes with their children

`SHAMapInnerNode` with the pointers to the children beside the hashes, and the operations that
change a node. Both arrays of `TaggedPointer` go through the same moves, so they are one list of
slots. An array of sixteen slots is dense: a branch has the slot of its number. A smaller one is
sparse: the taken branches in order, then the unused slots.
-/

namespace FalconLedger

namespace ChildArrays

open TaggedPointer (numAllocatedChildren taken)

variable {β : Type}

def isDense (slots : List β) : Bool := slots.length = 16

/-- The place of a branch; a sparse array has none for an empty one. -/
def getChildIndex (isBranch : BitVec 16) (slots : List β) (i : Fin 16) : Option ℕ :=
  if isDense slots then some i.val
  else if isTaken isBranch i then
    some (popcnt16 (isBranch &&& BitVec.ofNat 16 (2 ^ i.val - 1)))
  else none

/-- The branches that are taken and their places. -/
def iterNonEmptyChildIndexes (isBranch : BitVec 16) (slots : List β) : List (Fin 16 × ℕ) :=
  if isDense slots then (taken isBranch).map fun i => (i, i.val) else (taken isBranch).zipIdx

/-- New arrays with every slot unused. -/
def allocate (zero : β) (numChildren : ℕ) : List β :=
  List.replicate (numAllocatedChildren numChildren) zero

/-- The loop that closes the gap a removed slot leaves. -/
def shiftLeft (zero : β) (slots : List β) (index : ℕ) : List β :=
  ((List.range' index (slots.length - 1 - index)).foldl
    (fun slots c => slots.set c (slots.getD (c + 1) zero)) slots).set (slots.length - 1) zero

/-- The loop that makes room for a slot; it runs from the end of the array down. -/
def shiftRight (zero : β) (slots : List β) (index : ℕ) : List β :=
  ((List.range' (index + 1) (slots.length - 1 - index)).foldr
    (fun c slots => slots.set c (slots.getD (c - 1) zero)) slots).set index zero

/-- The walk over the branches when the arrays keep their size. -/
def moveInPlace (zero : β) (srcBranches dstBranches : BitVec 16) (srcDstIsDense : Bool) :
    List (Fin 16) → ℕ → List β → List β
  | [], _, slots => slots
  | i :: rest, srcDstIndex, slots =>
    let next := moveInPlace zero srcBranches dstBranches srcDstIsDense rest
    match isTaken srcBranches i, isTaken dstBranches i with
    | true, true => next (srcDstIndex + 1) slots
    | true, false =>
      if srcDstIsDense then next (srcDstIndex + 1) (slots.set srcDstIndex zero)
      -- the next slot has moved to this index
      else next srcDstIndex (shiftLeft zero slots srcDstIndex)
    | false, true =>
      if srcDstIsDense then next (srcDstIndex + 1) slots
      else next (srcDstIndex + 1) (shiftRight zero slots srcDstIndex)
    | false, false => next (if srcDstIsDense then srcDstIndex + 1 else srcDstIndex) slots

/-- The walk over the branches when the arrays change their size: the slots that are written to the
new arrays, in order. -/
def moveAcross (zero : β) (srcBranches dstBranches : BitVec 16) (srcIsDense dstIsDense : Bool)
    (src : List β) : List (Fin 16) → ℕ → List β
  | [], _ => []
  | i :: rest, srcIndex =>
    let next := moveAcross zero srcBranches dstBranches srcIsDense dstIsDense src rest
    match isTaken srcBranches i, isTaken dstBranches i with
    | true, true => src.getD srcIndex zero :: next (srcIndex + 1)
    | true, false => if dstIsDense then zero :: next (srcIndex + 1) else next (srcIndex + 1)
    | false, true => zero :: next (if srcIsDense then srcIndex + 1 else srcIndex)
    | false, false =>
      let srcIndex := if srcIsDense then srcIndex + 1 else srcIndex
      if dstIsDense then zero :: next srcIndex else next srcIndex

/-- The constructor that moves the slots of the source branches to arrays for the destination
branches. -/
def move (zero : β) (other : List β) (srcBranches dstBranches : BitVec 16) (toAllocate : ℕ) :
    List β :=
  let numAllocated := numAllocatedChildren toAllocate
  if other.length = numAllocated then
    moveInPlace zero srcBranches dstBranches (isDense other) (List.finRange 16) 0 other
  else
    let dst := moveAcross zero srcBranches dstBranches (isDense other) (decide (numAllocated = 16))
      other (List.finRange 16) 0
    dst ++ List.replicate (numAllocated - dst.length) zero

/-- The constructor that moves the slots to arrays of another size. -/
def resize (zero : β) (isBranch : BitVec 16) (other : List β) (toAllocate : ℕ) : List β :=
  let numAllocated := numAllocatedChildren toAllocate
  if numAllocated = other.length then other
  else
    let indexes := iterNonEmptyChildIndexes isBranch other
    if numAllocated = 16 then
      (List.finRange 16).map fun i =>
        ((indexes.find? fun p => p.1 = i).map fun p => other.getD p.2 zero).getD zero
    else
      indexes.map (fun p => other.getD p.2 zero) ++
        List.replicate (numAllocated - indexes.length) zero

end ChildArrays

/-- The hash of a child and the child itself, where it is in memory. -/
structure ChildSlot (α : Type) where
  hash : UInt256
  child : Option α

/-- A slot that is not used. -/
def ChildSlot.unused {α : Type} : ChildSlot α := ⟨0, none⟩

/-- An inner node over children of type `α`. -/
structure LinkedInnerNode (α : Type) where
  isBranch : BitVec 16
  slots : List (ChildSlot α)
  hash : UInt256
  cowid : UInt32
  fullBelowGen : UInt32

namespace LinkedInnerNode

open ChildArrays

variable {α : Type}

/-- A new node without branches. -/
def make (cowid : UInt32) (numAllocatedChildren : ℕ) : LinkedInnerNode α :=
  ⟨0, allocate .unused numAllocatedChildren, 0, cowid, 0⟩

/-- A node that was read has the hashes of its children and no child. -/
def ofRead (node : SHAMapInnerNode) : LinkedInnerNode α :=
  ⟨node.isBranch, node.hashes.map fun hash => ⟨hash, none⟩, node.hash, 0, 0⟩

def getBranchCount (node : LinkedInnerNode α) : ℕ := popcnt16 node.isBranch

def capacity (node : LinkedInnerNode α) : ℕ := node.slots.length

def isEmptyBranch (node : LinkedInnerNode α) (m : Fin 16) : Bool := !isTaken node.isBranch m

def getChildHash (node : LinkedInnerNode α) (m : Fin 16) : UInt256 :=
  match getChildIndex node.isBranch node.slots m with
  | some i => (node.slots.getD i .unused).hash
  | none => 0

/-- The child of a branch. The source calls this for taken branches only, where there is an
index. -/
def getChild (node : LinkedInnerNode α) (branch : Fin 16) : Option α :=
  (getChildIndex node.isBranch node.slots branch).bind fun i => (node.slots.getD i .unused).child

def resizeChildArrays (node : LinkedInnerNode α) (toAllocate : ℕ) : LinkedInnerNode α :=
  { node with slots := resize .unused node.isBranch node.slots toAllocate }

def setChild (node : LinkedInnerNode α) (m : Fin 16) (child : Option α) : LinkedInnerNode α :=
  let dstIsBranch :=
    if child.isSome then node.isBranch ||| BitVec.twoPow 16 m.val
    else node.isBranch &&& ~~~BitVec.twoPow 16 m.val
  let slots := move .unused node.slots node.isBranch dstIsBranch (popcnt16 dstIsBranch)
  let slots :=
    match child, getChildIndex dstIsBranch slots m with
    | some child, some childIndex => slots.set childIndex ⟨0, some child⟩
    | _, _ => slots
  { node with isBranch := dstIsBranch, slots := slots, hash := 0 }

/-- The loops of `clone` over the hashes and over the children, which write the same places. -/
def clone (node : LinkedInnerNode α) (cowid : UInt32) : LinkedInnerNode α :=
  let fresh := allocate .unused node.getBranchCount
  let indexes := iterNonEmptyChildIndexes node.isBranch node.slots
  let slots :=
    if isDense node.slots then
      indexes.foldl (fun slots p => slots.set p.1.val (node.slots.getD p.2 .unused)) fresh
    else
      indexes.zipIdx.foldl (fun slots p => slots.set p.2 (node.slots.getD p.1.2 .unused)) fresh
  { node with slots := slots, cowid := cowid }

/-- Write to the slot of a taken branch. -/
def modifySlot (node : LinkedInnerNode α) (m : Fin 16) (f : ChildSlot α → ChildSlot α) :
    LinkedInnerNode α :=
  if node.isEmptyBranch m then node
  else
    match getChildIndex node.isBranch node.slots m with
    | some i => { node with slots := node.slots.set i (f (node.slots.getD i .unused)) }
    | none => node

def shareChild (node : LinkedInnerNode α) (m : Fin 16) (child : α) : LinkedInnerNode α :=
  node.modifySlot m fun slot => { slot with child := some child }

/-- A node that is hooked up already stays. -/
def canonicalizeChild (node : LinkedInnerNode α) (branch : Fin 16) (child : α) :
    LinkedInnerNode α :=
  node.modifySlot branch fun slot => { slot with child := slot.child.or (some child) }

/-- What the loop of `updateHashDeep` does to a slot. -/
def refreshSlot (getHash : α → UInt256) (slot : ChildSlot α) : ChildSlot α :=
  { slot with hash := (slot.child.map getHash).getD slot.hash }

/-- The nodes the program builds: new, read, or made from one of them. `resizeChildArrays` is
private, and is called with the number of branches. -/
inductive Reachable (sha512Half : Blob → UInt256) (getHash : α → UInt256) :
    LinkedInnerNode α → Prop
  | make (cowid : UInt32) : Reachable sha512Half getHash (make cowid 2)
  | fromWire {rawNode : Blob} {node : SHAMapInnerNode}
      (h : SHAMapInnerNode.makeFromWire sha512Half rawNode = some node) :
      Reachable sha512Half getHash (ofRead node)
  | fromPrefix {rawNode : Blob} {hash : UInt256} {node : SHAMapInnerNode}
      (h : SHAMapInnerNode.makeFromPrefix sha512Half rawNode hash = some node) :
      Reachable sha512Half getHash (ofRead node)
  | setChild {node : LinkedInnerNode α} (h : Reachable sha512Half getHash node) (m : Fin 16)
      (child : Option α) : Reachable sha512Half getHash (node.setChild m child)
  | clone {node : LinkedInnerNode α} (h : Reachable sha512Half getHash node) (cowid : UInt32) :
      Reachable sha512Half getHash (node.clone cowid)
  | resizeChildArrays {node : LinkedInnerNode α} (h : Reachable sha512Half getHash node) :
      Reachable sha512Half getHash (node.resizeChildArrays node.getBranchCount)
  | shareChild {node : LinkedInnerNode α} (h : Reachable sha512Half getHash node) (m : Fin 16)
      (child : α) : Reachable sha512Half getHash (node.shareChild m child)
  | canonicalizeChild {node : LinkedInnerNode α} (h : Reachable sha512Half getHash node)
      (branch : Fin 16) (child : α) :
      Reachable sha512Half getHash (node.canonicalizeChild branch child)
  | refresh {node : LinkedInnerNode α} (h : Reachable sha512Half getHash node) (branch : Fin 16) :
      Reachable sha512Half getHash (node.modifySlot branch (refreshSlot getHash))
  | setHash {node : LinkedInnerNode α} (h : Reachable sha512Half getHash node) (hash : UInt256) :
      Reachable sha512Half getHash { node with hash := hash }

end LinkedInnerNode

end FalconLedger
