import FalconLedger.Data.Bytes
import FalconLedger.Data.RadixTree
import FalconLedger.Protocol.STTx

/-!
# Nodes of a SHAMap

`SHAMapTreeNode`, `SHAMapInnerNode` and the three kinds of `SHAMapLeafNode` are a radix tree with
sixteen branches; a null child is `empty`. Every node of the maps here is in memory. `SHAMapNodeID` is
the place of a node: a depth, and the digits of the keys below it.

The hash of a leaf is that of its bytes under a prefix for its kind, the hash of an inner node that of
the hashes of its children. `sha512Half` is a parameter.
-/

namespace FalconLedger

/-- `SHAMapItem`. -/
structure SHAMapItem where
  key : UInt256
  data : Blob
  deriving DecidableEq

/-- The `SHAMapNodeType`s of leaves. -/
inductive SHAMapNodeType
  | tnTransactionNm
  | tnTransactionMd
  | tnAccountState
  deriving DecidableEq

structure SHAMapLeafNode where
  type : SHAMapNodeType
  item : SHAMapItem
  deriving DecidableEq

abbrev SHAMapTreeNode := RadixTree 16 SHAMapLeafNode

namespace SHAMap

/-- The key of a leaf's item. -/
def keyOf (leaf : SHAMapLeafNode) : UInt256 := leaf.item.key

/-- `kLEAF_DEPTH`. -/
def kLeafDepth : ℕ := 64

/-- The hexadecimal digit of a key at a depth, from the left. -/
def nibble (depth : ℕ) (key : UInt256) : Fin 16 := Fin.ofNat 16 (key.toNat / 16 ^ (63 - depth))

end SHAMap

open Bytes SHAMap

/-! ### Places -/

structure SHAMapNodeID where
  depth : ℕ := 0
  id : UInt256 := 0
  deriving DecidableEq

namespace SHAMapNodeID

/-- The digits of a key above a depth. -/
def depthMask (depth : ℕ) : UInt256 := BitVec.allOnes 256 <<< (256 - 4 * depth)

def isRoot (nodeID : SHAMapNodeID) : Bool := nodeID.depth = 0

/-- `none` is the exception for the child of a leaf, or for digits below the depth. -/
def getChildNodeID (nodeID : SHAMapNodeID) (m : Fin 16) : Option SHAMapNodeID :=
  if kLeafDepth ≤ nodeID.depth then none
  else if nodeID.id ≠ nodeID.id &&& depthMask nodeID.depth then none
  else some
    { depth := nodeID.depth + 1
      id := nodeID.id ||| (BitVec.ofNat 256 m.val <<< (252 - 4 * nodeID.depth)) }

def createID (depth : ℕ) (key : UInt256) : SHAMapNodeID := ⟨depth, key &&& depthMask depth⟩

end SHAMapNodeID

/-- Only the depth of the place matters. -/
def selectBranch (nodeID : SHAMapNodeID) (hash : UInt256) : Fin 16 := nibble nodeID.depth hash

/-! ### Nodes -/

namespace SHAMapTreeNode

/-- `setChild`; an empty child clears the branch. -/
def setChild (branch : Fin 16) (child : SHAMapTreeNode) : SHAMapTreeNode → SHAMapTreeNode
  | .inner c => .inner (Function.update c branch child)
  | node => node

/-- The branches with a child. -/
def branches (c : Fin 16 → SHAMapTreeNode) : List (Fin 16) :=
  (List.finRange 16).filter fun i => !(c i).isEmpty

/-- A new `SHAMapInnerNode`. -/
def newInner : SHAMapTreeNode := .inner fun _ => .empty

end SHAMapTreeNode

/-! ### Hashes -/

/-- `HashPrefix`, as four bytes. -/
inductive HashPrefix
  | transactionId
  | txNode
  | leafNode
  | innerNode
  deriving DecidableEq

def HashPrefix.bytes : HashPrefix → Blob
  | transactionId => [0x54, 0x58, 0x4E, 0]
  | txNode => [0x53, 0x4E, 0x44, 0]
  | leafNode => [0x4D, 0x4C, 0x4E, 0]
  | innerNode => [0x4D, 0x49, 0x4E, 0]

/-- The 32 bytes of a hash or key. -/
def bitString (x : UInt256) : Blob := toBE 32 x.toNat

/-- What the hash of a leaf is taken of. -/
def SHAMapLeafNode.preimage (leaf : SHAMapLeafNode) : Blob :=
  match leaf.type with
  | .tnTransactionNm => HashPrefix.transactionId.bytes ++ leaf.item.data
  | .tnTransactionMd => HashPrefix.txNode.bytes ++ leaf.item.data ++ bitString leaf.item.key
  | .tnAccountState => HashPrefix.leafNode.bytes ++ leaf.item.data ++ bitString leaf.item.key

/-- What the hash of an inner node is taken of. -/
def innerPreimage (hashes : Fin 16 → UInt256) : Blob :=
  HashPrefix.innerNode.bytes ++ (List.finRange 16).flatMap fun i => bitString (hashes i)

/-- `getHash`. -/
def SHAMapTreeNode.getHash (sha512Half : Blob → UInt256) : SHAMapTreeNode → UInt256
  | .empty => 0
  | .leaf l => sha512Half l.preimage
  | .inner c =>
    if ∀ i, (c i).isEmpty then 0
    else sha512Half (innerPreimage fun i => getHash sha512Half (c i))

end FalconLedger
