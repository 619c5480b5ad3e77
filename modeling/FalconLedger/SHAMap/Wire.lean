import FalconLedger.SHAMap.Operations
import Mathlib.Data.Fintype.Pi

/-!
# Nodes on the wire, and proof paths

`serializeForWire` and `makeFromWire` for the three kinds of leaves and the two encodings of an inner
node, and the proof that a map contains a key: the nodes on the way to it, from the leaf to the root. A
node that was read off the wire has the hashes of its children and not the children.
-/

namespace FalconLedger

open Bytes SHAMap SHAMapTreeNode

/-! ### Writing -/

/-- `kWIRE_TYPE_*`. -/
inductive WireType
  | transaction
  | accountState
  | inner
  | compressedInner
  | transactionWithMeta
  deriving DecidableEq

def WireType.byte : WireType → UInt8
  | transaction => 0
  | accountState => 1
  | inner => 2
  | compressedInner => 3
  | transactionWithMeta => 4

def WireType.ofByte? (b : UInt8) : Option WireType :=
  if b = 0 then some transaction
  else if b = 1 then some accountState
  else if b = 2 then some inner
  else if b = 3 then some compressedInner
  else if b = 4 then some transactionWithMeta
  else none

def SHAMapLeafNode.serializeForWire (leaf : SHAMapLeafNode) : Blob :=
  match leaf.type with
  | .tnTransactionNm => leaf.item.data ++ [WireType.transaction.byte]
  | .tnTransactionMd => leaf.item.data ++ bitString leaf.item.key ++ [WireType.transactionWithMeta.byte]
  | .tnAccountState => leaf.item.data ++ bitString leaf.item.key ++ [WireType.accountState.byte]

/-- Branches with a child and their hashes, or all hashes where there are twelve children or more. -/
def innerForWire (taken : List (Fin 16)) (hashes : Fin 16 → UInt256) : Blob :=
  if taken.length < 12 then
    (taken.map fun i => bitString (hashes i) ++ [UInt8.ofNat i.val]).flatten ++
      [WireType.compressedInner.byte]
  else ((List.finRange 16).map fun i => bitString (hashes i)).flatten ++ [WireType.inner.byte]

def SHAMapTreeNode.serializeForWire (sha512Half : Blob → UInt256) : SHAMapTreeNode → Blob
  | .empty => []
  | .leaf l => l.serializeForWire
  | .inner c => innerForWire (branches c) fun i => getHash sha512Half (c i)

/-! ### Reading -/

/-- A node as it was read: a leaf, or the hashes of the children and whether any branch is taken. -/
inductive WireNode
  | leaf (l : SHAMapLeafNode)
  | inner (hashes : Fin 16 → UInt256) (taken : Bool)

/-- The hash that 32 bytes are. -/
def ofBitString (bytes : Blob) : UInt256 := BitVec.ofNat 256 (ofBE bytes)

/-- The data of an item with its key in the last 32 bytes. -/
def splitTag (data : Blob) : Option (Blob × UInt256) :=
  if data.length < 32 then none
  else some (data.take (data.length - 32), ofBitString (data.drop (data.length - 32)))

def makeTransaction (sha512Half : Blob → UInt256) (data : Blob) : WireNode :=
  .leaf ⟨.tnTransactionNm, sha512Half (HashPrefix.transactionId.bytes ++ data), data⟩

def makeTransactionWithMeta (data : Blob) : Option WireNode := do
  let (data, tag) ← splitTag data
  return .leaf ⟨.tnTransactionMd, tag, data⟩

def makeAccountState (data : Blob) : Option WireNode := do
  let (data, tag) ← splitTag data
  if tag = 0 then none else some (.leaf ⟨.tnAccountState, tag, data⟩)

def makeFullInner (data : Blob) : Option WireNode :=
  if data.length ≠ 512 then none
  else
    let hashes : Fin 16 → UInt256 := fun i => ofBitString ((data.drop (32 * i.val)).take 32)
    some (.inner hashes (decide (∃ i, hashes i ≠ 0)))

/-- One hash and its position. A branch once taken stays so, whatever hash comes after. -/
def addChunk (node : (Fin 16 → UInt256) × Bool) (chunk : Blob) : Option ((Fin 16 → UInt256) × Bool) :=
  let hash := ofBitString (chunk.take 32)
  let pos := ofBE (chunk.drop 32)
  if h : pos < 16 then some (Function.update node.1 ⟨pos, h⟩ hash, node.2 || hash ≠ 0) else none

def makeCompressedInner (data : Blob) : Option WireNode :=
  if data.length % 33 ≠ 0 ∨ 33 * 16 < data.length then none
  else do
    let (hashes, taken) ← (blocks 33 data).foldlM addChunk (fun _ => 0, false)
    return .inner hashes taken

/-- The node of a type. -/
def makeTyped (sha512Half : Blob → UInt256) (data : Blob) : WireType → Option WireNode
  | .transaction => some (makeTransaction sha512Half data)
  | .accountState => makeAccountState data
  | .inner => makeFullInner data
  | .compressedInner => makeCompressedInner data
  | .transactionWithMeta => makeTransactionWithMeta data

/-- The last byte is the type. `none` is an exception, or no node. -/
def makeFromWire (sha512Half : Blob → UInt256) (rawNode : Blob) : Option WireNode := do
  let type ← WireType.ofByte? (← rawNode.getLast?)
  makeTyped sha512Half rawNode.dropLast type

/-- What the hash of the node is taken of, if its hash is not zero. -/
def WireNode.preimage? : WireNode → Option Blob
  | leaf l => some l.preimage
  | inner hashes taken => if taken then some (innerPreimage hashes) else none

/-- `updateHash`, then `getHash`. -/
def WireNode.getHash (sha512Half : Blob → UInt256) (node : WireNode) : UInt256 :=
  (node.preimage?.map sha512Half).getD 0

/-! ### Proof paths -/

namespace SHAMap

/-- The nodes on the way to a key, from the leaf to the root, if the key is there. -/
def getProofPath (sha512Half : Blob → UInt256) (root : SHAMapTreeNode) (key : UInt256) :
    Option (Option (List Blob)) := do
  let stack ← walkTowardsKey root key
  if (leafAt key stack).isNone then return none
  return some (stack.map fun entry => SHAMapTreeNode.serializeForWire sha512Half entry.1)

/-- From a depth on, where a node with this hash has to come; the blobs from the root to the leaf. -/
def verifyFrom (sha512Half : Blob → UInt256) (key : UInt256) : ℕ → UInt256 → List Blob → Bool
  | _, _, [] => false
  | depth, hash, blob :: rest =>
    match makeFromWire sha512Half blob with
    | none => false
    | some node =>
      if node.getHash sha512Half ≠ hash then false
      else
        match node with
        | .inner hashes _ =>
          verifyFrom sha512Half key (depth + 1)
            (hashes (selectBranch (SHAMapNodeID.createID depth key) key)) rest
        | .leaf _ => rest.isEmpty

def verifyProofPath (sha512Half : Blob → UInt256) (rootHash key : UInt256) (path : List Blob) : Bool :=
  if path.isEmpty ∨ 65 < path.length then false else verifyFrom sha512Half key 0 rootHash path.reverse

end SHAMap

end FalconLedger
