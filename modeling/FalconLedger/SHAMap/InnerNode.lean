import FalconLedger.SHAMap.Wire

/-!
# The arrays of an inner node

`SHAMapInnerNode` and `TaggedPointer`: a bit for each of the sixteen branches, and the hashes of the
children in an array that has a place for every branch (dense) or for the taken ones only, in order
(sparse). The pointers to the children stand beside the hashes and are left out. `SHAMapTreeNode`
and `WireNode` are what is left of it where the bits and the arrays do not matter.
-/

namespace FalconLedger

open Bytes

/-! ### `TaggedPointer` -/

/-- The bit of a branch. -/
def isTaken (isBranch : BitVec 16) (i : Fin 16) : Bool := isBranch.getLsbD i.val

/-- `popcnt16`. -/
def popcnt16 (bits : BitVec 16) : ℕ := (List.finRange 16).countP fun i => isTaken bits i

namespace TaggedPointer

/-- `kBOUNDARIES`. -/
def kBoundaries : List ℕ := [2, 4, 6, 16]

/-- The first boundary that is large enough. -/
def numAllocatedChildren (n : ℕ) : ℕ := (kBoundaries.find? fun boundary => n ≤ boundary).getD 16

def isDense (hashes : List UInt256) : Bool := hashes.length = 16

/-- The branches that are taken. -/
def taken (isBranch : BitVec 16) : List (Fin 16) :=
  (List.finRange 16).filter fun i => isTaken isBranch i

/-- The loop over a sparse array, from a branch and its place on. -/
def iterSparse (isBranch : BitVec 16) (hashes : List UInt256) : List (Fin 16) → ℕ → List UInt256
  | [], _ => []
  | i :: rest, curHashI =>
    if isTaken isBranch i then
      hashes.getD curHashI 0 :: iterSparse isBranch hashes rest (curHashI + 1)
    else 0 :: iterSparse isBranch hashes rest curHashI

/-- The hashes of all sixteen branches. -/
def iterChildren (isBranch : BitVec 16) (hashes : List UInt256) : List UInt256 :=
  if isDense hashes then hashes else iterSparse isBranch hashes (List.finRange 16) 0

/-- The branches that are taken and their places. -/
def iterNonEmptyChildIndexes (isBranch : BitVec 16) (hashes : List UInt256) : List (Fin 16 × ℕ) :=
  if isDense hashes then (taken isBranch).map fun i => (i, i.val) else (taken isBranch).zipIdx

/-- The place of a branch: the number of taken branches before it, in a sparse array. -/
def getChildIndex (isBranch : BitVec 16) (hashes : List UInt256) (i : Fin 16) : Option ℕ :=
  if isDense hashes then some i.val
  else if isTaken isBranch i then
    some (popcnt16 (isBranch &&& BitVec.ofNat 16 (2 ^ i.val - 1)))
  else none

/-- The constructor that moves the hashes into arrays of another size. -/
def resize (isBranch : BitVec 16) (hashes : List UInt256) (toAllocate : ℕ) : List UInt256 :=
  let numAllocated := numAllocatedChildren toAllocate
  if numAllocated = hashes.length then hashes
  else
    let indexes := iterNonEmptyChildIndexes isBranch hashes
    if numAllocated = 16 then
      (List.finRange 16).map fun i =>
        ((indexes.find? fun p => p.1 = i).map fun p => hashes.getD p.2 0).getD 0
    else
      indexes.map (fun p => hashes.getD p.2 0) ++ List.replicate (numAllocated - indexes.length) 0

end TaggedPointer

/-! ### `SHAMapInnerNode` -/

structure SHAMapInnerNode where
  isBranch : BitVec 16
  hashes : List UInt256
  hash : UInt256
  deriving DecidableEq

namespace SHAMapInnerNode

def getBranchCount (node : SHAMapInnerNode) : ℕ := popcnt16 node.isBranch

def isEmpty (node : SHAMapInnerNode) : Bool := node.isBranch = 0

def getChildHash (node : SHAMapInnerNode) (m : Fin 16) : UInt256 :=
  match TaggedPointer.getChildIndex node.isBranch node.hashes m with
  | some i => node.hashes.getD i 0
  | none => 0

def resizeChildArrays (node : SHAMapInnerNode) (toAllocate : ℕ) : SHAMapInnerNode :=
  { node with hashes := TaggedPointer.resize node.isBranch node.hashes toAllocate }

/-- What `updateHash` computes. -/
def freshHash (sha512Half : Blob → UInt256) (node : SHAMapInnerNode) : UInt256 :=
  if node.isBranch = 0 then 0
  else sha512Half (HashPrefix.innerNode.bytes ++
    (TaggedPointer.iterChildren node.isBranch node.hashes).flatMap bitString)

def updateHash (sha512Half : Blob → UInt256) (node : SHAMapInnerNode) : SHAMapInnerNode :=
  { node with hash := node.freshHash sha512Half }

def serializeForWire (node : SHAMapInnerNode) : Blob :=
  if node.getBranchCount < 12 then
    (TaggedPointer.iterNonEmptyChildIndexes node.isBranch node.hashes).flatMap
        (fun p => bitString (node.hashes.getD p.2 0) ++ [UInt8.ofNat p.1.val]) ++
      [WireType.compressedInner.byte]
  else
    (TaggedPointer.iterChildren node.isBranch node.hashes).flatMap bitString ++
      [WireType.inner.byte]

def serializeWithPrefix (node : SHAMapInnerNode) : Blob :=
  HashPrefix.innerNode.bytes ++
    (TaggedPointer.iterChildren node.isBranch node.hashes).flatMap bitString

/-- The bits and the sixteen hashes while they are read. -/
structure Filling where
  hashes : Fin 16 → UInt256
  isBranch : BitVec 16

namespace Filling

/-- A hash for a branch; only one that is not zero sets the bit. -/
def put (node : Filling) (i : Fin 16) (hash : UInt256) : Filling where
  hashes := Function.update node.hashes i hash
  isBranch := if hash ≠ 0 then node.isBranch ||| BitVec.twoPow 16 i.val else node.isBranch

/-- The node, with no more room than it needs. -/
def finish (node : Filling) : SHAMapInnerNode :=
  resizeChildArrays ⟨node.isBranch, (List.finRange 16).map node.hashes, 0⟩ (popcnt16 node.isBranch)

end Filling

def emptyFilling : Filling := ⟨fun _ => 0, 0⟩

/-- A hash that is known is not computed again. -/
def makeFullInner (sha512Half : Blob → UInt256) (data : Blob) (hash : Option UInt256) :
    Option SHAMapInnerNode :=
  if data.length ≠ 512 then none
  else
    let node := ((List.finRange 16).foldl (fun (node : Filling) i =>
      node.put i (ofBitString ((data.drop (32 * i.val)).take 32))) emptyFilling).finish
    match hash with
    | some hash => some { node with hash }
    | none => some (node.updateHash sha512Half)

/-- The hash and the position of a chunk. -/
def chunkHash (chunk : Blob) : UInt256 := ofBitString (chunk.take 32)

def chunkPos (chunk : Blob) : ℕ := ofBE (chunk.drop 32)

def readChunk (node : Filling) (chunk : Blob) : Option Filling :=
  if h : chunkPos chunk < 16 then some (node.put ⟨chunkPos chunk, h⟩ (chunkHash chunk)) else none

def makeCompressedInner (sha512Half : Blob → UInt256) (data : Blob) : Option SHAMapInnerNode :=
  if data.length % 33 ≠ 0 ∨ 33 * 16 < data.length then none
  else
    ((blocks 33 data).foldlM readChunk emptyFilling).map fun node =>
      node.finish.updateHash sha512Half

/-- `SHAMapTreeNode::makeFromWire`, where it gives an inner node. -/
def makeFromWire (sha512Half : Blob → UInt256) (rawNode : Blob) : Option SHAMapInnerNode :=
  match rawNode.getLast?.bind WireType.ofByte? with
  | some .inner => makeFullInner sha512Half rawNode.dropLast none
  | some .compressedInner => makeCompressedInner sha512Half rawNode.dropLast
  | _ => none

/-- `SHAMapTreeNode::makeFromPrefix`, where it gives an inner node. -/
def makeFromPrefix (sha512Half : Blob → UInt256) (rawNode : Blob) (hash : UInt256) :
    Option SHAMapInnerNode :=
  if rawNode.take 4 = HashPrefix.innerNode.bytes then
    makeFullInner sha512Half (rawNode.drop 4) (some hash)
  else none

end SHAMapInnerNode

end FalconLedger
