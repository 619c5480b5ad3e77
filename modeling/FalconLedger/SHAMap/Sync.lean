import Mathlib.Data.List.Basic
import Mathlib.Data.Fin.Basic

/-!
# Finding the missing nodes of a map

`SHAMap::getMissingNodes` on a fixed target tree, of which some nodes are available. Nodes are named
by their hashes; a node in memory is one at a position. One step is one branch of `gmnProcessNodes`
or one read of `gmnProcessDeferredReads`. What is not in their hands comes with every step: which
child is first, whether a node is at hand, which read is finished next, and which node is resumed.
-/

namespace FalconLedger.SHAMapSync

variable {H : Type}

/-- What the hash of a node determines: the key of a leaf, as the branches that lead to it, or the
hashes of the children of an inner node. -/
inductive Content (H : Type)
  | leaf (key : List (Fin 16))
  | inner (children : Fin 16 → Option H)

/-- The tree to be acquired. -/
structure Target (H : Type) where
  root : H
  content : H → Content H

namespace Target

variable (T : Target H)

/-- `getChildHash`, `none` for an empty branch. -/
def child (h : H) (branch : Fin 16) : Option H :=
  match T.content h with
  | .leaf _ => none
  | .inner children => children branch

def isInner (h : H) : Bool :=
  match T.content h with
  | .leaf _ => false
  | .inner _ => true

/-- A leaf belongs at a position that its key begins with. -/
def leafFits (h : H) (nodeID : List (Fin 16)) : Bool :=
  match T.content h with
  | .leaf key => key.take nodeID.length == nodeID
  | .inner _ => true

/-- The node at a position, which is given by the branches that lead to it. -/
def nodeAt (nodeID : List (Fin 16)) : Option H :=
  nodeID.foldl (fun node branch => node.bind fun h => T.child h branch) (some T.root)

end Target

/-- A `StackEntry`: an inner node in the course of being processed. -/
structure StackEntry (H : Type) where
  node : H
  nodeID : List (Fin 16)
  firstChild : ℕ
  currentChild : ℕ
  fullBelow : Bool

/-- `(firstChild + currentChild) % 16`. -/
def StackEntry.branch (e : StackEntry H) : Fin 16 :=
  ⟨(e.firstChild + e.currentChild) % 16, Nat.mod_lt _ (Nat.succ_pos 15)⟩

/-- A read that was posted: the node whose child it is for, and the branch. -/
structure DeferredRead (H : Type) where
  parent : H
  parentID : List (Fin 16)
  branch : Fin 16

/-- Where the traversal is. The loops of the source look at a node that is being processed, or wait
for reads, with a node still in progress or with none. -/
inductive Phase (H : Type)
  | idle
  | process (e : StackEntry H)
  | reads (node : Option (StackEntry H))
  | done

/-- `SHAMapState`, as far as it occurs here. -/
inductive SHAMapState
  | modifying
  | synching
  | invalid
  deriving DecidableEq

structure Sync (H : Type) where
  /-- The hashes of the nodes that are available. -/
  store : List H
  /-- The positions of nodes that their parents have pointers to. -/
  hooked : List (List (Fin 16))
  /-- The positions of nodes marked full below, in the present generation. -/
  fullBelowGen : List (List (Fin 16))
  /-- The full-below cache. -/
  cache : List H
  state : SHAMapState
  max : ℤ
  missingNodes : List (List (Fin 16) × H)
  missingHashes : List H
  stack : List (StackEntry H)
  deferred : List (DeferredRead H)
  resumes : List (H × List (Fin 16))
  phase : Phase H

/-- What is not in the hands of the traversal. -/
structure Choice (H : Type) where
  /-- `randInt(255)` for a node. -/
  random : List (Fin 16) → ℕ
  /-- An available node is found in the cache or by the filter, without a read. -/
  atHand : Bool
  /-- A hash in the full-below cache has not been swept from it. -/
  kept : Bool
  /-- The place of the read that is finished next. -/
  finished : ℕ
  /-- The order in which nodes are resumed. -/
  order : List (H × List (Fin 16)) → List (H × List (Fin 16))
  order_perm : ∀ l, (order l).Perm l

/-- Reads per pass. -/
def maxDefer : ℕ := 512

def kLeafDepth : ℕ := 64

variable [DecidableEq H] (T : Target H) (backed : Bool)

namespace Sync

/-- Count a node as missing. -/
def addMissing (s : Sync H) (nodeID : List (Fin 16)) (hash : H) : Sync H :=
  { s with
    missingHashes := hash :: s.missingHashes
    missingNodes := s.missingNodes ++ [(nodeID, hash)]
    max := s.max - 1 }

/-- One turn of the loop in `gmnProcessNodes`, at a branch. -/
def processBranch (c : Choice H) (s : Sync H) (se : StackEntry H) : Sync H :=
  let branch := se.branch
  let e := { se with currentChild := se.currentChild + 1 }
  match T.child e.node branch with
  | none => { s with phase := .process e }
  | some childHash =>
    let childID := e.nodeID ++ [branch]
    if childHash ∈ s.missingHashes then
      -- we already know this child node is missing
      { s with phase := .process { e with fullBelow := false } }
    else if backed ∧ childHash ∈ s.cache ∧ c.kept then { s with phase := .process e }
    else if childID ∈ s.hooked ∨ (childHash ∈ s.store ∧ (c.atHand ∨ !backed)) then
      let s := { s with hooked := childID :: s.hooked }
      if T.isInner childHash ∧ childID ∉ s.fullBelowGen then
        { s with
          stack := e :: s.stack
          phase := .process ⟨childHash, childID, c.random childID, 0, true⟩ }
      else { s with phase := .process e }
    else if backed then
      { s with
        deferred := ⟨e.node, e.nodeID, branch⟩ :: s.deferred
        phase := .process { e with fullBelow := false } }
    else
      let s := s.addMissing childID childHash
      let e := { e with fullBelow := false }
      { s with phase := if s.max ≤ 0 then .reads (some e) else .process e }

/-- The node that was in progress above one that is finished. -/
def resumeParent (parent : StackEntry H) (was : Bool) : StackEntry H :=
  { parent with fullBelow := if parent.currentChild = 0 then true else parent.fullBelow && was }

/-- Mark a node below which nothing is missing. -/
def markFullBelow (s : Sync H) (e : StackEntry H) : Sync H :=
  if e.fullBelow then
    { s with
      fullBelowGen := e.nodeID :: s.fullBelowGen
      cache := if backed then e.node :: s.cache else s.cache }
  else s

/-- Pick up where the parent of a node that is finished was left. -/
def pop (s : Sync H) (was : Bool) : Sync H :=
  match s.stack with
  | [] => { s with phase := .reads none }
  | parent :: stack =>
    let pos := resumeParent parent was
    { s with
      stack
      phase := if s.deferred.length ≤ maxDefer then .process pos else .reads (some pos) }

/-- All branches of a node have been processed. -/
def finishNode (s : Sync H) (e : StackEntry H) : Sync H := (s.markFullBelow backed e).pop e.fullBelow

/-- One turn of the loop in `gmnProcessDeferredReads`. -/
def processRead (s : Sync H) (r : DeferredRead H) : Sync H :=
  match T.child r.parent r.branch with
  | none => s
  | some nodeHash =>
    let nodeID := r.parentID ++ [r.branch]
    if nodeHash ∈ s.store then
      { s with
        hooked := nodeID :: s.hooked
        resumes := (r.parent, r.parentID) :: s.resumes.filter fun x => x.2 ≠ r.parentID }
    else if 0 < s.max ∧ nodeHash ∉ s.missingHashes then s.addMissing nodeID nodeHash
    else s

/-- Recheck the nodes that could not be finished before. -/
def recheck (c : Choice H) (s : Sync H) : Sync H :=
  { s with
    stack := ((c.order s.resumes).filter fun x => decide (x.2 ∉ s.fullBelowGen)).reverse.map
      fun x => ⟨x.1, x.2, c.random x.2, 0, true⟩
    resumes := [] }

/-- Resume at the top of the stack, or stop. -/
def resumeTop (s : Sync H) : Sync H :=
  match s.stack with
  | [] => { s with phase := .done, state := if s.missingNodes.isEmpty then .modifying else s.state }
  | pos :: stack => { s with stack, phase := .process pos }

/-- All reads are finished: go on with the node in progress, or with nodes to be resumed, or stop. -/
def afterReads (c : Choice H) (s : Sync H) (node : Option (StackEntry H)) : Sync H :=
  if s.max ≤ 0 then { s with phase := .done }
  else
    match node with
    | some e => { s with phase := .process e }
    | none => if s.stack = [] then (s.recheck c).resumeTop else s.resumeTop

/-- One step of the traversal. -/
def advance (c : Choice H) (s : Sync H) : Sync H :=
  match s.phase with
  | .idle => s
  | .done => s
  | .process e =>
    if e.currentChild < 16 then s.processBranch T backed c e else s.finishNode backed e
  | .reads node =>
    match s.deferred with
    | [] => s.afterReads c node
    | r :: rest =>
      let i := c.finished % (rest.length + 1)
      processRead T { s with deferred := s.deferred.eraseIdx i } ((s.deferred[i]?).getD r)

/-- `getMissingNodes` is called. -/
def call (c : Choice H) (s : Sync H) (max : ℤ) : Sync H :=
  let s := { s with
    max, missingNodes := [], missingHashes := [], stack := [], deferred := [], resumes := [] }
  if !T.isInner T.root ∨ [] ∈ s.fullBelowGen then { s with state := .modifying, phase := .done }
  else { s with phase := .process ⟨T.root, [], c.random [], 0, true⟩ }

/-- What becomes of a node that was received. -/
inductive AddNode
  | useful
  | duplicate
  | invalid

/-- Hook a node that was received under its parent, which has been found. -/
def hook (s : Sync H) (node : List (Fin 16)) (childHash : H) (childID : List (Fin 16))
    (received : Option H) : AddNode × Sync H :=
  if received ≠ some childHash then (.invalid, s)
  else if !T.leafFits childHash node then (.invalid, s)
  else if kLeafDepth < childID.length ∨ (T.isInner childHash ∧ childID.length = kLeafDepth) then
    (.useful, { s with state := .invalid })
  else if childID ≠ node then (.useful, s)
  else (.useful, { s with store := childHash :: s.store, hooked := childID :: s.hooked })

/-- The descent of `addKnownNode` to the parent of a node, along the branches that are left. -/
def descendTo (c : Choice H) (node : List (Fin 16)) (received : Option H) :
    List (Fin 16) → Sync H → H → List (Fin 16) → AddNode × Sync H
  | [], s, _, _ => (.duplicate, s)
  | branch :: rest, s, h, nodeID =>
    if !T.isInner h ∨ nodeID ∈ s.fullBelowGen then (.duplicate, s)
    else
      match T.child h branch with
      | none => (.invalid, s)
      | some childHash =>
        let childID := nodeID ++ [branch]
        if childHash ∈ s.cache ∧ c.kept then (.duplicate, s)
        else if childID ∈ s.hooked ∨ childHash ∈ s.store then
          descendTo c node received rest { s with hooked := childID :: s.hooked } childHash childID
        else s.hook T node childHash childID received

/-- `addKnownNode`, given the hash of the node that the bytes make, if they make one. -/
def addKnownNode (c : Choice H) (s : Sync H) (node : List (Fin 16)) (received : Option H) :
    AddNode × Sync H :=
  if s.state ≠ .synching then (.duplicate, s)
  else s.descendTo T c node received node T.root []

end Sync

/-- What happens to a map: a traversal is started or makes a step; while there is none, a node is
received, or comes to be available in another way; and another map enters a hash in the full-below
cache. -/
inductive Event (H : Type)
  | call (c : Choice H) (max : ℤ)
  | advance (c : Choice H)
  | addKnownNode (c : Choice H) (node : List (Fin 16)) (received : Option H)
  | obtain (hash : H)
  | cacheInsert (hash : H)

/-- A traversal is under way. -/
def Phase.busy : Phase H → Bool
  | .process _ => true
  | .reads _ => true
  | _ => false

def Sync.step (s : Sync H) : Event H → Sync H
  | .call c max => if s.phase.busy then s else s.call T c max
  | .advance c => s.advance T backed c
  | .addKnownNode c node received =>
    if s.phase.busy then s
    else (Sync.addKnownNode T c { s with phase := .idle } node received).2
  | .obtain hash =>
    if s.phase.busy then s
    else { s with store := hash :: s.store, phase := .idle }
  | .cacheInsert hash => { s with cache := hash :: s.cache }

end FalconLedger.SHAMapSync
