import FalconLedger.Data.Table

/-!
# Disputed transactions

Transaction sets as `Consensus` knows them, and `DisputedTx`: the votes of the peers on one
transaction, their counts, and how our own vote follows them.
-/

namespace FalconLedger.Consensus

/-- The types `Consensus` is instantiated with, and what its interface says of transaction sets. -/
structure Traits where
  NodeID : Type
  LedgerID : Type
  Tx : Type
  TxID : Type
  TxSet : Type
  SetID : Type
  [decidableNodeID : DecidableEq NodeID]
  [decidableLedgerID : DecidableEq LedgerID]
  [decidableTxID : DecidableEq TxID]
  [decidableSetID : DecidableEq SetID]
  txId : Tx → TxID
  «exists» : TxSet → TxID → Bool
  find : TxSet → TxID → Option Tx
  setId : TxSet → SetID
  /-- The transactions that are not common to two sets, and whether they are in the first. -/
  compare : TxSet → TxSet → List (TxID × Bool)
  insert : TxSet → Tx → TxSet
  erase : TxSet → TxID → TxSet
  isSome_find : ∀ s t, (find s t).isSome = «exists» s t
  txId_of_find : ∀ s t tx, find s t = some tx → txId tx = t
  /-- The identifier of a set is unique. -/
  exists_of_setId : ∀ s s', setId s = setId s' → ∀ t, «exists» s t = «exists» s' t
  mem_compare : ∀ s s' t b, (t, b) ∈ compare s s' ↔ «exists» s t = b ∧ «exists» s' t = !b
  exists_insert : ∀ s tx t, «exists» (insert s tx) t = true ↔ t = txId tx ∨ «exists» s t = true
  exists_erase : ∀ s t' t, «exists» (erase s t') t = true ↔ t ≠ t' ∧ «exists» s t = true

namespace Traits

variable (T : Traits)

instance : DecidableEq T.NodeID := T.decidableNodeID
instance : DecidableEq T.LedgerID := T.decidableLedgerID
instance : DecidableEq T.TxID := T.decidableTxID
instance : DecidableEq T.SetID := T.decidableSetID

end Traits

/-! ### Avalanches -/

inductive AvalancheState
  | Init
  | Mid
  | Late
  | Stuck
  deriving DecidableEq

structure AvalancheCutoff where
  consensusTime : ℤ
  consensusPct : ℕ
  next : AvalancheState

def avalancheCutoffs : AvalancheState → AvalancheCutoff
  | .Init => ⟨0, 50, .Mid⟩
  | .Mid => ⟨50, 65, .Late⟩
  | .Late => ⟨85, 70, .Stuck⟩
  | .Stuck => ⟨200, 95, .Stuck⟩

/-- `avMIN_ROUNDS`. -/
def avMinRounds : ℕ := 2

def getNeededWeight (currentState : AvalancheState) (percentTime : ℤ)
    (currentRounds minimumRounds : ℕ) : ℕ × Option AvalancheState :=
  let currentCutoff := avalancheCutoffs currentState
  let nextCutoff := avalancheCutoffs currentCutoff.next
  if currentCutoff.next ≠ currentState ∧ minimumRounds ≤ currentRounds ∧
      nextCutoff.consensusTime ≤ percentTime then
    (nextCutoff.consensusPct, some currentCutoff.next)
  else (currentCutoff.consensusPct, none)

/-! ### One transaction -/

structure DisputedTx (T : Traits) where
  yays : ℤ := 0
  nays : ℤ := 0
  ourVote : Bool
  tx : T.Tx
  votes : Table T.NodeID Bool := ∅
  currentVoteCounter : ℕ := 0
  avalancheState : AvalancheState := .Init
  avalancheCounter : ℕ := 0

namespace DisputedTx

variable {T : Traits}

/-- Track a peer's vote. -/
def setVote (d : DisputedTx T) (peer : T.NodeID) (votesYes : Bool) : DisputedTx T :=
  match d.votes.lookup peer with
  | none =>
    if votesYes then { d with votes := d.votes.insert peer true, yays := d.yays + 1 }
    else { d with votes := d.votes.insert peer false, nays := d.nays + 1 }
  | some vote =>
    -- changes vote to yes
    if votesYes && !vote then
      { d with votes := d.votes.insert peer true, nays := d.nays - 1, yays := d.yays + 1 }
    -- changes vote to no
    else if !votesYes && vote then
      { d with votes := d.votes.insert peer false, nays := d.nays + 1, yays := d.yays - 1 }
    else d

/-- Remove a peer's vote. -/
def unVote (d : DisputedTx T) (peer : T.NodeID) : DisputedTx T :=
  match d.votes.lookup peer with
  | none => d
  | some vote =>
    if vote then { d with votes := d.votes.erase peer, yays := d.yays - 1 }
    else { d with votes := d.votes.erase peer, nays := d.nays - 1 }

/-- Update our vote as consensus proceeds; whether it changed. -/
def updateVote (d : DisputedTx T) (percentTime : ℤ) (proposing : Bool) :
    DisputedTx T × Bool :=
  if d.ourVote ∧ d.nays = 0 then (d, false)
  else if ¬d.ourVote ∧ d.yays = 0 then (d, false)
  else
    let needed :=
      getNeededWeight d.avalancheState percentTime (d.avalancheCounter + 1) avMinRounds
    let d' : DisputedTx T :=
      match needed.2 with
      | some newState => { d with avalancheState := newState, avalancheCounter := 0 }
      | none => { d with avalancheCounter := d.avalancheCounter + 1 }
    let newPosition : Bool :=
      -- when proposing we count ourselves; otherwise just recognize consensus
      if proposing then
        decide ((needed.1 : ℤ) <
          (d.yays * 100 + (if d.ourVote then 100 else 0)).tdiv (d.nays + d.yays + 1))
      else decide (d.nays < d.yays)
    if newPosition = d.ourVote then
      ({ d' with currentVoteCounter := d'.currentVoteCounter + 1 }, false)
    else ({ d' with currentVoteCounter := 0, ourVote := newPosition }, true)

end DisputedTx

end FalconLedger.Consensus
