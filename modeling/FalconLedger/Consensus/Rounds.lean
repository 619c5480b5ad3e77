import FalconLedger.Consensus.DisputedTx

/-!
# Rounds of consensus

The generic `Consensus`: proposals of peers, transaction sets as they arrive, the timer that closes the
ledger, updates our position and accepts it, and the change to another prior ledger. Calls come one at a
time, in any order. What the adaptor answers, and what the clock decides, is part of the call.
-/

namespace FalconLedger.Consensus

inductive ConsensusMode
  | Proposing
  | Observing
  | WrongLedger
  | SwitchedLedger
  deriving DecidableEq

inductive ConsensusPhase
  | Open
  | Establish
  | Accepted
  deriving DecidableEq

/-- `ConsensusProposal`. -/
structure Proposal (T : Traits) where
  prevLedger : T.LedgerID
  position : T.SetID
  proposeSeq : ℕ
  time : ℤ
  nodeID : T.NodeID

/-- The positions of the peers. -/
abbrev Positions (T : Traits) := Table T.NodeID (Proposal T)

/-- `kSEQ_LEAVE`. -/
def seqLeave : ℕ := 2 ^ 32 - 1

def Proposal.isBowOut {T : Traits} (p : Proposal T) : Bool := p.proposeSeq = seqLeave

def Proposal.isStale {T : Traits} (p : Proposal T) (cutoff : ℤ) : Bool := p.time ≤ cutoff

/-- `proposeFRESHNESS`, in seconds. -/
def proposeFreshness : ℤ := 20

/-- How many recent positions of a peer are kept. -/
def recentPositions : ℕ := 10

section

variable (T : Traits)

/-- `ConsensusResult`: our set, the disputes, and the sets that have been compared with ours. -/
structure Result where
  txns : T.TxSet
  disputes : Table T.TxID (DisputedTx T) := ∅
  compares : T.SetID → Bool := fun _ => false

/-- The state of `Consensus`. -/
structure State where
  phase : ConsensusPhase := .Accepted
  mode : ConsensusMode := .Observing
  now : ℤ := 0
  prevLedgerID : T.LedgerID
  previousLedger : T.LedgerID
  result : Option (Result T) := none
  currPeerPositions : Positions T := ∅
  recentPeerPositions : Table T.NodeID (List (Proposal T)) := ∅
  acquired : Table T.SetID T.TxSet := ∅
  deadNodes : T.NodeID → Bool := fun _ => false
  convergePercent : ℤ := 0
  prevProposers : ℕ := 0

/-- The adaptor's answer when the set of a proposal is asked for: that set, if it is there. -/
structure Adaptor where
  acquireTxSet : Proposal T → Option T.TxSet
  id_acquireTxSet : ∀ p s, acquireTxSet p = some s → T.setId s = p.position

/-- What one call of the timer is told, and what it decides by the clock. -/
structure Tick extends Adaptor T where
  now : ℤ
  /-- `getPrevLedger`, and whether `acquireLedger` has the ledger asked for. -/
  netLgr : T.LedgerID
  haveLedger : Bool
  /-- Whether the open ledger is to be closed, and what `onClose` returns for it. -/
  shouldClose : Bool
  onClose : T.TxSet
  convergePercent : ℤ
  /-- `ledgerMIN_CONSENSUS` has passed. -/
  settled : Bool
  /-- The close time changed, or our own position is stale. -/
  refresh : Bool
  paused : Bool
  consensus : Bool
  expired : Bool
  haveCloseTimeConsensus : Bool

end

variable {T : Traits}


/-! ### Disputes -/

/-- The votes of the peers whose sets are there, on one transaction. -/
def setVotes (positions : Positions T) (acquired : Table T.SetID T.TxSet)
    (txID : T.TxID) (dtx : DisputedTx T) : DisputedTx T :=
  positions.entries.foldl
    (fun dtx e =>
      match acquired.lookup e.2.position with
      | some set => dtx.setVote e.1 (T.exists set txID)
      | none => dtx)
    dtx

/-- One difference of our set and another. -/
def createDispute (positions : Positions T) (acquired : Table T.SetID T.TxSet)
    (o : T.TxSet) (r : Result T) (difference : T.TxID × Bool) : Result T :=
  match
    if difference.2 then T.find r.txns difference.1 else T.find o difference.1 with
  | none => r
  | some tx =>
    let txID := T.txId tx
    if (r.disputes.lookup txID).isSome then r
    else
      let dtx : DisputedTx T := { tx := tx, ourVote := T.exists r.txns txID }
      { r with disputes := r.disputes.insert txID (setVotes positions acquired txID dtx) }

def createDisputes (positions : Positions T) (acquired : Table T.SetID T.TxSet)
    (r : Result T) (o : T.TxSet) : Result T :=
  -- only create disputes if this is a new set
  if r.compares (T.setId o) then r
  else
    let r := { r with compares := fun id => decide (id = T.setId o) || r.compares id }
    if T.setId r.txns = T.setId o then r
    else (T.compare r.txns o).foldl (createDispute positions acquired o) r

def updateDisputes (positions : Positions T) (acquired : Table T.SetID T.TxSet)
    (r : Result T) (node : T.NodeID) (other : T.TxSet) : Result T :=
  let r :=
    if r.compares (T.setId other) then r else createDisputes positions acquired r other
  { r with
    disputes := r.disputes.mapValues fun _ d =>
      d.setVote node (T.exists other (T.txId d.tx)) }

/-- `updateDisputes` for every peer that proposes a set. -/
def updateDisputesOf (positions : Positions T) (acquired : Table T.SetID T.TxSet)
    (set : T.TxSet) (r : Result T) : Result T :=
  positions.entries.foldl
    (fun r e =>
      if e.2.position = T.setId set then updateDisputes positions acquired r e.1 set else r)
    r

/-- Take back the votes of a peer. -/
def Result.unVote (r : Result T) (peerID : T.NodeID) : Result T :=
  { r with disputes := r.disputes.mapValues fun _ d => d.unVote peerID }

/-! ### Sets and proposals -/

def gotTxSet (c : State T) (now : ℤ) (txSet : T.TxSet) :
    State T :=
  if c.phase = .Accepted then c
  else
    match c.acquired.lookup (T.setId txSet) with
    | some _ => { c with now := now }
    | none =>
      let acquired := c.acquired.insert (T.setId txSet) txSet
      { c with
        now := now
        acquired := acquired
        result := c.result.map (updateDisputesOf c.currPeerPositions acquired txSet) }

def peerProposalInternal (a : Adaptor T) (c : State T)
    (now : ℤ) (newPeerProp : Proposal T) : State T :=
  if c.phase = .Accepted then c
  else
    let c := { c with now := now }
    let peerID := newPeerProp.nodeID
    if newPeerProp.prevLedger ≠ c.prevLedgerID then c
    else if c.deadNodes peerID then c
    else if (c.currPeerPositions.lookup peerID).any
        fun pos => decide (newPeerProp.proposeSeq ≤ pos.proposeSeq) then c
    else if newPeerProp.isBowOut then
      { c with
        result := c.result.map fun r => r.unVote peerID
        currPeerPositions := c.currPeerPositions.erase peerID
        deadNodes := fun n => decide (n = peerID) || c.deadNodes n }
    else
      let c := { c with currPeerPositions := c.currPeerPositions.insert peerID newPeerProp }
      match c.acquired.lookup newPeerProp.position with
      | none =>
        match a.acquireTxSet newPeerProp with
        | some set => gotTxSet c now set
        | none => c
      | some set =>
        { c with
          result := c.result.map fun r =>
            updateDisputes c.currPeerPositions c.acquired r peerID set }

def peerProposal (a : Adaptor T) (c : State T) (now : ℤ)
    (newPeerPos : Proposal T) : State T :=
  let props := (c.recentPeerPositions.lookup newPeerPos.nodeID).getD []
  let props := if recentPositions ≤ props.length then props.drop 1 else props
  peerProposalInternal a
    { c with
      recentPeerPositions := c.recentPeerPositions.insert newPeerPos.nodeID (props ++ [newPeerPos]) }
    now newPeerPos

def playbackProposals (a : Adaptor T) (c : State T) :
    State T :=
  (c.recentPeerPositions.entries.flatMap fun e => e.2).foldl
    (fun c pos =>
      if pos.prevLedger = c.prevLedgerID then peerProposalInternal a c c.now pos else c)
    c

/-! ### Our position -/

def closeLedger (c : State T) (onClose : T.TxSet) : State T :=
  let acquired :=
    if (c.acquired.lookup (T.setId onClose)).isSome then c.acquired
    else c.acquired.insert (T.setId onClose) onClose
  let r : Result T := { txns := onClose }
  { c with
    phase := .Establish
    acquired := acquired
    -- create disputes with any peer positions we have transactions for
    result := some (c.currPeerPositions.entries.foldl
      (fun r e =>
        match acquired.lookup e.2.position with
        | some set => createDisputes c.currPeerPositions acquired r set
        | none => r)
      r) }

/-- Drop the peers whose positions are stale, and their votes. -/
def dropStale (cutoff : ℤ) (positions : Positions T) (r : Result T) :
    Positions T × Result T :=
  positions.entries.foldl
    (fun acc e =>
      if e.2.isStale cutoff then (acc.1.erase e.1, acc.2.unVote e.2.nodeID) else acc)
    (positions, r)

/-- Our set after the votes have been updated, unseated unless one changed. -/
def mutableSet (r : Result T) (percentTime : ℤ) (proposing : Bool) : Option T.TxSet :=
  r.disputes.entries.foldl
    (fun set e =>
      let updated := e.2.updateVote percentTime proposing
      if updated.2 then
        if updated.1.ourVote then some (T.insert (set.getD r.txns) updated.1.tx)
        else some (T.erase (set.getD r.txns) e.1)
      else set)
    none

def updateOurPositions (t : Tick T) (c : State T)
    (r : Result T) : State T :=
  let fresh := dropStale (c.now - proposeFreshness) c.currPeerPositions r
  let positions := fresh.1
  let r := fresh.2
  let proposing := decide (c.mode = .Proposing)
  let changed := mutableSet r c.convergePercent proposing
  let r :=
    { r with
      disputes := r.disputes.mapValues fun _ d => (d.updateVote c.convergePercent proposing).1 }
  match if changed.isSome then changed else if t.refresh then some r.txns else none with
  | none => { c with currPeerPositions := positions, result := some r }
  | some ourNewSet =>
    let r := { r with txns := ourNewSet }
    match c.acquired.lookup (T.setId ourNewSet) with
    | some _ => { c with currPeerPositions := positions, result := some r }
    | none =>
      let acquired := c.acquired.insert (T.setId ourNewSet) ourNewSet
      { c with
        currPeerPositions := positions
        acquired := acquired
        result := some (updateDisputesOf positions acquired ourNewSet r) }

def leaveConsensus (c : State T) : State T :=
  if c.mode = .Proposing then { c with mode := .Observing } else c

/-! ### The timer -/

def phaseOpen (t : Tick T) (c : State T) :
    State T :=
  if t.shouldClose then closeLedger c t.onClose else c

def phaseEstablish (t : Tick T) (c : State T) :
    State T :=
  match c.result with
  -- we have taken a stance when we are here
  | none => c
  | some r =>
    let c := { c with convergePercent := t.convergePercent }
    if !t.settled then c
    else
      let c := updateOurPositions t c r
      if t.paused || !t.consensus then c
      else
        let c := if t.expired then leaveConsensus c else c
        if !t.haveCloseTimeConsensus then c
        else { c with prevProposers := c.currPeerPositions.entries.length, phase := .Accepted }

/-- `startRoundInternal`; `timer` is the call of `timerEntry` at its end. -/
def startRoundInternal (a : Adaptor T)
    (timer : State T → State T)
    (c : State T) (now : ℤ) (prevLedgerID prevLedger : T.LedgerID)
    (mode : ConsensusMode) : State T :=
  let c := playbackProposals a
    { c with
      phase := .Open
      mode := mode
      now := now
      prevLedgerID := prevLedgerID
      previousLedger := prevLedger
      result := none
      convergePercent := 0
      currPeerPositions := ∅
      acquired := ∅
      deadNodes := fun _ => false }
  -- we may be falling behind, don't wait for the timer
  if c.prevProposers / 2 < c.currPeerPositions.entries.length then timer c else c

def handleWrongLedger (t : Tick T)
    (timer : State T → State T)
    (c : State T) (lgrId : T.LedgerID) : State T :=
  -- stop proposing because we are out of sync
  let c := leaveConsensus c
  let c :=
    -- first time switching to this ledger
    if c.prevLedgerID ≠ lgrId then
      playbackProposals t.toAdaptor
        { c with
          prevLedgerID := lgrId
          result := c.result.map fun r => { r with disputes := ∅, compares := fun _ => false }
          currPeerPositions := ∅
          deadNodes := fun _ => false }
    else c
  if c.previousLedger = c.prevLedgerID then c
  else if t.haveLedger then
    startRoundInternal t.toAdaptor timer c c.now lgrId c.prevLedgerID .SwitchedLedger
  else { c with mode := .WrongLedger }

def checkLedger (t : Tick T)
    (timer : State T → State T)
    (c : State T) : State T :=
  if t.netLgr ≠ c.prevLedgerID then handleWrongLedger t timer c t.netLgr
  else if c.previousLedger ≠ c.prevLedgerID then handleWrongLedger t timer c t.netLgr
  else c

/-- `timerEntry`, with one `Tick` for the call and one for each call that a new round makes of it. -/
def timerEntry : List (Tick T) → State T →
    State T
  | [], c => c
  | t :: ticks, c =>
    if c.phase = .Accepted then c
    else
      let c := checkLedger t (timerEntry ticks) { c with now := t.now }
      match c.phase with
      | .Open => phaseOpen t c
      | .Establish => phaseEstablish t c
      | .Accepted => c

/-! ### Calls -/

/-- A call of the consensus object. -/
inductive Call (T : Traits)
  | startRound (a : Adaptor T) (ticks : List (Tick T)) (now : ℤ)
      (prevLedgerID prevLedger : T.LedgerID) (haveLedger : Bool) (nowUntrusted : List T.NodeID)
      (proposing : Bool)
  | peerProposal (a : Adaptor T) (now : ℤ)
      (newPeerPos : Proposal T)
  | gotTxSet (now : ℤ) (txSet : T.TxSet)
  | timerEntry (ticks : List (Tick T))

def startRound (a : Adaptor T) (ticks : List (Tick T))
    (c : State T) (now : ℤ) (prevLedgerID prevLedger : T.LedgerID)
    (haveLedger : Bool) (nowUntrusted : List T.NodeID) (proposing : Bool) :
    State T :=
  let c :=
    { c with
      recentPeerPositions := nowUntrusted.foldl (fun recent n => recent.erase n)
        c.recentPeerPositions }
  let startMode := if proposing then .Proposing else .Observing
  if prevLedger ≠ prevLedgerID then
    -- we were handed the wrong ledger: try to acquire the correct one
    if haveLedger then
      startRoundInternal a (timerEntry ticks) c now prevLedgerID prevLedgerID startMode
    else startRoundInternal a (timerEntry ticks) c now prevLedgerID prevLedger .WrongLedger
  else startRoundInternal a (timerEntry ticks) c now prevLedgerID prevLedger startMode

def step (c : State T) : Call T → State T
  | .startRound a ticks now prevLedgerID prevLedger haveLedger nowUntrusted proposing =>
    startRound a ticks c now prevLedgerID prevLedger haveLedger nowUntrusted proposing
  | .peerProposal a now newPeerPos => peerProposal a c now newPeerPos
  | .gotTxSet now txSet => gotTxSet c now txSet
  | .timerEntry ticks => timerEntry ticks c

end FalconLedger.Consensus
