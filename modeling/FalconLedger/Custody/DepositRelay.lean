import FalconLedger.Custody.Minting
import FalconLedger.Data.Numerals

/-!
# The deposit relay

`bridge-deposit-relay.py`: it looks through the blocks of the other chain for deposits into the lock
contract and mints each on this one. A deposit whose account or trust line is missing is queued, and
tried again at every poll. The state is a file that is read when the process starts; dry runs do not
save it.
-/

namespace FalconLedger.DepositRelay

open Minting

/-! ### Deposits -/

/-- A log of the lock contract, as the server writes it. -/
structure Log where
  topics : List String
  data : List Char
  blockNumber : ℕ
  deriving DecidableEq

structure Deposit where
  depositId : String
  amount : ℕ
  falconAccount : String
  blockNumber : ℕ
  deriving DecidableEq

def hexDigit (c : Char) : Option ℕ :=
  if '0' ≤ c ∧ c ≤ '9' then some (c.toNat - '0'.toNat)
  else if 'a' ≤ c ∧ c ≤ 'f' then some (c.toNat - 'a'.toNat + 10)
  else if 'A' ≤ c ∧ c ≤ 'F' then some (c.toNat - 'A'.toNat + 10)
  else none

/-- `int(text, 16)`, of texts without sign, blanks, underscores and `0x`. -/
def hexInt (text : List Char) : Option ℕ :=
  if text = [] then none else (text.mapM hexDigit).map (Numeral.value 16)

/-- `bytes.fromhex`, of texts without blanks. -/
def fromHex : List Char → Option (List UInt8)
  | [] => some []
  | [_] => none
  | high :: low :: rest => do
    let high ← hexDigit high
    let low ← hexDigit low
    return UInt8.ofNat (16 * high + low) :: (← fromHex rest)

/-- `text[start:stop]` -/
def slice (text : List Char) (start stop : ℕ) : List Char := (text.take stop).drop start

/-- `decode_deposit_log`, with the id in lower case as its users write it; `none` is an exception. -/
def decodeDepositLog (log : Log) : Option Deposit := do
  let depositId ← if log.topics.length < 3 then none else log.topics[1]?
  let data := log.data.drop 2
  if data.length < 128 then none
  else
    let amount ← hexInt (slice data 0 64)
    let strOff ← (hexInt (slice data 64 128)).map (· * 2)
    let strLen ← hexInt (slice data strOff (strOff + 64))
    let bytes ← fromHex (slice data (strOff + 64) (strOff + 64 + strLen * 2))
    let falconAccount ← String.fromUTF8? ⟨bytes.toArray⟩
    return ⟨depositId.toLower, amount, falconAccount, log.blockNumber⟩

/-! ### The state -/

/-- A queued deposit, as `_queue_pending` writes it. -/
structure Pending where
  falconAccount : String
  amountHuman : ℚ
  deriving DecidableEq

structure State where
  pendingDeposits : List (String × Pending)
  mintedDeposits : List String
  /-- The ids, and the Payments of runs that were not dry. -/
  mints : List (String × Option (Payment String))
  lastBlock : Option ℕ
  deployBlock : Option ℕ
  deriving DecidableEq

namespace State

def empty : State := ⟨[], [], [], none, none⟩

def pendingIds (s : State) : List String := s.pendingDeposits.map Prod.fst

/-- `_queue_pending` -/
def queuePending (s : State) (decimals : ℕ) (dep : Deposit) : State :=
  if dep.depositId ∈ s.pendingIds then s
  else { s with pendingDeposits := s.pendingDeposits ++
    [(dep.depositId, ⟨dep.falconAccount, amountHuman decimals dep.amount⟩)] }

/-- `pending.pop` of some ids. -/
def popPending (s : State) (ids : List String) : State :=
  { s with pendingDeposits := s.pendingDeposits.filter fun e => e.1 ∉ ids }

/-- A mint is put on record. -/
def minted (s : State) (id : String) (tx : Option (Payment String)) : State :=
  { s with
    mintedDeposits := if id ∈ s.mintedDeposits then s.mintedDeposits else s.mintedDeposits ++ [id]
    mints := s.mints ++ [(id, tx)] }

end State

/-! ### The surroundings -/

/-- The other chain, and the relay's state in memory and in its file. -/
structure Around where
  head : ℕ
  logs : List Log
  memory : State
  file : State

inductive Own
  | blockNumber
  | getLogs (fromBlock toBlock : ℕ)
  | getState
  | setState (s : State)
  | saveState

def Own.Reply : Own → Type
  | .blockNumber => Option ℕ
  | .getLogs _ _ => Option (List Log)
  | .getState => State
  | .setState _ => Unit
  | .saveState => Option Unit

def execOwn : (f : Own) → Around → Fate → Around × f.Reply
  | .blockNumber, w, fate => (w, if fate = .answered then some w.head else none)
  | .getLogs fromBlock toBlock, w, fate =>
    (w, if fate = .answered then
        some (w.logs.filter fun l => fromBlock ≤ l.blockNumber && l.blockNumber ≤ toBlock)
      else none)
  | .getState, w, _ => (w, w.memory)
  | .setState s, w, _ => ({ w with memory := s }, ())
  | .saveState, w, fate =>
    if fate = .answered then ({ w with file := w.memory }, some ()) else (w, none)

inductive Event
  | node (e : NodeEvent String)
  /-- A block of the other chain, with what the lock contract logs there. -/
  | block (logs : List Log)

/-- The ids of the deposits among some logs. -/
def depositIds (logs : List Log) : List String :=
  logs.filterMap fun l => (decodeDepositLog l).map Deposit.depositId

/-- A block holds logs of its own number, and the contract gives each deposit an id of its own. -/
def env (w : World String Around) : Event → World String Around
  | .node e => { w with node := w.node.event e }
  | .block logs =>
    if (∀ l ∈ logs, l.blockNumber = w.rest.head + 1) ∧ (depositIds (w.rest.logs ++ logs)).Nodup then
      { w with rest := { w.rest with head := w.rest.head + 1, logs := w.rest.logs ++ logs } }
    else w

/-! ### Polls -/

abbrev Poll : Type → Type := Relay String Own Own.Reply

def getState : Poll State := own Own.getState

def modifyState (f : State → State) : Poll Unit := do
  let state ← getState
  own (Own.setState (f state))

/-- `save_state`, unless the run is dry. -/
def saveUnlessDry (dryRun : Bool) : Poll Unit := do
  if dryRun then pure ()
  else
    let saved : Option Unit ← own Own.saveState
    Program.orRaise saved

/-- The loop of `_retry_pending`, with the ids it has resolved. -/
def retryAll (decimals : ℕ) (dryRun : Bool) : List (String × Pending) → List String → Poll (List String)
  | [], resolved => pure resolved
  | (id, dep) :: rest, resolved => do
    let state ← getState
    if id ∈ state.mintedDeposits then retryAll decimals dryRun rest (resolved ++ [id])
    else
      let exists' ← accountExists dep.falconAccount
      if !exists' then retryAll decimals dryRun rest resolved
      else
        let trusted ← hasTrustLine dep.falconAccount
        if !trusted then retryAll decimals dryRun rest resolved
        else
          let success ← mint id dep.falconAccount (amountStr decimals dep.amountHuman) dryRun
          match success with
          | none => retryAll decimals dryRun rest resolved
          | some tx => do
            modifyState fun state => state.minted id tx
            saveUnlessDry dryRun
            retryAll decimals dryRun rest (resolved ++ [id])

/-- `_retry_pending` -/
def retryPending (decimals : ℕ) (dryRun : Bool) : Poll Unit := do
  let state ← getState
  let resolved ← retryAll decimals dryRun state.pendingDeposits []
  modifyState fun state => state.popPending resolved
  if resolved = [] then pure () else saveUnlessDry dryRun

/-- The loop of `process_deposits`. -/
def processLogs (decimals : ℕ) (dryRun : Bool) : List Log → Poll Unit
  | [] => pure ()
  | raw :: rest =>
    match decodeDepositLog raw with
    | none => processLogs decimals dryRun rest
    | some dep => do
      let state ← getState
      if dep.depositId ∈ state.mintedDeposits then processLogs decimals dryRun rest
      else
        let exists' ← accountExists dep.falconAccount
        if !exists' then
          modifyState fun state => state.queuePending decimals dep
          processLogs decimals dryRun rest
        else
          let trusted ← hasTrustLine dep.falconAccount
          if !trusted then
            modifyState fun state => state.queuePending decimals dep
            processLogs decimals dryRun rest
          else
            let success ← mint dep.depositId dep.falconAccount
              (amountStr decimals (amountHuman decimals dep.amount)) dryRun
            match success with
            -- neither minted nor queued
            | none => processLogs decimals dryRun rest
            | some tx => do
              modifyState fun state =>
                (state.popPending [dep.depositId]).minted dep.depositId tx
              saveUnlessDry dryRun
              processLogs decimals dryRun rest

/-- `process_deposits` -/
def processDeposits (decimals : ℕ) (dryRun : Bool) (fromBlock toBlock : ℕ) : Poll Unit := do
  let logs : Option (List Log) ← own (Own.getLogs fromBlock toBlock)
  let logs ← Program.orRaise logs
  processLogs decimals dryRun logs
  modifyState fun state => { state with lastBlock := some toBlock }
  saveUnlessDry dryRun

def chunk : ℕ := 2000

/-- The pieces of the blocks up to `head`. -/
def chunks (fromBlock head : ℕ) : List (ℕ × ℕ) :=
  (List.range ((head + chunk - fromBlock) / chunk)).map fun i =>
    (fromBlock + chunk * i, min (fromBlock + chunk * i + chunk - 1) head)

def scan (decimals : ℕ) (dryRun : Bool) : List (ℕ × ℕ) → Poll Unit
  | [] => pure ()
  | (cursor, toBlock) :: rest => do
    processDeposits decimals dryRun cursor toBlock
    scan decimals dryRun rest

def blockNumber : Poll ℕ := do
  let head : Option ℕ ← own Own.blockNumber
  Program.orRaise head

/-- The first block of a poll; zero counts as none. -/
def firstBlock (argsFromBlock : ℕ) : Poll ℕ := do
  let state ← getState
  if argsFromBlock ≠ 0 ∧ state.lastBlock.getD 0 = 0 then pure argsFromBlock
  else
    match state.lastBlock with
    | some lastBlock => pure (lastBlock + 1)
    | none =>
      if state.deployBlock.getD 0 ≠ 0 then pure (state.deployBlock.getD 0)
      else
        let head ← blockNumber
        modifyState fun state => { state with deployBlock := some (head - 50000) }
        pure (head - 50000)

/-- How a poll is made. -/
structure Args where
  fromBlock : ℕ
  dryRun : Bool

/-- `poll_once` -/
def pollOnce (decimals : ℕ) (args : Args) : Poll Unit := do
  let fb ← firstBlock args.fromBlock
  let head ← blockNumber
  retryPending decimals args.dryRun
  if head < fb then pure ()
  else scan decimals args.dryRun (chunks fb head)

/-- The relay. A process that is stopped starts again from its file. -/
def relay (decimals : ℕ) :
    Program.Machine (Op String Own) (Op.Reply Own.Reply) (World String Around) Fate Event Args where
  exec := exec execOwn
  env := env
  main := pollOnce decimals
  stopped w := { w with rest := { w.rest with memory := w.rest.file } }

end FalconLedger.DepositRelay
