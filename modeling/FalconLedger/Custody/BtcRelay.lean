import FalconLedger.Custody.Minting

/-!
# The bitcoin relay

`fbtc-claims-server.py` takes claims to bitcoin transactions into a file; `bridge-btc-deposit-relay.py`
mints what the transactions have paid into custody and takes the claims out again. Both read the whole
file and write it back. Texts are of ASCII characters.
-/

namespace FalconLedger.BtcRelay

open Minting

/-! ### Claims -/

abbrev Txid : Type := List Char

structure Claim where
  falconAccount : List Char
  btcTxid : List Char
  amountSats : ℤ
  deriving DecidableEq

/-- `str.isspace`, of one character. -/
def isSpace (c : Char) : Bool :=
  (9 ≤ c.toNat && c.toNat ≤ 13) || (0x1C ≤ c.toNat && c.toNat ≤ 0x20) ||
    (0x2000 ≤ c.toNat && c.toNat ≤ 0x200A) ||
    c.toNat ∈ [0x85, 0xA0, 0x1680, 0x2028, 0x2029, 0x202F, 0x205F, 0x3000]

def strip (text : List Char) : List Char :=
  ((text.dropWhile isSpace).reverse.dropWhile isSpace).reverse

def lower (text : List Char) : List Char := text.map Char.toLower

/-- `^[0-9a-fA-F]{64}$`, of a text in lower case. -/
def isTxid (text : List Char) : Bool :=
  text.length = 64 && text.all fun c => c.isDigit || ('a' ≤ c && c ≤ 'f')

/-- `^r[1-9A-HJ-NP-Za-km-z]{24,34}$` -/
def isFalconAccount : List Char → Bool
  | 'r' :: rest =>
    24 ≤ rest.length && rest.length ≤ 34 && rest.all fun c =>
      ('1' ≤ c && c ≤ '9') || ('A' ≤ c && c ≤ 'H') || ('J' ≤ c && c ≤ 'N') || ('P' ≤ c && c ≤ 'Z') ||
        ('a' ≤ c && c ≤ 'k') || ('m' ≤ c && c ≤ 'z')
  | _ => false

/-- The body of a request; an amount that is none counts as zero. -/
structure Request where
  falconAccount : List Char
  btcTxid : List Char
  amountSats : ℤ

/-- The claim that `do_POST` makes of a body, if it passes the checks. -/
def Request.claim (body : Request) : Option Claim :=
  let falcon := strip body.falconAccount
  let txid := lower (strip body.btcTxid)
  if !isFalconAccount falcon then none
  else if !isTxid txid then none
  else if body.amountSats < 546 then none
  else some ⟨falcon, txid, body.amountSats⟩

abbrev Pending : Type := List (Txid × Claim)

def Pending.txids (pending : Pending) : List Txid := pending.map Prod.fst

/-! ### The surroundings -/

/-- The state file of the relay. -/
structure State where
  mintedTxids : List Txid
  mints : List (Txid × Option (Payment Txid))
  deriving DecidableEq

def State.minted (s : State) (txid : Txid) (tx : Option (Payment Txid)) : State where
  mintedTxids := if txid ∈ s.mintedTxids then s.mintedTxids else s.mintedTxids ++ [txid]
  mints := s.mints ++ [(txid, tx)]

/-- The two files, what the server has loaded and the claim it is about to add, and the txids it has
answered with ok. -/
structure Around where
  claims : Pending
  state : State
  server : Option (Pending × Claim)
  answered : List Txid

structure Vout where
  scriptpubkeyAddress : String
  value : ℕ
  deriving DecidableEq

/-- The bitcoin chain, as the explorers show it, and the address that holds custody. -/
structure Chain where
  vouts : Txid → List Vout
  custody : String

inductive Own
  | loadClaims
  | loadState
  | explorerGet (txid : Txid)
  | saveState (s : State)
  /-- The claims that were loaded, without those that have been resolved. -/
  | saveClaims (loaded : Pending) (resolved : List Txid)

def Own.Reply : Own → Type
  | .loadClaims => Option Pending
  | .loadState => Option State
  | .explorerGet _ => Option (List Vout × Bool)
  | .saveState _ => Option Unit
  | .saveClaims _ _ => Option Unit

/-- `pending.pop` of what has been resolved. -/
def Pending.without (pending : Pending) (resolved : List Txid) : Pending :=
  pending.filter fun e => e.1 ∉ resolved

/-- A transaction that an explorer has only in its mempool is `.kept`. -/
def execOwn (chain : Chain) : (f : Own) → Around → Fate → Around × f.Reply
  | .loadClaims, w, fate => (w, if fate = .answered then some w.claims else none)
  | .loadState, w, fate => (w, if fate = .answered then some w.state else none)
  | .explorerGet txid, w, fate =>
    (w, match fate with
      | .answered => some (chain.vouts txid, true)
      | .kept => some (chain.vouts txid, false)
      | _ => none)
  | .saveState s, w, fate =>
    if fate = .answered then ({ w with state := s }, some ()) else (w, none)
  | .saveClaims loaded resolved, w, fate =>
    if fate = .answered then ({ w with claims := loaded.without resolved }, some ()) else (w, none)

inductive Event
  | node (e : NodeEvent Txid)
  /-- The server takes a request up to `load`, or up to its answer where nothing is to be saved. -/
  | postLoad (body : Request)
  /-- The server saves and answers. -/
  | postSave
  /-- The server is stopped. -/
  | serverStops

/-- The server handles one request at a time. -/
def env (w : World Txid Around) : Event → World Txid Around
  | .node e => { w with node := w.node.event e }
  | .postLoad body =>
    match w.rest.server, body.claim with
    | none, some claim =>
      if claim.btcTxid ∈ w.rest.claims.txids then
        { w with rest := { w.rest with answered := claim.btcTxid :: w.rest.answered } }
      else { w with rest := { w.rest with server := some (w.rest.claims, claim) } }
    | _, _ => w
  | .postSave =>
    match w.rest.server with
    | some (loaded, claim) =>
      { w with rest := { w.rest with
        claims := loaded ++ [(claim.btcTxid, claim)]
        server := none
        answered := claim.btcTxid :: w.rest.answered } }
    | none => w
  | .serverStops => { w with rest := { w.rest with server := none } }

/-! ### Polls -/

abbrev Poll : Type → Type := Relay Txid Own Own.Reply

/-- The sum of the outputs to an address. -/
def credited (custody : String) (vouts : List Vout) : ℕ :=
  (vouts.map fun vout => if vout.scriptpubkeyAddress = custody then vout.value else 0).sum

/-- `verify_btc_deposit`, of a txid in lower case and without blanks: what is credited and whether it is
confirmed. A failed lookup is caught. -/
def verifyBtcDeposit (chain : Chain) (txid : Txid) (minSats : ℤ) : Poll (Option (ℕ × Bool)) := do
  if !isTxid txid then pure none
  else
    let tx : Option (List Vout × Bool) ← own (Own.explorerGet txid)
    match tx with
    | none => pure none
    | some (vouts, confirmed) =>
      let sats := credited chain.custody vouts
      if sats = 0 ∨ (sats : ℤ) < minSats then pure none else pure (some (sats, confirmed))

def saveUnlessDry (dryRun : Bool) (f : Own) (h : f.Reply = Option Unit) : Poll Unit := do
  if dryRun then pure ()
  else
    let saved : f.Reply ← own f
    Program.orRaise (cast h saved)

/-- The loop of `process_claims`, with the state and what has been resolved. -/
def processAll (chain : Chain) (dryRun requireConfirmed : Bool) :
    Pending → State → List Txid → Poll (List Txid)
  | [], _, resolved => pure resolved
  | (claimId, claim) :: rest, state, resolved => do
    let txid := lower (strip claim.btcTxid)
    let dest := strip claim.falconAccount
    if txid = [] ∨ dest = [] ∨ claim.amountSats ≤ 0 then
      processAll chain dryRun requireConfirmed rest state (resolved ++ [claimId])
    else if txid ∈ state.mintedTxids then
      processAll chain dryRun requireConfirmed rest state (resolved ++ [claimId])
    else
      let verified ← verifyBtcDeposit chain txid claim.amountSats
      match verified with
      | none => processAll chain dryRun requireConfirmed rest state resolved
      | some (credited, confirmed) =>
        if requireConfirmed && !confirmed then
          processAll chain dryRun requireConfirmed rest state resolved
        else
          let exists' ← accountExists (String.ofList dest)
          if !exists' then processAll chain dryRun requireConfirmed rest state resolved
          else
            let trusted ← hasTrustLine (String.ofList dest)
            if !trusted then processAll chain dryRun requireConfirmed rest state resolved
            else
              let success ← mint txid (String.ofList dest) (printed 8 (amountHuman 8 credited)) dryRun
              match success with
              | none => processAll chain dryRun requireConfirmed rest state resolved
              | some tx => do
                saveUnlessDry dryRun (.saveState (state.minted txid tx)) rfl
                processAll chain dryRun requireConfirmed rest (state.minted txid tx)
                  (resolved ++ [claimId])

/-- `process_claims` -/
def processClaims (chain : Chain) (dryRun requireConfirmed : Bool) : Poll Unit := do
  let claims : Option Pending ← own Own.loadClaims
  let pending ← Program.orRaise claims
  if pending = [] then pure ()
  else
    let state : Option State ← own Own.loadState
    let state ← Program.orRaise state
    let resolved ← processAll chain dryRun requireConfirmed pending state []
    if resolved = [] then pure ()
    else saveUnlessDry dryRun (.saveClaims pending resolved) rfl

structure Args where
  dryRun : Bool
  requireConfirmed : Bool

/-- The relay, with the server beside it. -/
def relay (chain : Chain) :
    Program.Machine (Op Txid Own) (Op.Reply Own.Reply) (World Txid Around) Fate Event Args where
  exec := exec (execOwn chain)
  env := env
  main args := processClaims chain args.dryRun args.requireConfirmed
  stopped w := w

end FalconLedger.BtcRelay
