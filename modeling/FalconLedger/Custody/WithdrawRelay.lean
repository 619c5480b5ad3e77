import FalconLedger.Data.Numerals
import FalconLedger.Protocol.STTx

/-!
# The withdraw relay

`bridge-withdraw-relay.py`: it lists payments to the bridge issuer, takes the amount to release from
their `Amount` field and asks the lock contract to pay it. The lock pays each withdrawal id at most
once; what else happens to a release is left open. Amounts are texts, as the server writes them.
-/

namespace FalconLedger

namespace WithdrawRelay

/-! ### Payments -/

structure Memo where
  memoType : String
  memoData : String
  deriving DecidableEq

/-- An `Amount` that is not native. -/
structure IssuedText where
  currency : String
  issuer : String
  value : List Char
  deriving DecidableEq

/-- A transaction of the issuer as `account_tx` gives it, and what its metadata say was delivered to the
issuer of the bridged currency. -/
structure Entry where
  hash : String
  validated : Option Bool
  transactionResult : String
  transactionType : String
  account : String
  destination : String
  /-- `none` where the amount is native. -/
  amount : Option IssuedText
  memos : List Memo
  ledgerIndex : ℕ
  delivered : NNRat
  deriving DecidableEq

/-! ### Amounts -/

/-- Python's `int`, on texts without sign, blanks and underscores. -/
def pyInt (text : List Char) : Option ℕ :=
  if text ≠ [] ∧ text.all Char.isDigit then some (Numeral.value 10 (text.map fun c => c.toNat - 48))
  else none

/-- `int(text)`, or zero where there is none. -/
def intOrZero (text : List Char) : Option ℕ := if text = [] then some 0 else pyInt text

def decimals : ℕ := 6

/-- `text.split(".")[0]` -/
def wholePart (text : List Char) : List Char := text.takeWhile (· ≠ '.')

/-- `text.split(".")[1]`, or nothing. -/
def fracPart (text : List Char) : List Char :=
  (text.dropWhile (· ≠ '.')).tail.takeWhile (· ≠ '.')

/-- `amount_to_raw`; `none` is an exception. -/
def amountToRaw (text : List Char) : Option ℕ := do
  let whole ← intOrZero (wholePart text)
  let frac := fracPart text
  let frac ← intOrZero ((frac ++ List.replicate (decimals - frac.length) '0').take decimals)
  return whole * 10 ^ decimals + frac

/-! ### Candidates -/

/-- Where the relay runs: its issuer and currency, the decoding of memos and the hash. -/
structure Setup (W : Type) where
  issuer : String
  currency : String
  hexToUtf8 : String → String
  strip : String → String
  lower : String → String
  sha256 : String → W

variable {W : Type} (H : Setup W)

/-- `^0x[a-fA-F0-9]{40}$` -/
def isEvmAddress (text : String) : Bool :=
  match text.toList with
  | '0' :: 'x' :: digits =>
    digits.length = 40 && digits.all fun c =>
      c.isDigit || ('a' ≤ c && c ≤ 'f') || ('A' ≤ c && c ≤ 'F')
  | _ => false

/-- `parse_sepolia_memo` -/
def parseSepoliaMemo (memos : List Memo) : Option String :=
  memos.findSome? fun memo =>
    if H.hexToUtf8 memo.memoType = "sepolia-withdraw" then
      let data := H.strip (H.hexToUtf8 memo.memoData)
      if isEvmAddress data then some data else none
    else none

def withdrawalId (falconTx falconAccount : String) (amountRaw : ℕ) (recipient : String) : W :=
  H.sha256 (falconTx ++ ":" ++ falconAccount ++ ":" ++ toString amountRaw ++ ":" ++ H.lower recipient)

structure Candidate where
  falconTx : String
  falconAccount : String
  amountRaw : ℕ
  sepoliaRecipient : String
  ledgerIndex : ℕ
  deriving DecidableEq

/-- What `fetch_withdrawal_candidates` makes of a transaction: it is skipped, or a candidate; the outer
`none` is an exception. -/
def candidateOf (entry : Entry) : Option (Option Candidate) :=
  if entry.validated = some false ∨ entry.transactionResult ≠ "tesSUCCESS" ∨
      entry.transactionType ≠ "Payment" ∨ entry.destination ≠ H.issuer then some none
  else
    match entry.amount with
    | none => some none
    | some amount =>
      if amount.currency ≠ H.currency ∨ amount.issuer ≠ H.issuer then some none
      else
        match parseSepoliaMemo H entry.memos with
        | none => some none
        | some evm =>
          if entry.hash = "" then some none
          else (amountToRaw amount.value).map fun raw =>
            some ⟨entry.hash, entry.account, raw, evm, entry.ledgerIndex⟩

/-- `fetch_withdrawal_candidates`, of the transactions the server sends. -/
def fetchWithdrawalCandidates (response : List Entry) : Option (List Candidate) :=
  (response.mapM (candidateOf H)).map fun l => l.filterMap id

def Candidate.wid (c : Candidate) : W :=
  withdrawalId H c.falconTx c.falconAccount c.amountRaw c.sepoliaRecipient

/-! ### Releases -/

/-- What becomes of a release that is tried: whether the lock pays if it can, whether the script reports
success, and whether the state is saved after it; if not, the poll ends there. -/
structure Outcome where
  pays : Bool
  success : Bool
  saved : Bool

/-- The state file. -/
structure Saved (W : Type) where
  releasedWithdrawals : List W
  lastLedger : ℕ

/-- The ledger, newest first, the relay and its file, and what the lock has paid. -/
structure Bridge (W : Type) where
  ledger : List Entry
  memory : Saved W
  file : Saved W
  paid : List (W × ℕ)

def Bridge.empty : Bridge W := ⟨[], ⟨[], 0⟩, ⟨[], 0⟩, []⟩

variable [DecidableEq W]

/-- The lock pays an amount for a withdrawal id it has not processed. -/
def lockPays (paid : List (W × ℕ)) (wid : W) (amount : ℕ) (outcome : Outcome) : List (W × ℕ) :=
  if wid ∉ paid.map Prod.fst ∧ 0 < amount ∧ outcome.pays then (wid, amount) :: paid else paid

/-- `release_on_sepolia` -/
def releaseOnSepolia (b : Bridge W) (c : Candidate) (dryRun : Bool) (outcome : Outcome) :
    Bridge W × Bool :=
  if dryRun then (b, true)
  else ({ b with paid := lockPays b.paid (c.wid H) c.amountRaw outcome }, outcome.success)

/-- The loop of `process_withdrawals`, over what is left of the candidates and the outcomes; the highest
ledger index so far is `maxLedger`, and `none` when the poll has ended early. -/
def releaseAll (dryRun : Bool) :
    List Candidate → List Outcome → ℕ → Bridge W → Bridge W × Option ℕ
  | [], _, maxLedger, b => (b, some maxLedger)
  | _ :: _, [], _, b => (b, none)
  | c :: rest, outcome :: outcomes, maxLedger, b =>
    if c.wid H ∈ b.memory.releasedWithdrawals then
      releaseAll dryRun rest (outcome :: outcomes) maxLedger b
    else
      let (b, success) := releaseOnSepolia H b c dryRun outcome
      if success then
        let memory := { b.memory with
          releasedWithdrawals := b.memory.releasedWithdrawals ++ [c.wid H] }
        let b := { b with memory }
        if dryRun then releaseAll dryRun rest outcomes (max maxLedger c.ledgerIndex) b
        else if outcome.saved then
          releaseAll dryRun rest outcomes (max maxLedger c.ledgerIndex) { b with file := memory }
        else (b, none)
      else releaseAll dryRun rest outcomes maxLedger b

/-- `process_withdrawals`. The server sends those transactions that `sends` picks. -/
def processWithdrawals (b : Bridge W) (dryRun : Bool) (sends : Entry → Bool)
    (outcomes : List Outcome) : Bridge W :=
  let minLedger := b.memory.lastLedger
  let response := b.ledger.filter fun e => decide (minLedger ≤ e.ledgerIndex) && sends e
  match fetchWithdrawalCandidates H response with
  | none => b
  | some candidates =>
    match releaseAll H dryRun candidates outcomes minLedger b with
    | (b, none) => b
    | (b, some maxLedger) =>
      if minLedger < maxLedger then
        let memory := { b.memory with lastLedger := maxLedger }
        { b with memory, file := if dryRun then b.file else memory }
      else b

/-! ### Runs -/

inductive Action
  /-- A transaction of the issuer's is applied. -/
  | applied (entry : Entry)
  | poll (dryRun : Bool) (sends : Entry → Bool) (outcomes : List Outcome)
  /-- The relay is started again, from its file. -/
  | restart

def step (b : Bridge W) : Action → Bridge W × Unit
  | .applied entry => ({ b with ledger := entry :: b.ledger }, ())
  | .poll dryRun sends outcomes => (processWithdrawals H b dryRun sends outcomes, ())
  | .restart => ({ b with memory := b.file }, ())

end WithdrawRelay

end FalconLedger
