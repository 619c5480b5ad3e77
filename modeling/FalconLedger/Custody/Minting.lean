import FalconLedger.Data.Program
import Mathlib.Data.Int.Log
import Mathlib.Data.Rat.Floor

/-!
# Mints of the deposit relays

`mint_iou` and `mint_fbtc`: a relay reads the sequence of the issuer, signs a Payment, submits it and
waits for it. The node accepts what it likes and validates what it has accepted up to the last ledger
sequence, one transaction of the issuer for each sequence. An answer can be lost on its way back.
Python's floats are binary numbers of 53 digits, without bounds on the exponent.
-/

namespace FalconLedger.Minting

/-! ### Amounts -/

def roundHalfEven (q : ℚ) : ℤ :=
  let rest := q - ⌊q⌋
  if rest < 1 / 2 then ⌊q⌋
  else if 1 / 2 < rest then ⌊q⌋ + 1
  else if ⌊q⌋ % 2 = 0 then ⌊q⌋
  else ⌊q⌋ + 1

/-- The nearest float. -/
def toFloat (q : ℚ) : ℚ :=
  let ulp := (2 : ℚ) ^ (Int.log 2 q - 52)
  roundHalfEven (q / ulp) * ulp

/-- What a text of `f"{x:.{digits}f}"` says. -/
def printed (digits : ℕ) (x : ℚ) : ℚ := roundHalfEven (x * 10 ^ digits) / 10 ^ digits

/-- `amount / 10 ** decimals` -/
def amountHuman (decimals amount : ℕ) : ℚ := toFloat (amount / 10 ^ decimals)

/-- `rstrip("0")` of an integer, of which there is `"0"` at least. -/
def stripZeros (n : ℕ) : ℕ :=
  if n = 0 ∨ n % 10 ≠ 0 then n else stripZeros (n / 10)
termination_by n
decreasing_by omega

/-- The `value` of a mint of `amount_human`. Without digits after the point the zeros that are stripped
are those of the integer. -/
def amountStr (decimals : ℕ) (amountHuman : ℚ) : ℚ :=
  if min decimals 15 = 0 then stripZeros (roundHalfEven amountHuman).toNat
  else printed (min decimals 15) amountHuman

/-! ### The node -/

variable {K F : Type}

/-- A Payment of the issuer, with what it is a mint for. -/
structure Payment (K : Type) where
  key : K
  destination : String
  value : ℚ
  sequence : ℕ
  lastLedgerSequence : ℕ
  deriving DecidableEq

/-- The node: the last validated ledger and the issuer's sequence there, what has been accepted, and
what has been validated, with success or without. -/
structure Node (K : Type) where
  validatedLedger : ℕ
  sequence : ℕ
  pool : List (Payment K)
  validated : List (Payment K)
  failed : List (Payment K)

inductive NodeEvent (K : Type)
  | ledger
  /-- Some other transaction of the issuer is validated. -/
  | used
  | validates (p : Payment K) (success : Bool)

variable [DecidableEq K]

def Node.event (n : Node K) : NodeEvent K → Node K
  | .ledger => { n with validatedLedger := n.validatedLedger + 1 }
  | .used => { n with sequence := n.sequence + 1 }
  | .validates p success =>
    if p ∈ n.pool ∧ p.sequence = n.sequence ∧ n.validatedLedger ≤ p.lastLedgerSequence then
      if success then { n with sequence := n.sequence + 1, validated := p :: n.validated }
      else { n with sequence := n.sequence + 1, failed := p :: n.failed }
    else n

/-! ### Calls -/

/-- What a relay asks for; `own` is what only one of them does. What is minted, in a run that is not dry,
and how many polls are left are said along with the call. -/
inductive Op (K F : Type)
  | accountExists (address : String)
  | hasTrustLine (address : String)
  | accountInfo (live : Option K)
  | serverInfo
  | sign (tx : Payment K)
  | submit (tx : Payment K)
  | tx (tx : Payment K) (left : ℕ)
  | own (f : F)

def Op.Reply (R : F → Type) : Op K F → Type
  | .accountExists _ | .hasTrustLine _ => Bool
  | .accountInfo _ | .serverInfo => Option ℕ
  | .sign _ | .submit _ | .tx _ _ => Option Bool
  | .own f => R f

/-- What becomes of a call: it fails, its answer is lost, it is refused, it is refused and yet kept, or
it is answered. -/
inductive Fate
  | fails
  | lost
  | refused
  | kept
  | answered
  deriving DecidableEq

def Node.accept (n : Node K) (p : Payment K) : Node K := { n with pool := p :: n.pool }

/-- What the node has on a transaction: whether it has been validated with success. -/
def Node.lookup (n : Node K) (p : Payment K) : Option Bool :=
  if p ∈ n.validated then some true
  else if p ∈ n.failed then some false
  else none

structure World (K W : Type) where
  node : Node K
  rest : W

variable {W : Type} {R : F → Type}

/-- How the node, and by `execOwn` the rest, answers. `none` is an exception, in `wait_validated` one that
is caught. -/
def exec (execOwn : (f : F) → W → Fate → W × R f) :
    (o : Op K F) → World K W → Fate → World K W × o.Reply R
  | .accountExists _, w, fate => (w, decide (fate = .answered))
  | .hasTrustLine _, w, fate => (w, decide (fate = .answered))
  | .accountInfo _, w, fate => (w, if fate = .answered then some w.node.sequence else none)
  | .serverInfo, w, fate => (w, if fate = .answered then some w.node.validatedLedger else none)
  | .sign _, w, fate =>
    (w, match fate with
      | .answered => some true
      | .refused | .kept => some false
      | _ => none)
  | .submit p, w, fate =>
    (match fate with
      | .answered | .kept | .lost => { w with node := w.node.accept p }
      | _ => w,
    match fate with
      | .answered => some true
      | .refused | .kept => some false
      | _ => none)
  | .tx p _, w, fate => (w, if fate = .answered then w.node.lookup p else none)
  | .own f, w, fate =>
    let (rest, reply) := execOwn f w.rest fate
    ({ w with rest }, reply)

abbrev Relay (K F : Type) (R : F → Type) : Type → Type := Program (Op K F) (Op.Reply R)

def call (o : Op K F) : Relay K F R (o.Reply R) := Program.op o

def accountExists (address : String) : Relay K F R Bool := call (.accountExists address)

def hasTrustLine (address : String) : Relay K F R Bool := call (.hasTrustLine address)

def own (f : F) : Relay K F R (R f) := call (.own f)

/-- The `Sequence` of the issuer. -/
def accountInfo (live : Option K) : Relay K F R ℕ := do
  let acct : Option ℕ ← call (.accountInfo live)
  Program.orRaise acct

def serverInfo : Relay K F R ℕ := do
  let info : Option ℕ ← call .serverInfo
  Program.orRaise info

/-- Whether the transaction has been signed. -/
def sign (tx : Payment K) : Relay K F R Bool := do
  let signed : Option Bool ← call (.sign tx)
  Program.orRaise signed

/-- Whether the `engine_result` is that of a transaction to wait for. -/
def submit (tx : Payment K) : Relay K F R Bool := do
  let sub : Option Bool ← call (.submit tx)
  Program.orRaise sub

def lookupTx (tx : Payment K) (left : ℕ) : Relay K F R (Option Bool) := call (.tx tx left)

/-- `wait_validated`; `none` is its time-out. -/
def waitValidated (tx : Payment K) : ℕ → Relay K F R (Option Bool)
  | 0 => pure none
  | left + 1 => do
    let r ← lookupTx tx left
    match r with
    | some result => pure (some result)
    | none => waitValidated tx left

/-- `mint_iou` and `mint_fbtc`: `none` is a failure, `some none` the success of a dry run. -/
def mint (key : K) (destination : String) (value : ℚ) (dryRun : Bool) :
    Relay K F R (Option (Option (Payment K))) := do
  let seq ← accountInfo (if dryRun then none else some key)
  let ledger ← serverInfo
  let tx : Payment K := ⟨key, destination, value, seq, ledger + 30⟩
  if dryRun then pure (some none)
  else
    let signed ← sign tx
    if !signed then pure none
    else
      let result ← submit tx
      if !result then pure none
      else
        let final ← waitValidated tx 30
        if final = some true then pure (some (some tx)) else pure none

end FalconLedger.Minting
