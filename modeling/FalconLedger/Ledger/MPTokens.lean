import FalconLedger.Data.Table
import FalconLedger.Protocol.STAmount

/-!
# Sends and escrows of a multi-purpose token

One issuance and the tokens of its holders: `accountSendMPT` and `accountSendMultiMPT` with what they
call, `lockEscrowMPT` and `unlockEscrowMPT`, under `fixSecurity3_1_3`, `featureMPTokensV2` and
`fixTokenEscrowV1`. The issuance itself is there. A call that does not succeed leaves nothing behind.
-/

namespace FalconLedger.MPT

open Wire

/-! ### Amounts -/

/-- The value of an amount to be sent, which is not negative. -/
abbrev Amount : Type := Fin (STAmount.kMaxMPTokenAmount + 1)

instance (priority := high) : NeZero (STAmount.kMaxMPTokenAmount + 1) := ⟨Nat.succ_ne_zero _⟩

/-- What a number with a `tecINTERNAL` exit records. -/
inductive Counter where
  | outstanding
  | locked
  | other
  deriving DecidableEq

/-- Why a call does not succeed. -/
inductive Stop where
  | tecOBJECT_NOT_FOUND
  | tecINSUFFICIENT_FUNDS
  | tecNO_AUTH
  | tecPATH_DRY
  | tecINTERNAL (counter : Counter)
  /-- An exception of `STAmount`. -/
  | throws
  /-- A sum or a difference leaves its type. -/
  | wraps
  deriving DecidableEq

abbrev Result : Type → Type := Except Stop

def check (c : Prop) [Decidable c] (e : Stop) : Result Unit := if c then .ok () else .error e

/-- A sum of `std::uint64_t`. -/
def add64 (a b : ℕ) : Result ℕ := if a + b < 2 ^ 64 then .ok (a + b) else .error .wraps

/-- `STAmount(mptIssue, n)` -/
def stAmount (n : ℕ) : Result Amount :=
  if h : n < STAmount.kMaxMPTokenAmount + 1 then .ok ⟨n, h⟩ else .error .throws

/-- `operator+`, on `std::int64_t`. -/
def plus (a b : Amount) : Result Amount :=
  if h : (a : ℕ) + b < STAmount.kMaxMPTokenAmount + 1 then .ok ⟨a + b, h⟩ else .error .wraps

def canAdd (a b : Amount) : Bool :=
  a = 0 || b = 0 || !decide (0 < b ∧ STAmount.kMaxMPTokenAmount - (b : ℕ) < a)

def canSubtract (a b : Amount) : Bool := b = 0 || !decide (0 < b ∧ a < b)

/-! ### Objects -/

/-- `MPTokenIssuance` -/
structure Issuance where
  outstandingAmount : ℕ
  maximumAmount : Option Amount
  lockedAmount : Option ℕ
  deriving DecidableEq

/-- `MPToken` -/
structure MPToken where
  mptAmount : ℕ
  lockedAmount : Option ℕ
  deriving DecidableEq

def Issuance.maxMPTAmount (i : Issuance) : Amount := i.maximumAmount.getD (Fin.last _)

/-- `max - outstanding`, taken without a sign and read with one. -/
def Issuance.availableMPTAmount (i : Issuance) : ℤ :=
  Int.bmod ((i.maxMPTAmount : ℕ) - i.outstandingAmount) (2 ^ 64)

inductive AllowMPTOverflow where
  | yes
  | no
  deriving DecidableEq

inductive WaiveTransferFee where
  | yes
  | no
  deriving DecidableEq

def isMPTOverflow (sendAmount : Amount) (outstandingAmount : ℕ) (maximumAmount : Amount)
    (allowOverflow : AllowMPTOverflow) : Bool :=
  let limit : ℕ := match allowOverflow with
    | .yes => 2 ^ 64 - 1
    | .no => maximumAmount
  decide (maximumAmount < sendAmount) || decide (limit - sendAmount < outstandingAmount)

variable {A : Type} [DecidableEq A]

structure View (A : Type) where
  issuance : Issuance
  tokens : Table A MPToken

namespace View

def setOutstanding (v : View A) (n : ℕ) : View A :=
  { v with issuance.outstandingAmount := n }

def setLocked (v : View A) (n : Option ℕ) : View A :=
  { v with issuance.lockedAmount := n }

def setToken (v : View A) (a : A) (token : MPToken) : View A :=
  { v with tokens := v.tokens.insert a token }

end View

/-! ### Sends -/

/-- What the calls are made with: the issuer, and `multiply` by the transfer rate, which may throw. -/
structure Env (A : Type) where
  issuer : A
  multiply : Amount → Option Amount

variable (env : Env A)

/-- The first half of `directSendNoFeeMPT`. -/
def takeFrom (sender : A) (amt : Amount) (v : View A) : Result (View A) :=
  if sender = env.issuer then do
    check (!isMPTOverflow amt v.issuance.outstandingAmount v.issuance.maxMPTAmount .yes) .tecPATH_DRY
    let n ← add64 v.issuance.outstandingAmount amt
    return v.setOutstanding n
  else match v.tokens.lookup sender with
    | none => .error .tecNO_AUTH
    | some token => do
      check (amt ≤ token.mptAmount) .tecINSUFFICIENT_FUNDS
      return v.setToken sender { token with mptAmount := token.mptAmount - amt }

/-- The second half, with the outstanding amount from before the first. -/
def giveTo (receiver : A) (outstanding : ℕ) (amt : Amount) (v : View A) : Result (View A) :=
  if receiver = env.issuer then do
    check (amt ≤ outstanding) (.tecINTERNAL .outstanding)
    return v.setOutstanding (outstanding - amt)
  else match v.tokens.lookup receiver with
    | none => .error .tecNO_AUTH
    | some token => do
      let n ← add64 token.mptAmount amt
      return v.setToken receiver { token with mptAmount := n }

def directSendNoFeeMPT (sender receiver : A) (amt : Amount) (v : View A) : Result (View A) := do
  let v' ← takeFrom env sender amt v
  giveTo env receiver v.issuance.outstandingAmount amt v'

/-- What a transit of the amount costs the sender. -/
def saActual (waiveFee : WaiveTransferFee) (amt : Amount) : Result Amount :=
  match waiveFee with
  | .yes => .ok amt
  | .no => (env.multiply amt).elim (.error .throws) .ok

def directSendNoLimitMPT (sender receiver : A) (amt : Amount) (waiveFee : WaiveTransferFee)
    (allowOverflow : AllowMPTOverflow) (v : View A) : Result (View A) :=
  if sender = env.issuer ∨ receiver = env.issuer then do
    check (sender = env.issuer → !isMPTOverflow amt v.issuance.outstandingAmount
      v.issuance.maxMPTAmount allowOverflow) .tecPATH_DRY
    directSendNoFeeMPT env sender receiver amt v
  else do
    let cost ← saActual env waiveFee amt
    let v' ← directSendNoFeeMPT env env.issuer receiver amt v
    directSendNoFeeMPT env sender env.issuer cost v'

def accountSendMPT (sender receiver : A) (amt : Amount) (waiveFee : WaiveTransferFee)
    (allowOverflow : AllowMPTOverflow) (v : View A) : Result (View A) :=
  if amt = 0 ∨ sender = receiver then .ok v
  else directSendNoLimitMPT env sender receiver amt waiveFee allowOverflow v

/-- The sums that a send to several receivers runs up. -/
structure Sums where
  totalSendAmount : ℕ
  actual : Amount
  takeFromSender : Amount

/-- The loop over the receivers; `first` is the issuance as it was before. -/
def sendEach (sender : A) (waiveFee : WaiveTransferFee) (first : Issuance) :
    List (A × Amount) → Sums → View A → Result (Sums × View A)
  | [], sums, v => .ok (sums, v)
  | (receiver, amount) :: receivers, sums, v =>
    if amount = 0 ∨ sender = receiver then sendEach sender waiveFee first receivers sums v
    else if sender = env.issuer then do
      let maximumAmount : ℕ := first.maxMPTAmount
      check (¬(maximumAmount < amount ∨ maximumAmount - amount < sums.totalSendAmount ∨
        maximumAmount - amount - sums.totalSendAmount < first.outstandingAmount)) .tecPATH_DRY
      let v' ← directSendNoFeeMPT env sender receiver amount v
      let actual ← plus sums.actual amount
      let totalSendAmount := sums.totalSendAmount + amount
      sendEach sender waiveFee first receivers { sums with totalSendAmount, actual } v'
    else if receiver = env.issuer then do
      let v' ← directSendNoFeeMPT env sender receiver amount v
      let actual ← plus sums.actual amount
      sendEach sender waiveFee first receivers { sums with actual } v'
    else do
      let actualSend ← saActual env waiveFee amount
      let actual ← plus sums.actual actualSend
      let takeFromSender ← plus sums.takeFromSender actualSend
      let v' ← directSendNoFeeMPT env env.issuer receiver amount v
      sendEach sender waiveFee first receivers { sums with actual, takeFromSender } v'

def directSendNoLimitMultiMPT (sender : A) (receivers : List (A × Amount))
    (waiveFee : WaiveTransferFee) (v : View A) : Result (View A) := do
  let (sums, v') ← sendEach env sender waiveFee v.issuance receivers ⟨0, 0, 0⟩ v
  if sender ≠ env.issuer ∧ sums.takeFromSender ≠ 0 then
    directSendNoFeeMPT env sender env.issuer sums.takeFromSender v'
  else return v'

def accountSendMultiMPT (sender : A) (receivers : List (A × Amount)) (waiveFee : WaiveTransferFee)
    (v : View A) : Result (View A) :=
  directSendNoLimitMultiMPT env sender receivers waiveFee v

/-! ### Escrows -/

def lockEscrowMPT (sender : A) (pay : Amount) (v : View A) : Result (View A) :=
  if env.issuer = sender then .error (.tecINTERNAL .other)
  else match v.tokens.lookup sender with
    | none => .error .tecOBJECT_NOT_FOUND
    | some token => do
      let amt ← stAmount token.mptAmount
      check (canSubtract amt pay) (.tecINTERNAL .other)
      let locked ← stAmount (token.lockedAmount.getD 0)
      check (canAdd locked pay) (.tecINTERNAL .locked)
      let issuanceEscrowed ← stAmount (v.issuance.lockedAmount.getD 0)
      check (canAdd issuanceEscrowed pay) (.tecINTERNAL .locked)
      return (v.setToken sender ⟨amt - (pay : ℕ), some (locked + (pay : ℕ))⟩).setLocked
        (some (issuanceEscrowed + (pay : ℕ)))

/-- A locked amount of zero is left out. -/
def lockedLeft (n : ℕ) : Option ℕ := if n = 0 then none else some n

/-- What `unlockEscrowMPT` takes out of a locked amount. -/
def unlockFrom (locked : Option ℕ) (gross : Amount) : Result (Option ℕ) :=
  match locked with
  | none => .error (.tecINTERNAL .locked)
  | some n => do
    let a ← stAmount n
    check (canSubtract a gross) (.tecINTERNAL .locked)
    return lockedLeft (n - gross)

/-- What `unlockEscrowMPT` redeems. -/
def redeemOutstanding (amt : Amount) (v : View A) : Result (View A) := do
  let a ← stAmount v.issuance.outstandingAmount
  check (canSubtract a amt) (.tecINTERNAL .outstanding)
  return v.setOutstanding (v.issuance.outstandingAmount - amt)

/-- What `unlockEscrowMPT` gives to the receiver. -/
def release (receiver : A) (net : Amount) (v : View A) : Result (View A) :=
  if env.issuer ≠ receiver then
    match v.tokens.lookup receiver with
    | none => .error .tecOBJECT_NOT_FOUND
    | some token => do
      let current ← stAmount token.mptAmount
      check (canAdd current net) (.tecINTERNAL .other)
      return v.setToken receiver { token with mptAmount := token.mptAmount + net }
  else redeemOutstanding net v

def unlockEscrowMPT (sender receiver : A) (net gross : Amount) (v : View A) : Result (View A) := do
  let escrowed ← unlockFrom v.issuance.lockedAmount gross
  let v ← release env receiver net (v.setLocked escrowed)
  if env.issuer = sender then .error (.tecINTERNAL .other)
  else match v.tokens.lookup sender with
    | none => .error .tecOBJECT_NOT_FOUND
    | some token => do
      let locked ← unlockFrom token.lockedAmount gross
      let v := v.setToken sender { token with lockedAmount := locked }
      if gross - net ≠ 0 then redeemOutstanding (gross - net) v else return v

/-! ### Runs -/

inductive Op (A : Type) where
  | send (sender receiver : A) (amt : Amount) (waiveFee : WaiveTransferFee)
      (allowOverflow : AllowMPTOverflow)
  | sendMulti (sender : A) (receivers : List (A × Amount)) (waiveFee : WaiveTransferFee)
  | lock (sender : A) (amt : Amount)
  | unlock (sender receiver : A) (net gross : Amount) (fee : net ≤ gross)

def Op.apply : Op A → View A → Result (View A)
  | .send sender receiver amt waiveFee allowOverflow =>
    accountSendMPT env sender receiver amt waiveFee allowOverflow
  | .sendMulti sender receivers waiveFee => accountSendMultiMPT env sender receivers waiveFee
  | .lock sender amt => lockEscrowMPT env sender amt
  | .unlock sender receiver net gross _ => unlockEscrowMPT env sender receiver net gross

def step (v : View A) (op : Op A) : View A × Result Unit :=
  match op.apply env v with
  | .ok v' => (v', .ok ())
  | .error e => (v, .error e)

end FalconLedger.MPT
