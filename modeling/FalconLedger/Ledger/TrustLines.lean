import FalconLedger.Data.Table

/-!
# Trust lines

`TrustSet` with `trustCreate` and `trustDelete`, and the three ways to move a balance:
`directSendNoFeeIOU`, `issueIOU` and `redeemIOU`. A line has a low and a high side; the source says
everything once for each, here `side` takes the place of that. An owner directory is the list of the lines
in it. `featureDeepFreeze` and the other amendments are enabled.
-/

namespace FalconLedger.TrustLines

/-! ### Objects -/

def QUALITY_ONE : ℕ := 1000000000

/-- The fields and flags of one side of a line; a quality that is absent is 0. -/
structure Side where
  limit : ℚ
  qualityIn : ℕ
  qualityOut : ℕ
  reserve : Bool
  auth : Bool
  noRipple : Bool
  freeze : Bool
  deepFreeze : Bool
  deriving DecidableEq

structure RippleState where
  /-- In the terms of the low account. -/
  balance : ℚ
  low : Side
  high : Side
  deriving DecidableEq

namespace RippleState

def side (l : RippleState) (high : Bool) : Side := if high then l.high else l.low

def setSide (l : RippleState) (high : Bool) (s : Side) : RippleState :=
  if high then { l with high := s } else { l with low := s }

/-- The balance in the terms of a side. -/
def balanceOf (l : RippleState) (high : Bool) : ℚ := if high then -l.balance else l.balance

def setBalance (l : RippleState) (high : Bool) (balance : ℚ) : RippleState :=
  { l with balance := if high then -balance else balance }

end RippleState

structure AccountRoot where
  ownerCount : UInt32
  defaultRipple : Bool
  noFreeze : Bool
  requireAuth : Bool
  disallowIncomingTrustline : Bool
  deriving DecidableEq

/-- What `keylet::line` is made from. -/
structure LineKey (A C : Type) where
  low : A
  high : A
  currency : C
  deriving DecidableEq

inductive Failure where
  | temBAD_LIMIT
  | temBAD_CURRENCY
  | temDST_IS_SRC
  | tefNO_AUTH_REQUIRED
  | tefINTERNAL
  | tefBAD_LEDGER
  | terNO_ACCOUNT
  | tecNO_DST
  | tecNO_PERMISSION
  | tecPSEUDO_ACCOUNT
  | tecINTERNAL
  | tecDIR_FULL
  | tecNO_TARGET
  | tecNO_LINE_REDUNDANT
  | tecNO_LINE_INSUF_RESERVE
  | tecINSUF_RESERVE_LINE
  /-- An exception of `STAmount`, or of an account that is not there. -/
  | throws
  deriving DecidableEq

abbrev Result : Type → Type := Except Failure

def check (c : Prop) [Decidable c] (e : Failure) : Result Unit := if c then .ok () else .error e

variable {A C : Type} [LinearOrder A] [DecidableEq C]

def line (a b : A) (currency : C) : LineKey A C := if a < b then ⟨a, b, currency⟩ else ⟨b, a, currency⟩

structure View (A C : Type) where
  accounts : Table A AccountRoot
  lines : Table (LineKey A C) RippleState
  ownerDir : A → List (LineKey A C)
  /-- The lines that were erased, as they were then. -/
  erased : List RippleState

/-- What the calls are made with: subtraction of issued amounts, which rounds and may throw, when a
directory is full, the reserve for a number of objects, and the checks on pseudo-accounts. -/
structure Env (A C : Type) where
  minus : ℚ → ℚ → Option ℚ
  full : List (LineKey A C) → Bool
  accountReserve : UInt32 → ℕ
  badCurrency : C
  pseudoRefuses : View A C → A → A → C → Bool

/-- `confineOwnerCount`: a count that would leave the 32-bit numbers stops at their end. -/
def confineOwnerCount (current : UInt32) (adjustment : ℤ) : UInt32 :=
  let adjusted := current + UInt32.ofInt adjustment
  if 0 < adjustment then if adjusted < current then 0xFFFFFFFF else adjusted
  else if current < adjusted then 0
  else adjusted

namespace View

def adjustOwnerCount (v : View A C) (a : A) (amount : ℤ) : View A C :=
  match v.accounts.lookup a with
  | none => v
  | some root =>
    { v with
      accounts := v.accounts.insert a
        { root with ownerCount := confineOwnerCount root.ownerCount amount } }

def putLine (v : View A C) (index : LineKey A C) (l : RippleState) : View A C :=
  { v with lines := v.lines.insert index l }

def setDir (v : View A C) (a : A) (dir : List (LineKey A C)) : View A C :=
  { v with ownerDir := fun b => if b = a then dir else v.ownerDir b }

end View

variable (env : Env A C)

def dirInsert (v : View A C) (a : A) (index : LineKey A C) : Result (View A C) := do
  check (env.full (v.ownerDir a) = false) .tecDIR_FULL
  return v.setDir a (v.ownerDir a ++ [index])

def dirRemove (v : View A C) (a : A) (index : LineKey A C) : Result (View A C) := do
  check (index ∈ v.ownerDir a) .tefBAD_LEDGER
  return v.setDir a ((v.ownerDir a).erase index)

/-! ### Lines -/

/-- The side of the account that is set is `mine`; `account` is that account. -/
def trustCreate (bSrcHigh : Bool) (src dst : A) (index : LineKey A C) (account : A) (mine : Side)
    (balance : ℚ) (v : View A C) : Result (View A C) := do
  let low := if bSrcHigh then dst else src
  let high := if bSrcHigh then src else dst
  check (low ≠ high) .tecINTERNAL
  let v ← dirInsert env v low index
  let v ← dirInsert env v high index
  let bSetDst := decide (account = dst)
  let bSetHigh := bSrcHigh ^^ bSetDst
  match v.accounts.lookup (if bSetHigh then low else high) with
  | none => .error .tecNO_TARGET
  | some peer =>
    let other : Side := ⟨0, 0, 0, false, false, !peer.defaultRipple, false, false⟩
    let l : RippleState := ⟨0, other, other⟩
    let l := (l.setSide bSetHigh { mine with reserve := true }).setBalance bSetHigh balance
    return (v.adjustOwnerCount account 1).putLine index l

def trustDelete (index : LineKey A C) (l : RippleState) (low high : A) (v : View A C) :
    Result (View A C) := do
  let v ← dirRemove v low index
  let v ← dirRemove v high index
  return { v with lines := v.lines.erase index, erased := l :: v.erased }

/-! ### Balances -/

/-- The side of a line that is made for its first balance. -/
def freshSide (root : AccountRoot) : Side := ⟨0, 0, 0, false, false, !root.defaultRipple, false, false⟩

def directSendNoFeeIOU (sender receiver : A) (currency : C) (amount : ℚ) (v : View A C) :
    Result (View A C) :=
  let bSenderHigh := decide (receiver < sender)
  let index := line sender receiver currency
  match v.lines.lookup index with
  | some l => do
    let before := l.balanceOf bSenderHigh
    let balance ← (env.minus before amount).elim (.error .throws) .ok
    let own := l.side bSenderHigh
    let clears ← if 0 < before ∧ balance ≤ 0 ∧ own.reserve then
        match v.accounts.lookup sender with
        | none => .error .throws
        | some root => .ok (decide (own.noRipple ≠ root.defaultRipple ∧ own.freeze = false ∧
            own.limit = 0 ∧ own.qualityIn = 0 ∧ own.qualityOut = 0))
      else .ok false
    let v' := if clears then v.adjustOwnerCount sender (-1) else v
    let l' := if clears then l.setSide bSenderHigh { own with reserve := false } else l
    let bDelete := clears && decide (balance = 0) && !(l.side !bSenderHigh).reserve
    let l' := l'.setBalance bSenderHigh balance
    if bDelete then
      trustDelete index l' (if bSenderHigh then receiver else sender)
        (if !bSenderHigh then receiver else sender) v'
    else return v'.putLine index l'
  | none =>
    match v.accounts.lookup receiver with
    | none => .error .tefINTERNAL
    | some root =>
      trustCreate env bSenderHigh sender receiver index receiver (freshSide root) amount v

/-- Whether the line is to be deleted, with what the call has changed. -/
def updateTrustLine (v : View A C) (state : RippleState) (bSenderHigh : Bool) (sender : A)
    (before after : ℚ) : Bool × RippleState × View A C :=
  match v.accounts.lookup sender with
  | none => (false, state, v)
  | some sle =>
    let own := state.side bSenderHigh
    if 0 < before ∧ after ≤ 0 ∧ own.reserve ∧ own.noRipple ≠ sle.defaultRipple ∧ own.freeze = false ∧
        own.limit = 0 ∧ own.qualityIn = 0 ∧ own.qualityOut = 0 then
      (decide (after = 0) && !(state.side !bSenderHigh).reserve,
        state.setSide bSenderHigh { own with reserve := false }, v.adjustOwnerCount sender (-1))
    else (false, state, v)

def issueIOU (account : A) (amount : ℚ) (issuer : A) (currency : C) (v : View A C) :
    Result (View A C) :=
  let bSenderHigh := decide (account < issuer)
  let index := line issuer account currency
  match v.lines.lookup index with
  | some state => do
    let startBalance := state.balanceOf bSenderHigh
    let finalBalance ← (env.minus startBalance amount).elim (.error .throws) .ok
    let (mustDelete, state, v) := updateTrustLine v state bSenderHigh issuer startBalance finalBalance
    let state := state.setBalance bSenderHigh finalBalance
    if mustDelete then
      trustDelete index state (if bSenderHigh then account else issuer)
        (if bSenderHigh then issuer else account) v
    else return v.putLine index state
  | none =>
    match v.accounts.lookup account with
    | none => .error .tefINTERNAL
    | some root =>
      trustCreate env bSenderHigh issuer account index account (freshSide root) amount v

def redeemIOU (account : A) (amount : ℚ) (issuer : A) (currency : C) (v : View A C) :
    Result (View A C) :=
  let bSenderHigh := decide (issuer < account)
  let index := line account issuer currency
  match v.lines.lookup index with
  | some state => do
    let startBalance := state.balanceOf bSenderHigh
    let finalBalance ← (env.minus startBalance amount).elim (.error .throws) .ok
    let (mustDelete, state, v) := updateTrustLine v state bSenderHigh account startBalance finalBalance
    let state := state.setBalance bSenderHigh finalBalance
    if mustDelete then
      trustDelete index state (if bSenderHigh then issuer else account)
        (if bSenderHigh then account else issuer) v
    else return v.putLine index state
  | none => .error .tefINTERNAL

/-! ### TrustSet -/

structure TrustSet (A C : Type) where
  account : A
  dst : A
  currency : C
  limitAmount : ℚ
  qualityIn : Option ℕ
  qualityOut : Option ℕ
  setfAuth : Bool
  setNoRipple : Bool
  clearNoRipple : Bool
  setFreeze : Bool
  clearFreeze : Bool
  setDeepFreeze : Bool
  clearDeepFreeze : Bool

namespace TrustSet

/-- `computeFreezeFlags`, of one pair of flags. -/
def freezeFlag (noFreeze set clear flag : Bool) : Bool :=
  if set && !clear && !noFreeze then true
  else if clear && !set then false
  else flag

variable (tx : TrustSet A C)

def computeFreezeFlags (noFreeze : Bool) (s : Side) : Side :=
  { s with
    freeze := freezeFlag noFreeze tx.setFreeze tx.clearFreeze s.freeze
    deepFreeze := freezeFlag noFreeze tx.setDeepFreeze tx.clearDeepFreeze s.deepFreeze }

def preflight : Result Unit := do
  check (tx.currency ≠ env.badCurrency) .temBAD_CURRENCY
  check (0 ≤ tx.limitAmount) .temBAD_LIMIT

def noSide : Side := ⟨0, 0, 0, false, false, false, false, false⟩

def preclaim (v : View A C) : Result Unit :=
  match v.accounts.lookup tx.account with
  | none => .error .terNO_ACCOUNT
  | some root => do
    check (tx.setfAuth = true → root.requireAuth = true) .tefNO_AUTH_REQUIRED
    check (tx.account ≠ tx.dst) .temDST_IS_SRC
    match v.accounts.lookup tx.dst with
    | none => .error .tecNO_DST
    | some dst => do
      let old := v.lines.lookup (line tx.account tx.dst tx.currency)
      check (dst.disallowIncomingTrustline = true → old.isSome) .tecNO_PERMISSION
      check (env.pseudoRefuses v tx.account tx.dst tx.currency = false) .tecPSEUDO_ACCOUNT
      check (¬(root.noFreeze = true ∧ (tx.setFreeze || tx.setDeepFreeze) = true)) .tecNO_PERMISSION
      check (¬((tx.setFreeze || tx.setDeepFreeze) = true ∧
        (tx.clearFreeze || tx.clearDeepFreeze) = true)) .tecNO_PERMISSION
      let bHigh := decide (tx.dst < tx.account)
      let flags := tx.computeFreezeFlags root.noFreeze (old.elim noSide fun l => l.side bHigh)
      check (flags.deepFreeze = true → flags.freeze = true) .tecNO_PERMISSION

/-- A quality of one is none. -/
def quality (q : ℕ) : ℕ := if q = QUALITY_ONE then 0 else q

/-- `bLowReserveSet` and `bHighReserveSet` -/
def reserveSet (s : Side) (defRipple : Bool) (balance : ℚ) : Bool :=
  quality s.qualityIn ≠ 0 || quality s.qualityOut ≠ 0 || (!s.noRipple) != defRipple || s.freeze ||
    s.limit ≠ 0 || decide (0 < balance)

/-- The owner count of an account whose reserve is set or cleared. -/
def settle (a : A) (set reserved : Bool) (v : View A C) : View A C :=
  if set && !reserved then v.adjustOwnerCount a 1
  else if !set && reserved then v.adjustOwnerCount a (-1)
  else v

/-- The side of the account as the transaction sets it, but for its reserve. -/
def newSide (noFreeze : Bool) (l : RippleState) (bHigh : Bool) : Result Side := do
  let own := l.side bHigh
  let own := { own with
    limit := tx.limitAmount
    qualityIn := tx.qualityIn.getD own.qualityIn
    qualityOut := (tx.qualityOut.map quality).getD own.qualityOut }
  check (tx.setNoRipple = true → tx.clearNoRipple = false → 0 ≤ l.balanceOf bHigh) .tecNO_PERMISSION
  let noRipple :=
    if tx.setNoRipple && !tx.clearNoRipple then true
    else if tx.clearNoRipple && !tx.setNoRipple then false
    else own.noRipple
  return { tx.computeFreezeFlags noFreeze { own with noRipple } with auth := own.auth || tx.setfAuth }

/-- The branch for a line that exists. -/
def modify (preFeeBalance reserveCreate : ℕ) (root dst : AccountRoot) (l : RippleState)
    (v : View A C) : Result (View A C) := do
  let bHigh := decide (tx.dst < tx.account)
  let index := line tx.account tx.dst tx.currency
  let low := if bHigh then tx.dst else tx.account
  let high := if bHigh then tx.account else tx.dst
  let own ← tx.newSide root.noFreeze l bHigh
  let l' := l.setSide bHigh own
  let lowDefRipple := (if bHigh then dst else root).defaultRipple
  let highDefRipple := (if bHigh then root else dst).defaultRipple
  let lowReserveSet := reserveSet l'.low lowDefRipple (l.balanceOf false)
  let highReserveSet := reserveSet l'.high highDefRipple (l.balanceOf true)
  let v := settle low lowReserveSet l.low.reserve v
  let v := settle high highReserveSet l.high.reserve v
  -- a flag that is not changed was right before
  let l' : RippleState := ⟨l.balance, { l'.low with reserve := lowReserveSet },
    { l'.high with reserve := highReserveSet }⟩
  let bReserveIncrease := (l'.side bHigh).reserve && !(l.side bHigh).reserve
  if (!lowReserveSet && !highReserveSet) = true ∨ env.badCurrency = tx.currency then
    trustDelete index l' low high v
  else do
    check (¬(bReserveIncrease = true ∧ preFeeBalance < reserveCreate)) .tecINSUF_RESERVE_LINE
    return v.putLine index l'

def doApply (preFeeBalance : ℕ) (v : View A C) : Result (View A C) :=
  match v.accounts.lookup tx.account with
  | none => .error .tefINTERNAL
  | some root =>
    let reserveCreate := if root.ownerCount < 2 then 0 else env.accountReserve (root.ownerCount + 1)
    match v.accounts.lookup tx.dst with
    | none => .error .tecNO_DST
    | some dst =>
      let index := line tx.account tx.dst tx.currency
      match v.lines.lookup index with
      | some l => tx.modify env preFeeBalance reserveCreate root dst l v
      | none => do
        let uQualityIn := tx.qualityIn.getD 0
        let uQualityOut := (tx.qualityOut.map quality).getD 0
        check (¬(tx.limitAmount = 0 ∧ uQualityIn = 0 ∧ uQualityOut = 0 ∧ tx.setfAuth = false))
          .tecNO_LINE_REDUNDANT
        check (reserveCreate ≤ preFeeBalance) .tecNO_LINE_INSUF_RESERVE
        let mine : Side := ⟨tx.limitAmount, uQualityIn, uQualityOut, false, tx.setfAuth,
          tx.setNoRipple && !tx.clearNoRipple, tx.setFreeze && !tx.clearFreeze, tx.setDeepFreeze⟩
        trustCreate env (decide (tx.dst < tx.account)) tx.account tx.dst index tx.account mine 0 v

def apply (preFeeBalance : ℕ) (v : View A C) : Result (View A C) := do
  tx.preflight env
  tx.preclaim env v
  tx.doApply env preFeeBalance v

end TrustSet

/-! ### Runs -/

inductive Op (A C : Type) where
  | trustSet (tx : TrustSet A C) (preFeeBalance : ℕ)
  | directSend (sender receiver : A) (currency : C) (amount : ℚ)
  | issue (account : A) (amount : ℚ) (issuer : A) (currency : C)
  | redeem (account : A) (amount : ℚ) (issuer : A) (currency : C)
  | setFlags (account : A) (defaultRipple noFreeze : Bool)

def accountSet (account : A) (defaultRipple noFreeze : Bool) (v : View A C) : Result (View A C) :=
  match v.accounts.lookup account with
  | none => .error .terNO_ACCOUNT
  | some root =>
    .ok { v with accounts := v.accounts.insert account { root with defaultRipple, noFreeze } }

def Op.apply : Op A C → View A C → Result (View A C)
  | .trustSet tx preFeeBalance => tx.apply env preFeeBalance
  | .directSend sender receiver currency amount => directSendNoFeeIOU env sender receiver currency amount
  | .issue account amount issuer currency => issueIOU env account amount issuer currency
  | .redeem account amount issuer currency => redeemIOU env account amount issuer currency
  | .setFlags account defaultRipple noFreeze => accountSet account defaultRipple noFreeze

def step (v : View A C) (op : Op A C) : View A C × Result Unit :=
  match op.apply env v with
  | .ok v' => (v', .ok ())
  | .error e => (v, .error e)

end FalconLedger.TrustLines
