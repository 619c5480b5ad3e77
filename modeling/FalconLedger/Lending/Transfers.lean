import FalconLedger.Lending.Services
import FalconLedger.Tx.Outcome

/-!
# Moving drops, assets and shares

What the lending code uses of `TokenHelpers.cpp`, `MPTokenHelpers.cpp` and `AccountRootHelpers.cpp`:
transfers of drops, of the asset of a vault and of its shares, and the tokens that hold shares.

Of the asset of a vault only the native case is modelled, which moves balances; every other asset
goes through the services, and no balance moves (`Moved`).
-/

namespace FalconLedger

/-- `confineOwnerCount` for one entry more. -/
def incrOwnerCount (count : UInt32) : UInt32 :=
  if count + 1 < count then 0xFFFFFFFF else count + 1

/-- `confineOwnerCount` for one entry less. -/
def decrOwnerCount (count : UInt32) : UInt32 := if count < count - 1 then 0 else count - 1

/-- `kMAX_MP_TOKEN_AMOUNT`. -/
def kMaxMPTokenAmount : Nat := 0x7FFFFFFFFFFFFFFF

namespace Ledger

/-- `adjustOwnerCount` on an account root. -/
def adjustOwnerCount (s : Ledger) (id : AccountID) (f : UInt32 → UInt32) : Ledger :=
  match s.accounts.lookup id with
  | some root => s.setAccount id { root with ownerCount := f root.ownerCount }
  | none => s

/-- The ledger after an asset has moved. -/
def withAssets (s : Ledger) (e : AssetEffect) : Ledger :=
  { s with
    holdings := e.holdings
    dirs := e.dirs
    accounts := s.accounts.mapValues fun id root =>
      { root with ownerCount := e.ownerCount id root.ownerCount } }

def transferXRP (s : Ledger) (source destination : AccountID) (amount : Int) :
    Except TER Ledger := do
  let sender ← orFail (s.accounts.lookup source) .tefInternal
  let _ ← orFail (s.accounts.lookup destination) .tefInternal
  failIf (sender.balance < amount) .tecFailedProcessing
  let s := s.setAccount source { sender with balance := sender.balance - amount }
  let receiver ← orFail (s.accounts.lookup destination) .tefInternal
  return s.setAccount destination { receiver with balance := receiver.balance + amount }

/-- Add drops to an account, if there is one. -/
def credit (s : Ledger) (id : AccountID) (amount : Int) : Ledger :=
  match s.accounts.lookup id with
  | some root => s.setAccount id { root with balance := root.balance + amount }
  | none => s

/-- Take drops from an account, if there is one. -/
def debit (s : Ledger) (id : AccountID) (amount : Int) : Except TER Ledger :=
  match s.accounts.lookup id with
  | some root => do
    failIf (root.balance < amount) .tecFailedProcessing
    return s.setAccount id { root with balance := root.balance - amount }
  | none => .ok s

/-- `accountSendIOU`, for drops. -/
def accountSendXRP (s : Ledger) (sender receiver : AccountID) (amount : Int) :
    Except TER Ledger := do
  failIf (amount < 0) .tecInternal
  if amount = 0 ∨ sender = receiver then return s
  else return (← s.debit sender amount).credit receiver amount

/-- The loop of `accountSendMultiIOU`, for drops: what is to be taken from the sender is summed up
on the way. -/
def creditMulti (s : Ledger) (sender : AccountID) :
    List (AccountID × Int) → Int → Except TER (Ledger × Int)
  | [], taken => .ok (s, taken)
  | (receiver, amount) :: rest, taken => do
    failIf (amount < 0) .tecInternal
    if amount = 0 ∨ sender = receiver ∨ s.accounts.lookup receiver = none then
      creditMulti s sender rest taken
    else creditMulti (s.credit receiver amount) sender rest (taken + amount)

/-- `accountSendMultiIOU`, for drops. -/
def accountSendMultiXRP (s : Ledger) (sender : AccountID) (receivers : List (AccountID × Int)) :
    Except TER Ledger := do
  let (s, taken) ← s.creditMulti sender receivers 0
  s.debit sender taken

end Ledger

namespace Market

/-! ### Drops and assets -/

def transferXRP (m : Market) (source destination : AccountID) (amount : Int) :
    Except TER Market := do
  return { m with ledger := ← m.ledger.transferXRP source destination amount }

def adjustOwnerCount (m : Market) (id : AccountID) (f : UInt32 → UInt32) : Market :=
  { m with ledger := m.ledger.adjustOwnerCount id f }

/-- `dirLink`: the page the entry has been put on. -/
def dirLink (m : Market) (owner : AccountID) (key : UInt256) : Except TER (UInt64 × Market) := do
  let (page, s) ← orFail (← m.ledger.dirInsert owner key) .tecDirFull
  return (page, { m with ledger := s })

variable (G : LendingServices)

/-- `accountHolds(...) < amount`, of an asset that is no vault share. -/
def holdsLess (m : Market) (account : AccountID) (amount : STAmount) : Except TER Bool := do
  match amount with
  | .native drops => return m.xrpLiquid account < drops
  | amount =>
    return Number.lt (G.accountHolds m account amount.asset) (← number (amount.toNumber m.env))

/-- `accountSend` of an asset that is no vault share. -/
def accountSend (m : Market) (sender receiver : AccountID) (amount : STAmount) :
    Except TER Market := do
  match amount with
  | .native drops => return { m with ledger := ← m.ledger.accountSendXRP sender receiver drops }
  | amount =>
    let e ← G.accountSend m sender receiver amount
    return { m with ledger := m.ledger.withAssets e }

/-- `accountSendMulti` of an asset that is no vault share. -/
def accountSendMulti (m : Market) (sender : AccountID) (asset : Asset)
    (receivers : List (AccountID × Number)) : Except TER Market := do
  if asset.native then
    let receivers ← receivers.mapM fun r => do return (r.1, ← number (r.2.toRep m.env))
    return { m with ledger := ← m.ledger.accountSendMultiXRP sender receivers }
  else
    let e ← G.accountSendMulti m sender asset receivers
    return { m with ledger := m.ledger.withAssets e }

/-- `addEmptyHolding`, whose callers take a holding that is already there for success. -/
def addEmptyHolding (m : Market) (account : AccountID) (priorBalance : Int) (asset : Asset) :
    Except TER Market :=
  if asset.native then .ok m
  else
    match G.addEmptyHolding m account priorBalance asset with
    | .ok e => .ok { m with ledger := m.ledger.withAssets e }
    | .error .tecDuplicate => .ok m
    | .error ter => .error ter

/-! ### Shares -/

/-- The sender's side of `directSendNoFeeMPT`: the issuer's shares come into being. -/
def takeShares (m : Market) (issuance : ShareIssuance) (sender : AccountID) (shares : MPTID)
    (amount : Nat) : Except TER Market := do
  if sender = issuance.issuer then
    failIf (m.rules.mptokensV2 ∧
      (issuance.maximumAmount.getD kMaxMPTokenAmount < amount ∨
        0xFFFFFFFFFFFFFFFF - amount < issuance.outstandingAmount)) .tecPathDry
    return { m with
      issuances := m.issuances.insert shares
        { issuance with outstandingAmount := issuance.outstandingAmount + amount } }
  else
    let token ← orFail (m.tokens.lookup (shares, sender)) .tecNoAuth
    failIf (token.amount < amount) .tecInsufficientFunds
    return m.setToken shares sender { token with amount := token.amount - amount }

/-- The receiver's side: the issuer's shares cease to exist. -/
def giveShares (m : Market) (issuance : ShareIssuance) (receiver : AccountID) (shares : MPTID)
    (amount : Nat) : Except TER Market := do
  if receiver = issuance.issuer then
    failIf (issuance.outstandingAmount < amount) .tecInternal
    return { m with
      issuances := m.issuances.insert shares
        { issuance with outstandingAmount := issuance.outstandingAmount - amount } }
  else
    let token ← orFail (m.tokens.lookup (shares, receiver)) .tecNoAuth
    return m.setToken shares receiver { token with amount := token.amount + amount }

def directSendNoFeeMPT (m : Market) (sender receiver : AccountID) (shares : MPTID) (amount : Nat) :
    Except TER Market := do
  let issuance ← orFail (m.issuances.lookup shares) .tecObjectNotFound
  (← m.takeShares issuance sender shares amount).giveShares issuance receiver shares amount

/-- `accountSendMPT`. Vault shares have no transfer fee. -/
def accountSendMPT (m : Market) (sender receiver : AccountID) (shares : MPTID) (amount : Nat) :
    Except TER Market := do
  if amount = 0 ∨ sender = receiver then return m
  else
    let issuance ← orFail (m.issuances.lookup shares) .tecObjectNotFound
    if sender = issuance.issuer ∨ receiver = issuance.issuer then
      let most := issuance.maximumAmount.getD kMaxMPTokenAmount
      failIf (sender = issuance.issuer ∧
        (most < amount ∨ most - amount < issuance.outstandingAmount)) .tecPathDry
      m.directSendNoFeeMPT sender receiver shares amount
    else
      -- between two holders: by way of the issuer
      let m ← m.directSendNoFeeMPT issuance.issuer receiver shares amount
      m.directSendNoFeeMPT sender issuance.issuer shares amount

/-- `authorizeMPToken`, called for a holder who gets a token. -/
def createMPToken (m : Market) (priorBalance : Int) (shares : MPTID) (account : AccountID) :
    Except TER Market := do
  let root ← orFail (m.ledger.accounts.lookup account) .tecInternal
  failIf (priorBalance <
    if root.ownerCount < 2 then 0 else m.accountReserve (root.ownerCount + 1))
    .tecInsufficientReserve
  failIf (m.rules.lendingProtocol ∧
    (m.issuances.lookup shares).all fun i => i.issuer == account) .tecInternal
  let (page, m) ← m.dirLink account (G.mptokenKey shares account)
  failIf (m.tokens.lookup (shares, account)).isSome .tefException
  let m := m.setToken shares account
    { amount := 0, lockedAmount := 0, authorized := false, ownerNode := page,
      liquidationDebt := none }
  return m.adjustOwnerCount account incrOwnerCount

/-- `authorizeMPToken`, called for a holder who gives a token up. -/
def deleteMPToken (m : Market) (shares : MPTID) (account : AccountID) : Except TER Market := do
  let _ ← orFail (m.ledger.accounts.lookup account) .tecInternal
  let token ← orFail (m.tokens.lookup (shares, account)) .tecInternal
  failIf (token.amount ≠ 0 ∨ (m.rules.fixSecurity3_1_3 ∧ token.lockedAmount ≠ 0)) .tecInternal
  let s ← orFail
    (← m.ledger.dirRemove account token.ownerNode (G.mptokenKey shares account) false) .tecInternal
  let m := { m with ledger := s }.adjustOwnerCount account decrOwnerCount
  return { m with tokens := m.tokens.erase (shares, account) }

/-- `authorizeMPToken`, called for the issuer. -/
def authorizeHolder (m : Market) (shares : MPTID) (issuer holder : AccountID) :
    Except TER Market := do
  let _ ← orFail (m.ledger.accounts.lookup issuer) .tecInternal
  let issuance ← orFail (m.issuances.lookup shares) .tecInternal
  failIf (issuer ≠ issuance.issuer) .tecInternal
  let token ← orFail (m.tokens.lookup (shares, holder)) .tecInternal
  return m.setToken shares holder { token with authorized := true }

/-- `removeEmptyHolding` for vault shares; its callers take a holding that is not empty for
success. -/
def removeEmptyHolding (m : Market) (shares : MPTID) (account : AccountID) : Except TER Market :=
  match m.tokens.lookup (shares, account) with
  | none =>
    if (m.issuances.lookup shares).any fun i => i.issuer == account then .ok m
    else .error .tecObjectNotFound
  | some token =>
    if token.amount ≠ 0 ∨ (m.rules.fixSecurity3_1_3 ∧ token.lockedAmount ≠ 0) then .ok m
    else m.deleteMPToken G shares account

def enforceMPTokenAuthorization (m : Market) (shares : MPTID) (account : AccountID)
    (priorBalance : Int) : Except TER Market := do
  let issuance ← orFail (m.issuances.lookup shares) .tefInternal
  failIf (account = issuance.issuer) .tefInternal
  match issuance.domainID, m.tokens.lookup (shares, account) with
  | some domain, token =>
    match G.verifyValidDomain m domain account with
    | .ok () => if token.isSome then return m else m.createMPToken G priorBalance shares account
    | .error ter => throw (if ter = .tecExpired then .tecExpired else .tecNoAuth)
  | none, some token => if token.authorized then return m else throw .tecNoAuth
  | none, none => throw .tecNoAuth

end Market

end FalconLedger
