import FalconLedger.Tx.Tickets

/-!
# Accounts come and go

`AccountDelete`, the part of `Payment` that makes an account, and the frame of `Transactor.cpp` around
these, `TicketCreate` and any other type. An account that is made starts at the sequence number of the
ledger, and one can be deleted only when the ledger has left its own sequence number behind.
-/

namespace FalconLedger

/-- Checks of the transactors that are not modelled. -/
inductive AccountCheck
  /-- The common preflight and preclaim, and the preflight of the type. -/
  | preflight
  | priorTxAndLastLedger
  | permission
  | sign
  /-- Flags, tags, preauthorization and credentials of the destination. -/
  | destination
  /-- Tokens minted or owned. -/
  | nfts
  /-- The sequence numbers of tokens. -/
  | nftSequence
  /-- The objects in the owner directory: how many there are, and that they can be deleted. -/
  | ownedObjects
  /-- `verifyDepositPreauth`. -/
  | depositPreauth
  /-- Preclaim of any other type. -/
  | preclaim
  deriving DecidableEq

/-- The code these transactors call that is not modelled. -/
structure AccountServices extends Services where
  fees : Reserves
  accountCheck : AccountCheck → Ledger → AccountTx → Except TER Unit
  /-- What a payment moves, once its destination exists. -/
  pay : Ledger → AccountTx → Except TER Ledger
  /-- The deleters of `AccountDelete` for objects that are no tickets. -/
  deleteObject : Ledger → AccountID → UInt256 → Except TER Ledger
  /-- After a reset: offers, lines and credentials the transactor has found to be of no use are
  removed. -/
  removeExpired : Ledger → AccountTx → TER → Ledger
  /-- The transactors of the other types; those that make or delete the accounts of pools and vaults,
  which sign nothing, are not among them. -/
  otherDoApply : Ledger → AccountTx → Except TER Ledger
  /-- The invariant checkers. -/
  accountInvariants : Ledger → Ledger → AccountTx → TER → Int → TER
  accountOversize : Ledger → AccountTx → Bool

namespace Ledger

/-- Remove the directory if it is empty, and tell whether it was. -/
def emptyDirDelete (s : Ledger) (owner : AccountID) : Except TER (Bool × Ledger) :=
  match s.dirs.lookup (owner, 0) with
  | none => .ok (false, s)
  | some root =>
    if root.indexes ≠ [] then .ok (false, s)
    else do
      failIf (root.indexNext = 0 ∧ root.indexPrevious ≠ 0) .tefException
      failIf (root.indexPrevious = 0 ∧ root.indexNext ≠ 0) .tefException
      let (s, root) ← s.dirDropOnlyPage owner root
      if root.indexNext = root.indexPrevious ∧ root.indexNext ≠ 0 then return (false, s)
      else if root.indexNext = 0 ∧ root.indexPrevious = 0 then
        return (true, s.erasePage owner 0)
      else return (true, s)

/-- The entries of an owner directory. -/
def ownedEntries (s : Ledger) (owner : AccountID) : List UInt256 :=
  s.dirs.entries.flatMap fun e => if e.1.1 = owner then e.2.indexes else []

end Ledger

namespace AccountDelete

def kSeqDelta : UInt32 := 255

variable (G : AccountServices)

def preflight (tx : AccountTx) (destination : AccountID) : Except TER Unit :=
  failIf (tx.account = destination) .temDstIsSrc

def preclaim (s : Ledger) (tx : AccountTx) (destination : AccountID) : Except TER Unit := do
  failIf (s.accounts.lookup destination = none) .tecNoDst
  G.accountCheck .destination s tx
  let root ← orFail (s.accounts.lookup tx.account) .terNoAccount
  G.accountCheck .nfts s tx
  failIf (s.seq < root.sequence + kSeqDelta) .tecTooSoon
  G.accountCheck .nftSequence s tx
  G.accountCheck .ownedObjects s tx

/-- The number of the account's ticket with this key. -/
def ticketAt (s : Ledger) (account : AccountID) (entry : UInt256) : Option UInt32 :=
  (s.tickets.keys.find? fun k => k.1 = account && G.ticketKey k.1 k.2 == entry).map Prod.snd

/-- Delete an object the account owns. -/
def deleteEntry (s : Ledger) (account : AccountID) (entry : UInt256) : Except TER Ledger :=
  match ticketAt G s account entry with
  | some ticket => Transactor.ticketDelete G.toServices s account ticket
  | none => G.deleteObject s account entry

/-- `cleanupOnAccountDelete`. The loop visits all pages of the directory, and each entry it comes to is
gone when it goes on. -/
def cleanup (account : AccountID) : List UInt256 → Ledger → Except TER Ledger
  | [], s => .ok s
  | entry :: rest, s => do
    let s ← deleteEntry G s account entry
    cleanup account rest s

/-- The drops left go to the destination. -/
def transferRest (s : Ledger) (account destination : AccountID) : Except TER Ledger := do
  let src ← orFail (s.accounts.lookup account) .tefBadLedger
  let dst ← orFail (s.accounts.lookup destination) .tefBadLedger
  return (s.setAccount destination { dst with balance := dst.balance + src.balance }).setAccount
    account { src with balance := 0 }

def doApply (s : Ledger) (tx : AccountTx) (destination : AccountID) : Except TER Ledger := do
  let _ ← orFail (s.accounts.lookup tx.account) .tefBadLedger
  let _ ← orFail (s.accounts.lookup destination) .tefBadLedger
  G.accountCheck .depositPreauth s tx
  let s ← cleanup G tx.account (s.ownedEntries tx.account) s
  let s ← transferRest s tx.account destination
  let (emptied, s') ← s.emptyDirDelete tx.account
  failIf ((s.dirs.lookup (tx.account, 0)).isSome ∧ !emptied) .tecHasObligations
  return { s' with accounts := s'.accounts.erase tx.account }

end AccountDelete

namespace Payment

variable (G : AccountServices)

/-- The checks on a destination that does not exist; the others are one parameter. -/
def preclaim (s : Ledger) (tx : AccountTx) (destination : AccountID) (amount : Option Int) :
    Except TER Unit := do
  checkWhen (s.accounts.lookup destination = none) do
    let drops ← orFail amount .tecNoDst
    failIf (drops < G.fees.reserve) .tecNoDstInsufXrp
  G.accountCheck .destination s tx

/-- A new account, at the sequence number of the ledger. -/
def newAccount (s : Ledger) : AccountRoot where
  balance := 0
  sequence := s.seq
  ownerCount := 0
  ticketCount := none
  accountTxnID := none
  accountName := none
  globalFreeze := false

def createDestination (s : Ledger) (destination : AccountID) : Ledger :=
  match s.accounts.lookup destination with
  | some _ => s
  | none => s.setAccount destination (newAccount s)

def doApply (s : Ledger) (tx : AccountTx) (destination : AccountID) : Except TER Ledger :=
  G.pay (createDestination s destination) tx

end Payment

namespace AccountTransactor

variable (G : AccountServices)

def preflight (tx : AccountTx) : Except TER Unit :=
  match tx.body with
  | .ticketCreate ticketCount => TicketCreate.preflight ticketCount
  | .accountDelete destination => AccountDelete.preflight tx destination
  | .payment _ _ | .other _ => .ok ()

def preclaim (s : Ledger) (tx : AccountTx) : Except TER Unit :=
  match tx.body with
  | .ticketCreate ticketCount => TicketCreate.preclaim s tx ticketCount
  | .accountDelete destination => AccountDelete.preclaim G s tx destination
  | .payment destination amount => Payment.preclaim G s tx destination amount
  | .other _ => G.accountCheck .preclaim s tx

/-- `doApply` on the charged ledger. -/
def doApply (s : Ledger) (preFeeBalance : Int) (tx : AccountTx) : Except TER Ledger :=
  match tx.body with
  | .ticketCreate ticketCount =>
    TicketCreate.doApply G.toServices G.fees s preFeeBalance tx ticketCount
  | .accountDelete destination => AccountDelete.doApply G s tx destination
  | .payment destination _ => Payment.doApply G s tx destination
  | .other _ => G.otherDoApply s tx

def invokePreflight (s : Ledger) (tx : AccountTx) : Except TER Unit := do
  G.accountCheck .preflight s tx
  preflight tx

def invokePreclaim (s : Ledger) (tx : AccountTx) : Except TER Unit := do
  Transactor.checkSeqProxy s tx.common
  G.accountCheck .priorTxAndLastLedger s tx
  G.accountCheck .permission s tx
  G.accountCheck .sign s tx
  Transactor.checkFee s tx.common
  preclaim G s tx

/-- Charge the transaction and call its transactor. -/
def apply (s : Ledger) (tx : AccountTx) : Except TER Ledger := do
  let charged ← Transactor.charge G.toServices s tx.common
  doApply G charged (s.balanceOf tx.account) tx

def notApplied (base : Ledger) (ter : TER) : Ledger × Receipt := (base, { ter, applied := false })

/-- Commit a view the checkers let through, and split its fee. -/
def commit (flags : ApplyFlags) (base view : Ledger) (checked : TER) (fee : Int) :
    Ledger × Receipt :=
  if checked.isTecClaim || checked.isTesSuccess then
    if fee < 0 then notApplied base .tefException
    else if flags.dryRun then notApplied base checked
    else (ApplyContext.destroyXRP G.toHashes view fee, { ter := checked, applied := true, fee })
  else notApplied base checked

/-- Check the invariants and commit; when they fail, commit the fee only, if that passes. -/
def finish (flags : ApplyFlags) (base view : Ledger) (tx : AccountTx) (result : TER) (fee : Int) :
    Ledger × Receipt :=
  let checked := G.accountInvariants base view tx result fee
  if checked = .tecInvariantFailed then
    match Transactor.reset G.toServices base tx.common fee with
    | .error ter => notApplied base ter
    | .ok (view, fee) =>
      commit G flags base view (G.accountInvariants base view tx checked fee) fee
  else commit G flags base view checked fee

/-- Charge the fee only, for a failure that claims one. -/
def claimFee (flags : ApplyFlags) (base : Ledger) (tx : AccountTx) (result : TER) :
    Ledger × Receipt :=
  match Transactor.reset G.toServices base tx.common tx.fee with
  | .error ter => notApplied base ter
  | .ok (view, fee) => finish G flags base (G.removeExpired view tx result) tx result fee

/-- The result before anything is charged. -/
def resultOf (s : Ledger) (tx : AccountTx) : Except TER Ledger → TER
  | .error .tefException => .tefException
  | .error e => if G.accountOversize s tx then .tecOversize else e
  | .ok _ => if G.accountOversize s tx then .tecOversize else .tesSuccess

/-- `Transactor::operator()`, given what `apply`, or preclaim before it, ended with. -/
def operatorCall (flags : ApplyFlags) (s : Ledger) (tx : AccountTx) (outcome : Except TER Ledger) :
    Ledger × Receipt :=
  let result := resultOf G s tx outcome
  if result.isTecClaim && flags.failHard then notApplied s result
  -- `tecINCOMPLETE`, with which the deletion of an AMM stops, is no result of these
  else if result = .tecOversize ∨ result = .tecKilled ∨ result = .tecExpired ∨
      (result.isTecClaim && !flags.retry) then
    claimFee G flags s tx result
  else
    match outcome with
    | .ok view => finish G flags s view tx result tx.fee
    | .error _ => notApplied s result

end AccountTransactor

open AccountTransactor

/-- Apply a transaction to a ledger under construction. -/
def applyAccountTx (G : AccountServices) (flags : ApplyFlags) (s : Ledger) (tx : AccountTx) :
    Ledger × Receipt :=
  match invokePreflight G s tx with
  | .error ter => notApplied s ter
  | .ok () =>
    match invokePreclaim G s tx with
    | .ok () => operatorCall G flags s tx (apply G s tx)
    | .error ter =>
      if ter.isTecClaim && !flags.retry then operatorCall G flags s tx (.error ter)
      else notApplied s ter

/-! ### Ledger after ledger -/

inductive AccountStep
  /-- The ledger closes, and one with this sequence number begins. -/
  | close (seq : UInt32)
  | tx (flags : ApplyFlags) (tx : AccountTx)

/-- The receipt is that of a transaction. -/
def accountStep (G : AccountServices) (s : Ledger) : AccountStep → Ledger × Option Receipt
  | .close seq => ({ s with seq }, none)
  | .tx flags tx => ((applyAccountTx G flags s tx).1, some (applyAccountTx G flags s tx).2)

/-- The transaction, if the step applies one. -/
def appliedTx (G : AccountServices) (s : Ledger) : AccountStep → Option AccountTx
  | .close _ => none
  | .tx flags tx => if (applyAccountTx G flags s tx).2.applied then some tx else none

end FalconLedger
