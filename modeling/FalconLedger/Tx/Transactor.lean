import FalconLedger.Tx.Claims
import FalconLedger.Tx.Governance
import FalconLedger.Tx.Invariants
import FalconLedger.Tx.Names

/-!
# Applying a transaction

`Transactor.cpp` and the parts of `applySteps.cpp` around it. The ledger is closed, so the minimum
fee of an open ledger is not looked at; `Batch` inner transactions are left out.

`applyTransaction` returns the new ledger and a `Receipt`: the result and, for the statements about
runs, the amounts the transaction moved. All that it can do is `Outcome`: leave the ledger alone,
charge the fee only, or apply the transactor's effect on top of the fee.
-/

namespace FalconLedger

/-- What became of a transaction. -/
structure Receipt where
  ter : TER
  applied : Bool
  /-- The fee charged. -/
  fee : Int := 0
  /-- Drops of the fee that were destroyed. -/
  burned : Int := 0
  /-- Drops of a bond that were destroyed. -/
  slashed : Int := 0
  /-- Drops paid to a claimant out of the treasury. -/
  paid : Int := 0
  /-- The burn share the fee was split at, if it was split. -/
  splitBps : Option UInt32 := none
  deriving DecidableEq

/-- The transaction was applied with success. -/
def Receipt.succeeded (r : Receipt) : Bool := r.applied && decide (r.ter = .tesSuccess)

namespace Transactor

open Invariants

/-! ### The transaction types -/

/-- Whether the amendment of the transaction's type is enabled. -/
def featureEnabled (rules : Rules) : TxBody → Bool
  | .nameSet .. | .nameUnbond .. | .nameRelease .. => rules.accountNames
  | _ => rules.proofOfParticipation

def preflight (rules : Rules) : TxBody → Except TER Unit
  | .validatorRegister pk ck => ValidatorRegister.preflight rules pk ck
  | .validatorBond ck amount => ValidatorBond.preflight rules ck amount
  | .validatorUnbond ck => ValidatorUnbond.preflight rules ck
  | .validatorSlash _ offense e1 e2 => ValidatorSlash.preflight rules offense e1 e2
  | .releaseBond _ => ReleaseBond.preflight rules
  | .claimReward ck => ClaimReward.preflight rules ck
  | .claimLpReward vaultID => ClaimLPReward.preflight rules vaultID
  | .claimAmmLpReward asset asset2 => ClaimAmmLpReward.preflight rules asset asset2
  | .nameSet name => NameSet.preflight rules name
  | .nameUnbond name => NameUnbond.preflight rules name
  | .nameRelease name => NameRelease.preflight rules name
  | .governanceProposal ck type value => GovernanceProposal.preflight rules ck type value
  | .governanceVote ck _ weight => GovernanceVote.preflight rules ck weight

def preclaim (H : Services) (s : Ledger) (tx : STTx) : Except TER Unit :=
  match tx.body with
  | .validatorRegister _ ck => ValidatorRegister.preclaim H s ck
  | .validatorBond ck _ => ValidatorBond.preclaim H s tx ck
  | .validatorUnbond ck => ValidatorUnbond.preclaim H s tx ck
  | .validatorSlash target offense e1 e2 => ValidatorSlash.preclaim H s target offense e1 e2
  | .releaseBond target => ReleaseBond.preclaim s target
  | .claimReward ck => ClaimReward.preclaim H s tx ck
  | .claimLpReward vaultID => ClaimLPReward.preclaim s tx vaultID
  | .claimAmmLpReward asset asset2 => ClaimAmmLpReward.preclaim H s tx asset asset2
  | .nameSet name => NameSet.preclaim H s tx name
  | .nameUnbond name => NameUnbond.preclaim H s tx name
  | .nameRelease name => NameRelease.preclaim H s name
  | .governanceProposal ck _ _ => GovernanceProposal.preclaim H s ck
  | .governanceVote ck proposalID _ => GovernanceVote.preclaim H s tx ck proposalID

def doApply (H : Services) (s : Ledger) (tx : STTx) : Except TER Applied :=
  match tx.body with
  | .validatorRegister pk ck => ValidatorRegister.doApply H s tx pk ck
  | .validatorBond ck amount => ValidatorBond.doApply H s tx ck amount
  | .validatorUnbond ck => ValidatorUnbond.doApply H s tx ck
  | .validatorSlash target offense e1 e2 => ValidatorSlash.doApply H s tx target offense e1 e2
  | .releaseBond target => ReleaseBond.doApply H s target
  | .claimReward ck => ClaimReward.doApply H s tx ck
  | .claimLpReward vaultID => ClaimLPReward.doApply H s tx vaultID
  | .claimAmmLpReward asset asset2 => ClaimAmmLpReward.doApply H s tx asset asset2
  | .nameSet name => NameSet.doApply H s tx name
  | .nameUnbond name => NameUnbond.doApply H s tx name
  | .nameRelease name => NameRelease.doApply H s name
  | .governanceProposal _ type value => GovernanceProposal.doApply H s tx type value
  | .governanceVote ck proposalID weight => GovernanceVote.doApply H s tx ck proposalID weight

/-! ### Checks before anything is changed -/

/-- Run a check outside this model. -/
def external (H : Services) (check : ExternalCheck) (s : Ledger) (tx : STTx) : Except TER Unit :=
  match H.externalCheck check s tx with
  | some code => .error (.notTec code)
  | none => .ok ()

def preflight1 (H : Services) (s : Ledger) (tx : STTx) : Except TER Unit := do
  failIf (tx.delegate.isSome ∧ !s.rules.permissionDelegation) .temDisabled
  failIf (tx.delegate = some tx.account) .temBadSigner
  external H .preflight0 s tx
  failIf (tx.account = 0) .temBadSrcAccount
  failIf (tx.fee < 0 ∨ kInitialXrp < tx.fee) .temBadFee
  external H .signingKey s tx

def invokePreflight (H : Services) (s : Ledger) (tx : STTx) : Except TER Unit := do
  failIf (!featureEnabled s.rules tx.body) .temDisabled
  preflight1 H s tx
  preflight s.rules tx.body
  external H .preflight2 s tx

/-- The transaction is next in its account's order, or its ticket exists. -/
def checkSeqProxy (s : Ledger) (tx : STTx) : Except TER Unit := do
  let root ← orFail (s.accounts.lookup tx.account) .terNoAccount
  match tx.seqProxy with
  | .seq n => do
    failIf (root.sequence < n) .terPreSeq
    failIf (n ≠ root.sequence) .tefPastSeq
  | .ticket n => do
    failIf (root.sequence ≤ n) .terPreTicket
    failIf (s.tickets.lookup (tx.account, n) = none) .tefNoTicket

theorem checkSeqProxy_not_tec {s : Ledger} {tx : STTx} {ter : TER}
    (h : checkSeqProxy s tx = .error ter) : ter.isTecClaim = false := by
  unfold checkSeqProxy at h
  cases hroot : s.accounts.lookup tx.account with
  | none =>
    rw [hroot] at h
    cases h
    rfl
  | some root =>
    simp only [hroot, orFail, failIf, bind, Except.bind] at h
    split at h <;> split_ifs at h <;> cases h <;> rfl

/-- The fee is legal and its payer can pay it. -/
def checkFee (s : Ledger) (tx : STTx) : Except TER Unit := do
  failIf (kInitialXrp < tx.fee ∨ tx.fee < 0) .temBadFee
  if tx.fee = 0 then return ()
  else
    let payer ← orFail (s.accounts.lookup tx.getFeePayer) .terNoAccount
    failIf (payer.balance < tx.fee ∧ 0 < payer.balance) .tecInsuffFee
    failIf (payer.balance < tx.fee) .terInsufFeeB

def invokePreclaim (H : Services) (s : Ledger) (tx : STTx) : Except TER Unit := do
  checkSeqProxy s tx
  external H .priorTxAndLastLedger s tx
  external H .permission s tx
  external H .sign s tx
  checkFee s tx
  preclaim H s tx

/-! ### Charging -/

def ticketDelete (H : Services) (s : Ledger) (account : AccountID) (ticket : UInt32) :
    Except TER Ledger := do
  let entry ← orFail (s.tickets.lookup (account, ticket)) .tefBadLedger
  let key := H.ticketKey account ticket
  let s ← orFail (← s.dirRemove account entry.ownerNode key true) .tefBadLedger
  let root ← orFail (s.accounts.lookup account) .tefBadLedger
  let count ← orFail root.ticketCount .tefBadLedger
  let s := s.setAccount account
    { root with
      -- the count goes with the last ticket
      ticketCount := if count = 1 then none else some (count - 1)
      ownerCount := if root.ownerCount = 0 then 0 else root.ownerCount - 1 }
  return { s with tickets := s.tickets.erase (account, ticket) }

def consumeSeqProxy (H : Services) (s : Ledger) (tx : STTx) : Except TER Ledger :=
  match tx.seqProxy with
  | .seq n => do
    let root ← orFail (s.accounts.lookup tx.account) .tefInternal
    return s.setAccount tx.account { root with sequence := n + 1 }
  | .ticket n => ticketDelete H s tx.account n

def payFee (s : Ledger) (tx : STTx) : Except TER Ledger := do
  let payer ← orFail (s.accounts.lookup tx.getFeePayer) .tefInternal
  return s.setAccount tx.getFeePayer { payer with balance := payer.balance - tx.fee }

/-- The id of the last transaction, on the accounts that keep it. -/
def setAccountTxnID (s : Ledger) (tx : STTx) : Ledger :=
  match s.accounts.lookup tx.account with
  | some root =>
    if root.accountTxnID.isSome then
      s.setAccount tx.account { root with accountTxnID := some tx.transactionID }
    else s
  | none => s

/-- What `apply` does before it calls the transactor. -/
def charge (H : Services) (s : Ledger) (tx : STTx) : Except TER Ledger :=
  -- preclaim has found the account, so that this branch is never taken
  if s.accounts.lookup tx.account = none then .ok s
  else do
    let s ← consumeSeqProxy H s tx
    let s ← payFee s tx
    return setAccountTxnID s tx

def apply (H : Services) (s : Ledger) (tx : STTx) : Except TER Applied := do
  doApply H (← charge H s tx) tx

/-- Start over and charge the fee only, or what the payer has of it. Returns the view and the
fee charged. -/
def reset (H : Services) (s : Ledger) (tx : STTx) (fee : Int) : Except TER (Ledger × Int) := do
  failIf (s.accounts.lookup tx.account = none) .tefInternal
  let payer ← orFail (s.accounts.lookup tx.getFeePayer) .tefInternal
  let fee := if payer.balance < fee then payer.balance else fee
  let s := s.setAccount tx.getFeePayer { payer with balance := payer.balance - fee }
  return (← consumeSeqProxy H s tx, fee)

/-! ### Putting it together -/

def notApplied (base : Ledger) (ter : TER) : Ledger × Receipt := (base, { ter, applied := false })

/-- The receipt of a transaction that went into the ledger. -/
def receipt (H : Services) (a : Applied) (result : TER) (fee : Int) : Receipt where
  ter := result
  applied := true
  fee := fee
  burned := ApplyContext.feeBurned H.toHashes a.view fee
  slashed := a.slashed
  paid := a.paid
  splitBps := if 0 < fee then some (ApplyContext.burnBps a.view) else none

/-- Split the fee and apply the view. A negative fee is a `logic_error`. -/
def commit (H : Services) (flags : ApplyFlags) (base : Ledger) (a : Applied) (result : TER)
    (fee : Int) : Ledger × Receipt :=
  if fee < 0 then notApplied base .tefException
  else if flags.dryRun then notApplied base result
  else (ApplyContext.destroyXRP H.toHashes a.view fee, receipt H a result fee)

/-- Commit what the checkers let through. -/
def commitChecked (H : Services) (flags : ApplyFlags) (base : Ledger) (a : Applied) (checked : TER)
    (fee : Int) : Ledger × Receipt :=
  if checked.isTecClaim || checked.isTesSuccess then commit H flags base a checked fee
  else notApplied base checked

/-- Check the invariants and commit; when they fail, commit the fee only, if that passes. -/
def finish (H : Services) (flags : ApplyFlags) (base : Ledger) (tx : STTx) (a : Applied)
    (result : TER) (fee : Int) : Ledger × Receipt :=
  let checked := checkInvariants H base a.view tx result fee
  if checked = .tecInvariantFailed then
    -- what the transactor did is dropped, and the checkers see the fee-only view
    match reset H base tx fee with
    | .error ter => notApplied base ter
    | .ok (view, fee) =>
      commitChecked H flags base { view } (checkInvariants H base view tx checked fee) fee
  else commitChecked H flags base a checked fee

/-- Charge the fee only, for a failure that claims one. -/
def claimFee (H : Services) (flags : ApplyFlags) (base : Ledger) (tx : STTx) (result : TER) :
    Ledger × Receipt :=
  match reset H base tx tx.fee with
  | .error ter => notApplied base ter
  | .ok (view, fee) => finish H flags base tx { view } result fee

/-- The result before anything is charged. Too much metadata overrides every result but an
exception. -/
def resultOf (H : Services) (s : Ledger) (tx : STTx) : Except TER Applied → TER
  | .error .tefException => .tefException
  | .error e => if H.oversize s tx then .tecOversize else e
  | .ok _ => if H.oversize s tx then .tecOversize else .tesSuccess

/-- Act on the result: discard it, claim the fee, or finish what `apply` did. -/
def conclude (H : Services) (flags : ApplyFlags) (s : Ledger) (tx : STTx)
    (outcome : Except TER Applied) (result : TER) : Ledger × Receipt :=
  if result.isTecClaim && flags.failHard then notApplied s result
  -- these claim the fee on a retry too, and so do `tecKILLED` and `tecINCOMPLETE`, which nothing
  -- here ends with
  else if result = .tecOversize ∨ result = .tecExpired ∨ (result.isTecClaim && !flags.retry) then
    claimFee H flags s tx result
  else
    match outcome with
    | .ok a => finish H flags s tx a result tx.fee
    | .error _ => notApplied s result

/-- `Transactor::operator()`, given what `apply`, or preclaim before it, ended with. -/
def operatorCall (H : Services) (flags : ApplyFlags) (s : Ledger) (tx : STTx)
    (outcome : Except TER Applied) : Ledger × Receipt :=
  conclude H flags s tx outcome (resultOf H s tx outcome)

end Transactor

open Transactor

/-- Apply a transaction to a ledger under construction. A failed preclaim goes on only if it is
likely to claim a fee. -/
def applyTransaction (H : Services) (flags : ApplyFlags) (s : Ledger) (tx : STTx) :
    Ledger × Receipt :=
  match invokePreflight H s tx with
  | .error ter => notApplied s ter
  | .ok () =>
    match invokePreclaim H s tx with
    | .ok () => operatorCall H flags s tx (apply H s tx)
    | .error ter =>
      if ter.isTecClaim && !flags.retry then operatorCall H flags s tx (.error ter)
      else notApplied s ter

end FalconLedger
