import FalconLedger.Lending.Loans
import FalconLedger.Lending.Vaults

/-!
# Applying a lending transaction

The frame of `Transactor.cpp` once more, for the transactions of the lending protocol and of the
vaults: the same stages as in `Tx.Transactor`, around a view that is a `Market`. Of the invariant
checkers, those on drops and the privileges of `ValidVault` are modelled: a transaction that has
updated a vault must be of a type that may do so.
-/

namespace FalconLedger

/-- What became of a lending transaction. -/
structure LendingReceipt where
  ter : TER
  applied : Bool
  deriving DecidableEq

namespace LendingTransactor

variable (G : LendingServices)

/-! ### The transaction types -/

/-- `checkLendingProtocolDependencies`; none of the transactions names a domain. -/
def checkLendingProtocolDependencies (rules : LendingRules) : Bool :=
  rules.singleAssetVault && rules.mptokensV1

/-- Whether the amendment of the transaction's type is enabled, and those `checkExtraFeatures` asks
for. -/
def featureEnabled (rules : LendingRules) : LendingBody → Bool
  | .loanSet _ | .loanDelete _ | .loanManage _ | .loanPay _ _ =>
    rules.lendingProtocol && checkLendingProtocolDependencies rules
  | .loanCollateralDeposit _ _ => rules.lendingCollateral && checkLendingProtocolDependencies rules
  | .vaultClaimCollateral _ _ =>
    rules.lendingPermissionless && rules.lendingCollateral && checkLendingProtocolDependencies rules
  | .vaultDeposit _ _ | .vaultWithdraw _ _ _ | .vaultClawback _ _ _ => rules.singleAssetVault
  | .sharePayment _ _ _ => rules.mptokensV1

/-- `getFlagsMask`: the flags a type refuses. -/
def getFlagsMask : LendingBody → UInt32
  | .loanSet _ => 0x3FFEFFFF
  | .loanManage _ | .loanPay _ _ => 0x3FF8FFFF
  -- the mask of these two refuses the universal flags, and no other
  | .loanCollateralDeposit _ _ | .vaultClaimCollateral _ _ => 0xC0000000
  | .sharePayment _ _ _ => 0x3FFDFFFF
  | _ => 0x3FFFFFFF

/-- The privilege `MustModifyVault` of `transactions.macro`. -/
def mustModifyVault : LendingBody → Bool
  | .loanSet _ | .loanPay _ _ | .vaultDeposit _ _ | .vaultWithdraw _ _ _ | .vaultClawback _ _ _ =>
    true
  | _ => false

/-- The privilege `MayModifyVault`. -/
def mayModifyVault : LendingBody → Bool
  | .loanManage _ => true
  | _ => false

def preflight (rules : LendingRules) (tx : LendingTx) : Except TER Unit :=
  match tx.body with
  | .loanSet f => LoanSet.preflight G rules tx f
  | .loanDelete loanID => LoanDelete.preflight loanID
  | .loanManage loanID => LoanManage.preflight tx loanID
  | .loanCollateralDeposit loanID collateral => LoanCollateralDeposit.preflight loanID collateral
  | .loanPay loanID amount => LoanPay.preflight tx loanID amount
  | .vaultClaimCollateral brokerID amount => VaultClaimCollateral.preflight brokerID amount
  | .vaultDeposit vaultID amount => VaultDeposit.preflight vaultID amount
  | .vaultWithdraw vaultID amount dst => VaultWithdraw.preflight vaultID amount dst
  | .vaultClawback vaultID _ amount => VaultClawback.preflight vaultID amount
  | .sharePayment _ _ amount => failIf (amount = 0) .temBadAmount

def preclaim (m : Market) (tx : LendingTx) : Except TER Unit :=
  match tx.body with
  | .loanSet f => LoanSet.preclaim G m tx f
  | .loanDelete loanID => LoanDelete.preclaim m tx loanID
  | .loanManage loanID => LoanManage.preclaim G m tx loanID
  | .loanCollateralDeposit loanID collateral => LoanCollateralDeposit.preclaim m tx loanID collateral
  | .loanPay loanID amount => LoanPay.preclaim G m tx loanID amount
  | .vaultClaimCollateral brokerID _ => VaultClaimCollateral.preclaim m tx brokerID
  | .vaultDeposit vaultID amount => VaultDeposit.preclaim G m tx vaultID amount
  | .vaultWithdraw vaultID amount dst => VaultWithdraw.preclaim G m tx vaultID amount dst
  | .vaultClawback vaultID holder amount => VaultClawback.preclaim G m tx vaultID holder amount
  -- the checks of a payment that do not depend on its being one of vault shares
  | .sharePayment _ _ _ => .ok ()

/-- `doApply` on the charged view; `preFeeBalance` is the account's balance before that. -/
def doApply (m : Market) (preFeeBalance : Int) (tx : LendingTx) : Except TER LendingApplied :=
  match tx.body with
  | .loanSet f => LoanSet.doApply G m preFeeBalance tx f
  | .loanDelete loanID => LoanDelete.doApply G m loanID
  | .loanManage loanID => LoanManage.doApply G m tx loanID
  | .loanCollateralDeposit loanID collateral => LoanCollateralDeposit.doApply m loanID collateral
  | .loanPay loanID amount => LoanPay.doApply G m tx loanID amount
  | .vaultClaimCollateral brokerID amount => VaultClaimCollateral.doApply m tx brokerID amount
  | .vaultDeposit vaultID amount => VaultDeposit.doApply G m preFeeBalance tx vaultID amount
  | .vaultWithdraw vaultID amount dst => VaultWithdraw.doApply G m preFeeBalance tx vaultID amount dst
  | .vaultClawback vaultID holder amount => VaultClawback.doApply G m tx vaultID holder amount
  | .sharePayment dst shares amount => SharePayment.doApply G m tx dst shares amount

/-! ### Checks before anything is changed -/

def invokePreflight (m : Market) (tx : LendingTx) : Except TER Unit := do
  failIf (!featureEnabled m.rules tx.body) .temDisabled
  refuseIf (G.lendingCheck .preflight0 m tx)
  failIf (tx.flags &&& getFlagsMask tx.body ≠ 0) .temInvalidFlag
  failIf (tx.account = 0) .temBadSrcAccount
  failIf (tx.fee < 0 ∨ kInitialXrp < tx.fee) .temBadFee
  refuseIf (G.lendingCheck .signingKey m tx)
  preflight G m.rules tx
  refuseIf (G.lendingCheck .preflight2 m tx)

/-- A pseudo-account can sign nothing; a loan has a second signature. -/
def checkSign (m : Market) (tx : LendingTx) : Except TER Unit := do
  failIf (m.rules.lendingProtocol ∧ m.isPseudoAccount tx.account) .tefBadAuth
  refuseIf (G.lendingCheck .sign m tx)
  match tx.body with
  | .loanSet f => LoanSet.checkSign G m tx f
  | _ => .ok ()

def invokePreclaim (m : Market) (tx : LendingTx) : Except TER Unit := do
  Transactor.checkSeqProxy m.ledger tx.common
  refuseIf (G.lendingCheck .priorTxAndLastLedger m tx)
  refuseIf (G.lendingCheck .permission m tx)
  checkSign G m tx
  Transactor.checkFee m.ledger tx.common
  preclaim G m tx

/-! ### Invariant checkers -/

/-- The part of `ValidVault::finalize` about the privileges of the transaction's type. -/
def validVault (rules : LendingRules) (tx : LendingTx) (result : TER)
    (updatedVault : Option UInt256) : Bool :=
  !result.isTesSuccess || !rules.singleAssetVault ||
    match updatedVault with
    | none => !mustModifyVault tx.body
    | some _ => mustModifyVault tx.body || mayModifyVault tx.body

def checkInvariants (base : Market) (a : LendingApplied) (tx : LendingTx) (result : TER)
    (fee : Int) : TER :=
  if Invariants.transactionFeeCheck tx.common fee &&
      Invariants.xrpNotCreated base.ledger a.view.ledger tx.common fee &&
      Invariants.xrpBalanceChecks base.ledger a.view.ledger &&
      Invariants.qxrpDropConservation base.ledger a.view.ledger tx.common fee &&
      validVault base.rules tx result a.updatedVault &&
      G.otherLendingInvariants base a.view tx result fee then result
  else Invariants.failInvariantCheck result

/-! ### Putting it together -/

def notApplied (base : Market) (ter : TER) : Market × LendingReceipt :=
  (base, { ter, applied := false })

/-- The view, and its fee split. -/
def committed (view : Market) (fee : Int) : Market :=
  { view with ledger := ApplyContext.destroyXRP G.toHashes view.ledger fee }

def commit (flags : ApplyFlags) (base : Market) (a : LendingApplied) (checked : TER) (fee : Int) :
    Market × LendingReceipt :=
  if checked.isTecClaim || checked.isTesSuccess then
    if fee < 0 then notApplied base .tefException
    else if flags.dryRun then notApplied base checked
    else (committed G a.view fee, { ter := checked, applied := true })
  else notApplied base checked

/-- Start over and charge the fee only. -/
def reset (base : Market) (tx : LendingTx) (fee : Int) : Except TER (Market × Int) := do
  let (s, fee) ← Transactor.reset G.toServices base.ledger tx.common fee
  return ({ base with ledger := s }, fee)

/-- Check the invariants and commit; when they fail, commit the fee only, if that passes. -/
def finish (flags : ApplyFlags) (base : Market) (tx : LendingTx) (a : LendingApplied) (result : TER)
    (fee : Int) : Market × LendingReceipt :=
  let checked := checkInvariants G base a tx result fee
  if checked = .tecInvariantFailed then
    match reset G base tx fee with
    | .error ter => notApplied base ter
    | .ok (view, fee) =>
      commit G flags base { view } (checkInvariants G base { view } tx checked fee) fee
  else commit G flags base a checked fee

/-- Charge the fee only, for a failure that claims one. -/
def claimFee (flags : ApplyFlags) (base : Market) (tx : LendingTx) (result : TER) :
    Market × LendingReceipt :=
  match reset G base tx tx.fee with
  | .error ter => notApplied base ter
  | .ok (view, fee) => finish G flags base tx { view } result fee

/-- Charge the transaction and call its transactor. -/
def apply (m : Market) (tx : LendingTx) : Except TER LendingApplied := do
  let s ← Transactor.charge G.toServices m.ledger tx.common
  doApply G { m with ledger := s } (m.ledger.balanceOf tx.account) tx

/-- The result before anything is charged. -/
def resultOf (m : Market) (tx : LendingTx) : Except TER LendingApplied → TER
  | .error .tefException => .tefException
  | .error e => if G.lendingOversize m tx then .tecOversize else e
  | .ok _ => if G.lendingOversize m tx then .tecOversize else .tesSuccess

/-- `Transactor::operator()`, given what `apply`, or preclaim before it, ended with. -/
def operatorCall (flags : ApplyFlags) (m : Market) (tx : LendingTx)
    (outcome : Except TER LendingApplied) : Market × LendingReceipt :=
  let result := resultOf G m tx outcome
  if result.isTecClaim && flags.failHard then notApplied m result
  -- `tecINCOMPLETE` would be one of these, but no lending transactor ends with it
  else if result = .tecOversize ∨ result = .tecKilled ∨ result = .tecExpired ∨
      (result.isTecClaim && !flags.retry) then
    claimFee G flags m tx result
  else
    match outcome with
    | .ok a => finish G flags m tx a result tx.fee
    | .error _ => notApplied m result

end LendingTransactor

open LendingTransactor

/-- Apply a lending transaction to a ledger under construction. -/
def applyLending (G : LendingServices) (flags : ApplyFlags) (m : Market) (tx : LendingTx) :
    Market × LendingReceipt :=
  match invokePreflight G m tx with
  | .error ter => notApplied m ter
  | .ok () =>
    match invokePreclaim G m tx with
    | .ok () => operatorCall G flags m tx (apply G m tx)
    | .error ter =>
      if ter.isTecClaim && !flags.retry then operatorCall G flags m tx (.error ter)
      else notApplied m ter

end FalconLedger
