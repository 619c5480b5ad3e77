import FalconLedger.Lending.LoanManage

/-!
# Loans

The transactors `LoanSet`, `LoanPay`, `LoanDelete` and `LoanCollateralDeposit`, and
`VaultClaimCollateral`, which pays a share holder out of forfeited collateral. A borrower's collateral
is held by the broker's pseudo-account, from the loan or a later deposit until the last payment gives
it back.
-/

namespace FalconLedger

def tfLoanOverpayment : UInt32 := 0x00010000

def tfLoanFullPayment : UInt32 := 0x00020000

def tfLoanLatePayment : UInt32 := 0x00040000

variable (G : LendingServices) (m : Market)

namespace LoanSet

def kMinPaymentInterval : UInt32 := 60

def kDefaultPaymentInterval : UInt32 := 60

def kDefaultPaymentTotal : UInt32 := 1

def kDefaultGracePeriod : UInt32 := 60

/-- The greatest rate and fee, in tenths of a basis point. -/
def kMaxRate : UInt32 := 100000

def kMaxDataPayloadLength : Nat := 256

/-- `getValueFields`: the amounts of the vault's asset in the transaction. -/
def valueFields (tx : LoanSetFields) : List Number :=
  tx.principalRequested :: [tx.loanOriginationFee, tx.loanServiceFee, tx.latePaymentFee,
    tx.closePaymentFee].reduceOption

def preflight (rules : LendingRules) (tx : LendingTx) (f : LoanSetFields) : Except TER Unit := do
  failIf (!f.counterpartySignature ∧ !Lending.loanSetIsPermissionless rules f) .temBadSigner
  checkWhen f.counterpartySignature (refuseIf (G.counterpartyKeyCheck tx))
  failIf (f.data.any fun data => kMaxDataPayloadLength < data.length) .temInvalid
  failIf ([f.loanServiceFee, f.latePaymentFee, f.closePaymentFee].reduceOption.any
    (Number.lt · 0)) .temInvalid
  failIf (!Number.lt 0 f.principalRequested) .temInvalid
  failIf (f.loanOriginationFee.any fun fee =>
    Number.lt fee 0 || Number.lt f.principalRequested fee) .temInvalid
  failIf ([f.interestRate, f.overpaymentFee, f.lateInterestRate, f.closeInterestRate,
    f.overpaymentInterestRate].reduceOption.any (kMaxRate < ·)) .temInvalid
  failIf (f.paymentTotal.any (· = 0)) .temInvalid
  failIf (f.paymentInterval.any (· < kMinPaymentInterval)) .temInvalid
  failIf (f.gracePeriod.any fun grace =>
    grace < kDefaultGracePeriod || f.paymentInterval.getD kDefaultPaymentInterval < grace) .temInvalid
  failIf (f.loanBrokerID = 0) .temInvalid
  match f.collateral with
  | none => failIf rules.lendingCollateral .temInvalid
  | some collateral =>
    failIf (!rules.lendingCollateral) .temDisabled
    failIf (!collateral.drops.any (0 < ·)) .temBadAmount

/-- The account whose signature goes beside that of the transaction's account. -/
def counterSigner (f : LoanSetFields) : Option AccountID :=
  f.counterparty <|> (m.brokers.lookup f.loanBrokerID).map LoanBroker.owner

/-- What `checkSign` adds to the check of the transaction's own signature. -/
def checkSign (tx : LendingTx) (f : LoanSetFields) : Except TER Unit := do
  let signer ← orFail (counterSigner m f) .temBadSigner
  checkWhen f.counterpartySignature do
    failIf (m.rules.lendingProtocol ∧ m.isPseudoAccount signer) .tefBadAuth
    refuseIf (G.counterpartySignCheck m tx signer)

def borrower (tx : LendingTx) (f : LoanSetFields) (broker : LoanBroker) : AccountID :=
  let counterparty := f.counterparty.getD broker.owner
  if counterparty = broker.owner then tx.account else counterparty

/-- The last grace period ends within the range of the clock. -/
def checkSchedule (f : LoanSetFields) : Except TER Unit := do
  let timeAvailable := 0xFFFFFFFF - m.closeTime
  let interval := f.paymentInterval.getD kDefaultPaymentInterval
  let total := f.paymentTotal.getD kDefaultPaymentTotal
  let grace := f.gracePeriod.getD kDefaultGracePeriod
  failIf (timeAvailable < grace) .tecKilled
  failIf (timeAvailable < interval) .tecKilled
  failIf (timeAvailable < total) .tecKilled
  failIf ((timeAvailable - grace) / interval < total) .tecKilled

def preclaim (tx : LendingTx) (f : LoanSetFields) : Except TER Unit := do
  checkSchedule m f
  let broker ← orFail (m.brokers.lookup f.loanBrokerID) .tecNoEntry
  failIf (tx.account ≠ broker.owner ∧ f.counterparty.getD broker.owner ≠ broker.owner)
    .tecNoPermission
  let txRate := f.interestRate.getD 0
  failIf (broker.interestRate ≠ 0 ∧ txRate ≠ 0 ∧ txRate ≠ broker.interestRate) .tecNoPermission
  let borrowerID := borrower tx f broker
  let borrowerRoot ← orFail (m.ledger.accounts.lookup borrowerID) .terNoAccount
  failIf (m.rules.lendingCollateral ∧
    f.collateral.any fun c => c.drops.any (borrowerRoot.balance < ·)) .tecInsufficientFunds
  let vault ← orFail (m.vaults.lookup broker.vaultID) .tefBadLedger
  failIf (vault.assetsMaximum ≠ 0 ∧ !Number.lt vault.assetsTotal vault.assetsMaximum)
    .tecLimitExceeded
  failIf ((valueFields f).any fun value => G.toAsset vault.asset value ≠ value) .tecPrecisionLoss
  G.assetCheck .canAddHolding m vault.asset
  G.assetCheck (.checkFrozen vault.account) m vault.asset
  G.assetCheck (.checkDeepFrozen broker.account) m vault.asset
  G.assetCheck (.checkFrozen borrowerID) m vault.asset
  checkWhen (Lending.loanSetIsPermissionless m.rules f) do
    failIf (tx.account = broker.owner) .tecNoPermission
    let collateral ← orFail f.collateral .tefException
    Lending.checkPermissionlessCollateral G m vault.asset f.principalRequested collateral
  G.assetCheck (.checkDeepFrozen broker.owner) m vault.asset

/-- The interest in a loan's value: the rest of it after the principal and the broker's fee. -/
def interestDue (properties : LoanProperties) (principalRequested : Number) :
    Except TER Number := do
  let interestOutstanding ←
    number (Number.sub m.env properties.loanState.valueOutstanding principalRequested)
  number (Number.sub m.env interestOutstanding properties.loanState.managementFeeDue)

/-- The rate of the broker's pool, or the transaction's where the pool is open. -/
def interestRate (f : LoanSetFields) (broker : LoanBroker) : UInt32 :=
  if broker.interestRate ≠ 0 then broker.interestRate else f.interestRate.getD 0

/-- The properties of the loan, checked against the vault and the broker, with the interest it
bears. -/
def checkedProperties (f : LoanSetFields) (broker : LoanBroker) (vault : VaultEntry) :
    Except TER (LoanProperties × Number) := do
  failIf (Number.lt vault.assetsAvailable f.principalRequested) .tecInsufficientFunds
  let rate := interestRate f broker
  let paymentTotal := f.paymentTotal.getD kDefaultPaymentTotal
  let properties ← number (G.computeLoanProperties m.rules vault.asset f.principalRequested rate
    (f.paymentInterval.getD kDefaultPaymentInterval) paymentTotal broker.managementFeeRate
    (getAssetsTotalScale G vault))
  let interest ← interestDue m properties f.principalRequested
  checkWhen (vault.assetsMaximum ≠ 0) do
    let room ← number (Number.sub m.env vault.assetsMaximum vault.assetsTotal)
    failIf (Number.lt room interest) .tecLimitExceeded
  failIf ((valueFields f).any fun value => !G.isRounded vault.asset value properties.loanScale)
    .tecPrecisionLoss
  G.checkLoanGuards vault.asset f.principalRequested (rate ≠ 0) paymentTotal properties
  failIf (Number.lt properties.loanState.managementFeeDue 0 ∨
    !Number.lt 0 properties.loanState.valueOutstanding ∨ !Number.lt 0 properties.periodicPayment)
    .tecInternal
  return (properties, interest)

/-- The broker may take the new debt on; the debt it grows by. -/
def checkedDebt (f : LoanSetFields) (broker : LoanBroker) (interest : Number) :
    Except TER Number := do
  let newDebtDelta ← number (Number.add m.env f.principalRequested interest)
  let newDebtTotal ← number (Number.add m.env broker.debtTotal newDebtDelta)
  failIf (broker.debtMaximum ≠ 0 ∧ Number.lt broker.debtMaximum newDebtTotal) .tecLimitExceeded
  if Lending.loanSetIsPermissionless m.rules f then return newDebtDelta
  else
    let minimum ← tenthBipsOfValue m .upward newDebtTotal broker.coverRateMinimum
    failIf (Number.lt broker.coverAvailable minimum) .tecInsufficientFunds
    return newDebtDelta

/-- Pay the loan out, and its origination fee to the broker's owner. -/
def payOut (preFeeBalance : Int) (tx : LendingTx) (f : LoanSetFields) (broker : LoanBroker)
    (vault : VaultEntry) : Except TER Market := do
  let borrowerID := borrower tx f broker
  let originationFee := f.loanOriginationFee.getD 0
  let m := m.adjustOwnerCount borrowerID incrOwnerCount
  let borrowerRoot ← orFail (m.ledger.accounts.lookup borrowerID) .tefBadLedger
  let balance := if tx.account = borrowerID then preFeeBalance else borrowerRoot.balance
  failIf (balance < m.accountReserve borrowerRoot.ownerCount) .tecInsufficientReserve
  let m ← m.addEmptyHolding G borrowerID borrowerRoot.balance vault.asset
  G.assetCheck (.requireAuth borrowerID .strongAuth) m vault.asset
  let m ←
    if originationFee = 0 then pure m
    else m.addEmptyHolding G broker.owner (m.ledger.balanceOf broker.owner) vault.asset
  G.assetCheck (.requireAuth broker.owner .strongAuth) m vault.asset
  let toBorrower ← number (Number.sub m.env f.principalRequested originationFee)
  m.accountSendMulti G vault.account vault.asset
    [(borrowerID, toBorrower), (broker.owner, originationFee)]

/-- The loan as it is made. -/
def newLoan (tx : LendingTx) (f : LoanSetFields) (broker : LoanBroker) (properties : LoanProperties)
    (collateralLocked : Int) (loanBrokerNode ownerNode : UInt64) : Loan where
  loanBrokerID := f.loanBrokerID
  loanSequence := broker.loanSequence
  borrower := borrower tx f broker
  ownerNode := ownerNode
  loanBrokerNode := loanBrokerNode
  isDefault := false
  isImpaired := false
  isOverpayment := tx.isFlag tfLoanOverpayment
  isPermissionless := Lending.loanSetIsPermissionless m.rules f
  terms :=
    { loanScale := properties.loanScale
      startDate := m.closeTime
      paymentInterval := f.paymentInterval.getD kDefaultPaymentInterval
      gracePeriod := f.gracePeriod.getD kDefaultGracePeriod
      loanOriginationFee := f.loanOriginationFee.getD 0
      loanServiceFee := f.loanServiceFee.getD 0
      latePaymentFee := f.latePaymentFee.getD 0
      closePaymentFee := f.closePaymentFee.getD 0
      overpaymentFee := f.overpaymentFee.getD 0
      interestRate := interestRate f broker
      lateInterestRate := f.lateInterestRate.getD 0
      closeInterestRate := f.closeInterestRate.getD 0
      overpaymentInterestRate := f.overpaymentInterestRate.getD 0 }
  balances :=
    { principalOutstanding := f.principalRequested
      totalValueOutstanding := properties.loanState.valueOutstanding
      managementFeeOutstanding := properties.loanState.managementFeeDue
      periodicPayment := properties.periodicPayment
      previousPaymentDueDate := 0
      nextPaymentDueDate := m.closeTime + f.paymentInterval.getD kDefaultPaymentInterval
      paymentRemaining := f.paymentTotal.getD kDefaultPaymentTotal }
  collateral := if 0 < collateralLocked then some collateralLocked else none

/-- Take the collateral, where the amendment asks for it; the drops locked. -/
def lockCollateral (borrowerID brokerPseudo : AccountID) (f : LoanSetFields) :
    Except TER (Market × Int) := do
  if m.rules.lendingCollateral then
    let collateral ← orFail (f.collateral.bind STAmount.drops) .tefException
    return (← m.transferXRP borrowerID brokerPseudo collateral, collateral)
  else return (m, 0)

def doApply (preFeeBalance : Int) (tx : LendingTx) (f : LoanSetFields) :
    Except TER LendingApplied := do
  let brokerID := f.loanBrokerID
  let broker ← orFail (m.brokers.lookup brokerID) .tefBadLedger
  let _ ← orFail (m.ledger.accounts.lookup broker.owner) .tefBadLedger
  let vault ← orFail (m.vaults.lookup broker.vaultID) .tefBadLedger
  let borrowerID := borrower tx f broker
  let _ ← orFail (m.ledger.accounts.lookup borrowerID) .tefBadLedger
  let _ ← orFail (m.ledger.accounts.lookup broker.account) .tefBadLedger
  let (properties, interest) ← checkedProperties G m f broker vault
  let newDebtDelta ← checkedDebt m f broker interest
  let m ← payOut G m preFeeBalance tx f broker vault
  let (m, collateralLocked) ← lockCollateral m borrowerID broker.account f
  let loanID := G.loanKey brokerID broker.loanSequence
  let assetsAvailable ← number (Number.sub m.env vault.assetsAvailable f.principalRequested)
  let assetsTotal ← number (Number.add m.env vault.assetsTotal interest)
  let debtTotal ← adjustImpreciseNumber G m broker.debtTotal newDebtDelta vault.asset
    (getAssetsTotalScale G vault)
  failIf (broker.loanSequence + 1 = 0) .tecMaxSequenceReached
  let (loanBrokerNode, m) ← m.dirLink broker.account loanID
  let (ownerNode, m) ← m.dirLink borrowerID loanID
  failIf (m.loans.lookup loanID).isSome .tefException
  let m := m.setVault broker.vaultID
    ({ vault with assetsAvailable, assetsTotal }.associateAsset G)
  let m := m.setBroker brokerID
    ({ broker with
        debtTotal
        ownerCount := incrOwnerCount broker.ownerCount
        loanSequence := broker.loanSequence + 1 }.associateAsset G vault.asset)
  let loan := newLoan m tx f broker properties collateralLocked loanBrokerNode ownerNode
  return ⟨m.setLoan loanID (loan.associateAsset G vault.asset), some broker.vaultID⟩

end LoanSet

namespace LoanPay

def preflight (tx : LendingTx) (loanID : UInt256) (amount : STAmount) : Except TER Unit := do
  failIf (loanID = 0) .temInvalid
  failIf (!amount.positive) .temBadAmount
  failIf (1 < ([tfLoanLatePayment, tfLoanFullPayment, tfLoanOverpayment].filter tx.isFlag).length)
    .temInvalidFlag

def preclaim (tx : LendingTx) (loanID : UInt256) (amount : STAmount) : Except TER Unit := do
  let loan ← orFail (m.loans.lookup loanID) .tecNoEntry
  failIf (loan.borrower ≠ tx.account) .tecNoPermission
  failIf (tx.isFlag tfLoanOverpayment ∧ !loan.isOverpayment)
    (if m.rules.fixSecurity3_1_3 then .tecNoPermission else .temInvalidFlag)
  failIf (loan.balances.paymentRemaining = 0 ∨ loan.balances.principalOutstanding = 0) .tecKilled
  let broker ← orFail (m.brokers.lookup loan.loanBrokerID) .tefBadLedger
  let vault ← orFail (m.vaults.lookup broker.vaultID) .tefBadLedger
  failIf (amount.asset ≠ vault.asset) .tecWrongAsset
  G.assetCheck (.checkFrozen tx.account) m vault.asset
  G.assetCheck (.checkDeepFrozen vault.account) m vault.asset
  G.assetCheck (.requireAuth tx.account .legacy) m vault.asset
  failIf (← m.holdsLess G tx.account amount) .tecInsufficientFunds

def paymentType (tx : LendingTx) : LoanPaymentType :=
  if tx.isFlag tfLoanLatePayment then .late
  else if tx.isFlag tfLoanFullPayment then .full
  else if tx.isFlag tfLoanOverpayment then .overpayment
  else .regular

/-- The fee goes to the broker's owner if the broker has enough capital and the owner can hold the
asset. -/
def sendBrokerFeeToOwner (loan : Loan) (broker : LoanBroker) (vault : VaultEntry) :
    Except TER Bool := do
  let minimum ← tenthBipsOfValue m .upward broker.debtTotal broker.coverRateMinimum
  let minimum ← number (G.roundToAsset vault.asset minimum loan.terms.loanScale .upward)
  return !Number.lt broker.coverAvailable minimum &&
    (G.assetCheck (.checkDeepFrozen broker.owner) m vault.asset).isOk &&
    (G.assetCheck (.requireAuth broker.owner .strongAuth) m vault.asset).isOk

/-- The broker and the vault after a payment, and what goes to the vault. -/
def settle (broker : LoanBroker) (vault : VaultEntry) (parts : LoanPaymentParts)
    (feeToOwner : Bool) : Except TER (LoanBroker × VaultEntry × Number) := do
  let vaultScale := getAssetsTotalScale G vault
  let totalPaidToVaultRaw ← number (Number.add m.env parts.principalPaid parts.interestPaid)
  let totalPaidToVaultRounded ←
    number (G.roundToAsset vault.asset totalPaidToVaultRaw vaultScale .downward)
  let totalPaidToVaultForDebt ← number (Number.sub m.env totalPaidToVaultRaw parts.valueChange)
  let debtTotal ← adjustImpreciseNumber G m broker.debtTotal totalPaidToVaultForDebt.neg vault.asset
    vaultScale
  let assetsAvailable ← number (Number.add m.env vault.assetsAvailable totalPaidToVaultRounded)
  let assetsTotal ← number (Number.add m.env vault.assetsTotal parts.valueChange)
  failIf (Number.lt assetsTotal assetsAvailable) .tecInternal
  let coverAvailable ←
    if feeToOwner then pure broker.coverAvailable
    else number (Number.add m.env broker.coverAvailable parts.feePaid)
  return ({ broker with debtTotal, coverAvailable }, { vault with assetsAvailable, assetsTotal },
    totalPaidToVaultRounded)

/-- Move the payment to the vault and to whoever gets the broker's fee. -/
def moveFunds (payer brokerPayee : AccountID) (vault : VaultEntry) (toVault toBroker : Number) :
    Except TER Market := do
  checkWhen (toVault ≠ 0) (G.assetCheck (.requireAuth vault.account .strongAuth) m vault.asset)
  let m ←
    if toBroker ≠ 0 ∧ brokerPayee = payer then
      m.addEmptyHolding G brokerPayee (m.ledger.balanceOf brokerPayee) vault.asset
    else pure m
  checkWhen (toBroker ≠ 0) (G.assetCheck (.requireAuth brokerPayee .strongAuth) m vault.asset)
  m.accountSendMulti G payer vault.asset [(vault.account, toVault), (brokerPayee, toBroker)]

/-- Give the collateral of a loan that has been paid off back to the borrower. -/
def returnCollateral (loanID : UInt256) (loan : Loan) (brokerPseudo : AccountID) :
    Except TER Market := do
  match loan.collateral with
  | none => return m
  | some collateral =>
    if m.rules.lendingCollateral ∧ loan.balances.paymentRemaining = 0 ∧ 0 < collateral then
      let m ← m.transferXRP brokerPseudo loan.borrower collateral
      return m.setLoan loanID { loan with collateral := none }
    else return m

/-- The payment: the market after it, the loan and the broker. -/
def pay (tx : LendingTx) (loanID : UInt256) (amount : STAmount) :
    Except TER (Market × Loan × LoanBroker) := do
  let loan ← orFail (m.loans.lookup loanID) .tefBadLedger
  let brokerID := loan.loanBrokerID
  let broker ← orFail (m.brokers.lookup brokerID) .tefBadLedger
  let vaultID := broker.vaultID
  let vault ← orFail (m.vaults.lookup vaultID) .tefBadLedger
  let feeToOwner ← sendBrokerFeeToOwner G m loan broker vault
  let brokerPayee := if feeToOwner then broker.owner else broker.account
  checkWhen (!feeToOwner) (G.assetCheck (.checkDeepFrozen brokerPayee) m vault.asset)
  let (loan, vault) ←
    if loan.isImpaired then LoanManage.unimpairLoan G m loan vault else pure (loan, vault)
  let (balances, parts) ← G.loanMakePayment m vault.asset loan broker amount (paymentType tx)
  let loan := { loan with balances }.associateAsset G vault.asset
  failIf (Number.lt parts.principalPaid 0 ∨ Number.lt parts.interestPaid 0 ∨
    Number.lt parts.feePaid 0) .tecLimitExceeded
  let (broker, vault, toVault) ← settle G m broker vault parts feeToOwner
  let m := m.setVault vaultID (vault.associateAsset G)
  let m := (m.setBroker brokerID (broker.associateAsset G vault.asset)).setLoan loanID loan
  return (← moveFunds G m tx.account brokerPayee vault toVault parts.feePaid, loan, broker)

def doApply (tx : LendingTx) (loanID : UInt256) (amount : STAmount) : Except TER LendingApplied := do
  let (m, loan, broker) ← pay G m tx loanID amount
  return ⟨← returnCollateral m loanID loan broker.account, some broker.vaultID⟩

end LoanPay

namespace LoanDelete

def preflight (loanID : UInt256) : Except TER Unit := failIf (loanID = 0) .temInvalid

def preclaim (tx : LendingTx) (loanID : UInt256) : Except TER Unit := do
  let loan ← orFail (m.loans.lookup loanID) .tecNoEntry
  failIf (0 < loan.balances.paymentRemaining) .tecHasObligations
  let broker ← orFail (m.brokers.lookup loan.loanBrokerID) .tecInternal
  failIf (broker.owner ≠ tx.account ∧ loan.borrower ≠ tx.account) .tecNoPermission

def doApply (loanID : UInt256) : Except TER LendingApplied := do
  let loan ← orFail (m.loans.lookup loanID) .tefBadLedger
  let _ ← orFail (m.ledger.accounts.lookup loan.borrower) .tefBadLedger
  let brokerID := loan.loanBrokerID
  let broker ← orFail (m.brokers.lookup brokerID) .tefBadLedger
  let vault ← orFail (m.vaults.lookup broker.vaultID) .tefBadLedger
  let s ← orFail (← m.ledger.dirRemove broker.account loan.loanBrokerNode loanID false) .tefBadLedger
  let s ← orFail (← s.dirRemove loan.borrower loan.ownerNode loanID false) .tefBadLedger
  let m := { m with ledger := s, loans := m.loans.erase loanID }
  let ownerCount := decrOwnerCount broker.ownerCount
  -- what is left of the debt when the last loan goes is forgiven
  let debtTotal := if ownerCount = 0 then 0 else broker.debtTotal
  let m := m.setBroker brokerID
    ({ broker with ownerCount, debtTotal }.associateAsset G vault.asset)
  return { view := m.adjustOwnerCount loan.borrower decrOwnerCount }

end LoanDelete

namespace LoanCollateralDeposit

def preflight (loanID : UInt256) (collateral : STAmount) : Except TER Unit := do
  failIf (loanID = 0) .temInvalid
  failIf (!collateral.drops.any (0 < ·)) .temBadAmount

def preclaim (tx : LendingTx) (loanID : UInt256) (collateral : STAmount) : Except TER Unit := do
  let loan ← orFail (m.loans.lookup loanID) .tecNoEntry
  failIf (loan.borrower ≠ tx.account) .tecNoPermission
  failIf (loan.balances.paymentRemaining = 0 ∨ loan.balances.principalOutstanding = 0) .tecKilled
  let _ ← orFail (m.brokers.lookup loan.loanBrokerID) .tefBadLedger
  let root ← orFail (m.ledger.accounts.lookup tx.account) .terNoAccount
  failIf (collateral.drops.any (root.balance < ·)) .tecInsufficientFunds

def doApply (loanID : UInt256) (collateral : STAmount) : Except TER LendingApplied := do
  let drops ← orFail collateral.drops .tefException
  let loan ← orFail (m.loans.lookup loanID) .tefBadLedger
  let broker ← orFail (m.brokers.lookup loan.loanBrokerID) .tefBadLedger
  let m ← m.transferXRP loan.borrower broker.account drops
  let locked := loan.collateral.getD 0
  return { view := m.setLoan loanID { loan with collateral := unlessDefault (locked + drops) } }

end LoanCollateralDeposit

namespace VaultClaimCollateral

def preflight (loanBrokerID : UInt256) (amount : Option STAmount) : Except TER Unit := do
  failIf (loanBrokerID = 0) .temInvalid
  failIf (amount.any fun amount => !amount.drops.any (0 < ·)) .temBadAmount

def preclaim (tx : LendingTx) (loanBrokerID : UInt256) : Except TER Unit := do
  let broker ← orFail (m.brokers.lookup loanBrokerID) .tecNoEntry
  let vault ← orFail (m.vaults.lookup broker.vaultID) .tefBadLedger
  let pending ← Lending.liquidationPendingFalcon m vault tx.account
  failIf (!Number.lt 0 pending) .tecUnfundedPayment

def doApply (tx : LendingTx) (loanBrokerID : UInt256) (amount : Option STAmount) :
    Except TER LendingApplied := do
  let broker ← orFail (m.brokers.lookup loanBrokerID) .tefBadLedger
  let vault ← orFail (m.vaults.lookup broker.vaultID) .tefBadLedger
  let view ← Lending.claimLiquidationFalcon m broker.vaultID vault broker.account tx.account amount
  return ⟨view, some broker.vaultID⟩

end VaultClaimCollateral

end FalconLedger
