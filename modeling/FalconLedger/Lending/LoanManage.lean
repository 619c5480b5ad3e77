import FalconLedger.Lending.Liquidation

/-!
# Impairment and default

The arithmetic the loan transactors share, and `LoanManage`: a loan is impaired, found sound again,
or defaulted. The default of a loan opened without the broker's signature forfeits its collateral to
the share holders of the vault; that of any other loan is covered by the broker's capital.
-/

namespace FalconLedger

/-- What a successful `doApply` leaves: the view, and the vault it has updated. -/
structure LendingApplied where
  view : Market
  updatedVault : Option UInt256 := none

def tfLoanDefault : UInt32 := 0x00010000

def tfLoanImpair : UInt32 := 0x00020000

def tfLoanUnimpair : UInt32 := 0x00040000

variable (G : LendingServices) (m : Market)

/-! ### Shared arithmetic -/

/-- Round a value to the vault's scale once more, and never let it fall below zero. -/
def adjustImpreciseNumber (value adjustment : Number) (asset : Asset) (vaultScale : Int) :
    Except TER Number := do
  let sum ← number (Number.add m.env value adjustment)
  let value ← number (G.roundToAsset asset sum vaultScale m.env.mode)
  return if Number.lt value 0 then 0 else value

def getAssetsTotalScale (vault : VaultEntry) : Int := G.scaleOf vault.assetsTotal vault.asset

/-- `tenthBipsOfValue` under a rounding mode. -/
def tenthBipsOfValue (mode : RoundingMode) (value : Number) (bips : UInt32) : Except TER Number := do
  let env := { m.env with mode }
  let product ← number (Number.mul env value (← number (Number.ofInt env bips.toNat)))
  number (Number.div env product (← number (Number.ofInt env 100000)))

/-- `std::min`. -/
def minNumber (x y : Number) : Number := if Number.lt y x then y else x

/-- What the borrower still owes to the vault: principal and interest. -/
def owedToVault (loan : Loan) : Except TER Number :=
  number (Number.sub m.env loan.balances.totalValueOutstanding
    loan.balances.managementFeeOutstanding)

/-- `Asset::integral`. -/
def Asset.integral : Asset → Bool
  | .issue _ _ => false
  | _ => true

def VaultEntry.associateAsset (vault : VaultEntry) : VaultEntry :=
  { vault with
    assetsTotal := G.toAsset vault.asset vault.assetsTotal
    assetsAvailable := G.toAsset vault.asset vault.assetsAvailable
    assetsMaximum := G.toAsset vault.asset vault.assetsMaximum
    lossUnrealized := G.toAsset vault.asset vault.lossUnrealized }

def LoanBroker.associateAsset (broker : LoanBroker) (asset : Asset) : LoanBroker :=
  { broker with
    debtTotal := G.toAsset asset broker.debtTotal
    debtMaximum := G.toAsset asset broker.debtMaximum
    coverAvailable := G.toAsset asset broker.coverAvailable }

def Loan.associateAsset (loan : Loan) (asset : Asset) : Loan :=
  { loan with
    balances :=
      { loan.balances with
        principalOutstanding := G.toAsset asset loan.balances.principalOutstanding
        totalValueOutstanding := G.toAsset asset loan.balances.totalValueOutstanding
        managementFeeOutstanding := G.toAsset asset loan.balances.managementFeeOutstanding } }

/-- A loan that has been written off. -/
def Loan.writtenOff (loan : Loan) : Loan :=
  { loan with
    isDefault := true
    balances :=
      { loan.balances with
        totalValueOutstanding := 0
        paymentRemaining := 0
        principalOutstanding := 0
        managementFeeOutstanding := 0
        nextPaymentDueDate := 0 } }

namespace LoanManage

def preflight (tx : LendingTx) (loanID : UInt256) : Except TER Unit := do
  failIf (loanID = 0) .temInvalid
  -- at most one of the flags, the universal ones apart
  let flags := tx.flags &&& 0x3FFFFFFF
  failIf (tx.flags ≠ 0 ∧ flags &&& (flags - 1) ≠ 0) .temInvalidFlag

/-- A permissionless loan can be managed by anyone, once its price or its schedule says so. -/
def preclaimPermissionless (tx : LendingTx) (vault : VaultEntry) (loan : Loan) :
    Except TER Unit := do
  let paymentLate := tx.isFlag tfLoanDefault &&
    m.hasExpired (loan.balances.nextPaymentDueDate + loan.terms.gracePeriod)
  let hfBreach ← Lending.loanPermissionlessLiquidatable G m vault.asset loan
  if tx.isFlag tfLoanDefault then failIf (!paymentLate ∧ !hfBreach) .tecTooSoon
  else if tx.isFlag tfLoanImpair then failIf (!hfBreach) .tecNoPermission
  else if tx.isFlag tfLoanUnimpair then failIf hfBreach .tecNoPermission
  else return ()

def preclaim (tx : LendingTx) (loanID : UInt256) : Except TER Unit := do
  let loan ← orFail (m.loans.lookup loanID) .tecNoEntry
  failIf loan.isDefault .tecNoPermission
  failIf (loan.isImpaired ∧ tx.isFlag tfLoanImpair) .tecNoPermission
  failIf (!(loan.isImpaired || loan.isDefault) ∧ tx.isFlag tfLoanUnimpair) .tecNoPermission
  failIf (loan.balances.paymentRemaining = 0) .tecNoPermission
  let broker ← orFail (m.brokers.lookup loan.loanBrokerID) .tecInternal
  let vault ← orFail (m.vaults.lookup broker.vaultID) .tecInternal
  if loan.isPermissionless ∧ m.rules.lendingPermissionless then
    preclaimPermissionless G m tx vault loan
  else
    failIf (tx.isFlag tfLoanDefault ∧
      !m.hasExpired (loan.balances.nextPaymentDueDate + loan.terms.gracePeriod)) .tecTooSoon
    failIf (broker.owner ≠ tx.account) .tecNoPermission

/-- The loss of an impaired loan has been realized. -/
def realizeLoss (vault : VaultEntry) (loan : Loan) (defaultAmount : Number) (vaultScale : Int) :
    Except TER VaultEntry := do
  if loan.isImpaired then
    failIf (Number.lt vault.lossUnrealized defaultAmount) .tefBadLedger
    let lossUnrealized ←
      adjustImpreciseNumber G m vault.lossUnrealized defaultAmount.neg vault.asset vaultScale
    return { vault with lossUnrealized }
  else return vault

/-- The drops a loan forfeits, and the loan without them. -/
def forfeit (loan : Loan) : Int × Loan :=
  match loan.collateral with
  | some collateral => if 0 < collateral then (collateral, { loan with collateral := none }) else (0, loan)
  | none => (0, loan)

def defaultPermissionlessLoan (loan : Loan) (broker : LoanBroker) (vault : VaultEntry) :
    Except TER (Loan × LoanBroker × VaultEntry) := do
  let totalDefaultAmount ← owedToVault m loan
  let (forfeitedFalcon, loan) := forfeit loan
  let vaultScale := getAssetsTotalScale G vault
  failIf (Number.lt vault.assetsTotal totalDefaultAmount) .tefBadLedger
  let vaultDefaultRounded ←
    number (G.roundToAsset vault.asset totalDefaultAmount vaultScale .downward)
  let assetsTotal ← number (Number.sub m.env vault.assetsTotal vaultDefaultRounded)
  let vault ← realizeLoss G m { vault with assetsTotal } loan totalDefaultAmount vaultScale
  let vault ← Lending.creditLiquidationToLPs m vault forfeitedFalcon
  let debtTotal ← adjustImpreciseNumber G m broker.debtTotal totalDefaultAmount.neg vault.asset
    loan.terms.loanScale
  return (loan.writtenOff, { broker with debtTotal }, vault)

/-- What the broker's capital covers of a default. -/
def defaultCovered (loan : Loan) (broker : LoanBroker) (vault : VaultEntry)
    (totalDefaultAmount : Number) : Except TER Number := do
  let minimumCover ← tenthBipsOfValue m .upward broker.debtTotal broker.coverRateMinimum
  let liquidated ← tenthBipsOfValue m .upward minimumCover broker.coverRateLiquidation
  let covered ← number (G.roundToAsset vault.asset (minNumber liquidated totalDefaultAmount)
    loan.terms.loanScale .upward)
  return minNumber covered broker.coverAvailable

/-- The total of a vault whose available assets exceed it by dust is brought up to them. -/
def withoutDust (vault : VaultEntry) : Except TER VaultEntry := do
  if Number.lt vault.assetsTotal vault.assetsAvailable ∧ !vault.asset.integral then
    let difference ← number (Number.sub m.env vault.assetsAvailable vault.assetsTotal)
    return if 13 < vault.assetsAvailable.external.2 - difference.external.2 then
        { vault with assetsTotal := vault.assetsAvailable }
      else vault
  else return vault

/-- Returns with the entries what is to be sent from the broker's pseudo-account to the vault's. -/
def defaultLoan (loan : Loan) (broker : LoanBroker) (vault : VaultEntry) :
    Except TER (Loan × LoanBroker × VaultEntry × Number) := do
  let totalDefaultAmount ← owedToVault m loan
  let covered ← defaultCovered G m loan broker vault totalDefaultAmount
  let vaultDefaultAmount ← number (Number.sub m.env totalDefaultAmount covered)
  let vaultScale := getAssetsTotalScale G vault
  failIf (Number.lt vault.assetsTotal vaultDefaultAmount) .tefBadLedger
  let vaultDefaultRounded ←
    number (G.roundToAsset vault.asset vaultDefaultAmount vaultScale .downward)
  let assetsTotal ← number (Number.sub m.env vault.assetsTotal vaultDefaultRounded)
  let assetsAvailable ← number (Number.add m.env vault.assetsAvailable covered)
  let vault ← withoutDust m { vault with assetsTotal, assetsAvailable }
  failIf (Number.lt vault.assetsTotal vault.assetsAvailable) .tecInternal
  let vault ← realizeLoss G m vault loan totalDefaultAmount vaultScale
  let debtTotal ← adjustImpreciseNumber G m broker.debtTotal totalDefaultAmount.neg vault.asset
    vaultScale
  failIf (Number.lt broker.coverAvailable covered) .tefBadLedger
  let coverAvailable ← number (Number.sub m.env broker.coverAvailable covered)
  -- the collateral of the loan stays where it is
  return (loan.writtenOff, { broker with debtTotal, coverAvailable }, vault, covered)

def impairLoan (loan : Loan) (vault : VaultEntry) : Except TER (Loan × VaultEntry) := do
  let loss ← owedToVault m loan
  let lossUnrealized ← adjustImpreciseNumber G m vault.lossUnrealized loss vault.asset
    (getAssetsTotalScale G vault)
  let unavailable ← number (Number.sub m.env vault.assetsTotal vault.assetsAvailable)
  failIf (Number.lt unavailable lossUnrealized) .tecLimitExceeded
  let nextPaymentDueDate :=
    if m.hasExpired loan.balances.nextPaymentDueDate then loan.balances.nextPaymentDueDate
    else m.parentCloseTime
  return ({ loan with isImpaired := true, balances := { loan.balances with nextPaymentDueDate } },
    { vault with lossUnrealized })

def unimpairLoan (loan : Loan) (vault : VaultEntry) : Except TER (Loan × VaultEntry) := do
  let lossReversed ← owedToVault m loan
  failIf (Number.lt vault.lossUnrealized lossReversed) .tefBadLedger
  let lossUnrealized ← adjustImpreciseNumber G m vault.lossUnrealized lossReversed.neg vault.asset
    (getAssetsTotalScale G vault)
  let normalPaymentDueDate :=
    max loan.balances.previousPaymentDueDate loan.terms.startDate + loan.terms.paymentInterval
  let nextPaymentDueDate :=
    if m.hasExpired normalPaymentDueDate then m.parentCloseTime + loan.terms.paymentInterval
    else normalPaymentDueDate
  return ({ loan with isImpaired := false, balances := { loan.balances with nextPaymentDueDate } },
    { vault with lossUnrealized })

/-- `associateAsset` on what has been updated, since `fixSecurity3_1_3`. -/
def associate {α : Type} (f : α → α) (x : α) : α := if m.rules.fixSecurity3_1_3 then f x else x

def doApply (tx : LendingTx) (loanID : UInt256) : Except TER LendingApplied := do
  let loan ← orFail (m.loans.lookup loanID) .tefBadLedger
  let brokerID := loan.loanBrokerID
  let broker ← orFail (m.brokers.lookup brokerID) .tefBadLedger
  let vaultID := broker.vaultID
  let vault ← orFail (m.vaults.lookup vaultID) .tefBadLedger
  let setLoan := fun m' : Market => fun l : Loan =>
    m'.setLoan loanID (associate m (Loan.associateAsset G · vault.asset) l)
  let setVault := fun m' : Market => fun v : VaultEntry =>
    m'.setVault vaultID (associate m (VaultEntry.associateAsset G) v)
  let setBroker := fun m' : Market => fun b : LoanBroker =>
    m'.setBroker brokerID (associate m (LoanBroker.associateAsset G · vault.asset) b)
  if tx.isFlag tfLoanDefault then
    if loan.isPermissionless ∧ m.rules.lendingPermissionless then
      let (loan, broker, vault) ← defaultPermissionlessLoan G m loan broker vault
      return ⟨setLoan (setBroker (setVault m vault) broker) loan, some vaultID⟩
    else
      let (loan, broker, vault, covered) ← defaultLoan G m loan broker vault
      let view := setLoan (setBroker (setVault m vault) broker) loan
      let amount ← number (G.amountOf m.env vault.asset covered)
      return ⟨← view.accountSend G broker.account vault.account amount, some vaultID⟩
  else if tx.isFlag tfLoanImpair then
    let (loan, vault) ← impairLoan G m loan vault
    return ⟨setLoan (setVault m vault) loan, some vaultID⟩
  else if tx.isFlag tfLoanUnimpair then
    let (loan, vault) ← unimpairLoan G m loan vault
    return ⟨setLoan (setVault m vault) loan, some vaultID⟩
  else return { view := m }

end LoanManage

end FalconLedger
