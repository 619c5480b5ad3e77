import FalconLedger.Lending.Transfers

/-!
# Collateral and liquidation

Namespace `Lending` of `LendingHelpers.cpp`. Collateral is measured by the price of the pool of
drops and the vault's asset. What a borrower forfeits is credited to the vault: the claimable pool
grows by it, and `sfLiquidationIndex` by its part for each share. A holder's claim is
`shares * index` less the debt recorded in the holder's token.
-/

namespace FalconLedger

namespace Lending

def kPermissionlessMinCollateralBps : Int := 15000

def kPermissionlessLiquidationHfBps : Int := 11000

/-- The borrower opens a loan with collateral and without the broker's signature. -/
def loanSetIsPermissionless (rules : LendingRules) (tx : LoanSetFields) : Bool :=
  rules.lendingPermissionless && rules.lendingCollateral && !tx.counterpartySignature &&
    tx.collateral.isSome

variable (G : LendingServices) (m : Market)

/-! ### The price of collateral -/

/-- The price of a drop in units of the vault's asset. -/
def ammNativePerVaultUnit (vaultAsset : Asset) : Except TER (Option Number) := do
  if vaultAsset.native ∨ !m.rules.amm then return none
  else
    match G.ammHolds m vaultAsset with
    | none => return none
    | some (nativeBal, vaultBal) =>
      if nativeBal ≤ 0 ∨ !Number.lt 0 vaultBal then return none
      else
        let nativeUnits ← number (Number.ofInt m.env nativeBal)
        if !Number.lt 0 nativeUnits then return none
        else return some (← number (Number.div m.env vaultBal nativeUnits))

/-- The health factor of a loan with `collateral` drops pledged, in basis points. -/
def loanHealthFactorBps (vaultAsset : Asset) (debtOutstanding : Number) (collateral : Int) :
    Except TER (Option Number) := do
  if !Number.lt 0 debtOutstanding ∨ collateral ≤ 0 then return none
  else
    match ← ammNativePerVaultUnit G m vaultAsset with
    | none => return none
    | some price =>
      let collateralValue ← number (Number.mul m.env (← number (Number.ofInt m.env collateral)) price)
      if !Number.lt 0 collateralValue then return none
      else
        let ratio ← number (Number.div m.env collateralValue debtOutstanding)
        return some (← number (Number.mul m.env ratio (← number (Number.ofInt m.env 10000))))

def checkPermissionlessCollateral (vaultAsset : Asset) (principalRequested : Number)
    (collateral : STAmount) : Except TER Unit := do
  failIf (!Number.lt 0 principalRequested) .temInvalid
  let drops ← orFail (collateral.drops.filter (0 < ·)) .temBadAmount
  let hfBps ← orFail (← loanHealthFactorBps G m vaultAsset principalRequested drops) .tecNoLine
  failIf (Number.lt hfBps (← number (Number.ofInt m.env kPermissionlessMinCollateralBps)))
    .tecInsufficientFunds

def loanPermissionlessLiquidatable (vaultAsset : Asset) (loan : Loan) : Except TER Bool := do
  match loan.collateral with
  | none => return false
  | some collateral =>
    let debt := loan.balances.totalValueOutstanding
    if collateral ≤ 0 ∨ !Number.lt 0 debt then return false
    else
      match ← loanHealthFactorBps G m vaultAsset debt collateral with
      | none => return false
      | some hfBps =>
        return Number.lt hfBps (← number (Number.ofInt m.env kPermissionlessLiquidationHfBps))

/-! ### The index -/

/-- The shares an account holds. -/
def shareBalance (shares : MPTID) (account : AccountID) : Nat :=
  (m.tokens.lookup (shares, account)).elim 0 ShareToken.amount

/-- The shares there are. -/
def outstandingShares (shares : MPTID) : Nat :=
  (m.issuances.lookup shares).elim 0 ShareIssuance.outstandingAmount

def shareBalanceNumber (shares : MPTID) (account : AccountID) : Except TER Number :=
  number (Number.ofInt m.env (shareBalance m shares account))

def outstandingSharesNumber (shares : MPTID) : Except TER Number :=
  number (Number.ofInt m.env (outstandingShares m shares))

def vaultLiquidationIndex (vault : VaultEntry) : Number := vault.liquidationIndex.getD 0

/-- A token without a debt is taken to have been settled at the present index. -/
def mptLiquidationDebt (token : ShareToken) (shares index : Number) : Except TER Number :=
  match token.liquidationDebt with
  | none => number (Number.mul m.env shares index)
  | some debt => .ok debt

/-- The vault after `forfeitedFalcon` drops have been credited to its share holders. -/
def creditLiquidationToLPs (vault : VaultEntry) (forfeitedFalcon : Int) :
    Except TER VaultEntry := do
  if forfeitedFalcon ≤ 0 then return vault
  else
    let sharesTotal ← outstandingSharesNumber m vault.shareMPTID
    let F ← number (Number.ofInt m.env forfeitedFalcon)
    let vault :=
      { vault with
        liquidationCollateral :=
          unlessDefault (vault.liquidationCollateral.getD 0 + forfeitedFalcon) }
    if Number.lt 0 sharesTotal then
      let index ← number (Number.add m.env (vaultLiquidationIndex vault)
        (← number (Number.div m.env F sharesTotal)))
      return { vault with liquidationIndex := unlessDefault index }
    else return vault

/-- The drops a share holder can claim, at most what is in the pool. -/
def liquidationPendingFalcon (vault : VaultEntry) (account : AccountID) : Except TER Number := do
  let shares ← shareBalanceNumber m vault.shareMPTID account
  if !Number.lt 0 shares then return 0
  else
    match m.tokens.lookup (vault.shareMPTID, account) with
    | none => return 0
    | some token =>
      let index := vaultLiquidationIndex vault
      let debt ← mptLiquidationDebt m token shares index
      let pending ← number (Number.sub m.env (← number (Number.mul m.env shares index)) debt)
      let pending := if Number.lt pending 0 then 0 else pending
      match vault.liquidationCollateral with
      | none => return 0
      | some pool =>
        if 0 < pool then
          let poolN ← number (Number.ofInt m.env pool)
          return if Number.lt poolN pending then poolN else pending
        else return 0

/-- Move the debt of an account whose shares have changed by `shareDelta`. -/
def adjustLiquidationDebtForShareDelta (vault : VaultEntry) (account : AccountID)
    (shareDelta : Number) : Except TER Market := do
  if shareDelta = 0 then return m
  else
    match m.tokens.lookup (vault.shareMPTID, account) with
    | none => return m
    | some token =>
      let index := vaultLiquidationIndex vault
      let sharesNow ← number (Number.ofInt m.env token.amount)
      let sharesBefore ← number (Number.sub m.env sharesNow shareDelta)
      let debt ← mptLiquidationDebt m token (if Number.lt 0 sharesBefore then sharesBefore else 0)
        index
      let debt ← number (Number.add m.env debt (← number (Number.mul m.env shareDelta index)))
      let debt := if Number.lt debt 0 then 0 else debt
      return m.setToken vault.shareMPTID account { token with liquidationDebt := unlessDefault debt }

/-- Pay a share holder's claim, or `maxAmount` of it, out of a broker's pseudo-account. -/
def claimLiquidationFalcon (vaultID : UInt256) (vault : VaultEntry) (brokerPseudo : AccountID)
    (account : AccountID) (maxAmount : Option STAmount) : Except TER Market := do
  let pending ← liquidationPendingFalcon m vault account
  failIf (!Number.lt 0 pending) .tecUnfundedPayment
  let pending ←
    match maxAmount with
    | some (.native cap) =>
      if 0 < cap then do
        let cap ← number (Number.ofInt m.env cap)
        pure (if Number.lt cap pending then cap else pending)
      else pure pending
    | _ => pure pending
  let drops ← number (Number.toRep m.env pending)
  failIf (drops ≤ 0) .tecPrecisionLoss
  let pool := vault.liquidationCollateral.getD 0
  failIf (pool < drops) .tecInsufficientFunds
  let m ← m.transferXRP brokerPseudo account drops
  let token ← orFail (m.tokens.lookup (vault.shareMPTID, account)) .tecNoEntry
  let shares ← number (Number.ofInt m.env token.amount)
  let debt ← mptLiquidationDebt m token shares (vaultLiquidationIndex vault)
  let debt ← number (Number.add m.env debt (← number (Number.ofInt m.env drops)))
  let m := m.setToken vault.shareMPTID account { token with liquidationDebt := unlessDefault debt }
  return m.setVault vaultID { vault with liquidationCollateral := unlessDefault (pool - drops) }

end Lending

end FalconLedger
