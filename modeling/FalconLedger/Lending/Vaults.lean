import FalconLedger.Lending.LoanManage

/-!
# Vault shares

The exchange rate of a vault's shares (`VaultHelpers.cpp`), and the transactors that change who
holds how many shares of a vault: `VaultDeposit`, `VaultWithdraw`, `VaultClawback`, and a `Payment`
of shares from one holder to another. The first two move the liquidation debt of the account along
with its shares; the other two leave every debt as it is.
-/

namespace FalconLedger

variable (G : LendingServices) (m : Market)

/-! ### The exchange rate -/

/-- An overflow of the exchange rate is caught, and ends the transaction with a code of its own. -/
def caught {α : Type} (x : Option α) : Except TER α := orFail x .tecPathDry

/-- `(total * amount) / divisor`. -/
def shareOf (total amount divisor : Number) : Except TER Number := do
  caught (Number.div m.env (← caught (Number.mul m.env total amount)) divisor)

def assetsToSharesDeposit (vault : VaultEntry) (issuance : ShareIssuance) (assets : STAmount) :
    Except TER Int := do
  failIf (assets.negative ∨ assets.asset ≠ vault.asset) .tecInternal
  let shares ←
    if vault.assetsTotal = 0 then caught (assets.scaled m.env vault.scale)
    else do
      let shareTotal ← caught (Number.ofInt m.env issuance.outstandingAmount)
      shareOf m shareTotal (← caught (assets.toNumber m.env)) vault.assetsTotal
  caught (Number.toRep m.env (← caught (shares.truncate m.env)))

def sharesToAssetsDeposit (vault : VaultEntry) (issuance : ShareIssuance) (shares : Int) :
    Except TER STAmount := do
  failIf (shares < 0) .tecInternal
  let assets ←
    if vault.assetsTotal = 0 then
      caught (Number.normalize m.env false shares.natAbs (-vault.scale.toNat))
    else do
      let shareTotal ← caught (Number.ofInt m.env issuance.outstandingAmount)
      shareOf m vault.assetsTotal (← caught (Number.ofInt m.env shares)) shareTotal
  caught (G.amountOf m.env vault.asset assets)

def assetsToSharesWithdraw (vault : VaultEntry) (issuance : ShareIssuance) (assets : STAmount)
    (truncate : Bool) : Except TER Int := do
  failIf (assets.negative ∨ assets.asset ≠ vault.asset) .tecInternal
  let assetTotal ← caught (Number.sub m.env vault.assetsTotal vault.lossUnrealized)
  if assetTotal = 0 then return 0
  else
    let shareTotal ← caught (Number.ofInt m.env issuance.outstandingAmount)
    let shares ← shareOf m shareTotal (← caught (assets.toNumber m.env)) assetTotal
    let shares ← if truncate then caught (shares.truncate m.env) else pure shares
    caught (shares.toRep m.env)

def sharesToAssetsWithdraw (vault : VaultEntry) (issuance : ShareIssuance) (shares : Int) :
    Except TER STAmount := do
  failIf (shares < 0) .tecInternal
  let assetTotal ← caught (Number.sub m.env vault.assetsTotal vault.lossUnrealized)
  if assetTotal = 0 then return .zeroOf vault.asset
  else
    let shareTotal ← caught (Number.ofInt m.env issuance.outstandingAmount)
    let assets ← shareOf m assetTotal (← caught (Number.ofInt m.env shares)) shareTotal
    caught (G.amountOf m.env vault.asset assets)

namespace VaultDeposit

def preflight (vaultID : UInt256) (amount : STAmount) : Except TER Unit := do
  failIf (vaultID = 0) .temMalformed
  failIf (!amount.positive) .temBadAmount

/-- A private vault takes deposits of its owner, and of accounts with the credentials of its
domain. Credentials that have expired are left for `doApply` to remove. -/
def checkDomain (account : AccountID) (issuance : ShareIssuance) : Except TER Unit := do
  let domain ← orFail issuance.domainID .tecNoAuth
  match G.verifyValidDomain m domain account with
  | .ok () | .error .tecExpired => return ()
  | .error ter => throw ter

def preclaim (tx : LendingTx) (vaultID : UInt256) (amount : STAmount) : Except TER Unit := do
  let vault ← orFail (m.vaults.lookup vaultID) .tecNoEntry
  failIf (amount.asset ≠ vault.asset) .tecWrongAsset
  G.assetCheck (.canTransfer tx.account vault.account) m vault.asset
  failIf (amount.asset = .mpt vault.shareMPTID) .tefInternal
  let issuance ← orFail (m.issuances.lookup vault.shareMPTID) .tefInternal
  failIf issuance.locked .tefInternal
  G.assetCheck (.checkFrozen tx.account) m vault.asset
  G.assetCheck (.checkFrozen tx.account) m (.mpt vault.shareMPTID)
  checkWhen (vault.isPrivate ∧ tx.account ≠ vault.owner) (checkDomain G m tx.account issuance)
  G.assetCheck (.requireAuth tx.account .legacy) m vault.asset
  failIf (← m.holdsLess G tx.account amount) .tecInsufficientFunds

/-- Make sure the depositor can hold shares. -/
def prepareToken (preFeeBalance : Int) (account : AccountID) (vault : VaultEntry)
    (issuance : ShareIssuance) : Except TER Market := do
  if vault.isPrivate ∧ account ≠ vault.owner then
    m.enforceMPTokenAuthorization G vault.shareMPTID account preFeeBalance
  else
    let m ←
      if (m.tokens.lookup (vault.shareMPTID, account)).isSome then pure m
      else m.createMPToken G preFeeBalance vault.shareMPTID account
    if vault.isPrivate then m.authorizeHolder vault.shareMPTID issuance.issuer account
    else return m

def doApply (preFeeBalance : Int) (tx : LendingTx) (vaultID : UInt256) (amount : STAmount) :
    Except TER LendingApplied := do
  let vault ← orFail (m.vaults.lookup vaultID) .tefInternal
  let issuance ← orFail (m.issuances.lookup vault.shareMPTID) .tefInternal
  let m ← prepareToken G m preFeeBalance tx.account vault issuance
  let sharesCreated ← assetsToSharesDeposit m vault issuance amount
  failIf (sharesCreated = 0) .tecPrecisionLoss
  let assetsDeposited ← sharesToAssetsDeposit G m vault issuance sharesCreated
  failIf (amount.lt assetsDeposited) .tecInternal
  let deposited ← number (assetsDeposited.toNumber m.env)
  let assetsTotal ← number (Number.add m.env vault.assetsTotal deposited)
  let assetsAvailable ← number (Number.add m.env vault.assetsAvailable deposited)
  let vault := { vault with assetsTotal, assetsAvailable }
  failIf (vault.assetsMaximum ≠ 0 ∧ Number.lt vault.assetsMaximum vault.assetsTotal)
    .tecLimitExceeded
  let m ← (m.setVault vaultID vault).accountSend G tx.account vault.account assetsDeposited
  failIf (← m.holdsLess G tx.account (.zeroOf assetsDeposited.asset)) .tefInternal
  let m ← m.accountSendMPT vault.account tx.account vault.shareMPTID sharesCreated.toNat
  let m ←
    if m.rules.lendingPermissionless then do
      let delta ← number (Number.ofInt m.env sharesCreated)
      Lending.adjustLiquidationDebtForShareDelta m vault tx.account delta
    else pure m
  return ⟨m.setVault vaultID (vault.associateAsset G), some vaultID⟩

end VaultDeposit

namespace VaultWithdraw

def kVaultStrategyFirstComeFirstServe : UInt8 := 1

def preflight (vaultID : UInt256) (amount : STAmount) (destination : Option AccountID) :
    Except TER Unit := do
  failIf (vaultID = 0) .temMalformed
  failIf (!amount.positive) .temBadAmount
  failIf (destination = some 0) .temMalformed

/-- The amount a withdrawal is limited by: since `fixSecurity3_1_3`, that of the asset. -/
def limitedAmount (vault : VaultEntry) (amount : STAmount) : Except TER STAmount := do
  match amount with
  | .mpt id n =>
    if m.rules.fixSecurity3_1_3 ∧ id = vault.shareMPTID then
      let issuance ← orFail (m.issuances.lookup vault.shareMPTID) .tefInternal
      sharesToAssetsWithdraw G m vault issuance n
    else return amount
  | amount => return amount

def preclaim (tx : LendingTx) (vaultID : UInt256) (amount : STAmount)
    (destination : Option AccountID) : Except TER Unit := do
  let vault ← orFail (m.vaults.lookup vaultID) .tecNoEntry
  failIf (amount.asset ≠ vault.asset ∧ amount.asset ≠ .mpt vault.shareMPTID) .tecWrongAsset
  let dstAcct := destination.getD tx.account
  G.assetCheck (.canTransfer vault.account dstAcct) m vault.asset
  failIf (vault.withdrawalPolicy ≠ kVaultStrategyFirstComeFirstServe) .tefInternal
  let limited ← limitedAmount G m vault amount
  G.assetCheck (.canWithdraw tx.account dstAcct limited) m vault.asset
  let auth := if tx.account = dstAcct then AuthType.weakAuth else .strongAuth
  G.assetCheck (.requireAuth dstAcct auth) m vault.asset
  G.assetCheck (.checkFrozen dstAcct) m vault.asset
  G.assetCheck (.checkFrozen tx.account) m (.mpt vault.shareMPTID)

/-- The shares a withdrawal redeems and the assets it takes out. -/
def exchange (vault : VaultEntry) (issuance : ShareIssuance) (amount : STAmount) :
    Except TER (Nat × STAmount) := do
  if amount.asset = vault.asset then
    let sharesRedeemed ← assetsToSharesWithdraw m vault issuance amount false
    failIf (sharesRedeemed = 0) .tecPrecisionLoss
    return (sharesRedeemed.toNat, ← sharesToAssetsWithdraw G m vault issuance sharesRedeemed)
  else
    match amount with
    | .mpt id n =>
      failIf (id ≠ vault.shareMPTID) .tefInternal
      return (n.toNat, ← sharesToAssetsWithdraw G m vault issuance n)
    | _ => throw .tefInternal

/-- `doWithdraw`: create a holding for an account that withdraws to itself, and send the assets. -/
def doWithdraw (sender dstAcct source : AccountID) (priorBalance : Int) (amount : STAmount) :
    Except TER Market := do
  let m ←
    if dstAcct = sender then m.addEmptyHolding G sender priorBalance amount.asset
    else do
      G.assetCheck (.verifyDepositPreauth sender dstAcct) m amount.asset
      pure m
  failIf (← m.holdsLess G source amount) .tefInternal
  m.accountSend G source dstAcct amount

def doApply (preFeeBalance : Int) (tx : LendingTx) (vaultID : UInt256) (amount : STAmount)
    (destination : Option AccountID) : Except TER LendingApplied := do
  let vault ← orFail (m.vaults.lookup vaultID) .tefInternal
  let issuance ← orFail (m.issuances.lookup vault.shareMPTID) .tefInternal
  let (sharesRedeemed, assetsWithdrawn) ← exchange G m vault issuance amount
  let frozen := !(G.assetCheck (.checkFrozen tx.account) m (.mpt vault.shareMPTID)).isOk
  let held := if frozen then 0 else Lending.shareBalance m vault.shareMPTID tx.account
  failIf (held < sharesRedeemed) .tecInsufficientFunds
  let withdrawn ← number (assetsWithdrawn.toNumber m.env)
  failIf (Number.lt vault.assetsAvailable withdrawn) .tecInsufficientFunds
  let assetsTotal ← number (Number.sub m.env vault.assetsTotal withdrawn)
  let assetsAvailable ← number (Number.sub m.env vault.assetsAvailable withdrawn)
  let vault := { vault with assetsTotal, assetsAvailable }
  let m := m.setVault vaultID vault
  let m ← m.accountSendMPT tx.account vault.account vault.shareMPTID sharesRedeemed
  let m ←
    if m.rules.lendingPermissionless then do
      let delta ← number (Number.ofInt m.env (-sharesRedeemed))
      Lending.adjustLiquidationDebtForShareDelta m vault tx.account delta
    else pure m
  let m ←
    if tx.account = vault.owner then pure m
    else m.removeEmptyHolding G vault.shareMPTID tx.account
  let m := m.setVault vaultID (vault.associateAsset G)
  let m ← doWithdraw G m tx.account (destination.getD tx.account) vault.account preFeeBalance
    assetsWithdrawn
  return ⟨m, some vaultID⟩

end VaultWithdraw

namespace VaultClawback

def preflight (vaultID : UInt256) (amount : Option STAmount) : Except TER Unit := do
  failIf (vaultID = 0) .temMalformed
  failIf (amount.any STAmount.negative) .temBadAmount
  failIf (amount.any fun amount => amount.asset.native) .temMalformed

/-- What is clawed back; none of it means all. -/
def clawbackAmount (vault : VaultEntry) (amount : Option STAmount) (account : AccountID) :
    STAmount :=
  amount.getD (.zeroOf (if account = vault.owner then .mpt vault.shareMPTID else vault.asset))

def preclaim (tx : LendingTx) (vaultID : UInt256) (holder : AccountID) (amount : Option STAmount) :
    Except TER Unit := do
  let vault ← orFail (m.vaults.lookup vaultID) .tecNoEntry
  let issuance ← orFail (m.issuances.lookup vault.shareMPTID) .tefInternal
  failIf (amount = none ∧ !vault.asset.native ∧ vault.asset.getIssuer = vault.owner) .tecWrongAsset
  let amount := clawbackAmount vault amount tx.account
  if amount.asset = .mpt vault.shareMPTID then
    failIf (tx.account ≠ vault.owner) .tecNoPermission
    failIf (issuance.outstandingAmount = 0 ∨ vault.assetsTotal ≠ 0 ∨ vault.assetsAvailable ≠ 0)
      .tecNoPermission
    failIf (amount ≠ .mpt vault.shareMPTID 0 ∧
      amount ≠ .mpt vault.shareMPTID (Lending.shareBalance m vault.shareMPTID holder))
      .tecLimitExceeded
  else
    failIf (amount.asset ≠ vault.asset) .tecWrongAsset
    failIf vault.asset.native .tecNoPermission
    failIf (tx.account ≠ vault.asset.getIssuer) .tecNoPermission
    failIf (tx.account = holder) .tecNoPermission
    G.assetCheck .canClawback m vault.asset

/-- The assets recovered are cut to what is available, and the shares with them. -/
def clampToAvailable (vault : VaultEntry) (issuance : ShareIssuance) (assets : STAmount)
    (shares : Int) : Except TER (STAmount × Nat) := do
  let recovered ← caught (assets.toNumber m.env)
  if Number.lt vault.assetsAvailable recovered then
    let available ← caught (G.amountOf m.env vault.asset vault.assetsAvailable)
    let shares ← assetsToSharesWithdraw m vault issuance available true
    let assets ← sharesToAssetsWithdraw G m vault issuance shares
    let recovered ← caught (assets.toNumber m.env)
    failIf (Number.lt vault.assetsAvailable recovered) .tecInternal
    return (assets, shares.toNat)
  else return (assets, shares.toNat)

/-- The assets an issuer claws back, and the shares that go with them. -/
def assetsToClawback (vault : VaultEntry) (issuance : ShareIssuance) (holder : AccountID)
    (amount : STAmount) : Except TER (STAmount × Nat) := do
  failIf (amount.asset ≠ vault.asset) .tecInternal
  let held := Lending.shareBalance m vault.shareMPTID holder
  if amount = .zeroOf vault.asset then
    if !m.rules.fixSecurity3_1_3 then
      -- the overflow is caught on the other paths only
      match sharesToAssetsWithdraw G m vault issuance held with
      | .ok assets => return (assets, held)
      | .error .tecPathDry => throw .tefException
      | .error ter => throw ter
    else
      clampToAvailable G m vault issuance (← sharesToAssetsWithdraw G m vault issuance held) held
  else
    let shares ← assetsToSharesWithdraw m vault issuance amount false
    clampToAvailable G m vault issuance (← sharesToAssetsWithdraw G m vault issuance shares) shares

def doApply (tx : LendingTx) (vaultID : UInt256) (holder : AccountID) (amount : Option STAmount) :
    Except TER LendingApplied := do
  let vault ← orFail (m.vaults.lookup vaultID) .tefInternal
  let issuance ← orFail (m.issuances.lookup vault.shareMPTID) .tefInternal
  let amount := clawbackAmount vault amount tx.account
  let (assetsRecovered, sharesDestroyed) ←
    if tx.account = vault.owner ∧ amount.asset = .mpt vault.shareMPTID then
      pure (.zeroOf vault.asset, Lending.shareBalance m vault.shareMPTID holder)
    else assetsToClawback G m vault issuance holder amount
  failIf (sharesDestroyed = 0) .tecPrecisionLoss
  let recovered ← number (assetsRecovered.toNumber m.env)
  let assetsTotal ← number (Number.sub m.env vault.assetsTotal recovered)
  let assetsAvailable ← number (Number.sub m.env vault.assetsAvailable recovered)
  let vault := { vault with assetsTotal, assetsAvailable }
  let m ← (m.setVault vaultID vault).accountSendMPT holder vault.account vault.shareMPTID
    sharesDestroyed
  let m ←
    if holder = vault.owner then pure m else m.removeEmptyHolding G vault.shareMPTID holder
  let m ←
    if assetsRecovered.positive then do
      let m ← m.accountSend G vault.account tx.account assetsRecovered
      failIf (← m.holdsLess G vault.account (.zeroOf assetsRecovered.asset)) .tefInternal
      pure m
    else pure m
  return ⟨m.setVault vaultID (vault.associateAsset G), some vaultID⟩

end VaultClawback

namespace SharePayment

/-- `Payment::doApply` for a direct payment of vault shares. -/
def doApply (tx : LendingTx) (destination : AccountID) (shares : MPTID) (amount : Nat) :
    Except TER LendingApplied := do
  let _ ← orFail (m.ledger.accounts.lookup destination) .tefInternal
  G.assetCheck (.requireAuth tx.account .legacy) m (.mpt shares)
  G.assetCheck (.requireAuth destination .legacy) m (.mpt shares)
  G.assetCheck (.canTransfer tx.account destination) m (.mpt shares)
  G.assetCheck (.verifyDepositPreauth tx.account destination) m (.mpt shares)
  let issuer := (m.issuances.lookup shares).map ShareIssuance.issuer
  checkWhen (some tx.account ≠ issuer ∧ some destination ≠ issuer) do
    failIf (!(G.assetCheck (.checkFrozen tx.account) m (.mpt shares)).isOk) .tecLocked
    failIf (!(G.assetCheck (.checkFrozen destination) m (.mpt shares)).isOk) .tecLocked
  match m.accountSendMPT tx.account destination shares amount with
  | .ok view => return { view }
  | .error .tecInsufficientFunds | .error .tecPathDry => throw .tecPathPartial
  | .error ter => throw ter

end SharePayment

end FalconLedger
