import FalconLedger.Tx.ApplyContext

/-!
# Reward claims

The transactors `ClaimReward`, `ClaimLPReward` and `ClaimAmmLpReward`. Each computes a share of the
epoch's emission in its own way and then settles it in the same one: `payClaim` caps the share to
what is left of the epoch's pool, moves it from the treasury to the claimant and takes it out of the
pool.
-/

namespace FalconLedger

/-- Pay a share of the epoch's emission. Returns the view and the drops paid. -/
def payClaim (H : Services) (s : Ledger) (tx : STTx) (epoch : RewardEpoch) (shareDrops : Int) :
    Except TER (Ledger × Int) := do
  failIf (epoch.epochPoolBalance ≤ 0) .tecUnfunded
  -- the cap is the pool that all baskets share, not what is left of the claimant's basket
  let pay := if epoch.epochPoolBalance < shareDrops then epoch.epochPoolBalance else shareDrops
  let treasury ← orFail (s.accounts.lookup H.getTreasuryAccountID) .tefInternal
  failIf (treasury.balance < pay) .tecUnfunded
  let s := s.setAccount H.getTreasuryAccountID { treasury with balance := treasury.balance - pay }
  -- looked up after the debit: the claimant may be the treasury
  let root ← orFail (s.accounts.lookup tx.account) .tefInternal
  let s := s.setAccount tx.account { root with balance := root.balance + pay }
  let epoch :=
    { epoch with
      epochPoolBalance := epoch.epochPoolBalance - pay
      previousTxnID := tx.transactionID
      previousTxnLgrSeq := s.seq }
  return ({ s with epoch := some epoch }, pay)

/-- The ledger after a payout of `pay` drops. -/
def Ledger.payOut (s : Ledger) (H : Hashes) (tx : STTx) (epoch : RewardEpoch)
    (treasury root : AccountRoot) (pay : Int) : Ledger :=
  { (s.setAccount H.getTreasuryAccountID
      { treasury with balance := treasury.balance - pay }).setAccount tx.account
      { root with balance := root.balance + pay } with
    epoch := some
      { epoch with
        epochPoolBalance := epoch.epochPoolBalance - pay
        previousTxnID := tx.transactionID
        previousTxnLgrSeq := s.seq } }

section Settlement

variable {H : Services} {s s' : Ledger} {tx : STTx} {epoch : RewardEpoch} {share pay : Int}

/-- A settled claim pays the share, capped to the pool, out of a treasury that has it. -/
theorem payClaim_ok (h : payClaim H s tx epoch share = .ok (s', pay)) :
    ∃ treasury root, s.accounts.lookup H.getTreasuryAccountID = some treasury ∧
      (s.setAccount H.getTreasuryAccountID
        { treasury with balance := treasury.balance - pay }).accounts.lookup tx.account =
          some root ∧
      0 < epoch.epochPoolBalance ∧ pay = min share epoch.epochPoolBalance ∧
      pay ≤ treasury.balance ∧ s' = s.payOut H.toHashes tx epoch treasury root pay := by
  simp only [payClaim, Except.bind_eq_ok, orFail_eq_ok, failIf_eq_ok, Except.pure_eq_ok,
    Prod.mk.injEq] at h
  obtain ⟨-, hpool, treasury, ht, -, hfund, root, hroot, hs', hpay⟩ := h
  have hmin : pay = min share epoch.epochPoolBalance := by
    rw [← hpay]
    split_ifs with hcap
    · exact (min_eq_right hcap.le).symm
    · exact (min_eq_left (not_lt.mp hcap)).symm
  rw [hpay] at hfund hroot hs'
  exact ⟨treasury, root, ht, hroot, not_le.mp hpool, hmin, not_lt.mp hfund, hs'.symm⟩

/-- The treasury is debited by exactly what the claimant is credited, and no other balance
moves. -/
theorem balanceOf_payOut {treasury root : AccountRoot}
    (ht : s.accounts.lookup H.getTreasuryAccountID = some treasury)
    (hroot : (s.setAccount H.getTreasuryAccountID
        { treasury with balance := treasury.balance - pay }).accounts.lookup tx.account =
          some root) (id : AccountID) :
    (s.payOut H.toHashes tx epoch treasury root pay).balanceOf id = s.balanceOf id -
      (if id = H.getTreasuryAccountID then pay else 0) + (if id = tx.account then pay else 0) := by
  have hpaid : ∀ id, (s.setAccount H.getTreasuryAccountID
      { treasury with balance := treasury.balance - pay }).balanceOf id =
        s.balanceOf id - if id = H.getTreasuryAccountID then pay else 0 := fun id => by
    split_ifs with hid
    · subst hid
      rw [Ledger.balanceOf_setAccount_self, Ledger.balanceOf_of_lookup ht]
    · rw [Ledger.balanceOf_setAccount_of_ne hid, sub_zero]
  rw [← hpaid]
  split_ifs with hid
  · subst hid
    rw [Ledger.balanceOf_of_lookup hroot]
    exact Ledger.balanceOf_setAccount_self _ _ _
  · rw [add_zero]
    exact Ledger.balanceOf_setAccount_of_ne hid

end Settlement

variable {H : Services} {s : Ledger} {tx : STTx} {a : Applied}

namespace ClaimReward

def preflight (rules : Rules) (consensusKey : Blob) : Except TER Unit := do
  failIf (!rules.proofOfParticipation) .temDisabled
  failIf (!isValidNodeKey consensusKey) .temInvalidFlag

def preclaim (H : Services) (s : Ledger) (tx : STTx) (consensusKey : Blob) : Except TER Unit := do
  let bond ← orFail (s.bonds.lookup (H.calcValidatorBondID consensusKey)) .tecNoEntry
  failIf (bond.account ≠ tx.account) .tecNoPermission
  failIf (bond.bondStatus ≠ .bonded) .tecNoPermission
  failIf (bond.compositeScore.getD 0 < kMinCompositeScoreBps) .tecInsuffFee
  failIf (s.epoch = none) .tecNoEntry

/-- What the liquidity baskets leave the validators, in bps of the emission. -/
def validatorBps (epoch : RewardEpoch) : UInt32 :=
  let lpAllocBps := epoch.lpAllocationBps.getD 0
  let ammAllocBps := epoch.ammLPAllocationBps.getD 0
  let usedBps := min kBpsDenom (lpAllocBps + ammAllocBps)
  kBpsDenom - usedBps

/-- `emission * validatorBps / 10000 * compositeScore / aggregateScore`. -/
def shareDrops (epoch : RewardEpoch) (bond : ValidatorBond) : Int :=
  let validatorPoolDrops := muldiv64 epoch.emissionRate (validatorBps epoch) kBpsDenom
  muldiv64 validatorPoolDrops (bond.compositeScore.getD 0) (epoch.aggregateCompositeScore.getD 0)

/-- The bond marked as claimed for the epoch. -/
def markClaimed (seq : UInt32) (tx : STTx) (epoch : RewardEpoch) (bond : ValidatorBond) :
    ValidatorBond :=
  { bond with
    lastClaimedEpoch := some epoch.epochNumber
    previousTxnID := tx.transactionID
    previousTxnLgrSeq := seq }

def doApply (H : Services) (s : Ledger) (tx : STTx) (consensusKey : Blob) :
    Except TER Applied := do
  let id := H.calcValidatorBondID consensusKey
  let bond ← orFail (s.bonds.lookup id) .tefInternal
  let epoch ← orFail s.epoch .tefInternal
  failIf (epoch.epochNumber ≤ bond.lastClaimedEpoch.getD 0) .tecDuplicate
  failIf (epoch.aggregateCompositeScore.getD 0 = 0) .tecNoPermission
  -- success without a mark: a share that rounds to zero may be claimed again in this epoch
  if shareDrops epoch bond ≤ 0 then return { view := s }
  else
    let (s, pay) ← payClaim H s tx epoch (shareDrops epoch bond)
    return { view := s.setBond id (markClaimed s.seq tx epoch bond), paid := pay }

theorem doApply_ok {consensusKey : Blob} (h : doApply H s tx consensusKey = .ok a) :
    ∃ bond epoch, s.bonds.lookup (H.calcValidatorBondID consensusKey) = some bond ∧
      s.epoch = some epoch ∧ bond.lastClaimedEpoch.getD 0 < epoch.epochNumber ∧
      epoch.aggregateCompositeScore.getD 0 ≠ 0 ∧
      ((shareDrops epoch bond ≤ 0 ∧ a = { view := s }) ∨
        (0 < shareDrops epoch bond ∧ ∃ s₁ pay,
          payClaim H s tx epoch (shareDrops epoch bond) = .ok (s₁, pay) ∧
          a = { view := s₁.setBond (H.calcValidatorBondID consensusKey)
                  (markClaimed s₁.seq tx epoch bond), paid := pay })) := by
  simp only [doApply, Except.bind_eq_ok, orFail_eq_ok, failIf_eq_ok] at h
  obtain ⟨bond, hbond, epoch, hepoch, -, hdup, -, hagg, h⟩ := h
  refine ⟨bond, epoch, hbond, hepoch, UInt32.not_le.mp hdup, hagg, ?_⟩
  split at h
  · rename_i hzero
    simp only [Except.pure_eq_ok] at h
    exact .inl ⟨hzero, h.symm⟩
  · rename_i hpos
    simp only [Except.bind_eq_ok, Except.pure_eq_ok] at h
    obtain ⟨⟨s₁, pay⟩, hpaid, rfl⟩ := h
    exact .inr ⟨not_le.mp hpos, s₁, pay, hpaid, rfl⟩

end ClaimReward

/-- Record in the claimant's state for a vault or a pool that the epoch has been claimed. -/
def Ledger.markLpClaimed (s : Ledger) (tx : STTx) (epoch : RewardEpoch) (key : UInt256) : Ledger :=
  let state : PopLpState :=
    match s.lpStates.lookup (tx.account, key) with
    | some state =>
      { state with
        lastClaimedEpoch := some epoch.epochNumber
        previousTxnID := tx.transactionID
        previousTxnLgrSeq := s.seq }
    | none =>
      { account := tx.account
        vaultID := key
        lastClaimedEpoch := some epoch.epochNumber
        previousTxnID := tx.transactionID
        previousTxnLgrSeq := s.seq }
  { s with lpStates := s.lpStates.insert (tx.account, key) state }

/-- The last epoch an account claimed for a vault or a pool, as a claim checks it. -/
def Ledger.lpClaimedThrough (s : Ledger) (account : AccountID) (key : UInt256) (epoch : UInt32) :
    Bool :=
  (s.lpStates.lookup (account, key)).any fun state =>
    decide (epoch ≤ state.lastClaimedEpoch.getD 0)

/-- Pay a liquidity provider's share and mark the claim; a share that rounds to zero changes
nothing. -/
def settleLpClaim (H : Services) (s : Ledger) (tx : STTx) (epoch : RewardEpoch) (key : UInt256)
    (shareDrops : Nat) : Except TER Applied :=
  if shareDrops = 0 then .ok { view := s }
  else do
    let (s, pay) ← payClaim H s tx epoch shareDrops
    return { view := s.markLpClaimed tx epoch key, paid := pay }

theorem settleLpClaim_ok {epoch : RewardEpoch} {key : UInt256} {shareDrops : Nat}
    (h : settleLpClaim H s tx epoch key shareDrops = .ok a) :
    (shareDrops = 0 ∧ a = { view := s }) ∨
      (0 < shareDrops ∧ ∃ s₁ pay, payClaim H s tx epoch shareDrops = .ok (s₁, pay) ∧
        a = { view := s₁.markLpClaimed tx epoch key, paid := pay }) := by
  unfold settleLpClaim at h
  split at h
  · rename_i hzero
    exact .inl ⟨hzero, (Except.ok.inj h).symm⟩
  · rename_i hpos
    simp only [Except.bind_eq_ok, Except.pure_eq_ok] at h
    obtain ⟨⟨s₁, pay⟩, hpaid, rfl⟩ := h
    exact .inr ⟨Nat.pos_of_ne_zero hpos, s₁, pay, hpaid, rfl⟩

namespace ClaimLPReward

def preflight (rules : Rules) (vaultID : Option UInt256) : Except TER Unit := do
  failIf (!rules.proofOfParticipation) .temDisabled
  failIf (vaultID = none) .temMalformed

def preclaim (s : Ledger) (tx : STTx) (vaultID : Option UInt256) : Except TER Unit := do
  let vaultKey := vaultID.getD 0
  let vault ← orFail (s.holdings.vaults.lookup vaultKey) .tecNoEntry
  let epoch ← orFail s.epoch .tecNoEntry
  failIf (epoch.lpAllocationBps.getD 0 = 0) .tecNoPermission
  failIf (epoch.aggregateLPShares.getD 0 = 0) .tecNoPermission
  let shares := (s.holdings.mptokens.lookup (vault.shareMPTID, tx.account)).getD 0
  failIf (shares = 0) .tecNoPermission
  failIf (s.lpClaimedThrough tx.account vaultKey epoch.epochNumber) .tecDuplicate

/-- Outstanding vault shares over all vaults, in 64-bit arithmetic. -/
def liveAggregateVaultShareSupply (s : Ledger) : UInt64 :=
  (Table.values s.holdings.vaults).foldl
    (fun total vault => total + (s.holdings.issuances.lookup vault.shareMPTID).getD 0) 0

/-- The number of shares a claim is measured against. -/
def denom (s : Ledger) (epoch : RewardEpoch) : UInt64 :=
  max (epoch.aggregateLPShares.getD 0) (liveAggregateVaultShareSupply s)

/-- The vault basket. -/
def lpPoolDrops (epoch : RewardEpoch) : Nat :=
  muldivU64 epoch.emissionRate.toNat (epoch.lpAllocationBps.getD 0).toNat kBpsDenom.toNat

/-- `emission * lpAllocBps / 10000 * userShares / denom`. -/
def shareDrops (s : Ledger) (epoch : RewardEpoch) (userShares : UInt64) : Nat :=
  muldivU64 (lpPoolDrops epoch) userShares.toNat (denom s epoch).toNat

def doApply (H : Services) (s : Ledger) (tx : STTx) (vaultID : Option UInt256) :
    Except TER Applied := do
  let vaultKey := vaultID.getD 0
  let vault ← orFail (s.holdings.vaults.lookup vaultKey) .tefInternal
  let epoch ← orFail s.epoch .tefInternal
  failIf (epoch.lpAllocationBps.getD 0 = 0 ∨ epoch.aggregateLPShares.getD 0 = 0) .tecNoPermission
  let userShares ← orFail (s.holdings.mptokens.lookup (vault.shareMPTID, tx.account)) .tefInternal
  failIf (userShares = 0) .tecNoPermission
  failIf (denom s epoch = 0) .tecNoPermission
  settleLpClaim H s tx epoch vaultKey (shareDrops s epoch userShares)

theorem doApply_ok {vaultID : Option UInt256} (h : doApply H s tx vaultID = .ok a) :
    ∃ vault epoch userShares, s.holdings.vaults.lookup (vaultID.getD 0) = some vault ∧
      s.epoch = some epoch ∧
      s.holdings.mptokens.lookup (vault.shareMPTID, tx.account) = some userShares ∧
      denom s epoch ≠ 0 ∧
      settleLpClaim H s tx epoch (vaultID.getD 0) (shareDrops s epoch userShares) = .ok a := by
  simp only [doApply, Except.bind_eq_ok, orFail_eq_ok, failIf_eq_ok] at h
  obtain ⟨vault, hvault, epoch, hepoch, -, -, shares, hshares, -, -, -, hdenom, h⟩ := h
  exact ⟨vault, epoch, shares, hvault, hepoch, hshares, hdenom, h⟩

end ClaimLPReward

namespace ClaimAmmLpReward

/-- Weight of a pool: the native drops its account holds, else its token supply. -/
def nativeAmmTvlDrops (s : Ledger) (amm : Amm) : UInt64 :=
  let fallback := if 0 < amm.lpTokenBalance.mantissa then amm.lpTokenBalance.mantissa else 1
  match s.accounts.lookup amm.account with
  | some root => if 0 < root.balance then UInt64.ofNat root.balance.toNat else fallback
  | none => fallback

def positiveMantissa (amt : IssuedAmount) : UInt64 :=
  if amt.isNonPositive then 0 else amt.mantissa

/-- Weight of all pools with a native side, in 64-bit arithmetic. -/
def liveAggregateNativeAmmTvl (s : Ledger) : UInt64 :=
  (Table.values s.holdings.amms).foldl
    (fun tvl amm =>
      if !amm.asset.native && !amm.asset2.native then tvl else tvl + nativeAmmTvlDrops s amm) 0

/-- Whether the issuer has frozen the line, or everything it issues. -/
def isFrozen (s : Ledger) (account : AccountID) (currency : Currency) (issuer : AccountID) : Bool :=
  (s.accounts.lookup issuer).any AccountRoot.globalFreeze ||
    (decide (issuer ≠ account) &&
      (s.holdings.lines.lookup (lineKey account issuer currency)).any fun line =>
        if account < issuer then line.highFreeze else line.lowFreeze)

/-- The pool tokens an account holds: none without a line or when it is frozen, and the line's
balance seen from the account otherwise. -/
def ammLPHolds (H : Services) (s : Ledger) (amm : Amm) (lpAccount : AccountID) : IssuedAmount :=
  let currency := H.ammLptCurrency amm.asset amm.asset2
  let zero : IssuedAmount := ⟨0, -100, false, currency, amm.account⟩
  match s.holdings.lines.lookup (lineKey lpAccount amm.account currency) with
  | none => zero
  | some line =>
    if isFrozen s lpAccount currency amm.account then zero
    else
      -- a line keeps its balance from the side of the lower of the two accounts
      let amount := if amm.account < lpAccount ∧ line.balance.mantissa ≠ 0 then
          { line.balance with negative := !line.balance.negative }
        else line.balance
      { amount with account := amm.account }

def preflight (rules : Rules) (asset asset2 : Option Asset) : Except TER Unit := do
  failIf (!rules.proofOfParticipation) .temDisabled
  failIf (asset = none ∨ asset2 = none) .temMalformed
  failIf (asset = asset2) .temBadAmmTokens

def preclaim (H : Services) (s : Ledger) (tx : STTx) (asset asset2 : Option Asset) :
    Except TER Unit := do
  let asset := asset.getD .xrp
  let asset2 := asset2.getD .xrp
  failIf (!asset.native ∧ !asset2.native) .tecNoPermission
  let amm ← orFail (s.holdings.amms.lookup (H.ammKey asset asset2)) .tecNoEntry
  let epoch ← orFail s.epoch .tecNoEntry
  failIf (epoch.ammLPAllocationBps.getD 0 = 0) .tecNoPermission
  failIf (epoch.aggregateAmmTvlDrops.getD 0 = 0) .tecNoPermission
  failIf (ammLPHolds H s amm tx.account).isNonPositive .tecNoPermission
  failIf amm.lpTokenBalance.isNonPositive .tecNoPermission
  failIf (s.lpClaimedThrough tx.account (H.ammKey asset asset2) epoch.epochNumber) .tecDuplicate

/-- The pool weight a claim is measured against. -/
def tvlDenom (s : Ledger) (epoch : RewardEpoch) : UInt64 :=
  max (epoch.aggregateAmmTvlDrops.getD 0) (liveAggregateNativeAmmTvl s)

/-- The AMM basket. -/
def ammBasket (epoch : RewardEpoch) : Nat :=
  muldivU64 epoch.emissionRate.toNat (epoch.ammLPAllocationBps.getD 0).toNat kBpsDenom.toNat

/-- `ammBasket * poolTvl / tvlDenom * userMant / totalMant`. -/
def shareDrops (s : Ledger) (epoch : RewardEpoch) (amm : Amm) (userMant : UInt64) : Nat :=
  let poolBasket :=
    muldivU64 (ammBasket epoch) (nativeAmmTvlDrops s amm).toNat (tvlDenom s epoch).toNat
  muldivU64 poolBasket userMant.toNat (positiveMantissa amm.lpTokenBalance).toNat

def doApply (H : Services) (s : Ledger) (tx : STTx) (asset asset2 : Option Asset) :
    Except TER Applied := do
  let key := H.ammKey (asset.getD .xrp) (asset2.getD .xrp)
  let amm ← orFail (s.holdings.amms.lookup key) .tefInternal
  let epoch ← orFail s.epoch .tefInternal
  failIf (epoch.ammLPAllocationBps.getD 0 = 0 ∨ epoch.aggregateAmmTvlDrops.getD 0 = 0)
    .tecNoPermission
  let userMant := positiveMantissa (ammLPHolds H s amm tx.account)
  failIf (userMant = 0 ∨ positiveMantissa amm.lpTokenBalance = 0) .tecNoPermission
  failIf (tvlDenom s epoch = 0 ∨ nativeAmmTvlDrops s amm = 0) .tecNoPermission
  settleLpClaim H s tx epoch key (shareDrops s epoch amm userMant)

theorem doApply_ok {asset asset2 : Option Asset} (h : doApply H s tx asset asset2 = .ok a) :
    ∃ amm epoch,
      s.holdings.amms.lookup (H.ammKey (asset.getD .xrp) (asset2.getD .xrp)) = some amm ∧
      s.epoch = some epoch ∧ positiveMantissa amm.lpTokenBalance ≠ 0 ∧ tvlDenom s epoch ≠ 0 ∧
      settleLpClaim H s tx epoch (H.ammKey (asset.getD .xrp) (asset2.getD .xrp))
        (shareDrops s epoch amm (positiveMantissa (ammLPHolds H s amm tx.account))) = .ok a := by
  simp only [doApply, Except.bind_eq_ok, orFail_eq_ok, failIf_eq_ok, not_or] at h
  obtain ⟨amm, hamm, epoch, hepoch, -, -, -, hmant, -, hdenom, h⟩ := h
  exact ⟨amm, epoch, hamm, hepoch, hmant.2, hdenom.1, h⟩

end ClaimAmmLpReward

end FalconLedger
