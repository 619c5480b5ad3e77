import FalconLedger.Ledger.State
import FalconLedger.Tx.PoplEmission

/-!
# Epoch rollover

`applyRewardEpoch` of `RewardEpoch.cpp`, run when a ledger closes. At an epoch boundary with a
funded treasury it builds a new epoch object in place of the old one: the pool and the emission from
the treasury's balance and the schedule, the liquidity baskets from the holders of vault shares and
pool tokens, the burn share from how full the treasury is.
-/

namespace FalconLedger

/-- A `SoeDefault` field: written only if it is not zero. -/
def unlessZero {α : Type} [DecidableEq α] [OfNat α 0] (n : α) : Option α :=
  if n = 0 then none else some n

theorem unlessZero_ne_some_zero {α : Type} [DecidableEq α] [OfNat α 0] (n : α) :
    unlessZero n ≠ some 0 := by
  unfold unlessZero
  split_ifs with h
  · simp
  · simpa using h

@[simp] theorem getD_unlessZero {α : Type} [DecidableEq α] [OfNat α 0] (n : α) :
    (unlessZero n).getD 0 = n := by
  unfold unlessZero
  split_ifs with h
  · exact h.symm
  · rfl

namespace RewardEpoch

/-- Outstanding vault shares over all vaults. -/
def aggregateVaultShareSupply (s : Ledger) : UInt64 :=
  (Table.values s.holdings.vaults).foldl
    (fun total vault => total + (s.holdings.issuances.lookup vault.shareMPTID).getD 0) 0

/-- The number of accounts that hold shares of a vault. -/
def countActiveLpProviders (s : Ledger) : UInt32 :=
  let shareMptIDs := (Table.values s.holdings.vaults).map Vault.shareMPTID
  let providers := s.holdings.mptokens.entries.filterMap fun e =>
    if e.1.1 ∈ shareMptIDs ∧ e.2 ≠ 0 then some e.1.2 else none
  UInt32.ofNat providers.dedup.length

/-- A pool with a native side. -/
structure NativeAmmInfo where
  ammAccount : AccountID
  lpCurrency : Currency
  xrpDrops : Int
  deriving DecidableEq

def listNativeAmms (H : Hashes) (s : Ledger) : List NativeAmmInfo :=
  (Table.values s.holdings.amms).filterMap fun amm =>
    if !amm.asset.native && !amm.asset2.native then none
    else
      let held := s.balanceOf amm.account
      -- an account without drops is weighed by its token supply
      let xrpDrops := if held ≤ 0 then max 1 (amm.lpTokenBalance.mantissa.toNat : Int) else held
      some ⟨amm.account, H.ammLptCurrency amm.asset amm.asset2, xrpDrops⟩

/-- The holder a trust line counts for, if its balance is in the tokens of one of the pools. -/
def lpHolder (amms : List NativeAmmInfo) (line : RippleState) : Option AccountID :=
  if line.balance.mantissa = 0 then none
  else
    amms.findSome? fun a =>
      if line.balance.currency ≠ a.lpCurrency ∨ line.balance.account ≠ a.ammAccount then none
      else
        let holder := if line.lowIssuer = a.ammAccount then line.highIssuer else line.lowIssuer
        if holder = a.ammAccount ∨ holder = 0 then none else some holder

/-- The number of accounts that hold tokens of a native pool, and the weight of those pools. -/
def countAmmLpProvidersAndTvl (H : Hashes) (s : Ledger) : UInt32 × UInt64 :=
  let amms := listNativeAmms H s
  if amms = [] then (0, 0)
  else
    let tvl := amms.foldl (fun tvl a => tvl + UInt64.ofNat (max 0 a.xrpDrops).toNat) 0
    let providers := (Table.values s.holdings.lines).filterMap (lpHolder amms)
    (UInt32.ofNat providers.dedup.length, tvl)

/-- The rate an epoch emits at: none during the quiet period. -/
def emissionBps (epochNum : UInt32) : UInt32 :=
  if epochNum < kQxrpFirstEmissionEpoch then 0 else cidEmissionBps epochNum

/-- The drops an epoch commits of the treasury's balance. -/
def poolDrops (treasuryDrops : Int) (epochNum : UInt32) : Int :=
  if emissionBps epochNum = 0 then 0
  else muldiv64 treasuryDrops (emissionBps epochNum) kBpsDenom

/-- One basis point of the genesis treasury. -/
def kTreasuryPerBps : Int := kQxrpTreasuryAllocation / 10000

/-- The burn share for a treasury balance: the default plus up to a tenth for how full it is. -/
def fillBurnBps (treasuryDrops : Int) : UInt32 :=
  let fillBps := UInt32.ofNat (treasuryDrops.toNat / kTreasuryPerBps.toNat)
  let raised := kFeeBurnDefaultBps +
    UInt32.ofNat (fillBps.toNat * kFeeTreasurySensitivityBps.toNat / kBpsDenom.toNat)
  max kFeeBurnMinBps (min raised kFeeBurnMaxBps)

/-- Whether the close of ledger `seq` starts a new epoch. -/
def rollsOver (H : Hashes) (s : Ledger) (seq : UInt32) (rules : Rules) : Bool :=
  rules.proofOfParticipation && decide (seq ≠ 0) && decide (seq % kQxrpLedgersPerEpoch = 0) &&
    decide (0 < s.balanceOf H.getTreasuryAccountID)

/-- The epoch object a rollover builds. -/
def newEpoch (H : Hashes) (s : Ledger) (seq : UInt32) : RewardEpoch :=
  let epochNum := seq / kQxrpLedgersPerEpoch
  let treasuryDrops := s.balanceOf H.getTreasuryAccountID
  let (ammProviderCount, aggregateAmmTvl) := countAmmLpProvidersAndTvl H s
  { epochNumber := epochNum
    epochStartLedger := seq
    epochPoolBalance := poolDrops treasuryDrops epochNum
    emissionRate := poolDrops treasuryDrops epochNum
    currentBurnBps := fillBurnBps treasuryDrops
    -- the one field taken over from the old object
    feeVolumeEMA := unlessZero ((s.epoch.bind RewardEpoch.feeVolumeEMA).getD 0)
    -- written by scoring, which follows in the same close
    aggregateCompositeScore := none
    lpAllocationBps := unlessZero (poplLpParticipationBps (countActiveLpProviders s))
    aggregateLPShares := unlessZero (aggregateVaultShareSupply s)
    ammLPAllocationBps := unlessZero (poplAmmLpParticipationBps ammProviderCount)
    aggregateAmmTvlDrops := unlessZero aggregateAmmTvl
    -- the old object's list is not taken over
    proposals := none
    previousTxnID := 0
    previousTxnLgrSeq := seq }

end RewardEpoch

open RewardEpoch

def applyRewardEpoch (H : Hashes) (s : Ledger) (seq : UInt32) (rules : Rules) : Ledger :=
  if rollsOver H s seq rules then { s with epoch := some (newEpoch H s seq) } else s

theorem applyRewardEpoch_of_not {H : Hashes} {s : Ledger} {seq : UInt32} {rules : Rules}
    (h : rollsOver H s seq rules = false) : applyRewardEpoch H s seq rules = s := by
  simp [applyRewardEpoch, h]

theorem applyRewardEpoch_of_rollsOver {H : Hashes} {s : Ledger} {seq : UInt32} {rules : Rules}
    (h : rollsOver H s seq rules = true) :
    applyRewardEpoch H s seq rules = { s with epoch := some (newEpoch H s seq) } := by
  simp [applyRewardEpoch, h]

end FalconLedger
