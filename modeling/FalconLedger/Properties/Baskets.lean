import FalconLedger.Properties.LiquidityClaims
import FalconLedger.Properties.ScoreClaims

/-!
# The baskets of an epoch

An epoch's emission is split into three baskets. No transactor keeps count of what a basket has
paid: a claim is paid the part of its basket that the claimant stands for *at that moment*, and only
the pool, which all baskets share, is drawn down. So a basket is a cap as long as nothing but claims
changes what can still be claimed. But shares can be moved between two claims, and scores written
anew, and two runs overdraw a basket in these ways.
-/

namespace FalconLedger

open Transactor Ledger

namespace RewardEpoch

/-- The vault basket: `sfEmissionRate * sfLPAllocationBps / 10000`. -/
def lpBasket (epoch : RewardEpoch) : Int :=
  epoch.emissionRate * (epoch.lpAllocationBps.getD 0).toNat / kBpsDenom.toNat

/-- The pool-token basket: `sfEmissionRate * sfAmmLPAllocationBps / 10000`. -/
def ammBasket (epoch : RewardEpoch) : Int :=
  epoch.emissionRate * (epoch.ammLPAllocationBps.getD 0).toNat / kBpsDenom.toNat

/-- The validator basket: what the other two leave of the emission. -/
def validatorBasket (epoch : RewardEpoch) : Int :=
  epoch.emissionRate - epoch.lpBasket - epoch.ammBasket

end RewardEpoch

/-- A basket of the current epoch, `0` without an epoch object. -/
def Ledger.basket (B : RewardEpoch → Int) (s : Ledger) : Int := (s.epoch.map B).getD 0

theorem Ledger.basket_of_epoch {s : Ledger} {epoch : RewardEpoch} (h : s.epoch = some epoch)
    (B : RewardEpoch → Int) : s.basket B = B epoch := by
  rw [basket, h]
  rfl

/-! ### Liquidity providers -/

variable {H : Services}

private theorem muldivU64_le_basket {emission : Int} (h : 0 ≤ emission) (bps : UInt32) :
    (muldivU64 emission.toNat bps.toNat kBpsDenom.toNat : Int) ≤
      emission * bps.toNat / kBpsDenom.toNat := by
  obtain ⟨n, rfl⟩ := Int.eq_ofNat_of_zero_le h
  exact_mod_cast muldivU64_le_div n bps.toNat kBpsDenom.toNat

theorem Chain.epoch_rolledOver {c : Chain} (hroll : c.rollsOver H = true) (store : Validations) :
    ∃ epoch, (c.rolledOver H store).view.epoch = some epoch ∧ 0 ≤ epoch.emissionRate ∧
      epoch.terms = (RewardEpoch.newEpoch H.toHashes c.view c.view.seq).terms := by
  obtain ⟨epoch, hepoch, heq⟩ := Option.map_eq_some_iff.mp (Chain.terms_rolledOver hroll store)
  have hrate : epoch.emissionRate = RewardEpoch.poolDrops
      (c.view.balanceOf H.getTreasuryAccountID) (c.view.seq / kQxrpLedgersPerEpoch) :=
    congrArg RewardEpoch.emissionRate heq
  refine ⟨epoch, hepoch, ?_, heq⟩
  rw [hrate]
  exact poolDrops_nonneg (Chain.treasury_pos hroll).le _

/-- The holders of a basket stand for no more than the whole of it, and once it has paid nothing but
claims changes what those who have not claimed stand for, unless it lowers it. -/
def Basket.ClaimedOnce (H : Services) (b : Basket) (c : Chain) (steps : List Step) : Prop :=
  Run.Always (Chain.step H) (b.Fits H) c steps ∧
    Run.Since (Chain.step H) (b.Pays H) (b.Keeps H) c steps

instance (H : Services) (b : Basket) (c : Chain) (steps : List Step) :
    Decidable (b.ClaimedOnce H c steps) :=
  inferInstanceAs (Decidable (_ ∧ _))

namespace Sample

def liquidityClaims (holder : AccountID) : List Step :=
  [send holder 1 (.claimLpReward (some 6)),
    send holder 2 (.claimAmmLpReward (some .xrp) (some (.issue 10 11)))]

def aliceClaimed : Chain :=
  Run.final (Chain.step services) (chain.rolledOver services .empty) (liquidityClaims alice)

/-- `alice` claims, passes her shares and tokens on to `bob`, and `bob` claims. -/
def claimTwice : List Step :=
  liquidityClaims alice ++ .outside aliceClaimed.view.accounts (holdings bob) :: liquidityClaims bob

/-- `alice` holds sixty shares and four tenths of the pool, and `bob` the others. -/
def sharedHoldings (bobs : UInt64) : Holdings :=
  { holdings alice with
    amms := AList.insert 7 ⟨ammAccount, .xrp, .issue 10 11, lpTokens 5⟩ ∅
    lines := (AList.insert (alice, ammAccount, 9) ⟨lpTokens 2, alice, ammAccount, false, false⟩
      ∅).insert (bob, ammAccount, 9) ⟨lpTokens 3, bob, ammAccount, false, false⟩
    mptokens := (AList.insert (4, alice) (100 - bobs) ∅).insert (4, bob) bobs }

def sharedChain : Chain :=
  Run.final (Chain.step services) (chain.rolledOver services .empty)
    (.outside (chain.rolledOver services .empty).view.accounts (sharedHoldings 40) ::
      liquidityClaims alice)

/-- `alice` claims, then gets ten shares more from `bob`, and `bob` claims. -/
def claimShared : List Step :=
  .outside (chain.rolledOver services .empty).view.accounts (sharedHoldings 40) ::
    liquidityClaims alice ++
      .outside sharedChain.view.accounts (sharedHoldings 30) :: liquidityClaims bob

end Sample

/-- What the code computes as the validator basket of a new epoch is at most the emission minus
the two other baskets. -/
private theorem validatorPoolDrops_le {epoch : RewardEpoch} (h : 0 ≤ epoch.emissionRate)
    (hlp : epoch.lpAllocationBps.getD 0 ≤ kQxrpPoplLpMaxBps)
    (hamm : epoch.ammLPAllocationBps.getD 0 ≤ kQxrpPoplAmmLpMaxBps) :
    ClaimReward.validatorPoolDrops epoch ≤ epoch.validatorBasket := by
  unfold RewardEpoch.validatorBasket RewardEpoch.lpBasket RewardEpoch.ammBasket
    ClaimReward.validatorPoolDrops ClaimReward.validatorBps
  generalize epoch.lpAllocationBps.getD 0 = lp at *
  generalize epoch.ammLPAllocationBps.getD 0 = amm at *
  rw [UInt32.le_iff_toNat_le] at hlp hamm
  have hlp' : lp.toNat ≤ 2500 := hlp
  have hamm' : amm.toNat ≤ 2500 := hamm
  have hadd : (lp + amm).toNat = lp.toNat + amm.toNat := by
    rw [UInt32.toNat_add]
    omega
  have hden : kBpsDenom.toNat = 10000 := rfl
  -- the two allocations stay below the whole, so neither the cap nor the subtraction bites
  have hused : (min kBpsDenom (lp + amm)).toNat = lp.toNat + amm.toNat := by
    rw [toNat_min, hadd, hden]
    omega
  have hrest : (kBpsDenom - min kBpsDenom (lp + amm)).toNat = 10000 - lp.toNat - amm.toNat := by
    rw [UInt32.toNat_sub_of_le _ _ (UInt32.le_iff_toNat_le.mpr (by omega)), hused, hden]
    omega
  rw [muldiv64_eq_ediv h (by decide), hrest, hden]
  have hsplit : epoch.emissionRate * ((10000 - lp.toNat - amm.toNat : ℕ) : Int) =
      10000 * epoch.emissionRate - epoch.emissionRate * lp.toNat -
        epoch.emissionRate * amm.toNat := by
    rw [Nat.cast_sub (by omega), Nat.cast_sub (by omega)]
    push_cast
    ring
  rw [hsplit]
  push_cast
  omega

/-- **The validator basket is a cap as long as no scores are written back once a validator has been
paid**, while the scores fit 32 bits. -/
theorem validator_basket_run (H : Services) (c : Chain) (store : Validations)
    (steps : List Step) (hroll : c.rollsOver H = true)
    (hscored : Table.All ValidatorBond.ScoredOnly c.view.bonds)
    (hstay : Run.Always (Chain.step H) (StaysInEpoch H) (c.rolledOver H store) steps)
    (hfit : Run.Always (Chain.step H) ScoresFit (c.rolledOver H store) steps)
    (hkeep : Run.Since (Chain.step H) (PaysValidator H) (fun c st => ¬WritesScores c st)
      (c.rolledOver H store) steps) :
    ((Run.outputs (Chain.step H) (c.rolledOver H store) steps).map
        (Event.paidBy STTx.isClaimReward)).sum ≤
      (c.rolledOver H store).view.basket RewardEpoch.validatorBasket := by
  obtain ⟨epoch, hepoch, hrate, hterms⟩ := Chain.epoch_rolledOver hroll store
  rw [basket_of_epoch hepoch]
  have hsum := sum_paid_le hepoch (muldiv64_nonneg hrate (by decide))
    (Chain.measured_rolledOver hroll store hscored) hstay hfit hkeep
  have hlp : epoch.lpAllocationBps = unlessZero _ := congrArg RewardEpoch.lpAllocationBps hterms
  have hamm : epoch.ammLPAllocationBps = unlessZero _ :=
    congrArg RewardEpoch.ammLPAllocationBps hterms
  refine hsum.trans (validatorPoolDrops_le hrate ?_ ?_)
  · rw [hlp, getD_unlessZero]
    exact participationBps_le _ _ _ _
  · rw [hamm, getD_unlessZero]
    exact participationBps_le _ _ _ _

/-- Scores are written back, and then both validators claim. -/
theorem validator_basket_two_claims :
    let start := Sample.chain.rolledOver Sample.services .empty
    let steps := List.replicate 256 (.close .empty) ++
      [Sample.send Sample.alice 1 (.claimReward Sample.aliceKey),
        Sample.send Sample.bob 1 (.claimReward Sample.bobKey)]
    let paid := ((Run.outputs (Chain.step Sample.services) start steps).map
      (Event.paidBy STTx.isClaimReward)).sum
    paid = 9800 ∧ paid ≤ start.view.basket RewardEpoch.validatorBasket := by
  intro start steps paid
  have h := validator_basket_run Sample.services Sample.chain .empty steps (by decide +kernel)
    (by decide +kernel) (by decide +kernel) (by decide +kernel) (by decide +kernel)
  exact ⟨by decide +kernel, h⟩

/-- `alice` claims and unbonds; the next scoring leaves `bob` alone with the whole of the
aggregate, and `bob` claims. -/
def Sample.claimAcrossScoring : List Step :=
  [send alice 1 (.claimReward aliceKey), send alice 2 (.validatorUnbond aliceKey)] ++
    List.replicate 256 (.close .empty) ++ [send bob 1 (.claimReward bobKey)]

/-- A write-back of the scores between two claims overdraws the validator basket: it holds 9800
drops and pays the whole emission of 10000. -/
theorem validator_basket_overdrawn :
    let start := Sample.chain.rolledOver Sample.services .empty
    Sample.chain.rollsOver Sample.services = true ∧
      Run.Always (Chain.step Sample.services) (StaysInEpoch Sample.services) start
        Sample.claimAcrossScoring ∧
      start.view.basket RewardEpoch.validatorBasket = 9800 ∧
      ((Run.outputs (Chain.step Sample.services) start Sample.claimAcrossScoring).map
        (Event.paidBy STTx.isClaimReward)).sum = 10000 := by
  decide +kernel

end FalconLedger
