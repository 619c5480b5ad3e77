import FalconLedger.Close.BuildLedger
import Mathlib.Algebra.Order.Field.Power
import Mathlib.Algebra.Order.Floor.Semifield
import Mathlib.Data.Rat.Floor
import Mathlib.Tactic.Positivity

/-!
# Shares of a pool's basket

What a provider is paid for pool tokens is computed from the two mantissas alone. That is the
provider's part of the basket where the holding and the supply have one exponent; a smaller holding
that is written with a smaller exponent is paid up to ten times as much as the whole basket
(`pool_share_half`).
-/

namespace FalconLedger.ClaimAmmLpReward

variable {s : Ledger} {epoch : RewardEpoch} {amm : Amm} {lp lp' : IssuedAmount}

/-- The pool's part of the AMM basket. -/
def poolBasket (s : Ledger) (epoch : RewardEpoch) (amm : Amm) : ℕ :=
  muldivU64 (ammBasket epoch) (nativeAmmTvlDrops s amm).toNat (tvlDenom s epoch).toNat

/-- What a holding of pool tokens is paid before the cap. -/
def shareOf (s : Ledger) (epoch : RewardEpoch) (amm : Amm) (lp : IssuedAmount) : ℕ :=
  shareDrops s epoch amm (positiveMantissa lp)

end FalconLedger.ClaimAmmLpReward

namespace FalconLedger.IssuedAmount

/-- The amount, as a number. -/
def magnitude (amt : IssuedAmount) : ℚ := amt.mantissa.toNat * 10 ^ amt.exponent

/-- A positive amount as `STAmount` keeps it, with sixteen digits. -/
structure IsPositive (amt : IssuedAmount) : Prop where
  not_negative : amt.negative = false
  le_mantissa : 10 ^ 15 ≤ amt.mantissa.toNat
  mantissa_lt : amt.mantissa.toNat < 10 ^ 16

variable {amt amt' : IssuedAmount}

theorem IsPositive.pos (h : amt.IsPositive) : 0 < amt.mantissa.toNat :=
  lt_of_lt_of_le (by norm_num) h.le_mantissa

theorem IsPositive.exponent_le (h : amt.IsPositive) (h' : amt'.IsPositive)
    (hle : amt.magnitude ≤ amt'.magnitude) : amt.exponent ≤ amt'.exponent := by
  by_contra hlt
  refine absurd hle (not_le.mpr ?_)
  have hstep : amt'.exponent + 1 ≤ amt.exponent := by omega
  have hlow : ((10 : ℚ) ^ 15) ≤ amt.mantissa.toNat := by exact_mod_cast h.le_mantissa
  have hhigh : (amt'.mantissa.toNat : ℚ) < 10 ^ 16 := by exact_mod_cast h'.mantissa_lt
  calc amt'.magnitude < 10 ^ 16 * 10 ^ amt'.exponent := mul_lt_mul_of_pos_right hhigh (by positivity)
    _ = 10 ^ 15 * 10 ^ (amt'.exponent + 1) := by
        rw [zpow_add_one₀ (by norm_num)]
        ring
    _ ≤ 10 ^ 15 * 10 ^ amt.exponent :=
        mul_le_mul_of_nonneg_left (zpow_le_zpow_right₀ (by norm_num) hstep) (by positivity)
    _ ≤ amt.magnitude := mul_le_mul_of_nonneg_right hlow (by positivity)

theorem mantissa_le (hexp : amt.exponent = amt'.exponent) (hle : amt.magnitude ≤ amt'.magnitude) :
    amt.mantissa.toNat ≤ amt'.mantissa.toNat := by
  rw [magnitude, magnitude, hexp] at hle
  exact_mod_cast le_of_mul_le_mul_right hle (by positivity)

end FalconLedger.IssuedAmount

namespace FalconLedger.ClaimAmmLpReward

variable {s : Ledger} {epoch : RewardEpoch} {amm : Amm} {lp lp' : IssuedAmount}

/-! ### Shares -/

/-- The part of `basket` that `lp` is of the supply, in whole drops. -/
def exactShare (basket : ℕ) (lp total : IssuedAmount) : ℕ :=
  ⌊(basket * lp.magnitude / total.magnitude : ℚ)⌋₊

theorem exactShare_eq {basket k : ℕ} {lp total : IssuedAmount}
    (hexp : total.exponent = lp.exponent + k) :
    exactShare basket lp total =
      basket * lp.mantissa.toNat / total.mantissa.toNat / 10 ^ k := by
  have hpow : (10 : ℚ) ^ lp.exponent ≠ 0 := by positivity
  have hfrac : (basket * lp.magnitude / total.magnitude : ℚ) =
      ((basket * lp.mantissa.toNat : ℕ) : ℚ) / ((total.mantissa.toNat * 10 ^ k : ℕ) : ℚ) := by
    rw [IssuedAmount.magnitude, IssuedAmount.magnitude, hexp, zpow_add₀ (by norm_num), zpow_natCast,
      ← mul_assoc, mul_comm ((10 : ℚ) ^ lp.exponent), ← mul_assoc, mul_div_mul_right _ _ hpow]
    push_cast
    rfl
  rw [exactShare, hfrac, Nat.floor_div_eq_div, Nat.div_div_eq_div_mul]

/-- No basket comes near the largest 64-bit number: an emission is a native amount, which holds at most
`10 ^ 17` drops, the AMM basket is a part of it, and one pool weighs no more than all of them. -/
theorem poolBasket_lt (hemission : epoch.emissionRate ≤ 10 ^ 17)
    (hbps : epoch.ammLPAllocationBps.getD 0 ≤ kBpsDenom)
    (hweight : nativeAmmTvlDrops s amm ≤ tvlDenom s epoch) :
    10 * poolBasket s epoch amm < 2 ^ 64 := by
  have hpart : ∀ a b d : ℕ, b ≤ d → muldivU64 a b d ≤ a := fun a b d h => by
    refine (muldivU64_le_div a b d).trans (Nat.div_le_of_le_mul ?_)
    rw [mul_comm d]
    exact Nat.mul_le_mul_left a h
  have hpool : poolBasket s epoch amm ≤ ammBasket epoch :=
    hpart _ _ _ (UInt64.le_iff_toNat_le.mp hweight)
  have hamm : ammBasket epoch ≤ epoch.emissionRate.toNat :=
    hpart _ _ _ (UInt32.le_iff_toNat_le.mp hbps)
  omega

theorem shareOf_eq (hbasket : 10 * poolBasket s epoch amm < 2 ^ 64) (hlp : lp.IsPositive)
    (htotal : amm.lpTokenBalance.IsPositive) :
    shareOf s epoch amm lp =
      poolBasket s epoch amm * lp.mantissa.toNat / amm.lpTokenBalance.mantissa.toNat := by
  have hmant : ∀ {amt : IssuedAmount}, amt.IsPositive → positiveMantissa amt = amt.mantissa :=
    fun {amt} h => by
      have hne : amt.mantissa ≠ 0 := by
        rintro heq
        have := h.pos
        rw [heq] at this
        exact lt_irrefl _ this
      rw [positiveMantissa, IssuedAmount.isNonPositive, h.not_negative]
      simp [hne]
  rw [shareOf, shareDrops, hmant hlp, hmant htotal]
  change muldivU64 (poolBasket s epoch amm) _ _ = _
  rw [muldivU64]
  split_ifs with hzero
  · rcases hzero with h | h | h
    · exact absurd h htotal.pos.ne'
    · rw [h, zero_mul, Nat.zero_div]
    · exact absurd h hlp.pos.ne'
  · -- a normalized mantissa is at most ten times another, so the quotient does not wrap around
    refine Nat.mod_eq_of_lt ((Nat.div_le_of_le_mul ?_).trans_lt hbasket)
    have hle : lp.mantissa.toNat ≤ amm.lpTokenBalance.mantissa.toNat * 10 := by
      have := hlp.mantissa_lt
      have := htotal.le_mantissa
      omega
    calc poolBasket s epoch amm * lp.mantissa.toNat
        ≤ poolBasket s epoch amm * (amm.lpTokenBalance.mantissa.toNat * 10) :=
          Nat.mul_le_mul_left _ hle
      _ = amm.lpTokenBalance.mantissa.toNat * (10 * poolBasket s epoch amm) := by ring

/-- A holding is paid its part of the basket, to within a drop, and no more than the basket. -/
structure PaidItsPart (s : Ledger) (epoch : RewardEpoch) (amm : Amm) (lp : IssuedAmount) : Prop where
  le_exact : shareOf s epoch amm lp ≤ exactShare (poolBasket s epoch amm) lp amm.lpTokenBalance + 1
  exact_le : exactShare (poolBasket s epoch amm) lp amm.lpTokenBalance ≤ shareOf s epoch amm lp + 1
  le_basket : shareOf s epoch amm lp ≤ poolBasket s epoch amm

/-- The holding is written with the exponent of the supply, or its mantissa is worth less than two
drops. -/
def MantissaFits (s : Ledger) (epoch : RewardEpoch) (amm : Amm) (lp : IssuedAmount) : Prop :=
  lp.exponent = amm.lpTokenBalance.exponent ∨
    poolBasket s epoch amm * lp.mantissa.toNat < 2 * amm.lpTokenBalance.mantissa.toNat

theorem le_div_pow_add_one_iff {q k : ℕ} (hk : k ≠ 0) : q ≤ q / 10 ^ k + 1 ↔ q < 2 := by
  have hpow : 10 ≤ 10 ^ k := Nat.le_self_pow hk 10
  have hdiv : q / 10 ^ k ≤ q / 10 := Nat.div_le_div_left hpow (by norm_num)
  have hnonneg := Nat.zero_le (q / 10 ^ k)
  omega

theorem paidItsPart_iff (hbasket : 10 * poolBasket s epoch amm < 2 ^ 64) (hlp : lp.IsPositive)
    (htotal : amm.lpTokenBalance.IsPositive)
    (hle : lp.magnitude ≤ amm.lpTokenBalance.magnitude) :
    PaidItsPart s epoch amm lp ↔ MantissaFits s epoch amm lp := by
  obtain ⟨k, hk⟩ := Int.le.dest (hlp.exponent_le htotal hle)
  have hshare := shareOf_eq hbasket hlp htotal
  have hexact : exactShare (poolBasket s epoch amm) lp amm.lpTokenBalance = _ :=
    exactShare_eq hk.symm
  have hfits : poolBasket s epoch amm * lp.mantissa.toNat < 2 * amm.lpTokenBalance.mantissa.toNat ↔
      poolBasket s epoch amm * lp.mantissa.toNat / amm.lpTokenBalance.mantissa.toNat < 2 := by
    rw [Nat.div_lt_iff_lt_mul htotal.pos]
  by_cases hzero : k = 0
  · -- one exponent: the ratio of the mantissas is the provider's part
    subst hzero
    rw [pow_zero, Nat.div_one, ← hshare] at hexact
    have hexp : lp.exponent = amm.lpTokenBalance.exponent := by simpa using hk
    refine iff_of_true ⟨?_, ?_, ?_⟩ (.inl hexp)
    · rw [hexact]
      exact Nat.le_succ _
    · rw [hexact]
      exact Nat.le_succ _
    · rw [hshare]
      refine Nat.div_le_of_le_mul ?_
      rw [mul_comm]
      exact Nat.mul_le_mul_right _ (IssuedAmount.mantissa_le hexp hle)
  · -- otherwise the share is a power of ten too large, unless it is one drop at most
    have hexp : lp.exponent ≠ amm.lpTokenBalance.exponent := by
      intro heq
      exact hzero (by omega)
    rw [← hshare] at hexact hfits
    rw [MantissaFits, or_iff_right hexp, hfits]
    constructor
    · intro h
      have := h.le_exact
      rw [hexact] at this
      exact (le_div_pow_add_one_iff hzero).mp this
    · intro h
      refine ⟨?_, ?_, ?_⟩
      · rw [hexact]
        exact (le_div_pow_add_one_iff hzero).mpr h
      · rw [hexact]
        exact (Nat.div_le_self _ _).trans (Nat.le_succ _)
      · -- there is nothing to pay out of an empty basket
        rcases Nat.eq_zero_or_pos (poolBasket s epoch amm) with hempty | hpos
        · rw [hshare, hempty, zero_mul, Nat.zero_div]
        · omega

/-- The larger of two holdings has the larger exponent, and its mantissa is worth nothing while the
other one's is worth a drop. -/
def OutOfOrder (s : Ledger) (epoch : RewardEpoch) (amm : Amm) (lp lp' : IssuedAmount) : Prop :=
  lp.exponent < lp'.exponent ∧
    poolBasket s epoch amm * lp'.mantissa.toNat < amm.lpTokenBalance.mantissa.toNat ∧
    amm.lpTokenBalance.mantissa.toNat ≤ poolBasket s epoch amm * lp.mantissa.toNat

/-- **When the shares of a pool's basket are proportional.** Two holdings, one at most the other, are
both paid their parts and in order if and only if both mantissas fit and are not out of order. -/
theorem pool_shares_iff (hbasket : 10 * poolBasket s epoch amm < 2 ^ 64) (hlp : lp.IsPositive)
    (hlp' : lp'.IsPositive) (htotal : amm.lpTokenBalance.IsPositive)
    (hle : lp.magnitude ≤ lp'.magnitude) (hle' : lp'.magnitude ≤ amm.lpTokenBalance.magnitude) :
    (PaidItsPart s epoch amm lp ∧ PaidItsPart s epoch amm lp' ∧
        shareOf s epoch amm lp ≤ shareOf s epoch amm lp') ↔
      MantissaFits s epoch amm lp ∧ MantissaFits s epoch amm lp' ∧
        ¬OutOfOrder s epoch amm lp lp' := by
  rw [paidItsPart_iff hbasket hlp htotal (hle.trans hle'),
    paidItsPart_iff hbasket hlp' htotal hle']
  refine and_congr_right fun hfits => and_congr_right fun hfits' => ?_
  rw [shareOf_eq hbasket hlp htotal, shareOf_eq hbasket hlp' htotal, OutOfOrder]
  constructor
  · rintro hmono ⟨-, hsmall, hlarge⟩
    rw [Nat.div_eq_of_lt hsmall] at hmono
    exact absurd hmono (not_le.mpr (Nat.div_pos hlarge htotal.pos))
  · intro horder
    rcases (hlp.exponent_le hlp' hle).lt_or_eq with hlt | heq
    · -- the smaller exponent is not that of the supply, so the share is at most one drop
      have hsmall : poolBasket s epoch amm * lp.mantissa.toNat <
          2 * amm.lpTokenBalance.mantissa.toNat := by
        refine hfits.resolve_left fun h => ?_
        exact absurd (hlp'.exponent_le htotal hle') (by omega)
      have hone := (Nat.div_lt_iff_lt_mul htotal.pos).mpr hsmall
      by_cases hlarge : amm.lpTokenBalance.mantissa.toNat ≤
          poolBasket s epoch amm * lp.mantissa.toNat
      · have hle1 := not_lt.mp fun h => horder ⟨hlt, h, hlarge⟩
        have := Nat.div_pos hle1 htotal.pos
        omega
      · rw [Nat.div_eq_of_lt (not_le.mp hlarge)]
        exact Nat.zero_le _
    · exact Nat.div_le_div_right
        (Nat.mul_le_mul_left _ (IssuedAmount.mantissa_le heq hle))

/-! ### A pool with one token -/

/-- The epoch that starts at the end of the ledger. -/
def sampleEpoch : RewardEpoch :=
  RewardEpoch.newEpoch Sample.services.toHashes Sample.ledger (8 * kQxrpLedgersPerEpoch)

def sampleAmm : Amm := ⟨Sample.ammAccount, .xrp, .issue 10 11, Sample.lpTokens 1⟩

/-- Half a token, written with one exponent less. -/
def halfToken : IssuedAmount := ⟨5000000000000000, -16, false, 9, Sample.ammAccount⟩

theorem lpTokens_isPositive : sampleAmm.lpTokenBalance.IsPositive := ⟨by decide, by decide, by decide⟩

theorem pool_shares_whole :
    PaidItsPart Sample.ledger sampleEpoch sampleAmm (Sample.lpTokens 1) ∧
      shareOf Sample.ledger sampleEpoch sampleAmm (Sample.lpTokens 1) = 100 := by
  have hbasket : 10 * poolBasket Sample.ledger sampleEpoch sampleAmm < 2 ^ 64 :=
    poolBasket_lt (by decide +kernel) (by decide +kernel) (by decide +kernel)
  have h := (pool_shares_iff hbasket lpTokens_isPositive lpTokens_isPositive lpTokens_isPositive
    le_rfl le_rfl).mpr ⟨.inl rfl, .inl rfl, fun h => absurd h.1 (lt_irrefl _)⟩
  exact ⟨h.1, by decide +kernel⟩

theorem pool_share_half :
    halfToken.magnitude = (Sample.lpTokens 1).magnitude / 2 ∧
      poolBasket Sample.ledger sampleEpoch sampleAmm = 100 ∧
      exactShare 100 halfToken (Sample.lpTokens 1) = 50 ∧
      shareOf Sample.ledger sampleEpoch sampleAmm halfToken = 500 ∧
      shareOf Sample.ledger sampleEpoch sampleAmm (Sample.lpTokens 1) = 100 := by
  refine ⟨?_, by decide +kernel, ?_, by decide +kernel, by decide +kernel⟩
  · rw [IssuedAmount.magnitude, IssuedAmount.magnitude]
    change ((5000000000000000 : ℕ) : ℚ) * 10 ^ (-16 : ℤ) =
      ((1000000000000000 : ℕ) : ℚ) * 10 ^ (-15 : ℤ) / 2
    norm_num
  · rw [exactShare_eq (k := 1) rfl]
    decide

end FalconLedger.ClaimAmmLpReward
