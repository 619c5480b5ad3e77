import FalconLedger.Protocol.QxrpConstants
import FalconLedger.Protocol.WideArith

/-!
# The emission schedule and the split of an epoch's emission

`PoPLEmission.h`, in `std::uint32_t` arithmetic; the two subtractions of the schedule are unguarded.
The exact value of the numerator is negative from epoch 360 on. Below that horizon
`cidEmissionBps_toNat` gives the rate in exact arithmetic and `cidEmissionBps_antitone` its decay;
past it the rate is only known to stay below the whole (`cidEmissionBps_le`).
-/

namespace FalconLedger

/-- Numerator of the linear rate. -/
def cidEpochBpsNumerator (epochNum : UInt32) : UInt32 :=
  kQxrpCidYear1AvgBps * kQxrpCidDeclineDen + 1326 * kQxrpCidDeclineNum -
    kQxrpCidDeclineNum * (epochNum - 1) * kQxrpEpochsPerYear

def cidEpochBpsDenominator : UInt32 := kQxrpEpochsPerYear * kQxrpCidDeclineDen

/-- Per-epoch emission rate, in bps of the treasury, for a 1-based epoch. -/
def cidEmissionBps (epochNum : UInt32) : UInt32 :=
  let epochNum := if epochNum = 0 then 1 else epochNum
  let denom := cidEpochBpsDenominator
  let numer := cidEpochBpsNumerator epochNum
  let rounded := (numer + denom / 2) / denom
  max kQxrpCidEpochFloorBps rounded

/-- A basket that grows by `perProvider` a provider, up to `maxProviders` and `maxBps`. -/
def participationBps (perProvider maxProviders maxBps providerCount : UInt32) : UInt32 :=
  if providerCount = 0 then 0 else min (min providerCount maxProviders * perProvider) maxBps

/-- Vault-LP basket, in bps of the epoch's emission. -/
def poplLpParticipationBps : UInt32 → UInt32 :=
  participationBps kQxrpPoplLpBpsPerProvider kQxrpPoplLpMaxProviders kQxrpPoplLpMaxBps

/-- AMM-LP basket, in bps of the epoch's emission. -/
def poplAmmLpParticipationBps : UInt32 → UInt32 :=
  participationBps kQxrpPoplAmmLpBpsPerProvider kQxrpPoplAmmLpMaxProviders kQxrpPoplAmmLpMaxBps

theorem participationBps_le (perProvider maxProviders maxBps providerCount : UInt32) :
    participationBps perProvider maxProviders maxBps providerCount ≤ maxBps := by
  unfold participationBps
  split_ifs
  · exact UInt32.le_iff_toNat_le.mpr (Nat.zero_le _)
  · exact Std.min_le_right

/-! ### The schedule in exact arithmetic -/

/-- The minuend and the subtrahend of `cidEpochBpsNumerator`, exactly. -/
def epochSubtraction (epochNum : ℕ) : ℕ × ℕ := (1200 * 10816 + 1326 * 750, 750 * (epochNum - 1) * 52)

/-- The minuend and the subtrahend of the numerator in `cidYearlyAvgBps`, exactly. -/
def yearSubtraction (epochNum : ℕ) : ℕ × ℕ :=
  (52 * (1200 * 10816 + 1326 * 750), 52 * 750 * (52 * 52 * ((epochNum - 1) / 52) + 1326))

/-- No subtraction of the schedule wraps at this epoch: neither of the two above, nor the
`epochNum - 1` in front of them. -/
def NoWrap (epochNum : UInt32) : Prop :=
  1 ≤ epochNum.toNat ∧
    (epochSubtraction epochNum.toNat).2 ≤ (epochSubtraction epochNum.toNat).1 ∧
    (yearSubtraction epochNum.toNat).2 ≤ (yearSubtraction epochNum.toNat).1

/-- The last epoch at which no subtraction of the schedule wraps. -/
def scheduleHorizon : UInt32 := 359

/-- The yearly subtraction holds out five epochs longer than the per-epoch one, so the latter
alone fixes the horizon. -/
theorem noWrap_iff {e : UInt32} (he : 1 ≤ e) : NoWrap e ↔ e ≤ scheduleHorizon := by
  rw [UInt32.le_iff_toNat_le] at he ⊢
  have h1 : (1 : UInt32).toNat = 1 := rfl
  have h359 : scheduleHorizon.toNat = 359 := rfl
  simp only [NoWrap, epochSubtraction, yearSubtraction]
  omega

theorem cidEpochBpsNumerator_toNat {e : UInt32} (he : 1 ≤ e) (hh : e ≤ scheduleHorizon) :
    (cidEpochBpsNumerator e).toNat = 13973700 - 39000 * (e.toNat - 1) := by
  rw [UInt32.le_iff_toNat_le] at he hh
  have h1 : (1 : UInt32).toNat = 1 := rfl
  have h359 : scheduleHorizon.toNat = 359 := rfl
  simp only [cidEpochBpsNumerator, kQxrpCidYear1AvgBps, kQxrpCidDeclineDen, kQxrpCidDeclineNum,
    kQxrpEpochsPerYear, UInt32.toNat_sub, UInt32.toNat_add, UInt32.toNat_mul,
    UInt32.reduceToNat]
  omega

/-- The rate as a rounded quotient, while nothing wraps. -/
theorem cidEmissionBps_toNat {e : UInt32} (he : 1 ≤ e) (hh : e ≤ scheduleHorizon) :
    (cidEmissionBps e).toNat = max 3 ((13973700 - 39000 * (e.toNat - 1) + 281216) / 562432) := by
  have hne : e ≠ 0 := by rintro rfl; exact absurd he (by decide)
  have hn := cidEpochBpsNumerator_toNat he hh
  have hden : cidEpochBpsDenominator = 562432 := rfl
  simp only [cidEmissionBps, if_neg hne, toNat_max, hden, UInt32.toNat_div, UInt32.toNat_add, hn,
    kQxrpCidEpochFloorBps, UInt32.reduceToNat]
  rw [Nat.mod_eq_of_lt (by omega)]

theorem cidEmissionBps_antitone {e₁ e₂ : UInt32} (h₁ : 1 ≤ e₁) (h₁₂ : e₁ ≤ e₂)
    (h₂ : e₂ ≤ scheduleHorizon) : cidEmissionBps e₂ ≤ cidEmissionBps e₁ := by
  rw [UInt32.le_iff_toNat_le, cidEmissionBps_toNat (UInt32.le_trans h₁ h₁₂) h₂,
    cidEmissionBps_toNat h₁ (UInt32.le_trans h₁₂ h₂)]
  rw [UInt32.le_iff_toNat_le] at h₁₂
  refine max_le_max le_rfl (Nat.div_le_div_right ?_)
  omega

theorem kQxrpCidEpochFloorBps_le (e : UInt32) : kQxrpCidEpochFloorBps ≤ cidEmissionBps e := by
  rw [UInt32.le_iff_toNat_le]
  simp only [cidEmissionBps, toNat_max]
  exact le_max_left _ _

theorem cidEmissionBps_le (e : UInt32) : cidEmissionBps e ≤ kBpsDenom := by
  have hden : cidEpochBpsDenominator = 562432 := rfl
  have hlt := (cidEpochBpsNumerator (if e = 0 then 1 else e) + 562432 / 2).toNat_lt
  rw [UInt32.le_iff_toNat_le]
  simp only [cidEmissionBps, toNat_max, hden, UInt32.toNat_div, kQxrpCidEpochFloorBps, kBpsDenom,
    UInt32.reduceToNat]
  omega

end FalconLedger
