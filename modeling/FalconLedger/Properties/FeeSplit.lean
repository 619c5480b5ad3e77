import FalconLedger.Close.BuildLedger
import FalconLedger.Protocol.MachineWords

/-!
# The split of a fee

`destroyXRP` runs for every transaction. A fee is burnt in part and credited to the treasury for the
rest, and between the two no drop is lost: `destroyXRP_splits`. The burnt share is the one the epoch
object holds while `destroyXRP` accepts it, and a rollover writes no other
(`burnBps_applyRewardEpoch`).
-/

namespace FalconLedger

namespace ApplyContext

open RewardEpoch

variable {H : Hashes} {s : Ledger} {fee : ℤ}

/-- The drops a split takes out of existence, read off the header. -/
def burnt (H : Hashes) (s : Ledger) (fee : ℤ) : ℤ := s.drops - (destroyXRP H s fee).drops

/-- The drops a split credits, read off the treasury's balance. -/
def credited (H : Hashes) (s : Ledger) (fee : ℤ) : ℤ :=
  (destroyXRP H s fee).balanceOf H.getTreasuryAccountID - s.balanceOf H.getTreasuryAccountID

theorem burnt_eq (H : Hashes) (s : Ledger) (fee : ℤ) : burnt H s fee = feeBurned H s fee := by
  rw [burnt, destroyXRP_eq]
  exact sub_sub_cancel _ _

theorem feeBurned_mem (H : Hashes) (s : Ledger) (h : 0 ≤ fee) :
    0 ≤ feeBurned H s fee ∧ feeBurned H s fee ≤ fee := by
  rcases destroyXRP_cases H s fee with ⟨h', hb, -⟩ | ⟨-, hb, -⟩ | ⟨-, _, -, h0, hlt, -⟩
  · rw [hb]
    exact ⟨le_rfl, h⟩
  · rw [hb]
    exact ⟨h, le_rfl⟩
  · exact ⟨h0, hlt.le⟩

theorem credited_eq (h : 0 ≤ fee) : credited H s fee = fee - feeBurned H s fee := by
  rcases destroyXRP_cases H s fee with ⟨h', hb, hd⟩ | ⟨-, hb, hd⟩ | ⟨-, t, ht, -, -, hd⟩
  · rw [credited, hd, hb]
    omega
  · rw [credited, hd, hb, sub_self]
    exact sub_self _
  · rw [credited, hd, Ledger.balanceOf_setAccount_self, Ledger.balanceOf_of_lookup ht]
    exact add_sub_cancel_left _ _

theorem burnt_of_treasury (h : 0 ≤ fee)
    (ht : s.accounts.lookup H.getTreasuryAccountID ≠ none) :
    burnt H s fee = muldiv64 fee (burnBps s) kBpsDenom := by
  rw [burnt_eq, feeBurned]
  split_ifs with h'
  · have h0 : fee = 0 := le_antisymm h' h
    rw [h0, muldiv64_eq_ediv le_rfl (by decide), zero_mul, Int.zero_ediv]
  · rfl

theorem burnt_of_missing (h : 0 ≤ fee) (ht : s.accounts.lookup H.getTreasuryAccountID = none) :
    burnt H s fee = fee := by
  rw [burnt_eq, feeBurned]
  split_ifs
  · omega
  · rfl

theorem burnDrops_words (s : Ledger) (h : 0 ≤ fee) (hfit : fee < 2 ^ 63) :
    Word.muldiv64 fee (burnBps s) kBpsDenom = some (muldiv64 fee (burnBps s) kBpsDenom) := by
  have hden : kBpsDenom.toNat = 10000 := rfl
  have hbps : (burnBps s).toNat ≤ 7000 := UInt32.le_iff_toNat_le.mp (burnBps_mem s).2
  obtain ⟨n, rfl⟩ := Int.eq_ofNat_of_zero_le h
  have hrem : n % kBpsDenom.toNat * (burnBps s).toNat < 2 ^ 63 := by
    have hmod : n % kBpsDenom.toNat ≤ 10000 := (Nat.mod_lt n (by decide)).le
    exact (Nat.mul_le_mul hmod hbps).trans_lt (by norm_num)
  rw [muldiv64_eq_ediv h (by decide)]
  exact (Word.muldiv64_eq_some_iff (by omega) (by decide) (by omega)).mpr hrem

theorem fillBurnBps_mem (treasuryDrops : ℤ) :
    kFeeBurnMinBps ≤ fillBurnBps treasuryDrops ∧ fillBurnBps treasuryDrops ≤ kFeeBurnMaxBps := by
  have hle : kFeeBurnMinBps.toNat ≤ kFeeBurnMaxBps.toNat := by decide
  simp only [fillBurnBps, UInt32.le_iff_toNat_le, toNat_max, toNat_min]
  constructor
  · exact le_max_left _ _
  · exact max_le hle (min_le_right _ _)

theorem burnBps_applyRewardEpoch {seq : UInt32} {rules : Rules}
    (h : rollsOver H s seq rules = true) :
    burnBps (applyRewardEpoch H s seq rules) = (newEpoch H s seq).currentBurnBps := by
  rw [applyRewardEpoch_of_rollsOver h]
  exact if_pos (fillBurnBps_mem _)

/-- **A fee is split without loss.** The burnt and the credited part are non-negative and add up
to the fee; the rate is in range whatever the epoch object holds, and the burnt part is the
share at that rate, or all of the fee where there is no treasury; a rollover only writes a rate
that is then used. -/
theorem destroyXRP_splits (H : Hashes) (s : Ledger) (drops : ℕ) :
    burnt H s drops + credited H s drops = drops ∧
    0 ≤ burnt H s drops ∧ 0 ≤ credited H s drops ∧
    (4000 ≤ burnBps s ∧ burnBps s ≤ 7000) ∧
    (s.accounts.lookup H.getTreasuryAccountID ≠ none →
      burnt H s drops = (drops : ℤ) * (burnBps s).toNat / 10000) ∧
    (s.accounts.lookup H.getTreasuryAccountID = none → burnt H s drops = drops) ∧
    ∀ seq rules, rollsOver H s seq rules = true →
      (applyRewardEpoch H s seq rules).epoch.map RewardEpoch.currentBurnBps =
        some (burnBps (applyRewardEpoch H s seq rules)) := by
  have h : (0 : ℤ) ≤ drops := Int.natCast_nonneg drops
  obtain ⟨h0, hle⟩ := feeBurned_mem H s h
  refine ⟨?_, ?_, ?_, burnBps_mem s, ?_, burnt_of_missing h, ?_⟩
  · rw [burnt_eq, credited_eq h]
    exact add_sub_cancel _ _
  · rwa [burnt_eq]
  · rw [credited_eq h]
    exact sub_nonneg.mpr hle
  · intro ht
    rw [burnt_of_treasury h ht, muldiv64_eq_ediv h (by decide)]
    rfl
  · intro seq rules hroll
    rw [burnBps_applyRewardEpoch hroll, applyRewardEpoch_of_rollsOver hroll]
    rfl

end ApplyContext

end FalconLedger
