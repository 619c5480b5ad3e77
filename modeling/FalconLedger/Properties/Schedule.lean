import FalconLedger.Close.RewardEpoch

/-!
# Decay of the emission schedule

What the schedule promises of two epochs, `ScheduleDecays`, and how far it keeps it: exactly up to
epoch 359. From the next epoch on the unsigned numerator has wrapped.
-/

namespace FalconLedger

open RewardEpoch

/-- The schedule between two epochs: the rate does not rise and lies between the floor and the
first epoch's rate, no subtraction wraps, and for a fixed treasury the pool of an emitting epoch
does not grow. -/
def ScheduleDecays (e₁ e₂ : UInt32) : Prop :=
  cidEmissionBps e₂ ≤ cidEmissionBps e₁ ∧
    (∀ e ∈ [e₁, e₂], kQxrpCidEpochFloorBps ≤ cidEmissionBps e ∧
      cidEmissionBps e ≤ cidEmissionBps 1 ∧ NoWrap e) ∧
    ∀ treasuryDrops : Int, 0 ≤ treasuryDrops → kQxrpFirstEmissionEpoch ≤ e₁ →
      poolDrops treasuryDrops e₂ ≤ poolDrops treasuryDrops e₁

theorem poolDrops_mono {e₁ e₂ : UInt32} {treasuryDrops : Int} (ht : 0 ≤ treasuryDrops)
    (h₁ : kQxrpFirstEmissionEpoch ≤ e₁) (h₂ : kQxrpFirstEmissionEpoch ≤ e₂)
    (hle : cidEmissionBps e₂ ≤ cidEmissionBps e₁) :
    poolDrops treasuryDrops e₂ ≤ poolDrops treasuryDrops e₁ := by
  have hne : ∀ e, cidEmissionBps e ≠ 0 := fun e h => by
    have := kQxrpCidEpochFloorBps_le e
    rw [h] at this
    exact absurd this (by decide)
  simp only [poolDrops, emissionBps, UInt32.not_lt.mpr h₁, UInt32.not_lt.mpr h₂, if_false, hne]
  exact muldiv64_mono ht (by decide) hle

/-- **The schedule decays exactly up to epoch 359.** -/
theorem scheduleDecays_iff {e₁ e₂ : UInt32} (h₁ : 1 ≤ e₁) (h₁₂ : e₁ ≤ e₂) :
    ScheduleDecays e₁ e₂ ↔ e₂ ≤ scheduleHorizon := by
  have h₂ := UInt32.le_trans h₁ h₁₂
  constructor
  · rintro ⟨-, hall, -⟩
    exact (noWrap_iff h₂).mp (hall e₂ (by simp)).2.2
  · intro hh
    have hh₁ := UInt32.le_trans h₁₂ hh
    refine ⟨cidEmissionBps_antitone h₁ h₁₂ hh, fun e he => ?_, fun t ht hfirst => ?_⟩
    · have hbounds : 1 ≤ e ∧ e ≤ scheduleHorizon := by
        rcases List.mem_pair.mp he with rfl | rfl
        · exact ⟨h₁, hh₁⟩
        · exact ⟨h₂, hh⟩
      exact ⟨kQxrpCidEpochFloorBps_le e,
        cidEmissionBps_antitone (UInt32.le_refl 1) hbounds.1 hbounds.2,
        (noWrap_iff hbounds.1).mpr hbounds.2⟩
    · exact poolDrops_mono ht hfirst (UInt32.le_trans hfirst h₁₂)
        (cidEmissionBps_antitone h₁ h₁₂ hh)

theorem scheduleDecays_to_horizon : ScheduleDecays 8 359 :=
  (scheduleDecays_iff (by decide) (by decide)).mpr (by decide)

/-- At epoch 367 the rate is 7636 bps, where it was 24 in the first emitting epoch, and the
genesis treasury would commit more than three quarters of itself. -/
theorem schedule_jumps_at_367 :
    cidEmissionBps 8 = 24 ∧ cidEmissionBps 367 = 7636 ∧
      poolDrops kQxrpTreasuryAllocation 8 < poolDrops kQxrpTreasuryAllocation 367 ∧
      ¬ScheduleDecays 8 367 := by
  have hrise : ¬cidEmissionBps 367 ≤ cidEmissionBps 8 := by decide
  exact ⟨by decide, by decide, by decide, fun h => hrise h.1⟩

end FalconLedger
