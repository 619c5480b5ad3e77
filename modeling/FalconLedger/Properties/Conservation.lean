import FalconLedger.Data.Run
import FalconLedger.Tx.Effects

/-!
# Conservation of drops

The drops held in account roots, validator bonds and account names, minus the total in the header,
never change. For every transaction but a slash this rests on the conservation checkers, which
compare the net change with the fee. For a slash they only bound the change from one side, and the
equality comes from the transactor, which burns the bond it clears.
-/

namespace FalconLedger

open Transactor Invariants Ledger ApplyContext

variable {H : Services} {s : Ledger} {tx : STTx} {a : Applied}

private theorem slashed_eq_zero (happly : doApply H s tx = .ok a) (hslash : tx.isSlash = false) :
    a.slashed = 0 := by
  cases doApply_effect happly with
  | registry _ hslashed => exact hslashed
  | slash hs => simp [hslash] at hs
  | _ => rfl

theorem held_slash {target : AccountID} {bond : ValidatorBond}
    (hbond : s.bonds.lookup target = some bond) :
    ((s.setBond target (ValidatorSlash.slashedBond s.seq tx bond)).rawDestroyXRP
      (max bond.bondedAmount 0)).held = s.held - bond.bondedAmount := by
  have hw : Table.weightAt ValidatorBond.bondedAmount s.bonds target = bond.bondedAmount :=
    Table.weightAt_of_lookup hbond
  simp only [rawDestroyXRP, held, setBond, Table.total_insert, hw, ValidatorSlash.slashedBond]
  ring

theorem bondedAmount_nonneg_of_passed {s₁ : Ledger} {target : AccountID} {bond : ValidatorBond}
    (hcharged : Charged tx tx.fee s s₁) (hbond : s₁.bonds.lookup target = some bond)
    (hpass : Passed s
      ((s₁.setBond target (ValidatorSlash.slashedBond s₁.seq tx bond)).rawDestroyXRP
        (max bond.bondedAmount 0)) tx tx.fee) : 0 ≤ bond.bondedAmount := by
  have hle := hpass.held_le
  have hfee := hcharged.held
  rw [held_slash hbond] at hle
  omega

private theorem held_of_passed {s₁ : Ledger} (hcharged : Charged tx tx.fee s s₁)
    (happly : doApply H s₁ tx = .ok a) (hpass : Passed s a.view tx tx.fee) :
    a.view.held + tx.fee + a.slashed = s.held := by
  rcases hslash : tx.isSlash with _ | _
  · rw [slashed_eq_zero happly hslash, add_zero]
    exact hpass.held_eq hslash
  · -- for a slash the checkers give one side only, and the transactor the other
    unfold doApply at happly
    split at happly <;> simp_all only [STTx.isSlash, Bool.false_eq_true]
    obtain ⟨bond, hbond, rfl⟩ := ValidatorSlash.doApply_ok happly
    have hnonneg := bondedAmount_nonneg_of_passed hcharged hbond hpass
    have hfee := hcharged.held
    rw [held_slash hbond, max_eq_left hnonneg]
    dsimp only
    omega

theorem Transactor.Outcome.conserves {r : Ledger × Receipt} (h : Outcome H s tx r) :
    r.1.held + (r.2.burned + r.2.slashed) = s.held ∧
      r.1.drops + (r.2.burned + r.2.slashed) = s.drops := by
  cases h with
  | unapplied ter => simp
  | @feeOnly view feeIn fee ter hreset hpass hter =>
    have hcharged := reset_ok hreset
    have hdrops : view.drops = s.drops := by rw [hcharged.same]
    have hheld := hcharged.held
    have hsplit := destroyXRP_held (H := H.toHashes) (s := view) hpass.fee_nonneg
    rw [destroyXRP_eq] at hsplit ⊢
    simp only [receipt] at hsplit ⊢
    constructor <;> omega
  | @success s₁ a hflight hclaim hcharge happly hpass =>
    have hcharged := charge_ok hcharge (account_ne_none_of_preclaim hclaim)
    have hheld := held_of_passed hcharged happly hpass
    have hdrops : a.view.drops = s.drops - a.slashed := by
      rw [doApply_drops happly, hcharged.same]
    have hsplit := destroyXRP_held (H := H.toHashes) (s := a.view) hpass.fee_nonneg
    rw [destroyXRP_eq] at hsplit ⊢
    simp only [receipt] at hsplit ⊢
    constructor <;> omega

/-- One transaction of a run, with its flags. -/
def txStep (H : Services) (s : Ledger) (t : ApplyFlags × STTx) : Ledger × Receipt :=
  applyTransaction H t.1 s t.2

/-- The drops a transaction took out of existence. -/
def Receipt.destroyed (r : Receipt) : Int := r.burned + r.slashed

/-- **Conservation of drops.** From every ledger and along every sequence of transactions, the
drops held minus the drops in the header stay what they were, and the header falls by exactly
the burnt shares of the fees and the slashed bonds. -/
theorem held_sub_drops_run (H : Services) (s : Ledger) (txs : List (ApplyFlags × STTx)) :
    (Run.final (txStep H) s txs).held - (Run.final (txStep H) s txs).drops = s.held - s.drops ∧
      (Run.final (txStep H) s txs).drops =
        s.drops - ((Run.outputs (txStep H) s txs).map Receipt.destroyed).sum := by
  have hstep : ∀ s t, (txStep H s t).1.held + (txStep H s t).2.destroyed = s.held ∧
      (txStep H s t).1.drops + (txStep H s t).2.destroyed = s.drops := fun s t =>
    (applyTransaction_outcome H t.1 s t.2).conserves
  have hall : Run.Always (txStep H) (fun _ _ => True) s txs :=
    Run.always_of_forall fun _ _ => trivial
  have hheld := Run.telescope (fun _ => True) held Receipt.destroyed
    (fun _ _ _ _ => trivial) (fun s t _ _ => (hstep s t).1) trivial hall
  have hdrops := Run.telescope (fun _ => True) drops Receipt.destroyed
    (fun _ _ _ _ => trivial) (fun s t _ _ => (hstep s t).2) trivial hall
  constructor <;> omega

end FalconLedger
