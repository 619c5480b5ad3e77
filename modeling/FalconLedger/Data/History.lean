import FalconLedger.Data.Run

/-!
# What has happened on a run

`Sometime Q` says that some action of a run meets `Q` in the state it is taken in. The rule for invariants
that speak of it, `invariant_history`: what each step keeps, with what it makes happen added to what has
happened before, a run keeps.
-/

namespace Run

variable {S A O R : Type*} {step : S → A → S × O}

/-- Some action meets `Q` in the state it is taken in. -/
def Sometime (step : S → A → S × O) (Q : S → A → Prop) : S → List A → Prop
  | _, [] => False
  | s, a :: as => Q s a ∨ Sometime step Q (step s a).1 as

variable {P : S → A → Prop} {Q : R → S → A → Prop} {s : S} {a : A} {as : List A}

theorem sometime_concat {Q : S → A → Prop} :
    Sometime step Q s (as ++ [a]) ↔ Sometime step Q s as ∨ Q (final step s as) a := by
  induction as generalizing s with
  | nil => simp [Sometime]
  | cons b as ih => rw [List.cons_append, Sometime, Sometime, ih, final_cons, or_assoc]

/-- What every step keeps of the state and of what has happened so far, a run keeps. -/
theorem invariant_history (Inv : (R → Prop) → S → Prop)
    (hstep : ∀ H s a, Inv H s → P s a → Inv (fun r => H r ∨ Q r s a) (step s a).1) {H : R → Prop}
    (hs : Inv H s) (has : Always step P s as) :
    Inv (fun r => H r ∨ Sometime step (Q r) s as) (final step s as) := by
  induction as generalizing s H with
  | nil =>
    have hnone : (fun r => H r ∨ Sometime step (Q r) s []) = H := by
      funext r
      rw [Sometime, or_false]
    rw [hnone]
    exact hs
  | cons a as ih =>
    have hassoc : (fun r => H r ∨ Sometime step (Q r) s (a :: as)) =
        fun r => (H r ∨ Q r s a) ∨ Sometime step (Q r) (step s a).1 as := by
      funext r
      rw [Sometime, or_assoc]
    rw [hassoc]
    exact ih (hstep H s a hs has.1) has.2

end Run
