import Mathlib.Algebra.BigOperators.Group.List.Basic
import Mathlib.Tactic.Ring
import Mathlib.Tactic.Linarith

/-!
# Runs of a transition function

A system is a function `step` from a state and an action to the next state and an output. `final`
and `outputs` are where a list of actions leads and what it emits; `Always P` says that every action
meets `P` in the state it is taken in, `Since P Q` that every action after one with `P` meets `Q`.

The rules: what each step keeps is kept by a run (`invariant`); what each step moves by its output is
moved by the sum of the outputs (`telescope`); and what a step brings about and every later one keeps
holds from then on (`since_of_guard`, `since_lock`).
-/

namespace Run

variable {S A O : Type*} (step : S → A → S × O)

/-- The state after a list of actions. -/
def final : S → List A → S
  | s, [] => s
  | s, a :: as => final (step s a).1 as

/-- The outputs of a list of actions, in order. -/
def outputs : S → List A → List O
  | _, [] => []
  | s, a :: as => (step s a).2 :: outputs (step s a).1 as

/-- Every action meets `P` in the state it is taken in. -/
def Always (P : S → A → Prop) : S → List A → Prop
  | _, [] => True
  | s, a :: as => P s a ∧ Always P (step s a).1 as

/-- Once a step has met `P`, every step after it meets `Q`. -/
def Since (P Q : S → A → Prop) : S → List A → Prop
  | _, [] => True
  | s, a :: as => (P s a → Always step Q (step s a).1 as) ∧ Since P Q (step s a).1 as

/-- No two steps meet `P`. -/
def AtMostOnce (P : S → A → Prop) : S → List A → Prop := Since step P fun s a => ¬P s a

/-- What the steps of a run put on record, in order. -/
def record {R : Type*} (f : S → A → Option R) : S → List A → List R
  | _, [] => []
  | s, a :: as => (f s a).toList ++ record f (step s a).1 as

instance Always.decidable (P : S → A → Prop) [∀ s a, Decidable (P s a)] :
    ∀ s as, Decidable (Always step P s as)
  | _, [] => .isTrue trivial
  | s, a :: as =>
    have := Always.decidable P (step s a).1 as
    inferInstanceAs (Decidable (P s a ∧ Always step P (step s a).1 as))

instance Since.decidable (P Q : S → A → Prop) [∀ s a, Decidable (P s a)]
    [∀ s a, Decidable (Q s a)] : ∀ s as, Decidable (Since step P Q s as)
  | _, [] => .isTrue trivial
  | s, a :: as =>
    have := Since.decidable P Q (step s a).1 as
    inferInstanceAs
      (Decidable ((P s a → Always step Q (step s a).1 as) ∧ Since step P Q (step s a).1 as))

instance AtMostOnce.decidable (P : S → A → Prop) [∀ s a, Decidable (P s a)] (s : S)
    (as : List A) : Decidable (AtMostOnce step P s as) :=
  inferInstanceAs (Decidable (Since step P (fun s a => ¬P s a) s as))

variable {step} {P : S → A → Prop} {s : S} {a : A} {as : List A}

@[simp] theorem final_nil : final step s [] = s := rfl

@[simp] theorem final_cons : final step s (a :: as) = final step (step s a).1 as := rfl

@[simp] theorem outputs_nil : outputs step s [] = [] := rfl

@[simp] theorem outputs_cons :
    outputs step s (a :: as) = (step s a).2 :: outputs step (step s a).1 as := rfl

@[simp] theorem always_nil : Always step P s [] := trivial

@[simp] theorem always_cons :
    Always step P s (a :: as) ↔ P s a ∧ Always step P (step s a).1 as := Iff.rfl

theorem final_append {bs : List A} : final step s (as ++ bs) = final step (final step s as) bs := by
  induction as generalizing s with
  | nil => rfl
  | cons a as ih => exact ih

theorem record_concat {R : Type*} (f : S → A → Option R) :
    record step f s (as ++ [a]) = record step f s as ++ (f (final step s as) a).toList := by
  induction as generalizing s with
  | nil => simp [record]
  | cons b as ih => rw [List.cons_append, record, record, ih, List.append_assoc, final_cons]

theorem always_append {bs : List A} :
    Always step P s (as ++ bs) ↔ Always step P s as ∧ Always step P (final step s as) bs := by
  induction as generalizing s with
  | nil => simp
  | cons a as ih => rw [List.cons_append, always_cons, always_cons, final_cons, ih, and_assoc]

theorem always_of_forall (h : ∀ s a, P s a) : Always step P s as := by
  induction as generalizing s with
  | nil => trivial
  | cons a as ih => exact ⟨h s a, ih⟩

theorem always_of_mem {P : A → Prop} (h : ∀ a ∈ as, P a) : Always step (fun _ a => P a) s as := by
  induction as generalizing s with
  | nil => trivial
  | cons a as ih => exact ⟨h a List.mem_cons_self, ih fun b hb => h b (List.mem_cons_of_mem a hb)⟩

theorem always_and {Q : S → A → Prop} (hP : Always step P s as) (hQ : Always step Q s as) :
    Always step (fun s a => P s a ∧ Q s a) s as := by
  induction as generalizing s with
  | nil => trivial
  | cons a as ih => exact ⟨⟨hP.1, hQ.1⟩, ih hP.2 hQ.2⟩

theorem since_of_always {Q : S → A → Prop} (h : Always step Q s as) : Since step P Q s as := by
  induction as generalizing s with
  | nil => trivial
  | cons a as ih => exact ⟨fun _ => h.2, ih h.2⟩

theorem exists_of_mem_outputs {o : O} (h : o ∈ outputs step s as) : ∃ s a, o = (step s a).2 := by
  induction as generalizing s with
  | nil => cases h
  | cons a as ih =>
    rcases List.mem_cons.mp h with rfl | h
    · exact ⟨s, a, rfl⟩
    · exact ih h

theorem invariant (Inv : S → Prop) (hstep : ∀ s a, Inv s → P s a → Inv (step s a).1)
    (hs : Inv s) (has : Always step P s as) : Inv (final step s as) := by
  induction as generalizing s with
  | nil => exact hs
  | cons a as ih => exact ih (hstep s a hs has.1) has.2

theorem invariant_record {R : Type*} {f : S → A → Option R} (Inv : S → List R → Prop)
    (hstep : ∀ s a l, Inv s l → P s a → Inv (step s a).1 (l ++ (f s a).toList)) {l : List R}
    (hs : Inv s l) (has : Always step P s as) :
    Inv (final step s as) (l ++ record step f s as) := by
  induction as generalizing s l with
  | nil =>
    rw [record, List.append_nil]
    exact hs
  | cons a as ih =>
    rw [record, ← List.append_assoc]
    exact ih (hstep s a l hs has.1) has.2

/-- What every step keeps of the state and the outputs so far, a run keeps. -/
theorem invariant_outputs (Inv : S → List O → Prop)
    (hstep : ∀ s a l, Inv s l → P s a → Inv (step s a).1 (l ++ [(step s a).2])) {l : List O}
    (hs : Inv s l) (has : Always step P s as) :
    Inv (final step s as) (l ++ outputs step s as) := by
  induction as generalizing s l with
  | nil =>
    rw [outputs_nil, List.append_nil]
    exact hs
  | cons a as ih =>
    rw [outputs_cons, List.append_cons]
    exact ih (hstep s a l hs has.1) has.2

theorem always_of_invariant (Inv : S → Prop) {Q : S → A → Prop}
    (hinv : ∀ s a, Inv s → P s a → Inv (step s a).1) (hQ : ∀ s a, Inv s → P s a → Q s a)
    (hs : Inv s) (has : Always step P s as) : Always step Q s as := by
  induction as generalizing s with
  | nil => trivial
  | cons a as ih => exact ⟨hQ s a hs has.1, ih (hinv s a hs has.1) has.2⟩

theorem outputs_of_invariant (Inv : S → Prop) {Q : O → Prop}
    (hinv : ∀ s a, Inv s → P s a → Inv (step s a).1)
    (hQ : ∀ s a, Inv s → P s a → Q (step s a).2) (hs : Inv s) (has : Always step P s as) :
    ∀ o ∈ outputs step s as, Q o := by
  induction as generalizing s with
  | nil => simp
  | cons a as ih =>
    intro o ho
    rcases List.mem_cons.mp ho with rfl | ho
    · exact hQ s a hs has.1
    · exact ih (hinv s a hs has.1) has.2 o ho

theorem always_congr (Inv : S → Prop) {Q : S → A → Prop}
    (hinv : ∀ s a, Inv s → P s a → Inv (step s a).1) (hPQ : ∀ s a, Inv s → (P s a ↔ Q s a))
    (hs : Inv s) : Always step P s as ↔ Always step Q s as := by
  induction as generalizing s with
  | nil => rfl
  | cons a as ih =>
    rw [always_cons, always_cons, ← hPQ s a hs]
    exact and_congr_right fun ha => ih (hinv s a hs ha)

/-- If `P` leads to the states of `G`, and from these every step that meets `R` meets `Q` and stays
in `G`, then a run that meets `R` once it has met `P` meets `Q` from there on. -/
theorem since_of_guard (Inv G : S → Prop) {Q R T : S → A → Prop}
    (hinv : ∀ s a, Inv s → T s a → Inv (step s a).1)
    (henter : ∀ s a, Inv s → T s a → P s a → G (step s a).1)
    (hkeep : ∀ s a, Inv s → G s → T s a → R s a → Q s a ∧ G (step s a).1)
    (hs : Inv s) (hT : Always step T s as) (hR : Since step P R s as) : Since step P Q s as := by
  induction as generalizing s with
  | nil => trivial
  | cons a as ih =>
    refine ⟨fun hP => ?_, ih (hinv s a hs hT.1) hT.2 hR.2⟩
    have hboth : Always step (fun s a => T s a ∧ R s a) (step s a).1 as :=
      always_and hT.2 (hR.1 hP)
    refine always_of_invariant (fun s => Inv s ∧ G s) (fun s a h hTR => ?_) (fun s a h hTR => ?_)
      ⟨hinv s a hs hT.1, henter s a hs hT.1 hP⟩ hboth
    · exact ⟨hinv s a h.1 hTR.1, (hkeep s a h.1 h.2 hTR.1 hTR.2).2⟩
    · exact (hkeep s a h.1 h.2 hTR.1 hTR.2).1

/-- **The rule of locks.** Time does not run backwards, a lock is set at the present moment or not
at all, and a step that opens one finds that it has run for `l`. Then after a step that finds no
lock at moment `n`, nothing is opened before `n + l`. -/
theorem since_lock (Inv : S → Prop) {T opens : S → A → Prop} {now : S → ℕ} {lock : S → Option ℕ}
    {l n : ℕ} (hinv : ∀ s a, Inv s → T s a → Inv (step s a).1)
    (hnow : ∀ s a, Inv s → T s a → now s ≤ now (step s a).1)
    (hlock : ∀ s a, Inv s → T s a → lock (step s a).1 = lock s ∨ lock (step s a).1 = none ∨
      lock (step s a).1 = some (now s))
    (hopen : ∀ s a, Inv s → T s a → opens s a → ∃ m, lock s = some m ∧ m + l ≤ now s)
    (hP : ∀ s a, P s a → now s = n ∧ lock s = none) (hs : Inv s) (hT : Always step T s as) :
    Since step P (fun s a => opens s a → n + l ≤ now s) s as := by
  refine since_of_guard (R := fun _ _ => True) Inv
    (fun s => n ≤ now s ∧ ∀ m, lock s = some m → n ≤ m) hinv (fun s a h ha hp => ?_)
    (fun s a h hg ha _ => ⟨fun ho => ?_, ?_⟩) hs hT
    (since_of_always (always_of_forall fun _ _ => trivial))
  · obtain ⟨rfl, hnone⟩ := hP s a hp
    refine ⟨hnow s a h ha, fun m hm => ?_⟩
    rcases hlock s a h ha with heq | heq | heq <;> rw [heq] at hm
    · rw [hnone] at hm
      cases hm
    · cases hm
    · exact (Option.some.inj hm).le
  · obtain ⟨m, hm, hle⟩ := hopen s a h ha ho
    have := hg.2 m hm
    omega
  · refine ⟨hg.1.trans (hnow s a h ha), fun m hm => ?_⟩
    rcases hlock s a h ha with heq | heq | heq <;> rw [heq] at hm
    · exact hg.2 m hm
    · cases hm
    · exact hg.1.trans (Option.some.inj hm).le

/-- **Conservation along a run.** If each step moves `f` by exactly `-g` of its output, a run
moves `f` by minus the sum of `g` over its outputs. -/
theorem telescope (Inv : S → Prop) (f : S → ℤ) (g : O → ℤ)
    (hinv : ∀ s a, Inv s → P s a → Inv (step s a).1)
    (hstep : ∀ s a, Inv s → P s a → f (step s a).1 + g (step s a).2 = f s)
    (hs : Inv s) (has : Always step P s as) :
    f (final step s as) + ((outputs step s as).map g).sum = f s := by
  induction as generalizing s with
  | nil => simp
  | cons a as ih =>
    have htail := ih (hinv s a hs has.1) has.2
    have hhead := hstep s a hs has.1
    simp only [final_cons, outputs_cons, List.map_cons, List.sum_cons]
    linarith

end Run
