import FalconLedger.Data.Run

/-!
# Programs among others

A program is the tree of the operations it asks its surroundings for, with what it does with each
reply. Between any two operations the surroundings may move, and the process may be stopped and
started again.

`Safe`: each operation keeps an invariant and the program ends in a state that meets a
postcondition, as long as the surroundings keep to a relation (`R`). A machine whose programs are
safe keeps the invariant (`Machine.invariant`).
-/

/-- A program that asks for operations and returns, or raises an exception. -/
inductive Program (Op : Type) (Reply : Op → Type) (α : Type) : Type
  | ret (a : α)
  | raise
  | call (o : Op) (k : Reply o → Program Op Reply α)

namespace Program

variable {Op : Type} {Reply : Op → Type} {α β : Type}

def bind : Program Op Reply α → (α → Program Op Reply β) → Program Op Reply β
  | .ret a, f => f a
  | .raise, _ => .raise
  | .call o k, f => .call o fun r => (k r).bind f

instance : Monad (Program Op Reply) where
  pure := ret
  bind := bind

def op (o : Op) : Program Op Reply (Reply o) := .call o .ret

/-- The value, or an exception where there is none. -/
def orRaise : Option α → Program Op Reply α
  | some a => .ret a
  | none => .raise

def isDone : Program Op Reply α → Bool
  | .call _ _ => false
  | _ => true

variable {W C E : Type}

section Safe

variable (exec : (o : Op) → W → C → W × Reply o) (I : W → Prop) (R : W → W → Prop) (pre : Op → W → C → Prop)

/-- Every operation that is asked for where `pre` holds keeps `I`, and the program ends in `Q`. -/
def Safe : Program Op Reply α → (α → W → Prop) → W → Prop
  | .ret a, Q, w => Q a w
  | .raise, _, _ => True
  | .call o k, Q, w => ∀ w', R w w' → I w' → ∀ c, pre o w' c →
      I (exec o w' c).1 ∧ Safe (k (exec o w' c).2) Q (exec o w' c).1

variable {exec I R pre} {m : Program Op Reply α} {Q Q' : α → W → Prop} {w w' : W}
  {a : α}

theorem safe_done : Safe exec I R pre (ret a : Program Op Reply α) Q w ↔ Q a w := Iff.rfl

theorem safe_raise : Safe exec I R pre (raise : Program Op Reply α) Q w := trivial

theorem safe_call {o : Op} {k : Reply o → Program Op Reply α} :
    Safe exec I R pre (.call o k) Q w ↔ ∀ w', R w w' → I w' → ∀ c, pre o w' c →
      I (exec o w' c).1 ∧ Safe exec I R pre (k (exec o w' c).2) Q (exec o w' c).1 := Iff.rfl

attribute [irreducible] Safe

theorem safe_pure (h : Q a w) : Safe exec I R pre (pure a : Program Op Reply α) Q w :=
  safe_done.mpr h

theorem safe_mono (hQ : ∀ a w, Q a w → Q' a w) (h : Safe exec I R pre m Q w) :
    Safe exec I R pre m Q' w := by
  induction m generalizing w with
  | ret a => exact safe_done.mpr (hQ a w (safe_done.mp h))
  | raise => exact safe_raise
  | call o k ih =>
    refine safe_call.mpr fun w' hR hI c hpre => ?_
    obtain ⟨hI', hk⟩ := safe_call.mp h w' hR hI c hpre
    exact ⟨hI', ih _ hk⟩

theorem safe_bind {f : α → Program Op Reply β} {Q : β → W → Prop}
    (h : Safe exec I R pre m (fun a w => Safe exec I R pre (f a) Q w) w) :
    Safe exec I R pre (m >>= f) Q w := by
  induction m generalizing w with
  | ret a => exact (safe_done (Q := fun a w => Safe exec I R pre (f a) Q w)).mp h
  | raise => exact safe_raise
  | call o k ih =>
    refine safe_call.mpr fun w' hR hI c hpre => ?_
    obtain ⟨hI', hk⟩ := safe_call.mp h w' hR hI c hpre
    exact ⟨hI', ih _ hk⟩

theorem safe_op {o : Op} {Q : Reply o → W → Prop}
    (h : ∀ w', R w w' → I w' → ∀ c, pre o w' c →
      I (exec o w' c).1 ∧ Q (exec o w' c).2 (exec o w' c).1) :
    Safe exec I R pre (op o) Q w := by
  refine safe_call.mpr fun w' hR hI c hpre => ?_
  obtain ⟨hI', hQ⟩ := h w' hR hI c hpre
  exact ⟨hI', safe_done.mpr hQ⟩

theorem safe_orRaise {v : Option α} (h : ∀ a, v = some a → Q a w) :
    Safe exec I R pre (orRaise v) Q w := by
  cases v with
  | none => exact safe_raise
  | some a => exact safe_done.mpr (h a rfl)

theorem safe_stable (hR : ∀ {w₁ w₂ w₃}, R w₁ w₂ → R w₂ w₃ → R w₁ w₃)
    (hQ : ∀ a w w', R w w' → Q a w → Q a w') (h : Safe exec I R pre m Q w) (hw : R w w') :
    Safe exec I R pre m Q w' := by
  cases m with
  | ret a => exact safe_done.mpr (hQ a w w' hw (safe_done.mp h))
  | raise => exact safe_raise
  | call o k => exact safe_call.mpr fun w'' hR' => safe_call.mp h w'' (hR hw hR')

end Safe

/-! ### Machines -/

/-- A process: how its surroundings perform an operation, by a choice of theirs, and how they move; the
programs it runs, and what becomes of the state when it is stopped. -/
structure Machine (Op : Type) (Reply : Op → Type) (W C E M : Type) where
  exec : (o : Op) → W → C → W × Reply o
  env : W → E → W
  main : M → Program Op Reply Unit
  stopped : W → W

inductive Act (C E M : Type)
  /-- The surroundings move. -/
  | env (e : E)
  /-- The next operation is performed. -/
  | resume (c : C)
  /-- A program is started, if none is running. -/
  | start (m : M)
  /-- The process is stopped. -/
  | stop

namespace Machine

variable {M : Type} (P : Machine Op Reply W C E M)

def step (s : W × Program Op Reply Unit) : Act C E M → (W × Program Op Reply Unit) × Unit
  | .env e => ((P.env s.1 e, s.2), ())
  | .resume c =>
    match s.2 with
    | .call o k => (((P.exec o s.1 c).1, k (P.exec o s.1 c).2), ())
    | _ => (s, ())
  | .start m => (if s.2.isDone then (s.1, P.main m) else s, ())
  | .stop => ((P.stopped s.1, .ret ()), ())

/-- The next operation is one that `pre` allows, and a move of the surroundings one that `envPre` does. -/
def Allowed (pre : Op → W → C → Prop) (envPre : W → E → Prop) (s : W × Program Op Reply Unit) :
    Act C E M → Prop
  | .env e => envPre s.1 e
  | .resume c =>
    match s.2 with
    | .call o _ => pre o s.1 c
    | _ => True
  | _ => True

instance Allowed.decidable {pre : Op → W → C → Prop} {envPre : W → E → Prop}
    [∀ o w c, Decidable (pre o w c)] [∀ w e, Decidable (envPre w e)] :
    ∀ (s : W × Program Op Reply Unit) (a : Act C E M), Decidable (Allowed pre envPre s a)
  | s, .env e => inferInstanceAs (Decidable (envPre s.1 e))
  | (w, .call o _), .resume c => inferInstanceAs (Decidable (pre o w c))
  | (_, .ret _), .resume _ | (_, .raise), .resume _ | _, .start _ | _, .stop => .isTrue trivial

variable {P} {I : W → Prop} {R : W → W → Prop} {pre : Op → W → C → Prop} {envPre : W → E → Prop}

/-- The invariant, and a program that keeps it. -/
def Running (P : Machine Op Reply W C E M) (I : W → Prop) (R : W → W → Prop)
    (pre : Op → W → C → Prop) (s : W × Program Op Reply Unit) : Prop :=
  I s.1 ∧ Safe P.exec I R pre s.2 (fun _ _ => True) s.1

theorem step_running (hR : ∀ {w₁ w₂ w₃}, R w₁ w₂ → R w₂ w₃ → R w₁ w₃) (hrefl : ∀ w, R w w)
    (henv : ∀ w e, I w → envPre w e → I (P.env w e) ∧ R w (P.env w e))
    (hstopped : ∀ w, I w → I (P.stopped w))
    (hmain : ∀ m w, I w → Safe P.exec I R pre (P.main m) (fun _ _ => True) w)
    (s : W × Program Op Reply Unit) (a : Act C E M) (hs : P.Running I R pre s)
    (ha : Allowed pre envPre s a) : P.Running I R pre (P.step s a).1 := by
  obtain ⟨w, m⟩ := s
  obtain ⟨hI, hsafe⟩ := hs
  cases a with
  | env e =>
    obtain ⟨hI', hmoved⟩ := henv w e hI ha
    exact ⟨hI', safe_stable hR (fun _ _ _ _ _ => trivial) hsafe hmoved⟩
  | resume c =>
    cases m with
    | call o k => exact safe_call.mp hsafe w (hrefl w) hI c ha
    | ret a => exact ⟨hI, hsafe⟩
    | raise => exact ⟨hI, hsafe⟩
  | start m' =>
    simp only [step]
    split_ifs
    · exact ⟨hI, hmain m' w hI⟩
    · exact ⟨hI, hsafe⟩
  | stop => exact ⟨hstopped w hI, safe_done.mpr trivial⟩

theorem invariant (hR : ∀ {w₁ w₂ w₃}, R w₁ w₂ → R w₂ w₃ → R w₁ w₃) (hrefl : ∀ w, R w w)
    (henv : ∀ w e, I w → envPre w e → I (P.env w e) ∧ R w (P.env w e))
    (hstopped : ∀ w, I w → I (P.stopped w))
    (hmain : ∀ m w, I w → Safe P.exec I R pre (P.main m) (fun _ _ => True) w)
    {w : W} {as : List (Act C E M)} (hw : I w)
    (has : Run.Always P.step (Allowed pre envPre) (w, .ret ()) as) :
    I (Run.final P.step (w, .ret ()) as).1 := by
  have hstart : P.Running I R pre (w, .ret ()) := ⟨hw, safe_done.mpr trivial⟩
  exact (Run.invariant (P.Running I R pre) (step_running hR hrefl henv hstopped hmain) hstart has).1

end Machine

end Program
