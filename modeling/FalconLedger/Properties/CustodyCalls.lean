import FalconLedger.Custody.CollateralLock

/-!
# What a call of the custody contract does

A call that is not reverted makes a deposit, or confirms an operation that is allowed; at the threshold
the operation is executed (`call_cases`).
-/

namespace FalconLedger.CollateralLock

variable {B T : Type} [DecidableEq B]

/-- The operation a method confirms. -/
def Method.operation : Method B → Option (Operation B)
  | .deposit _ _ => none
  | .confirm op => some op
  | .withdraw amount recipient withdrawalId falconAccount falconTxHash =>
    some (.withdraw amount recipient withdrawalId falconAccount falconTxHash)
  | .release depositId recipient => some (.release depositId recipient)

namespace Contract

/-- The confirmation has been counted. -/
def confirmed (s : Contract B T) (opHash : B) (sender : Address) : Contract B T :=
  { s with
    confirmations := Function.update s.confirmations opHash
      (Function.update (s.confirmations opHash) sender true)
    confirmationCount := Function.update s.confirmationCount opHash (s.confirmationCount opHash + 1) }

/-- The operation has been marked. -/
def marked (s : Contract B T) (opHash : B) : Contract B T :=
  { s with executed := Function.update s.executed opHash true }

@[simp] theorem confirmed_required (s : Contract B T) (h : B) (a : Address) :
    (s.confirmed h a).required = s.required := rfl

end Contract

/-- What the function that confirms an operation requires of it. -/
def Allowed (s : Contract B T) : Operation B → Prop
  | .withdraw amount _ withdrawalId _ _ =>
    0 < amount ∧ s.processedWithdrawals withdrawalId = false
  | .release depositId _ => 0 < (s.deposits depositId).amount ∧ (s.deposits depositId).released = false
  | .addOwner newOwner => s.isOwner newOwner = false
  | .removeOwner ownerToRemove => s.isOwner ownerToRemove = true ∧ s.required < s.owners.length
  | .changeRequirement newRequired => 0 < newRequired ∧ newRequired ≤ s.owners.length

/-- What the execution of an operation does, and what it emits. -/
inductive Executes (D : Deployment B T) :
    Operation B → Contract B T → Contract B T → List (Event B) → Prop
  | withdraw {s : Contract B T} {amount : ℕ} {recipient : Address} {withdrawalId : B}
      {falconAccount falconTxHash : Blob} {usdc : T}
      (paid : D.usdc.transfer s.usdc D.this recipient amount = some usdc) :
      Executes D (.withdraw amount recipient withdrawalId falconAccount falconTxHash) s
        { s with
          processedWithdrawals := Function.update s.processedWithdrawals withdrawalId true
          usdc }
        [.withdrawalReleased withdrawalId recipient amount falconAccount falconTxHash]
  | release {s : Contract B T} {depositId : B} {recipient : Address} {usdc : T}
      (paid : D.usdc.transfer s.usdc D.this recipient (s.deposits depositId).amount = some usdc) :
      Executes D (.release depositId recipient) s
        { s with
          deposits := Function.update s.deposits depositId
            { s.deposits depositId with released := true }
          usdc }
        [.depositReleased depositId recipient (s.deposits depositId).amount]
  | addOwner {s : Contract B T} {newOwner : Address} :
      Executes D (.addOwner newOwner) s
        { s with
          isOwner := Function.update s.isOwner newOwner true
          owners := s.owners ++ [newOwner] }
        [.ownerAdded newOwner]
  | removeOwner {s : Contract B T} {ownerToRemove : Address} :
      Executes D (.removeOwner ownerToRemove) s
        { s with
          isOwner := Function.update s.isOwner ownerToRemove false
          owners := removeFrom ownerToRemove s.owners }
        [.ownerRemoved ownerToRemove]
  | changeRequirement {s : Contract B T} {newRequired : ℕ} :
      Executes D (.changeRequirement newRequired) s { s with required := newRequired }
        [.requirementChanged newRequired]

/-- What a confirmation does. -/
inductive Confirms (D : Deployment B T) (op : Operation B) (s : Contract B T) (sender : Address) :
    Contract B T → List (Event B) → Prop
  | waiting (below : s.confirmationCount (D.opHash op) + 1 < s.required) :
      Confirms D op s sender (s.confirmed (D.opHash op) sender)
        [.operationConfirmed (D.opHash op) sender (s.confirmationCount (D.opHash op) + 1)]
  | executed {s' : Contract B T} {done : List (Event B)}
      (enough : s.required ≤ s.confirmationCount (D.opHash op) + 1)
      (executes : Executes D op ((s.confirmed (D.opHash op) sender).marked (D.opHash op)) s' done) :
      Confirms D op s sender s'
        (.operationConfirmed (D.opHash op) sender (s.confirmationCount (D.opHash op) + 1) ::
          .operationExecuted (D.opHash op) :: done)

/-- A confirmation that is not reverted. -/
structure Confirmation (D : Deployment B T) (op : Operation B) (s : Contract B T) (sender : Address)
    (s' : Contract B T) (events : List (Event B)) : Prop where
  owner : s.isOwner sender = true
  allowed : Allowed s op
  pending : s.executed (D.opHash op) = false
  fresh : s.confirmations (D.opHash op) sender = false
  confirms : Confirms D op s sender s' events

/-- A deposit that is not reverted. -/
structure Deposited (D : Deployment B T) (s : Contract B T) (sender : Address) (amount : ℕ)
    (falconAccount : Blob) (s' : Contract B T) (events : List (Event B)) : Prop where
  positive : 0 < amount
  moves : ∃ usdc, D.usdc.transferFrom s.usdc D.this sender D.this amount = some usdc ∧
    s' = { s with
      usdc
      nextDepositNonce := s.nextDepositNonce + 1
      deposits := Function.update s.deposits
        (D.depositHash ⟨s.nextDepositNonce, sender, amount, falconAccount⟩)
        ⟨sender, amount, falconAccount, false⟩ }
  events_eq : events = [.depositCreated
    (D.depositHash ⟨s.nextDepositNonce, sender, amount, falconAccount⟩) sender amount falconAccount]

variable {D : Deployment B T} {s s' : Contract B T} {sender : Address} {op : Operation B}
  {events : List (Event B)}

theorem checkedSucc_eq_ok {n m : ℕ} : checkedSucc n = .ok m ↔ n + 1 < 2 ^ 256 ∧ n + 1 = m := by
  simp only [checkedSucc, Revertible.bind_eq_ok, require_eq_ok, Revertible.pure_eq_ok]
  constructor
  · rintro ⟨-, hlt, heq⟩
    exact ⟨hlt, heq⟩
  · rintro ⟨hlt, heq⟩
    exact ⟨(), hlt, heq⟩

theorem deposit_spec {amount : ℕ} {falconAccount : Blob}
    (h : deposit D s sender amount falconAccount = .ok (s', events)) :
    Deposited D s sender amount falconAccount s' events := by
  simp only [deposit, Revertible.bind_eq_ok, require_eq_ok] at h
  obtain ⟨_, hpositive, _, -, h⟩ := h
  cases hmoves : D.usdc.transferFrom s.usdc D.this sender D.this amount with
  | none => simp [hmoves] at h
  | some usdc =>
    simp only [hmoves, Revertible.bind_eq_ok, checkedSucc_eq_ok, Revertible.pure_eq_ok,
      Prod.mk.injEq] at h
    obtain ⟨_, ⟨-, rfl⟩, rfl, rfl⟩ := h
    exact ⟨hpositive, ⟨usdc, hmoves, rfl⟩, rfl⟩

theorem confirm_spec {h : B} (hok : confirm s sender h = .ok (s', events)) :
    s.isOwner sender = true ∧ s.executed h = false ∧ s.confirmations h sender = false ∧
      s' = s.confirmed h sender ∧
      events = [.operationConfirmed h sender (s.confirmationCount h + 1)] := by
  simp only [confirm, Revertible.bind_eq_ok, require_eq_ok, checkedSucc_eq_ok,
    Revertible.pure_eq_ok, Prod.mk.injEq, Bool.not_eq_true'] at hok
  obtain ⟨_, howner, _, hpending, _, hfresh, _, ⟨-, rfl⟩, rfl, rfl⟩ := hok
  exact ⟨howner, hpending, hfresh, rfl, rfl⟩

theorem markExecuted_spec {h : B} (hok : markExecuted s h = .ok (s', events)) :
    s' = s.marked h ∧ events = [.operationExecuted h] := by
  simp only [markExecuted, Revertible.bind_eq_ok, require_eq_ok, Revertible.pure_eq_ok,
    Prod.mk.injEq] at hok
  obtain ⟨_, -, _, -, rfl, rfl⟩ := hok
  exact ⟨rfl, rfl⟩

theorem confirmOperation_spec {effect : Contract B T → Revertible (Contract B T × List (Event B))}
    (heffect : ∀ s₁ s₂ done, effect s₁ = .ok (s₂, done) → Executes D op s₁ s₂ done)
    (hallowed : Allowed s op) (h : confirmOperation D s sender op effect = .ok (s', events)) :
    Confirmation D op s sender s' events := by
  simp only [confirmOperation, Revertible.bind_eq_ok] at h
  obtain ⟨⟨s₁, e₁⟩, hconfirm, h⟩ := h
  obtain ⟨howner, hpending, hfresh, rfl, rfl⟩ := confirm_spec hconfirm
  refine ⟨howner, hallowed, hpending, hfresh, ?_⟩
  have hcount : (s.confirmed (D.opHash op) sender).confirmationCount (D.opHash op) =
      s.confirmationCount (D.opHash op) + 1 := Function.update_self ..
  rw [hcount, Contract.confirmed_required] at h
  split_ifs at h with henough
  · simp only [Revertible.bind_eq_ok, Revertible.pure_eq_ok, Prod.mk.injEq] at h
    obtain ⟨⟨s₂, e₂⟩, hmark, ⟨s₃, e₃⟩, hdone, rfl, rfl⟩ := h
    obtain ⟨rfl, rfl⟩ := markExecuted_spec hmark
    exact .executed henough (heffect _ _ _ hdone)
  · simp only [Revertible.pure_eq_ok, Prod.mk.injEq] at h
    obtain ⟨rfl, rfl⟩ := h
    exact .waiting (Nat.lt_of_not_le henough)

omit [DecidableEq B] in
theorem pay_spec {recipient : Address} {amount : ℕ} (h : pay D s recipient amount = .ok s') :
    ∃ usdc, D.usdc.transfer s.usdc D.this recipient amount = some usdc ∧ s' = { s with usdc } := by
  rw [pay] at h
  cases hpaid : D.usdc.transfer s.usdc D.this recipient amount with
  | none => simp [hpaid] at h
  | some usdc =>
    rw [hpaid] at h
    exact ⟨usdc, rfl, (Except.ok.inj h).symm⟩

/-! ### The functions that confirm -/

theorem confirmWithdraw_spec {amount : ℕ} {recipient : Address} {withdrawalId : B}
    {falconAccount falconTxHash : Blob}
    (h : confirmWithdraw D s sender amount recipient withdrawalId falconAccount falconTxHash =
      .ok (s', events)) :
    Confirmation D (.withdraw amount recipient withdrawalId falconAccount falconTxHash) s sender s'
      events := by
  simp only [confirmWithdraw, Revertible.bind_eq_ok, require_eq_ok, Bool.not_eq_true'] at h
  obtain ⟨_, -, _, hpositive, _, -, _, hfirst, _, -, _, -, h⟩ := h
  refine confirmOperation_spec (fun s₁ s₂ done hdone => ?_) ⟨hpositive, hfirst⟩ h
  simp only [Revertible.bind_eq_ok, Revertible.pure_eq_ok, Prod.mk.injEq] at hdone
  obtain ⟨_, hpay, rfl, rfl⟩ := hdone
  obtain ⟨usdc, hpaid, rfl⟩ := pay_spec hpay
  exact .withdraw hpaid

theorem confirmRelease_spec {depositId : B} {recipient : Address}
    (h : confirmRelease D s sender depositId recipient = .ok (s', events)) :
    Confirmation D (.release depositId recipient) s sender s' events := by
  simp only [confirmRelease, Revertible.bind_eq_ok, require_eq_ok, Bool.not_eq_true'] at h
  obtain ⟨_, -, _, hknown, _, hunreleased, _, -, h⟩ := h
  refine confirmOperation_spec (fun s₁ s₂ done hdone => ?_) ⟨hknown, hunreleased⟩ h
  simp only [Revertible.bind_eq_ok, Revertible.pure_eq_ok, Prod.mk.injEq] at hdone
  obtain ⟨_, hpay, rfl, rfl⟩ := hdone
  obtain ⟨usdc, hpaid, rfl⟩ := pay_spec hpay
  exact .release hpaid

theorem confirmCall_spec (h : confirmCall D s sender op = .ok (s', events)) :
    Confirmation D op s sender s' events := by
  cases op with
  | withdraw => exact confirmWithdraw_spec h
  | release => exact confirmRelease_spec h
  | addOwner newOwner =>
    simp only [confirmCall, confirmAddOwner, Revertible.bind_eq_ok, require_eq_ok,
      Bool.not_eq_true'] at h
    obtain ⟨_, -, _, -, _, hnew, h⟩ := h
    refine confirmOperation_spec (fun s₁ s₂ done hdone => ?_) hnew h
    simp only [Revertible.pure_eq_ok, Prod.mk.injEq] at hdone
    obtain ⟨rfl, rfl⟩ := hdone
    exact .addOwner
  | removeOwner ownerToRemove =>
    simp only [confirmCall, confirmRemoveOwner, Revertible.bind_eq_ok, require_eq_ok] at h
    obtain ⟨_, -, _, howner, _, hspare, h⟩ := h
    refine confirmOperation_spec (fun s₁ s₂ done hdone => ?_) ⟨howner, hspare⟩ h
    simp only [Revertible.pure_eq_ok, Prod.mk.injEq] at hdone
    obtain ⟨rfl, rfl⟩ := hdone
    exact .removeOwner
  | changeRequirement newRequired =>
    simp only [confirmCall, confirmChangeRequirement, Revertible.bind_eq_ok, require_eq_ok] at h
    obtain ⟨_, -, _, hbounds, h⟩ := h
    refine confirmOperation_spec (fun s₁ s₂ done hdone => ?_) hbounds h
    simp only [Revertible.pure_eq_ok, Prod.mk.injEq] at hdone
    obtain ⟨rfl, rfl⟩ := hdone
    exact .changeRequirement

theorem call_cases {c : Call B} (h : call D s c = .ok (s', events)) :
    (∃ amount falconAccount, c.method = .deposit amount falconAccount ∧
      Deposited D s c.sender amount falconAccount s' events) ∨
    ∃ op, c.method.operation = some op ∧ Confirmation D op s c.sender s' events := by
  obtain ⟨sender, method⟩ := c
  cases method with
  | deposit amount falconAccount => exact .inl ⟨amount, falconAccount, rfl, deposit_spec h⟩
  | confirm op => exact .inr ⟨op, rfl, confirmCall_spec h⟩
  | withdraw =>
    simp only [call, withdraw, Revertible.bind_eq_ok, require_eq_ok] at h
    obtain ⟨_, -, _, -, h⟩ := h
    exact .inr ⟨_, rfl, confirmWithdraw_spec h⟩
  | release =>
    simp only [call, release, Revertible.bind_eq_ok, require_eq_ok] at h
    obtain ⟨_, -, _, -, h⟩ := h
    exact .inr ⟨_, rfl, confirmRelease_spec h⟩

theorem step_cases (D : Deployment B T) (s : Contract B T) (c : Call B) :
    step D s c = (s, []) ∨ call D s c = .ok (step D s c) := by
  rw [step]
  cases call D s c with
  | error => exact .inl rfl
  | ok r => exact .inr rfl

end FalconLedger.CollateralLock
