import FalconLedger.Protocol.STTx
import Mathlib.Algebra.Order.Ring.Nat

/-!
# The custody contract

`FalconCollateralLock`: deposits of a token, and the operations its owners confirm one by one. A call
that fails a `require` is reverted. The token is any that moves what it says it moves. The hash of an
operation stands for `keccak256` of its encoding, which begins with the name of the operation; the
hash of a deposit stands for that of the chain, the contract and the deposit.
-/

namespace FalconLedger

abbrev Address := BitVec 160

/-! ### Reverting -/

/-- A computation that may be reverted, with a message. -/
abbrev Revertible := Except String

def require (c : Prop) [Decidable c] (message : String) : Revertible Unit :=
  if c then .ok () else .error message

@[simp] theorem require_eq_ok {c : Prop} [Decidable c] {message : String} {u : Unit} :
    require c message = .ok u ↔ c := by
  unfold require
  split_ifs with h <;> simp [h]

@[simp] theorem Revertible.bind_eq_ok {α β : Type} {x : Revertible α} {f : α → Revertible β} {b : β} :
    (x >>= f) = .ok b ↔ ∃ a, x = .ok a ∧ f a = .ok b := by
  cases x <;> simp [bind, Except.bind]

@[simp] theorem Revertible.pure_eq_ok {α : Type} {a b : α} :
    (pure a : Revertible α) = .ok b ↔ a = b := by
  simp [pure, Except.pure]

/-! ### The token -/

/-- Balances after `amount` has moved. -/
def moved (balances : Address → ℕ) (src dst : Address) (amount : ℕ) : Address → ℕ :=
  let debited := Function.update balances src (balances src - amount)
  Function.update debited dst (debited dst + amount)

/-- A standard ERC-20 token: what it transfers it moves, and nothing else. `none` is a transfer that
reverts or returns `false`. -/
structure ERC20 (T : Type) where
  balanceOf : T → Address → ℕ
  transfer : T → Address → Address → ℕ → Option T
  transferFrom : T → Address → Address → Address → ℕ → Option T
  transfer_spec : ∀ t src dst amount t', transfer t src dst amount = some t' →
    amount ≤ balanceOf t src ∧ balanceOf t' = moved (balanceOf t) src dst amount
  transferFrom_spec : ∀ t spender src dst amount t',
    transferFrom t spender src dst amount = some t' →
    amount ≤ balanceOf t src ∧ balanceOf t' = moved (balanceOf t) src dst amount

namespace CollateralLock

/-! ### State -/

structure DepositRecord where
  sender : Address
  amount : ℕ
  falconAccount : Blob
  released : Bool
  deriving DecidableEq

/-- What the owners confirm. `B` stands for `bytes32`. -/
inductive Operation (B : Type)
  | withdraw (amount : ℕ) (recipient : Address) (withdrawalId : B) (falconAccount falconTxHash : Blob)
  | release (depositId : B) (recipient : Address)
  | addOwner (newOwner : Address)
  | removeOwner (ownerToRemove : Address)
  | changeRequirement (newRequired : ℕ)
  deriving DecidableEq

/-- What a deposit is hashed from. -/
structure DepositKey where
  nonce : ℕ
  sender : Address
  amount : ℕ
  falconAccount : Blob
  deriving DecidableEq

/-- A contract as deployed: its address, its token and the hash. -/
structure Deployment (B T : Type) where
  this : Address
  usdc : ERC20 T
  opHash : Operation B → B
  depositHash : DepositKey → B

variable {B T : Type}

structure Contract (B T : Type) where
  isOwner : Address → Bool
  owners : List Address
  required : ℕ
  deposits : B → DepositRecord
  nextDepositNonce : ℕ
  processedWithdrawals : B → Bool
  confirmations : B → Address → Bool
  confirmationCount : B → ℕ
  executed : B → Bool
  /-- The state of the token. -/
  usdc : T

inductive Event (B : Type)
  | depositCreated (depositId : B) (sender : Address) (amount : ℕ) (falconAccount : Blob)
  | depositReleased (depositId : B) (recipient : Address) (amount : ℕ)
  | withdrawalReleased (withdrawalId : B) (recipient : Address) (amount : ℕ)
      (falconAccount falconTxHash : Blob)
  | ownerAdded (owner : Address)
  | ownerRemoved (owner : Address)
  | requirementChanged (required : ℕ)
  | operationConfirmed (opHash : B) (owner : Address) (count : ℕ)
  | operationExecuted (opHash : B)
  deriving DecidableEq

/-- The constructor, on a token in state `usdc`. -/
def deploy (usdcToken : Address) (initialOwners : List Address) (requiredConfirmations : ℕ)
    (usdc : T) : Revertible (Contract B T) := do
  require (usdcToken ≠ 0) "zero usdc"
  require (initialOwners ≠ []) "no owners"
  require (0 < requiredConfirmations ∧ requiredConfirmations ≤ initialOwners.length) "bad required"
  let owners ← initialOwners.foldlM (fun (owners : List Address) o => do
    require (o ≠ 0) "zero owner"
    require (o ∉ owners) "duplicate owner"
    return owners ++ [o]) []
  return {
    isOwner := fun a => decide (a ∈ owners)
    owners
    required := requiredConfirmations
    deposits := fun _ => ⟨0, 0, [], false⟩
    nextDepositNonce := 0
    processedWithdrawals := fun _ => false
    confirmations := fun _ _ => false
    confirmationCount := fun _ => 0
    executed := fun _ => false
    usdc }

variable [DecidableEq B] (D : Deployment B T)

/-- Arithmetic on `uint256` is checked. -/
def checkedSucc (n : ℕ) : Revertible ℕ := do
  require (n + 1 < 2 ^ 256) "arithmetic overflow"
  return n + 1

def deposit (s : Contract B T) (sender : Address) (amount : ℕ) (falconAccount : Blob) :
    Revertible (Contract B T × List (Event B)) := do
  require (0 < amount) "amount required"
  require (falconAccount ≠ []) "falcon account required"
  let some usdc := D.usdc.transferFrom s.usdc D.this sender D.this amount
    | .error "transferFrom failed"
  let depositId := D.depositHash ⟨s.nextDepositNonce, sender, amount, falconAccount⟩
  let nextDepositNonce ← checkedSucc s.nextDepositNonce
  let deposits := Function.update s.deposits depositId ⟨sender, amount, falconAccount, false⟩
  return ({ s with usdc, nextDepositNonce, deposits },
    [.depositCreated depositId sender amount falconAccount])

/-! ### Confirming -/

/-- `_confirm` -/
def confirm (s : Contract B T) (sender : Address) (opHash : B) :
    Revertible (Contract B T × List (Event B)) := do
  require (s.isOwner sender) "not owner"
  require (!s.executed opHash) "already executed"
  require (!s.confirmations opHash sender) "already confirmed"
  let count ← checkedSucc (s.confirmationCount opHash)
  return ({ s with
      confirmations := Function.update s.confirmations opHash
        (Function.update (s.confirmations opHash) sender true)
      confirmationCount := Function.update s.confirmationCount opHash count },
    [.operationConfirmed opHash sender count])

/-- `_markExecuted` -/
def markExecuted (s : Contract B T) (opHash : B) : Revertible (Contract B T × List (Event B)) := do
  require (s.required ≤ s.confirmationCount opHash) "insufficient confirmations"
  require (!s.executed opHash) "already executed"
  return ({ s with executed := Function.update s.executed opHash true },
    [.operationExecuted opHash])

/-- The common part of the five functions that confirm an operation: at the threshold it is
executed. -/
def confirmOperation (s : Contract B T) (sender : Address) (op : Operation B)
    (effect : Contract B T → Revertible (Contract B T × List (Event B))) :
    Revertible (Contract B T × List (Event B)) := do
  let (s₁, confirmed) ← confirm s sender (D.opHash op)
  if s₁.required ≤ s₁.confirmationCount (D.opHash op) then
    let (s₂, executed) ← markExecuted s₁ (D.opHash op)
    let (s₃, done) ← effect s₂
    return (s₃, confirmed ++ executed ++ done)
  else
    return (s₁, confirmed)

/-- `usdc.transfer`, from the contract. -/
def pay (s : Contract B T) (recipient : Address) (amount : ℕ) : Revertible (Contract B T) :=
  match D.usdc.transfer s.usdc D.this recipient amount with
  | some usdc => .ok { s with usdc }
  | none => .error "transfer failed"

def confirmWithdraw (s : Contract B T) (sender : Address) (amount : ℕ) (recipient : Address)
    (withdrawalId : B) (falconAccount falconTxHash : Blob) :
    Revertible (Contract B T × List (Event B)) := do
  require (s.isOwner sender) "not owner"
  require (0 < amount) "amount required"
  require (recipient ≠ 0) "zero recipient"
  require (!s.processedWithdrawals withdrawalId) "already processed"
  require (falconAccount ≠ []) "falcon account required"
  require (falconTxHash ≠ []) "falcon tx required"
  confirmOperation D s sender (.withdraw amount recipient withdrawalId falconAccount falconTxHash)
    fun s => do
      let s ← pay D { s with
        processedWithdrawals := Function.update s.processedWithdrawals withdrawalId true }
        recipient amount
      return (s, [.withdrawalReleased withdrawalId recipient amount falconAccount falconTxHash])

def confirmRelease (s : Contract B T) (sender : Address) (depositId : B) (recipient : Address) :
    Revertible (Contract B T × List (Event B)) := do
  require (s.isOwner sender) "not owner"
  let record := s.deposits depositId
  require (0 < record.amount) "unknown deposit"
  require (!record.released) "already released"
  require (recipient ≠ 0) "zero recipient"
  confirmOperation D s sender (.release depositId recipient) fun s => do
    let record := s.deposits depositId
    let s ← pay D { s with
      deposits := Function.update s.deposits depositId { record with released := true } }
      recipient record.amount
    return (s, [.depositReleased depositId recipient record.amount])

/-! ### Owners -/

def confirmAddOwner (s : Contract B T) (sender newOwner : Address) :
    Revertible (Contract B T × List (Event B)) := do
  require (s.isOwner sender) "not owner"
  require (newOwner ≠ 0) "zero owner"
  require (!s.isOwner newOwner) "already owner"
  confirmOperation D s sender (.addOwner newOwner) fun s =>
    return ({ s with
        isOwner := Function.update s.isOwner newOwner true
        owners := s.owners ++ [newOwner] },
      [.ownerAdded newOwner])

/-- The loop of `confirmRemoveOwner`: the last owner takes the place of the one that goes. -/
def removeFrom (ownerToRemove : Address) (owners : List Address) : List Address :=
  match owners.idxOf? ownerToRemove with
  | none => owners
  | some i => (owners.set i (owners.getLast?.getD 0)).dropLast

def confirmRemoveOwner (s : Contract B T) (sender ownerToRemove : Address) :
    Revertible (Contract B T × List (Event B)) := do
  require (s.isOwner sender) "not owner"
  require (s.isOwner ownerToRemove) "not an owner"
  require (s.required < s.owners.length) "would break threshold"
  confirmOperation D s sender (.removeOwner ownerToRemove) fun s =>
    return ({ s with
        isOwner := Function.update s.isOwner ownerToRemove false
        owners := removeFrom ownerToRemove s.owners },
      [.ownerRemoved ownerToRemove])

def confirmChangeRequirement (s : Contract B T) (sender : Address) (newRequired : ℕ) :
    Revertible (Contract B T × List (Event B)) := do
  require (s.isOwner sender) "not owner"
  require (0 < newRequired ∧ newRequired ≤ s.owners.length) "bad required"
  confirmOperation D s sender (.changeRequirement newRequired) fun s =>
    return ({ s with required := newRequired }, [.requirementChanged newRequired])

/-! ### Aliases for a single signer -/

def withdraw (s : Contract B T) (sender : Address) (amount : ℕ) (recipient : Address)
    (withdrawalId : B) (falconAccount falconTxHash : Blob) :
    Revertible (Contract B T × List (Event B)) := do
  require (s.isOwner sender) "not owner"
  require (s.required = 1) "use confirmWithdraw (multi-sig)"
  confirmWithdraw D s sender amount recipient withdrawalId falconAccount falconTxHash

def release (s : Contract B T) (sender : Address) (depositId : B) (recipient : Address) :
    Revertible (Contract B T × List (Event B)) := do
  require (s.isOwner sender) "not owner"
  require (s.required = 1) "use confirmRelease (multi-sig)"
  confirmRelease D s sender depositId recipient

/-! ### Calls -/

inductive Method (B : Type)
  | deposit (amount : ℕ) (falconAccount : Blob)
  /-- The function that confirms the operation. -/
  | confirm (op : Operation B)
  | withdraw (amount : ℕ) (recipient : Address) (withdrawalId : B) (falconAccount falconTxHash : Blob)
  | release (depositId : B) (recipient : Address)
  deriving DecidableEq

/-- A call, with `msg.sender`. -/
structure Call (B : Type) where
  sender : Address
  method : Method B
  deriving DecidableEq

/-- The function that confirms an operation. -/
def confirmCall (s : Contract B T) (sender : Address) :
    Operation B → Revertible (Contract B T × List (Event B))
  | .withdraw amount recipient withdrawalId falconAccount falconTxHash =>
    confirmWithdraw D s sender amount recipient withdrawalId falconAccount falconTxHash
  | .release depositId recipient => confirmRelease D s sender depositId recipient
  | .addOwner newOwner => confirmAddOwner D s sender newOwner
  | .removeOwner ownerToRemove => confirmRemoveOwner D s sender ownerToRemove
  | .changeRequirement newRequired => confirmChangeRequirement D s sender newRequired

def call (s : Contract B T) (c : Call B) : Revertible (Contract B T × List (Event B)) :=
  match c.method with
  | .deposit amount falconAccount => deposit D s c.sender amount falconAccount
  | .confirm op => confirmCall D s c.sender op
  | .withdraw amount recipient withdrawalId falconAccount falconTxHash =>
    withdraw D s c.sender amount recipient withdrawalId falconAccount falconTxHash
  | .release depositId recipient => release D s c.sender depositId recipient

/-- A call that is reverted leaves everything as it was. -/
def step (s : Contract B T) (c : Call B) : Contract B T × List (Event B) :=
  match call D s c with
  | .ok r => r
  | .error _ => (s, [])

/-! ### A deployment -/

/-- A token that is nothing but balances and allowances. -/
def plainToken : ERC20 ((Address → ℕ) × (Address → Address → ℕ)) where
  balanceOf t := t.1
  transfer t src dst amount := if amount ≤ t.1 src then some (moved t.1 src dst amount, t.2) else none
  transferFrom t spender src dst amount :=
    if amount ≤ t.2 src spender ∧ amount ≤ t.1 src then
      some (moved t.1 src dst amount, Function.update t.2 src
        (Function.update (t.2 src) spender (t.2 src spender - amount)))
    else none
  transfer_spec t src dst amount t' h := by
    split_ifs at h with hle
    cases h
    exact ⟨hle, rfl⟩
  transferFrom_spec t spender src dst amount t' h := by
    split_ifs at h with hle
    cases h
    exact ⟨hle.2, rfl⟩

/-- Hashes that are what they were hashed from. -/
inductive Digest
  | withdraw (amount : ℕ) (recipient : Address) (withdrawalId : Digest)
      (falconAccount falconTxHash : Blob)
  | release (depositId : Digest) (recipient : Address)
  | addOwner (newOwner : Address)
  | removeOwner (ownerToRemove : Address)
  | changeRequirement (newRequired : ℕ)
  | deposit (key : DepositKey)
  | other (n : ℕ)
  deriving DecidableEq

def Digest.ofOperation : Operation Digest → Digest
  | .withdraw amount recipient withdrawalId falconAccount falconTxHash =>
    .withdraw amount recipient withdrawalId falconAccount falconTxHash
  | .release depositId recipient => .release depositId recipient
  | .addOwner newOwner => .addOwner newOwner
  | .removeOwner ownerToRemove => .removeOwner ownerToRemove
  | .changeRequirement newRequired => .changeRequirement newRequired

theorem Digest.ofOperation_injective : Function.Injective Digest.ofOperation := by
  intro op op' h
  cases op <;> cases op' <;> simp_all [Digest.ofOperation]

/-- A contract at an address, with the plain token and hashes without collisions. -/
def plainDeployment (this : Address) :
    Deployment Digest ((Address → ℕ) × (Address → Address → ℕ)) :=
  ⟨this, plainToken, Digest.ofOperation, Digest.deposit⟩

namespace Sample

def usdc : (Address → ℕ) × (Address → Address → ℕ) :=
  (Function.update (fun _ => 0) 5 100, fun _ _ => 100)

def lock : Contract Digest ((Address → ℕ) × (Address → Address → ℕ)) where
  isOwner a := decide (a ∈ [1, 2, 3])
  owners := [1, 2, 3]
  required := 2
  deposits _ := ⟨0, 0, [], false⟩
  nextDepositNonce := 0
  processedWithdrawals _ := false
  confirmations _ _ := false
  confirmationCount _ := 0
  executed _ := false
  usdc := usdc

theorem deploy_lock : deploy 8 [1, 2, 3] 2 usdc = .ok lock := rfl

def fund : Call Digest := ⟨5, .deposit 100 [114]⟩

def payout : Operation Digest := .withdraw 100 7 (.other 0) [114] [65]

def payoutToItself : Operation Digest := .withdraw 100 9 (.other 0) [114] [65]

end Sample

end CollateralLock

end FalconLedger
