import FalconLedger.Properties.CustodyAccounts
import FalconLedger.Properties.CustodyQuorum

/-!
# What the owners of the custody contract can still decide

An operation is named by a hash without a nonce, and a confirmation is neither repeated nor
withdrawn. So an operation goes through only once, and one that every owner has confirmed cannot be
confirmed again, even if the threshold has come down since. `governable_iff` says that this and a
contract short of the token are all that stands in the way of what all owners want.
-/

namespace FalconLedger.CollateralLock

variable {B T : Type} [DecidableEq B]

/-! ### Changes -/

/-- A change the owners may want to make. -/
def Admissible (D : Deployment B T) (s : Contract B T) : Operation B → Prop
  | .withdraw amount recipient withdrawalId falconAccount falconTxHash =>
    0 < amount ∧ recipient ≠ 0 ∧ s.processedWithdrawals withdrawalId = false ∧ falconAccount ≠ [] ∧
      falconTxHash ≠ [] ∧ amount ≤ D.usdc.balanceOf s.usdc D.this
  | .release depositId recipient =>
    0 < (s.deposits depositId).amount ∧ (s.deposits depositId).released = false ∧ recipient ≠ 0
  | .addOwner newOwner => newOwner ≠ 0 ∧ s.isOwner newOwner = false
  | .removeOwner ownerToRemove => s.isOwner ownerToRemove = true ∧ s.required < s.owners.length
  | .changeRequirement newRequired => 0 < newRequired ∧ newRequired ≤ s.owners.length

instance Admissible.decidable (D : Deployment B T) (s : Contract B T) :
    ∀ op, Decidable (Admissible D s op)
  | .withdraw .. => inferInstanceAs (Decidable (_ ∧ _ ∧ _ = false ∧ _ ∧ _ ∧ _ ≤ _))
  | .release .. => inferInstanceAs (Decidable (_ ∧ _ = false ∧ _))
  | .addOwner _ => inferInstanceAs (Decidable (_ ∧ _ = false))
  | .removeOwner _ => inferInstanceAs (Decidable (_ = true ∧ _ < _))
  | .changeRequirement _ => inferInstanceAs (Decidable (_ ∧ _))

/-- The event by which the execution of an operation is known. -/
def Operation.notice (s : Contract B T) : Operation B → Event B
  | .withdraw amount recipient withdrawalId falconAccount falconTxHash =>
    .withdrawalReleased withdrawalId recipient amount falconAccount falconTxHash
  | .release depositId recipient => .depositReleased depositId recipient (s.deposits depositId).amount
  | .addOwner newOwner => .ownerAdded newOwner
  | .removeOwner ownerToRemove => .ownerRemoved ownerToRemove
  | .changeRequirement newRequired => .requirementChanged newRequired

/-- The owners that have not confirmed yet. -/
def undecided (s : Contract B T) (opHash : B) : List Address :=
  s.owners.filter fun o => !s.confirmations opHash o

/-- What is emitted while `voters` confirm the operation, one after the other. -/
def ballot (D : Deployment B T) (s : Contract B T) (op : Operation B) (voters : List Address) :
    List (Event B) :=
  (Run.outputs (step D) s (voters.map fun o => ⟨o, .confirm op⟩)).flatten

/-- When all owners that can still confirm the operation do so, in whatever order, it is executed. -/
def Governable (D : Deployment B T) (s : Contract B T) (op : Operation B) : Prop :=
  ∀ voters, voters.Perm (undecided s (D.opHash op)) → op.notice s ∈ ballot D s op voters

/-- A deposit that is released is paid out of what the contract has. -/
def Covered (D : Deployment B T) (s : Contract B T) : Operation B → Prop
  | .release depositId _ => (s.deposits depositId).amount ≤ D.usdc.balanceOf s.usdc D.this
  | _ => True

variable {D : Deployment B T} {s s' : Contract B T} {op : Operation B} {sender : Address}
  {events : List (Event B)}

theorem Admissible.confirmed (h : Admissible D s op) (opHash : B) (a : Address) :
    Admissible D (s.confirmed opHash a) op := by
  cases op <;> exact h

theorem covered_confirmed (opHash : B) (a : Address) :
    Covered D (s.confirmed opHash a) op ↔ Covered D s op := by
  cases op <;> exact Iff.rfl

theorem notice_confirmed (opHash : B) (a : Address) :
    op.notice (s.confirmed opHash a) = op.notice s := by
  cases op <;> rfl

omit [DecidableEq B] in
theorem notice_ne_confirmed (opHash : B) (a : Address) (n : ℕ) :
    op.notice s ≠ .operationConfirmed opHash a n := by
  intro h
  cases op <;> cases h

/-! ### Confirmations are numbered -/

/-- The count of an operation is the number of addresses that have confirmed it. -/
def Tallied (s : Contract B T) : Prop :=
  ∀ h, ∃ voters : Finset Address,
    voters.card = s.confirmationCount h ∧ ∀ a, a ∈ voters ↔ s.confirmations h a = true

omit [DecidableEq B] in
theorem Tallied.congr (h : Tallied s) (hcount : s'.confirmationCount = s.confirmationCount)
    (hconfirmations : s'.confirmations = s.confirmations) : Tallied s' := by
  rw [Tallied, hcount, hconfirmations]
  exact h

omit [DecidableEq B] in
theorem deploy_tallied {usdcToken : Address} {initialOwners : List Address} {required : ℕ} {usdc : T}
    (h : deploy usdcToken initialOwners required usdc = .ok s) : Tallied s := by
  simp only [deploy, Revertible.bind_eq_ok, require_eq_ok, Revertible.pure_eq_ok] at h
  obtain ⟨_, -, _, -, _, -, _, -, rfl⟩ := h
  exact fun _ => ⟨∅, rfl, by simp⟩

theorem Tallied.confirmed {h : B} (hs : Tallied s) (hfresh : s.confirmations h sender = false) :
    Tallied (s.confirmed h sender) := by
  intro h'
  obtain ⟨voters, hcard, hvoters⟩ := hs h'
  by_cases hh : h' = h
  · subst hh
    have hnew : sender ∉ voters := by
      rw [hvoters, hfresh]
      exact Bool.false_ne_true
    refine ⟨insert sender voters, ?_, fun a => ?_⟩
    · rw [Finset.card_insert_of_notMem hnew, hcard]
      simp only [Contract.confirmed, Function.update_self]
    · rw [Finset.mem_insert, hvoters, confirmed_confirmations]
      exact or_congr_left (by simp)
  · refine ⟨voters, ?_, fun a => ?_⟩
    · rw [hcard]
      simp only [Contract.confirmed, Function.update_of_ne hh]
    · rw [hvoters, confirmed_confirmations]
      exact (or_iff_right fun hor => hh hor.1).symm

theorem Tallied.step (hs : Tallied s) (c : Call B) : Tallied (step D s c).1 := by
  rcases step_cases D s c with hreverted | hcall
  · rw [hreverted]
    exact hs
  · generalize CollateralLock.step D s c = next at hcall
    obtain ⟨s', events⟩ := next
    rcases call_cases hcall with ⟨amount, falconAccount, -, hdeposited⟩ | ⟨op, -, hconfirmation⟩
    · obtain ⟨usdc, -, rfl⟩ := hdeposited.moves
      exact hs
    · have hconfirmed := hs.confirmed hconfirmation.fresh
      cases hconfirmation.confirms with
      | waiting => exact hconfirmed
      | executed _ hexecutes =>
        cases hexecutes <;> exact hconfirmed.congr rfl rfl

omit [DecidableEq B] in
/-- There are not enough addresses for the count to overflow. -/
theorem Tallied.count_lt (hs : Tallied s) (h : B) : s.confirmationCount h + 1 < 2 ^ 256 := by
  obtain ⟨voters, hcard, -⟩ := hs h
  have hle : voters.card ≤ 2 ^ 160 := by
    rw [← Finset.card_range (2 ^ 160)]
    exact Finset.card_le_card_of_injOn BitVec.toNat (fun a _ => Finset.mem_coe.mpr
      (Finset.mem_range.mpr a.isLt)) fun _ _ _ _ heq => BitVec.eq_of_toNat_eq heq
  omega

omit [DecidableEq B] in
theorem Tallied.length_le (hs : Tallied s) (howners : OwnersListed s) (h : B) :
    s.owners.length ≤ s.confirmationCount h + (undecided s h).length := by
  obtain ⟨voters, hcard, hvoters⟩ := hs h
  have hdecided : (s.owners.filter fun o => s.confirmations h o).toFinset ⊆ voters := fun a ha => by
    rw [hvoters]
    exact (List.mem_filter.mp (List.mem_toFinset.mp ha)).2
  have hle := Finset.card_le_card hdecided
  rw [List.toFinset_card_of_nodup (howners.nodup.filter _), hcard] at hle
  have hsplit := List.length_eq_length_filter_add (l := s.owners) fun o => s.confirmations h o
  rw [hsplit, undecided]
  omega

/-! ### One confirmation -/

/-- A transfer that the contract can cover goes through. -/
def Pays (D : Deployment B T) : Prop :=
  ∀ t recipient amount, recipient ≠ 0 → amount ≤ D.usdc.balanceOf t D.this →
    (D.usdc.transfer t D.this recipient amount).isSome

theorem Executes.notice {done : List (Event B)} (h : Executes D op s s' done) :
    done = [op.notice s] := by
  cases h <;> rfl

theorem Executes.covered {done : List (Event B)} (h : Executes D op s s' done) : Covered D s op := by
  cases h with
  | release hpaid => exact (D.usdc.transfer_spec _ _ _ _ _ hpaid).1
  | _ => trivial

omit [DecidableEq B] in
theorem pay_ok {recipient : Address} {amount : ℕ} (hpays : Pays D) (hrecipient : recipient ≠ 0)
    (hle : amount ≤ D.usdc.balanceOf s.usdc D.this) : ∃ s', pay D s recipient amount = .ok s' := by
  obtain ⟨usdc, hpaid⟩ := Option.isSome_iff_exists.mp (hpays s.usdc recipient amount hrecipient hle)
  rw [pay, hpaid]
  exact ⟨_, rfl⟩

/-- Nothing stands in the way of the confirmation but the effect of the operation. -/
theorem confirmOperation_ok {effect : Contract B T → Revertible (Contract B T × List (Event B))}
    (howner : s.isOwner sender = true) (hpending : s.executed (D.opHash op) = false)
    (hfresh : s.confirmations (D.opHash op) sender = false)
    (hcount : s.confirmationCount (D.opHash op) + 1 < 2 ^ 256)
    (heffect : ∃ r, effect ((s.confirmed (D.opHash op) sender).marked (D.opHash op)) = .ok r) :
    ∃ r, confirmOperation D s sender op effect = .ok r := by
  have hconfirm : confirm s sender (D.opHash op) = .ok (s.confirmed (D.opHash op) sender,
      [.operationConfirmed (D.opHash op) sender (s.confirmationCount (D.opHash op) + 1)]) := by
    simp only [confirm, Revertible.bind_eq_ok, require_eq_ok, checkedSucc_eq_ok,
      Revertible.pure_eq_ok, Bool.not_eq_true']
    exact ⟨(), howner, (), hpending, (), hfresh, _, ⟨hcount, rfl⟩, rfl⟩
  rw [confirmOperation, hconfirm]
  simp only [bind, Except.bind]
  split_ifs with henough
  · have hmark : markExecuted (s.confirmed (D.opHash op) sender) (D.opHash op) =
        .ok ((s.confirmed (D.opHash op) sender).marked (D.opHash op),
          [.operationExecuted (D.opHash op)]) := by
      simp only [markExecuted, Revertible.bind_eq_ok, require_eq_ok, Revertible.pure_eq_ok,
        Bool.not_eq_true']
      exact ⟨(), henough, (), hpending, rfl⟩
    obtain ⟨r, hdone⟩ := heffect
    rw [hmark]
    simp only [hdone]
    exact ⟨_, rfl⟩
  · exact ⟨_, rfl⟩

theorem require_bind {α : Type} {c : Prop} [Decidable c] {message : String} {f : Unit → Revertible α}
    (h : c) : (require c message >>= f) = f () := by
  rw [require, if_pos h]
  rfl

theorem confirmCall_ok (hpays : Pays D) (hadmissible : Admissible D s op) (hcovered : Covered D s op)
    (howner : s.isOwner sender = true) (hpending : s.executed (D.opHash op) = false)
    (hfresh : s.confirmations (D.opHash op) sender = false)
    (hcount : s.confirmationCount (D.opHash op) + 1 < 2 ^ 256) :
    ∃ r, confirmCall D s sender op = .ok r := by
  cases op with
  | withdraw amount recipient withdrawalId falconAccount falconTxHash =>
    obtain ⟨hpositive, hrecipient, hfirst, haccount, hhash, hle⟩ := hadmissible
    rw [confirmCall, confirmWithdraw, require_bind howner, require_bind hpositive,
      require_bind hrecipient, require_bind (by rw [hfirst]; rfl), require_bind haccount,
      require_bind hhash]
    refine confirmOperation_ok howner hpending hfresh hcount ?_
    obtain ⟨s', hpay⟩ := pay_ok (s := { (s.confirmed _ sender).marked _ with
      processedWithdrawals := Function.update s.processedWithdrawals withdrawalId true })
      hpays hrecipient hle
    exact ⟨_, Revertible.bind_eq_ok.mpr ⟨s', hpay, rfl⟩⟩
  | release depositId recipient =>
    obtain ⟨hpositive, hunreleased, hrecipient⟩ := hadmissible
    rw [confirmCall, confirmRelease, require_bind howner, require_bind hpositive,
      require_bind (by rw [hunreleased]; rfl), require_bind hrecipient]
    refine confirmOperation_ok howner hpending hfresh hcount ?_
    obtain ⟨s', hpay⟩ := pay_ok (s := { (s.confirmed _ sender).marked _ with
      deposits := Function.update s.deposits depositId
        { s.deposits depositId with released := true } }) hpays hrecipient hcovered
    exact ⟨_, Revertible.bind_eq_ok.mpr ⟨s', hpay, rfl⟩⟩
  | addOwner newOwner =>
    rw [confirmCall, confirmAddOwner, require_bind howner, require_bind hadmissible.1,
      require_bind (by rw [hadmissible.2]; rfl)]
    exact confirmOperation_ok howner hpending hfresh hcount ⟨_, rfl⟩
  | removeOwner ownerToRemove =>
    rw [confirmCall, confirmRemoveOwner, require_bind howner, require_bind hadmissible.1,
      require_bind hadmissible.2]
    exact confirmOperation_ok howner hpending hfresh hcount ⟨_, rfl⟩
  | changeRequirement newRequired =>
    have hbounds : 0 < newRequired ∧ newRequired ≤ s.owners.length := hadmissible
    rw [confirmCall, confirmChangeRequirement, require_bind howner, require_bind hbounds]
    exact confirmOperation_ok howner hpending hfresh hcount ⟨_, rfl⟩

/-! ### All of them -/

theorem ballot_cons (o : Address) (voters : List Address) :
    ballot D s op (o :: voters) =
      (step D s ⟨o, .confirm op⟩).2 ++ ballot D (step D s ⟨o, .confirm op⟩).1 op voters := rfl

theorem confirm_step_cases (D : Deployment B T) (s : Contract B T) (o : Address) (op : Operation B) :
    step D s ⟨o, .confirm op⟩ = (s, []) ∨
      Confirmation D op s o (step D s ⟨o, .confirm op⟩).1 (step D s ⟨o, .confirm op⟩).2 :=
  (step_cases D s ⟨o, .confirm op⟩).imp_right confirmCall_spec

theorem of_notice_mem_ballot {voters : List Address} (h : op.notice s ∈ ballot D s op voters) :
    s.executed (D.opHash op) = false ∧ voters ≠ [] ∧ Covered D s op := by
  induction voters generalizing s with
  | nil => cases h
  | cons o voters ih =>
    rw [ballot_cons] at h
    rcases confirm_step_cases D s o op with hreverted | hconfirmation
    · rw [hreverted] at h
      obtain ⟨hpending, -, hcovered⟩ := ih h
      exact ⟨hpending, List.cons_ne_nil _ _, hcovered⟩
    · refine ⟨hconfirmation.pending, List.cons_ne_nil _ _, ?_⟩
      have hconfirms := hconfirmation.confirms
      generalize step D s ⟨o, .confirm op⟩ = next at h hconfirms
      obtain ⟨s', events⟩ := next
      cases hconfirms with
      | waiting =>
        -- the event is not the confirmation itself, so it comes from the rest
        have hrest : op.notice s ∈ ballot D (s.confirmed (D.opHash op) o) op voters :=
          (List.mem_append.mp h).resolve_left fun hmem =>
            notice_ne_confirmed _ _ _ (List.mem_singleton.mp hmem)
        rw [← notice_confirmed (D.opHash op) o] at hrest
        exact (covered_confirmed _ _).mp (ih hrest).2.2
      | executed _ hexecutes =>
        have hcovered := hexecutes.covered
        cases op <;> exact hcovered

theorem notice_mem_ballot (hpays : Pays D) {voters : List Address} (hadmissible : Admissible D s op)
    (hcovered : Covered D s op) (htallied : Tallied s) (hnodup : voters.Nodup)
    (hvoters : ∀ o ∈ voters, s.isOwner o = true ∧ s.confirmations (D.opHash op) o = false)
    (hpending : s.executed (D.opHash op) = false) (hne : voters ≠ [])
    (henough : s.required ≤ s.confirmationCount (D.opHash op) + voters.length) :
    op.notice s ∈ ballot D s op voters := by
  induction voters generalizing s with
  | nil => exact absurd rfl hne
  | cons o voters ih =>
    obtain ⟨hnew, hnodup⟩ := List.nodup_cons.mp hnodup
    obtain ⟨howner, hfresh⟩ := hvoters o List.mem_cons_self
    obtain ⟨r, hcall⟩ := confirmCall_ok hpays hadmissible hcovered howner hpending hfresh
      (htallied.count_lt _)
    have hmethod : call D s ⟨o, .confirm op⟩ = .ok r := hcall
    have hstep : step D s ⟨o, .confirm op⟩ = r := by
      rw [step, hmethod]
    obtain ⟨s', events⟩ := r
    rw [ballot_cons, hstep, List.mem_append]
    cases (confirmCall_spec hcall).confirms with
    | waiting hbelow =>
      right
      rw [← notice_confirmed (D.opHash op) o]
      have hcount : (s.confirmed (D.opHash op) o).confirmationCount (D.opHash op) =
          s.confirmationCount (D.opHash op) + 1 := Function.update_self ..
      refine ih (hadmissible.confirmed _ _) ((covered_confirmed _ _).mpr hcovered)
        (htallied.confirmed hfresh) hnodup (fun a ha => ?_) hpending ?_ ?_
      · obtain ⟨haowner, hafresh⟩ := hvoters a (List.mem_cons_of_mem o ha)
        refine ⟨haowner, Bool.eq_false_iff.mpr fun hconfirmed => ?_⟩
        rcases confirmed_confirmations.mp hconfirmed with ⟨-, rfl⟩ | hbefore
        · exact hnew ha
        · rw [hafresh] at hbefore
          cases hbefore
      · rintro rfl
        rw [List.length_singleton] at henough
        omega
      · rw [hcount, Contract.confirmed_required]
        rw [List.length_cons] at henough
        omega
    | executed _ hexecutes =>
      left
      rw [hexecutes.notice]
      cases op <;> simp [Operation.notice, Contract.confirmed, Contract.marked]

theorem not_governable_of_executed (h : s.executed (D.opHash op) = true) : ¬Governable D s op := by
  intro hgovernable
  rw [(of_notice_mem_ballot (hgovernable _ (List.Perm.refl _))).1] at h
  cases h

theorem not_governable_of_decided (h : undecided s (D.opHash op) = []) : ¬Governable D s op :=
  fun hgovernable => (of_notice_mem_ballot (hgovernable _ (List.Perm.refl _))).2.1 h

/-! ### Every state -/

/-- **Governable custody.** In every state that calls can lead to, an admissible change on which all
owners agree that can still confirm it goes through if and only if the same change has not gone through
before, some owner has not confirmed it yet, and the contract can pay what is released. -/
theorem governable_iff (D : Deployment B T) (hpays : Pays D) {usdcToken : Address}
    {initialOwners : List Address} {required : ℕ} {usdc : T} {s₀ : Contract B T}
    (hdeploy : deploy usdcToken initialOwners required usdc = .ok s₀) (calls : List (Call B))
    (op : Operation B) (hadmissible : Admissible D (Run.final (CollateralLock.step D) s₀ calls) op) :
    let s := Run.final (CollateralLock.step D) s₀ calls
    Governable D s op ↔ s.executed (D.opHash op) = false ∧
      (∃ o ∈ s.owners, s.confirmations (D.opHash op) o = false) ∧ Covered D s op := by
  intro s
  have howners : OwnersListed s :=
    Run.invariant OwnersListed (P := fun _ _ => True) (fun _ _ h _ => h.step _)
      (deploy_ownersListed hdeploy) (Run.always_of_forall fun _ _ => trivial)
  have htallied : Tallied s :=
    Run.invariant Tallied (P := fun _ _ => True) (fun _ c h _ => h.step c)
      (deploy_tallied hdeploy) (Run.always_of_forall fun _ _ => trivial)
  have hundecided : undecided s (D.opHash op) ≠ [] ↔
      ∃ o ∈ s.owners, s.confirmations (D.opHash op) o = false := by
    simp [undecided, List.filter_eq_nil_iff]
  rw [← hundecided]
  constructor
  · intro h
    exact of_notice_mem_ballot (h _ (List.Perm.refl _))
  · rintro ⟨hpending, hne, hcovered⟩ voters hperm
    refine notice_mem_ballot hpays hadmissible hcovered htallied
      (hperm.nodup_iff.mpr (howners.nodup.filter _)) (fun o ho => ?_) hpending
      (fun hnil => hne (List.nil_perm.mp (hnil ▸ hperm))) ?_
    · obtain ⟨hmem, hfresh⟩ := List.mem_filter.mp (hperm.mem_iff.mp ho)
      exact ⟨(howners.mem_iff o).mp hmem, by simpa using hfresh⟩
    · rw [hperm.length_eq]
      exact howners.le_length.trans (htallied.length_le howners _)

theorem plainDeployment_pays (this : Address) : Pays (plainDeployment this) := by
  intro t recipient amount _ hle
  have hsome : (plainDeployment this).usdc.transfer t this recipient amount =
      some (moved t.1 this recipient amount, t.2) := if_pos hle
  exact Option.isSome_of_eq_some hsome

namespace Sample

def confirmAll (op : Operation Digest) (n : ℕ) : List (Call Digest) :=
  [⟨1, .confirm op⟩, ⟨2, .confirm op⟩, ⟨3, .confirm op⟩].take n

def comeAndGo : List (Call Digest) := confirmAll (.addOwner 4) 2 ++ confirmAll (.removeOwner 4) 2

def upAndDown : List (Call Digest) :=
  confirmAll (.changeRequirement 3) 2 ++ confirmAll (.changeRequirement 2) 3

/-- Two of three owners confirm a withdrawal while all three are needed; then the third one goes. -/
def leftBehind : List (Call Digest) :=
  fund :: confirmAll (.changeRequirement 3) 2 ++ confirmAll payout 2 ++
    confirmAll (.changeRequirement 2) 3 ++ confirmAll (.removeOwner 3) 2

end Sample

theorem governable_payout :
    Governable (plainDeployment 9) (Run.final (step (plainDeployment 9)) Sample.lock [Sample.fund])
      Sample.payout :=
  (governable_iff (plainDeployment 9) (plainDeployment_pays 9) Sample.deploy_lock [Sample.fund]
    Sample.payout (by decide +kernel)).mpr ⟨rfl, ⟨1, by decide, rfl⟩, trivial⟩

/-- An owner that has been removed does not come back, a threshold is not set twice, and a withdrawal
that both owners have confirmed stays where it is. -/
theorem changes_stuck :
    let D := plainDeployment 9
    let after := Run.final (step D) Sample.lock
    deploy 8 [1, 2, 3] 2 Sample.usdc = .ok Sample.lock ∧ Pays D ∧
      (Admissible D (after Sample.comeAndGo) (.addOwner 4) ∧
        ¬Governable D (after Sample.comeAndGo) (.addOwner 4)) ∧
      (Admissible D (after Sample.upAndDown) (.changeRequirement 3) ∧
        ¬Governable D (after Sample.upAndDown) (.changeRequirement 3)) ∧
      (Admissible D (after Sample.leftBehind) Sample.payout ∧
        ¬Governable D (after Sample.leftBehind) Sample.payout) := by
  intro D after
  have hcome : (after Sample.comeAndGo).executed (D.opHash (.addOwner 4)) = true := by decide +kernel
  have hup : (after Sample.upAndDown).executed (D.opHash (.changeRequirement 3)) = true := by
    decide +kernel
  have hleft : undecided (after Sample.leftBehind) (D.opHash Sample.payout) = [] := by decide +kernel
  exact ⟨rfl, plainDeployment_pays 9, ⟨by decide +kernel, not_governable_of_executed hcome⟩,
    ⟨by decide +kernel, not_governable_of_executed hup⟩,
    ⟨by decide +kernel, not_governable_of_decided hleft⟩⟩

end FalconLedger.CollateralLock
