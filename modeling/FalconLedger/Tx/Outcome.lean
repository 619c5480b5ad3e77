import FalconLedger.Tx.Transactor

/-!
# What a transaction can do

The inversion of `applyTransaction`. Charging a transaction, or starting it over, changes the
account roots, tickets and directories only (`SameButAccounts`), and of the balances only the
payer's.
-/

namespace FalconLedger

namespace Ledger

/-- The two ledgers differ in account roots, tickets and directories only. -/
def SameButAccounts (s s' : Ledger) : Prop :=
  s' = { s with accounts := s'.accounts, tickets := s'.tickets, dirs := s'.dirs }

variable {s s' s'' : Ledger}

theorem SameButAccounts.refl (s : Ledger) : SameButAccounts s s := rfl

theorem SameButAccounts.trans (h : SameButAccounts s s') (h' : SameButAccounts s' s'') :
    SameButAccounts s s'' := by
  unfold SameButAccounts at *
  rw [h'] at *
  rw [h]

theorem SameButDirs.sameButAccounts (h : SameButDirs s s') : SameButAccounts s s' := by
  unfold SameButAccounts SameButDirs at *
  rw [h]

theorem SameButAccounts.setAccount (h : SameButAccounts s s') (id : AccountID)
    (root : AccountRoot) : SameButAccounts s (s'.setAccount id root) :=
  h.trans rfl

theorem held_setAccount (s : Ledger) (id : AccountID) (root : AccountRoot) :
    (s.setAccount id root).held = s.held - s.balanceOf id + root.balance := by
  simp only [held, setAccount, Table.total_insert, balanceOf]
  ring

theorem balanceOf_setAccount_same {id : AccountID} {root root' : AccountRoot}
    (h : s.accounts.lookup id = some root) (hb : root'.balance = root.balance) (id' : AccountID) :
    (s.setAccount id root').balanceOf id' = s.balanceOf id' := by
  by_cases hid : id' = id
  · subst hid
    rw [balanceOf_setAccount_self, hb, balanceOf_of_lookup h]
  · exact balanceOf_setAccount_of_ne hid

theorem held_setAccount_same {id : AccountID} {root root' : AccountRoot}
    (h : s.accounts.lookup id = some root) (hb : root'.balance = root.balance) :
    (s.setAccount id root').held = s.held := by
  rw [held_setAccount, balanceOf_of_lookup h, hb]
  ring

end Ledger

namespace Transactor

open Invariants Ledger

variable {H : Services} {flags : ApplyFlags} {s s' : Ledger} {tx : STTx} {fee fee' : Int}

/-! ### Charging -/

/-- Consuming the sequence number or the ticket moves no drops. -/
structure Consumed (s s' : Ledger) : Prop where
  same : SameButAccounts s s'
  balanceOf : ∀ id, s'.balanceOf id = s.balanceOf id
  held : s'.held = s.held

private theorem Consumed.setAccount {id : AccountID} {root root' : AccountRoot}
    (h : s.accounts.lookup id = some root) (hb : root'.balance = root.balance) :
    Consumed s (s.setAccount id root') :=
  ⟨(SameButAccounts.refl s).setAccount id root', balanceOf_setAccount_same h hb,
    held_setAccount_same h hb⟩

private theorem Consumed.trans {s'' : Ledger} (h : Consumed s s') (h' : Consumed s' s'') :
    Consumed s s'' :=
  ⟨h.same.trans h'.same, fun id => (h'.balanceOf id).trans (h.balanceOf id),
    h'.held.trans h.held⟩

private theorem Consumed.of_dirs (h : SameButDirs s s') : Consumed s s' := by
  have hacc : s'.accounts = s.accounts := by rw [h]
  refine ⟨h.sameButAccounts, fun id => ?_, ?_⟩
  · rw [Ledger.balanceOf, Ledger.balanceOf, hacc]
  · rw [h]
    rfl

theorem consumeSeqProxy_ok (h : consumeSeqProxy H s tx = .ok s') : Consumed s s' := by
  unfold consumeSeqProxy at h
  split at h
  · simp only [Except.bind_eq_ok, orFail_eq_ok, Except.pure_eq_ok] at h
    obtain ⟨root, hroot, rfl⟩ := h
    exact Consumed.setAccount hroot rfl
  · simp only [ticketDelete, Except.bind_eq_ok, orFail_eq_ok, Except.pure_eq_ok] at h
    obtain ⟨entry, -, _, hdir, s₁, rfl, root, hroot, count, -, rfl⟩ := h
    have hpages := Consumed.of_dirs (dirRemove_sameButDirs hdir)
    refine Consumed.trans (hpages.trans (Consumed.setAccount hroot ?_)) ⟨rfl, fun _ => rfl, rfl⟩
    rfl

/-- What charging a fee of `fee` drops does. -/
structure Charged (tx : STTx) (fee : Int) (s s' : Ledger) : Prop where
  same : SameButAccounts s s'
  balanceOf : ∀ id, s'.balanceOf id =
    if id = tx.getFeePayer then s.balanceOf id - fee else s.balanceOf id
  held : s'.held = s.held - fee

private theorem charged_setAccount {payer : AccountRoot}
    (h : s.accounts.lookup tx.getFeePayer = some payer) (fee : Int) :
    Charged tx fee s
      (s.setAccount tx.getFeePayer { payer with balance := payer.balance - fee }) := by
  refine ⟨(SameButAccounts.refl s).setAccount _ _, fun id => ?_, ?_⟩
  · split_ifs with hid
    · subst hid
      rw [balanceOf_setAccount_self, balanceOf_of_lookup h]
    · exact balanceOf_setAccount_of_ne hid
  · rw [held_setAccount, balanceOf_of_lookup h]
    ring

private theorem Consumed.charged {s'' : Ledger} (h : Consumed s s') (h' : Charged tx fee s' s'') :
    Charged tx fee s s'' :=
  ⟨h.same.trans h'.same, fun id => by rw [h'.balanceOf, h.balanceOf], by rw [h'.held, h.held]⟩

private theorem Charged.consumed {s'' : Ledger} (h : Charged tx fee s s') (h' : Consumed s' s'') :
    Charged tx fee s s'' :=
  ⟨h.same.trans h'.same, fun id => by rw [h'.balanceOf, h.balanceOf], by rw [h'.held, h.held]⟩

private theorem setAccountTxnID_consumed (s : Ledger) (tx : STTx) :
    Consumed s (setAccountTxnID s tx) := by
  unfold setAccountTxnID
  split
  · rename_i root hroot
    split_ifs
    · exact Consumed.setAccount hroot rfl
    · exact ⟨.refl s, fun _ => rfl, rfl⟩
  · exact ⟨.refl s, fun _ => rfl, rfl⟩

theorem charge_ok (h : charge H s tx = .ok s') (hacc : s.accounts.lookup tx.account ≠ none) :
    Charged tx tx.fee s s' := by
  unfold charge at h
  rw [if_neg hacc] at h
  simp only [Except.bind_eq_ok, payFee, orFail_eq_ok, Except.pure_eq_ok] at h
  obtain ⟨s₁, hseq, _, ⟨payer, hpayer, rfl⟩, rfl⟩ := h
  exact ((consumeSeqProxy_ok hseq).charged (charged_setAccount hpayer tx.fee)).consumed
    (setAccountTxnID_consumed _ tx)

theorem reset_ok (h : reset H s tx fee = .ok (s', fee')) : Charged tx fee' s s' := by
  simp only [reset, Except.bind_eq_ok, failIf_eq_ok, orFail_eq_ok, Except.pure_eq_ok,
    Prod.mk.injEq] at h
  obtain ⟨-, -, payer, hpayer, s₁, hseq, rfl, rfl⟩ := h
  exact (charged_setAccount hpayer _).consumed (consumeSeqProxy_ok hseq)

/-! ### The outcomes -/

/-- Everything that can become of a transaction. -/
inductive Outcome (H : Services) (s : Ledger) (tx : STTx) : Ledger × Receipt → Prop
  /-- The ledger is left alone. -/
  | unapplied (ter : TER) : Outcome H s tx (s, { ter, applied := false })
  /-- Only the fee is charged. -/
  | feeOnly {view : Ledger} {feeIn fee : Int} {ter : TER}
      (hreset : reset H s tx feeIn = .ok (view, fee)) (hpass : Passed s view tx fee)
      (hter : ter.isTecClaim = true) :
      Outcome H s tx
        (ApplyContext.destroyXRP H.toHashes view fee, receipt H { view } ter fee)
  /-- The transactor's effect is applied on top of the fee. -/
  | success {s₁ : Ledger} {a : Applied}
      (hflight : invokePreflight H s tx = .ok ()) (hclaim : invokePreclaim H s tx = .ok ())
      (hcharge : charge H s tx = .ok s₁) (happly : doApply H s₁ tx = .ok a)
      (hpass : Passed s a.view tx tx.fee) :
      Outcome H s tx
        (ApplyContext.destroyXRP H.toHashes a.view tx.fee, receipt H a .tesSuccess tx.fee)

private theorem outcome_commitChecked {a : Applied} {result : TER}
    (hfail : checkInvariants H s a.view tx result fee = .tecInvariantFailed →
      result = .tecInvariantFailed)
    (ha : Passed s a.view tx fee → result = .tesSuccess ∨ result.isTecClaim = true →
      Outcome H s tx
        (ApplyContext.destroyXRP H.toHashes a.view fee, receipt H a result fee)) :
    Outcome H s tx
      (commitChecked H flags s a (checkInvariants H s a.view tx result fee) fee) := by
  have hc : checkInvariants H s a.view tx result fee = result ∨
      checkInvariants H s a.view tx result fee = .tefInvariantFailed := by
    rcases checkInvariants_cases H s a.view tx result fee with hc | hc | hc
    · exact .inl hc
    · exact .inl (hc.trans (hfail hc).symm)
    · exact .inr hc
  rcases hc with hc | hc
  · rw [hc]
    unfold commitChecked commit notApplied
    split_ifs with hter hneg hdry
    · exact .unapplied _
    · exact .unapplied _
    · have hres : result = .tesSuccess ∨ result.isTecClaim = true := by
        rw [Bool.or_eq_true] at hter
        refine hter.symm.imp_left fun h => ?_
        cases result <;> simp_all [TER.isTesSuccess]
      have hne : result ≠ .tefInvariantFailed := by
        rintro rfl
        simp [TER.isTecClaim] at hres
      exact ha (checkInvariants_ok hc hne) hres
    · exact .unapplied _
  · rw [hc]
    exact .unapplied _

private theorem outcome_finish {a : Applied} {result : TER}
    (ha : Passed s a.view tx fee → result = .tesSuccess ∨ result.isTecClaim = true →
      Outcome H s tx
        (ApplyContext.destroyXRP H.toHashes a.view fee, receipt H a result fee)) :
    Outcome H s tx (finish H flags s tx a result fee) := by
  unfold finish
  dsimp only
  split_ifs with hfail
  · -- a second failure is final, so what is committed after the reset has passed
    rw [hfail]
    split
    · exact .unapplied _
    · rename_i view fee' hreset
      exact outcome_commitChecked (a := { view }) (fun _ => rfl)
        fun hpass _ => .feeOnly hreset hpass rfl
  · exact outcome_commitChecked (fun h => absurd h hfail) ha

private theorem outcome_claimFee {result : TER} (hter : result.isTecClaim = true) :
    Outcome H s tx (claimFee H flags s tx result) := by
  unfold claimFee
  split
  · exact .unapplied _
  · rename_i view fee' hreset
    exact outcome_finish fun hpass _ => .feeOnly hreset hpass hter

private theorem outcome_operatorCall {outcome : Except TER Applied}
    (ha : ∀ a, outcome = .ok a → Passed s a.view tx tx.fee →
      Outcome H s tx
        (ApplyContext.destroyXRP H.toHashes a.view tx.fee, receipt H a .tesSuccess tx.fee)) :
    Outcome H s tx (operatorCall H flags s tx outcome) := by
  unfold operatorCall conclude
  split_ifs with hhard hclaim
  · exact .unapplied _
  · refine outcome_claimFee ?_
    rcases hclaim with h | h | h
    · rw [h]
      rfl
    · rw [h]
      rfl
    · exact (Bool.and_eq_true _ _ ▸ h).1
  · cases outcome with
    | error e => exact .unapplied _
    | ok a =>
      -- of what `apply` can end with, only success is neither discarded nor claimed
      have hres : resultOf H s tx (.ok a) = .tesSuccess := by
        simp only [resultOf] at hclaim ⊢
        split_ifs at hclaim ⊢ <;> simp_all
      rw [hres]
      exact outcome_finish fun hpass _ => ha a rfl hpass

/-- **There is no other outcome.** -/
theorem applyTransaction_outcome (H : Services) (flags : ApplyFlags) (s : Ledger) (tx : STTx) :
    Outcome H s tx (applyTransaction H flags s tx) := by
  unfold applyTransaction
  split
  · exact .unapplied _
  · rename_i hflight
    split
    · rename_i hclaim
      refine outcome_operatorCall fun a hout hpass => ?_
      simp only [apply, Except.bind_eq_ok] at hout
      obtain ⟨s₁, hcharge, happly⟩ := hout
      exact .success hflight hclaim hcharge happly hpass
    · split_ifs
      · exact outcome_operatorCall fun a hout => by cases hout
      · exact .unapplied _

theorem Outcome.of_success {r : Ledger × Receipt} (h : Outcome H s tx r)
    (happlied : r.2.applied = true) (hter : r.2.ter = .tesSuccess) :
    ∃ s₁ a, invokePreflight H s tx = .ok () ∧ invokePreclaim H s tx = .ok () ∧
      charge H s tx = .ok s₁ ∧ doApply H s₁ tx = .ok a ∧ Passed s a.view tx tx.fee ∧
      r.1 = ApplyContext.destroyXRP H.toHashes a.view tx.fee := by
  cases h with
  | unapplied => cases happlied
  | @feeOnly view feeIn fee ter hreset hpass htec =>
    have hter' : ter = .tesSuccess := hter
    rw [hter'] at htec
    cases htec
  | @success s₁ a hflight hclaim hcharge happly hpass =>
    exact ⟨s₁, a, hflight, hclaim, hcharge, happly, hpass, rfl⟩

private theorem checkSeqProxy_error {ter : TER} (h : checkSeqProxy s tx = .error ter) :
    ter.isTecClaim = false := by
  unfold checkSeqProxy at h
  cases hroot : s.accounts.lookup tx.account with
  | none =>
    rw [hroot] at h
    cases h
    rfl
  | some root =>
    simp only [hroot, orFail, failIf, bind, Except.bind] at h
    split at h <;> split_ifs at h <;> cases h <;> rfl

private theorem external_error {check : ExternalCheck} {ter : TER}
    (h : external H check s tx = .error ter) : ter.isTecClaim = false := by
  unfold external at h
  split at h
  · cases h
    rfl
  · cases h

theorem applyTransaction_of_unsigned (flags : ApplyFlags)
    (h : (H.externalCheck .sign s tx).isSome) :
    ∃ ter, applyTransaction H flags s tx = notApplied s ter := by
  -- every check up to the signature fails, if it does, without claiming a fee
  have hclaim : ∃ ter, invokePreclaim H s tx = .error ter ∧ ter.isTecClaim = false := by
    obtain ⟨code, hcode⟩ := Option.isSome_iff_exists.mp h
    have hsign : external H .sign s tx = .error (.notTec code) := by simp [external, hcode]
    unfold invokePreclaim
    rcases hseq : checkSeqProxy s tx with ter | _
    · exact ⟨ter, rfl, checkSeqProxy_error hseq⟩
    · rcases hprior : external H .priorTxAndLastLedger s tx with ter | _
      · exact ⟨ter, rfl, external_error hprior⟩
      · rcases hperm : external H .permission s tx with ter | _
        · exact ⟨ter, rfl, external_error hperm⟩
        · rw [hsign]
          exact ⟨_, rfl, rfl⟩
  obtain ⟨ter, hpre, hter⟩ := hclaim
  unfold applyTransaction
  split
  · exact ⟨_, rfl⟩
  · rw [hpre]
    simp only [hter, Bool.false_and, Bool.false_eq_true, if_false]
    exact ⟨_, rfl⟩

theorem signed_of_preclaim (h : invokePreclaim H s tx = .ok ()) :
    H.externalCheck .sign s tx = none := by
  simp only [invokePreclaim, Except.bind_eq_ok] at h
  obtain ⟨_, -, _, -, _, -, _, hsign, -⟩ := h
  unfold external at hsign
  split at hsign
  · cases hsign
  · assumption

theorem account_ne_none_of_preclaim (h : invokePreclaim H s tx = .ok ()) :
    s.accounts.lookup tx.account ≠ none := by
  simp only [invokePreclaim, checkSeqProxy, Except.bind_eq_ok, orFail_eq_ok] at h
  obtain ⟨_, ⟨root, hroot, -⟩, -⟩ := h
  simp [hroot]

theorem preclaim_of_invokePreclaim (h : invokePreclaim H s tx = .ok ()) :
    preclaim H s tx = .ok () := by
  simp only [invokePreclaim, Except.bind_eq_ok] at h
  obtain ⟨_, -, _, -, _, -, _, -, _, -, h⟩ := h
  exact h

theorem preflight_of_invokePreflight (h : invokePreflight H s tx = .ok ()) :
    preflight s.rules tx.body = .ok () := by
  simp only [invokePreflight, Except.bind_eq_ok] at h
  obtain ⟨_, -, _, -, _, h, -⟩ := h
  exact h

end Transactor

end FalconLedger
