import FalconLedger.Close.BuildLedger
import FalconLedger.Data.Run
import FalconLedger.Tx.Effects

/-!
# The epoch pool

The pool of an epoch is a commitment: claims lower it by what they pay out of the treasury, and the
next rollover replaces it. Every run keeps two invariants: the pool plus all payouts since the
rollover is the emission, and the treasury holds at least the pool, so no claim is turned down for
want of funds while the pool is not spent.
-/

namespace FalconLedger

open Transactor Invariants Ledger ApplyContext

/-- The terms of an epoch object without what is left of the pool and the last writer. -/
def RewardEpoch.fixedTerms (epoch : RewardEpoch) : RewardEpoch :=
  { epoch.terms with epochPoolBalance := 0, previousTxnID := 0, previousTxnLgrSeq := 0 }

namespace Ledger

/-- What is left of the epoch's emission, `0` without an epoch object. -/
def pool (s : Ledger) : Int := (s.epoch.map RewardEpoch.epochPoolBalance).getD 0

/-- The emission of the current epoch. -/
def emission (s : Ledger) : Int := (s.epoch.map RewardEpoch.emissionRate).getD 0

/-- What a rollover has fixed for the epoch. -/
def fixedTerms (s : Ledger) : Option RewardEpoch := s.epoch.map RewardEpoch.fixedTerms

theorem pool_of_terms {s s' : Ledger} (h : s'.terms = s.terms) : s'.pool = s.pool := by
  have := congrArg (Option.map RewardEpoch.epochPoolBalance) h
  simp only [Ledger.terms, Option.map_map] at this
  exact congrArg (fun o => Option.getD o 0) this

theorem fixedTerms_of_terms {s s' : Ledger} (h : s'.terms = s.terms) :
    s'.fixedTerms = s.fixedTerms := by
  have := congrArg (Option.map RewardEpoch.fixedTerms) h
  simp only [Ledger.terms, Option.map_map] at this
  exact this

theorem map_epoch_of_fixedTerms {α : Type} {s s' : Ledger} (f : RewardEpoch → α)
    (hf : ∀ epoch, f epoch.fixedTerms = f epoch) (h : s'.fixedTerms = s.fixedTerms) :
    s'.epoch.map f = s.epoch.map f := by
  have := congrArg (Option.map f) h
  simpa only [Ledger.fixedTerms, Option.map_map, Function.comp_def, hf] using this

theorem emission_of_fixedTerms {s s' : Ledger} (h : s'.fixedTerms = s.fixedTerms) :
    s'.emission = s.emission := by
  rw [emission, map_epoch_of_fixedTerms RewardEpoch.emissionRate (fun _ => rfl) h, emission]

end Ledger

/-! ### One transaction -/

variable {H : Services} {s : Ledger} {tx : STTx} {a : Applied}

/-- What a transaction does to the epoch: it takes its payout from the pool, of which there is
enough, and leaves the terms alone. -/
structure PoolStep (s s' : Ledger) (paid : Int) : Prop where
  pool : s'.pool + paid = s.pool
  terms : s'.fixedTerms = s.fixedTerms
  paid_nonneg : 0 ≤ paid
  paid_le : 0 < paid → paid ≤ s.pool

private theorem PoolStep.of_epoch {s s' : Ledger} (h : s'.epoch = s.epoch) : PoolStep s s' 0 := by
  refine ⟨?_, ?_, le_rfl, fun h => absurd h (lt_irrefl 0)⟩
  · simp [Ledger.pool, h]
  · simp [Ledger.fixedTerms, h]

theorem doApply_poolStep (h : doApply H s tx = .ok a) : PoolStep s a.view a.paid := by
  cases doApply_effect h with
  | registry hview _ hpaid =>
    rw [hpaid]
    exact .of_epoch (by rw [hview])
  | slash => exact .of_epoch rfl
  | nothing => exact .of_epoch rfl
  | @claim epoch share pay s₁ bonds lpStates hclaim hepoch hshare hpay =>
    obtain ⟨treasury, root, -, -, hpool, rfl, -, rfl⟩ := payClaim_ok hpay
    have hs : s.pool = epoch.epochPoolBalance := by simp [Ledger.pool, hepoch]
    refine ⟨?_, ?_, le_min hshare.le hpool.le, fun _ => ?_⟩
    · rw [hs]
      simp [Ledger.pool, payOut]
    · simp [Ledger.fixedTerms, RewardEpoch.fixedTerms, payOut, hepoch, RewardEpoch.terms]
    · rw [hs]
      exact min_le_right _ _
  | proposal hsame =>
    refine ⟨?_, ?_, le_rfl, fun h => absurd h (lt_irrefl 0)⟩
    · simp [Ledger.pool, Option.map_map, Function.comp_def, GovernanceProposal.listProposal]
    · simp only [Ledger.fixedTerms, Option.map_map]
      rfl
  | vote => exact .of_epoch rfl

private theorem PoolStep.of_same {s s₁ s' s'' : Ledger} {paid : Int} (h₁ : SameButAccounts s s₁)
    (h : PoolStep s₁ s' paid) (h' : s''.epoch = s'.epoch) : PoolStep s s'' paid := by
  have hbefore : s₁.epoch = s.epoch := by rw [h₁]
  have hpool : s₁.pool = s.pool ∧ s''.pool = s'.pool := by simp [Ledger.pool, hbefore, h']
  have hterms : s₁.fixedTerms = s.fixedTerms ∧ s''.fixedTerms = s'.fixedTerms := by
    simp [Ledger.fixedTerms, hbefore, h']
  refine ⟨?_, ?_, h.paid_nonneg, ?_⟩
  · rw [hpool.2, ← hpool.1]
    exact h.pool
  · rw [hterms.2, ← hterms.1]
    exact h.terms
  · rw [← hpool.1]
    exact h.paid_le

theorem Transactor.Outcome.poolStep {r : Ledger × Receipt} (h : Outcome H s tx r) :
    PoolStep s r.1 r.2.paid := by
  cases h with
  | unapplied => exact .of_epoch rfl
  | feeOnly hreset =>
    refine .of_epoch ?_
    rw [destroyXRP_eq, (reset_ok hreset).same]
  | success hflight hclaim hcharge happly =>
    have hcharged := charge_ok hcharge (account_ne_none_of_preclaim hclaim)
    exact .of_same hcharged.same (doApply_poolStep happly) (by rw [destroyXRP_eq])

/-! ### The books of a claim -/

/-- The balances a claim leaves: the payout leaves the treasury and reaches the claimant, the
payer pays the fee, the treasury gets the part of it that is not burned, and no other balance
moves. -/
def ClaimBooks (H : Services) (s : Ledger) (tx : STTx) (r : Ledger × Receipt) : Prop :=
  ∀ id, r.1.balanceOf id =
    s.balanceOf id - (if id = tx.getFeePayer then r.2.fee else 0) -
        (if id = H.getTreasuryAccountID then r.2.paid else 0) +
      (if id = tx.account then r.2.paid else 0) +
        (if id = H.getTreasuryAccountID then r.2.fee - r.2.burned else 0)

theorem balanceOf_destroyXRP {fee : Int} (h : 0 ≤ fee) (id : AccountID) :
    (destroyXRP H.toHashes s fee).balanceOf id = s.balanceOf id +
      if id = H.getTreasuryAccountID then fee - feeBurned H.toHashes s fee else 0 := by
  rcases destroyXRP_cases H.toHashes s fee with
    ⟨h', hb, hd⟩ | ⟨-, hb, hd⟩ | ⟨-, t, ht, -, -, hd⟩ <;> rw [hd]
  · rw [hb]
    split_ifs <;> omega
  · rw [hb, sub_self, ite_self, add_zero]
    rfl
  · split_ifs with hid
    · subst hid
      rw [balanceOf_setAccount_self, balanceOf_of_lookup ht]
    · rw [balanceOf_setAccount_of_ne hid, add_zero]
      rfl

/-- A claim's `doApply` moves its payout from the treasury to the claimant and nothing else. -/
private theorem doApply_claim_balances (h : doApply H s tx = .ok a) (hclaim : tx.isClaim = true)
    (id : AccountID) : a.view.balanceOf id = s.balanceOf id -
      (if id = H.getTreasuryAccountID then a.paid else 0) +
        (if id = tx.account then a.paid else 0) := by
  have hpaid : ∀ {epoch share s₁ pay}, payClaim H s tx epoch share = .ok (s₁, pay) →
      s₁.balanceOf id = s.balanceOf id - (if id = H.getTreasuryAccountID then pay else 0) +
        (if id = tx.account then pay else 0) := fun hpay => by
    obtain ⟨treasury, root, ht, hroot, -, -, -, rfl⟩ := payClaim_ok hpay
    exact balanceOf_payOut ht hroot id
  have hlp : ∀ {epoch key share}, settleLpClaim H s tx epoch key share = .ok a →
      a.view.balanceOf id = s.balanceOf id -
        (if id = H.getTreasuryAccountID then a.paid else 0) +
          (if id = tx.account then a.paid else 0) := fun hset => by
    rcases settleLpClaim_ok hset with ⟨-, rfl⟩ | ⟨-, s₁, pay, hpay, rfl⟩
    · simp
    · have hbal := hpaid hpay
      exact hbal
  -- the three claim types are left, and all of them settle through `payClaim`
  unfold doApply at h
  split at h <;> simp_all only [STTx.isClaim, Bool.false_eq_true]
  · obtain ⟨bond, epoch, -, -, -, -, ⟨-, rfl⟩ | ⟨-, s₁, pay, hpay, rfl⟩⟩ :=
      ClaimReward.doApply_ok h
    · simp
    · have hbal := hpaid hpay
      exact hbal
  · obtain ⟨_, epoch, _, -, -, -, -, h⟩ := ClaimLPReward.doApply_ok h
    exact hlp h
  · obtain ⟨_, epoch, -, -, -, -, h⟩ := ClaimAmmLpReward.doApply_ok h
    exact hlp h

/-- **The books of every claim balance**, whatever its result. -/
theorem Transactor.Outcome.claimBooks {r : Ledger × Receipt} (h : Outcome H s tx r)
    (hclaim : tx.isClaim = true) : ClaimBooks H s tx r := by
  intro id
  cases h with
  | unapplied => simp
  | feeOnly hreset hpass =>
    rw [balanceOf_destroyXRP hpass.fee_nonneg, (reset_ok hreset).balanceOf]
    simp only [receipt]
    split_ifs <;> omega
  | success hflight hpre hcharge happly hpass =>
    have hcharged := charge_ok hcharge (account_ne_none_of_preclaim hpre)
    rw [balanceOf_destroyXRP hpass.fee_nonneg, doApply_claim_balances happly hclaim,
      hcharged.balanceOf]
    simp only [receipt]
    split_ifs <;> omega

/-! ### Closing a ledger -/

namespace Chain

theorem view_close (H : Services) (c : Chain) (store : Validations) :
    ((c.step H (.close store)).1).view = BuildLedger.openNext (c.closed H store) := rfl

theorem accounts_close (H : Services) (c : Chain) (store : Validations) :
    ((c.step H (.close store)).1).view.accounts = c.view.accounts := by
  have h := (BuildLedger.closeHooks_sameButScores H.toHashes store c.parent c.view c.view.seq
    c.view.rules).same
  have hroll : (applyRewardEpoch H.toHashes c.view c.view.seq c.view.rules).accounts =
      c.view.accounts := by
    unfold applyRewardEpoch
    split_ifs <;> rfl
  rw [view_close, BuildLedger.openNext, closed, BuildLedger.updateSkipList, h]
  exact hroll

theorem terms_close (H : Services) (c : Chain) (store : Validations) :
    ((c.step H (.close store)).1).view.terms =
      (applyRewardEpoch H.toHashes c.view c.view.seq c.view.rules).terms :=
  (BuildLedger.closeHooks_sameButScores H.toHashes store c.parent c.view c.view.seq
    c.view.rules).terms

end Chain

/-! ### Accounting -/

/-- The drops the chosen transactions were paid, as an event reports them. -/
def Event.paidBy (kind : STTx → Bool) : Event → Int
  | some (tx, r) => if kind tx then r.paid else 0
  | none => 0

/-- The step does not start a new epoch. -/
def StaysInEpoch (H : Services) (c : Chain) : Step → Prop
  | .close _ => c.rollsOver H = false
  | _ => True

instance (H : Services) (c : Chain) : ∀ st, Decidable (StaysInEpoch H c st)
  | .close _ => inferInstanceAs (Decidable (c.rollsOver H = false))
  | .tx .. | .outside .. => inferInstanceAs (Decidable True)

theorem Transactor.Outcome.paid_eq_zero {r : Ledger × Receipt} (h : Outcome H s tx r)
    (hclaim : tx.isClaim = false) : r.2.paid = 0 := by
  cases h with
  | unapplied => rfl
  | feeOnly => rfl
  | success hflight hpre hcharge happly =>
    cases doApply_effect happly with
    | registry _ _ hpaid => exact hpaid
    | claim hc => simp [hclaim] at hc
    | _ => rfl

theorem Chain.poolStep (c : Chain) (st : Step) (hstay : StaysInEpoch H c st) :
    PoolStep c.view (c.step H st).1.view (Event.paidBy STTx.isClaim (c.step H st).2) := by
  cases st with
  | tx flags tx =>
    have hout := applyTransaction_outcome H flags c.view tx
    have hstep := hout.poolStep
    rcases hclaim : tx.isClaim with _ | _
    · rw [hout.paid_eq_zero hclaim] at hstep
      simpa [step, Event.paidBy, hclaim] using hstep
    · simpa [step, Event.paidBy, hclaim] using hstep
  | close store =>
    have hterms : ((c.step H (.close store)).1).view.terms = c.view.terms := by
      rw [Chain.terms_close, applyRewardEpoch_of_not hstay]
    exact ⟨by rw [pool_of_terms hterms]; exact add_zero _, fixedTerms_of_terms hterms, le_rfl,
      fun h => absurd h (lt_irrefl 0)⟩
  | outside accounts holdings => exact .of_epoch rfl

/-- The chain right after the close that starts an epoch. -/
def Chain.rolledOver (H : Services) (c : Chain) (store : Validations) : Chain :=
  (c.step H (.close store)).1

theorem Chain.terms_rolledOver {c : Chain} (hroll : c.rollsOver H = true) (store : Validations) :
    (c.rolledOver H store).view.terms =
      some (RewardEpoch.newEpoch H.toHashes c.view c.view.seq).terms := by
  rw [rolledOver, terms_close, applyRewardEpoch_of_rollsOver hroll]
  rfl

theorem Chain.treasury_pos {c : Chain} (hroll : c.rollsOver H = true) :
    0 < c.view.balanceOf H.getTreasuryAccountID := by
  simp only [rollsOver, RewardEpoch.rollsOver, Bool.and_eq_true, decide_eq_true_eq] at hroll
  exact hroll.2

theorem poolDrops_nonneg {drops : Int} (h : 0 ≤ drops) (epochNum : UInt32) :
    0 ≤ RewardEpoch.poolDrops drops epochNum := by
  unfold RewardEpoch.poolDrops
  split_ifs
  · exact le_rfl
  · exact muldiv64_nonneg h (by decide)

theorem Chain.pool_rolledOver {c : Chain} (hroll : c.rollsOver H = true) (store : Validations) :
    (c.rolledOver H store).view.pool = RewardEpoch.poolDrops
        (c.view.balanceOf H.getTreasuryAccountID) (c.view.seq / kQxrpLedgersPerEpoch) ∧
      (c.rolledOver H store).view.emission = RewardEpoch.poolDrops
        (c.view.balanceOf H.getTreasuryAccountID) (c.view.seq / kQxrpLedgersPerEpoch) := by
  obtain ⟨epoch, hepoch, heq⟩ := Option.map_eq_some_iff.mp (Chain.terms_rolledOver hroll store)
  have hpool := congrArg RewardEpoch.epochPoolBalance heq
  have hrate := congrArg RewardEpoch.emissionRate heq
  simp only [Ledger.pool, Ledger.emission, hepoch, Option.map_some, Option.getD_some]
  exact ⟨hpool, hrate⟩

theorem pool_nonneg_run {c : Chain} {steps : List Step} (hpool : 0 ≤ c.view.pool)
    (hstay : Run.Always (Chain.step H) (StaysInEpoch H) c steps) :
    0 ≤ (Run.final (Chain.step H) c steps).view.pool := by
  refine Run.invariant (fun c : Chain => 0 ≤ c.view.pool) (fun c st hpool hst => ?_) hpool hstay
  have hstep := c.poolStep st hst
  rcases hstep.paid_nonneg.eq_or_lt with hzero | hpos
  · have := hstep.pool
    omega
  · have := hstep.paid_le hpos
    have := hstep.pool
    omega

theorem fixedTerms_run {c : Chain} {steps : List Step}
    (hstay : Run.Always (Chain.step H) (StaysInEpoch H) c steps) :
    (Run.final (Chain.step H) c steps).view.fixedTerms = c.view.fixedTerms :=
  Run.invariant (fun c' : Chain => c'.view.fixedTerms = c.view.fixedTerms)
    (fun c' st hterms hst => (c'.poolStep st hst).terms.trans hterms) rfl hstay

theorem pool_add_paid {c : Chain} {steps : List Step}
    (hstay : Run.Always (Chain.step H) (StaysInEpoch H) c steps) :
    (Run.final (Chain.step H) c steps).view.pool +
      ((Run.outputs (Chain.step H) c steps).map (Event.paidBy STTx.isClaim)).sum = c.view.pool :=
  Run.telescope (fun _ => True) (fun c : Chain => c.view.pool) (Event.paidBy STTx.isClaim)
    (fun _ _ _ _ => trivial) (fun c st _ hst => (c.poolStep st hst).pool) trivial hstay

/-- Every claim of a run balances its books. -/
def ClaimsBalance (H : Services) (c : Chain) (st : Step) : Prop :=
  ∀ flags tx, st = .tx flags tx → tx.isClaim = true →
    ClaimBooks H c.view tx (applyTransaction H flags c.view tx)

/-- **Accounting of the pool.** From the close that starts an epoch, along every run within the
epoch, the pool plus all that claims were paid is the emission, the pool is not negative, and
every claim takes from the treasury exactly what it gives the claimant. -/
theorem pool_add_paid_run (H : Services) (c : Chain) (store : Validations) (steps : List Step)
    (hroll : c.rollsOver H = true)
    (hstay : Run.Always (Chain.step H) (StaysInEpoch H) (c.rolledOver H store) steps) :
    let last := (Run.final (Chain.step H) (c.rolledOver H store) steps).view
    let paid := (Run.outputs (Chain.step H) (c.rolledOver H store) steps).map
      (Event.paidBy STTx.isClaim)
    last.pool + paid.sum = last.emission ∧ 0 ≤ last.pool ∧
      Run.Always (Chain.step H) (ClaimsBalance H) (c.rolledOver H store) steps := by
  intro last paid
  obtain ⟨hpool, hrate⟩ := Chain.pool_rolledOver hroll store
  have hnonneg : 0 ≤ (c.rolledOver H store).view.pool := by
    rw [hpool]
    exact poolDrops_nonneg (Chain.treasury_pos hroll).le _
  have hemission : last.emission = (c.rolledOver H store).view.emission :=
    emission_of_fixedTerms (fixedTerms_run hstay)
  have hsum : last.pool + paid.sum = (c.rolledOver H store).view.pool := pool_add_paid hstay
  refine ⟨by omega, pool_nonneg_run hnonneg hstay, Run.always_of_forall fun c st => ?_⟩
  rintro flags tx rfl hclaim
  exact (applyTransaction_outcome H flags c.view tx).claimBooks hclaim

/-- Of an emission of 10000 drops two validators claim 4900 each, in different ledgers. -/
theorem pool_add_paid_two_claims :
    let steps := [Sample.send Sample.alice 1 (.claimReward Sample.aliceKey), .close .empty,
      Sample.send Sample.bob 1 (.claimReward Sample.bobKey)]
    let start := Sample.chain.rolledOver Sample.services .empty
    let last := (Run.final (Chain.step Sample.services) start steps).view
    let paid := (Run.outputs (Chain.step Sample.services) start steps).map
      (Event.paidBy STTx.isClaim)
    paid = [4900, 0, 4900] ∧ last.pool + paid.sum = last.emission ∧ 0 ≤ last.pool := by
  intro steps start last paid
  have h := pool_add_paid_run Sample.services Sample.chain .empty steps (by decide +kernel)
    (by decide +kernel)
  exact ⟨by decide +kernel, h.1, h.2.1⟩

/-! ### Cover -/

/-- No transaction that the treasury would have to sign, as sender or as payer of the fee, gets
past the signature check: the treasury's key is not a Falcon key. -/
def TreasuryCannotSign (H : Services) : Prop :=
  ∀ s tx, tx.account = H.getTreasuryAccountID ∨ tx.getFeePayer = H.getTreasuryAccountID →
    (H.externalCheck .sign s tx).isSome

/-- Nothing outside the modelled transactions takes from the treasury. -/
def TreasuryUntouched (H : Services) (c : Chain) : Step → Prop
  | .outside accounts _ => c.view.balanceOf H.getTreasuryAccountID ≤
      Table.weightAt AccountRoot.balance accounts H.getTreasuryAccountID
  | _ => True

instance (H : Services) (c : Chain) : ∀ st, Decidable (TreasuryUntouched H c st)
  | .outside .. => inferInstanceAs (Decidable (_ ≤ _))
  | .tx .. | .close _ => inferInstanceAs (Decidable True)

/-- The treasury holds what is left of the pool. -/
def Ledger.Covered (H : Services) (s : Ledger) : Prop :=
  s.pool ≤ s.balanceOf H.getTreasuryAccountID

private theorem doApply_treasury (h : doApply H s tx = .ok a)
    (hacc : H.getTreasuryAccountID ≠ tx.account) :
    s.balanceOf H.getTreasuryAccountID ≤ a.view.balanceOf H.getTreasuryAccountID + a.paid := by
  cases doApply_effect h with
  | registry _ _ hpaid hbalance =>
    rw [hpaid, add_zero]
    exact hbalance _ hacc
  | @claim epoch _ pay _ _ _ _ _ _ hpay =>
    obtain ⟨treasury, root, ht, hroot, -, -, -, rfl⟩ := payClaim_ok hpay
    have hbal : (s.payOut H.toHashes tx epoch treasury root pay).balanceOf _ = _ :=
      balanceOf_payOut ht hroot H.getTreasuryAccountID
    rw [if_pos rfl, if_neg hacc, add_zero] at hbal
    exact (eq_sub_iff_add_eq.mp hbal).ge
  | proposal hsame hroot =>
    rw [add_zero]
    refine le_of_eq (Eq.symm ?_)
    exact (balanceOf_setAccount_of_ne hacc).trans (by rw [balanceOf, hsame.accounts, balanceOf])
  | slash => simp [balanceOf, rawDestroyXRP, setBond]
  | nothing => simp
  | vote => simp [balanceOf]

theorem Transactor.Outcome.treasury {r : Ledger × Receipt} (h : Outcome H s tx r)
    (hacc : H.getTreasuryAccountID ≠ tx.account) (hpayer : H.getTreasuryAccountID ≠ tx.getFeePayer) :
    s.balanceOf H.getTreasuryAccountID ≤ r.1.balanceOf H.getTreasuryAccountID + r.2.paid := by
  cases h with
  | unapplied => simp
  | @feeOnly view _ fee _ hreset =>
    have hcharged := (reset_ok hreset).balanceOf H.getTreasuryAccountID
    have hsplit := le_balanceOf_destroyXRP H.toHashes view fee H.getTreasuryAccountID
    rw [if_neg hpayer] at hcharged
    simp only [receipt, add_zero]
    omega
  | @success s₁ a hflight hclaim hcharge happly =>
    have hcharged := (charge_ok hcharge (account_ne_none_of_preclaim hclaim)).balanceOf
      H.getTreasuryAccountID
    have hpaid := doApply_treasury happly hacc
    have hsplit := le_balanceOf_destroyXRP H.toHashes a.view tx.fee H.getTreasuryAccountID
    rw [if_neg hpayer] at hcharged
    simp only [receipt]
    omega

/-- A rollover commits at most what the treasury holds, at every epoch: the rate never exceeds
the whole, even where it has wrapped. -/
theorem poolDrops_le {drops : Int} (h : 0 ≤ drops) (epochNum : UInt32) :
    RewardEpoch.poolDrops drops epochNum ≤ drops := by
  have hrate : RewardEpoch.emissionBps epochNum ≤ kBpsDenom := by
    unfold RewardEpoch.emissionBps
    split_ifs
    · decide
    · exact cidEmissionBps_le epochNum
  unfold RewardEpoch.poolDrops
  split_ifs
  · exact h
  · exact muldiv64_le h (by decide) hrate

theorem Chain.covered_rolledOver {c : Chain} (hroll : c.rollsOver H = true)
    (store : Validations) : (c.rolledOver H store).view.Covered H := by
  have hacc : (c.rolledOver H store).view.balanceOf H.getTreasuryAccountID =
      c.view.balanceOf H.getTreasuryAccountID := by
    rw [balanceOf, rolledOver, Chain.accounts_close, balanceOf]
  rw [Covered, (Chain.pool_rolledOver hroll store).1, hacc]
  exact poolDrops_le (Chain.treasury_pos hroll).le _

theorem Chain.covered_step (hsign : TreasuryCannotSign H) {c : Chain} {st : Step}
    (h : c.view.Covered H) (hst : TreasuryUntouched H c st) : (c.step H st).1.view.Covered H := by
  cases st with
  | tx flags tx =>
    by_cases htreasury : tx.account = H.getTreasuryAccountID ∨
        tx.getFeePayer = H.getTreasuryAccountID
    · -- refused for its signature, whatever it would have done
      obtain ⟨ter, hrefused⟩ := applyTransaction_of_unsigned flags (hsign c.view tx htreasury)
      simpa [step, hrefused, notApplied] using h
    · obtain ⟨hacc, hpayer⟩ := not_or.mp htreasury
      have hout := applyTransaction_outcome H flags c.view tx
      -- the pool falls by the payout, the treasury by no more than that
      have hpool := hout.poolStep.pool
      have hbal := hout.treasury (Ne.symm hacc) (Ne.symm hpayer)
      unfold Covered at h ⊢
      simp only [step]
      omega
  | close store =>
    rcases hroll : c.rollsOver H with _ | _
    · have hpool := (c.poolStep (.close store) hroll).pool
      unfold Covered at h ⊢
      rw [balanceOf, Chain.accounts_close, ← balanceOf]
      simp only [step, Event.paidBy] at hpool ⊢
      omega
    · exact Chain.covered_rolledOver hroll store
  | outside accounts holdings => exact le_trans h hst

theorem payClaim_unfunded {epoch : RewardEpoch} {share : Int}
    (hcover : epoch.epochPoolBalance ≤ s.balanceOf H.getTreasuryAccountID)
    (h : payClaim H s tx epoch share = .error .tecUnfunded) : epoch.epochPoolBalance ≤ 0 := by
  by_contra hpool
  cases ht : s.accounts.lookup H.getTreasuryAccountID with
  | none => simp [payClaim, failIf, hpool, ht, orFail, bind, Except.bind] at h
  | some treasury =>
    rw [balanceOf_of_lookup ht] at hcover
    have hfund : ¬treasury.balance <
        (if epoch.epochPoolBalance < share then epoch.epochPoolBalance else share) := by
      split_ifs <;> omega
    simp only [payClaim, failIf, hpool, if_false, ht, orFail, bind, Except.bind, hfund] at h
    split at h
    · rename_i hroot
      split at hroot <;> cases hroot
      cases h
    · cases h

/-- **The treasury covers the pool** in every state reachable from a rollover, through further
rollovers too, and no claim that gets as far as being paid is turned down for want of funds in
the treasury. -/
theorem pool_le_treasury_run (H : Services) (c : Chain) (store : Validations) (steps : List Step)
    (hsign : TreasuryCannotSign H) (hroll : c.rollsOver H = true)
    (hsteps : Run.Always (Chain.step H) (TreasuryUntouched H) (c.rolledOver H store) steps) :
    let last := (Run.final (Chain.step H) (c.rolledOver H store) steps).view
    last.pool ≤ last.balanceOf H.getTreasuryAccountID ∧
      ∀ tx s₁ epoch share, invokePreclaim H last tx = .ok () → charge H last tx = .ok s₁ →
        s₁.epoch = some epoch → payClaim H s₁ tx epoch share = .error .tecUnfunded →
          epoch.epochPoolBalance ≤ 0 := by
  intro last
  have hcover : last.Covered H := Run.invariant (fun c : Chain => c.view.Covered H)
    (fun _ _ h hst => Chain.covered_step hsign h hst) (Chain.covered_rolledOver hroll store) hsteps
  refine ⟨hcover, fun tx s₁ epoch share hclaim hcharge hepoch hpay => ?_⟩
  refine payClaim_unfunded ?_ hpay
  have hcharged := charge_ok hcharge (account_ne_none_of_preclaim hclaim)
  have hpayer : H.getTreasuryAccountID ≠ tx.getFeePayer := fun heq => by
    have := hsign last tx (.inr heq.symm)
    simp [signed_of_preclaim hclaim] at this
  have hpool : last.pool = epoch.epochPoolBalance := by
    have : s₁.epoch = last.epoch := by rw [hcharged.same]
    simp [Ledger.pool, ← this, hepoch]
  rw [hcharged.balanceOf, if_neg hpayer, ← hpool]
  exact hcover

/-- After the first of two claims 5100 drops are still committed, and covered. -/
theorem pool_le_treasury_after_claim :
    let steps := [Sample.send Sample.alice 1 (.claimReward Sample.aliceKey), .close .empty]
    let last := (Run.final (Chain.step Sample.services)
      (Sample.chain.rolledOver Sample.services .empty) steps).view
    last.pool = 5100 ∧ last.pool ≤ last.balanceOf Sample.services.getTreasuryAccountID := by
  intro steps last
  have hsign : TreasuryCannotSign Sample.services := fun s tx htreasury => by
    have hcheck : Sample.services.externalCheck .sign s tx = some 0 := if_pos ⟨rfl, htreasury⟩
    simp [hcheck]
  have h := pool_le_treasury_run Sample.services Sample.chain .empty steps hsign
    (by decide +kernel) (by decide +kernel)
  exact ⟨by decide +kernel, h.1⟩

end FalconLedger
