import FalconLedger.Lending.Frames
import FalconLedger.Lending.Outcome

/-!
# What becomes of the dates of a loan

Every loan on the books after a transaction comes from one that was there before, or has just been
made, and `LoanChange` lists what can have become of its dates. Payments move them by the schedule of
the loan, which is the code `PaysBySchedule` is about.
-/

namespace FalconLedger

/-- The terms are the same, and so are the dates, the payments that are left and the mark of an
impaired loan. -/
structure Loan.SameDates (loan loan' : Loan) : Prop where
  terms : loan'.terms = loan.terms
  previous : loan'.balances.previousPaymentDueDate = loan.balances.previousPaymentDueDate
  next : loan'.balances.nextPaymentDueDate = loan.balances.nextPaymentDueDate
  remaining : loan'.balances.paymentRemaining = loan.balances.paymentRemaining
  impaired : loan'.isImpaired = loan.isImpaired

/-- The next due date by the schedule. -/
def Loan.normalPaymentDueDate (loan : Loan) : UInt32 :=
  max loan.balances.previousPaymentDueDate loan.terms.startDate + loan.terms.paymentInterval

/-- The loan is found sound again. -/
structure Loan.Unimpaired (m : Market) (loan loan' : Loan) : Prop where
  terms : loan'.terms = loan.terms
  previous : loan'.balances.previousPaymentDueDate = loan.balances.previousPaymentDueDate
  next : loan'.balances.nextPaymentDueDate =
    if m.hasExpired loan.normalPaymentDueDate then m.parentCloseTime + loan.terms.paymentInterval
    else loan.normalPaymentDueDate
  remaining : loan'.balances.paymentRemaining = loan.balances.paymentRemaining
  impaired : loan'.isImpaired = false

/-- What can become of a loan, from what was on the books. -/
inductive LoanChange (G : LendingServices) (m : Market) : Option Loan → Loan → Prop
  | kept {loan loan' : Loan} (h : loan.SameDates loan') : LoanChange G m (some loan) loan'
  | made {old : Option Loan} {loan : Loan} (hstart : loan.terms.startDate = m.closeTime)
      (hprevious : loan.balances.previousPaymentDueDate = 0)
      (hnext : loan.balances.nextPaymentDueDate = m.closeTime + loan.terms.paymentInterval) :
      LoanChange G m old loan
  | impaired {old : Option Loan} {loan : Loan} (himpaired : loan.isImpaired = true) :
      LoanChange G m old loan
  | unimpaired {loan loan' : Loan} (h : loan.Unimpaired m loan') : LoanChange G m (some loan) loan'
  /-- A payment on a loan that is sound, or found sound by it. -/
  | paid {loan loan₀ loan' : Loan} {asset : Asset} {broker : LoanBroker} {amount : STAmount}
      {paymentType : LoanPaymentType} {balances : LoanBalances} {parts : LoanPaymentParts}
      (hfrom : loan₀ = loan ∧ loan.isImpaired = false ∨ loan.Unimpaired m loan₀)
      (hpaid : G.loanMakePayment m asset loan₀ broker amount paymentType = .ok (balances, parts))
      (hterms : loan'.terms = loan.terms)
      (hprevious : loan'.balances.previousPaymentDueDate = balances.previousPaymentDueDate)
      (hnext : loan'.balances.nextPaymentDueDate = balances.nextPaymentDueDate)
      (hremaining : loan'.balances.paymentRemaining = balances.paymentRemaining) :
      LoanChange G m (some loan) loan'
  /-- No payment is left. -/
  | closed {old : Option Loan} {loan : Loan} (hnone : loan.balances.paymentRemaining = 0) :
      LoanChange G m old loan

/-- Every loan on the books comes from what was there before. -/
def LoansFrom (G : LendingServices) (m m' : Market) : Prop :=
  ∀ id loan, m'.loans.lookup id = some loan → LoanChange G m (m.loans.lookup id) loan

variable {G : LendingServices} {m m' m'' : Market} {tx : LendingTx} {a : LendingApplied}
  {loan loan' : Loan} {asset : Asset} {loanID : UInt256}

theorem Loan.SameDates.refl (loan : Loan) : loan.SameDates loan := ⟨rfl, rfl, rfl, rfl, rfl⟩

theorem Loan.sameDates_associate (m : Market) (loan : Loan) (asset : Asset) :
    loan.SameDates (LoanManage.associate m (Loan.associateAsset G · asset) loan) := by
  rw [LoanManage.associate]
  split_ifs
  · exact ⟨rfl, rfl, rfl, rfl, rfl⟩
  · exact .refl loan

theorem Loan.Unimpaired.of_sameDates {loan'' : Loan} (h : loan.Unimpaired m loan')
    (hsame : loan'.SameDates loan'') : loan.Unimpaired m loan'' :=
  ⟨hsame.terms.trans h.terms, hsame.previous.trans h.previous, hsame.next.trans h.next,
    hsame.remaining.trans h.remaining, hsame.impaired.trans h.impaired⟩

theorem LoanChange.of_sameDates {old : Option Loan} (h : LoanChange G m old loan)
    (hsame : loan.SameDates loan') : LoanChange G m old loan' := by
  cases h with
  | kept h =>
    exact .kept ⟨hsame.terms.trans h.terms, hsame.previous.trans h.previous,
      hsame.next.trans h.next, hsame.remaining.trans h.remaining, hsame.impaired.trans h.impaired⟩
  | made hstart hprevious hnext =>
    exact .made (hsame.terms ▸ hstart) (hsame.previous.trans hprevious)
      (by rw [hsame.next, hnext, hsame.terms])
  | impaired himpaired => exact .impaired (hsame.impaired.trans himpaired)
  | unimpaired h => exact .unimpaired (h.of_sameDates hsame)
  | paid hfrom hpaid hterms hprevious hnext hremaining =>
    exact .paid hfrom hpaid (hsame.terms.trans hterms) (hsame.previous.trans hprevious)
      (hsame.next.trans hnext) (hsame.remaining.trans hremaining)
  | closed hnone => exact .closed (hsame.remaining.trans hnone)

theorem LoansFrom.of_eq (h : m'.loans = m.loans) : LoansFrom G m m' := by
  intro id loan hloan
  rw [h] at hloan
  rw [hloan]
  exact .kept (.refl loan)

theorem LoansFrom.of_insert (h : m'.loans = m.loans.insert loanID loan)
    (hchange : LoanChange G m (m.loans.lookup loanID) loan) : LoansFrom G m m' := by
  intro id loan' hloan
  rw [h] at hloan
  by_cases hid : id = loanID
  · subst hid
    rw [AList.lookup_insert] at hloan
    cases hloan
    exact hchange
  · rw [AList.lookup_insert_ne hid] at hloan
    rw [hloan]
    exact .kept (.refl loan')

theorem LoansFrom.of_erase (h : m'.loans = m.loans.erase loanID) : LoansFrom G m m' := by
  intro id loan hloan
  rw [h] at hloan
  by_cases hid : id = loanID
  · subst hid
    rw [AList.lookup_erase] at hloan
    cases hloan
  · rw [AList.lookup_erase_ne hid] at hloan
    rw [hloan]
    exact .kept (.refl loan)

/-! ### A new loan -/

namespace LoanSet

variable {f : LoanSetFields} {broker : LoanBroker} {vault : VaultEntry}

theorem payOut_sameBooks {preFeeBalance : Int}
    (h : payOut G m preFeeBalance tx f broker vault = .ok m') : m.SameBooks m' := by
  simp only [payOut, Except.bind_eq_ok] at h
  obtain ⟨_, -, _, -, m₁, h₁, _, -, h⟩ := h
  have hfirst : m.SameBooks m₁ :=
    (Market.sameBooks_ledger m _).trans (Market.addEmptyHolding_sameBooks h₁)
  split_ifs at h
  · simp only [Except.bind_eq_ok, Except.pure_eq_ok] at h
    obtain ⟨m₂, rfl, _, -, _, -, hsend⟩ := h
    exact hfirst.trans (Market.accountSendMulti_sameBooks hsend)
  · simp only [Except.bind_eq_ok] at h
    obtain ⟨m₂, h₂, _, -, _, -, hsend⟩ := h
    exact hfirst.trans ((Market.addEmptyHolding_sameBooks h₂).trans
      (Market.accountSendMulti_sameBooks hsend))

theorem lockCollateral_sameBooks {borrowerID brokerPseudo : AccountID} {locked : Int}
    (h : lockCollateral m borrowerID brokerPseudo f = .ok (m', locked)) : m.SameBooks m' := by
  rw [lockCollateral] at h
  split_ifs at h
  · simp only [Except.bind_eq_ok, orFail_eq_ok, Except.pure_eq_ok] at h
    obtain ⟨drops, -, m₁, hsend, hpair⟩ := h
    obtain ⟨rfl, -⟩ := Prod.mk.inj hpair
    exact Market.transferXRP_sameBooks hsend
  · cases h
    exact .refl m

theorem doApply_loansFrom {preFeeBalance : Int} (h : doApply G m preFeeBalance tx f = .ok a) :
    LoansFrom G m a.view := by
  simp only [doApply, Except.bind_eq_ok, failIf_eq_ok, orFail_eq_ok] at h
  obtain ⟨broker, -, _, -, vault, -, _, -, _, -, ⟨properties, interest⟩, -, _, -, m₁, hpay,
    ⟨m₂, locked⟩, hlock, _, -, _, -, _, -, _, -, ⟨brokerNode, m₃⟩, hbrokerLink, ⟨ownerNode, m₄⟩,
    hownerLink, _, -, hdone⟩ := h
  cases hdone
  have hbooks : m.SameBooks m₄ := (payOut_sameBooks hpay).trans
    ((lockCollateral_sameBooks hlock).trans
      ((Market.dirLink_sameBooks hbrokerLink).trans (Market.dirLink_sameBooks hownerLink)))
  exact .of_insert (congrArg (AList.insert _ _) hbooks.loans)
    (.made hbooks.closeTime rfl (congrArg (· + _) hbooks.closeTime))

end LoanSet

/-! ### Impairment and default -/

namespace LoanManage

variable {vault vault' : VaultEntry}

theorem impairLoan_spec (h : impairLoan G m loan vault = .ok (loan', vault')) :
    loan'.isImpaired = true := by
  simp only [impairLoan, Except.bind_eq_ok, Except.pure_eq_ok] at h
  obtain ⟨_, -, _, -, _, -, _, -, hpair⟩ := h
  rw [← (Prod.mk.inj hpair).1]

theorem unimpairLoan_spec (h : unimpairLoan G m loan vault = .ok (loan', vault')) :
    loan.Unimpaired m loan' := by
  simp only [unimpairLoan, Except.bind_eq_ok, Except.pure_eq_ok] at h
  obtain ⟨_, -, _, -, _, -, hpair⟩ := h
  rw [← (Prod.mk.inj hpair).1]
  exact ⟨rfl, rfl, rfl, rfl, rfl⟩

theorem defaultPermissionlessLoan_spec {broker broker' : LoanBroker}
    (h : defaultPermissionlessLoan G m loan broker vault = .ok (loan', broker', vault')) :
    loan'.balances.paymentRemaining = 0 := by
  simp only [defaultPermissionlessLoan, Except.bind_eq_ok, Except.pure_eq_ok] at h
  obtain ⟨_, -, _, -, _, -, _, -, _, -, _, -, _, -, hpair⟩ := h
  rw [← (Prod.mk.inj hpair).1]
  rfl

theorem defaultLoan_spec {broker broker' : LoanBroker} {covered : Number}
    (h : defaultLoan G m loan broker vault = .ok (loan', broker', vault', covered)) :
    loan'.balances.paymentRemaining = 0 := by
  simp only [defaultLoan, Except.bind_eq_ok, Except.pure_eq_ok] at h
  obtain ⟨_, -, _, -, _, -, _, -, _, -, _, -, _, -, _, -, _, -, _, -, _, -, _, -, _, -, hpair⟩ := h
  rw [← (Prod.mk.inj hpair).1]
  rfl

theorem doApply_loansFrom (h : doApply G m tx loanID = .ok a) : LoansFrom G m a.view := by
  simp only [doApply, Except.bind_eq_ok, orFail_eq_ok] at h
  obtain ⟨loan, hloan, broker, -, vault, -, h⟩ := h
  -- rounding an entry to the asset once more leaves its dates
  have hassociated (l : Loan) := Loan.sameDates_associate (G := G) m l vault.asset
  split_ifs at h
  · simp only [Except.bind_eq_ok, Except.pure_eq_ok] at h
    obtain ⟨⟨loan', _, _⟩, hdefault, rfl⟩ := h
    exact .of_insert rfl
      ((LoanChange.closed (defaultPermissionlessLoan_spec hdefault)).of_sameDates (hassociated loan'))
  · simp only [Except.bind_eq_ok, Except.pure_eq_ok] at h
    obtain ⟨⟨loan', _, _, _⟩, hdefault, _, -, view, hsend, rfl⟩ := h
    exact .of_insert (Market.accountSend_sameBooks hsend).loans
      ((LoanChange.closed (defaultLoan_spec hdefault)).of_sameDates (hassociated loan'))
  · simp only [Except.bind_eq_ok, Except.pure_eq_ok] at h
    obtain ⟨⟨loan', _⟩, himpair, rfl⟩ := h
    exact .of_insert rfl
      ((LoanChange.impaired (impairLoan_spec himpair)).of_sameDates (hassociated loan'))
  · simp only [Except.bind_eq_ok, Except.pure_eq_ok] at h
    obtain ⟨⟨loan', _⟩, hunimpair, rfl⟩ := h
    refine .of_insert rfl ?_
    rw [hloan]
    exact (LoanChange.unimpaired (unimpairLoan_spec hunimpair)).of_sameDates (hassociated loan')
  · cases h
    exact .of_eq rfl

end LoanManage

/-! ### Payments -/

namespace LoanPay

variable {amount : STAmount}

theorem moveFunds_sameBooks {payer brokerPayee : AccountID} {vault : VaultEntry}
    {toVault toBroker : Number}
    (h : moveFunds G m payer brokerPayee vault toVault toBroker = .ok m') : m.SameBooks m' := by
  simp only [moveFunds, Except.bind_eq_ok] at h
  obtain ⟨_, -, h⟩ := h
  split_ifs at h
  · simp only [Except.bind_eq_ok] at h
    obtain ⟨m₁, hholding, _, -, hsend⟩ := h
    exact (Market.addEmptyHolding_sameBooks hholding).trans (Market.accountSendMulti_sameBooks hsend)
  · simp only [Except.bind_eq_ok, Except.pure_eq_ok] at h
    obtain ⟨m₁, rfl, _, -, hsend⟩ := h
    exact Market.accountSendMulti_sameBooks hsend

theorem pay_loansFrom {broker : LoanBroker} (h : pay G m tx loanID amount = .ok (m', loan', broker)) :
    ∃ loan, m.loans.lookup loanID = some loan ∧ m'.loans = m.loans.insert loanID loan' ∧
      LoanChange G m (some loan) loan' := by
  simp only [pay, Except.bind_eq_ok, orFail_eq_ok] at h
  obtain ⟨loan, hloan, broker₀, -, vault, -, feeToOwner, -, _, -, h⟩ := h
  refine ⟨loan, hloan, ?_⟩
  by_cases himpaired : loan.isImpaired = true
  · simp only [if_pos himpaired] at h
    -- a payment finds an impaired loan sound before it looks at its dates
    obtain ⟨⟨loan₀, vault₀⟩, hunimpair, h⟩ := Except.bind_eq_ok.mp h
    simp only [Except.bind_eq_ok, Except.pure_eq_ok] at h
    obtain ⟨⟨balances, parts⟩, hpaid, _, -, ⟨_, _, _⟩, -, m₁, hmove, hdone⟩ := h
    obtain ⟨rfl, hentries⟩ := Prod.mk.inj hdone
    obtain ⟨rfl, -⟩ := Prod.mk.inj hentries
    have hfound := LoanManage.unimpairLoan_spec hunimpair
    exact ⟨(moveFunds_sameBooks hmove).loans,
      .paid (.inr hfound) hpaid hfound.terms rfl rfl rfl⟩
  · simp only [if_neg himpaired] at h
    simp only [Except.bind_eq_ok, Except.pure_eq_ok] at h
    obtain ⟨_, rfl, ⟨balances, parts⟩, hpaid, _, -, ⟨_, _, _⟩, -, m₁, hmove, hdone⟩ := h
    obtain ⟨rfl, hentries⟩ := Prod.mk.inj hdone
    obtain ⟨rfl, -⟩ := Prod.mk.inj hentries
    exact ⟨(moveFunds_sameBooks hmove).loans,
      .paid (.inl ⟨rfl, Bool.not_eq_true _ ▸ himpaired⟩) hpaid rfl rfl rfl rfl⟩

theorem doApply_loansFrom (h : doApply G m tx loanID amount = .ok a) : LoansFrom G m a.view := by
  simp only [doApply, Except.bind_eq_ok, Except.pure_eq_ok] at h
  obtain ⟨⟨m₁, loan', broker⟩, hpay, view, hreturn, rfl⟩ := h
  obtain ⟨loan, hloan, hloans, hchange⟩ := pay_loansFrom hpay
  have hpaid : LoanChange G m (m.loans.lookup loanID) loan' := by
    rw [hloan]
    exact hchange
  rw [returnCollateral] at hreturn
  cases hcollateral : loan'.collateral with
  | none =>
    rw [hcollateral] at hreturn
    cases hreturn
    exact .of_insert hloans hpaid
  | some collateral =>
    rw [hcollateral] at hreturn
    dsimp only at hreturn
    split_ifs at hreturn
    · simp only [Except.bind_eq_ok, Except.pure_eq_ok] at hreturn
      obtain ⟨m₂, hsend, rfl⟩ := hreturn
      -- the loan is stored a second time, without its collateral
      have hreturned : LoanChange G m (m.loans.lookup loanID) { loan' with collateral := none } :=
        hpaid.of_sameDates ⟨rfl, rfl, rfl, rfl, rfl⟩
      refine .of_insert ?_ hreturned
      change m₂.loans.insert loanID _ = _
      rw [(Market.transferXRP_sameBooks hsend).loans, hloans, AList.insert_insert]
    · cases hreturn
      exact .of_insert hloans hpaid

end LoanPay

/-! ### The other transactions -/

theorem LoanDelete.doApply_loansFrom (h : LoanDelete.doApply G m loanID = .ok a) :
    LoansFrom G m a.view := by
  simp only [LoanDelete.doApply, Except.bind_eq_ok, Except.pure_eq_ok] at h
  obtain ⟨_, -, _, -, _, -, _, -, _, -, s, -, _, -, s', -, rfl⟩ := h
  exact .of_erase rfl

theorem LoanCollateralDeposit.doApply_loansFrom {collateral : STAmount}
    (h : LoanCollateralDeposit.doApply m loanID collateral = .ok a) : LoansFrom G m a.view := by
  simp only [LoanCollateralDeposit.doApply, Except.bind_eq_ok, orFail_eq_ok, Except.pure_eq_ok] at h
  obtain ⟨_, -, loan, hloan, _, -, m₁, hsend, rfl⟩ := h
  refine .of_insert (congrArg (AList.insert _ _) (Market.transferXRP_sameBooks hsend).loans) ?_
  rw [hloan]
  exact .kept ⟨rfl, rfl, rfl, rfl, rfl⟩

namespace LendingTransactor

theorem doApply_loansFrom {preFeeBalance : Int} (h : doApply G m preFeeBalance tx = .ok a) :
    LoansFrom G m a.view := by
  rw [doApply] at h
  cases hbody : tx.body with
  | loanSet f =>
    rw [hbody] at h
    exact LoanSet.doApply_loansFrom h
  | loanDelete loanID =>
    rw [hbody] at h
    exact LoanDelete.doApply_loansFrom h
  | loanManage loanID =>
    rw [hbody] at h
    exact LoanManage.doApply_loansFrom h
  | loanCollateralDeposit loanID collateral =>
    rw [hbody] at h
    exact LoanCollateralDeposit.doApply_loansFrom h
  | loanPay loanID amount =>
    rw [hbody] at h
    exact LoanPay.doApply_loansFrom h
  | vaultClaimCollateral brokerID amount =>
    rw [hbody] at h
    exact .of_eq (VaultClaimCollateral.doApply_sameBooks h).loans
  | vaultDeposit vaultID amount =>
    rw [hbody] at h
    exact .of_eq (VaultDeposit.doApply_sameBooks h).loans
  | vaultWithdraw vaultID amount destination =>
    rw [hbody] at h
    exact .of_eq (VaultWithdraw.doApply_sameBooks h).loans
  | vaultClawback vaultID holder amount =>
    rw [hbody] at h
    exact .of_eq (VaultClawback.doApply_sameBooks h).loans
  | sharePayment destination shares amount =>
    rw [hbody] at h
    exact .of_eq (SharePayment.doApply_sameBooks h).loans

theorem applyLending_loans (G : LendingServices) (flags : ApplyFlags) (m : Market) (tx : LendingTx) :
    (applyLending G flags m tx).1.loans = m.loans ∨
      ∃ s a, invokePreclaim G m tx = .ok () ∧
        doApply G { m with ledger := s } (m.ledger.balanceOf tx.account) tx = .ok a ∧
        (applyLending G flags m tx).1.loans = a.view.loans := by
  have houtcome := applyLending_outcome G flags m tx
  generalize applyLending G flags m tx = r at houtcome
  cases houtcome with
  | unapplied ter => exact .inl rfl
  | feeOnly hsigned hreset hter =>
    simp only [reset, Except.bind_eq_ok, Except.pure_eq_ok] at hreset
    obtain ⟨⟨s, _⟩, -, hview⟩ := hreset
    rw [← (Prod.mk.inj hview).1]
    exact .inl rfl
  | @success s a hsigned hflight hclaim hcharge happly hvault =>
    exact .inr ⟨s, a, hclaim, happly, rfl⟩

end LendingTransactor

end FalconLedger
