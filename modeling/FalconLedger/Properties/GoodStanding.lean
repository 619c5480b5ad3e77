import FalconLedger.Lending.LoanChanges

/-!
# A loan in good standing

A permissionless loan can be defaulted by anyone once its due date and the grace period have passed.
Impairing a loan moves its due date to the present, whoever does it. So a loan whose price has
recovered can be defaulted before its schedule says so while it is impaired
(`sound_loan_defaulted`), and cannot otherwise (`good_standing_kept`).
-/

namespace FalconLedger

open LendingTransactor

/-! ### Dates -/

/-- A payment after which payments are left moves the dates on by whole intervals, one for each
payment it makes. -/
def PaysBySchedule (G : LendingServices) : Prop :=
  ∀ (m : Market) (asset : Asset) (loan : Loan) (broker : LoanBroker) (amount : STAmount)
    (paymentType : LoanPaymentType) (balances : LoanBalances) (parts : LoanPaymentParts),
    G.loanMakePayment m asset loan broker amount paymentType = .ok (balances, parts) →
      balances.paymentRemaining = 0 ∨
        ∃ payments : ℕ, payments < loan.balances.paymentRemaining.toNat ∧
          balances.previousPaymentDueDate = loan.balances.nextPaymentDueDate +
            UInt32.ofNat payments * loan.terms.paymentInterval ∧
          balances.nextPaymentDueDate =
            balances.previousPaymentDueDate + loan.terms.paymentInterval

namespace Loan

/-- The next due date by the schedule: an interval after the previous one, or after the start. -/
def scheduledDueDate (loan : Loan) : ℕ :=
  max loan.balances.previousPaymentDueDate.toNat loan.terms.startDate.toNat +
    loan.terms.paymentInterval.toNat

/-- A loan that is not impaired is not due before its schedule says so. -/
def OnSchedule (loan : Loan) : Prop :=
  loan.balances.paymentRemaining ≠ 0 → loan.isImpaired = false →
    loan.scheduledDueDate ≤ loan.balances.nextPaymentDueDate.toNat

end Loan

/-- The latest date the loan can come to, paid by its schedule from now on. -/
def Market.latestDate (m : Market) (loan : Loan) : ℕ :=
  max (max loan.balances.nextPaymentDueDate.toNat loan.scheduledDueDate)
      (m.parentCloseTime.toNat + loan.terms.paymentInterval.toNat) +
    loan.balances.paymentRemaining.toNat * loan.terms.paymentInterval.toNat +
    loan.terms.gracePeriod.toNat

/-- The clock does not run out before the loans do. -/
def Market.Timely (m : Market) : Prop :=
  ∀ id loan, m.loans.lookup id = some loan → loan.balances.paymentRemaining ≠ 0 →
    m.latestDate loan < 2 ^ 32

/-- The states of a run in which the clock does not run out. -/
inductive TimelyRun (G : LendingServices) (m₀ : Market) : Market → Prop
  | start (h : m₀.Timely) : TimelyRun G m₀ m₀
  | step {m : Market} (action : LendingAction) (hrun : TimelyRun G m₀ m)
      (h : (m.step G action).1.Timely) : TimelyRun G m₀ (m.step G action).1

variable {G : LendingServices} {m m₀ : Market} {loan loan' : Loan} {loanID : UInt256}

theorem Loan.normalPaymentDueDate_toNat (h : loan.scheduledDueDate < 2 ^ 32) :
    loan.normalPaymentDueDate.toNat = loan.scheduledDueDate := by
  have hmax (a b : UInt32) : (max a b).toNat = max a.toNat b.toNat := by
    change (if a ≤ b then b else a).toNat = _
    split_ifs with hle
    · rw [max_eq_right (UInt32.le_iff_toNat_le.mp hle)]
    · rw [max_eq_left (UInt32.le_iff_toNat_le.mp (UInt32.le_of_lt (UInt32.not_le.mp hle)))]
  rw [scheduledDueDate, ← hmax] at h
  rw [normalPaymentDueDate, UInt32.toNat_add, Nat.mod_eq_of_lt h, scheduledDueDate, hmax]

/-! ### A step -/

theorem Loan.Unimpaired.onSchedule (h : loan.Unimpaired m loan')
    (hscheduled : loan.scheduledDueDate < 2 ^ 32)
    (hclock : m.parentCloseTime.toNat + loan.terms.paymentInterval.toNat < 2 ^ 32) :
    loan'.scheduledDueDate ≤ loan'.balances.nextPaymentDueDate.toNat := by
  have hsame : loan'.scheduledDueDate = loan.scheduledDueDate := by
    rw [scheduledDueDate, scheduledDueDate, h.terms, h.previous]
  have hnormal := Loan.normalPaymentDueDate_toNat hscheduled
  rw [hsame, h.next]
  split_ifs with hexpired
  · rw [Market.hasExpired, decide_eq_true_iff, UInt32.le_iff_toNat_le, hnormal] at hexpired
    rw [UInt32.toNat_add, Nat.mod_eq_of_lt hclock]
    omega
  · exact hnormal.ge

theorem Loan.Unimpaired.next_le (h : loan.Unimpaired m loan')
    (hscheduled : loan.scheduledDueDate < 2 ^ 32)
    (hclock : m.parentCloseTime.toNat + loan.terms.paymentInterval.toNat < 2 ^ 32) :
    loan'.balances.nextPaymentDueDate.toNat ≤
      max loan.scheduledDueDate (m.parentCloseTime.toNat + loan.terms.paymentInterval.toNat) := by
  rw [h.next]
  split_ifs
  · rw [UInt32.toNat_add, Nat.mod_eq_of_lt hclock]
    exact le_max_right _ _
  · exact (Loan.normalPaymentDueDate_toNat hscheduled).trans_le (le_max_left _ _)

theorem onSchedule_of_paid {payments : ℕ} {balances : LoanBalances}
    (hfrom : loan.scheduledDueDate ≤ loan.balances.nextPaymentDueDate.toNat)
    (hfits : loan.balances.nextPaymentDueDate.toNat +
      loan.balances.paymentRemaining.toNat * loan.terms.paymentInterval.toNat < 2 ^ 32)
    (hpayments : payments < loan.balances.paymentRemaining.toNat)
    (hprevious : balances.previousPaymentDueDate = loan.balances.nextPaymentDueDate +
      UInt32.ofNat payments * loan.terms.paymentInterval)
    (hnext : balances.nextPaymentDueDate =
      balances.previousPaymentDueDate + loan.terms.paymentInterval) :
    max balances.previousPaymentDueDate.toNat loan.terms.startDate.toNat +
      loan.terms.paymentInterval.toNat ≤ balances.nextPaymentDueDate.toNat := by
  rw [Loan.scheduledDueDate] at hfrom
  have hsteps : (payments + 1) * loan.terms.paymentInterval.toNat ≤
      loan.balances.paymentRemaining.toNat * loan.terms.paymentInterval.toNat :=
    Nat.mul_le_mul_right _ hpayments
  rw [Nat.succ_mul] at hsteps
  -- the payments made are among those that were left, so no date wraps around
  have hfew : payments < 2 ^ 32 := hpayments.trans loan.balances.paymentRemaining.toNat_lt
  have hproduct : (UInt32.ofNat payments * loan.terms.paymentInterval).toNat =
      payments * loan.terms.paymentInterval.toNat := by
    rw [UInt32.toNat_mul, UInt32.toNat_ofNat', Nat.mod_eq_of_lt hfew, Nat.mod_eq_of_lt (by omega)]
  have hmoved : balances.previousPaymentDueDate.toNat =
      loan.balances.nextPaymentDueDate.toNat + payments * loan.terms.paymentInterval.toNat := by
    rw [hprevious, UInt32.toNat_add, hproduct, Nat.mod_eq_of_lt (by omega)]
  have hdue : balances.nextPaymentDueDate.toNat =
      balances.previousPaymentDueDate.toNat + loan.terms.paymentInterval.toNat := by
    rw [hnext, UInt32.toNat_add, Nat.mod_eq_of_lt (by omega)]
  omega

theorem LoanChange.onSchedule (hpays : PaysBySchedule G) (htimely : m.Timely)
    (hgood : ∀ loan, m.loans.lookup loanID = some loan → loan.OnSchedule)
    (h : LoanChange G m (m.loans.lookup loanID) loan')
    (hfits : loan'.balances.paymentRemaining ≠ 0 → loan'.scheduledDueDate < 2 ^ 32) :
    loan'.OnSchedule := by
  intro hremaining hsound
  have hscheduled := hfits hremaining
  generalize hold : m.loans.lookup loanID = old at h
  cases h with
  | @kept loan _ hsame =>
    have hkept := hgood loan hold (hsame.remaining ▸ hremaining) (hsame.impaired ▸ hsound)
    rw [Loan.scheduledDueDate, hsame.terms, hsame.previous, hsame.next]
    exact hkept
  | made hstart hprevious hnext =>
    rw [Loan.scheduledDueDate, hprevious, hstart, UInt32.toNat_zero, Nat.zero_max] at hscheduled ⊢
    rw [hnext, UInt32.toNat_add, Nat.mod_eq_of_lt hscheduled]
  | impaired himpaired => exact absurd (hsound.symm.trans himpaired) Bool.false_ne_true
  | @unimpaired loan _ hfound =>
    have hlatest := htimely loanID loan hold (hfound.remaining ▸ hremaining)
    rw [Market.latestDate] at hlatest
    exact hfound.onSchedule (by omega) (by omega)
  | @paid loan loan₀ _ _ _ _ _ balances _ hfrom hpaid hterms hprevious hnext hleft =>
    obtain hnone | ⟨payments, hpayments, hmoved, hinterval⟩ := hpays _ _ _ _ _ _ _ _ hpaid
    · exact absurd (hleft.trans hnone) hremaining
    · -- the loan pays from where it stood, or from where unimpairing it has put it
      have hterms₀ : loan₀.terms = loan.terms := by
        rcases hfrom with ⟨rfl, -⟩ | hfound
        · rfl
        · exact hfound.terms
      have hremaining₀ : loan₀.balances.paymentRemaining = loan.balances.paymentRemaining := by
        rcases hfrom with ⟨rfl, -⟩ | hfound
        · rfl
        · exact hfound.remaining
      have hdebt : loan.balances.paymentRemaining ≠ 0 := by
        rintro hzero
        rw [hremaining₀, hzero] at hpayments
        exact Nat.not_lt_zero _ hpayments
      have hlatest := htimely loanID loan hold hdebt
      rw [Market.latestDate] at hlatest
      have hstart : loan₀.scheduledDueDate ≤ loan₀.balances.nextPaymentDueDate.toNat := by
        rcases hfrom with ⟨rfl, himpaired⟩ | hfound
        · exact hgood loan₀ hold hdebt himpaired
        · exact hfound.onSchedule (by omega) (by omega)
      have hroom : loan₀.balances.nextPaymentDueDate.toNat +
          loan₀.balances.paymentRemaining.toNat * loan₀.terms.paymentInterval.toNat < 2 ^ 32 := by
        rw [hremaining₀, hterms₀]
        rcases hfrom with ⟨rfl, -⟩ | hfound
        · omega
        · have hbound := hfound.next_le (by omega) (by omega)
          omega
      rw [Loan.scheduledDueDate, hterms, hprevious, hnext, ← hterms₀]
      exact onSchedule_of_paid hstart hroom hpayments hmoved hinterval
  | closed hnone => exact absurd hnone hremaining

theorem step_onSchedule (hpays : PaysBySchedule G) (htimely : m.Timely)
    (hgood : ∀ id loan, m.loans.lookup id = some loan → loan.OnSchedule) {action : LendingAction}
    (hnext : (m.step G action).1.Timely) {id : UInt256} {loan : Loan}
    (hloan : (m.step G action).1.loans.lookup id = some loan) : loan.OnSchedule := by
  cases action with
  | nextLedger closeTime parentCloseTime enabled holdings => exact hgood id loan hloan
  | transaction flags tx =>
    have hfits (hremaining : loan.balances.paymentRemaining ≠ 0) :
        loan.scheduledDueDate < 2 ^ 32 := by
      have hlatest := hnext id loan hloan hremaining
      rw [Market.latestDate] at hlatest
      omega
    change (applyLending G flags m tx).1.loans.lookup id = some loan at hloan
    obtain hkept | ⟨s, a, -, happly, hloans⟩ := applyLending_loans G flags m tx
    · exact hgood id loan (hkept ▸ hloan)
    · exact LoanChange.onSchedule (m := { m with ledger := s }) hpays htimely (hgood id)
        (doApply_loansFrom happly id loan (hloans ▸ hloan)) hfits

theorem TimelyRun.timely (h : TimelyRun G m₀ m) : m.Timely := by
  cases h with
  | start h => exact h
  | step action hrun h => exact h

theorem TimelyRun.onSchedule (hpays : PaysBySchedule G) (hstart : m₀.loans = ∅)
    (h : TimelyRun G m₀ m) : ∀ id loan, m.loans.lookup id = some loan → loan.OnSchedule := by
  induction h with
  | start h =>
    intro id loan hloan
    rw [hstart] at hloan
    cases hloan
  | step action hrun h ih =>
    intro id loan hloan
    exact step_onSchedule hpays hrun.timely ih h hloan

/-! ### Default -/

/-- The grace period has not passed: by the schedule, or after the due date an impaired loan has been
given. -/
def Loan.InGoodStanding (m : Market) (loan : Loan) : Prop :=
  if loan.isImpaired then
    m.hasExpired (loan.balances.nextPaymentDueDate + loan.terms.gracePeriod) = false
  else m.parentCloseTime.toNat < loan.scheduledDueDate + loan.terms.gracePeriod.toNat

/-- By its price the loan cannot be liquidated. -/
def Healthy (G : LendingServices) (m : Market) (loan : Loan) : Prop :=
  ∀ broker vault, m.brokers.lookup loan.loanBrokerID = some broker →
    m.vaults.lookup broker.vaultID = some vault →
      Lending.loanPermissionlessLiquidatable G m vault.asset loan ≠ .ok true

theorem LoanManage.default_spec {tx : LendingTx} (hloan : m.loans.lookup loanID = some loan)
    (hflag : tx.isFlag tfLoanDefault = true) (h : preclaim G m tx loanID = .ok ()) :
    loan.balances.paymentRemaining ≠ 0 ∧
      (m.hasExpired (loan.balances.nextPaymentDueDate + loan.terms.gracePeriod) = true ∨
        ¬Healthy G m loan) := by
  simp only [preclaim, Except.bind_eq_ok, orFail_eq_ok, failIf_eq_ok] at h
  obtain ⟨loan', hloan', _, -, _, -, _, -, _, hremaining, broker, hbroker, vault, hvault, h⟩ := h
  obtain rfl : loan = loan' := Option.some.inj (hloan.symm.trans hloan')
  refine ⟨hremaining, ?_⟩
  by_cases hexpired : m.hasExpired (loan.balances.nextPaymentDueDate + loan.terms.gracePeriod) = true
  · exact .inl hexpired
  · refine .inr fun hhealthy => ?_
    -- a permissionless loan can be late or breached; any other has to be late
    split_ifs at h
    · simp only [preclaimPermissionless, Except.bind_eq_ok, if_pos hflag, failIf_eq_ok] at h
      obtain ⟨breach, hbreach, h⟩ := h
      cases breach with
      | true => exact hhealthy broker vault hbroker hvault hbreach
      | false => exact h ⟨by simp [hexpired], rfl⟩
    · simp only [Except.bind_eq_ok, failIf_eq_ok] at h
      obtain ⟨_, hlate, -⟩ := h
      exact hlate ⟨hflag, by simpa using hexpired⟩

/-- In every run a permissionless loan in good standing cannot be defaulted by anyone while its price
is sound. -/
theorem good_standing_kept (hpays : PaysBySchedule G) (hstart : m₀.loans = ∅)
    (hrun : TimelyRun G m₀ m) (hloan : m.loans.lookup loanID = some loan)
    (hstanding : loan.InGoodStanding m) (hhealthy : Healthy G m loan) (tx : LendingTx)
    (hbody : tx.body = .loanManage loanID) (hflag : tx.isFlag tfLoanDefault = true) :
    LoanManage.preclaim G m tx loanID ≠ .ok () ∧
      ∀ flags, (applyLending G flags m tx).1.loans = m.loans := by
  have hrefused : LoanManage.preclaim G m tx loanID ≠ .ok () := by
    intro h
    obtain ⟨hremaining, hexpired | hbreach⟩ := LoanManage.default_spec hloan hflag h
    · rw [Loan.InGoodStanding] at hstanding
      split_ifs at hstanding with himpaired
      · exact Bool.false_ne_true (hstanding.symm.trans hexpired)
      · -- late by the recorded date, which is not before the scheduled one
        have hschedule := hrun.onSchedule hpays hstart loanID loan hloan hremaining
          (Bool.not_eq_true _ ▸ himpaired)
        have hlatest := hrun.timely loanID loan hloan hremaining
        rw [Market.latestDate] at hlatest
        rw [Market.hasExpired, decide_eq_true_iff, UInt32.le_iff_toNat_le, UInt32.toNat_add,
          Nat.mod_eq_of_lt (by omega)] at hexpired
        omega
    · exact hbreach hhealthy
  refine ⟨hrefused, fun flags => ?_⟩
  obtain hkept | ⟨s, a, hclaim, -, -⟩ := applyLending_loans G flags m tx
  · exact hkept
  · have hchecked := preclaim_of_invoke hclaim
    rw [LendingTransactor.preclaim, hbody] at hchecked
    exact absurd hchecked hrefused

/-! ### A dip in the price

Bob borrows for a long interval. The price halves, Dave impairs the loan, and the price recovers. -/

theorem Market.timely_of_entries (h : ∀ e ∈ m.loans.entries,
    e.2.balances.paymentRemaining ≠ 0 → m.latestDate e.2 < 2 ^ 32) : m.Timely :=
  fun _ _ hloan => h _ (AList.mem_lookup_iff.mp hloan)

/-- What `Healthy` says, looked up. -/
def foundHealthy (G : LendingServices) (m : Market) (loan : Loan) : Bool :=
  ((m.brokers.lookup loan.loanBrokerID).bind fun broker => m.vaults.lookup broker.vaultID).all
    fun vault => Lending.loanPermissionlessLiquidatable G m vault.asset loan ≠ .ok true

theorem healthy_of_found (h : foundHealthy G m loan = true) : Healthy G m loan := by
  intro broker vault hbroker hvault
  rw [foundHealthy, hbroker, Option.bind_some, hvault] at h
  exact of_decide_eq_true h

namespace Sample

def poolAccount : AccountID := 30

def pooledLending : LendingServices :=
  { lending with
    ammHolds := fun m _ => (m.ledger.holdings.mptokens.lookup (token, poolAccount)).bind fun units =>
      (Number.ofInt m.env units.toNat).map fun vaultBal => (1000, vaultBal) }

def closeWith (closeTime : UInt32) (units : UInt64) : LendingAction :=
  .nextLedger closeTime (closeTime - 10) market.rules
    { market.ledger.holdings with mptokens := AList.insert (token, poolAccount) units ∅ }

/-- A hundred of the token over a long interval, for two hundred drops. -/
def longTerms : LoanSetFields where
  loanBrokerID := 2
  data := none
  counterparty := none
  counterpartySignature := false
  loanOriginationFee := none
  loanServiceFee := none
  latePaymentFee := none
  closePaymentFee := none
  overpaymentFee := none
  interestRate := none
  lateInterestRate := none
  closeInterestRate := none
  overpaymentInterestRate := none
  principalRequested := ⟨false, 1000000000000000000, -16⟩
  paymentTotal := none
  paymentInterval := some 100000
  gracePeriod := none
  collateral := some (.native 200)

def bobsLoan : UInt256 := pooledLending.loanKey 2 1

/-- Dave defaults the loan. -/
def davesDefault (seq : UInt32) : LendingTx :=
  ⟨0, dave, 10, .seq seq, tfLoanDefault, .loanManage bobsLoan⟩

def dip : List LendingAction :=
  [closeWith 1000 1000, deposit alice 1 100, call bob 1 0 (.loanSet longTerms), closeWith 2000 500,
    call dave 1 tfLoanImpair (.loanManage bobsLoan)]

def afterActions (actions : List LendingAction) : Market :=
  actions.foldl (fun m action => (m.step pooledLending action).1) market

end Sample

open Sample

theorem pooledLending_pays : PaysBySchedule pooledLending := by
  intro m asset loan broker amount paymentType balances parts h
  cases h
  exact .inl rfl

theorem dip_timely : TimelyRun pooledLending market (afterActions dip) :=
  .step _ (.step _ (.step _ (.step _ (.step _ (.start (Market.timely_of_entries (by decide +kernel)))
    (Market.timely_of_entries (by decide +kernel))) (Market.timely_of_entries (by decide +kernel)))
    (Market.timely_of_entries (by decide +kernel))) (Market.timely_of_entries (by decide +kernel)))
    (Market.timely_of_entries (by decide +kernel))

/-- The loan is found sound again, and most of its interval has passed. -/
def unimpaired : Market :=
  afterActions (dip ++ [closeWith 3000 1000, call dave 2 tfLoanUnimpair (.loanManage bobsLoan),
    closeWith 60000 1000])

/-- Dave has found the loan sound again, and cannot default it long after that. -/
theorem good_standing_kept_dave :
    ∃ loan, unimpaired.loans.lookup bobsLoan = some loan ∧
      LoanManage.preclaim pooledLending unimpaired (davesDefault 3) bobsLoan ≠ .ok () ∧
      ∀ flags, (applyLending pooledLending flags unimpaired (davesDefault 3)).1.loans =
        unimpaired.loans := by
  have hrun : TimelyRun pooledLending market unimpaired :=
    .step _ (.step _ (.step _ dip_timely (Market.timely_of_entries (by decide +kernel)))
      (Market.timely_of_entries (by decide +kernel))) (Market.timely_of_entries (by decide +kernel))
  have hok : (unimpaired.loans.lookup bobsLoan).any (fun loan => loan.isImpaired = false ∧
      unimpaired.parentCloseTime.toNat < loan.scheduledDueDate + loan.terms.gracePeriod.toNat ∧
      foundHealthy pooledLending unimpaired loan = true) = true := by decide +kernel
  obtain ⟨loan, hloan, hok⟩ := (Option.any_eq_true _ _).mp hok
  obtain ⟨himpaired, hschedule, hhealthy⟩ := of_decide_eq_true hok
  have hstanding : loan.InGoodStanding unimpaired := by
    rw [Loan.InGoodStanding, himpaired]
    exact hschedule
  exact ⟨loan, hloan, good_standing_kept pooledLending_pays rfl hrun hloan hstanding
    (healthy_of_found hhealthy) (davesDefault 3) rfl (by decide)⟩

/-- Dave defaults a sound loan before the grace period has passed by the schedule. -/
def DefaultedEarly (m : Market) (impaired : Bool) (seq : UInt32) : Prop :=
  ∃ loan, m.loans.lookup bobsLoan = some loan ∧ loan.isPermissionless = true ∧
    loan.isImpaired = impaired ∧
    m.parentCloseTime.toNat < loan.scheduledDueDate + loan.terms.gracePeriod.toNat ∧
    Healthy pooledLending m loan ∧
    LoanManage.preclaim pooledLending m (davesDefault seq) bobsLoan = .ok () ∧
    (applyLending pooledLending ⟨false, false, false⟩ m (davesDefault seq)).2.ter = .tesSuccess

theorem defaultedEarly_of_found {seq : UInt32} {impaired : Bool} (h : (m.loans.lookup bobsLoan).any (fun loan =>
      loan.isPermissionless = true ∧ loan.isImpaired = impaired ∧
      m.parentCloseTime.toNat < loan.scheduledDueDate + loan.terms.gracePeriod.toNat ∧
      foundHealthy pooledLending m loan = true) = true)
    (hdefault : LoanManage.preclaim pooledLending m (davesDefault seq) bobsLoan = .ok () ∧
      (applyLending pooledLending ⟨false, false, false⟩ m (davesDefault seq)).2.ter = .tesSuccess) :
    DefaultedEarly m impaired seq := by
  obtain ⟨loan, hloan, hfound⟩ := (Option.any_eq_true _ _).mp h
  obtain ⟨hmark, himpaired, hschedule, hhealthy⟩ := of_decide_eq_true hfound
  exact ⟨loan, hloan, hmark, himpaired, hschedule, healthy_of_found hhealthy, hdefault⟩

/-- The price has recovered, and the loan is still impaired. -/
def recovered : Market := afterActions (dip ++ [closeWith 3000 1000])

/-- The same at the end of the clock: the loan is found sound in its grace period, and the interval
it is given reaches beyond the last date there is. -/
def wrapped : Market :=
  afterActions [closeWith 4294817296 1000, deposit alice 1 100, call bob 1 0 (.loanSet longTerms),
    closeWith 4294917316 500, call dave 1 tfLoanImpair (.loanManage bobsLoan),
    closeWith 4294917326 1000, call dave 2 tfLoanUnimpair (.loanManage bobsLoan)]

/-- A loan that is impaired can be defaulted too early, and so can one whose dates wrap around. -/
theorem sound_loan_defaulted :
    TimelyRun pooledLending market recovered ∧ DefaultedEarly recovered true 2 ∧
      DefaultedEarly wrapped false 3 :=
  ⟨.step _ dip_timely (Market.timely_of_entries (by decide +kernel)),
    defaultedEarly_of_found (by decide +kernel) (by decide +kernel),
    defaultedEarly_of_found (by decide +kernel) (by decide +kernel)⟩

end FalconLedger
