import FalconLedger.Close.BuildLedger
import FalconLedger.Lending.Transactor

/-!
# What a lending transaction can do

The inversion of `applyLending`, and the system the results about lending are about: a market, its
transactions, and the closing of a ledger, which moves the clock, may enable amendments and lets the
rest of the ledger trade.
-/

namespace FalconLedger

namespace LendingTransactor

variable {G : LendingServices} {flags : ApplyFlags} {m m' : Market} {tx : LendingTx} {fee : Int}

/-- The signer of a transaction is no pseudo-account. -/
def Signed (m : Market) (tx : LendingTx) : Prop :=
  m.rules.lendingProtocol = true → m.isPseudoAccount tx.account = false

/-- Everything that can become of a lending transaction. -/
inductive LendingOutcome (G : LendingServices) (m : Market) (tx : LendingTx) :
    Market × LendingReceipt → Prop
  /-- The market is left alone. -/
  | unapplied (ter : TER) : LendingOutcome G m tx (m, { ter, applied := false })
  /-- Only the fee is charged. -/
  | feeOnly {view : Market} {feeIn fee : Int} {ter : TER} (hsigned : Signed m tx)
      (hreset : reset G m tx feeIn = .ok (view, fee)) (hter : ter.isTecClaim = true) :
      LendingOutcome G m tx (committed G view fee, { ter, applied := true })
  /-- The transactor's effect is applied on top of the fee. -/
  | success {s : Ledger} {a : LendingApplied} (hsigned : Signed m tx)
      (hflight : invokePreflight G m tx = .ok ()) (hclaim : invokePreclaim G m tx = .ok ())
      (hcharge : Transactor.charge G.toServices m.ledger tx.common = .ok s)
      (happly : doApply G { m with ledger := s } (m.ledger.balanceOf tx.account) tx = .ok a)
      (hvault : validVault m.rules tx .tesSuccess a.updatedVault = true) :
      LendingOutcome G m tx
        (committed G a.view tx.fee, { ter := .tesSuccess, applied := true })

private theorem checkInvariants_cases (G : LendingServices) (base : Market) (a : LendingApplied)
    (tx : LendingTx) (result : TER) (fee : Int) :
    (checkInvariants G base a tx result fee = result ∧
      (validVault base.rules tx result a.updatedVault = true ∨ result = .tefInvariantFailed)) ∨
    (checkInvariants G base a tx result fee = .tecInvariantFailed ∧
      result ≠ .tecInvariantFailed) ∨
    checkInvariants G base a tx result fee = .tefInvariantFailed := by
  unfold checkInvariants Invariants.failInvariantCheck
  split_ifs with hall hres
  · simp only [Bool.and_eq_true] at hall
    exact .inl ⟨rfl, .inl hall.1.2⟩
  · exact .inr (.inr rfl)
  · exact .inr (.inl ⟨rfl, fun h => hres (.inl h)⟩)

private theorem outcome_commit {a : LendingApplied} {result : TER}
    (hfail : checkInvariants G m a tx result fee = .tecInvariantFailed →
      result = .tecInvariantFailed)
    (ha : validVault m.rules tx result a.updatedVault = true →
      result = .tesSuccess ∨ result.isTecClaim = true →
      LendingOutcome G m tx (committed G a.view fee, { ter := result, applied := true })) :
    LendingOutcome G m tx (commit G flags m a (checkInvariants G m a tx result fee) fee) := by
  rcases checkInvariants_cases G m a tx result fee with ⟨hc, hv⟩ | ⟨hc, hne⟩ | hc
  · rw [hc]
    unfold commit notApplied
    split_ifs with hter hneg hdry
    · exact .unapplied _
    · exact .unapplied _
    · have hres : result = .tesSuccess ∨ result.isTecClaim = true := by
        rw [Bool.or_eq_true] at hter
        refine hter.symm.imp_left fun h => ?_
        cases result <;> simp_all [TER.isTesSuccess]
      refine ha (hv.resolve_right fun h => ?_) hres
      rw [h] at hres
      simp [TER.isTecClaim] at hres
    · exact .unapplied _
  · exact absurd (hfail hc) hne
  · rw [hc]
    exact .unapplied _

private theorem outcome_finish {a : LendingApplied} {result : TER} (hsigned : Signed m tx)
    (ha : validVault m.rules tx result a.updatedVault = true →
      result = .tesSuccess ∨ result.isTecClaim = true →
      LendingOutcome G m tx (committed G a.view fee, { ter := result, applied := true })) :
    LendingOutcome G m tx (finish G flags m tx a result fee) := by
  unfold finish
  dsimp only
  split_ifs with hfail
  · rw [hfail]
    split
    · exact .unapplied _
    · rename_i view fee' hreset
      exact outcome_commit (a := { view }) (fun _ => rfl)
        fun _ _ => .feeOnly hsigned hreset rfl
  · exact outcome_commit (fun h => absurd h hfail) ha

private theorem outcome_claimFee {result : TER} (hsigned : Signed m tx)
    (hter : result.isTecClaim = true) : LendingOutcome G m tx (claimFee G flags m tx result) := by
  unfold claimFee
  split
  · exact .unapplied _
  · rename_i view fee' hreset
    exact outcome_finish hsigned fun _ _ => .feeOnly hsigned hreset hter

private theorem outcome_operatorCall {outcome : Except TER LendingApplied}
    (hsigned : Signed m tx)
    (ha : ∀ a, outcome = .ok a → validVault m.rules tx .tesSuccess a.updatedVault = true →
      LendingOutcome G m tx
        (committed G a.view tx.fee, { ter := .tesSuccess, applied := true })) :
    LendingOutcome G m tx (operatorCall G flags m tx outcome) := by
  unfold operatorCall
  dsimp only
  split_ifs with hhard hclaim
  · exact .unapplied _
  · refine outcome_claimFee hsigned ?_
    rcases hclaim with h | h | h | h
    · rw [h]
      rfl
    · rw [h]
      rfl
    · rw [h]
      rfl
    · exact (Bool.and_eq_true _ _ ▸ h).1
  · cases outcome with
    | error e => exact .unapplied _
    | ok a =>
      have hres : resultOf G m tx (.ok a) = .tesSuccess := by
        simp only [resultOf] at hclaim ⊢
        split_ifs at hclaim ⊢ <;> simp_all
      rw [hres]
      exact outcome_finish hsigned fun hv _ => ha a rfl hv

/-! ### The signature comes before any fee -/

private theorem signed_of_checkSign (h : checkSign G m tx = .ok ()) : Signed m tx := by
  simp only [checkSign, Except.bind_eq_ok, failIf_eq_ok] at h
  obtain ⟨-, hnot, -⟩ := h
  exact fun hrule => Bool.eq_false_iff.mpr fun hmem => hnot ⟨hrule, hmem⟩

private theorem refuseIf_error {code : Option Nat} {ter : TER} (h : refuseIf code = .error ter) :
    ter.isTecClaim = false := by
  cases code with
  | none => cases h
  | some code =>
    cases h
    rfl

private theorem failIf_error {c : Prop} [Decidable c] {e ter : TER} (h : failIf c e = .error ter) :
    ter = e := by
  unfold failIf at h
  split_ifs at h
  cases h
  rfl

private theorem bind_error {α β : Type} {x : Except TER α} {f : α → Except TER β} {ter : TER}
    (h : x >>= f = .error ter) : x = .error ter ∨ ∃ a, x = .ok a ∧ f a = .error ter := by
  cases x with
  | error e =>
    left
    cases h
    rfl
  | ok a => exact .inr ⟨a, rfl, h⟩

private theorem loanSet_checkSign_error {f : LoanSetFields} {ter : TER}
    (h : LoanSet.checkSign G m tx f = .error ter) : ter.isTecClaim = false := by
  unfold LoanSet.checkSign at h
  rcases bind_error h with h | ⟨signer, -, h⟩
  · cases hs : LoanSet.counterSigner m f with
    | none =>
      rw [hs] at h
      cases h
      rfl
    | some signer =>
      rw [hs] at h
      cases h
  · unfold checkWhen at h
    split_ifs at h
    rcases bind_error h with h | ⟨-, -, h⟩
    · rw [failIf_error h]
      rfl
    · exact refuseIf_error h

private theorem checkSign_error {ter : TER} (h : checkSign G m tx = .error ter) :
    ter.isTecClaim = false := by
  unfold checkSign at h
  rcases bind_error h with h | ⟨-, -, h⟩
  · rw [failIf_error h]
    rfl
  · rcases bind_error h with h | ⟨-, -, h⟩
    · exact refuseIf_error h
    · split at h
      · exact loanSet_checkSign_error h
      · cases h

private theorem signed_of_tec {ter : TER} (h : invokePreclaim G m tx = .error ter)
    (hter : ter.isTecClaim = true) : Signed m tx := by
  have hno : ter.isTecClaim = false → Signed m tx := fun h => by
    rw [hter] at h
    cases h
  unfold invokePreclaim at h
  rcases bind_error h with h | ⟨-, -, h⟩
  · exact hno (Transactor.checkSeqProxy_not_tec h)
  · rcases bind_error h with h | ⟨-, -, h⟩
    · exact hno (refuseIf_error h)
    · rcases bind_error h with h | ⟨-, -, h⟩
      · exact hno (refuseIf_error h)
      · rcases bind_error h with h | ⟨_, hsign, _⟩
        · exact hno (checkSign_error h)
        · exact signed_of_checkSign hsign

theorem signed_of_preclaim (h : invokePreclaim G m tx = .ok ()) : Signed m tx := by
  simp only [invokePreclaim, Except.bind_eq_ok] at h
  obtain ⟨_, -, _, -, _, -, _, hsign, -⟩ := h
  exact signed_of_checkSign hsign

/-- **There is no other outcome.** -/
theorem applyLending_outcome (G : LendingServices) (flags : ApplyFlags) (m : Market)
    (tx : LendingTx) : LendingOutcome G m tx (applyLending G flags m tx) := by
  unfold applyLending
  split
  · exact .unapplied _
  · rename_i hflight
    split
    · rename_i hclaim
      have hsigned := signed_of_preclaim hclaim
      refine outcome_operatorCall hsigned fun a hout hv => ?_
      simp only [apply, Except.bind_eq_ok] at hout
      obtain ⟨s, hcharge, happly⟩ := hout
      exact .success hsigned hflight hclaim hcharge happly hv
    · rename_i ter hclaim
      split_ifs with hter
      · have htec : ter.isTecClaim = true := (Bool.and_eq_true _ _ ▸ hter).1
        exact outcome_operatorCall (signed_of_tec hclaim htec) fun a hout => by cases hout
      · exact .unapplied _

/-! ### What the checks before it have seen -/

theorem preclaim_of_invoke (h : invokePreclaim G m tx = .ok ()) : preclaim G m tx = .ok () := by
  simp only [invokePreclaim, Except.bind_eq_ok] at h
  obtain ⟨_, -, _, -, _, -, _, -, _, -, h⟩ := h
  exact h

end LendingTransactor

/-! ### Runs -/

/-- What happens to a market: a transaction, or the closing of a ledger. -/
inductive LendingAction
  | transaction (flags : ApplyFlags) (tx : LendingTx)
  /-- The clock moves on, amendments `enabled` may come into force, and trust lines, tokens and
  pools of assets are whatever the rest of the ledger has made of them. -/
  | nextLedger (closeTime parentCloseTime : UInt32) (enabled : LendingRules) (holdings : Holdings)

namespace Market

def step (G : LendingServices) (m : Market) : LendingAction → Market × Option LendingReceipt
  | .transaction flags tx =>
    let r := applyLending G flags m tx
    (r.1, some r.2)
  | .nextLedger closeTime parentCloseTime enabled holdings =>
    ({ m with
        closeTime
        parentCloseTime
        rules := m.rules.union enabled
        ledger := { m.ledger with holdings } }, none)

end Market

/-! ### A small market

A vault of a token with one broker, before the first deposit, for instances of the statements about
lending. A loan is paid back in one payment and bears no interest. -/

namespace Sample

def carol : AccountID := 12

def dave : AccountID := 13

def vaultAccount : AccountID := 20

def brokerAccount : AccountID := 21

def token : MPTID := 500

def shares : MPTID := 600

def plenty : Number := ⟨false, 1000000000000000000, -15⟩

def unmoved (m : Market) : AssetEffect := ⟨m.ledger.holdings, m.ledger.dirs, fun _ n => n⟩

def lending : LendingServices :=
  { services with
    loanKey := fun broker seq => broker + BitVec.ofNat 256 (2 ^ 100 + seq.toNat)
    mptokenKey := fun id account => BitVec.ofNat 256 (2 ^ 210 + 2 ^ 20 * id.toNat + account.toNat)
    lendingCheck := fun _ _ _ => none
    counterpartyKeyCheck := fun _ => none
    counterpartySignCheck := fun _ _ _ => none
    otherLendingInvariants := fun _ _ _ _ _ => true
    lendingOversize := fun _ _ => false
    assetCheck := fun _ _ _ => .ok ()
    accountHolds := fun _ _ _ => plenty
    ammHolds := fun _ _ => some (1000, plenty)
    addEmptyHolding := fun m _ _ _ => .ok (unmoved m)
    accountSend := fun m _ _ _ => .ok (unmoved m)
    accountSendMulti := fun m _ _ _ => .ok (unmoved m)
    verifyValidDomain := fun _ _ _ => .ok ()
    toAsset := fun _ x => x
    roundToAsset := fun _ x _ _ => some x
    isRounded := fun _ _ _ => true
    scaleOf := fun _ _ => 0
    computeLoanProperties := fun _ _ principal _ _ _ _ _ =>
      some ⟨principal, ⟨principal, principal, 0, 0⟩, 0, principal⟩
    checkLoanGuards := fun _ _ _ _ _ => .ok ()
    loanMakePayment := fun _ _ loan _ _ _ =>
      .ok ({ loan.balances with
          principalOutstanding := 0
          totalValueOutstanding := 0
          managementFeeOutstanding := 0
          paymentRemaining := 0 },
        ⟨loan.balances.principalOutstanding, 0, 0, 0⟩) }

def vault : VaultEntry where
  owner := carol
  account := vaultAccount
  asset := .mpt token
  assetsTotal := 0
  assetsAvailable := 0
  assetsMaximum := 0
  lossUnrealized := 0
  shareMPTID := shares
  withdrawalPolicy := 1
  scale := 0
  isPrivate := false
  liquidationCollateral := none
  liquidationIndex := none

def broker : LoanBroker where
  owner := carol
  account := brokerAccount
  vaultID := 1
  loanSequence := 1
  managementFeeRate := 0
  interestRate := 0
  ownerCount := 0
  debtTotal := 0
  debtMaximum := 0
  coverAvailable := 0
  coverRateMinimum := 0
  coverRateLiquidation := 0

def market : Market where
  ledger :=
    { ledger with
      accounts := ((((((AList.insert 1 (account 4166667) ∅).insert alice (account 1000000)).insert bob
        (account 1000000)).insert carol (account 1000000)).insert dave (account 1000000)).insert
        vaultAccount (account 0)).insert brokerAccount (account 0) }
  rules := ⟨true, true, true, true, true, true, true, true⟩
  closeTime := 1000
  parentCloseTime := 990
  reserveBase := 200
  reserveIncrement := 50
  pseudoAccounts := [vaultAccount, brokerAccount]
  vaults := AList.insert 1 vault ∅
  brokers := AList.insert 2 broker ∅
  loans := ∅
  issuances := AList.insert shares ⟨vaultAccount, 0, none, false, none⟩ ∅
  tokens := ∅

def call (account : AccountID) (seq : UInt32) (flags : UInt32) (body : LendingBody) : LendingAction :=
  .transaction ⟨false, false, false⟩ ⟨0, account, 10, .seq seq, flags, body⟩

def deposit (account : AccountID) (seq : UInt32) (n : Int) : LendingAction :=
  call account seq 0 (.vaultDeposit 1 (.mpt token n))

end Sample

end FalconLedger
