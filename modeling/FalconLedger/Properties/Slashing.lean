import FalconLedger.Properties.BondLife
import FalconLedger.Properties.Conservation
import FalconLedger.Tx.OwnerCounts

/-!
# Slashing

The slash transactor goes by the status of the bond: a slash leaves it unbonding, and an unbonding
bond is not slashed. So an offender who unbonds first is turned down as a duplicate
(`slash_succeeds_iff`); and once the bond has been released and the key registered and bonded again,
the same evidence is accepted a second time (`slash_once_run`).
-/

namespace FalconLedger

open Transactor Ledger BuildLedger ValidatorScoring Invariants
open ValidatorSlash (slashedBond verifyDoubleSignEvidence parseValidationEvidence)

variable {H : Services} {flags : ApplyFlags} {s : Ledger} {tx : STTx}

theorem Transactor.Outcome.of_slash {r : Ledger × Receipt} {target : AccountID} {offense : UInt32}
    {e1 e2 : Option Blob} (h : Outcome H s tx r)
    (hbody : tx.body = .validatorSlash target offense e1 e2) (hok : r.2.succeeded = true) :
    ∃ bond, s.bonds.lookup target = some bond ∧ bond.bondStatus ≠ .unbonding ∧
      verifyDoubleSignEvidence H (e1.getD []) (e2.getD []) target bond = true ∧
      r.1.bonds.lookup target = some (slashedBond s.seq tx bond) := by
  simp only [Receipt.succeeded, Bool.and_eq_true, decide_eq_true_eq] at hok
  obtain ⟨s₁, a, -, hclaim, hcharge, happly, -, hr⟩ := h.of_success hok.1 hok.2
  have hcharged := charge_ok hcharge (account_ne_none_of_preclaim hclaim)
  have hbonds : s₁.bonds = s.bonds := by rw [hcharged.same]
  have hseq : s₁.seq = s.seq := by rw [hcharged.same]
  have hpre := preclaim_of_invokePreclaim hclaim
  simp only [preclaim, doApply, hbody] at hpre happly
  obtain ⟨bond, hbond, rfl⟩ := ValidatorSlash.doApply_ok happly
  rw [hbonds] at hbond
  simp only [ValidatorSlash.preclaim, Except.bind_eq_ok, orFail_eq_ok, failIf_eq_ok, hbond,
    Option.some.injEq] at hpre
  obtain ⟨_, rfl, -, hstatus, -, -, hevidence⟩ := hpre
  refine ⟨bond, hbond, hstatus, by simpa using hevidence, ?_⟩
  rw [hr, ApplyContext.destroyXRP_eq, hseq]
  exact AList.lookup_insert _

/-! ### Evidence against locked capital -/

/-- Nothing but the transactor itself stands in the way of a transaction: it passes the checks
that are common to all types, its fee can be charged, and the checkers outside this model let
its result pass. -/
structure Admissible (H : Services) (flags : ApplyFlags) (s : Ledger) (tx : STTx) : Prop where
  preflight : invokePreflight H s tx = .ok ()
  seqProxy : checkSeqProxy s tx = .ok ()
  prior : external H .priorTxAndLastLedger s tx = .ok ()
  permission : external H .permission s tx = .ok ()
  sign : external H .sign s tx = .ok ()
  fee : checkFee s tx = .ok ()
  fee_lt : tx.fee < kInitialXrp
  charge : ∃ s₁, charge H s tx = .ok s₁
  balances : ∀ id root, s.accounts.lookup id = some root →
    0 ≤ root.balance ∧ root.balance ≤ kInitialXrp
  invariants : ∀ a, apply H s tx = .ok a →
    H.otherInvariants s a.view tx .tesSuccess tx.fee = true
  oversize : H.oversize s tx = false
  dryRun : flags.dryRun = false

private theorem fee_of_checkFee (h : checkFee s tx = .ok ()) :
    0 ≤ tx.fee ∧ (tx.fee = 0 ∨ tx.fee ≤ s.balanceOf tx.getFeePayer) := by
  simp only [checkFee, Except.bind_eq_ok, failIf_eq_ok, not_or, not_lt] at h
  obtain ⟨-, ⟨-, hnonneg⟩, h⟩ := h
  refine ⟨hnonneg, ?_⟩
  split_ifs at h with hzero
  · exact .inl hzero
  · simp only [Except.bind_eq_ok, orFail_eq_ok, failIf_eq_ok, not_lt] at h
    obtain ⟨payer, hpayer, -, -, hfunded⟩ := h
    rw [balanceOf_of_lookup hpayer]
    exact .inr hfunded

private theorem xrpBalanceChecks_of_charged {s₁ : Ledger} {fee : Int}
    (hlegal : ∀ id root, s.accounts.lookup id = some root →
      0 ≤ root.balance ∧ root.balance ≤ kInitialXrp)
    (hcharged : Charged tx fee s s₁) (hnonneg : 0 ≤ fee)
    (hfunded : fee = 0 ∨ fee ≤ s.balanceOf tx.getFeePayer) : xrpBalanceChecks s s₁ = true := by
  have hbefore : ∀ id, 0 ≤ s.balanceOf id ∧ s.balanceOf id ≤ kInitialXrp := fun id => by
    rcases hroot : s.accounts.lookup id with _ | root
    · rw [Ledger.balanceOf, Table.weightAt_of_none hroot]
      decide
    · rw [balanceOf_of_lookup hroot]
      exact hlegal id root hroot
  have hafter : ∀ id, 0 ≤ s₁.balanceOf id ∧ s₁.balanceOf id ≤ kInitialXrp := fun id => by
    have := hbefore id
    rw [hcharged.balanceOf]
    split_ifs with hid
    · subst hid
      omega
    · exact this
  have hgood : ∀ (t : Ledger), (∀ id, 0 ≤ t.balanceOf id ∧ t.balanceOf id ≤ kInitialXrp) →
      ∀ id, ((t.accounts.lookup id).any fun r => isBad r.balance) = false := fun t ht id => by
    rcases hroot : t.accounts.lookup id with _ | root
    · rfl
    · have := ht id
      rw [balanceOf_of_lookup hroot] at this
      simp [isBad, this]
  refine List.all_eq_true.mpr fun id _ => ?_
  simp [hgood s hbefore id, hgood s₁ hafter id]

theorem Admissible.applyTransaction_eq {s₁ : Ledger} {a : Applied} (h : Admissible H flags s tx)
    (hclaim : preclaim H s tx = .ok ()) (hcharge : Transactor.charge H s tx = .ok s₁)
    (happly : doApply H s₁ tx = .ok a) (haccounts : a.view.accounts = s₁.accounts)
    (hslash : tx.isSlash = true) (hheld : a.view.held ≤ s₁.held) :
    applyTransaction H flags s tx =
      (ApplyContext.destroyXRP H.toHashes a.view tx.fee, receipt H a .tesSuccess tx.fee) := by
  have hpre : invokePreclaim H s tx = .ok () := by
    simp [invokePreclaim, h.seqProxy, h.prior, h.permission, h.sign, h.fee, hclaim, bind,
      Except.bind]
  have hcharged := charge_ok hcharge (account_ne_none_of_preclaim hpre)
  obtain ⟨hnonneg, hfunded⟩ := fee_of_checkFee h.fee
  have happlied : apply H s tx = .ok a := by simp [apply, hcharge, happly, bind, Except.bind]
  have hchecked : checkInvariants H s a.view tx .tesSuccess tx.fee = .tesSuccess := by
    have hbalances : xrpBalanceChecks s a.view = true := by
      have := xrpBalanceChecks_of_charged h.balances hcharged hnonneg hfunded
      simpa only [xrpBalanceChecks, haccounts] using this
    have hnet : netChangeMatchesFee tx (dropsChange s a.view) tx.fee = true := by
      have := hcharged.held
      rw [netChangeMatchesFee, dropsChange_eq, if_neg (by omega), if_pos hslash]
      exact decide_eq_true (by omega)
    simp [checkInvariants, transactionFeeCheck, hnonneg, h.fee_lt, xrpNotCreated, hnet,
      hbalances, qxrpDropConservation, h.invariants a happlied]
  have hfinish : finish H flags s tx a .tesSuccess tx.fee =
      (ApplyContext.destroyXRP H.toHashes a.view tx.fee, receipt H a .tesSuccess tx.fee) := by
    simp [finish, hchecked, commitChecked, TER.isTesSuccess, commit, not_lt.mpr hnonneg, h.dryRun]
  simp only [applyTransaction, h.preflight, hpre, operatorCall, happlied, resultOf, h.oversize,
    conclude]
  simpa [TER.isTecClaim] using hfinish

/-- The slash was applied with success and took the slash fraction of the bond out of it and out
of existence. -/
structure Slashed (s : Ledger) (target : AccountID) (bond : ValidatorBond) (r : Ledger × Receipt) :
    Prop where
  succeeded : r.2.succeeded = true
  slashed : r.2.slashed =
    (bond.bondedAmount * kSlashDoubleSignBps.toNat).tdiv kBpsDenom.toNat
  drops : r.1.drops = s.drops - r.2.burned - r.2.slashed
  bond : ∃ bond', r.1.bonds.lookup target = some bond' ∧
    bond'.bondedAmount = bond.bondedAmount - r.2.slashed

/-- **When evidence against locked capital is accepted**: for every bond that still holds drops,
bonded or unbonding, and every valid evidence against its key, the slash succeeds and burns the
slash fraction if and only if the bond is not unbonding yet. -/
theorem slash_succeeds_iff {target : AccountID} {e1 e2 : Blob} {bond : ValidatorBond}
    (h : Admissible H flags s tx)
    (hbody : tx.body = .validatorSlash target kSlashOffenseDoubleSign (some e1) (some e2))
    (hbond : s.bonds.lookup target = some bond)
    (hlocked : bond.bondStatus = .bonded ∨ bond.bondStatus = .unbonding)
    (hamount : 0 < bond.bondedAmount) (howner : s.accounts.lookup bond.account ≠ none)
    (hevidence : verifyDoubleSignEvidence H e1 e2 target bond = true) :
    Slashed s target bond (applyTransaction H flags s tx) ↔ bond.bondStatus = .bonded := by
  constructor
  · intro hslashed
    obtain ⟨bond', hbond', hstatus, -⟩ :=
      (applyTransaction_outcome H flags s tx).of_slash hbody hslashed.succeeded
    obtain rfl := Option.some.inj (hbond.symm.trans hbond')
    exact hlocked.resolve_right hstatus
  · intro hstatus
    obtain ⟨s₁, hcharge⟩ := h.charge
    have hexists : s.accounts.lookup tx.account ≠ none := by
      have hseq := h.seqProxy
      simp only [checkSeqProxy, Except.bind_eq_ok, orFail_eq_ok] at hseq
      obtain ⟨root, hroot, -⟩ := hseq
      simp [hroot]
    have hcharged := charge_ok hcharge hexists
    have hbond₁ : s₁.bonds.lookup target = some bond := by rw [hcharged.same]; exact hbond
    obtain ⟨owner, howner₁⟩ := Option.ne_none_iff_exists'.mp
      ((charge_settled hcharge hexists).lookup_ne_none.mpr howner)
    have hclaim : preclaim H s tx = .ok () := by
      simp [preclaim, hbody, ValidatorSlash.preclaim, hbond, orFail, failIf, hstatus, hevidence,
        bind, Except.bind]
    obtain ⟨a, happly⟩ : ∃ a, doApply H s₁ tx = .ok a := by
      simp [doApply, hbody, ValidatorSlash.doApply, hbond₁, howner₁, orFail, failIf, hevidence, bind,
        Except.bind, pure, Except.pure]
    have hslash : tx.isSlash = true := by simp [STTx.isSlash, hbody]
    have ha := happly
    simp only [doApply, hbody] at ha
    obtain ⟨bond', hbond', rfl⟩ := ValidatorSlash.doApply_ok ha
    obtain rfl := Option.some.inj (hbond₁.symm.trans hbond')
    have hr := h.applyTransaction_eq hclaim hcharge happly rfl hslash (by
      rw [held_slash hbond']
      omega)
    have hwhole : (bond.bondedAmount * kSlashDoubleSignBps.toNat).tdiv kBpsDenom.toNat =
        bond.bondedAmount := Int.mul_tdiv_cancel _ (by decide)
    have hdrops : s₁.drops = s.drops := by rw [hcharged.same]
    rw [hr]
    refine ⟨by simp [receipt, Receipt.succeeded], ?_, ?_, ?_⟩
    · rw [hwhole]
      exact max_eq_left hamount.le
    · rw [ApplyContext.destroyXRP_eq]
      simp only [receipt, rawDestroyXRP, setBond, hdrops]
      ring
    · rw [ApplyContext.destroyXRP_eq]
      refine ⟨_, AList.lookup_insert _, ?_⟩
      simp only [receipt, slashedBond, max_eq_left hamount.le, sub_self]

namespace Sample

/-- Services that take a key of two bytes and one more byte for a validation of ledger 7. -/
def evidenceServices : Services :=
  { services with
    parseValidation := fun blob =>
      if blob.length = 3 then some ⟨blob.take 2, 7, BitVec.ofNat 256 (number (blob.drop 2))⟩
      else none }

def validation (n : UInt8) : STValidation := ⟨aliceKey, 7, BitVec.ofNat 256 n.toNat⟩

def idleChain : Chain :=
  .start
    { ledger with
      seq := 1000
      accounts := (AList.insert alice { account 3000000000 with ownerCount := 1 } ∅).insert bob
        (account 1000000)
      bonds := AList.insert (services.calcValidatorBondID aliceKey) (bond alice aliceKey) ∅
      dirs := AList.insert (alice, 0)
        ⟨[services.validatorBondKey (services.calcValidatorBondID aliceKey)], 0, 0⟩ ∅ }

def reportTx : STTx :=
  ⟨1, bob, none, 10, .seq 1, .validatorSlash (services.calcValidatorBondID aliceKey)
    kSlashOffenseDoubleSign (some (aliceKey ++ [1])) (some (aliceKey ++ [2]))⟩

def unbonded : Chain :=
  (idleChain.step evidenceServices (send alice 1 (.validatorUnbond aliceKey))).1

def aliceBond (c : Chain) : ValidatorBond :=
  (c.view.bonds.lookup (services.calcValidatorBondID aliceKey)).getD (bond alice aliceKey)

/-- Of the checks before the transactor's own, those that depend on the ledger. -/
private theorem admissible_report {view : Ledger}
    (hflight : invokePreflight evidenceServices view reportTx = .ok ())
    (hseq : checkSeqProxy view reportTx = .ok ()) (hfee : checkFee view reportTx = .ok ())
    (hcharge : ∃ s₁, charge evidenceServices view reportTx = .ok s₁)
    (hbalances : ∀ e ∈ view.accounts.entries, 0 ≤ e.2.balance ∧ e.2.balance ≤ kInitialXrp) :
    Admissible evidenceServices Sample.flags view reportTx where
  preflight := hflight
  seqProxy := hseq
  prior := rfl
  permission := rfl
  sign := rfl
  fee := hfee
  fee_lt := by decide
  charge := hcharge
  balances := Table.all_of_entries hbalances
  invariants _ _ := rfl
  oversize := rfl
  dryRun := rfl

end Sample

theorem slash_succeeds_bonded :
    Slashed Sample.idleChain.view (Sample.services.calcValidatorBondID Sample.aliceKey)
      (Sample.bond Sample.alice Sample.aliceKey)
      (applyTransaction Sample.evidenceServices Sample.flags Sample.idleChain.view
        Sample.reportTx) := by
  have hbody : Sample.reportTx.body =
      .validatorSlash (Sample.services.calcValidatorBondID Sample.aliceKey)
        kSlashOffenseDoubleSign (some (Sample.aliceKey ++ [1])) (some (Sample.aliceKey ++ [2])) := rfl
  refine (slash_succeeds_iff (Sample.admissible_report ?_ ?_ ?_ ⟨_, rfl⟩ ?_) hbody ?_ (.inl rfl)
    ?_ ?_ ?_).mpr rfl <;> decide +kernel

/-- Once the validator has asked to unbond, its bond is still locked and whole, and the same
report is turned down as a duplicate. -/
theorem slash_refused_unbonding :
    ∃ bond, Sample.unbonded.view.bonds.lookup
        (Sample.services.calcValidatorBondID Sample.aliceKey) = some bond ∧
      bond.bondStatus = .unbonding ∧ bond.bondedAmount = kQxrpMinBondDrops ∧
      verifyDoubleSignEvidence Sample.evidenceServices (Sample.aliceKey ++ [1])
        (Sample.aliceKey ++ [2]) (Sample.services.calcValidatorBondID Sample.aliceKey) bond = true ∧
      Admissible Sample.evidenceServices Sample.flags Sample.unbonded.view Sample.reportTx ∧
      (applyTransaction Sample.evidenceServices Sample.flags Sample.unbonded.view
        Sample.reportTx).2.ter = .tecDuplicate ∧
      ¬Slashed Sample.unbonded.view (Sample.services.calcValidatorBondID Sample.aliceKey) bond
        (applyTransaction Sample.evidenceServices Sample.flags Sample.unbonded.view
          Sample.reportTx) := by
  refine ⟨Sample.aliceBond Sample.unbonded, by decide +kernel, by decide +kernel,
    by decide +kernel, by decide +kernel, Sample.admissible_report ?_ ?_ ?_ ⟨_, rfl⟩ ?_,
    by decide +kernel, fun h => ?_⟩
  · decide +kernel
  · decide +kernel
  · decide +kernel
  · decide +kernel
  · have hfails : (applyTransaction Sample.evidenceServices Sample.flags Sample.unbonded.view
        Sample.reportTx).2.succeeded = false := by decide +kernel
    rw [h.succeeded] at hfails
    cases hfails

/-! ### One offence, one slash -/

/-- The two validations a slash submits as evidence. -/
def evidenceOf (H : Services) (tx : STTx) : Option (STValidation × STValidation) :=
  match tx.body with
  | .validatorSlash _ _ e1 e2 => do
    let v1 ← parseValidationEvidence H (e1.getD [])
    let v2 ← parseValidationEvidence H (e2.getD [])
    return (v1, v2)
  | _ => none

/-- The step is a successful slash for a pair of validations, in either order. -/
def SlashesFor (H : Services) (v1 v2 : STValidation) (c : Chain) : Step → Prop
  | .tx flags tx => (evidenceOf H tx = some (v1, v2) ∨ evidenceOf H tx = some (v2, v1)) ∧
      (applyTransaction H flags c.view tx).2.succeeded = true
  | _ => False

instance (H : Services) (v1 v2 : STValidation) (c : Chain) :
    ∀ st, Decidable (SlashesFor H v1 v2 c st)
  | .tx .. => inferInstanceAs (Decidable (_ ∧ _))
  | .close _ | .outside .. => inferInstanceAs (Decidable False)

/-- The step does not register a key whose bond has the id `id` and is gone. -/
def NotRegisteredAgain (H : Services) (id : AccountID) (c : Chain) : Step → Prop
  | .tx _ tx => ∀ publicKey consensusKey, tx.body = .validatorRegister publicKey consensusKey →
      H.calcValidatorBondID consensusKey = id → c.view.bonds.lookup id ≠ none
  | _ => True

/-- The bond is on its way out or gone. -/
def Ledger.LeftOrLeaving (s : Ledger) (id : AccountID) : Prop :=
  ∀ bond, s.standing id = some bond → bond.bondStatus = .unbonding

private theorem target_of_evidence {e1 e2 : Blob} {target : AccountID} {bond : ValidatorBond}
    {v1 v2 : STValidation} (h : verifyDoubleSignEvidence H e1 e2 target bond = true)
    (h1 : parseValidationEvidence H e1 = some v1) (h2 : parseValidationEvidence H e2 = some v2) :
    target = H.calcValidatorBondID v1.signerPublic ∧ v1.signerPublic = v2.signerPublic := by
  simp only [verifyDoubleSignEvidence, h1, h2, Bool.and_eq_true, decide_eq_true_eq] at h
  exact ⟨h.1.1.2.symm, h.1.1.1.1.2⟩

private theorem SlashesFor.bond {v1 v2 : STValidation} {c : Chain} {st : Step}
    (h : SlashesFor H v1 v2 c st) :
    ∃ bond, c.view.standing (H.calcValidatorBondID v1.signerPublic) = some bond ∧
      bond.bondStatus ≠ .unbonding ∧
      (c.step H st).1.view.LeftOrLeaving (H.calcValidatorBondID v1.signerPublic) := by
  cases st with
  | close => cases h
  | outside => cases h
  | tx flags tx =>
    obtain ⟨hevidence, hok⟩ := h
    obtain ⟨target, offense, e1, e2, hbody⟩ : ∃ target offense e1 e2,
        tx.body = .validatorSlash target offense e1 e2 := by
      unfold evidenceOf at hevidence
      split at hevidence
      · exact ⟨_, _, _, _, by assumption⟩
      · simp at hevidence
    simp only [evidenceOf, hbody, Option.bind_eq_bind, Option.bind_eq_some_iff, Option.pure_def,
      Option.some.injEq, Prod.mk.injEq] at hevidence
    obtain ⟨bond, hbond, hstatus, hverify, hafter⟩ :=
      (applyTransaction_outcome H flags c.view tx).of_slash hbody hok
    have htarget : target = H.calcValidatorBondID v1.signerPublic := by
      rcases hevidence with ⟨_, h1, _, h2, rfl, rfl⟩ | ⟨_, h1, _, h2, rfl, rfl⟩
      · exact (target_of_evidence hverify h1 h2).1
      · obtain ⟨htarget, hsigner⟩ := target_of_evidence hverify h1 h2
        rw [htarget, hsigner]
    rw [← htarget]
    refine ⟨bond.standing, standing_of_lookup hbond, hstatus, fun bond' hbond' => ?_⟩
    obtain rfl := Option.some.inj (hbond'.symm.trans (standing_of_lookup hafter))
    rfl

private theorem Ledger.LeftOrLeaving.step {c : Chain} {st : Step} {id : AccountID}
    (h : c.view.LeftOrLeaving id) (hst : NotRegisteredAgain H id c st) :
    (c.step H st).1.view.LeftOrLeaving id := by
  cases st with
  | close store =>
    intro bond hbond
    rw [Chain.standing_close] at hbond
    exact h bond hbond
  | outside accounts holdings => exact h
  | tx flags tx =>
    intro bond hbond
    have hmove := (applyTransaction_outcome H flags c.view tx).bondMove id
    change ((applyTransaction H flags c.view tx).1.bonds.lookup id).map _ = _ at hbond
    generalize (applyTransaction H flags c.view tx).1.bonds.lookup id = after at hmove hbond
    have hold : ∀ {b}, c.view.bonds.lookup id = some b → b.bondStatus = .unbonding :=
      fun {b} hb => h b.standing (standing_of_lookup hb)
    cases hmove with
    | same => exact h bond hbond
    | register hbody hid hnew => exact absurd hnew (hst _ _ hbody hid)
    | bond hbody hid hb _ hstatus => cases hstatus.symm.trans (hold hb)
    | unbond hbody hid hb _ hstatus => cases hstatus.symm.trans (hold hb)
    | slash hbody hb hstatus => exact absurd (hold hb) hstatus
    | release => cases hbond
    | claim hbody hid hb hstatus => cases hstatus.symm.trans (hold hb)

/-- **One offence is punished once**, as long as the offender's key is not registered again: no
pair of conflicting validations makes two slashes succeed along a run that registers the key
no more once it has been slashed and its bond is gone. -/
theorem slash_once_run (v1 v2 : STValidation) {c : Chain} {steps : List Step}
    (h : Run.Since (Chain.step H) (SlashesFor H v1 v2)
      (NotRegisteredAgain H (H.calcValidatorBondID v1.signerPublic)) c steps) :
    Run.AtMostOnce (Chain.step H) (SlashesFor H v1 v2) c steps := by
  refine Run.since_of_guard (T := fun _ _ => True) (fun _ => True)
    (fun c : Chain => c.view.LeftOrLeaving (H.calcValidatorBondID v1.signerPublic))
    (fun _ _ _ _ => trivial) (fun c st _ _ hslash => ?_) (fun c st _ hleft _ hst => ?_) trivial
    (Run.always_of_forall fun _ _ => trivial) h
  · obtain ⟨_, -, -, hleft⟩ := hslash.bond
    exact hleft
  · refine ⟨fun hslash => ?_, hleft.step hst⟩
    obtain ⟨bond, hbond, hstatus, -⟩ := hslash.bond
    exact hstatus (hleft bond hbond)

namespace Sample

def report (seq : UInt32) (n m : UInt8) : Step :=
  send bob seq (.validatorSlash (services.calcValidatorBondID aliceKey) kSlashOffenseDoubleSign
    (some (aliceKey ++ [n])) (some (aliceKey ++ [m])))

end Sample

/-- A second report of the same two validations, in the other order, is turned down. -/
theorem slash_once_two_reports :
    SlashesFor Sample.evidenceServices (Sample.validation 1) (Sample.validation 2)
        Sample.idleChain (Sample.report 1 1 2) ∧
      Run.AtMostOnce (Chain.step Sample.evidenceServices)
        (SlashesFor Sample.evidenceServices (Sample.validation 1) (Sample.validation 2))
        Sample.idleChain [Sample.report 1 1 2, .close .empty, Sample.report 2 2 1] := by
  refine ⟨by decide +kernel, slash_once_run _ _ (Run.since_of_always ⟨?_, trivial, ?_, trivial⟩)⟩
  · intro _ _ hbody
    cases hbody
  · intro _ _ hbody
    cases hbody

/-! ### An offence punished twice -/

theorem Chain.view_close_of_idle {c : Chain} (store : Validations) (hroll : c.rollsOver H = false)
    (hepoch : c.view.epoch = none) (hidle : targets c.view = []) :
    (c.step H (.close store)).1.view =
      { updateSkipList c.view (H.ledgerHash c.parent) with seq := c.view.seq + 1 } := by
  have hscored : applyValidatorScoring H.toHashes store c.view c.parent c.view.seq c.view.rules =
      c.view := by
    unfold applyValidatorScoring
    split
    · rfl
    · simp only [hidle, List.map_nil, writeBonds, List.foldl_nil, hepoch, Option.map_none]
      exact congrArg (fun e => { c.view with epoch := e }) hepoch.symm
  have hkeys : proposalKeys c.view = [] := by simp [proposalKeys, hepoch]
  have hclosed : closeHooks H.toHashes store c.parent c.view c.view.seq c.view.rules = c.view := by
    simp only [closeHooks, applyRewardEpoch_of_not hroll, hscored, hkeys, applyGovernanceTally,
      pruneProposals, or_true, true_or, if_true]
  rw [view_close, openNext, closed, hclosed]
  rfl

theorem Chain.view_closes_of_idle (hash : ∀ s, H.ledgerHash s = 0) (n : ℕ) {c : Chain}
    (htreasury : c.view.balanceOf H.getTreasuryAccountID ≤ 0) (hepoch : c.view.epoch = none)
    (hidle : targets c.view = []) (hskip : c.view.skip = some (List.replicate 256 0)) :
    (Run.final (Chain.step H) c (List.replicate n (.close .empty))).view =
      { c.view with seq := c.view.seq + UInt32.ofNat n } := by
  induction n generalizing c with
  | zero => simp
  | succ n ih =>
    have hroll : c.rollsOver H = false := by
      simp [Chain.rollsOver, RewardEpoch.rollsOver, not_lt.mpr htreasury]
    have hview := Chain.view_close_of_idle (H := H) .empty hroll hepoch hidle
    have hlist : (List.replicate 256 (0 : UInt256)).tail ++ [0] = List.replicate 256 0 := by
      rw [List.tail_replicate, ← List.replicate_succ']
    have hsame : updateSkipList c.view (H.ledgerHash c.parent) = c.view := by
      simp only [updateSkipList, hskip, hash, Option.getD_some, List.length_replicate, if_true,
        hlist]
      rw [← hskip]
    have hnext : (c.step H (.close .empty)).1.view = { c.view with seq := c.view.seq + 1 } := by
      rw [hview, hsame]
    have hadd : c.view.seq + 1 + UInt32.ofNat n = c.view.seq + UInt32.ofNat (n + 1) := by
      rw [UInt32.ofNat_add, UInt32.add_assoc, UInt32.add_comm 1]
      rfl
    rw [List.replicate_succ, Run.final_cons, ih, hnext]
    · dsimp only
      rw [hadd]
    all_goals rw [hnext]
    · exact htreasury
    · exact hepoch
    · exact hidle
    · exact hskip

namespace Sample

/-- The offence is reported, the lock runs out, the bond is released, the key comes back, and the
offence is reported again. -/
def reportTwice : List Step :=
  report 1 1 2 :: (List.replicate kUnbondingLockLedgers.toNat (.close .empty) ++
    [send bob 2 (.releaseBond (services.calcValidatorBondID aliceKey)),
      send alice 1 (.validatorRegister aliceKey aliceKey),
      send alice 2 (.validatorBond aliceKey kQxrpMinBondDrops), report 3 2 1])

end Sample

/-- A validator that comes back is slashed a second time for the same two validations. -/
theorem slash_twice : ¬Run.AtMostOnce (Chain.step Sample.evidenceServices)
    (SlashesFor Sample.evidenceServices (Sample.validation 1) (Sample.validation 2))
    Sample.idleChain Sample.reportTwice := by
  intro h
  have hfirst : SlashesFor Sample.evidenceServices (Sample.validation 1) (Sample.validation 2)
      Sample.idleChain (Sample.report 1 1 2) := by decide +kernel
  have hrest := (Run.always_append.mp (h.1 hfirst)).2
  have hview := Chain.view_closes_of_idle (H := Sample.evidenceServices) (fun _ => rfl)
    kUnbondingLockLedgers.toNat
    (c := (Sample.idleChain.step Sample.evidenceServices (Sample.report 1 1 2)).1)
    (by decide +kernel) (by decide +kernel) (by decide +kernel) (by decide +kernel)
  generalize Run.final _ _ (List.replicate _ _) = c at hrest hview
  obtain ⟨parent, view⟩ := c
  dsimp only at hview
  subst hview
  refine hrest.2.2.2.1 ?_
  simp only [SlashesFor, Sample.report, Sample.send, Chain.step]
  decide +kernel

end FalconLedger
