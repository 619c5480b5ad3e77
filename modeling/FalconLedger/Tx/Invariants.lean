import FalconLedger.Tx.ApplyContext

/-!
# Invariant checkers

`TransactionFeeCheck`, `XRPNotCreated`, `XRPBalanceChecks` and `QXRPDropConservation`, on the tables
before and after. The checkers of entries the fork does not write are `Services.otherInvariants`.
Both conservation checkers allow a slash to lose more than the fee, and nothing else; what a passed
check gives is `checkInvariants_ok`.
-/

namespace FalconLedger

/-- `tx.getTxnType() == ttVALIDATOR_SLASH`. -/
def STTx.isSlash (tx : STTx) : Bool :=
  match tx.body with
  | .validatorSlash .. => true
  | _ => false

namespace Invariants

/-- The net change in drops over the entries that hold any. -/
def dropsChange (before after : Ledger) : Int :=
  Table.netChange AccountRoot.balance before.accounts after.accounts +
      Table.netChange ValidatorBond.bondedAmount before.bonds after.bonds +
    Table.netChange AccountName.bondedAmount before.names after.names

/-- The shared test of both conservation checkers: no drops created, and the loss is the fee
(for a slash, at least the fee). -/
def netChangeMatchesFee (tx : STTx) (drops fee : Int) : Bool :=
  if 0 < drops then false
  -- a slash burns on top of the fee, and how much it burns is not looked at
  else if tx.isSlash then decide (fee ≤ -drops)
  else decide (-drops = fee)

def xrpNotCreated (before after : Ledger) (tx : STTx) (fee : Int) : Bool :=
  netChangeMatchesFee tx (dropsChange before after) fee

def qxrpDropConservation (before after : Ledger) (tx : STTx) (fee : Int) : Bool :=
  netChangeMatchesFee tx (dropsChange before after) fee

/-- A balance no account may have. -/
def isBad (drops : Int) : Bool := decide (kInitialXrp < drops) || decide (drops < 0)

/-- Every changed account has a legal balance, before and after. -/
def xrpBalanceChecks (before after : Ledger) : Bool :=
  (Table.touchedKeys before.accounts after.accounts).all fun id =>
    let old := before.accounts.lookup id
    let new := after.accounts.lookup id
    decide (old = new) || !(old.any fun r => isBad r.balance) && !(new.any fun r => isBad r.balance)

/-- The fee is not negative, less than the whole supply, and no more than was authorised. -/
def transactionFeeCheck (tx : STTx) (fee : Int) : Bool :=
  decide (0 ≤ fee) && decide (fee < kInitialXrp) && decide (fee ≤ tx.fee)

/-- The second failure in a row is final. -/
def failInvariantCheck (result : TER) : TER :=
  if result = .tecInvariantFailed ∨ result = .tefInvariantFailed then .tefInvariantFailed
  else .tecInvariantFailed

def checkInvariants (H : Services) (before after : Ledger) (tx : STTx) (result : TER) (fee : Int) :
    TER :=
  if transactionFeeCheck tx fee && xrpNotCreated before after tx fee &&
      xrpBalanceChecks before after && qxrpDropConservation before after tx fee &&
      H.otherInvariants before after tx result fee then result
  else failInvariantCheck result

/-! ### What a passed check says -/

variable {H : Services} {before after : Ledger} {tx : STTx} {result : TER} {fee : Int}

theorem dropsChange_eq (before after : Ledger) :
    dropsChange before after = after.held - before.held := by
  simp only [dropsChange, Table.netChange_eq, Ledger.held]
  ring

/-- The facts a transaction that passes every checker satisfies. -/
structure Passed (before after : Ledger) (tx : STTx) (fee : Int) : Prop where
  fee_nonneg : 0 ≤ fee
  fee_lt : fee < kInitialXrp
  fee_le : fee ≤ tx.fee
  held_le : after.held + fee ≤ before.held
  held_eq : tx.isSlash = false → after.held + fee = before.held
  balances : ∀ id, before.accounts.lookup id ≠ after.accounts.lookup id →
    0 ≤ before.balanceOf id ∧ before.balanceOf id ≤ kInitialXrp ∧
      0 ≤ after.balanceOf id ∧ after.balanceOf id ≤ kInitialXrp

private theorem legal_of_not_bad {t : Table AccountID AccountRoot} {id : AccountID}
    (h : ((t.lookup id).any fun r => isBad r.balance) = false) :
    0 ≤ Table.weightAt AccountRoot.balance t id ∧
      Table.weightAt AccountRoot.balance t id ≤ kInitialXrp := by
  rcases ht : t.lookup id with _ | r
  · rw [Table.weightAt_of_none ht]
    decide
  · rw [ht] at h
    rw [Table.weightAt_of_lookup ht]
    simpa [isBad, and_comm] using h

private theorem xrpBalanceChecks_apply (h : xrpBalanceChecks before after = true) {id : AccountID}
    (hne : before.accounts.lookup id ≠ after.accounts.lookup id) :
    0 ≤ before.balanceOf id ∧ before.balanceOf id ≤ kInitialXrp ∧
      0 ≤ after.balanceOf id ∧ after.balanceOf id ≤ kInitialXrp := by
  have hmem : id ∈ Table.touchedKeys before.accounts after.accounts := by
    by_contra hnot
    simp only [Table.touchedKeys, List.mem_append, List.mem_filter, decide_eq_true_eq, not_or,
      not_and, not_not] at hnot
    have hb : before.accounts.lookup id = none :=
      AList.lookup_eq_none.mpr fun hm => hnot.1 (AList.mem_keys.mp hm)
    have ha : after.accounts.lookup id = none :=
      AList.lookup_eq_none.mpr fun hm => hnot.1 (hnot.2 (AList.mem_keys.mp hm))
    exact hne (hb.trans ha.symm)
  have hall := List.all_eq_true.mp h id hmem
  simp only [hne, decide_false, Bool.false_or, Bool.and_eq_true, Bool.not_eq_true'] at hall
  have hold := legal_of_not_bad hall.1
  have hnew := legal_of_not_bad hall.2
  exact ⟨hold.1, hold.2, hnew.1, hnew.2⟩

/-- **A result that comes out of the checkers as success or as a claimed fee has passed
them**, unless it is the failure they report themselves. -/
theorem checkInvariants_ok (h : checkInvariants H before after tx result fee = result)
    (hr : result ≠ .tefInvariantFailed) : Passed before after tx fee := by
  unfold checkInvariants at h
  split_ifs at h with hall
  · simp only [Bool.and_eq_true] at hall
    obtain ⟨⟨⟨⟨hfee, hnet⟩, hbal⟩, -⟩, -⟩ := hall
    simp only [transactionFeeCheck, Bool.and_eq_true, decide_eq_true_eq] at hfee
    simp only [xrpNotCreated, netChangeMatchesFee, dropsChange_eq] at hnet
    obtain ⟨⟨hnonneg, hlt⟩, hle⟩ := hfee
    refine ⟨hnonneg, hlt, hle, ?_, fun hslash => ?_, fun id => xrpBalanceChecks_apply hbal⟩
    · split_ifs at hnet <;> simp only [decide_eq_true_eq] at hnet <;> omega
    · have hnet' : ¬0 < after.held - before.held ∧ -(after.held - before.held) = fee := by
        simpa [hslash] using hnet
      omega
  · unfold failInvariantCheck at h
    split_ifs at h with hfail
    · exact absurd h.symm hr
    · exact absurd (Or.inl h.symm) hfail

theorem checkInvariants_cases (H : Services) (before after : Ledger) (tx : STTx) (result : TER)
    (fee : Int) : checkInvariants H before after tx result fee = result ∨
      checkInvariants H before after tx result fee = .tecInvariantFailed ∨
      checkInvariants H before after tx result fee = .tefInvariantFailed := by
  unfold checkInvariants failInvariantCheck
  split_ifs <;> simp

end Invariants

end FalconLedger
