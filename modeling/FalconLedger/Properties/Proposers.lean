import FalconLedger.Close.BuildLedger
import FalconLedger.Tx.Outcome

/-!
# Who proposes

`GovernanceVote` asks for a bond that is bonded and belongs to the voter. `GovernanceProposal` asks for
one that is bonded, and of nobody in particular: any account can propose under the key of any bonded
validator (`proposal_by_stranger`).
-/

namespace FalconLedger

open Transactor

variable {H : Services} {s : Ledger} {tx : STTx} {flags : ApplyFlags} {consensusKey : Blob}
  {type value : UInt32}

/-- The key names a bond that is bonded and belongs to the account. -/
def Ledger.OwnsBonded (H : Hashes) (s : Ledger) (account : AccountID) (consensusKey : Blob) : Prop :=
  ∃ bond, s.bonds.lookup (H.calcValidatorBondID consensusKey) = some bond ∧
    bond.bondStatus = .bonded ∧ bond.account = account

/-- The bond under the key has been registered by another account. -/
def Ledger.AnothersBond (H : Hashes) (s : Ledger) (account : AccountID) (consensusKey : Blob) : Prop :=
  ∃ bond, s.bonds.lookup (H.calcValidatorBondID consensusKey) = some bond ∧ bond.account ≠ account

theorem bonded_of_proposed (hbody : tx.body = .governanceProposal consensusKey type value)
    (h : (applyTransaction H flags s tx).2.succeeded = true) :
    ∃ bond, s.bonds.lookup (H.calcValidatorBondID consensusKey) = some bond ∧
      bond.bondStatus = .bonded := by
  have hout := applyTransaction_outcome H flags s tx
  generalize applyTransaction H flags s tx = r at hout h
  cases hout with
  | unapplied => cases h
  | feeOnly hreset hpass hter =>
    rename_i ter
    have hsuccess : ter = .tesSuccess := of_decide_eq_true (Bool.and_eq_true_iff.mp h).2
    rw [hsuccess] at hter
    cases hter
  | success hflight hclaim =>
    have hpre := preclaim_of_invokePreclaim hclaim
    -- the sender does not occur in what the transactor checks
    simp only [preclaim, hbody, GovernanceProposal.preclaim, Except.bind_eq_ok, orFail_eq_ok,
      failIf_eq_ok, not_not] at hpre
    obtain ⟨bond, hbond, hstatus⟩ := hpre
    exact ⟨bond, hbond, hstatus⟩

/-- **When a proposal is its bond owner's.** A proposal that succeeds names a bonded key of the account
that has sent it if and only if that key's bond is not another account's. -/
theorem proposal_owner_iff (hbody : tx.body = .governanceProposal consensusKey type value)
    (h : (applyTransaction H flags s tx).2.succeeded = true) :
    s.OwnsBonded H.toHashes tx.account consensusKey ↔
      ¬s.AnothersBond H.toHashes tx.account consensusKey := by
  obtain ⟨bond, hbond, hstatus⟩ := bonded_of_proposed hbody h
  constructor
  · rintro ⟨own, hown, -, howner⟩ ⟨another, hanother, hne⟩
    rw [hown] at hanother
    obtain rfl := Option.some.inj hanother
    exact hne howner
  · intro hnot
    refine ⟨bond, hbond, hstatus, ?_⟩
    by_contra hne
    exact hnot ⟨bond, hbond, hne⟩

namespace Sample

def aliceKeyTx (sender : AccountID) (body : TxBody) : STTx := ⟨1, sender, none, 10, .seq 1, body⟩

def strangerLedger : Ledger := { ledger with accounts := ledger.accounts.insert 6 (account 1000000) }

end Sample

/-- `alice` proposes under her own key. -/
theorem proposal_by_owner :
    (applyTransaction Sample.services Sample.flags Sample.strangerLedger
        (Sample.aliceKeyTx Sample.alice (.governanceProposal Sample.aliceKey 1 6000))).2.succeeded =
          true ∧
      Sample.strangerLedger.OwnsBonded Sample.services.toHashes Sample.alice Sample.aliceKey := by
  have hok : (applyTransaction Sample.services Sample.flags Sample.strangerLedger
      (Sample.aliceKeyTx Sample.alice (.governanceProposal Sample.aliceKey 1 6000))).2.succeeded =
        true := by decide +kernel
  refine ⟨hok, (proposal_owner_iff rfl hok).mpr ?_⟩
  rintro ⟨bond, hbond, hne⟩
  have hown : Sample.strangerLedger.bonds.lookup
      (Sample.services.calcValidatorBondID Sample.aliceKey) =
        some (Sample.bond Sample.alice Sample.aliceKey) := by decide +kernel
  rw [hown] at hbond
  obtain rfl := Option.some.inj hbond
  exact hne rfl

/-- An account without any bond proposes under the key of `alice`, where a vote of it is refused. -/
theorem proposal_by_stranger :
    (applyTransaction Sample.services Sample.flags Sample.strangerLedger
        (Sample.aliceKeyTx 6 (.governanceProposal Sample.aliceKey 1 6000))).2.succeeded = true ∧
      ¬Sample.strangerLedger.OwnsBonded Sample.services.toHashes 6 Sample.aliceKey ∧
      ∀ proposalID, GovernanceVote.preclaim Sample.services Sample.strangerLedger
        (Sample.aliceKeyTx 6 (.governanceVote Sample.aliceKey proposalID 1)) Sample.aliceKey
        proposalID = .error .tecNoPermission := by
  have hown : Sample.strangerLedger.bonds.lookup
      (Sample.services.calcValidatorBondID Sample.aliceKey) =
        some (Sample.bond Sample.alice Sample.aliceKey) := by decide +kernel
  refine ⟨by decide +kernel, ?_, fun proposalID => ?_⟩
  · rintro ⟨bond, hbond, -, howner⟩
    rw [hown] at hbond
    obtain rfl := Option.some.inj hbond
    exact absurd howner (by decide)
  · rw [GovernanceVote.preclaim, hown]
    rfl

end FalconLedger
