import FalconLedger.Tx.Outcome

/-!
# The effect of a transactor

What `doApply` can do, over all transaction types at once. `doApply_effect` proves that every
successful `doApply` has one of the effects listed; the results about runs are derived by cases.
-/

namespace FalconLedger

open Ledger

/-- The three claim types. -/
def STTx.isClaim (tx : STTx) : Bool :=
  match tx.body with
  | .claimReward .. | .claimLpReward .. | .claimAmmLpReward .. => true
  | _ => false

/-- Everything a successful `doApply` can have done. -/
inductive Effect (H : Services) (s : Ledger) (tx : STTx) : Applied → Prop
  /-- A bond or a name was registered, changed or released. -/
  | registry {a : Applied}
      (hview : a.view =
        { s with
          accounts := a.view.accounts
          bonds := a.view.bonds
          names := a.view.names
          dirs := a.view.dirs })
      (hslashed : a.slashed = 0) (hpaid : a.paid = 0)
      (hbalance : ∀ id, id ≠ tx.account → s.balanceOf id ≤ a.view.balanceOf id) :
      Effect H s tx a
  /-- A bond was burned. -/
  | slash {target : AccountID} {bond : FalconLedger.ValidatorBond} (hslash : tx.isSlash = true)
      (hbond : s.bonds.lookup target = some bond) :
      Effect H s tx
        { view := (s.setBond target (ValidatorSlash.slashedBond s.seq tx bond)).rawDestroyXRP
            (max bond.bondedAmount 0)
          slashed := max bond.bondedAmount 0 }
  /-- A claim rounded to zero. -/
  | nothing : Effect H s tx { view := s }
  /-- A claim was paid. -/
  | claim {epoch : RewardEpoch} {share pay : Int} {s₁ : Ledger}
      {bonds : Table AccountID ValidatorBond} {lpStates : Table (AccountID × UInt256) PopLpState}
      (hclaim : tx.isClaim = true) (hepoch : s.epoch = some epoch) (hshare : 0 < share)
      (hpay : payClaim H s tx epoch share = .ok (s₁, pay)) :
      Effect H s tx { view := { s₁ with bonds, lpStates }, paid := pay }
  /-- A proposal was created and listed. -/
  | proposal {type value : UInt32} {page : UInt64} {s₁ : Ledger} {root : AccountRoot}
      (hsame : SameButDirs s s₁) (hroot : s.accounts.lookup tx.account = some root)
      (hnew : s.proposals.lookup (GovernanceProposal.proposalKey H.toHashes tx) = none) :
      Effect H s tx
        { view :=
            { s₁.setAccount tx.account { root with ownerCount := root.ownerCount + 1 } with
              proposals := s.proposals.insert (GovernanceProposal.proposalKey H.toHashes tx)
                (GovernanceProposal.newProposal s.seq tx type value page)
              epoch := s.epoch.map (GovernanceProposal.listProposal s.seq tx
                (GovernanceProposal.proposalKey H.toHashes tx)) } }
  /-- A vote was cast. -/
  | vote {proposalID : UInt256} {proposal : FalconLedger.GovernanceProposal} {bondID : AccountID}
      {voteYes : Bool} {weight : UInt32} (hproposal : s.proposals.lookup proposalID = some proposal) :
      Effect H s tx
        { view :=
            { s with
              proposals := s.proposals.insert proposalID
                (GovernanceVote.castVote s.seq tx bondID voteYes weight proposal) } }

variable {H : Services} {s : Ledger} {tx : STTx} {a : Applied}

/-- Writing one account, whose balance does not fall unless it is the sender's. -/
private theorem balance_mono {t : Table AccountID AccountRoot} {v : Ledger} {id : AccountID}
    {root root' : AccountRoot} (hv : v.accounts = t.insert id root') (ht : t = s.accounts)
    (hroot : s.accounts.lookup id = some root)
    (hle : id ≠ tx.account → root.balance ≤ root'.balance) :
    ∀ id', id' ≠ tx.account → s.balanceOf id' ≤ v.balanceOf id' := by
  intro id' hid'
  have heq : v.balanceOf id' = (s.setAccount id root').balanceOf id' := by
    rw [balanceOf, hv, ht, balanceOf, setAccount]
  rw [heq]
  by_cases hid : id' = id
  · subst hid
    rw [balanceOf_setAccount_self, balanceOf_of_lookup hroot]
    exact hle hid'
  · rw [balanceOf_setAccount_of_ne hid]

private theorem release_balance (root : AccountRoot) (amount : Int) :
    root.balance ≤ (root.release amount).balance := by
  simp only [AccountRoot.release]
  split_ifs <;> omega

private theorem effect_markLpClaimed {epoch : RewardEpoch} {key : UInt256} {share : ℕ}
    (hclaim : tx.isClaim = true) (hepoch : s.epoch = some epoch)
    (h : settleLpClaim H s tx epoch key share = .ok a) :
    Effect H s tx a := by
  rcases settleLpClaim_ok h with ⟨-, rfl⟩ | ⟨hpos, s₁, pay, hpay, rfl⟩
  · exact .nothing
  · exact .claim hclaim hepoch (by exact_mod_cast hpos) hpay

/-- **Every successful `doApply` is one of the listed effects.** -/
theorem doApply_effect (h : Transactor.doApply H s tx = .ok a) : Effect H s tx a := by
  unfold Transactor.doApply at h
  split at h
  · obtain ⟨page, s₁, root, ⟨hsame, -⟩, hroot, -, rfl⟩ := ValidatorRegister.doApply_ok h
    refine .registry ?_ rfl rfl (balance_mono rfl hsame.accounts hroot fun _ => le_rfl)
    rw [hsame]
    simp [setAccount, setBond]
  · obtain ⟨root, bond, hroot, -, -, rfl⟩ := ValidatorBond.doApply_ok h
    refine .registry ?_ rfl rfl (balance_mono rfl rfl hroot fun hne => absurd rfl hne)
    simp [setAccount, setBond]
  · obtain ⟨bond, -, rfl⟩ := ValidatorUnbond.doApply_ok h
    exact .registry rfl rfl rfl fun _ _ => le_rfl
  · rename_i heq
    obtain ⟨bond, hbond, rfl⟩ := ValidatorSlash.doApply_ok h
    exact .slash (by simp [STTx.isSlash, heq]) hbond
  · obtain ⟨bond, root, s₁, ⟨hsame, -⟩, -, hroot, rfl⟩ := ReleaseBond.doApply_ok h
    refine .registry ?_ rfl rfl (balance_mono rfl hsame.accounts hroot fun _ => release_balance root _)
    rw [hsame]
    simp [setAccount]
  · rename_i heq
    obtain ⟨bond, epoch, -, hepoch, -, -, ⟨-, rfl⟩ | ⟨hpos, s₁, pay, hpay, rfl⟩⟩ :=
      ClaimReward.doApply_ok h
    · exact .nothing
    · exact .claim (by simp [STTx.isClaim, heq]) hepoch hpos hpay
  · rename_i heq
    obtain ⟨_, epoch, _, -, hepoch, -, -, h⟩ := ClaimLPReward.doApply_ok h
    exact effect_markLpClaimed (by simp [STTx.isClaim, heq]) hepoch h
  · rename_i heq
    obtain ⟨_, epoch, -, hepoch, -, -, h⟩ := ClaimAmmLpReward.doApply_ok h
    exact effect_markLpClaimed (by simp [STTx.isClaim, heq]) hepoch h
  · obtain ⟨name, page, s₁, root, -, ⟨hsame, -⟩, hroot, -, -, rfl⟩ := NameSet.doApply_ok h
    refine .registry ?_ rfl rfl (balance_mono rfl hsame.accounts hroot fun hne => absurd rfl hne)
    rw [hsame]
    simp [setAccount]
  · obtain ⟨key, entry, -, -, rfl⟩ := NameUnbond.doApply_ok h
    exact .registry rfl rfl rfl fun _ _ => le_rfl
  · obtain ⟨name, entry, root, s₁, -, ⟨hsame, -⟩, -, hroot, rfl⟩ := NameRelease.doApply_ok h
    refine .registry ?_ rfl rfl (balance_mono rfl hsame.accounts hroot fun _ => release_balance root _)
    rw [hsame]
    simp [setAccount]
  · obtain ⟨page, s₁, root, ⟨hsame, -⟩, hroot, hnew, rfl⟩ := GovernanceProposal.doApply_ok h
    exact .proposal hsame hroot hnew
  · obtain ⟨proposal, bond, hproposal, -, rfl⟩ := GovernanceVote.doApply_ok h
    exact .vote hproposal

theorem doApply_drops (h : Transactor.doApply H s tx = .ok a) :
    a.view.drops = s.drops - a.slashed := by
  cases doApply_effect h with
  | registry hview hslashed =>
    rw [hview, hslashed]
    simp
  | slash => rfl
  | nothing => simp
  | claim _ _ _ hpay =>
    obtain ⟨_, _, -, -, -, -, -, rfl⟩ := payClaim_ok hpay
    simp [payOut, setAccount]
  | proposal hsame =>
    rw [hsame]
    simp [setAccount]
  | vote => simp

private theorem doApply_header (h : Transactor.doApply H s tx = .ok a) :
    a.view.seq = s.seq ∧ a.view.rules = s.rules := by
  cases doApply_effect h with
  | registry hview => exact ⟨by rw [hview], by rw [hview]⟩
  | slash => exact ⟨rfl, rfl⟩
  | nothing => exact ⟨rfl, rfl⟩
  | claim _ _ _ hpay =>
    obtain ⟨_, _, -, -, -, -, -, rfl⟩ := payClaim_ok hpay
    exact ⟨rfl, rfl⟩
  | proposal hsame =>
    simp only [setAccount]
    exact ⟨by rw [hsame], by rw [hsame]⟩
  | vote => exact ⟨rfl, rfl⟩

theorem Transactor.Outcome.header {r : Ledger × Receipt} (h : Transactor.Outcome H s tx r) :
    r.1.seq = s.seq ∧ r.1.rules = s.rules := by
  cases h with
  | unapplied => exact ⟨rfl, rfl⟩
  | feeOnly hreset =>
    rw [ApplyContext.destroyXRP_eq, (Transactor.reset_ok hreset).same]
    exact ⟨rfl, rfl⟩
  | success hflight hclaim hcharge happly =>
    have hcharged :=
      Transactor.charge_ok hcharge (Transactor.account_ne_none_of_preclaim hclaim)
    obtain ⟨hseq, hrules⟩ := doApply_header happly
    rw [ApplyContext.destroyXRP_eq]
    dsimp only
    rw [hseq, hrules, hcharged.same]
    exact ⟨rfl, rfl⟩

end FalconLedger
