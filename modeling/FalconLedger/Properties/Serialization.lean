import FalconLedger.Properties.Baskets
import FalconLedger.Properties.Governance

/-!
# What is written can be read

A ledger is *readable* (`Ledger.Readable`) when each of the fork's entries in it survives being
serialized and constructed again. A `SoeDefault` field set to its default is accepted in memory, and
refused when the entry is next loaded. Two of the fork's writers leave such fields: `GovernanceProposal`,
and the pruning of the proposal list when nothing on it is open (`readable_run_iff`).
-/

namespace FalconLedger

open Transactor Ledger BuildLedger STLedgerEntry

namespace Ledger

/-- The entries of the fork's types. -/
def forkEntries (s : Ledger) :=
  (s.bonds, s.names, s.epoch, s.params, s.proposals, s.lpStates)

/-- The current epoch has a number. -/
def EpochNumbered (s : Ledger) : Prop := ∀ epoch, s.epoch = some epoch → epoch.epochNumber ≠ 0

end Ledger

variable {H : Services} {s s' : Ledger} {tx : STTx} {a : Applied}

theorem readable_congr (h : s'.forkEntries = s.forkEntries) : s'.Readable ↔ s.Readable := by
  simp only [forkEntries, Prod.mk.injEq] at h
  obtain ⟨hbonds, hnames, hepoch, hparams, hproposals, hlp⟩ := h
  constructor
  · rintro ⟨h1, h2, h3, h4, h5, h6⟩
    exact ⟨hbonds ▸ h1, hnames ▸ h2, hepoch ▸ h3, hparams ▸ h4, hproposals ▸ h5, hlp ▸ h6⟩
  · rintro ⟨h1, h2, h3, h4, h5, h6⟩
    exact ⟨hbonds ▸ h1, hnames ▸ h2, hepoch ▸ h3, hparams ▸ h4, hproposals ▸ h5, hlp ▸ h6⟩

private theorem forkEntries_of_sameButAccounts (h : SameButAccounts s s') :
    s'.forkEntries = s.forkEntries := by
  rw [h]
  rfl

private theorem forkEntries_of_sameButDirs (h : SameButDirs s s') :
    s'.forkEntries = s.forkEntries :=
  forkEntries_of_sameButAccounts h.sameButAccounts

private theorem forkEntries_destroyXRP (s : Ledger) (fee : Int) :
    (ApplyContext.destroyXRP H.toHashes s fee).forkEntries = s.forkEntries := by
  rw [ApplyContext.destroyXRP_eq]
  rfl

@[simp] theorem readable_setAccount (id : AccountID) (root : AccountRoot) :
    (s.setAccount id root).Readable ↔ s.Readable :=
  readable_congr (forkEntries_of_sameButAccounts ((SameButAccounts.refl s).setAccount id root))

@[simp] theorem readable_rawDestroyXRP (amount : Int) :
    (s.rawDestroyXRP amount).Readable ↔ s.Readable :=
  ⟨fun ⟨h1, h2, h3, h4, h5, h6⟩ => ⟨h1, h2, h3, h4, h5, h6⟩,
    fun ⟨h1, h2, h3, h4, h5, h6⟩ => ⟨h1, h2, h3, h4, h5, h6⟩⟩

/-! ### Writing one entry -/

theorem Ledger.Readable.setBond_iff (h : s.Readable) (id : AccountID) (bond : ValidatorBond) :
    (s.setBond id bond).Readable ↔ bond.Storable := by
  rw [← bond.readsBack_iff, ← h.bonds.insert_iff (k := id)]
  exact ⟨fun h' => h'.bonds, fun h' => { h with bonds := h' }⟩

theorem Ledger.Readable.insertName_iff (h : s.Readable) (key : UInt256) (entry : AccountName) :
    { s with names := s.names.insert key entry }.Readable ↔ entry.Storable := by
  rw [← entry.readsBack_iff, ← h.names.insert_iff (k := key)]
  exact ⟨fun h' => h'.names, fun h' => { h with names := h' }⟩

theorem Ledger.Readable.insertProposal_iff (h : s.Readable) (key : UInt256)
    (proposal : GovernanceProposal) :
    { s with proposals := s.proposals.insert key proposal }.Readable ↔ proposal.Storable := by
  rw [← proposal.readsBack_iff, ← h.proposals.insert_iff (k := key)]
  exact ⟨fun h' => h'.proposals, fun h' => { h with proposals := h' }⟩

theorem Ledger.Readable.setEpoch_iff (h : s.Readable) (epoch : RewardEpoch) :
    { s with epoch := some epoch }.Readable ↔ epoch.Storable := by
  rw [← epoch.readsBack_iff]
  refine ⟨fun h' => h'.epoch epoch rfl, fun h' => { h with epoch := ?_ }⟩
  intro epoch' heq
  rwa [← Option.some.inj heq]

/-! ### Transactions -/

/-- Whether a vote leaves a sum that is not zero on its side. -/
def GovernanceProposal.Counts (proposal : GovernanceProposal) (voteYes : Bool) (weight : UInt32) :
    Prop :=
  (if voteYes then proposal.votedFor else proposal.votedAgainst).getD 0 ≠ 0 ∨ weight ≠ 0

/-- The condition under which a transaction that succeeds writes what can be read back. -/
def STTx.WritesReadable (H : Services) (s : Ledger) (tx : STTx) : Prop :=
  match tx.body with
  | .validatorRegister _ consensusKey => consensusKey.length ≤ kMaxVLLength
  | .validatorUnbond _ => s.seq ≠ 0
  | .validatorSlash target _ _ _ =>
    s.seq ≠ 0 ∧ ∀ bond, s.bonds.lookup target = some bond → bond.slashCount.getD 0 + 1 ≠ 0
  | .nameUnbond _ => s.seq ≠ 0
  | .governanceProposal .. => False
  | .governanceVote consensusKey proposalID voteWeight =>
    ∀ proposal bond, s.proposals.lookup proposalID = some proposal →
      s.bonds.lookup (H.calcValidatorBondID consensusKey) = some bond →
      proposal.Counts (voteWeight = 1) (bond.compositeScore.getD 0) ∧
        (proposal.voterList.getD []).length + 20 ≤ kMaxVLLength
  | _ => True

theorem Ledger.Readable.bond (h : s.Readable) {id : AccountID} {bond : ValidatorBond}
    (hbond : s.bonds.lookup id = some bond) : bond.Storable :=
  bond.readsBack_iff.mp (h.bonds id bond hbond)

theorem Ledger.Readable.name (h : s.Readable) {key : UInt256} {entry : AccountName}
    (hentry : s.names.lookup key = some entry) : entry.Storable :=
  entry.readsBack_iff.mp (h.names key entry hentry)

theorem Ledger.Readable.proposal (h : s.Readable) {key : UInt256} {proposal : GovernanceProposal}
    (hproposal : s.proposals.lookup key = some proposal) : proposal.Storable :=
  proposal.readsBack_iff.mp (h.proposals key proposal hproposal)

theorem Ledger.Readable.rewardEpoch (h : s.Readable) {epoch : RewardEpoch}
    (hepoch : s.epoch = some epoch) : epoch.Storable :=
  epoch.readsBack_iff.mp (h.epoch epoch hepoch)

private theorem register_readable_iff (hs : s.Readable) {publicKey consensusKey : Blob}
    (hkeys : publicKey = consensusKey)
    (h : ValidatorRegister.doApply H s tx publicKey consensusKey = .ok a) :
    a.view.Readable ↔ consensusKey.length ≤ kMaxVLLength := by
  obtain ⟨page, s₁, root, ⟨hsame, -⟩, -, -, rfl⟩ := ValidatorRegister.doApply_ok h
  have hs₁ : s₁.Readable := (readable_congr (forkEntries_of_sameButDirs hsame)).mpr hs
  rw [readable_setAccount, hs₁.setBond_iff, hkeys]
  refine ⟨fun h => h.consensusKey, fun h => ?_⟩
  constructor <;> first | exact h | simp [ValidatorRegister.newBond]

private theorem bond_readable (hs : s.Readable) {consensusKey : Blob} {bondedAmount : Int}
    (hamount : bondedAmount.natAbs < 2 ^ 61)
    (h : ValidatorBond.doApply H s tx consensusKey bondedAmount = .ok a) : a.view.Readable := by
  obtain ⟨root, bond, -, hbond, -, rfl⟩ := ValidatorBond.doApply_ok h
  have hs₁ := (readable_setAccount tx.account
    { root with balance := root.balance - bondedAmount }).mpr hs
  exact (hs₁.setBond_iff _ _).mpr { hs.bond hbond with bondedAmount := hamount }

private theorem unbond_readable_iff (hs : s.Readable) {consensusKey : Blob}
    (h : ValidatorUnbond.doApply H s tx consensusKey = .ok a) : a.view.Readable ↔ s.seq ≠ 0 := by
  obtain ⟨bond, hbond, rfl⟩ := ValidatorUnbond.doApply_ok h
  rw [hs.setBond_iff]
  constructor
  · intro h hzero
    exact h.unbondingStartLedger (congrArg some hzero)
  · intro hseq
    exact { hs.bond hbond with unbondingStartLedger := fun heq => hseq (Option.some.inj heq) }

private theorem slash_readable_iff (hs : s.Readable) {target : AccountID} {offense : UInt32}
    {e1 e2 : Option Blob} (h : ValidatorSlash.doApply H s tx target offense e1 e2 = .ok a) :
    a.view.Readable ↔ s.seq ≠ 0 ∧
      ∀ bond, s.bonds.lookup target = some bond → bond.slashCount.getD 0 + 1 ≠ 0 := by
  obtain ⟨bond, hbond, rfl⟩ := ValidatorSlash.doApply_ok h
  rw [readable_rawDestroyXRP, hs.setBond_iff]
  constructor
  · intro h
    refine ⟨fun hzero => h.unbondingStartLedger (congrArg some hzero), fun bond' hbond' => ?_⟩
    obtain rfl : bond = bond' := Option.some.inj (hbond.symm.trans hbond')
    exact fun hzero => h.slashCount (congrArg some hzero)
  · rintro ⟨hseq, hcount⟩
    exact
      { hs.bond hbond with
        bondedAmount := by simp [ValidatorSlash.slashedBond]
        slashCount := fun heq => hcount bond hbond (Option.some.inj heq)
        unbondingStartLedger := fun heq => hseq (Option.some.inj heq) }

private theorem releaseBond_readable (hs : s.Readable) {target : AccountID}
    (h : ReleaseBond.doApply H s target = .ok a) : a.view.Readable := by
  obtain ⟨bond, root, s₁, ⟨hsame, -⟩, -, -, rfl⟩ := ReleaseBond.doApply_ok h
  have hs₁ : s₁.Readable := (readable_congr (forkEntries_of_sameButDirs hsame)).mpr hs
  exact { hs₁ with bonds := hs.bonds.erase target }

private theorem nameSet_readable (hs : s.Readable) {raw : Option Blob}
    (h : NameSet.doApply H s tx raw = .ok a) : a.view.Readable := by
  obtain ⟨name, page, s₁, root, hname, ⟨hsame, -⟩, -, -, -, rfl⟩ := NameSet.doApply_ok h
  have hs₁ : s₁.Readable := (readable_congr (forkEntries_of_sameButDirs hsame)).mpr hs
  have hnames : s₁.names = s.names := by rw [hsame]
  have hlen : name.length ≤ kMaxVLLength :=
    (AccountNames.normalizeName_length hname).trans (by decide)
  rw [← hnames, readable_setAccount, hs₁.insertName_iff]
  exact ⟨hlen, show kNameBondDrops.natAbs < 2 ^ 61 by decide, by simp [NameSet.newName]⟩

private theorem nameUnbond_readable_iff (hs : s.Readable) {raw : Option Blob}
    (h : NameUnbond.doApply H s tx raw = .ok a) : a.view.Readable ↔ s.seq ≠ 0 := by
  obtain ⟨key, entry, -, hentry, rfl⟩ := NameUnbond.doApply_ok h
  rw [hs.insertName_iff]
  constructor
  · intro h hzero
    exact h.unbondingStartLedger (congrArg some hzero)
  · intro hseq
    exact { hs.name hentry with unbondingStartLedger := fun heq => hseq (Option.some.inj heq) }

private theorem nameRelease_readable (hs : s.Readable) {raw : Option Blob}
    (h : NameRelease.doApply H s raw = .ok a) : a.view.Readable := by
  obtain ⟨name, entry, root, s₁, -, ⟨hsame, -⟩, -, -, rfl⟩ := NameRelease.doApply_ok h
  have hs₁ : s₁.Readable := (readable_congr (forkEntries_of_sameButDirs hsame)).mpr hs
  exact { hs₁ with names := hs.names.erase (H.accountNameKey name) }

private theorem addWeight_ne_zero_iff (prev weight : UInt32) :
    GovernanceVote.addWeight prev weight ≠ 0 ↔ prev ≠ 0 ∨ weight ≠ 0 := by
  have hlt : min (prev.toNat + weight.toNat) (2 ^ 32 - 1) < 2 ^ 32 := by omega
  have hsum : (GovernanceVote.addWeight prev weight).toNat =
      min (prev.toNat + weight.toNat) (2 ^ 32 - 1) := by
    rw [GovernanceVote.addWeight, UInt32.toNat_ofNat']
    exact Nat.mod_eq_of_lt hlt
  have hzero : ∀ n : UInt32, n = 0 ↔ n.toNat = 0 := fun n =>
    ⟨fun h => by rw [h]; rfl, fun h => UInt32.toNat_inj.mp h⟩
  rw [ne_eq, ne_eq, ne_eq, hzero, hzero, hzero, hsum]
  omega

private theorem length_appendVoter (voterList : Blob) (bondID : AccountID) :
    (GovernanceVote.appendVoter voterList bondID).length = voterList.length + 20 := by
  simp [GovernanceVote.appendVoter, GovernanceVote.accountIDBytes]

private theorem castVote_storable_iff {proposal : GovernanceProposal} (h : proposal.Storable)
    (seq : UInt32) (bondID : AccountID) (voteYes : Bool) (weight : UInt32) :
    (GovernanceVote.castVote seq tx bondID voteYes weight proposal).Storable ↔
      proposal.Counts voteYes weight ∧
        (proposal.voterList.getD []).length + 20 ≤ kMaxVLLength := by
  have hlen := length_appendVoter (proposal.voterList.getD []) bondID
  have hne : GovernanceVote.appendVoter (proposal.voterList.getD []) bondID ≠ [] := by
    intro hnil
    rw [hnil] at hlen
    cases hlen
  constructor
  · intro h'
    refine ⟨?_, hlen ▸ h'.voters _ rfl⟩
    rw [GovernanceProposal.Counts]
    cases voteYes with
    | true => exact (addWeight_ne_zero_iff _ _).mp fun hzero => h'.votedFor (congrArg some hzero)
    | false =>
      exact (addWeight_ne_zero_iff _ _).mp fun hzero => h'.votedAgainst (congrArg some hzero)
  · rintro ⟨hcounts, hfits⟩
    rw [GovernanceProposal.Counts] at hcounts
    refine ⟨?_, ?_, ?_, fun heq => hne (Option.some.inj heq)⟩
    · intro voters hvoters
      rw [← Option.some.inj hvoters, hlen]
      exact hfits
    · cases voteYes with
      | true => exact fun heq => (addWeight_ne_zero_iff _ _).mpr hcounts (Option.some.inj heq)
      | false => exact h.votedFor
    · cases voteYes with
      | true => exact h.votedAgainst
      | false => exact fun heq => (addWeight_ne_zero_iff _ _).mpr hcounts (Option.some.inj heq)

private theorem vote_readable_iff (hs : s.Readable) {consensusKey : Blob} {proposalID : UInt256}
    {voteWeight : UInt32}
    (h : GovernanceVote.doApply H s tx consensusKey proposalID voteWeight = .ok a) :
    a.view.Readable ↔ ∀ proposal bond, s.proposals.lookup proposalID = some proposal →
      s.bonds.lookup (H.calcValidatorBondID consensusKey) = some bond →
      proposal.Counts (voteWeight = 1) (bond.compositeScore.getD 0) ∧
        (proposal.voterList.getD []).length + 20 ≤ kMaxVLLength := by
  obtain ⟨proposal, bond, hproposal, hbond, rfl⟩ := GovernanceVote.doApply_ok h
  rw [hs.insertProposal_iff, castVote_storable_iff (hs.proposal hproposal)]
  constructor
  · intro h proposal' bond' hproposal' hbond'
    obtain rfl : proposal = proposal' := Option.some.inj (hproposal.symm.trans hproposal')
    obtain rfl : bond = bond' := Option.some.inj (hbond.symm.trans hbond')
    exact h
  · intro h
    exact h proposal bond hproposal hbond

/-- **No proposal can be read back after it was created.** -/
theorem newProposal_not_storable (seq : UInt32) (tx : STTx) (proposalType proposalValue : UInt32)
    (page : UInt64) :
    ¬(GovernanceProposal.newProposal seq tx proposalType proposalValue page).Storable :=
  fun h => h.votedFor rfl

private theorem proposal_not_readable {proposalType proposalValue : UInt32}
    (h : GovernanceProposal.doApply H s tx proposalType proposalValue = .ok a) :
    ¬a.view.Readable := by
  obtain ⟨page, s₁, root, -, -, -, rfl⟩ := GovernanceProposal.doApply_ok h
  intro hread
  exact newProposal_not_storable _ _ _ _ _ (hread.proposal (AList.lookup_insert _))

private theorem payClaim_readable (hs : s.Readable) {epoch : RewardEpoch} {share pay : Int}
    {s₁ : Ledger} (hepoch : s.epoch = some epoch) (hshare : 0 < share)
    (h : payClaim H s tx epoch share = .ok (s₁, pay)) : s₁.Readable := by
  obtain ⟨treasury, root, -, -, hpool, hmin, -, rfl⟩ := payClaim_ok h
  have hfits := (hs.rewardEpoch hepoch).epochPoolBalance
  have hpay : 0 ≤ epoch.epochPoolBalance - pay := by
    rw [hmin]
    exact sub_nonneg.mpr (min_le_right _ _)
  have hpay' : 0 ≤ pay := by
    rw [hmin]
    exact le_min hshare.le hpool.le
  have hsent := (readable_setAccount tx.account { root with balance := root.balance + pay }).mpr
    ((readable_setAccount H.getTreasuryAccountID
      { treasury with balance := treasury.balance - pay }).mpr hs)
  refine (hsent.setEpoch_iff _).mpr { hs.rewardEpoch hepoch with epochPoolBalance := ?_ }
  dsimp only
  omega

private theorem claimReward_readable (hs : s.Readable) (hnum : s.EpochNumbered)
    {consensusKey : Blob} (h : ClaimReward.doApply H s tx consensusKey = .ok a) :
    a.view.Readable := by
  obtain ⟨bond, epoch, hbond, hepoch, -, -, ⟨-, rfl⟩ | ⟨hpos, s₁, pay, hpay, rfl⟩⟩ :=
    ClaimReward.doApply_ok h
  · exact hs
  · refine ((payClaim_readable hs hepoch hpos hpay).setBond_iff _ _).mpr ?_
    exact
      { hs.bond hbond with
        lastClaimedEpoch := fun heq => hnum epoch hepoch (Option.some.inj heq) }

private theorem settleLpClaim_readable (hs : s.Readable) (hnum : s.EpochNumbered)
    {epoch : RewardEpoch} {key : UInt256} {share : ℕ} (hepoch : s.epoch = some epoch)
    (h : settleLpClaim H s tx epoch key share = .ok a) : a.view.Readable := by
  rcases settleLpClaim_ok h with ⟨-, rfl⟩ | ⟨hpos, s₁, pay, hpay, rfl⟩
  · exact hs
  · have hpaid := payClaim_readable hs hepoch (by exact_mod_cast hpos) hpay
    -- the mark is the only field of the claim state that could hold a default
    refine { hpaid with lpStates := hpaid.lpStates.insert ?_ }
    rw [PopLpState.readsBack_iff]
    refine ⟨fun heq => hnum epoch hepoch ?_⟩
    split at heq <;> exact Option.some.inj heq

/-- **What a transactor writes can be read back** exactly under `WritesReadable`. The amount of a
bond is left to the balance checks. -/
theorem doApply_readable_iff (hs : s.Readable) (hnum : s.EpochNumbered)
    (hflight : preflight s.rules tx.body = .ok ()) (h : doApply H s tx = .ok a)
    (hamount : ∀ consensusKey bondedAmount, tx.body = .validatorBond consensusKey bondedAmount →
      bondedAmount.natAbs < 2 ^ 61) : a.view.Readable ↔ tx.WritesReadable H s := by
  unfold doApply at h
  unfold STTx.WritesReadable
  split at h <;> rename_i hbody <;> rw [hbody] at hflight ⊢ <;> dsimp only
  · -- preflight has compared the two keys, so one bound serves both
    refine register_readable_iff hs ?_ h
    simp only [preflight, ValidatorRegister.preflight, Except.bind_eq_ok, failIf_eq_ok] at hflight
    obtain ⟨-, -, -, -, -, -, hkeys⟩ := hflight
    simpa using hkeys
  · exact iff_of_true (bond_readable hs (hamount _ _ hbody) h) trivial
  · exact unbond_readable_iff hs h
  · exact slash_readable_iff hs h
  · exact iff_of_true (releaseBond_readable hs h) trivial
  · exact iff_of_true (claimReward_readable hs hnum h) trivial
  · obtain ⟨_, epoch, _, -, hepoch, -, -, h⟩ := ClaimLPReward.doApply_ok h
    exact iff_of_true (settleLpClaim_readable hs hnum hepoch h) trivial
  · obtain ⟨_, epoch, -, hepoch, -, -, h⟩ := ClaimAmmLpReward.doApply_ok h
    exact iff_of_true (settleLpClaim_readable hs hnum hepoch h) trivial
  · exact iff_of_true (nameSet_readable hs h) trivial
  · exact nameUnbond_readable_iff hs h
  · exact iff_of_true (nameRelease_readable hs h) trivial
  · exact iff_of_false (proposal_not_readable h) id
  · exact vote_readable_iff hs h

private theorem bondedAmount_natAbs_lt {s₁ : Ledger} {consensusKey : Blob} {bondedAmount : Int}
    (hcharged : Charged tx tx.fee s s₁) (hpass : Invariants.Passed s a.view tx tx.fee)
    (hpos : 0 < bondedAmount)
    (h : ValidatorBond.doApply H s₁ tx consensusKey bondedAmount = .ok a) :
    bondedAmount.natAbs < 2 ^ 61 := by
  obtain ⟨root, bond, hroot, -, hfund, rfl⟩ := ValidatorBond.doApply_ok h
  have hafter : ((s₁.setAccount tx.account
      { root with balance := root.balance - bondedAmount }).balanceOf tx.account) =
        root.balance - bondedAmount := balanceOf_setAccount_self _ _ _
  have hcharge : root.balance ≤ s.balanceOf tx.account := by
    rw [← balanceOf_of_lookup hroot, hcharged.balanceOf]
    have hfee := hpass.fee_nonneg
    split_ifs <;> omega
  -- the sender's balance has fallen, so the checker has looked at it
  have hne : s.balanceOf tx.account ≠ (s₁.setAccount tx.account
      { root with balance := root.balance - bondedAmount }).balanceOf tx.account := by
    rw [hafter]
    omega
  have hlegal := hpass.balances tx.account fun heq => hne (by
    rw [balanceOf, balanceOf, Table.weightAt, Table.weightAt, heq]
    rfl)
  have hsupply : kInitialXrp < 2 ^ 61 := by decide
  omega

private theorem writesReadable_congr {s₁ : Ledger} (h : SameButAccounts s s₁) :
    tx.WritesReadable H s₁ ↔ tx.WritesReadable H s := by
  rw [h]
  rfl

/-- **A transaction keeps a readable ledger readable** unless it succeeds and writes something
that cannot be read back. -/
theorem Transactor.Outcome.readable_iff (hs : s.Readable) (hnum : s.EpochNumbered)
    {r : Ledger × Receipt} (h : Outcome H s tx r) :
    r.1.Readable ↔ (r.2.applied = true ∧ r.2.ter = .tesSuccess → tx.WritesReadable H s) := by
  cases h with
  | unapplied ter =>
    refine iff_of_true hs ?_
    rintro ⟨happlied, -⟩
    cases happlied
  | @feeOnly view feeIn fee ter hreset hpass hter =>
    have hsame := forkEntries_of_sameButAccounts (reset_ok hreset).same
    refine iff_of_true ?_ ?_
    · exact (readable_congr ((forkEntries_destroyXRP view fee).trans hsame)).mpr hs
    · rintro ⟨-, hsuccess⟩
      have hter' : ter = .tesSuccess := hsuccess
      rw [hter'] at hter
      cases hter
  | @success s₁ a hflight hclaim hcharge happly hpass =>
    have hcharged := charge_ok hcharge (account_ne_none_of_preclaim hclaim)
    have hs₁ := (readable_congr (forkEntries_of_sameButAccounts hcharged.same)).mpr hs
    have hepoch₁ : s₁.epoch = s.epoch := by rw [hcharged.same]
    have hrules₁ : s₁.rules = s.rules := by rw [hcharged.same]
    have hbody : preflight s.rules tx.body = .ok () := by
      simp only [invokePreflight, Except.bind_eq_ok] at hflight
      obtain ⟨_, -, _, -, _, hbody, -⟩ := hflight
      exact hbody
    have hamount : ∀ consensusKey bondedAmount,
        tx.body = .validatorBond consensusKey bondedAmount → bondedAmount.natAbs < 2 ^ 61 := by
      intro consensusKey bondedAmount htype
      rw [htype] at hbody
      simp only [preflight, ValidatorBond.preflight, Except.bind_eq_ok, failIf_eq_ok] at hbody
      obtain ⟨-, -, -, -, -, hpos, -⟩ := hbody
      rw [doApply, htype] at happly
      exact bondedAmount_natAbs_lt hcharged hpass (not_le.mp hpos) happly
    have hread : a.view.Readable ↔ tx.WritesReadable H s := by
      rw [← writesReadable_congr hcharged.same]
      refine doApply_readable_iff hs₁ ?_ (by rwa [hrules₁]) happly hamount
      intro epoch hepoch
      exact hnum epoch (hepoch₁ ▸ hepoch)
    have hview := readable_congr (forkEntries_destroyXRP (H := H) a.view tx.fee)
    rw [hview, hread]
    exact ⟨fun h _ => h, fun h => h ⟨rfl, rfl⟩⟩

/-! ### Closing a ledger -/

private theorem newEpoch_storable_iff (H : Hashes) (s : Ledger) (seq : UInt32) :
    (RewardEpoch.newEpoch H s seq).Storable ↔
      (RewardEpoch.poolDrops (s.balanceOf H.getTreasuryAccountID)
        (seq / kQxrpLedgersPerEpoch)).natAbs < 2 ^ 61 := by
  refine ⟨fun h => h.emissionRate, fun h => ?_⟩
  constructor
  · exact h
  · exact h
  · intro keys hkeys
    cases hkeys
  · exact unlessZero_ne_some_zero _
  · simp [RewardEpoch.newEpoch]
  · exact unlessZero_ne_some_zero _
  · exact unlessZero_ne_some_zero _
  · exact unlessZero_ne_some_zero _
  · exact unlessZero_ne_some_zero _
  · simp [RewardEpoch.newEpoch]

private theorem applyRewardEpoch_readable (hs : s.Readable) {H : Hashes} {seq : UInt32}
    {rules : Rules}
    (hfits : RewardEpoch.rollsOver H s seq rules = true →
      (RewardEpoch.newEpoch H s seq).Storable) :
    (applyRewardEpoch H s seq rules).Readable := by
  rcases hroll : RewardEpoch.rollsOver H s seq rules with _ | _
  · rwa [applyRewardEpoch_of_not hroll]
  · rw [applyRewardEpoch_of_rollsOver hroll]
    exact (hs.setEpoch_iff _).mpr (hfits hroll)

private theorem scoreBond_storable {bond : ValidatorBond} (h : bond.Storable)
    (st : ValidatorScoring.WindowStats) (seq : UInt32) :
    (ValidatorScoring.scoreBond st seq bond).Storable :=
  { h with
    uptimeBps := unlessZero_ne_some_zero _
    voteAccuracyBps := unlessZero_ne_some_zero _
    latencyScoreBps := unlessZero_ne_some_zero _
    consistencyBps := unlessZero_ne_some_zero _
    compositeScore := unlessZero_ne_some_zero _ }

private theorem writeBonds_readable (hs : s.Readable) {scored : List (AccountID × ValidatorBond)}
    (h : ∀ t ∈ scored, t.2.Storable) : (ValidatorScoring.writeBonds s scored).Readable := by
  induction scored generalizing s with
  | nil => exact hs
  | cons t scored ih =>
    rw [List.forall_mem_cons] at h
    exact ih ((hs.setBond_iff t.1 t.2).mpr h.1) h.2

private theorem targets_storable (hs : s.Readable) :
    ∀ t ∈ ValidatorScoring.targets s, t.2.Storable := by
  intro t ht
  simp only [ValidatorScoring.targets, List.mem_map, List.mem_filter] at ht
  obtain ⟨e, ⟨hmem, -⟩, rfl⟩ := ht
  have hlookup : s.bonds.lookup e.1 = some e.2 := by
    rw [← Option.mem_def, AList.lookup, List.mem_dlookup_iff s.bonds.nodupKeys]
    exact hmem
  exact hs.bond hlookup

private theorem applyValidatorScoring_readable (hs : s.Readable) (H : Hashes) (store : Validations)
    (parent : Ledger) (seq : UInt32) (rules : Rules) :
    (applyValidatorScoring H store s parent seq rules).Readable := by
  unfold applyValidatorScoring
  split
  · exact hs
  · rename_i ledgerAncestors hwindow
    dsimp only
    have hscored : ∀ stats : ValidatorBond → ValidatorScoring.WindowStats,
        ∀ t ∈ (ValidatorScoring.targets s).map fun t =>
          (t.1, ValidatorScoring.scoreBond (stats t.2) seq t.2), t.2.Storable := by
      intro stats t ht
      obtain ⟨t', ht', rfl⟩ := List.mem_map.mp ht
      exact scoreBond_storable (targets_storable hs t' ht') _ _
    have hbonds := writeBonds_readable hs (hscored (ValidatorScoring.statsFor H
      (ValidatorScoring.windowStats H store seq ledgerAncestors (ValidatorScoring.targets s))))
    refine { hbonds with epoch := fun epoch hepoch => ?_ }
    obtain ⟨epoch', hepoch', rfl⟩ := Option.map_eq_some_iff.mp hepoch
    rw [RewardEpoch.readsBack_iff]
    exact
      { hbonds.rewardEpoch hepoch' with aggregateCompositeScore := unlessZero_ne_some_zero _ }

private theorem tally_readable (hs : s.Readable) (seq aggregate : UInt32) (key : UInt256) :
    (GovernanceTally.tally seq aggregate s key).Readable := by
  have hparams : ∀ proposal, (GovernanceTally.writeParams s seq key proposal).Readable := by
    intro proposal
    unfold GovernanceTally.writeParams
    split_ifs
    · refine { hs with params := fun params heq => ?_ }
      rw [← Option.some.inj heq, GovernanceParams.readsBack_iff]
      refine ⟨fun hzero => ?_⟩
      -- the rate is clamped from below by a positive bound
      have hmin : 0 < (max kFeeBurnMinBps (min proposal.proposalValue kFeeBurnMaxBps)).toNat := by
        rw [toNat_max]
        exact lt_max_of_lt_left (by decide)
      rw [Option.some.inj hzero] at hmin
      exact absurd hmin (by decide)
    · exact hs
  unfold GovernanceTally.tally
  split
  · exact hs
  · rename_i proposal hproposal
    split_ifs
    · exact hs
    · dsimp only
      have hresolved : ∀ passed, (GovernanceTally.resolve seq key passed proposal).Storable :=
        fun passed => { hs.proposal hproposal with }
      split_ifs
      · exact ((hparams proposal).insertProposal_iff _ _).mpr (hresolved _)
      · exact (hs.insertProposal_iff _ _).mpr (hresolved _)

private theorem applyGovernanceTally_readable (hs : s.Readable) (seq : UInt32) (rules : Rules)
    (keys : List UInt256) : (applyGovernanceTally s seq rules keys).Readable := by
  unfold applyGovernanceTally
  split_ifs with hskip
  · exact hs
  · clear hskip
    generalize GovernanceTally.aggregateScore s = aggregate
    induction keys generalizing s with
    | nil => exact hs
    | cons key keys ih => exact ih (tally_readable hs seq aggregate key)

/-- **Pruning writes a list that can be read back** unless it takes everything off it. -/
theorem pruneProposals_readable_iff (hs : s.Readable) :
    (pruneProposals s (proposalKeys s)).Readable ↔
      (proposalKeys s ≠ [] → ∃ key ∈ proposalKeys s, stillOpen s key = true) := by
  rw [pruneProposals]
  split_ifs with hsame
  · refine iff_of_true hs fun hne => ?_
    have hlen := hsame.resolve_left hne
    obtain ⟨key, hkey⟩ := List.exists_mem_of_ne_nil _ hne
    exact ⟨key, hkey, List.length_filter_eq_length_iff.mp hlen key hkey⟩
  · rw [not_or] at hsame
    obtain ⟨epoch, hepoch⟩ : ∃ epoch, s.epoch = some epoch := by
      cases hepoch : s.epoch with
      | none => exact absurd (by rw [proposalKeys, hepoch]; rfl) hsame.1
      | some epoch => exact ⟨epoch, rfl⟩
    rw [hepoch, Option.map_some, hs.setEpoch_iff]
    constructor
    · intro h _
      by_contra hnone
      push Not at hnone
      refine h.proposals (congrArg some ?_)
      exact List.filter_eq_nil_iff.mpr hnone
    · intro h
      obtain ⟨key, hkey, hopen⟩ := h hsame.1
      have hstored := hs.rewardEpoch hepoch
      -- a sublist of a list that fits, and not empty
      refine { hstored with listed := fun keys hkeys => ?_, proposals := fun hnil => ?_ }
      · rw [← Option.some.inj hkeys]
        have hlen := List.length_filter_le (stillOpen s) (proposalKeys s)
        have hlisted : 32 * (proposalKeys s).length ≤ kMaxVLLength := by
          rw [proposalKeys, hepoch, Option.bind_some]
          cases hlist : epoch.proposals with
          | none => simp
          | some keys => exact hstored.listed keys hlist
        omega
      · have hmem : key ∈ (proposalKeys s).filter (stillOpen s) :=
          List.mem_filter.mpr ⟨hkey, hopen⟩
        rw [Option.some.inj hnil] at hmem
        cases hmem

/-- Whether a proposal is still open once it has been tallied at the close of this ledger. -/
def Ledger.survivesTally (s : Ledger) (key : UInt256) : Bool :=
  (s.proposals.lookup key).any fun proposal =>
    decide (proposal.proposalState = .open) &&
      (!s.rules.proofOfParticipation || decide (s.seq < proposal.proposalExpiry))

private theorem stillOpen_applyGovernanceTally {t : Ledger} (hproposals : t.proposals = s.proposals)
    {keys : List UInt256} {key : UInt256} (hkey : key ∈ keys) :
    stillOpen (applyGovernanceTally t s.seq s.rules keys) key = s.survivesTally key := by
  rw [survivesTally]
  cases hpop : s.rules.proofOfParticipation with
  | false =>
    have hskip : applyGovernanceTally t s.seq s.rules keys = t := if_pos (by simp [hpop])
    rw [hskip, stillOpen, hproposals]
    simp
  | true =>
    rw [stillOpen, lookup_applyGovernanceTally hpop, if_pos hkey, hproposals]
    cases s.proposals.lookup key with
    | none => rfl
    | some proposal =>
      simp only [Option.map_some, Option.any_some, Bool.not_true, Bool.false_or]
      unfold GovernanceTally.tallied
      split_ifs with h
      · rcases h with h | h <;> simp [h]
      · rw [not_or, not_not] at h
        simp only [h.1, h.2, decide_true, decide_false, Bool.and_false, GovernanceTally.resolve]
        split_ifs <;> decide

/-- The condition under which a close writes what can be read back: the emission of a new epoch
fits in an amount, and a list of proposals does not become empty. -/
def Chain.ClosesReadable (H : Services) (c : Chain) : Prop :=
  (c.rollsOver H = true →
    (RewardEpoch.poolDrops (c.view.balanceOf H.getTreasuryAccountID)
      (c.view.seq / kQxrpLedgersPerEpoch)).natAbs < 2 ^ 61) ∧
  (c.keysAtClose H ≠ [] → ∃ key ∈ c.keysAtClose H, c.view.survivesTally key = true)

/-- **A close keeps a readable ledger readable** exactly under `ClosesReadable`. -/
theorem Chain.close_readable_iff {c : Chain} (hs : c.view.Readable) (store : Validations) :
    (c.step H (.close store)).1.view.Readable ↔ c.ClosesReadable H := by
  rw [Chain.ClosesReadable]
  by_cases hfits : c.rollsOver H = true →
    (RewardEpoch.poolDrops (c.view.balanceOf H.getTreasuryAccountID)
      (c.view.seq / kQxrpLedgersPerEpoch)).natAbs < 2 ^ 61
  · -- every hook but the pruning keeps the ledger readable
    let s₁ := applyRewardEpoch H.toHashes c.view c.view.seq c.view.rules
    let s₂ := applyValidatorScoring H.toHashes store s₁ c.parent c.view.seq c.view.rules
    let s₃ := applyGovernanceTally s₂ c.view.seq c.view.rules (proposalKeys s₂)
    have hs₁ : s₁.Readable := applyRewardEpoch_readable hs fun hroll =>
      (newEpoch_storable_iff _ _ _).mpr (hfits hroll)
    have hs₃ : s₃.Readable := applyGovernanceTally_readable
      (applyValidatorScoring_readable hs₁ _ _ _ _ _) _ _ _
    obtain ⟨hproposals₁, hkeys₁⟩ := c.applyRewardEpoch_proposals H
    obtain ⟨hproposals₂, hkeys₂⟩ := applyValidatorScoring_proposals H.toHashes store s₁ c.parent
      c.view.seq c.view.rules
    have hkeys : proposalKeys s₂ = c.keysAtClose H := hkeys₂.trans hkeys₁
    have hkeys₃ : proposalKeys s₃ = proposalKeys s₂ := by
      simp only [s₃]
      rw [applyGovernanceTally_eq]
      rfl
    have hview : (c.step H (.close store)).1.view.forkEntries =
        (pruneProposals s₃ (proposalKeys s₃)).forkEntries := by
      rw [hkeys₃]
      rfl
    rw [readable_congr hview, pruneProposals_readable_iff hs₃, hkeys₃, hkeys,
      and_iff_right hfits]
    refine imp_congr_right fun _ => exists_congr fun key => and_congr_right fun hkey => ?_
    rw [stillOpen_applyGovernanceTally (hproposals₂.trans hproposals₁) (hkeys ▸ hkey)]
  · refine iff_of_false (fun hread => hfits fun hroll => ?_) fun h => hfits h.1
    -- the emission of a new epoch is still on the epoch object when the hooks are done
    obtain ⟨epoch, hepoch, -, hterms⟩ := Chain.epoch_rolledOver hroll store
    have hrate : epoch.emissionRate = RewardEpoch.poolDrops
        (c.view.balanceOf H.getTreasuryAccountID) (c.view.seq / kQxrpLedgersPerEpoch) :=
      congrArg RewardEpoch.emissionRate hterms
    rw [← hrate]
    exact (hread.rewardEpoch hepoch).emissionRate

/-! ### Runs -/

/-- The condition on a step. -/
def Chain.WritesReadable (H : Services) (c : Chain) : Step → Prop
  | .tx flags tx =>
    (applyTransaction H flags c.view tx).2.applied = true ∧
      (applyTransaction H flags c.view tx).2.ter = .tesSuccess → tx.WritesReadable H c.view
  | .close _ => c.ClosesReadable H
  | .outside _ _ => True

theorem Chain.step_readable_iff {c : Chain} (hs : c.view.Readable) (hnum : c.view.EpochNumbered)
    (st : Step) : (c.step H st).1.view.Readable ↔ c.WritesReadable H st := by
  cases st with
  | tx flags tx => exact (applyTransaction_outcome H flags c.view tx).readable_iff hs hnum
  | close store => exact Chain.close_readable_iff hs store
  | outside accounts holdings => exact iff_of_true { hs with } trivial

private theorem epochNumber_ne_zero {c : Chain} (hroll : c.rollsOver H = true) :
    c.view.seq / kQxrpLedgersPerEpoch ≠ 0 := by
  simp only [Chain.rollsOver, RewardEpoch.rollsOver, Bool.and_eq_true, decide_eq_true_eq] at hroll
  obtain ⟨⟨⟨-, hseq⟩, hmod⟩, -⟩ := hroll
  intro hzero
  have hdiv := congrArg UInt32.toNat hzero
  have hmod := congrArg UInt32.toNat hmod
  have hlen : kQxrpLedgersPerEpoch.toNat = 172800 := rfl
  rw [UInt32.toNat_div, hlen] at hdiv
  rw [UInt32.toNat_mod, hlen] at hmod
  refine hseq (UInt32.toNat_inj.mp ?_)
  rw [UInt32.toNat_zero] at hdiv hmod ⊢
  omega

theorem Chain.step_epochNumbered {c : Chain} (hnum : c.view.EpochNumbered) (st : Step) :
    (c.step H st).1.view.EpochNumbered := by
  by_cases hstay : StaysInEpoch H c st
  · have hmap := map_epoch_of_fixedTerms RewardEpoch.epochNumber (fun _ => rfl)
      (c.poolStep st hstay).terms
    intro epoch hepoch
    rw [hepoch, Option.map_some] at hmap
    obtain ⟨epoch', hepoch', heq⟩ := Option.map_eq_some_iff.mp hmap.symm
    rw [← heq]
    exact hnum epoch' hepoch'
  · obtain ⟨store, rfl⟩ : ∃ store, st = .close store := by
      cases st with
      | close store => exact ⟨store, rfl⟩
      | _ => exact absurd trivial hstay
    have hroll : c.rollsOver H = true := by simpa [StaysInEpoch] using hstay
    obtain ⟨epoch', hepoch', -, hterms⟩ := Chain.epoch_rolledOver hroll store
    intro epoch hepoch
    obtain rfl : epoch' = epoch := Option.some.inj (hepoch'.symm.trans hepoch)
    have hnumber : epoch'.epochNumber = c.view.seq / kQxrpLedgersPerEpoch :=
      congrArg RewardEpoch.epochNumber hterms
    rw [hnumber]
    exact epochNumber_ne_zero hroll

/-- **What is written can be read, run by run.** From a readable ledger, every state of a run is
readable if and only if no step of it does one of the following: create a proposal; cast a vote
that leaves an explicit zero; take the last proposal off the list; or overflow a length, an
amount, a counter or the ledger sequence. -/
theorem readable_run_iff (H : Services) (c : Chain) (steps : List Step) (hs : c.view.Readable)
    (hnum : c.view.EpochNumbered) :
    Run.Always (Chain.step H) (fun c st => (c.step H st).1.view.Readable) c steps ↔
      Run.Always (Chain.step H) (Chain.WritesReadable H) c steps := by
  refine Run.always_congr (fun c : Chain => c.view.Readable ∧ c.view.EpochNumbered) ?_ ?_
    ⟨hs, hnum⟩
  · intro c st hc hread
    exact ⟨hread, Chain.step_epochNumbered hc.2 st⟩
  · intro c st hc
    exact Chain.step_readable_iff hc.1 hc.2 st

namespace Sample

theorem bond_storable (owner : AccountID) {key : Blob} (h : key.length ≤ kMaxVLLength) :
    (bond owner key).Storable := by
  constructor
  · exact h
  · exact h
  · exact show kQxrpMinBondDrops.natAbs < 2 ^ 61 by decide
  all_goals simp [bond, ValidatorRegister.newBond]

theorem chain_readable : chain.view.Readable where
  bonds := by
    have hempty : Table.All (fun bond : ValidatorBond => ReadsBack ledgerFormats bond.toSTObject)
        (∅ : Table AccountID ValidatorBond) := by
      intro k v h
      cases h
    refine (hempty.insert ?_).insert ?_
    · exact (ValidatorBond.readsBack_iff _).mpr (bond_storable alice (by decide))
    · exact (ValidatorBond.readsBack_iff _).mpr (bond_storable bob (by decide))
  names := fun _ _ h => by cases h
  epoch := fun _ h => by cases h
  params := fun _ h => by cases h
  proposals := fun _ _ h => by cases h
  lpStates := fun _ _ h => by cases h

end Sample

theorem readable_rollover_claim :
    let claim := Sample.send Sample.alice 1 (.claimReward Sample.aliceKey)
    let c := (Sample.chain.step Sample.services (.close .empty)).1
    c.view.Readable ∧ (c.step Sample.services claim).1.view.Readable ∧
      (c.step Sample.services claim).2.any fun e => decide (0 < e.2.paid) := by
  intro claim c
  have hclose : Sample.chain.WritesReadable Sample.services (.close .empty) :=
    ⟨fun _ => by decide +kernel, fun hne => absurd (by decide +kernel) hne⟩
  have h := (readable_run_iff Sample.services Sample.chain [.close .empty, claim]
    Sample.chain_readable (fun _ h => by cases h)).mpr ⟨hclose, fun _ => trivial, trivial⟩
  exact ⟨h.1, h.2.1, by decide +kernel⟩

/-- `alice` makes a proposal. It is accepted, and the object it creates can be written but not
constructed again: its three vote fields are explicit defaults. -/
theorem proposal_not_read_back :
    let r := applyTransaction Sample.services Sample.flags Sample.chain.view Sample.proposal
    Sample.chain.view.Readable ∧ r.2.applied = true ∧ r.2.ter = .tesSuccess ∧
      ∃ proposal, r.1.proposals.lookup Sample.proposalKey = some proposal ∧
        proposal.toSTObject.add.isSome = true ∧
        proposal.toSTObject.add.bind (STLedgerEntry.read ledgerFormats) = none := by
  intro r
  have hadd : ((r.1.proposals.lookup Sample.proposalKey).bind fun proposal =>
      proposal.toSTObject.add).isSome = true := by decide +kernel
  have hread : ((r.1.proposals.lookup Sample.proposalKey).bind fun proposal =>
      proposal.toSTObject.add.bind (STLedgerEntry.read ledgerFormats)).isNone = true := by
    decide +kernel
  refine ⟨Sample.chain_readable, by decide +kernel, by decide +kernel, ?_⟩
  cases hlookup : r.1.proposals.lookup Sample.proposalKey with
  | none =>
    rw [hlookup] at hadd
    cases hadd
  | some proposal =>
    rw [hlookup, Option.bind_some] at hadd hread
    exact ⟨proposal, rfl, hadd, Option.isNone_iff_eq_none.mp hread⟩

end FalconLedger
