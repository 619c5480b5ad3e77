import FalconLedger.Properties.BondCapital
import FalconLedger.Properties.IdentifierRuns
import FalconLedger.Properties.Votes

/-!
# The keys of proposals

A proposal is filed under a key made of its account and the sequence field of the transaction, which
is zero on every transaction with a ticket. `ProposalsFiled` says that the keys in use are those of
numbers the accounts are past; it is kept by every step (`ProposalsFiled.step`).
-/

namespace FalconLedger

open Transactor Ledger

variable {H : Services} {s s' s'' s₁ : Ledger} {tx : STTx} {a : Applied} {c : Chain} {st : Step}
  {id : AccountID}

/-- Keys of proposals are told apart, from each other and from what else the transactions of the fork
file in directories. -/
structure Hashes.ProposalsApart (H : Hashes) : Prop where
  injective : Function.Injective2 H.governanceProposalKey
  ne_bond : ∀ id account n, H.validatorBondKey id ≠ H.governanceProposalKey account n
  ne_name : ∀ name account n, H.accountNameKey name ≠ H.governanceProposalKey account n

/-! ### Sequence numbers under a transaction -/

/-- No account comes or goes, and no sequence number changes. -/
def SameSequences (s s' : Ledger) : Prop :=
  ∀ id, (s'.accounts.lookup id).map AccountRoot.sequence =
    (s.accounts.lookup id).map AccountRoot.sequence

theorem SameSequences.refl (s : Ledger) : SameSequences s s := fun _ => rfl

theorem SameSequences.trans (h : SameSequences s s') (h' : SameSequences s' s'') :
    SameSequences s s'' := fun id => (h' id).trans (h id)

theorem SameSequences.of_eq (h : s'.accounts = s.accounts) : SameSequences s s' := fun id => by rw [h]

theorem sameSequences_insert {root root' : AccountRoot} (h : s'.accounts = s.accounts.insert id root')
    (hroot : s.accounts.lookup id = some root) (hsequence : root'.sequence = root.sequence) :
    SameSequences s s' := by
  intro id'
  rw [h]
  by_cases hid : id' = id
  · subst hid
    rw [AList.lookup_insert, hroot, Option.map_some, Option.map_some, hsequence]
  · rw [AList.lookup_insert_ne hid]

private theorem payClaim_sequences {epoch : RewardEpoch} {share pay : Int}
    (h : payClaim H s tx epoch share = .ok (s', pay)) : SameSequences s s' := by
  obtain ⟨treasury, root, ht, hroot, -, -, -, rfl⟩ := payClaim_ok h
  have hdebit : SameSequences s (s.setAccount H.getTreasuryAccountID
      { treasury with balance := treasury.balance - pay }) := sameSequences_insert rfl ht rfl
  exact hdebit.trans (sameSequences_insert rfl hroot rfl)

private theorem settleLpClaim_sequences {epoch : RewardEpoch} {key : UInt256} {share : ℕ}
    (h : settleLpClaim H s tx epoch key share = .ok a) : SameSequences s a.view := by
  rcases settleLpClaim_ok h with ⟨-, rfl⟩ | ⟨-, s₁, pay, hpay, rfl⟩
  · exact .refl s
  · exact (payClaim_sequences hpay).trans (.of_eq rfl)

theorem doApply_sequences (h : doApply H s tx = .ok a) : SameSequences s a.view := by
  unfold doApply at h
  split at h <;> rename_i hbody
  · obtain ⟨page, s₁, root, hadded, hroot, -, rfl⟩ := ValidatorRegister.doApply_ok h
    exact sameSequences_insert (congrArg (AList.insert _ _) hadded.same.accounts) hroot rfl
  · obtain ⟨root, bond, hroot, -, -, rfl⟩ := ValidatorBond.doApply_ok h
    exact sameSequences_insert rfl hroot rfl
  · obtain ⟨bond, -, rfl⟩ := ValidatorUnbond.doApply_ok h
    exact .of_eq rfl
  · obtain ⟨bond, -, rfl⟩ := ValidatorSlash.doApply_ok h
    exact .of_eq rfl
  · obtain ⟨bond, root, s₁, hremoved, -, hroot, rfl⟩ := ReleaseBond.doApply_ok h
    exact sameSequences_insert (congrArg (AList.insert _ _) hremoved.same.accounts) hroot rfl
  · obtain ⟨bond, epoch, -, -, -, -, ⟨-, rfl⟩ | ⟨-, s₁, pay, hpay, rfl⟩⟩ := ClaimReward.doApply_ok h
    · exact .refl s
    · exact (payClaim_sequences hpay).trans (.of_eq rfl)
  · obtain ⟨_, epoch, _, -, -, -, -, hset⟩ := ClaimLPReward.doApply_ok h
    exact settleLpClaim_sequences hset
  · obtain ⟨_, epoch, -, -, -, -, hset⟩ := ClaimAmmLpReward.doApply_ok h
    exact settleLpClaim_sequences hset
  · obtain ⟨name, page, s₁, root, -, hadded, hroot, -, -, rfl⟩ := NameSet.doApply_ok h
    exact sameSequences_insert (congrArg (AList.insert _ _) hadded.same.accounts) hroot rfl
  · obtain ⟨key, entry, -, -, rfl⟩ := NameUnbond.doApply_ok h
    exact .of_eq rfl
  · obtain ⟨name, entry, root, s₁, -, hremoved, -, hroot, rfl⟩ := NameRelease.doApply_ok h
    exact sameSequences_insert (congrArg (AList.insert _ _) hremoved.same.accounts) hroot rfl
  · obtain ⟨page, s₁, root, hadded, hroot, -, rfl⟩ := GovernanceProposal.doApply_ok h
    exact sameSequences_insert (congrArg (AList.insert _ _) hadded.same.accounts) hroot rfl
  · obtain ⟨proposal, bond, -, -, rfl⟩ := GovernanceVote.doApply_ok h
    exact .of_eq rfl

theorem ApplyContext.destroyXRP_sequences (H : Hashes) (s : Ledger) (fee : Int) :
    SameSequences s (destroyXRP H s fee) := by
  rcases destroyXRP_cases H s fee with ⟨-, -, hd⟩ | ⟨-, -, hd⟩ | ⟨-, treasury, ht, -, -, hd⟩ <;>
    rw [hd]
  · exact .refl s
  · exact .of_eq rfl
  · exact sameSequences_insert rfl ht rfl

/-- No sequence number goes down, and no account comes. -/
def SequencesRise (s s' : Ledger) : Prop :=
  ∀ id root', s'.accounts.lookup id = some root' →
    ∃ root, s.accounts.lookup id = some root ∧ root.sequence.toNat ≤ root'.sequence.toNat

theorem SameSequences.rise (h : SameSequences s s') : SequencesRise s s' := by
  intro id root' hroot'
  have hid := h id
  rw [hroot', Option.map_some] at hid
  obtain ⟨root, hroot, heq⟩ := Option.map_eq_some_iff.mp hid.symm
  exact ⟨root, hroot, heq ▸ le_rfl⟩

theorem SequencesRise.trans (h : SequencesRise s s') (h' : SequencesRise s' s'') :
    SequencesRise s s'' := by
  intro id root'' hroot''
  obtain ⟨root', hroot', hle'⟩ := h' id root'' hroot''
  obtain ⟨root, hroot, hle⟩ := h id root' hroot'
  exact ⟨root, hroot, hle.trans hle'⟩

/-- The number of the transaction is used up: no sequence number goes down, and the sender's is past
the one it came with. -/
structure Spends (tx : STTx) (s s' : Ledger) : Prop where
  rise : SequencesRise s s'
  past : ∀ n, tx.seqProxy = .seq n → ∀ root', s'.accounts.lookup tx.account = some root' →
    n.toNat < root'.sequence.toNat

theorem Spends.after (h : Spends tx s s') (h' : SequencesRise s' s'') : Spends tx s s'' := by
  refine ⟨h.rise.trans h', fun n hn root'' hroot'' => ?_⟩
  obtain ⟨root', hroot', hle⟩ := h' _ root'' hroot''
  exact (h.past n hn root' hroot').trans_le hle

theorem Spends.before (h : SequencesRise s s') (h' : Spends tx s' s'') : Spends tx s s'' :=
  ⟨h.trans h'.rise, h'.past⟩

/-- The sender's next number is in range. -/
def STTx.NextInRange (tx : STTx) (s : Ledger) : Prop :=
  ∀ root, s.accounts.lookup tx.account = some root → root.sequence.toNat + 1 < 2 ^ 32

theorem consumeSeqProxy_spends (hturn : s.InTurn tx) (hrange : tx.NextInRange s)
    (h : consumeSeqProxy H s tx = .ok s') : Spends tx s s' := by
  rw [consumeSeqProxy] at h
  cases hproxy : tx.seqProxy with
  | seq n =>
    simp only [hproxy, Except.bind_eq_ok, orFail_eq_ok, Except.pure_eq_ok] at h
    obtain ⟨root, hroot, rfl⟩ := h
    have hn : root.sequence = n := hturn n hproxy root hroot
    have hlow := hrange root hroot
    have hnext : (n + 1).toNat = n.toNat + 1 := by
      have hadd : (n + 1).toNat = (n.toNat + 1) % 2 ^ 32 := UInt32.toNat_add n 1
      rw [hn] at hlow
      omega
    refine ⟨fun id root' hroot' => ?_, fun m hm root' hroot' => ?_⟩
    · by_cases hid : id = tx.account
      · subst hid
        obtain rfl := Option.some.inj ((AList.lookup_insert _).symm.trans hroot')
        refine ⟨root, hroot, ?_⟩
        rw [hn]
        simp only [hnext]
        omega
      · exact ⟨root', (AList.lookup_insert_ne hid).symm.trans hroot', le_rfl⟩
    · obtain rfl := SeqProxy.seq.inj (hproxy.symm.trans hm)
      obtain rfl := Option.some.inj ((AList.lookup_insert _).symm.trans hroot')
      simp only [hnext]
      omega
  | ticket v =>
    simp only [hproxy, ticketDelete, Except.bind_eq_ok, orFail_eq_ok, Except.pure_eq_ok] at h
    obtain ⟨entry, -, _, hdir, s₁, rfl, root, hroot, count, -, rfl⟩ := h
    refine ⟨?_, fun n hn => by cases hproxy.symm.trans hn⟩
    have hpages : SameSequences s s₁ := .of_eq (dirRemove_sameButDirs hdir).accounts
    have hcounted : ∀ root', root'.sequence = root.sequence →
        SameSequences s₁ (s₁.setAccount tx.account root') := fun root' hsequence =>
      sameSequences_insert rfl hroot hsequence
    exact ((hpages.trans (hcounted _ (by rfl))).trans (.of_eq rfl)).rise

theorem charge_spends (hturn : s.InTurn tx) (hrange : tx.NextInRange s)
    (hfound : s.accounts.lookup tx.account ≠ none) (h : charge H s tx = .ok s') :
    Spends tx s s' := by
  rw [charge, if_neg hfound] at h
  simp only [Except.bind_eq_ok, payFee, orFail_eq_ok, Except.pure_eq_ok] at h
  obtain ⟨s₁, hconsume, _, ⟨payer, hpayer, rfl⟩, rfl⟩ := h
  refine (consumeSeqProxy_spends hturn hrange hconsume).after ?_
  have hpaid : SameSequences s₁ (s₁.setAccount tx.getFeePayer
      { payer with balance := payer.balance - tx.fee }) := sameSequences_insert rfl hpayer rfl
  refine (hpaid.trans ?_).rise
  rw [setAccountTxnID]
  split
  · rename_i root hroot
    split_ifs
    · exact sameSequences_insert rfl hroot rfl
    · exact .refl _
  · exact .refl _

theorem reset_spends {fee fee' : Int} (hturn : s.InTurn tx) (hrange : tx.NextInRange s)
    (h : reset H s tx fee = .ok (s', fee')) : Spends tx s s' := by
  simp only [reset, Except.bind_eq_ok, orFail_eq_ok, Except.pure_eq_ok] at h
  obtain ⟨_, -, payer, hpayer, s₁, hconsume, heq⟩ := h
  obtain ⟨rfl, -⟩ := Prod.mk.inj heq
  have hpaid : SameSequences s (s.setAccount tx.getFeePayer
      { payer with balance := payer.balance - if payer.balance < fee then payer.balance else fee }) :=
    sameSequences_insert rfl hpayer rfl
  have hsame : ∀ root', (s.setAccount tx.getFeePayer { payer with
      balance := payer.balance - if payer.balance < fee then payer.balance else fee }).accounts.lookup
        tx.account = some root' →
      ∃ root, s.accounts.lookup tx.account = some root ∧ root.sequence = root'.sequence :=
    fun root' hroot' => by
      have hid := hpaid tx.account
      rw [hroot', Option.map_some] at hid
      exact Option.map_eq_some_iff.mp hid.symm
  refine Spends.before hpaid.rise (consumeSeqProxy_spends (fun n hn root' hroot' => ?_)
    (fun root' hroot' => ?_) hconsume)
  · obtain ⟨root, hroot, heq⟩ := hsame root' hroot'
    exact heq.symm.trans (hturn n hn root hroot)
  · obtain ⟨root, hroot, heq⟩ := hsame root' hroot'
    exact heq ▸ hrange root hroot

theorem applyTransaction_checked (H : Services) (flags : ApplyFlags) (s : Ledger) (tx : STTx) :
    (applyTransaction H flags s tx).1 = s ∨ checkSeqProxy s tx = .ok () := by
  rw [applyTransaction]
  split
  · exact .inl rfl
  · cases hcheck : checkSeqProxy s tx with
    | ok u => exact .inr rfl
    | error ter =>
      left
      have hclaim : invokePreclaim H s tx = .error ter := by
        rw [invokePreclaim, hcheck]
        rfl
      rw [hclaim]
      dsimp only
      rw [checkSeqProxy_not_tec hcheck]
      rfl

/-! ### Keys in use -/

/-- Every proposal has a number its account is past, and every proposal that is listed is there. -/
structure Ledger.ProposalsFiled (H : Hashes) (s : Ledger) : Prop where
  positive : ∀ id root, s.accounts.lookup id = some root → 0 < root.sequence.toNat
  filed : ∀ id n o p, H.governanceProposalKey id n ∈ s.listed o p →
    s.proposals.lookup (H.governanceProposalKey id n) ≠ none
  past : ∀ id n, s.proposals.lookup (H.governanceProposalKey id n) ≠ none →
    ∀ root, s.accounts.lookup id = some root → n.toNat < root.sequence.toNat

theorem proposalsFiled_of_none {H : Hashes}
    (hpositive : Table.All (fun root : AccountRoot => 0 < root.sequence.toNat) s.accounts)
    (hproposals : s.proposals = ∅) (hlisted : ∀ id n o p, H.governanceProposalKey id n ∉ s.listed o p) :
    s.ProposalsFiled H := by
  refine ⟨hpositive, fun id n o p hmem => absurd hmem (hlisted id n o p), fun id n hthere => ?_⟩
  rw [hproposals] at hthere
  exact absurd rfl hthere

theorem Ledger.ProposalsFiled.of_rise {H : Hashes} (h : s.ProposalsFiled H) (hrise : SequencesRise s s')
    (hkeys : ∀ k, s'.proposals.lookup k = none ↔ s.proposals.lookup k = none)
    (hlisted : ∀ id n o p, H.governanceProposalKey id n ∈ s'.listed o p →
      H.governanceProposalKey id n ∈ s.listed o p) : s'.ProposalsFiled H := by
  refine ⟨fun id root' hroot' => ?_, fun id n o p hmem => ?_, fun id n hthere root' hroot' => ?_⟩
  · obtain ⟨root, hroot, hle⟩ := hrise id root' hroot'
    exact (h.positive id root hroot).trans_le hle
  · exact (not_congr (hkeys _)).mpr (h.filed id n o p (hlisted id n o p hmem))
  · obtain ⟨root, hroot, hle⟩ := hrise id root' hroot'
    exact (h.past id n ((not_congr (hkeys _)).mp hthere) root hroot).trans_le hle

theorem Ledger.PageLost.subset {owner o : AccountID} {page p : UInt64} {key k : UInt256}
    (h : s.PageLost owner page key s') (hk : k ∈ s'.listed o p) : k ∈ s.listed o p := by
  by_cases hop : (o, p) = (owner, page)
  · obtain ⟨rfl, rfl⟩ := Prod.mk.inj hop
    rw [h.listed] at hk
    exact List.mem_of_mem_erase hk
  · rwa [h.others o p hop] at hk

theorem Ledger.PageGained.eq_or_mem {owner o : AccountID} {page p : UInt64} {key k : UInt256}
    (h : s.PageGained owner key page s') (hk : k ∈ s'.listed o p) : k = key ∨ k ∈ s.listed o p := by
  by_cases hop : (o, p) = (owner, page)
  · obtain ⟨rfl, rfl⟩ := Prod.mk.inj hop
    exact List.mem_cons.mp (h.listed.mem_iff.mp hk)
  · rw [h.others o p hop] at hk
    exact .inr hk

theorem Ledger.ProposalsFiled.charged (h : s.ProposalsFiled H.toHashes) (hspends : Spends tx s s')
    (hsame : SameButAccounts s s') (hsettled : Settled H.toHashes tx s s') :
    s'.ProposalsFiled H.toHashes := by
  refine h.of_rise hspends.rise (fun k => by rw [hsame]) fun id n o p hmem => ?_
  rcases hsettled.pages with heq | ⟨page, v, hlost⟩
  · rwa [heq] at hmem
  · exact hlost.subset hmem

theorem proposals_of_not_proposal (h : doApply H s tx = .ok a)
    (hbody : ∀ consensusKey type value, tx.body ≠ .governanceProposal consensusKey type value)
    (k : UInt256) : a.view.proposals.lookup k = none ↔ s.proposals.lookup k = none := by
  by_cases hvote : ∃ consensusKey proposalID weight,
      tx.body = .governanceVote consensusKey proposalID weight
  · obtain ⟨consensusKey, proposalID, weight, hvote⟩ := hvote
    simp only [doApply, hvote] at h
    obtain ⟨proposal, bond, hproposal, -, rfl⟩ := GovernanceVote.doApply_ok h
    by_cases hk : k = proposalID
    · subst hk
      rw [AList.lookup_insert, hproposal]
      exact iff_of_false (Option.some_ne_none _) (Option.some_ne_none _)
    · rw [AList.lookup_insert_ne hk]
  · rw [doApply_proposals h hbody fun consensusKey proposalID weight heq =>
      hvote ⟨consensusKey, proposalID, weight, heq⟩]

theorem listed_of_not_proposal (hapart : H.toHashes.ProposalsApart) (h : doApply H s tx = .ok a)
    (hbody : ∀ consensusKey type value, tx.body ≠ .governanceProposal consensusKey type value)
    (id : AccountID) (n : UInt32) (o : AccountID) (p : UInt64)
    (hmem : H.governanceProposalKey id n ∈ a.view.listed o p) :
    H.governanceProposalKey id n ∈ s.listed o p := by
  cases doApply_pageMove h with
  | same hpages => rwa [hpages] at hmem
  | unbondName _ hpages => rwa [hpages] at hmem
  | register _ hpage =>
    exact (hpage.eq_or_mem hmem).resolve_left fun heq => hapart.ne_bond _ _ _ heq.symm
  | release _ _ hpage => exact hpage.subset hmem
  | setName _ hpage =>
    exact (hpage.eq_or_mem hmem).resolve_left fun heq => hapart.ne_name _ _ _ heq.symm
  | releaseName _ _ _ hpage => exact hpage.subset hmem
  | propose hpropose => exact absurd hpropose (hbody _ _ _)

theorem Ledger.ProposalsFiled.propose (hapart : H.toHashes.ProposalsApart)
    (h : s.ProposalsFiled H.toHashes)
    (hpast : ∀ n, tx.seqProxy = .seq n → ∀ root, s.accounts.lookup tx.account = some root →
      n.toNat < root.sequence.toNat) {type value : UInt32}
    (hdone : GovernanceProposal.doApply H s tx type value = .ok a)
    (hrise : SequencesRise s a.view) : a.view.ProposalsFiled H.toHashes := by
  obtain ⟨page, s₁, root, hadded, -, -, rfl⟩ := GovernanceProposal.doApply_ok hdone
  refine ⟨fun id root' hroot' => ?_, fun id n o p hmem => ?_, fun id n hthere root' hroot' => ?_⟩
  · obtain ⟨root, hroot, hle⟩ := hrise id root' hroot'
    exact (h.positive id root hroot).trans_le hle
  · dsimp only
    rcases hadded.page.eq_or_mem hmem with heq | hmem
    · rw [heq, AList.lookup_insert]
      exact Option.some_ne_none _
    · by_cases hk : H.governanceProposalKey id n = GovernanceProposal.proposalKey H.toHashes tx
      · rw [hk, AList.lookup_insert]
        exact Option.some_ne_none _
      · rw [AList.lookup_insert_ne hk]
        exact h.filed id n o p hmem
  · obtain ⟨root, hroot, hle⟩ := hrise id root' hroot'
    refine lt_of_lt_of_le ?_ hle
    by_cases hk : H.governanceProposalKey id n = GovernanceProposal.proposalKey H.toHashes tx
    · obtain ⟨rfl, rfl⟩ := hapart.injective hk
      rw [STTx.sequence]
      cases hproxy : tx.seqProxy with
      | seq n => exact hpast n hproxy root hroot
      | ticket v => exact h.positive _ root hroot
    · dsimp only at hthere
      rw [AList.lookup_insert_ne hk] at hthere
      exact h.past id n hthere root hroot

theorem Ledger.ProposalsFiled.applied (hapart : H.toHashes.ProposalsApart)
    (h : s.ProposalsFiled H.toHashes)
    (hpast : ∀ n, tx.seqProxy = .seq n → ∀ root, s.accounts.lookup tx.account = some root →
      n.toNat < root.sequence.toNat)
    (hdone : doApply H s tx = .ok a) : a.view.ProposalsFiled H.toHashes := by
  have hrise := (doApply_sequences hdone).rise
  by_cases hpropose : ∃ consensusKey type value, tx.body = .governanceProposal consensusKey type value
  · obtain ⟨consensusKey, type, value, hbody⟩ := hpropose
    simp only [doApply, hbody] at hdone
    exact h.propose hapart hpast hdone hrise
  · have hbody : ∀ consensusKey type value,
        tx.body ≠ .governanceProposal consensusKey type value := fun consensusKey type value heq =>
      hpropose ⟨consensusKey, type, value, heq⟩
    exact h.of_rise hrise (proposals_of_not_proposal hdone hbody)
      (listed_of_not_proposal hapart hdone hbody)

theorem Ledger.ProposalsFiled.split {H : Hashes} (h : s.ProposalsFiled H) (fee : Int) :
    (ApplyContext.destroyXRP H s fee).ProposalsFiled H := by
  refine h.of_rise (ApplyContext.destroyXRP_sequences H s fee).rise (fun k => ?_)
    fun id n o p hmem => ?_
  · rw [ApplyContext.destroyXRP_eq]
  · rwa [(ApplyContext.destroyXRP_sameOwners H s fee).pages] at hmem

/-- **A transaction keeps the proposals filed.** -/
theorem Ledger.ProposalsFiled.transaction (hapart : H.toHashes.ProposalsApart)
    (h : s.ProposalsFiled H.toHashes) (flags : ApplyFlags) (hrange : tx.NextInRange s) :
    (applyTransaction H flags s tx).1.ProposalsFiled H.toHashes := by
  rcases applyTransaction_checked H flags s tx with hsame | hcheck
  · rw [hsame]
    exact h
  · have hturn := inTurn_of_checkSeqProxy hcheck
    have hout := applyTransaction_outcome H flags s tx
    generalize applyTransaction H flags s tx = r at hout
    cases hout with
    | unapplied => exact h
    | feeOnly hreset =>
      exact (h.charged (reset_spends hturn hrange hreset) (reset_ok hreset).same
        (reset_settled hreset)).split _
    | success _ hclaim hcharge hdone =>
      have hfound := account_ne_none_of_preclaim hclaim
      have hspends := charge_spends hturn hrange hfound hcharge
      exact ((h.charged hspends (charge_ok hcharge hfound).same
        (charge_settled hcharge hfound)).applied hapart hspends.past hdone).split _

/-! ### Runs -/

/-- What the rest of the program does to sequence numbers: they do not go down, and an account that
comes starts behind the numbers of its proposals. The transactions of the fork stay in range. -/
def SequencesForward (H : Services) (c : Chain) : Step → Prop
  | .tx _ tx => tx.NextInRange c.view
  | .close _ => True
  | .outside accounts _ => ∀ id root', accounts.lookup id = some root' → 0 < root'.sequence.toNat ∧
      (∀ root, c.view.accounts.lookup id = some root →
        root.sequence.toNat ≤ root'.sequence.toNat) ∧
      (c.view.accounts.lookup id = none → ∀ n,
        c.view.proposals.lookup (H.governanceProposalKey id n) ≠ none →
          n.toNat < root'.sequence.toNat)

theorem Chain.proposalKeys_close (H : Services) (c : Chain) (store : Validations) (k : UInt256) :
    (c.step H (.close store)).1.view.proposals.lookup k = none ↔
      c.view.proposals.lookup k = none := by
  rcases c.lookup_proposals_close H store k with heq | heq <;> rw [heq]
  exact Option.map_eq_none_iff

theorem Ledger.ProposalsFiled.step (hapart : H.toHashes.ProposalsApart)
    (h : c.view.ProposalsFiled H.toHashes) (hst : SequencesForward H c st) :
    (c.step H st).1.view.ProposalsFiled H.toHashes := by
  cases st with
  | tx flags tx => exact h.transaction hapart flags hst
  | close store =>
    refine h.of_rise (SameSequences.of_eq (Chain.accounts_close H c store)).rise
      (c.proposalKeys_close H store) fun id n o p hmem => ?_
    rwa [listed_congr (c.registry_close H store).2] at hmem
  | outside accounts holdings =>
    refine ⟨fun id root' hroot' => (hst id root' hroot').1, h.filed, fun id n hthere root' hroot' => ?_⟩
    obtain ⟨-, hrise, hnew⟩ := hst id root' hroot'
    cases hroot : c.view.accounts.lookup id with
    | none => exact hnew hroot n hthere
    | some root => exact (h.past id n hthere root hroot).trans_le (hrise root hroot)

/-- The transaction is a proposal that comes to `doApply`, on the ledger `s₁`. -/
structure Proposes (H : Services) (s : Ledger) (st : Step) (tx : STTx) (s₁ : Ledger) : Prop where
  step : ∃ flags, st = .tx flags tx
  body : ∃ consensusKey type value, tx.body = .governanceProposal consensusKey type value
  preclaim : invokePreclaim H s tx = .ok ()
  charge : Transactor.charge H s tx = .ok s₁

/-- The links of a directory lead to a last page with nothing behind it. -/
def Ledger.DirLinked (s : Ledger) (owner : AccountID) : Prop :=
  ∀ root, s.dirs.lookup (owner, 0) = some root →
    (s.dirs.lookup (owner, root.indexPrevious)).isSome ∧
      s.dirs.lookup (owner, root.indexPrevious + 1) = none

/-- The object and the directory entry of the proposal are new, and as far as the links of the directory
are in order nothing is thrown. -/
structure NoCollision (H : Services) (s₁ : Ledger) (tx : STTx) : Prop where
  object : s₁.proposals.lookup (GovernanceProposal.proposalKey H.toHashes tx) = none
  entry : ∀ page, GovernanceProposal.proposalKey H.toHashes tx ∉ s₁.listed tx.account page
  thrown : s₁.DirLinked tx.account → doApply H s₁ tx ≠ .error .tefException

/-- The transaction has a sequence number, or its account has no proposal yet that was made with a
ticket. -/
def FirstTicketed (H : Services) (s : Ledger) (tx : STTx) : Prop :=
  (∃ n, tx.seqProxy = .seq n) ∨ s.proposals.lookup (H.governanceProposalKey tx.account 0) = none

/-- The key of the proposal a step creates. -/
def proposed (H : Services) (c : Chain) (st : Step) : Option UInt256 :=
  match st with
  | .tx flags tx =>
    match tx.body with
    | .governanceProposal .. =>
      if (applyTransaction H flags c.view tx).2.succeeded then
        some (GovernanceProposal.proposalKey H.toHashes tx)
      else none
    | _ => none
  | _ => none

theorem dirInsert_of_linked {owner : AccountID} {key : UInt256} (hlinked : s.DirLinked owner)
    (hnew : ∀ page, key ∉ s.listed owner page) : ∃ r, s.dirInsert owner key = .ok r := by
  rw [dirInsert]
  cases hroot : s.dirs.lookup (owner, 0) with
  | none => exact ⟨_, rfl⟩
  | some root =>
    obtain ⟨hlast, hend⟩ := hlinked root hroot
    obtain ⟨node, hnode⟩ := Option.isSome_iff_exists.mp hlast
    have hkey : key ∉ node.indexes := by
      rw [← listed_of_lookup hnode]
      exact hnew _
    -- the root is still there once the last page is linked to a new one
    have hstill : ∀ node', ∃ root', AList.lookup (owner, 0)
        (s.setPage owner root.indexPrevious node').dirs = some root' := fun node' => by
      by_cases hzero : root.indexPrevious = 0
      · rw [hzero]
        exact ⟨node', AList.lookup_insert _⟩
      · have hne : (owner, (0 : UInt64)) ≠ (owner, root.indexPrevious) := fun heq =>
          hzero (Prod.mk.inj heq).2.symm
        exact ⟨root, (AList.lookup_insert_ne hne).trans hroot⟩
    obtain ⟨root', hroot'⟩ := hstill { node with indexNext := root.indexPrevious + 1 }
    simp only [hnode, orFail, bind, Except.bind, hend, Option.isSome_none, failIf,
      Bool.false_eq_true, if_false, if_neg hkey, hroot']
    split_ifs <;> exact ⟨_, rfl⟩

theorem GovernanceProposal.doApply_throws {type value : UInt32} (hlinked : s.DirLinked tx.account)
    (hobject : s.proposals.lookup (GovernanceProposal.proposalKey H.toHashes tx) = none)
    (hentry : ∀ page, GovernanceProposal.proposalKey H.toHashes tx ∉ s.listed tx.account page) :
    GovernanceProposal.doApply H s tx type value ≠ .error .tefException := by
  obtain ⟨r, hdir⟩ := dirInsert_of_linked hlinked hentry
  rw [GovernanceProposal.doApply]
  simp only [hdir, bind, Except.bind]
  cases r with
  | none =>
    intro h
    cases h
  | some r =>
    obtain ⟨page, s₁⟩ := r
    have hsame : s₁.proposals = s.proposals := (dirInsert_ok hdir).same.proposals
    simp only [orFail, hsame, hobject, Option.isSome_none, failIf, Bool.false_eq_true, if_false]
    intro h
    split at h <;> cases h
    rename_i hroot
    split at hroot <;> cases hroot

theorem Chain.step_keeps_keys (c : Chain) (st : Step) {k : UInt256}
    (h : c.view.proposals.lookup k ≠ none) : (c.step H st).1.view.proposals.lookup k ≠ none := by
  cases st with
  | tx flags tx =>
    obtain ⟨proposal, hproposal⟩ := Option.ne_none_iff_exists'.mp h
    obtain ⟨proposal', hproposal', -⟩ :=
      (applyTransaction_outcome H flags c.view tx).proposalsKept.proposals k proposal hproposal
    exact Option.ne_none_iff_exists'.mpr ⟨proposal', hproposal'⟩
  | close store => exact (not_congr (c.proposalKeys_close H store k)).mpr h
  | outside accounts holdings => exact h

theorem proposed_new {k : UInt256} (h : proposed H c st = some k) :
    c.view.proposals.lookup k = none ∧ (c.step H st).1.view.proposals.lookup k ≠ none := by
  cases st with
  | close | outside => cases h
  | tx flags tx =>
    simp only [proposed] at h
    cases hbody : tx.body with
    | governanceProposal consensusKey type value =>
      simp only [hbody] at h
      split_ifs at h with hok
      obtain rfl := Option.some.inj h
      simp only [Receipt.succeeded, Bool.and_eq_true, decide_eq_true_eq] at hok
      obtain ⟨s₁, a, -, hclaim, hcharge, hdone, -, hview⟩ :=
        (applyTransaction_outcome H flags c.view tx).of_success hok.1 hok.2
      have hsame := (charge_ok hcharge (account_ne_none_of_preclaim hclaim)).same
      simp only [doApply, hbody] at hdone
      obtain ⟨page, s₂, root, -, -, hnew, rfl⟩ := GovernanceProposal.doApply_ok hdone
      refine ⟨?_, ?_⟩
      · rwa [hsame] at hnew
      · rw [Chain.step]
        dsimp only
        rw [hview, ApplyContext.destroyXRP_eq]
        dsimp only
        rw [AList.lookup_insert]
        exact Option.some_ne_none _
    | _ => simp [hbody] at h

/-- The keys made so far differ, and are in use. -/
structure KeysInUse (s : Ledger) (keys : List UInt256) : Prop where
  nodup : keys.Nodup
  there : ∀ k ∈ keys, s.proposals.lookup k ≠ none

theorem KeysInUse.step {keys : List UInt256} (h : KeysInUse c.view keys) (st : Step) :
    KeysInUse (c.step H st).1.view (keys ++ (proposed H c st).toList) := by
  cases hproposed : proposed H c st with
  | none =>
    rw [Option.toList_none, List.append_nil]
    exact ⟨h.nodup, fun k hk => c.step_keeps_keys st (h.there k hk)⟩
  | some k =>
    obtain ⟨hnew, hthere⟩ := proposed_new hproposed
    rw [Option.toList_some]
    refine ⟨List.Nodup.append h.nodup (List.nodup_singleton k) fun k' hk' hmem => ?_,
      fun k' hk' => ?_⟩
    · rw [List.mem_singleton.mp hmem] at hk'
      exact h.there k hk' hnew
    · rcases List.mem_append.mp hk' with hk' | hk'
      · exact c.step_keeps_keys st (h.there k' hk')
      · rw [List.mem_singleton.mp hk']
        exact hthere

theorem Ledger.ProposalsFiled.noCollision_iff (h : c.view.ProposalsFiled H.toHashes)
    (hst : SequencesForward H c st) (hproposes : Proposes H c.view st tx s₁) :
    NoCollision H s₁ tx ↔ FirstTicketed H c.view tx := by
  obtain ⟨⟨flags, rfl⟩, ⟨consensusKey, type, value, hbody⟩, hclaim, hcharge⟩ := hproposes
  have hcheck : checkSeqProxy c.view tx = .ok () := by
    obtain ⟨u, hcheck, -⟩ := Except.bind_eq_ok.mp hclaim
    exact hcheck
  have hturn := inTurn_of_checkSeqProxy hcheck
  have hfound := account_ne_none_of_preclaim hclaim
  have hsame := (charge_ok hcharge hfound).same
  have hcharged := h.charged (charge_spends hturn hst hfound hcharge) hsame
    (charge_settled hcharge hfound)
  have hproposals : s₁.proposals = c.view.proposals := by rw [hsame]
  -- all depends on the object: a key that is listed has one
  have hobject : NoCollision H s₁ tx ↔
      c.view.proposals.lookup (GovernanceProposal.proposalKey H.toHashes tx) = none := by
    rw [← hproposals]
    refine ⟨NoCollision.object, fun hobject => ?_⟩
    have hentry : ∀ page,
        GovernanceProposal.proposalKey H.toHashes tx ∉ s₁.listed tx.account page :=
      fun page hmem => hcharged.filed _ _ _ _ hmem hobject
    refine ⟨hobject, hentry, fun hlinked => ?_⟩
    simp only [doApply, hbody]
    exact GovernanceProposal.doApply_throws hlinked hobject hentry
  rw [hobject, FirstTicketed, GovernanceProposal.proposalKey, STTx.sequence]
  cases hproxy : tx.seqProxy with
  | seq n =>
    refine iff_of_true ?_ (.inl ⟨n, rfl⟩)
    by_contra hthere
    obtain ⟨root, hroot⟩ := Option.ne_none_iff_exists'.mp hfound
    have hlt := h.past _ _ hthere root hroot
    rw [hturn n hproxy root hroot] at hlt
    exact absurd hlt (lt_irrefl _)
  | ticket v =>
    refine ⟨.inr, fun hfirst => hfirst.resolve_left ?_⟩
    rintro ⟨n, hn⟩
    cases hn

/-- **Proposals collide** only with a ticket. In every run in which sequence numbers do not go down, the
proposals that are created have keys of their own, and a proposal that comes to be applied finds its key
new exactly if it has a sequence number or is the first its account makes with a ticket. -/
theorem proposals_collide_iff (hapart : H.toHashes.ProposalsApart)
    (hstart : c.view.ProposalsFiled H.toHashes) {steps : List Step}
    (hrun : Run.Always (Chain.step H) (SequencesForward H) c steps) :
    (Run.record (Chain.step H) (proposed H) c steps).Nodup ∧
      Run.Always (Chain.step H) (fun c st => ∀ tx s₁, Proposes H c.view st tx s₁ →
        (NoCollision H s₁ tx ↔ FirstTicketed H c.view tx)) c steps := by
  constructor
  · have hkeys : KeysInUse (Run.final (Chain.step H) c steps).view
        ([] ++ Run.record (Chain.step H) (proposed H) c steps) :=
      Run.invariant_record (fun c keys => KeysInUse c.view keys) (fun c st keys h _ => h.step st)
        ⟨List.nodup_nil, fun k hk => absurd hk List.not_mem_nil⟩ hrun
    exact hkeys.nodup
  · exact Run.always_of_invariant (fun c => c.view.ProposalsFiled H.toHashes)
      (fun c st h hst => h.step hapart hst)
      (fun c st h hst tx s₁ hproposes => h.noCollision_iff hst hproposes) hstart hrun

namespace Sample

theorem taggedServices_proposalsApart : taggedServices.toHashes.ProposalsApart := by
  refine ⟨fun account account' n n' heq => ?_, taggedServices_separate.bond_ne_proposal,
    fun name account n heq => ?_⟩ <;> replace heq := congrArg BitVec.toNat heq
  · have := n.toNat_lt
    have := n'.toNat_lt
    rw [proposalKey_toNat, proposalKey_toNat] at heq
    exact ⟨BitVec.eq_of_toNat_eq (by omega), UInt32.toNat_inj.mp (by omega)⟩
  · have := account.isLt
    have := n.toNat_lt
    rw [accountNameKey_toNat, proposalKey_toNat] at heq
    omega

def ticketedChain : Chain :=
  .start
    { ledger with
      accounts := ledger.accounts.insert alice
        { account 1000000 with sequence := 10, ownerCount := 2, ticketCount := some 2 }
      tickets := (AList.insert (alice, 5) ⟨0⟩ ∅).insert (alice, 6) ⟨0⟩
      dirs := AList.insert (alice, 0)
        ⟨[taggedServices.ticketKey alice 5, taggedServices.ticketKey alice 6], 0, 0⟩ ∅ }

def ticketedProposal (ticket value : UInt32) : STTx :=
  ⟨BitVec.ofNat 256 ticket.toNat, alice, none, 10, .ticket ticket,
    .governanceProposal aliceKey 1 value⟩

def proposeTwice : List Step :=
  [.tx flags (ticketedProposal 5 6000), .tx flags (ticketedProposal 6 6500)]

def proposedOnce : Chain := (ticketedChain.step taggedServices (.tx flags (ticketedProposal 5 6000))).1

theorem ticketedChain_proposalsFiled : ticketedChain.view.ProposalsFiled taggedServices.toHashes := by
  refine proposalsFiled_of_none (Table.all_of_entries (by decide +kernel)) rfl fun id n o p hmem => ?_
  have hticket : ∀ v : UInt32, (taggedServices.ticketKey alice v).toNat = 2 ^ 201 + 2 ^ 33 + v.toNat :=
    fun v => by
      have hv := v.toNat_lt
      have hlt : 2 ^ 201 + 2 ^ 32 * alice.toNat + v.toNat < 2 ^ 256 := by
        have halice : alice.toNat = 2 := rfl
        omega
      exact (BitVec.toNat_ofNat ..).trans (Nat.mod_eq_of_lt hlt)
  have hproposal : (taggedServices.governanceProposalKey id n).toNat =
      2 ^ 200 + 2 ^ 32 * id.toNat + n.toNat := by
    have hid := id.isLt
    have hn := n.toNat_lt
    exact (BitVec.toNat_ofNat ..).trans (Nat.mod_eq_of_lt (by omega))
  have hlisted : taggedServices.governanceProposalKey id n ∈
      [taggedServices.ticketKey alice 5, taggedServices.ticketKey alice 6] := by
    by_cases hop : (o, p) = (alice, 0)
    · obtain ⟨rfl, rfl⟩ := Prod.mk.inj hop
      exact hmem
    · rw [listed_of_none ((AList.lookup_insert_ne hop).trans (AList.lookup_empty _))] at hmem
      cases hmem
  have hid := id.isLt
  have hn := n.toNat_lt
  rcases List.mem_pair.mp hlisted with heq | heq <;> replace heq := congrArg BitVec.toNat heq <;>
    rw [hproposal, hticket] at heq
  · have hfive : (5 : UInt32).toNat = 5 := rfl
    omega
  · have hsix : (6 : UInt32).toNat = 6 := rfl
    omega

theorem proposeTwice_forward :
    Run.Always (Chain.step taggedServices) (SequencesForward taggedServices) ticketedChain
      proposeTwice := by
  have hlow : Run.Always (Chain.step taggedServices)
      (fun c _ => ∀ e ∈ c.view.accounts.entries, e.2.sequence.toNat + 1 < 2 ^ 32) ticketedChain
      proposeTwice := by
    decide +kernel
  have hrange : ∀ (c : Chain) (tx : STTx),
      (∀ e ∈ c.view.accounts.entries, e.2.sequence.toNat + 1 < 2 ^ 32) → tx.NextInRange c.view :=
    fun c tx h root hroot => by
      have hall : Table.All (fun root : AccountRoot => root.sequence.toNat + 1 < 2 ^ 32)
          c.view.accounts := Table.all_of_entries h
      exact hall _ root hroot
  exact ⟨hrange _ _ hlow.1, hrange _ _ hlow.2.1, trivial⟩

end Sample

theorem exists_proposes {H : Services} {s : Ledger} {flags : ApplyFlags} {tx : STTx}
    (hbody : ∃ consensusKey type value, tx.body = .governanceProposal consensusKey type value)
    (hclaim : (invokePreclaim H s tx).isOk = true) (hcharge : (Transactor.charge H s tx).isOk = true) :
    ∃ s₁, Proposes H s (.tx flags tx) tx s₁ := by
  cases hok : Transactor.charge H s tx with
  | error ter =>
    rw [hok] at hcharge
    cases hcharge
  | ok s₁ =>
    cases hpre : invokePreclaim H s tx with
    | error ter =>
      rw [hpre] at hclaim
      cases hclaim
    | ok u => exact ⟨s₁, ⟨_, rfl⟩, hbody, hpre, hok⟩

theorem proposals_collide_first :
    ∃ s₁, Proposes Sample.taggedServices Sample.ticketedChain.view
        (.tx Sample.flags (Sample.ticketedProposal 5 6000)) (Sample.ticketedProposal 5 6000) s₁ ∧
      NoCollision Sample.taggedServices s₁ (Sample.ticketedProposal 5 6000) := by
  have hall := proposals_collide_iff Sample.taggedServices_proposalsApart
    Sample.ticketedChain_proposalsFiled Sample.proposeTwice_forward
  obtain ⟨s₁, hproposes⟩ : ∃ s₁, Proposes Sample.taggedServices Sample.ticketedChain.view
      (.tx Sample.flags (Sample.ticketedProposal 5 6000)) (Sample.ticketedProposal 5 6000) s₁ :=
    exists_proposes ⟨_, _, _, rfl⟩ (by decide +kernel) (by decide +kernel)
  exact ⟨s₁, hproposes, (hall.2.1 _ s₁ hproposes).mpr (.inr (by decide +kernel))⟩

/-- The second of two proposals with tickets passes all checks and ends in an exception. -/
theorem proposals_collide_second :
    (applyTransaction Sample.taggedServices Sample.flags Sample.ticketedChain.view
        (Sample.ticketedProposal 5 6000)).2.succeeded = true ∧
      (∃ s₁, Proposes Sample.taggedServices Sample.proposedOnce.view
          (.tx Sample.flags (Sample.ticketedProposal 6 6500)) (Sample.ticketedProposal 6 6500) s₁ ∧
        ¬NoCollision Sample.taggedServices s₁ (Sample.ticketedProposal 6 6500)) ∧
      (applyTransaction Sample.taggedServices Sample.flags Sample.proposedOnce.view
        (Sample.ticketedProposal 6 6500)).2.ter = .tefException := by
  refine ⟨by decide +kernel, ?_, by decide +kernel⟩
  obtain ⟨s₁, hproposes⟩ : ∃ s₁, Proposes Sample.taggedServices Sample.proposedOnce.view
      (.tx Sample.flags (Sample.ticketedProposal 6 6500)) (Sample.ticketedProposal 6 6500) s₁ :=
    exists_proposes ⟨_, _, _, rfl⟩ (by decide +kernel) (by decide +kernel)
  have hthere : (Sample.proposedOnce.view.proposals.lookup (GovernanceProposal.proposalKey
      Sample.taggedServices.toHashes (Sample.ticketedProposal 6 6500))).isSome = true := by
    decide +kernel
  refine ⟨s₁, hproposes, fun hno => ?_⟩
  have hsame :=
    (charge_ok hproposes.charge (account_ne_none_of_preclaim hproposes.preclaim)).same
  have hobject := hno.object
  rw [hsame] at hobject
  dsimp only at hobject
  rw [hobject] at hthere
  cases hthere

end FalconLedger
