import FalconLedger.Properties.Governance
import FalconLedger.Tx.OwnerCounts

/-!
# Votes

A proposal keeps its votes in three fields: the ids of the bonds that voted, packed into one list of
bytes, and a saturating sum of scores for each side. A `Ballot` is a vote with the score its bond
had at that moment; `GovernanceProposal.Records` says that the fields are those of a list of ballots
of different bonds, and every run keeps this (`vote_integrity_run`). The tally compares these scores
with the score sum of its own moment (`supermajority_run`).
-/

namespace FalconLedger

open Transactor Ledger BuildLedger GovernanceTally
open GovernanceVote (accountIDBytes hasVoted appendVoter addWeight castVote)

variable {H : Services} {flags : ApplyFlags} {s : Ledger} {tx : STTx} {a : Applied} {key : UInt256}
  {ballots : List Ballot} {c : Chain} {st : Step}

/-! ### Packed ids -/

theorem accountIDBytes_eq (id : AccountID) : accountIDBytes id = Bytes.toBE 20 id.toNat := rfl

@[simp] theorem length_accountIDBytes (id : AccountID) : (accountIDBytes id).length = 20 := by
  rw [accountIDBytes_eq, Bytes.length_toBE]

theorem accountIDBytes_injective : Function.Injective accountIDBytes := by
  intro id id' h
  have hlt : ∀ id : AccountID, id.toNat < 256 ^ 20 := fun id => id.isLt
  exact BitVec.eq_of_toNat_eq (Bytes.toBE_injective (hlt id) (hlt id') h)

/-- The list of the bonds that voted, as the proposal stores it. -/
def packVoters (ids : List AccountID) : Blob := (ids.map accountIDBytes).flatten

private theorem length_of_mem_packed {ids : List AccountID} :
    ∀ block ∈ ids.map accountIDBytes, block.length = 20 := by
  intro block hblock
  obtain ⟨id, -, rfl⟩ := List.mem_map.mp hblock
  exact length_accountIDBytes id

theorem blocks_packVoters (ids : List AccountID) :
    Bytes.blocks 20 (packVoters ids) = ids.map accountIDBytes :=
  Bytes.blocks_flatten (by decide) length_of_mem_packed

theorem hasVoted_packVoters (ids : List AccountID) (id : AccountID) :
    hasVoted (packVoters ids) id = true ↔ id ∈ ids := by
  have hlen : (packVoters ids).length % 20 = 0 := Bytes.length_flatten_mod length_of_mem_packed
  have hscan : hasVoted (packVoters ids) id =
      (Bytes.blocks 20 (packVoters ids)).any fun block => decide (block = accountIDBytes id) := by
    rw [hasVoted, if_neg (not_not.mpr hlen), Bytes.blocks, List.any_map]
    rfl
  rw [hscan, blocks_packVoters, List.any_map]
  simp only [List.any_eq_true, Function.comp, decide_eq_true_eq]
  constructor
  · rintro ⟨id', hmem, heq⟩
    exact accountIDBytes_injective heq ▸ hmem
  · exact fun hmem => ⟨id, hmem, rfl⟩

/-! ### Ballots -/

/-- A vote that was counted: the bond, its side and the score it had. -/
structure Ballot where
  bondID : AccountID
  yes : Bool
  weight : UInt32
  deriving DecidableEq

/-- The ballot a step casts on the proposal under `key`, if it does. -/
def ballotOf (H : Services) (key : UInt256) (c : Chain) : Step → Option Ballot
  | .tx flags tx =>
    match tx.body with
    | .governanceVote consensusKey proposalID voteWeight =>
      let bondID := H.calcValidatorBondID consensusKey
      if proposalID = key ∧ (applyTransaction H flags c.view tx).2.succeeded = true then
        some ⟨bondID, decide (voteWeight = 1),
          ((c.view.bonds.lookup bondID).bind ValidatorBond.compositeScore).getD 0⟩
      else none
    | _ => none
  | _ => none

/-- The sum of the scores on one side. -/
def sideWeight (yes : Bool) (ballots : List Ballot) : ℕ :=
  ((ballots.filter fun ballot => ballot.yes == yes).map fun ballot => ballot.weight.toNat).sum

theorem sideWeight_append (yes : Bool) (ballots : List Ballot) (ballot : Ballot) :
    sideWeight yes (ballots ++ [ballot]) =
      sideWeight yes ballots + if ballot.yes = yes then ballot.weight.toNat else 0 := by
  rw [sideWeight, List.filter_append, List.map_append, List.sum_append, ← sideWeight]
  by_cases h : ballot.yes = yes <;> simp [h]

/-- The proposal's fields are those of these ballots: the bonds are listed in the order in which
they voted, none of them twice, and the two sums are those of the two sides, as far as 32 bits
go. -/
structure GovernanceProposal.Records (proposal : GovernanceProposal) (ballots : List Ballot) :
    Prop where
  voters : proposal.voterList.getD [] = packVoters (ballots.map Ballot.bondID)
  distinct : (ballots.map Ballot.bondID).Nodup
  votedFor : (proposal.votedFor.getD 0).toNat = min (sideWeight true ballots) (2 ^ 32 - 1)
  votedAgainst : (proposal.votedAgainst.getD 0).toNat = min (sideWeight false ballots) (2 ^ 32 - 1)

/-- These ballots were cast on the proposal under `key`, if there is one. -/
def Ledger.Records (s : Ledger) (key : UInt256) (ballots : List Ballot) : Prop :=
  match s.proposals.lookup key with
  | none => ballots = []
  | some proposal => proposal.Records ballots

private theorem addWeight_toNat {prev weight : UInt32} {n : ℕ}
    (h : prev.toNat = min n (2 ^ 32 - 1)) :
    (addWeight prev weight).toNat = min (n + weight.toNat) (2 ^ 32 - 1) := by
  rw [addWeight, UInt32.toNat_ofNat', h]
  omega

private theorem GovernanceProposal.Records.castVote {proposal : GovernanceProposal}
    (h : proposal.Records ballots) {ballot : Ballot} (seq : UInt32)
    (hfresh : ¬hasVoted (proposal.voterList.getD []) ballot.bondID = true) :
    (castVote seq tx ballot.bondID ballot.yes ballot.weight proposal).Records
      (ballots ++ [ballot]) := by
  rw [h.voters, hasVoted_packVoters] at hfresh
  obtain ⟨bondID, yes, weight⟩ := ballot
  refine ⟨?_, ?_, ?_, ?_⟩
  · simp [GovernanceVote.castVote, appendVoter, h.voters, packVoters]
  · rw [List.map_append, List.map_singleton]
    exact List.nodup_append.mpr ⟨h.distinct, List.nodup_singleton _, fun id hid id' hid' heq =>
      hfresh (List.mem_singleton.mp hid' ▸ heq ▸ hid)⟩
  · rw [sideWeight_append]
    cases yes
    · simpa [GovernanceVote.castVote] using h.votedFor
    · simpa [GovernanceVote.castVote] using addWeight_toNat h.votedFor
  · rw [sideWeight_append]
    cases yes
    · simpa [GovernanceVote.castVote] using addWeight_toNat h.votedAgainst
    · simpa [GovernanceVote.castVote] using h.votedAgainst

/-! ### Transactions -/

/-- The bond is bonded and the sender's, the proposal is open and not expired, and the bond has not
voted on it. -/
structure MayVote (H : Services) (s : Ledger) (tx : STTx) (consensusKey : Blob) (key : UInt256)
    (bond : ValidatorBond) (proposal : GovernanceProposal) : Prop where
  lookupBond : s.bonds.lookup (H.calcValidatorBondID consensusKey) = some bond
  status : bond.bondStatus = .bonded
  owner : bond.account = tx.account
  lookupProposal : s.proposals.lookup key = some proposal
  isOpen : proposal.proposalState = .open
  inTime : s.seq < proposal.proposalExpiry
  fresh : ¬hasVoted (proposal.voterList.getD []) (H.calcValidatorBondID consensusKey) = true

private theorem mayVote_of_preclaim {consensusKey : Blob}
    (h : GovernanceVote.preclaim H s tx consensusKey key = .ok ()) :
    ∃ bond proposal, MayVote H s tx consensusKey key bond proposal := by
  simp only [GovernanceVote.preclaim, Except.bind_eq_ok, orFail_eq_ok, failIf_eq_ok, not_not] at h
  obtain ⟨bond, hbond, -, hstatus, -, howner, proposal, hproposal, -, hopen, -, htime, hfresh⟩ := h
  exact ⟨bond, proposal, hbond, hstatus, howner, hproposal, hopen, UInt32.not_le.mp htime, hfresh⟩

/-- What a transaction can do to the proposal under `key`. -/
inductive ProposalMove (H : Services) (s : Ledger) (tx : STTx) (key : UInt256)
    (r : Ledger × Receipt) : Prop
  | same (hafter : r.1.proposals.lookup key = s.proposals.lookup key)
      (hbody : ∀ consensusKey voteWeight, tx.body = .governanceVote consensusKey key voteWeight →
        r.2.succeeded = false)
  | create {consensusKey : Blob} {type value : UInt32} {page : UInt64}
      (hbody : tx.body = .governanceProposal consensusKey type value)
      (hnew : s.proposals.lookup key = none)
      (hafter : r.1.proposals.lookup key =
        some (GovernanceProposal.newProposal s.seq tx type value page))
  | vote {consensusKey : Blob} {voteWeight : UInt32} {bond : ValidatorBond}
      {proposal : GovernanceProposal} (hok : r.2.succeeded = true)
      (hbody : tx.body = .governanceVote consensusKey key voteWeight)
      (hmay : MayVote H s tx consensusKey key bond proposal)
      (hafter : r.1.proposals.lookup key = some (castVote s.seq tx
        (H.calcValidatorBondID consensusKey) (voteWeight = 1) (bond.compositeScore.getD 0)
        proposal))

theorem doApply_proposals (h : doApply H s tx = .ok a)
    (hpropose : ∀ consensusKey type value,
      tx.body ≠ .governanceProposal consensusKey type value)
    (hvote : ∀ consensusKey proposalID voteWeight,
      tx.body ≠ .governanceVote consensusKey proposalID voteWeight) :
    a.view.proposals = s.proposals := by
  have hlp : ∀ {epoch key share}, settleLpClaim H s tx epoch key share = .ok a →
      a.view.proposals = s.proposals := fun hset => by
    rcases settleLpClaim_ok hset with ⟨-, rfl⟩ | ⟨-, s₁, pay, hpay, rfl⟩
    · rfl
    · obtain ⟨_, _, -, -, -, -, -, rfl⟩ := payClaim_ok hpay
      rfl
  unfold doApply at h
  split at h <;> rename_i hbody
  · obtain ⟨_, s₁, _, hadded, -, -, rfl⟩ := ValidatorRegister.doApply_ok h
    exact hadded.same.proposals
  · obtain ⟨_, _, -, -, -, rfl⟩ := ValidatorBond.doApply_ok h
    rfl
  · obtain ⟨_, -, rfl⟩ := ValidatorUnbond.doApply_ok h
    rfl
  · obtain ⟨_, -, rfl⟩ := ValidatorSlash.doApply_ok h
    rfl
  · obtain ⟨_, _, s₁, hremoved, -, -, rfl⟩ := ReleaseBond.doApply_ok h
    exact hremoved.same.proposals
  · obtain ⟨_, _, -, -, -, -, ⟨-, rfl⟩ | ⟨-, s₁, pay, hpay, rfl⟩⟩ := ClaimReward.doApply_ok h
    · rfl
    · obtain ⟨_, _, -, -, -, -, -, rfl⟩ := payClaim_ok hpay
      rfl
  · obtain ⟨_, _, _, -, -, -, -, hset⟩ := ClaimLPReward.doApply_ok h
    exact hlp hset
  · obtain ⟨_, _, -, -, -, -, hset⟩ := ClaimAmmLpReward.doApply_ok h
    exact hlp hset
  · obtain ⟨_, _, s₁, _, -, hadded, -, -, -, rfl⟩ := NameSet.doApply_ok h
    exact hadded.same.proposals
  · obtain ⟨_, _, -, -, rfl⟩ := NameUnbond.doApply_ok h
    rfl
  · obtain ⟨_, _, _, s₁, -, hremoved, -, -, rfl⟩ := NameRelease.doApply_ok h
    exact hremoved.same.proposals
  · exact absurd hbody (hpropose _ _ _)
  · exact absurd hbody (hvote _ _ _)

/-- **Every transaction makes one of the moves.** -/
theorem Transactor.Outcome.proposalMove {r : Ledger × Receipt} (h : Outcome H s tx r)
    (key : UInt256) : ProposalMove H s tx key r := by
  cases h with
  | unapplied => exact .same rfl fun _ _ _ => rfl
  | @feeOnly view feeIn fee ter hreset hpass hter =>
    refine .same ?_ fun _ _ _ => ?_
    · rw [ApplyContext.destroyXRP_eq, (reset_ok hreset).same]
    · cases ter <;> first | rfl | cases hter
  | @success s₁ a hflight hclaim hcharge happly =>
    have hsame := (charge_ok hcharge (account_ne_none_of_preclaim hclaim)).same
    have hproposals : s₁.proposals = s.proposals := by rw [hsame]
    have hbonds : s₁.bonds = s.bonds := by rw [hsame]
    have hseq : s₁.seq = s.seq := by rw [hsame]
    have hview : (ApplyContext.destroyXRP H.toHashes a.view tx.fee).proposals =
        a.view.proposals := by rw [ApplyContext.destroyXRP_eq]
    have hkept : a.view.proposals.lookup key = s₁.proposals.lookup key →
        (∀ consensusKey voteWeight, tx.body ≠ .governanceVote consensusKey key voteWeight) →
        ProposalMove H s tx key (ApplyContext.destroyXRP H.toHashes a.view tx.fee,
          receipt H a .tesSuccess tx.fee) := fun heq hbody => by
      refine .same ?_ fun ck w hvote => absurd hvote (hbody ck w)
      rw [hview, heq, hproposals]
    by_cases hpropose : ∃ ck type value, tx.body = .governanceProposal ck type value
    · obtain ⟨ck, type, value, hbody⟩ := hpropose
      have hnovote : ∀ ck w, tx.body ≠ .governanceVote ck key w := by simp [hbody]
      simp only [doApply, hbody] at happly
      obtain ⟨page, s₂, root, -, -, hnew, rfl⟩ := GovernanceProposal.doApply_ok happly
      by_cases hkey : key = GovernanceProposal.proposalKey H.toHashes tx
      · subst hkey
        refine @ProposalMove.create _ _ _ _ _ ck type value page hbody (hproposals ▸ hnew) ?_
        rw [hview, ← hseq]
        exact AList.lookup_insert _
      · exact hkept (AList.lookup_insert_ne hkey) hnovote
    · by_cases hvote : ∃ ck pid w, tx.body = .governanceVote ck pid w
      · obtain ⟨ck, pid, w, hbody⟩ := hvote
        have hpre := preclaim_of_invokePreclaim hclaim
        simp only [doApply, preclaim, hbody] at happly hpre
        obtain ⟨bond, proposal, hmay⟩ := mayVote_of_preclaim hpre
        obtain ⟨proposal', bond', hproposal, hbond, rfl⟩ := GovernanceVote.doApply_ok happly
        by_cases hkey : key = pid
        · subst hkey
          rw [hproposals, hmay.lookupProposal] at hproposal
          rw [hbonds, hmay.lookupBond] at hbond
          obtain rfl := Option.some.inj hproposal
          obtain rfl := Option.some.inj hbond
          refine .vote rfl hbody hmay ?_
          rw [hview, ← hseq]
          exact AList.lookup_insert _
        · refine hkept (AList.lookup_insert_ne hkey) fun ck' w' heq => hkey ?_
          rw [hbody] at heq
          exact (TxBody.governanceVote.inj heq).2.1.symm
      · refine hkept ?_ fun ck w heq => hvote ⟨ck, key, w, heq⟩
        rw [doApply_proposals happly (fun ck type value heq => hpropose ⟨ck, type, value, heq⟩)
          fun ck pid w heq => hvote ⟨ck, pid, w, heq⟩]

/-! ### What a refused vote does -/

/-- At most the fee was charged: the payer paid it, the treasury got the part that is not burned,
and of the rest of the ledger only the sender's sequence number, or its ticket, was used up. -/
structure OnlyFee (H : Services) (s : Ledger) (tx : STTx) (r : Ledger × Receipt) : Prop where
  same : r.1 =
    { s with
      drops := r.1.drops
      accounts := r.1.accounts
      tickets := r.1.tickets
      dirs := r.1.dirs }
  drops : r.1.drops = s.drops - r.2.burned
  balances : ∀ id, r.1.balanceOf id =
    s.balanceOf id - (if id = tx.getFeePayer then r.2.fee else 0) +
      (if id = H.getTreasuryAccountID then r.2.fee - r.2.burned else 0)
  counts : r.1 = s ∨ Settled H.toHashes tx s r.1

private theorem onlyFee_of_refused {consensusKey : Blob} {voteWeight : UInt32}
    {r : Ledger × Receipt} (h : Outcome H s tx r)
    (hbody : tx.body = .governanceVote consensusKey key voteWeight)
    (hrefused : ∀ bond proposal, ¬MayVote H s tx consensusKey key bond proposal) :
    OnlyFee H s tx r := by
  cases h with
  | unapplied => exact ⟨rfl, by simp, fun id => by simp, .inl rfl⟩
  | @feeOnly view feeIn fee ter hreset hpass hter =>
    have hcharged := reset_ok hreset
    refine ⟨?_, ?_, fun id => ?_, .inr ?_⟩
    · rw [ApplyContext.destroyXRP_eq, hcharged.same]
    · rw [ApplyContext.destroyXRP_eq, hcharged.same]
      rfl
    · rw [balanceOf_destroyXRP hpass.fee_nonneg, hcharged.balanceOf]
      simp only [receipt]
      split_ifs <;> ring
    · exact settled_of_sameOwners (reset_settled hreset)
        (ApplyContext.destroyXRP_sameOwners H.toHashes view fee)
  | success hflight hclaim =>
    have hpre := preclaim_of_invokePreclaim hclaim
    simp only [preclaim, hbody] at hpre
    obtain ⟨bond, proposal, hmay⟩ := mayVote_of_preclaim hpre
    exact absurd hmay (hrefused bond proposal)

/-! ### Whole runs -/

private theorem ballotOf_of_vote {consensusKey : Blob} {voteWeight : UInt32}
    (hbody : tx.body = .governanceVote consensusKey key voteWeight)
    (hok : (applyTransaction H flags c.view tx).2.succeeded = true) {bond : ValidatorBond}
    (hbond : c.view.bonds.lookup (H.calcValidatorBondID consensusKey) = some bond) :
    ballotOf H key c (.tx flags tx) = some ⟨H.calcValidatorBondID consensusKey,
      decide (voteWeight = 1), bond.compositeScore.getD 0⟩ := by
  simp [ballotOf, hbody, hok, hbond]

private theorem ballotOf_eq_none (h : ∀ consensusKey voteWeight,
    tx.body = .governanceVote consensusKey key voteWeight →
      (applyTransaction H flags c.view tx).2.succeeded = false) :
    ballotOf H key c (.tx flags tx) = none := by
  simp only [ballotOf]
  split
  · rename_i ck pid w hbody
    refine if_neg ?_
    rintro ⟨rfl, hok⟩
    rw [h ck w hbody] at hok
    cases hok
  · rfl

private theorem Ledger.Records.step (h : c.view.Records key ballots) :
    (c.step H st).1.view.Records key (ballots ++ (ballotOf H key c st).toList) := by
  unfold Ledger.Records at h ⊢
  cases st with
  | outside accounts holdings => simpa [ballotOf, Chain.step] using h
  | close store =>
    have hnone : ballotOf H key c (.close store) = none := rfl
    rw [hnone, Option.toList_none, List.append_nil]
    rcases c.lookup_proposals_close H store key with heq | heq <;> rw [heq]
    · exact h
    · rcases hlookup : c.view.proposals.lookup key with _ | proposal <;> rw [hlookup] at h
      · exact h
      · simp only [Option.map_some, tallied]
        split_ifs
        · exact h
        · exact ⟨h.voters, h.distinct, h.votedFor, h.votedAgainst⟩
  | tx flags tx =>
    change match (applyTransaction H flags c.view tx).1.proposals.lookup key with
      | none => _
      | some proposal => _
    cases (applyTransaction_outcome H flags c.view tx).proposalMove key with
    | same hafter hbody =>
      rw [hafter, ballotOf_eq_none hbody, Option.toList_none, List.append_nil]
      exact h
    | create hbody hnew hafter =>
      rw [hnew] at h
      rw [hafter, ballotOf_eq_none (by simp [hbody]), h]
      exact ⟨rfl, List.nodup_nil, rfl, rfl⟩
    | @vote consensusKey voteWeight bond proposal hok hbody hmay hafter =>
      rw [hmay.lookupProposal] at h
      rw [hafter, ballotOf_of_vote hbody hok hmay.lookupBond]
      let ballot : Ballot := ⟨H.calcValidatorBondID consensusKey, decide (voteWeight = 1),
        bond.compositeScore.getD 0⟩
      have hfresh : ¬hasVoted (proposal.voterList.getD []) ballot.bondID = true := hmay.fresh
      exact h.castVote c.view.seq hfresh

/-- **Vote integrity.** Along every run from a ledger with no proposal under a key, the proposal
there is in the end lists the bonds whose votes the run has counted, each once and in 20 bytes, and
its sums are those of the scores these bonds had when they voted; and in every ledger, a vote that
is not allowed charges at most the fee. -/
theorem vote_integrity_run {steps : List Step} (hnew : c.view.proposals.lookup key = none) :
    (∀ proposal, (Run.final (Chain.step H) c steps).view.proposals.lookup key = some proposal →
      (proposal.voterList.getD []).length % 20 = 0 ∧
        (Bytes.blocks 20 (proposal.voterList.getD [])).Nodup ∧
        proposal.Records (Run.record (Chain.step H) (ballotOf H key) c steps)) ∧
      ∀ (flags : ApplyFlags) (s : Ledger) (tx : STTx) (consensusKey : Blob) (proposalID : UInt256)
        (voteWeight : UInt32), tx.body = .governanceVote consensusKey proposalID voteWeight →
        (∀ bond proposal, ¬MayVote H s tx consensusKey proposalID bond proposal) →
        OnlyFee H s tx (applyTransaction H flags s tx) := by
  refine ⟨fun proposal hproposal => ?_, fun flags s tx ck pid w hbody hrefused =>
    onlyFee_of_refused (applyTransaction_outcome H flags s tx) hbody hrefused⟩
  have hstart : c.view.Records key [] := by
    rw [Ledger.Records, hnew]
  have hall : Run.Always (Chain.step H) (fun _ _ => True) c steps :=
    Run.always_of_forall fun _ _ => trivial
  have hfinal := Run.invariant_record (fun c : Chain => c.view.Records key)
    (fun c st l h _ => h.step) hstart hall
  rw [Ledger.Records, hproposal, List.nil_append] at hfinal
  refine ⟨?_, ?_, hfinal⟩
  · rw [hfinal.voters]
    exact Bytes.length_flatten_mod length_of_mem_packed
  · rw [hfinal.voters, blocks_packVoters]
    exact hfinal.distinct.map accountIDBytes_injective

namespace Sample

/-- Two other bonds have voted already: one for each of the proposals, one against both. -/
def firstBallots : List Ballot := [⟨21, true, 1⟩, ⟨22, false, 1⟩]

def openProposal (owner : AccountID) (value : UInt32) : GovernanceProposal :=
  { GovernanceProposal.newProposal 173824
      ⟨0, owner, none, 10, .seq 8, .governanceProposal aliceKey kProposalTypeBurnBps value⟩
      kProposalTypeBurnBps value 0 with
    votedFor := some 1
    votedAgainst := some 1
    voterList := some (packVoters (firstBallots.map Ballot.bondID)) }

def aliceProposal : UInt256 := services.governanceProposalKey alice 8

def bobProposal : UInt256 := services.governanceProposalKey bob 8

/-- Two proposals for different burn shares, one ledger before their time is up. The treasury of
this network has run dry during epoch 1, so that no other epoch has followed. -/
def votingChain : Chain :=
  .start
    { ledger with
      seq := 346622
      accounts := (AList.insert alice { account 1000000 with sequence := 9, ownerCount := 2 } ∅).insert
        bob { account 1000000 with sequence := 9, ownerCount := 2 }
      bonds := (AList.insert (services.calcValidatorBondID aliceKey)
          { bond alice aliceKey with compositeScore := some 5000 } ∅).insert
        (services.calcValidatorBondID bobKey) { bond bob bobKey with compositeScore := some 6000 }
      epoch := some
        { RewardEpoch.newEpoch services.toHashes ledger kQxrpLedgersPerEpoch with
          aggregateCompositeScore := some 11000
          proposals := some [aliceProposal, bobProposal] }
      proposals := (AList.insert aliceProposal (openProposal alice 6000) ∅).insert bobProposal
        (openProposal bob 4000) }

def proposeAndVote : List Step :=
  [send alice 9 (.governanceProposal aliceKey kProposalTypeBurnBps 5000),
    send alice 10 (.governanceVote aliceKey (services.governanceProposalKey alice 9) 1),
    send bob 9 (.governanceVote bobKey (services.governanceProposalKey alice 9) 0),
    .close .empty, send alice 11 (.governanceVote aliceKey (services.governanceProposalKey alice 9) 0)]

end Sample

/-- Two bonds have voted, one of them tried to vote twice, and two ballots are counted. -/
theorem vote_integrity_two_voters :
    ∃ proposal, (Run.final (Chain.step Sample.services) Sample.votingChain
        Sample.proposeAndVote).view.proposals.lookup
          (Sample.services.governanceProposalKey Sample.alice 9) = some proposal ∧
      proposal.Records [⟨Sample.services.calcValidatorBondID Sample.aliceKey, true, 5000⟩,
        ⟨Sample.services.calcValidatorBondID Sample.bobKey, false, 6000⟩] := by
  have hnew : Sample.votingChain.view.proposals.lookup
      (Sample.services.governanceProposalKey Sample.alice 9) = none := by decide +kernel
  have hsome : ((Run.final (Chain.step Sample.services) Sample.votingChain
      Sample.proposeAndVote).view.proposals.lookup
        (Sample.services.governanceProposalKey Sample.alice 9)).isSome = true := by decide +kernel
  have hrecord : Run.record (Chain.step Sample.services)
      (ballotOf Sample.services (Sample.services.governanceProposalKey Sample.alice 9))
      Sample.votingChain Sample.proposeAndVote =
        [⟨Sample.services.calcValidatorBondID Sample.aliceKey, true, 5000⟩,
          ⟨Sample.services.calcValidatorBondID Sample.bobKey, false, 6000⟩] := by decide +kernel
  obtain ⟨proposal, hproposal⟩ := Option.isSome_iff_exists.mp hsome
  have hrecords := ((vote_integrity_run hnew).1 proposal hproposal).2.2
  rw [hrecord] at hrecords
  exact ⟨proposal, hproposal, hrecords⟩

/-! ### What stands behind a proposal that passes -/

/-- Every ballot is cast for a bonded key by its owner, with the score the bond has. -/
def CastByOwner (H : Services) (key : UInt256) (c : Chain) (st : Step) : Prop :=
  ∀ ballot, ballotOf H key c st = some ballot → ∃ flags tx bond, st = .tx flags tx ∧
    c.view.bonds.lookup ballot.bondID = some bond ∧ bond.bondStatus = .bonded ∧
    bond.account = tx.account ∧ ballot.weight = bond.compositeScore.getD 0

private theorem castByOwner (H : Services) (key : UInt256) (c : Chain) (st : Step) :
    CastByOwner H key c st := by
  intro ballot hballot
  cases st with
  | outside => cases hballot
  | close => cases hballot
  | tx flags tx =>
    cases (applyTransaction_outcome H flags c.view tx).proposalMove key with
    | same hafter hbody =>
      rw [ballotOf_eq_none hbody] at hballot
      cases hballot
    | create hbody =>
      rw [ballotOf_eq_none (by simp [hbody])] at hballot
      cases hballot
    | vote hok hbody hmay =>
      rw [ballotOf_of_vote hbody hok hmay.lookupBond] at hballot
      obtain rfl := Option.some.inj hballot
      exact ⟨flags, tx, _, rfl, hmay.lookupBond, hmay.status, hmay.owner, rfl⟩

private theorem passes_of_passed {store : Validations}
    (hbefore : c.view.proposalState key ≠ some .passed)
    (hafter : (c.step H (.close store)).1.view.proposalState key = some .passed) :
    ∃ proposal, c.view.proposals.lookup key = some proposal ∧
      passes (proposal.votedFor.getD 0) (c.aggregateAtClose H store) = true := by
  rw [Ledger.proposalState] at hafter hbefore
  rcases c.lookup_proposals_close H store key with heq | heq <;> rw [heq] at hafter
  · exact absurd hafter hbefore
  · rcases hlookup : c.view.proposals.lookup key with _ | proposal <;> rw [hlookup] at hafter hbefore
    · cases hafter
    · refine ⟨proposal, rfl, ?_⟩
      simp only [Option.map_some, Option.some.injEq, tallied] at hafter
      split_ifs at hafter with hskip
      · exact absurd (congrArg some hafter) hbefore
      · by_contra hfails
        simp [resolve, hfails] at hafter

/-- **The supermajority behind a proposal that passes.** In every run, from a ledger whose record
of votes is in order, a close marks a proposal as passed only if the yes votes counted on it are
those of different bonds whose scores, each at the time of its vote, add up to the required share of
the score sum at the time of the tally; and every vote was cast by the owner of a bonded key. -/
theorem supermajority_run {steps : List Step} {store : Validations}
    (hstart : c.view.Records key ballots)
    (hbefore : (Run.final (Chain.step H) c steps).view.proposalState key ≠ some .passed)
    (hafter : ((Run.final (Chain.step H) c steps).step H (.close store)).1.view.proposalState key =
      some .passed) :
    let cast := ballots ++ Run.record (Chain.step H) (ballotOf H key) c steps
    let aggregate := (Run.final (Chain.step H) c steps).aggregateAtClose H store
    0 < aggregate ∧
      aggregate.toNat * kGovernanceSupermajorityBps.toNat ≤
        sideWeight true cast * kBpsDenom.toNat ∧
      (cast.map Ballot.bondID).Nodup ∧
      Run.Always (Chain.step H) (CastByOwner H key) c steps := by
  intro cast aggregate
  have hall : Run.Always (Chain.step H) (fun _ _ => True) c steps :=
    Run.always_of_forall fun _ _ => trivial
  have hfinal := Run.invariant_record (fun c : Chain => c.view.Records key)
    (fun c st l h _ => h.step) hstart hall
  obtain ⟨proposal, hproposal, hpasses⟩ := passes_of_passed hbefore hafter
  rw [Ledger.Records, hproposal] at hfinal
  simp only [passes, Bool.and_eq_true, decide_eq_true_eq] at hpasses
  refine ⟨hpasses.1, hpasses.2.trans (Nat.mul_le_mul_right _ ?_), hfinal.distinct,
    Run.always_of_forall (castByOwner H key)⟩
  rw [hfinal.votedFor]
  exact Nat.min_le_left _ _

namespace Sample

/-- Each validator votes for the proposal of its own, and the next ledger is open. -/
def votes : List Step :=
  [send alice 9 (.governanceVote aliceKey aliceProposal 1),
    send bob 9 (.governanceVote bobKey bobProposal 1), .close .empty]

def expiring : Chain := Run.final (Chain.step services) votingChain votes

def scoreOf (c : Chain) (consensusKey : Blob) : ℕ :=
  (((c.view.bonds.lookup (services.calcValidatorBondID consensusKey)).bind
    ValidatorBond.compositeScore).getD 0).toNat

end Sample

/-- A proposal passes with 5001 of 7150, the scores its two voters had when they voted. -/
theorem supermajority_at_vote_time :
    let last := Run.final (Chain.step Sample.services) Sample.votingChain Sample.votes
    (last.step Sample.services (.close .empty)).1.view.proposalState Sample.aliceProposal =
        some .passed ∧
      (last.aggregateAtClose Sample.services .empty).toNat * kGovernanceSupermajorityBps.toNat ≤
        sideWeight true (Sample.firstBallots ++ Run.record (Chain.step Sample.services)
          (ballotOf Sample.services Sample.aliceProposal) Sample.votingChain Sample.votes) *
          kBpsDenom.toNat := by
  have hlookup : Sample.votingChain.view.proposals.lookup Sample.aliceProposal =
      some (Sample.openProposal Sample.alice 6000) := by decide +kernel
  have hstart : Sample.votingChain.view.Records Sample.aliceProposal Sample.firstBallots := by
    rw [Ledger.Records, hlookup]
    exact ⟨rfl, by decide, rfl, rfl⟩
  have hbefore : (Run.final (Chain.step Sample.services) Sample.votingChain
      Sample.votes).view.proposalState Sample.aliceProposal ≠ some .passed := by decide +kernel
  have hafter : ((Run.final (Chain.step Sample.services) Sample.votingChain Sample.votes).step
      Sample.services (.close .empty)).1.view.proposalState Sample.aliceProposal =
        some .passed := by decide +kernel
  intro last
  exact ⟨hafter, (supermajority_run hstart hbefore hafter).2.1⟩

/-- Scores have fallen between the votes and the tally: two proposals for different burn shares
pass at the same close, each on the vote of one validator and a weight of one, and the score of
neither validator is then the required share of the sum, even with that one. -/
theorem two_proposals_pass :
    let tallied := (Sample.expiring.step Sample.services (.close .empty)).1
    let required := (Sample.expiring.aggregateAtClose Sample.services .empty).toNat *
      kGovernanceSupermajorityBps.toNat
    tallied.view.proposalState Sample.aliceProposal = some .passed ∧
      tallied.view.proposalState Sample.bobProposal = some .passed ∧
      Run.record (Chain.step Sample.services) (ballotOf Sample.services Sample.aliceProposal)
        Sample.votingChain Sample.votes =
          [⟨Sample.services.calcValidatorBondID Sample.aliceKey, true, 5000⟩] ∧
      Run.record (Chain.step Sample.services) (ballotOf Sample.services Sample.bobProposal)
        Sample.votingChain Sample.votes =
          [⟨Sample.services.calcValidatorBondID Sample.bobKey, true, 6000⟩] ∧
      (Sample.scoreOf tallied Sample.aliceKey + 1) * kBpsDenom.toNat < required ∧
      (Sample.scoreOf tallied Sample.bobKey + 1) * kBpsDenom.toNat < required ∧
      ReadsParent Sample.votingChain ∧ ReadsParent Sample.expiring := by
  decide +kernel

end FalconLedger
