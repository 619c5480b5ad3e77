import FalconLedger.Ledger.Directory
import FalconLedger.Tx.ApplyContext

/-!
# Governance transactions

The transactors `GovernanceProposal` and `GovernanceVote`. A proposal is created open and its
key is appended to the epoch object's list, from which the tally at ledger close works; a vote
adds the composite score of the voter's bond to one of the two sums and records the bond.
-/

namespace FalconLedger

variable {H : Services} {s : Ledger} {tx : STTx} {a : Applied}

namespace GovernanceProposal

def preflight (rules : Rules) (consensusKey : Blob) (proposalType proposalValue : UInt32) :
    Except TER Unit := do
  failIf (!rules.proofOfParticipation) .temDisabled
  failIf (!isValidNodeKey consensusKey) .temInvalidFlag
  failIf (proposalType ≠ kProposalTypeBurnBps) .temMalformed
  failIf (proposalValue < kFeeBurnMinBps ∨ kFeeBurnMaxBps < proposalValue) .temBadAmount

def preclaim (H : Services) (s : Ledger) (consensusKey : Blob) : Except TER Unit := do
  let bond ← orFail (s.bonds.lookup (H.calcValidatorBondID consensusKey)) .tecNoEntry
  failIf (bond.bondStatus ≠ .bonded) .tecNoPermission

/-- The key of the proposal a transaction creates. -/
def proposalKey (H : Hashes) (tx : STTx) : UInt256 := H.governanceProposalKey tx.account tx.sequence

/-- The proposal object as it is created. The three last vote fields are written although they
hold their defaults. -/
def newProposal (seq : UInt32) (tx : STTx) (proposalType proposalValue : UInt32) (page : UInt64) :
    FalconLedger.GovernanceProposal where
  account := tx.account
  proposalType := proposalType
  proposalValue := proposalValue
  proposalExpiry := seq + kGovernanceVotingLedgers
  proposalState := .open
  votedFor := some 0
  votedAgainst := some 0
  voterList := some []
  ownerNode := page
  previousTxnID := tx.transactionID
  previousTxnLgrSeq := seq

/-- The epoch object with the key appended to its list of open proposals. -/
def listProposal (seq : UInt32) (tx : STTx) (key : UInt256) (epoch : RewardEpoch) : RewardEpoch :=
  { epoch with
    proposals := some (epoch.proposals.getD [] ++ [key])
    previousTxnID := tx.transactionID
    previousTxnLgrSeq := seq }

def doApply (H : Services) (s : Ledger) (tx : STTx) (proposalType proposalValue : UInt32) :
    Except TER Applied := do
  let key := proposalKey H.toHashes tx
  let (page, s) ← orFail (← s.dirInsert tx.account key) .tecDirFull
  failIf (s.proposals.lookup key).isSome .tefException
  let proposal := newProposal s.seq tx proposalType proposalValue page
  let s := { s with proposals := s.proposals.insert key proposal }
  let root ← orFail (s.accounts.lookup tx.account) .tefInternal
  let s := s.setAccount tx.account { root with ownerCount := root.ownerCount + 1 }
  -- without an epoch object the proposal is on no list, and the transaction succeeds all the same
  return { view := { s with epoch := s.epoch.map (listProposal s.seq tx key) } }

theorem doApply_ok {proposalType proposalValue : UInt32}
    (h : doApply H s tx proposalType proposalValue = .ok a) :
    ∃ page s₁ root, s.DirAdded tx.account (proposalKey H.toHashes tx) page s₁ ∧
      s.accounts.lookup tx.account = some root ∧
      s.proposals.lookup (proposalKey H.toHashes tx) = none ∧
      a = { view :=
              { s₁.setAccount tx.account { root with ownerCount := root.ownerCount + 1 } with
                proposals := s.proposals.insert (proposalKey H.toHashes tx)
                  (newProposal s.seq tx proposalType proposalValue page)
                epoch := s.epoch.map (listProposal s.seq tx (proposalKey H.toHashes tx)) } } := by
  simp only [doApply, Except.bind_eq_ok, orFail_eq_ok, failIf_eq_ok, Except.pure_eq_ok] at h
  obtain ⟨_, hdir, ⟨page, s₁⟩, rfl, -, hnew, root, hroot, rfl⟩ := h
  have hadded := Ledger.dirInsert_ok hdir
  have hsame := hadded.same
  have hprop : s₁.proposals = s.proposals := by rw [hsame]
  have hepoch : s₁.epoch = s.epoch := by rw [hsame]
  have hacc : s₁.accounts = s.accounts := by rw [hsame]
  have hseq : s₁.seq = s.seq := by rw [hsame]
  refine ⟨page, s₁, root, hadded, ?_, ?_, ?_⟩
  · rwa [← hacc]
  · simpa [hprop] using hnew
  · simp [Ledger.setAccount, hseq, hprop, hepoch]

end GovernanceProposal

namespace GovernanceVote

/-- The 20 bytes of an account id, most significant first. -/
def accountIDBytes (id : AccountID) : Blob :=
  (List.range 20).map fun i => UInt8.ofNat (id.toNat / 256 ^ (19 - i))

/-- Whether the id stands at a multiple of 20 in the packed list. -/
def hasVoted (voterList : Blob) (bondID : AccountID) : Bool :=
  -- a corrupted list counts as empty
  if voterList.length % 20 ≠ 0 then false
  else
    (List.range (voterList.length / 20)).any fun i =>
      decide ((voterList.drop (20 * i)).take 20 = accountIDBytes bondID)

def appendVoter (voterList : Blob) (bondID : AccountID) : Blob :=
  voterList ++ accountIDBytes bondID

def preflight (rules : Rules) (consensusKey : Blob) (voteWeight : UInt32) : Except TER Unit := do
  failIf (!rules.proofOfParticipation) .temDisabled
  failIf (!isValidNodeKey consensusKey) .temInvalidFlag
  failIf (1 < voteWeight) .temMalformed

def preclaim (H : Services) (s : Ledger) (tx : STTx) (consensusKey : Blob) (proposalID : UInt256) :
    Except TER Unit := do
  let bondID := H.calcValidatorBondID consensusKey
  let bond ← orFail (s.bonds.lookup bondID) .tecNoEntry
  failIf (bond.bondStatus ≠ .bonded) .tecNoPermission
  failIf (bond.account ≠ tx.account) .tecNoPermission
  let proposal ← orFail (s.proposals.lookup proposalID) .tecNoEntry
  failIf (proposal.proposalState ≠ .open) .tecExpired
  failIf (proposal.proposalExpiry ≤ s.seq) .tecExpired
  failIf (hasVoted (proposal.voterList.getD []) bondID) .tecDuplicate

/-- A sum of votes that stops at the largest value. -/
def addWeight (prev weight : UInt32) : UInt32 :=
  UInt32.ofNat (min (prev.toNat + weight.toNat) (2 ^ 32 - 1))

/-- The proposal with one more vote. -/
def castVote (seq : UInt32) (tx : STTx) (bondID : AccountID) (voteYes : Bool) (weight : UInt32)
    (proposal : FalconLedger.GovernanceProposal) : FalconLedger.GovernanceProposal :=
  { proposal with
    votedFor := if voteYes then some (addWeight (proposal.votedFor.getD 0) weight)
      else proposal.votedFor
    votedAgainst := if voteYes then proposal.votedAgainst
      else some (addWeight (proposal.votedAgainst.getD 0) weight)
    voterList := some (appendVoter (proposal.voterList.getD []) bondID)
    previousTxnID := tx.transactionID
    previousTxnLgrSeq := seq }

def doApply (H : Services) (s : Ledger) (tx : STTx) (consensusKey : Blob) (proposalID : UInt256)
    (voteWeight : UInt32) : Except TER Applied := do
  let bondID := H.calcValidatorBondID consensusKey
  let proposal ← orFail (s.proposals.lookup proposalID) .tefInternal
  let bond ← orFail (s.bonds.lookup bondID) .tefInternal
  let weight := bond.compositeScore.getD 0
  let proposal := castVote s.seq tx bondID (voteWeight = 1) weight proposal
  return { view := { s with proposals := s.proposals.insert proposalID proposal } }

theorem doApply_ok {consensusKey : Blob} {proposalID : UInt256} {voteWeight : UInt32}
    (h : doApply H s tx consensusKey proposalID voteWeight = .ok a) :
    ∃ proposal bond, s.proposals.lookup proposalID = some proposal ∧
      s.bonds.lookup (H.calcValidatorBondID consensusKey) = some bond ∧
      a = { view := { s with
              proposals := s.proposals.insert proposalID
                (castVote s.seq tx (H.calcValidatorBondID consensusKey) (voteWeight = 1)
                  (bond.compositeScore.getD 0) proposal) } } := by
  simp only [doApply, Except.bind_eq_ok, orFail_eq_ok, Except.pure_eq_ok] at h
  obtain ⟨proposal, hproposal, bond, hbond, rfl⟩ := h
  exact ⟨proposal, bond, hproposal, hbond, rfl⟩

end GovernanceVote

end FalconLedger
