import FalconLedger.Ledger.State
import FalconLedger.Protocol.STObject

/-!
# The formats of the fork's entries

The fields of `sfields.macro` the fork's entries are made of, the templates of
`ledger_entries.macro`, and the serialized object each entry stands for. `sfFlags` is zero on all
of them and the optional `sfLedgerIndex` is never set.
-/

namespace FalconLedger

open STLedgerEntry

/-! ### Fields -/

abbrev sfFlags : SField := { fieldType := .uint32, fieldValue := 2 }
abbrev sfPreviousTxnLgrSeq : SField := { fieldType := .uint32, fieldValue := 5 }
abbrev sfBondStatus : SField := { fieldType := .uint32, fieldValue := 70 }
abbrev sfCurrentBurnBps : SField := { fieldType := .uint32, fieldValue := 71 }
abbrev sfEpochNumber : SField := { fieldType := .uint32, fieldValue := 72 }
abbrev sfUptimeBps : SField := { fieldType := .uint32, fieldValue := 73 }
abbrev sfVoteAccuracyBps : SField := { fieldType := .uint32, fieldValue := 74 }
abbrev sfLatencyScoreBps : SField := { fieldType := .uint32, fieldValue := 75 }
abbrev sfConsistencyBps : SField := { fieldType := .uint32, fieldValue := 76 }
abbrev sfSlashMultiplier : SField := { fieldType := .uint32, fieldValue := 77 }
abbrev sfCompositeScore : SField := { fieldType := .uint32, fieldValue := 78 }
abbrev sfSlashCount : SField := { fieldType := .uint32, fieldValue := 79 }
abbrev sfLastClaimedEpoch : SField := { fieldType := .uint32, fieldValue := 80 }
abbrev sfUnbondingStartLedger : SField := { fieldType := .uint32, fieldValue := 81 }
abbrev sfEpochStartLedger : SField := { fieldType := .uint32, fieldValue := 82 }
abbrev sfFeeVolumeEMA : SField := { fieldType := .uint32, fieldValue := 83 }
abbrev sfAggregateCompositeScore : SField := { fieldType := .uint32, fieldValue := 84 }
abbrev sfProposalType : SField := { fieldType := .uint32, fieldValue := 86 }
abbrev sfProposalValue : SField := { fieldType := .uint32, fieldValue := 87 }
abbrev sfProposalExpiry : SField := { fieldType := .uint32, fieldValue := 88 }
abbrev sfProposalState : SField := { fieldType := .uint32, fieldValue := 89 }
abbrev sfVotedFor : SField := { fieldType := .uint32, fieldValue := 90 }
abbrev sfVotedAgainst : SField := { fieldType := .uint32, fieldValue := 91 }
abbrev sfLPAllocationBps : SField := { fieldType := .uint32, fieldValue := 92 }
abbrev sfAmmLPAllocationBps : SField := { fieldType := .uint32, fieldValue := 93 }
abbrev sfNameStatus : SField := { fieldType := .uint32, fieldValue := 94 }

abbrev sfOwnerNode : SField := { fieldType := .uint64, fieldValue := 4 }
abbrev sfAggregateLPShares : SField := { fieldType := .uint64, fieldValue := 32 }
abbrev sfAggregateAmmTvlDrops : SField := { fieldType := .uint64, fieldValue := 33 }

abbrev sfPreviousTxnID : SField := { fieldType := .uint256, fieldValue := 5 }
abbrev sfLedgerIndex : SField := { fieldType := .uint256, fieldValue := 6 }
abbrev sfVaultID : SField := { fieldType := .uint256, fieldValue := 35 }

abbrev sfBondedAmount : SField := { fieldType := .amount, fieldValue := 33 }
abbrev sfEpochPoolBalance : SField := { fieldType := .amount, fieldValue := 34 }
abbrev sfEmissionRate : SField := { fieldType := .amount, fieldValue := 35 }

abbrev sfPublicKey : SField := .first .vl
abbrev sfVoterList : SField := { fieldType := .vl, fieldValue := 34 }
abbrev sfConsensusKey : SField := { fieldType := .vl, fieldValue := 35 }
abbrev sfName : SField := { fieldType := .vl, fieldValue := 36 }

abbrev sfAccount : SField := .first .account

abbrev sfProposals : SField := { fieldType := .vector256, fieldValue := 6 }

/-- The fields above; the rest of the table occurs in no entry of the fork. -/
def knownFields : List SField :=
  [sfLedgerEntryType, sfFlags, sfPreviousTxnLgrSeq, sfBondStatus, sfCurrentBurnBps, sfEpochNumber,
    sfUptimeBps, sfVoteAccuracyBps, sfLatencyScoreBps, sfConsistencyBps, sfSlashMultiplier,
    sfCompositeScore, sfSlashCount, sfLastClaimedEpoch, sfUnbondingStartLedger, sfEpochStartLedger,
    sfFeeVolumeEMA, sfAggregateCompositeScore, sfProposalType, sfProposalValue, sfProposalExpiry,
    sfProposalState, sfVotedFor, sfVotedAgainst, sfLPAllocationBps, sfAmmLPAllocationBps,
    sfNameStatus, sfOwnerNode, sfAggregateLPShares, sfAggregateAmmTvlDrops, sfPreviousTxnID,
    sfLedgerIndex, sfVaultID, sfBondedAmount, sfEpochPoolBalance, sfEmissionRate, sfPublicKey,
    sfVoterList, sfConsensusKey, sfName, sfAccount, sfProposals]

/-! ### Templates -/

/-- `LedgerFormats::getCommonFields`. -/
def commonFields : SOTemplate :=
  [⟨sfLedgerIndex, .optional⟩, ⟨sfLedgerEntryType, .required⟩, ⟨sfFlags, .required⟩]

def ValidatorBond.template : SOTemplate :=
  [⟨sfAccount, .required⟩, ⟨sfPublicKey, .required⟩, ⟨sfConsensusKey, .required⟩,
    ⟨sfBondedAmount, .required⟩, ⟨sfBondStatus, .required⟩, ⟨sfUptimeBps, .default⟩,
    ⟨sfVoteAccuracyBps, .default⟩, ⟨sfLatencyScoreBps, .default⟩, ⟨sfConsistencyBps, .default⟩,
    ⟨sfSlashMultiplier, .required⟩, ⟨sfCompositeScore, .default⟩, ⟨sfSlashCount, .default⟩,
    ⟨sfLastClaimedEpoch, .default⟩, ⟨sfUnbondingStartLedger, .default⟩, ⟨sfOwnerNode, .required⟩,
    ⟨sfPreviousTxnID, .required⟩, ⟨sfPreviousTxnLgrSeq, .required⟩] ++
    commonFields

def RewardEpoch.template : SOTemplate :=
  [⟨sfEpochNumber, .required⟩, ⟨sfEpochStartLedger, .required⟩, ⟨sfEpochPoolBalance, .required⟩,
    ⟨sfEmissionRate, .required⟩, ⟨sfCurrentBurnBps, .required⟩, ⟨sfFeeVolumeEMA, .default⟩,
    ⟨sfAggregateCompositeScore, .default⟩, ⟨sfLPAllocationBps, .default⟩,
    ⟨sfAggregateLPShares, .default⟩, ⟨sfAmmLPAllocationBps, .default⟩,
    ⟨sfAggregateAmmTvlDrops, .default⟩, ⟨sfProposals, .default⟩, ⟨sfPreviousTxnID, .required⟩,
    ⟨sfPreviousTxnLgrSeq, .required⟩] ++
    commonFields

def GovernanceParams.template : SOTemplate :=
  [⟨sfCurrentBurnBps, .default⟩, ⟨sfPreviousTxnID, .required⟩, ⟨sfPreviousTxnLgrSeq, .required⟩] ++
    commonFields

def GovernanceProposal.template : SOTemplate :=
  [⟨sfAccount, .required⟩, ⟨sfProposalType, .required⟩, ⟨sfProposalValue, .required⟩,
    ⟨sfProposalExpiry, .required⟩, ⟨sfProposalState, .required⟩, ⟨sfVotedFor, .default⟩,
    ⟨sfVotedAgainst, .default⟩, ⟨sfVoterList, .default⟩, ⟨sfOwnerNode, .required⟩,
    ⟨sfPreviousTxnID, .required⟩, ⟨sfPreviousTxnLgrSeq, .required⟩] ++
    commonFields

def PopLpState.template : SOTemplate :=
  [⟨sfAccount, .required⟩, ⟨sfVaultID, .required⟩, ⟨sfLastClaimedEpoch, .default⟩,
    ⟨sfPreviousTxnID, .required⟩, ⟨sfPreviousTxnLgrSeq, .required⟩] ++
    commonFields

def AccountName.template : SOTemplate :=
  [⟨sfName, .required⟩, ⟨sfAccount, .required⟩, ⟨sfBondedAmount, .required⟩,
    ⟨sfNameStatus, .required⟩, ⟨sfUnbondingStartLedger, .default⟩, ⟨sfOwnerNode, .required⟩,
    ⟨sfPreviousTxnID, .required⟩, ⟨sfPreviousTxnLgrSeq, .required⟩] ++
    commonFields

/-- The formats of the fork's six entry types. -/
def ledgerFormats : LedgerFormats where
  knownFields := knownFields
  findByType type :=
    List.lookup type
      [(0x0091, ValidatorBond.template), (0x0092, RewardEpoch.template),
        (0x0093, GovernanceParams.template), (0x0094, GovernanceProposal.template),
        (0x0095, PopLpState.template), (0x0096, AccountName.template)]

/-! ### Entries as objects -/

/-- The values of the common fields. -/
def commonValues (type : UInt16) : STObject :=
  [⟨sfLedgerIndex, none⟩, ⟨sfLedgerEntryType, some type⟩, ⟨sfFlags, some (0 : UInt32)⟩]

def BondStatus.code : BondStatus → UInt32
  | registered => 0
  | bonded => 1
  | unbonding => 2

def ProposalState.code : ProposalState → UInt32
  | .open => 0
  | passed => 1
  | rejected => 2

def NameStatus.code : NameStatus → UInt32
  | active => 0
  | releasing => 1

def ValidatorBond.toSTObject (bond : ValidatorBond) : STObject :=
  [⟨sfAccount, some (some bond.account)⟩, ⟨sfPublicKey, some bond.publicKey⟩,
    ⟨sfConsensusKey, some bond.consensusKey⟩, ⟨sfBondedAmount, some bond.bondedAmount⟩,
    ⟨sfBondStatus, some bond.bondStatus.code⟩, ⟨sfUptimeBps, bond.uptimeBps⟩,
    ⟨sfVoteAccuracyBps, bond.voteAccuracyBps⟩, ⟨sfLatencyScoreBps, bond.latencyScoreBps⟩,
    ⟨sfConsistencyBps, bond.consistencyBps⟩, ⟨sfSlashMultiplier, some bond.slashMultiplier⟩,
    ⟨sfCompositeScore, bond.compositeScore⟩, ⟨sfSlashCount, bond.slashCount⟩,
    ⟨sfLastClaimedEpoch, bond.lastClaimedEpoch⟩,
    ⟨sfUnbondingStartLedger, bond.unbondingStartLedger⟩, ⟨sfOwnerNode, some bond.ownerNode⟩,
    ⟨sfPreviousTxnID, some bond.previousTxnID⟩, ⟨sfPreviousTxnLgrSeq, some bond.previousTxnLgrSeq⟩] ++
    commonValues 0x0091

def RewardEpoch.toSTObject (epoch : RewardEpoch) : STObject :=
  [⟨sfEpochNumber, some epoch.epochNumber⟩, ⟨sfEpochStartLedger, some epoch.epochStartLedger⟩,
    ⟨sfEpochPoolBalance, some epoch.epochPoolBalance⟩, ⟨sfEmissionRate, some epoch.emissionRate⟩,
    ⟨sfCurrentBurnBps, some epoch.currentBurnBps⟩, ⟨sfFeeVolumeEMA, epoch.feeVolumeEMA⟩,
    ⟨sfAggregateCompositeScore, epoch.aggregateCompositeScore⟩,
    ⟨sfLPAllocationBps, epoch.lpAllocationBps⟩, ⟨sfAggregateLPShares, epoch.aggregateLPShares⟩,
    ⟨sfAmmLPAllocationBps, epoch.ammLPAllocationBps⟩,
    ⟨sfAggregateAmmTvlDrops, epoch.aggregateAmmTvlDrops⟩, ⟨sfProposals, epoch.proposals⟩,
    ⟨sfPreviousTxnID, some epoch.previousTxnID⟩,
    ⟨sfPreviousTxnLgrSeq, some epoch.previousTxnLgrSeq⟩] ++
    commonValues 0x0092

def GovernanceParams.toSTObject (params : GovernanceParams) : STObject :=
  [⟨sfCurrentBurnBps, params.currentBurnBps⟩, ⟨sfPreviousTxnID, some params.previousTxnID⟩,
    ⟨sfPreviousTxnLgrSeq, some params.previousTxnLgrSeq⟩] ++
    commonValues 0x0093

def GovernanceProposal.toSTObject (proposal : GovernanceProposal) : STObject :=
  [⟨sfAccount, some (some proposal.account)⟩, ⟨sfProposalType, some proposal.proposalType⟩,
    ⟨sfProposalValue, some proposal.proposalValue⟩,
    ⟨sfProposalExpiry, some proposal.proposalExpiry⟩,
    ⟨sfProposalState, some proposal.proposalState.code⟩, ⟨sfVotedFor, proposal.votedFor⟩,
    ⟨sfVotedAgainst, proposal.votedAgainst⟩, ⟨sfVoterList, proposal.voterList⟩,
    ⟨sfOwnerNode, some proposal.ownerNode⟩, ⟨sfPreviousTxnID, some proposal.previousTxnID⟩,
    ⟨sfPreviousTxnLgrSeq, some proposal.previousTxnLgrSeq⟩] ++
    commonValues 0x0094

def PopLpState.toSTObject (state : PopLpState) : STObject :=
  [⟨sfAccount, some (some state.account)⟩, ⟨sfVaultID, some state.vaultID⟩,
    ⟨sfLastClaimedEpoch, state.lastClaimedEpoch⟩, ⟨sfPreviousTxnID, some state.previousTxnID⟩,
    ⟨sfPreviousTxnLgrSeq, some state.previousTxnLgrSeq⟩] ++
    commonValues 0x0095

def AccountName.toSTObject (entry : AccountName) : STObject :=
  [⟨sfName, some entry.name⟩, ⟨sfAccount, some (some entry.account)⟩,
    ⟨sfBondedAmount, some entry.bondedAmount⟩, ⟨sfNameStatus, some entry.nameStatus.code⟩,
    ⟨sfUnbondingStartLedger, entry.unbondingStartLedger⟩, ⟨sfOwnerNode, some entry.ownerNode⟩,
    ⟨sfPreviousTxnID, some entry.previousTxnID⟩,
    ⟨sfPreviousTxnLgrSeq, some entry.previousTxnLgrSeq⟩] ++
    commonValues 0x0096

/-! ### What can be read back -/

section Fields

variable {n : ℕ} {hpos : 0 < n} {hlt : n < 256}

@[simp] theorem encodable_uint16 {value : Option UInt16} :
    STVar.Encodable ⟨⟨.uint16, n, hpos, hlt⟩, value⟩ := fun _ _ => trivial

@[simp] theorem encodable_uint32 {value : Option UInt32} :
    STVar.Encodable ⟨⟨.uint32, n, hpos, hlt⟩, value⟩ := fun _ _ => trivial

@[simp] theorem encodable_uint64 {value : Option UInt64} :
    STVar.Encodable ⟨⟨.uint64, n, hpos, hlt⟩, value⟩ := fun _ _ => trivial

@[simp] theorem encodable_uint256 {value : Option UInt256} :
    STVar.Encodable ⟨⟨.uint256, n, hpos, hlt⟩, value⟩ := fun _ _ => trivial

@[simp] theorem encodable_account {value : Option (Option AccountID)} :
    STVar.Encodable ⟨⟨.account, n, hpos, hlt⟩, value⟩ := fun _ _ => trivial

@[simp] theorem encodable_amount {value : Option Int} :
    STVar.Encodable ⟨⟨.amount, n, hpos, hlt⟩, value⟩ ↔
      ∀ drops, value = some drops → drops.natAbs < 2 ^ 61 := Iff.rfl

@[simp] theorem encodable_vl {value : Option Blob} :
    STVar.Encodable ⟨⟨.vl, n, hpos, hlt⟩, value⟩ ↔
      ∀ data, value = some data → data.length ≤ kMaxVLLength := Iff.rfl

@[simp] theorem encodable_vector256 {value : Option (List UInt256)} :
    STVar.Encodable ⟨⟨.vector256, n, hpos, hlt⟩, value⟩ ↔
      ∀ ids, value = some ids → 32 * ids.length ≤ kMaxVLLength := Iff.rfl

@[simp] theorem accepts_required {f : SField} {value : Option f.fieldType.Value} :
    SOElement.Accepts ⟨f, .required⟩ ⟨f, value⟩ ↔ value.isSome = true := by
  simp [SOElement.Accepts, STVar.isPresent]

@[simp] theorem accepts_optional {f : SField} {value : Option f.fieldType.Value} :
    SOElement.Accepts ⟨f, .optional⟩ ⟨f, value⟩ := by
  cases value <;> simp [SOElement.Accepts, STVar.isPresent]

/-- A `SoeDefault` field is refused exactly when it holds an explicit default. -/
theorem accepts_default {f : SField} {value : Option f.fieldType.Value} :
    SOElement.Accepts ⟨f, .default⟩ ⟨f, value⟩ ↔
      ∀ x, value = some x → f.fieldType.isDefault x = false := by
  cases value <;> simp [SOElement.Accepts, STVar.isPresent, STVar.isDefault]

@[simp] theorem accepts_default_uint32 {value : Option UInt32} :
    SOElement.Accepts ⟨⟨.uint32, n, hpos, hlt⟩, .default⟩ ⟨⟨.uint32, n, hpos, hlt⟩, value⟩ ↔
      value ≠ some 0 := by
  rw [accepts_default]
  cases value <;> simp [SerializedTypeID.isDefault]

@[simp] theorem accepts_default_uint64 {value : Option UInt64} :
    SOElement.Accepts ⟨⟨.uint64, n, hpos, hlt⟩, .default⟩ ⟨⟨.uint64, n, hpos, hlt⟩, value⟩ ↔
      value ≠ some 0 := by
  rw [accepts_default]
  cases value <;> simp [SerializedTypeID.isDefault]

@[simp] theorem accepts_default_vl {value : Option Blob} :
    SOElement.Accepts ⟨⟨.vl, n, hpos, hlt⟩, .default⟩ ⟨⟨.vl, n, hpos, hlt⟩, value⟩ ↔
      value ≠ some [] := by
  rw [accepts_default]
  cases value <;> simp [SerializedTypeID.isDefault]

@[simp] theorem accepts_default_vector256 {value : Option (List UInt256)} :
    SOElement.Accepts ⟨⟨.vector256, n, hpos, hlt⟩, .default⟩
      ⟨⟨.vector256, n, hpos, hlt⟩, value⟩ ↔ value ≠ some [] := by
  rw [accepts_default]
  cases value <;> simp [SerializedTypeID.isDefault]

end Fields

private theorem readsBack_append {template : SOTemplate} {values : STObject} {type : UInt16}
    (hfields : (values ++ commonValues type).map STVar.fName = template.map SOElement.sField)
    (hnodup : (template.map SOElement.sField).Nodup)
    (hknown : ∀ e ∈ template, e.sField ∈ knownFields)
    (hformat : ledgerFormats.findByType type = some template) :
    ReadsBack ledgerFormats (values ++ commonValues type) ↔
      (∀ v ∈ values ++ commonValues type, v.Encodable) ∧
        List.Forall₂ SOElement.Accepts template (values ++ commonValues type) := by
  refine STLedgerEntry.readsBack_iff hfields hnodup hknown ?_ hformat
  simp [commonValues]

/-- Scores, the slash count, the claim mark and the start of unbonding are left out when zero. -/
@[mk_iff]
structure ValidatorBond.Storable (bond : ValidatorBond) : Prop where
  publicKey : bond.publicKey.length ≤ kMaxVLLength
  consensusKey : bond.consensusKey.length ≤ kMaxVLLength
  bondedAmount : bond.bondedAmount.natAbs < 2 ^ 61
  uptimeBps : bond.uptimeBps ≠ some 0
  voteAccuracyBps : bond.voteAccuracyBps ≠ some 0
  latencyScoreBps : bond.latencyScoreBps ≠ some 0
  consistencyBps : bond.consistencyBps ≠ some 0
  compositeScore : bond.compositeScore ≠ some 0
  slashCount : bond.slashCount ≠ some 0
  lastClaimedEpoch : bond.lastClaimedEpoch ≠ some 0
  unbondingStartLedger : bond.unbondingStartLedger ≠ some 0

theorem ValidatorBond.readsBack_iff (bond : ValidatorBond) :
    ReadsBack ledgerFormats bond.toSTObject ↔ bond.Storable := by
  have hfields : bond.toSTObject.map STVar.fName = template.map SOElement.sField := rfl
  rw [toSTObject, readsBack_append hfields (by decide) (by decide) rfl]
  simp [template, commonFields, commonValues, storable_iff, and_assoc]

/-- A list of proposals is short enough and, if it is there, not empty. -/
@[mk_iff]
structure RewardEpoch.Storable (epoch : RewardEpoch) : Prop where
  epochPoolBalance : epoch.epochPoolBalance.natAbs < 2 ^ 61
  emissionRate : epoch.emissionRate.natAbs < 2 ^ 61
  listed : ∀ keys, epoch.proposals = some keys → 32 * keys.length ≤ kMaxVLLength
  feeVolumeEMA : epoch.feeVolumeEMA ≠ some 0
  aggregateCompositeScore : epoch.aggregateCompositeScore ≠ some 0
  lpAllocationBps : epoch.lpAllocationBps ≠ some 0
  aggregateLPShares : epoch.aggregateLPShares ≠ some 0
  ammLPAllocationBps : epoch.ammLPAllocationBps ≠ some 0
  aggregateAmmTvlDrops : epoch.aggregateAmmTvlDrops ≠ some 0
  proposals : epoch.proposals ≠ some []

theorem RewardEpoch.readsBack_iff (epoch : RewardEpoch) :
    ReadsBack ledgerFormats epoch.toSTObject ↔ epoch.Storable := by
  have hfields : epoch.toSTObject.map STVar.fName = template.map SOElement.sField := rfl
  rw [toSTObject, readsBack_append hfields (by decide) (by decide) rfl]
  simp [template, commonFields, commonValues, storable_iff, and_assoc]

@[mk_iff]
structure GovernanceParams.Storable (params : GovernanceParams) : Prop where
  currentBurnBps : params.currentBurnBps ≠ some 0

theorem GovernanceParams.readsBack_iff (params : GovernanceParams) :
    ReadsBack ledgerFormats params.toSTObject ↔ params.Storable := by
  have hfields : params.toSTObject.map STVar.fName = template.map SOElement.sField := rfl
  rw [toSTObject, readsBack_append hfields (by decide) (by decide) rfl]
  simp [template, commonFields, commonValues, storable_iff]

/-- No side has an explicit sum of zero, and a voter list is not empty. -/
@[mk_iff]
structure GovernanceProposal.Storable (proposal : GovernanceProposal) : Prop where
  voters : ∀ voters, proposal.voterList = some voters → voters.length ≤ kMaxVLLength
  votedFor : proposal.votedFor ≠ some 0
  votedAgainst : proposal.votedAgainst ≠ some 0
  voterList : proposal.voterList ≠ some []

theorem GovernanceProposal.readsBack_iff (proposal : GovernanceProposal) :
    ReadsBack ledgerFormats proposal.toSTObject ↔ proposal.Storable := by
  have hfields : proposal.toSTObject.map STVar.fName = template.map SOElement.sField := rfl
  rw [toSTObject, readsBack_append hfields (by decide) (by decide) rfl]
  simp [template, commonFields, commonValues, storable_iff]

@[mk_iff]
structure PopLpState.Storable (state : PopLpState) : Prop where
  lastClaimedEpoch : state.lastClaimedEpoch ≠ some 0

theorem PopLpState.readsBack_iff (state : PopLpState) :
    ReadsBack ledgerFormats state.toSTObject ↔ state.Storable := by
  have hfields : state.toSTObject.map STVar.fName = template.map SOElement.sField := rfl
  rw [toSTObject, readsBack_append hfields (by decide) (by decide) rfl]
  simp [template, commonFields, commonValues, storable_iff]

@[mk_iff]
structure AccountName.Storable (entry : AccountName) : Prop where
  name : entry.name.length ≤ kMaxVLLength
  bondedAmount : entry.bondedAmount.natAbs < 2 ^ 61
  unbondingStartLedger : entry.unbondingStartLedger ≠ some 0

theorem AccountName.readsBack_iff (entry : AccountName) :
    ReadsBack ledgerFormats entry.toSTObject ↔ entry.Storable := by
  have hfields : entry.toSTObject.map STVar.fName = template.map SOElement.sField := rfl
  rw [toSTObject, readsBack_append hfields (by decide) (by decide) rfl]
  simp [template, commonFields, commonValues, storable_iff, and_assoc]

/-! ### Ledgers that can be read back -/

/-- Every entry of the fork's types is read back as it was written. -/
@[mk_iff]
structure Ledger.Readable (s : Ledger) : Prop where
  bonds : s.bonds.All fun bond => ReadsBack ledgerFormats bond.toSTObject
  names : s.names.All fun entry => ReadsBack ledgerFormats entry.toSTObject
  epoch : ∀ epoch, s.epoch = some epoch → ReadsBack ledgerFormats epoch.toSTObject
  params : ∀ params, s.params = some params → ReadsBack ledgerFormats params.toSTObject
  proposals : s.proposals.All fun proposal => ReadsBack ledgerFormats proposal.toSTObject
  lpStates : s.lpStates.All fun state => ReadsBack ledgerFormats state.toSTObject

section Decidable

private instance decidableForallEqSome {α : Type} {P : α → Prop} [DecidablePred P] :
    ∀ o : Option α, Decidable (∀ x, o = some x → P x)
  | none => isTrue fun _ h => by cases h
  | some x => decidable_of_iff (P x) ⟨fun h _ heq => Option.some.inj heq ▸ h, fun h => h x rfl⟩

instance : DecidablePred fun bond : ValidatorBond => ReadsBack ledgerFormats bond.toSTObject :=
  fun bond => decidable_of_iff' _ (bond.readsBack_iff.trans (ValidatorBond.storable_iff bond))

instance : DecidablePred fun epoch : RewardEpoch => ReadsBack ledgerFormats epoch.toSTObject :=
  fun epoch => decidable_of_iff' _ (epoch.readsBack_iff.trans (RewardEpoch.storable_iff epoch))

instance : DecidablePred fun params : GovernanceParams =>
    ReadsBack ledgerFormats params.toSTObject :=
  fun params => decidable_of_iff' _
    (params.readsBack_iff.trans (GovernanceParams.storable_iff params))

instance : DecidablePred fun proposal : GovernanceProposal =>
    ReadsBack ledgerFormats proposal.toSTObject :=
  fun proposal => decidable_of_iff' _
    (proposal.readsBack_iff.trans (GovernanceProposal.storable_iff proposal))

instance : DecidablePred fun state : PopLpState => ReadsBack ledgerFormats state.toSTObject :=
  fun state => decidable_of_iff' _ (state.readsBack_iff.trans (PopLpState.storable_iff state))

instance : DecidablePred fun entry : AccountName => ReadsBack ledgerFormats entry.toSTObject :=
  fun entry => decidable_of_iff' _ (entry.readsBack_iff.trans (AccountName.storable_iff entry))

instance (s : Ledger) : Decidable s.Readable := decidable_of_iff' _ (Ledger.readable_iff s)

end Decidable

end FalconLedger
