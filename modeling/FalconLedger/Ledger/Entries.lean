import FalconLedger.Protocol.STTx

/-!
# Ledger entries

The ledger entry types the fork adds (`ledger_entries.macro`), and of the older ones the fields its
code reads. A `SoeDefault` field is an `Option`: `none` when the field is not present, `some v` when
it is, so that an explicitly stored default (`some 0`, `some []`) stays different from an absent
field.
-/

namespace FalconLedger

/-- `ltACCOUNT_ROOT`. -/
structure AccountRoot where
  balance : Int
  sequence : UInt32
  ownerCount : UInt32
  ticketCount : Option UInt32
  accountTxnID : Option UInt256
  /-- The key of the account's name object, a field this fork adds. -/
  accountName : Option UInt256
  /-- `lsfGlobalFreeze`. -/
  globalFreeze : Bool
  deriving DecidableEq

/-- `sfBondStatus`. -/
inductive BondStatus
  | registered
  | bonded
  | unbonding
  deriving DecidableEq

/-- `ltVALIDATOR_BOND`. -/
structure ValidatorBond where
  account : AccountID
  publicKey : Blob
  consensusKey : Blob
  bondedAmount : Int
  bondStatus : BondStatus
  uptimeBps : Option UInt32
  voteAccuracyBps : Option UInt32
  latencyScoreBps : Option UInt32
  consistencyBps : Option UInt32
  slashMultiplier : UInt32
  compositeScore : Option UInt32
  slashCount : Option UInt32
  lastClaimedEpoch : Option UInt32
  unbondingStartLedger : Option UInt32
  ownerNode : UInt64
  previousTxnID : UInt256
  previousTxnLgrSeq : UInt32
  deriving DecidableEq

/-- `ltREWARD_EPOCH`, a singleton. -/
structure RewardEpoch where
  epochNumber : UInt32
  epochStartLedger : UInt32
  /-- Drops of the epoch's emission that are still claimable. -/
  epochPoolBalance : Int
  emissionRate : Int
  currentBurnBps : UInt32
  feeVolumeEMA : Option UInt32
  aggregateCompositeScore : Option UInt32
  lpAllocationBps : Option UInt32
  aggregateLPShares : Option UInt64
  ammLPAllocationBps : Option UInt32
  aggregateAmmTvlDrops : Option UInt64
  /-- Keys of the open governance proposals. -/
  proposals : Option (List UInt256)
  previousTxnID : UInt256
  previousTxnLgrSeq : UInt32
  deriving DecidableEq

/-- `ltGOVERNANCE_PARAMS`, a singleton. -/
structure GovernanceParams where
  currentBurnBps : Option UInt32
  previousTxnID : UInt256
  previousTxnLgrSeq : UInt32
  deriving DecidableEq

/-- `sfProposalState`. -/
inductive ProposalState
  | open
  | passed
  | rejected
  deriving DecidableEq

/-- `ltGOVERNANCE_PROPOSAL`. -/
structure GovernanceProposal where
  account : AccountID
  proposalType : UInt32
  proposalValue : UInt32
  proposalExpiry : UInt32
  proposalState : ProposalState
  votedFor : Option UInt32
  votedAgainst : Option UInt32
  /-- The 20-byte ids of the bonds that voted, packed. -/
  voterList : Option Blob
  ownerNode : UInt64
  previousTxnID : UInt256
  previousTxnLgrSeq : UInt32
  deriving DecidableEq

/-- `ltPOP_LP_STATE`: when an account last claimed for a vault or a pool. -/
structure PopLpState where
  account : AccountID
  vaultID : UInt256
  lastClaimedEpoch : Option UInt32
  previousTxnID : UInt256
  previousTxnLgrSeq : UInt32
  deriving DecidableEq

/-- `sfNameStatus`. -/
inductive NameStatus
  | active
  | releasing
  deriving DecidableEq

/-- `ltACCOUNT_NAME`. -/
structure AccountName where
  name : Blob
  account : AccountID
  bondedAmount : Int
  nameStatus : NameStatus
  unbondingStartLedger : Option UInt32
  ownerNode : UInt64
  previousTxnID : UInt256
  previousTxnLgrSeq : UInt32
  deriving DecidableEq

/-- `ltTICKET`. -/
structure Ticket where
  ownerNode : UInt64
  deriving DecidableEq

/-- A page of a directory, `ltDIR_NODE`; absent links read as `0`. -/
structure DirNode where
  indexes : List UInt256
  indexNext : UInt64
  indexPrevious : UInt64
  deriving DecidableEq

/-- An issued amount as `STAmount` stores it. -/
structure IssuedAmount where
  mantissa : UInt64
  exponent : Int
  negative : Bool
  currency : Currency
  account : AccountID
  deriving DecidableEq

/-- `amt <= beast::kZERO`. -/
def IssuedAmount.isNonPositive (amt : IssuedAmount) : Bool :=
  amt.negative || amt.mantissa == 0

/-- `ltAMM`. -/
structure Amm where
  account : AccountID
  asset : Asset
  asset2 : Asset
  lpTokenBalance : IssuedAmount
  deriving DecidableEq

/-- `ltRIPPLE_STATE`: a trust line; the balance is from the low account's side. -/
structure RippleState where
  balance : IssuedAmount
  lowIssuer : AccountID
  highIssuer : AccountID
  lowFreeze : Bool
  highFreeze : Bool
  deriving DecidableEq

/-- `ltVAULT`. -/
structure Vault where
  shareMPTID : MPTID
  deriving DecidableEq

end FalconLedger
