import FalconLedger.Protocol.Ter

/-!
# Transactions

Identifiers and the transactions of the fork: the common fields every transactor reads and,
in `TxBody`, the fields of each type. A field that a transaction may lack, and that the code
tests for with `isFieldPresent`, is an `Option`.
-/

namespace FalconLedger

/-- A 256-bit ledger key or hash. -/
abbrev UInt256 := BitVec 256

abbrev AccountID := BitVec 160

abbrev NodeID := BitVec 160

abbrev Currency := BitVec 160

abbrev MPTID := BitVec 192

abbrev Blob := List UInt8

/-- What an amount is denominated in. -/
inductive Asset
  | xrp
  | issue (currency : Currency) (account : AccountID)
  | mpt (id : MPTID)
  deriving DecidableEq

/-- Whether the asset is the native one. -/
def Asset.native : Asset → Bool
  | .xrp => true
  | _ => false

/-- Where a transaction takes its place in the account's order: a sequence number or a
ticket. -/
inductive SeqProxy
  | seq (value : UInt32)
  | ticket (value : UInt32)
  deriving DecidableEq

/-- The fields of each transaction type. -/
inductive TxBody
  | validatorRegister (publicKey consensusKey : Blob)
  | validatorBond (consensusKey : Blob) (bondedAmount : Int)
  | validatorUnbond (consensusKey : Blob)
  | validatorSlash (slashTarget : AccountID) (slashOffense : UInt32)
      (slashEvidence1 slashEvidence2 : Option Blob)
  | releaseBond (slashTarget : AccountID)
  | claimReward (consensusKey : Blob)
  | claimLpReward (vaultID : Option UInt256)
  | claimAmmLpReward (asset asset2 : Option Asset)
  | nameSet (name : Option Blob)
  | nameUnbond (name : Option Blob)
  | nameRelease (name : Option Blob)
  | governanceProposal (consensusKey : Blob) (proposalType proposalValue : UInt32)
  | governanceVote (consensusKey : Blob) (proposalID : UInt256) (voteWeight : UInt32)
  deriving DecidableEq

/-- A signed transaction. `sfFee` is native, `delegate` is `sfDelegate`. -/
structure STTx where
  transactionID : UInt256
  account : AccountID
  delegate : Option AccountID
  fee : Int
  seqProxy : SeqProxy
  body : TxBody
  deriving DecidableEq

/-- The account the fee is taken from: the delegate if there is one. -/
def STTx.getFeePayer (tx : STTx) : AccountID := tx.delegate.getD tx.account

/-- `tx[sfSequence]`, which is `0` on a transaction that uses a ticket. -/
def STTx.sequence (tx : STTx) : UInt32 :=
  match tx.seqProxy with
  | .seq n => n
  | .ticket _ => 0

end FalconLedger
