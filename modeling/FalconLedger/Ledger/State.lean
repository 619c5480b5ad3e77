import FalconLedger.Data.Table
import FalconLedger.Ledger.Entries
import FalconLedger.Protocol.QxrpConstants

/-!
# The ledger

The state a node builds on: the header fields the fork reads, the enabled amendments, and one table
for each entry type. The source keeps every entry in one map under a 256-bit key hashed from its
type and identity; here each type has a table keyed by that identity. Identifiers derived by hashing
are the fields of `Hashes`, of which nothing is assumed.

A view of a ledger under construction is a `Ledger` too. Drops destroyed in it have already left
`drops`, which the source subtracts from the header when the view is applied.
-/

namespace FalconLedger

/-- Identifiers derived by hashing, and the treasury's account. -/
structure Hashes where
  calcValidatorBondID : Blob → AccountID
  calcNodeID : Blob → NodeID
  /-- Key of the bond object with this id. -/
  validatorBondKey : AccountID → UInt256
  /-- Key of the proposal an account makes at a sequence number. -/
  governanceProposalKey : AccountID → UInt32 → UInt256
  accountNameKey : Blob → UInt256
  ticketKey : AccountID → UInt32 → UInt256
  /-- Key of the pool of an asset pair. -/
  ammKey : Asset → Asset → UInt256
  ammLptCurrency : Asset → Asset → Currency
  getTreasuryAccountID : AccountID

/-- The amendments the modelled code tests. -/
structure Rules where
  proofOfParticipation : Bool
  accountNames : Bool
  permissionDelegation : Bool
  fixDirectoryLimit : Bool
  deriving DecidableEq

/-- Pools, trust lines, vaults and share tokens: what the liquidity rewards are measured by. -/
structure Holdings where
  amms : Table UInt256 Amm
  /-- Trust lines under their low account, high account and currency. -/
  lines : Table (AccountID × AccountID × Currency) RippleState
  vaults : Table UInt256 Vault
  /-- `sfOutstandingAmount` of each token issuance. -/
  issuances : Table MPTID UInt64
  /-- `sfMPTAmount` of each holder of a token. -/
  mptokens : Table (MPTID × AccountID) UInt64

/-- Ledger state. -/
structure Ledger where
  seq : UInt32
  /-- Total drops in existence, as in the header. -/
  drops : Int
  rules : Rules
  accounts : Table AccountID AccountRoot
  bonds : Table AccountID ValidatorBond
  names : Table UInt256 AccountName
  epoch : Option RewardEpoch
  params : Option GovernanceParams
  proposals : Table UInt256 GovernanceProposal
  lpStates : Table (AccountID × UInt256) PopLpState
  tickets : Table (AccountID × UInt32) Ticket
  /-- Pages of the owner directories. -/
  dirs : Table (AccountID × UInt64) DirNode
  /-- `sfHashes` of the skip list of the last ledgers, oldest first. -/
  skip : Option (List UInt256)
  holdings : Holdings

/-- `keylet::line`: the two accounts in order. -/
def lineKey (a b : AccountID) (currency : Currency) : AccountID × AccountID × Currency :=
  if a < b then (a, b, currency) else (b, a, currency)

namespace Ledger

/-- The balance of an account, `0` when there is no such account. -/
def balanceOf (s : Ledger) (id : AccountID) : Int :=
  Table.weightAt AccountRoot.balance s.accounts id

/-- Write an account root. -/
def setAccount (s : Ledger) (id : AccountID) (root : AccountRoot) : Ledger :=
  { s with accounts := s.accounts.insert id root }

/-- Write a bond. -/
def setBond (s : Ledger) (id : AccountID) (bond : ValidatorBond) : Ledger :=
  { s with bonds := s.bonds.insert id bond }

/-- All drops in account roots, validator bonds and name bonds. -/
def held (s : Ledger) : Int :=
  Table.total AccountRoot.balance s.accounts + Table.total ValidatorBond.bondedAmount s.bonds +
    Table.total AccountName.bondedAmount s.names

@[simp] theorem balanceOf_setAccount_self (s : Ledger) (id : AccountID) (root : AccountRoot) :
    (s.setAccount id root).balanceOf id = root.balance := by
  simp [balanceOf, setAccount]

theorem balanceOf_setAccount_of_ne {s : Ledger} {id id' : AccountID} {root : AccountRoot}
    (h : id' ≠ id) : (s.setAccount id root).balanceOf id' = s.balanceOf id' :=
  Table.weightAt_insert_of_ne h

theorem balanceOf_of_lookup {s : Ledger} {id : AccountID} {root : AccountRoot}
    (h : s.accounts.lookup id = some root) : s.balanceOf id = root.balance :=
  Table.weightAt_of_lookup h

end Ledger

end FalconLedger
