/-!
# Protocol constants

The constants of `QXRPConstants.h` (and of `SystemParameters.h`, `Protocol.h` where noted)
that the modelled code reads, under the source's names and in its integer types. Amounts
are signed 64-bit drops in the source and integers here; sequence numbers, basis points and
scores are `std::uint32_t` and stay `UInt32`, so that their arithmetic wraps as it does there.
-/

namespace FalconLedger

/-! ### Supply -/

/-- One native unit in drops (`SystemParameters.h`). -/
def kDropsPerXrp : Int := 1000000

/-- The number of drops in existence at genesis: 200 billion units. -/
def kInitialXrp : Int := 200000000000 * kDropsPerXrp

/-- The part of the supply the on-ledger treasury holds at genesis. -/
def kQxrpTreasuryAllocation : Int := 196000000000 * kDropsPerXrp

/-! ### Epochs and the emission schedule -/

/-- Ledgers per reward epoch. -/
def kQxrpLedgersPerEpoch : UInt32 := 172800

/-- First epoch with a claimable emission pool. -/
def kQxrpFirstEmissionEpoch : UInt32 := 8

def kQxrpEpochsPerYear : UInt32 := 52

def kQxrpCidYear1AvgBps : UInt32 := 1200

/-- Per-epoch floor once the curve has reached the yearly floor. -/
def kQxrpCidEpochFloorBps : UInt32 := 3

def kQxrpCidDeclineNum : UInt32 := 750

def kQxrpCidDeclineDen : UInt32 := 10816

/-! ### Split of the emission -/

def kQxrpPoplLpBpsPerProvider : UInt32 := 100

def kQxrpPoplLpMaxProviders : UInt32 := 25

def kQxrpPoplLpMaxBps : UInt32 := 2500

def kQxrpPoplAmmLpBpsPerProvider : UInt32 := 100

def kQxrpPoplAmmLpMaxProviders : UInt32 := 25

def kQxrpPoplAmmLpMaxBps : UInt32 := 2500

/-! ### Fee split -/

/-- Denominator of all basis-point arithmetic. -/
def kBpsDenom : UInt32 := 10000

def kFeeBurnMinBps : UInt32 := 4000

def kFeeBurnMaxBps : UInt32 := 7000

/-- Burn fraction while no epoch object exists. -/
def kFeeBurnDefaultBps : UInt32 := 5500

def kFeeTreasurySensitivityBps : UInt32 := 1000

/-! ### Bonds and names -/

def kQxrpMinBondDrops : Int := 1000 * kDropsPerXrp

/-- Ledgers between unbonding and release. -/
def kUnbondingLockLedgers : UInt32 := 262800

def kNameBondDrops : Int := 100 * kDropsPerXrp

def kNameMinLen : Nat := 3

def kNameMaxLen : Nat := 32

/-- Cooldown between `NameUnbond` and `NameRelease`: one epoch. -/
def kNameUnbondLedgers : UInt32 := kQxrpLedgersPerEpoch

/-! ### Scoring -/

def kScoreWeightUptime : UInt64 := 40

def kScoreWeightVoteAcc : UInt64 := 30

def kScoreWeightLatency : UInt64 := 15

def kScoreWeightConsistency : UInt64 := 10

/-- Weight of the newest window in the smoothed composite. -/
def kScoreEmaNewBps : UInt32 := 3500

def kLatencyPenaltyBpsPer10Ms : UInt32 := 1

/-- Composite below which `ClaimReward` is refused. -/
def kMinCompositeScoreBps : UInt32 := 500

/-- Scoring and flag-ledger interval (`Protocol.h`). -/
def kFlagLedgerInterval : UInt32 := 256

/-! ### Slashing -/

def kSlashOffenseDoubleSign : UInt32 := 1

def kSlashOffenseInvalidVote : UInt32 := 3

/-- Fraction of the bond a double sign costs. -/
def kSlashDoubleSignBps : UInt32 := kBpsDenom

/-! ### Governance -/

def kProposalTypeBurnBps : UInt32 := 1

def kGovernanceSupermajorityBps : UInt32 := 6700

def kGovernanceVotingLedgers : UInt32 := 172800

end FalconLedger
