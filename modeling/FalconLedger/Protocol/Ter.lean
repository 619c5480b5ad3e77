import Mathlib.Tactic.Common

/-!
# Transaction result codes

The codes of `TER.h` the modelled code returns, in three classes: success (`tes`), a failure that
still claims a fee (`tec`), and everything else, which leaves the ledger alone. A stage of a
transactor is an `Except TER` computation, where `throw` is an early `return` of a failure code;
`failIf` and `orFail` are the two shapes such a return takes in the source.
-/

namespace FalconLedger

/-- Transaction engine results. -/
inductive TER
  | tesSuccess
  | tecDirFull
  | tecDstTagNeeded
  | tecDuplicate
  | tecExpired
  | tecFailedProcessing
  | tecHasObligations
  | tecInsuffFee
  | tecInsufficientFunds
  | tecInsufficientReserve
  | tecInternal
  | tecInvariantFailed
  | tecKilled
  | tecLimitExceeded
  | tecLocked
  | tecMaxSequenceReached
  | tecNoAuth
  | tecNoDst
  | tecNoDstInsufXrp
  | tecNoEntry
  | tecNoLine
  | tecNoPermission
  | tecObjectNotFound
  | tecOversize
  | tecPathDry
  | tecPathPartial
  | tecPrecisionLoss
  | tecTooSoon
  | tecUnfunded
  | tecUnfundedPayment
  | tecWrongAsset
  | tefBadAuth
  | tefBadLedger
  | tefBadQuorum
  | tefBadSignature
  | tefException
  | tefFailure
  | tefInternal
  | tefInvariantFailed
  | tefMasterDisabled
  | tefNotMultiSigning
  | tefNoTicket
  | tefPastSeq
  | tefTooBig
  | telCanNotQueue
  | telCanNotQueueBlocked
  | telCanNotQueueBlocks
  | telCanNotQueueFull
  | temBadAmmTokens
  | temBadAmount
  | temBadFee
  | temBadQuorum
  | temBadSigner
  | temBadSrcAccount
  | temBadWeight
  | temDisabled
  | temDstIsSrc
  | temInvalid
  | temInvalidCount
  | temInvalidFlag
  | temInvalidInnerBatch
  | temMalformed
  | temSeqAndTicket
  | terInsufFeeB
  | terNoAccount
  | terPreSeq
  | terPreTicket
  /-- A failure of a check outside this model, never one that claims a fee. -/
  | notTec (code : Nat)
  /-- A failure outside this model that claims a fee. -/
  | otherTec (code : Nat)
  deriving DecidableEq

namespace TER

def isTesSuccess : TER → Bool
  | tesSuccess => true
  | _ => false

/-- A failure after which the fee is claimed. -/
def isTecClaim : TER → Bool
  | tecDirFull | tecDstTagNeeded | tecDuplicate | tecExpired | tecFailedProcessing
  | tecHasObligations | tecInsuffFee | tecInsufficientFunds | tecInsufficientReserve | tecInternal
  | tecInvariantFailed | tecKilled | tecLimitExceeded | tecLocked | tecMaxSequenceReached
  | tecNoAuth | tecNoDst | tecNoDstInsufXrp | tecNoEntry | tecNoLine | tecNoPermission
  | tecObjectNotFound | tecOversize | tecPathDry | tecPathPartial | tecPrecisionLoss | tecTooSoon | tecUnfunded
  | tecUnfundedPayment | tecWrongAsset | otherTec _ => true
  | _ => false

end TER

/-- Return the failure `e` when the condition holds. -/
def failIf (c : Prop) [Decidable c] (e : TER) : Except TER Unit :=
  if c then .error e else .ok ()

/-- The object, or the failure `e` when there is none. -/
def orFail {α : Type} (o : Option α) (e : TER) : Except TER α :=
  match o with
  | some a => .ok a
  | none => .error e

/-- A check that is made only when the condition holds. -/
def checkWhen (c : Prop) [Decidable c] (check : Except TER Unit) : Except TER Unit :=
  if c then check else .ok ()

@[simp] theorem failIf_eq_ok {c : Prop} [Decidable c] {e : TER} {u : Unit} :
    failIf c e = .ok u ↔ ¬c := by
  unfold failIf
  split_ifs with h <;> simp [h]

@[simp] theorem orFail_eq_ok {α : Type} {o : Option α} {e : TER} {a : α} :
    orFail o e = .ok a ↔ o = some a := by
  cases o <;> simp [orFail]

@[simp] theorem checkWhen_eq_ok {c : Prop} [Decidable c] {check : Except TER Unit} {u : Unit} :
    checkWhen c check = .ok u ↔ (c → check = .ok ()) := by
  unfold checkWhen
  split_ifs with h <;> simp [h]

@[simp] theorem Except.bind_eq_ok {α β : Type} {x : Except TER α} {f : α → Except TER β}
    {b : β} : (x >>= f) = .ok b ↔ ∃ a, x = .ok a ∧ f a = .ok b := by
  cases x <;> simp [bind, Except.bind]

@[simp] theorem Except.pure_eq_ok {α : Type} {a b : α} :
    (pure a : Except TER α) = .ok b ↔ a = b := by
  simp [pure, Except.pure]

end FalconLedger
