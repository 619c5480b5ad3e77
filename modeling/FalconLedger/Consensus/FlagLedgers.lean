import FalconLedger.Consensus.AmendmentTable
import FalconLedger.Data.Run
import FalconLedger.Protocol.QxrpConstants
import Mathlib.Data.List.Sort

/-!
# Votes at flag ledgers

The entry for amendments, the transaction that carries an action (`Change::applyAmendment`), and
what the ledger after a flag ledger makes of the actions it takes over from the nodes that vote. A
time is a natural number of seconds. The same for fees (`FeeVoteImpl.cpp`, `Change::applyFee`).
-/

namespace FalconLedger

namespace AmendmentTable

variable {K : Type} [DecidableEq K]

/-! ### The entry -/

/-- `ltAMENDMENTS`. A majority is an amendment with a close time. -/
structure AmendmentsEntry where
  amendments : List UInt256
  majorities : Option (List (UInt256 × ℕ))
  deriving DecidableEq

/-- The entry of the first ledger. -/
def genesis (amendments : List UInt256) : Option AmendmentsEntry :=
  if amendments.isEmpty then none else some ⟨amendments, none⟩

def getEnabledAmendments (sle : Option AmendmentsEntry) : List UInt256 :=
  sle.elim [] AmendmentsEntry.amendments

/-- `sfMajorities`, empty if absent. -/
def majorities (sle : Option AmendmentsEntry) : List (UInt256 × ℕ) :=
  (sle.bind AmendmentsEntry.majorities).getD []

def getMajorityAmendments (sle : Option AmendmentsEntry) : Table UInt256 ℕ :=
  (majorities sle).foldl (fun ret m => ret.insert m.1 m.2) ∅

/-! ### The transaction -/

inductive Refusal
  | tefAlready
  | temInvalidFlag
  deriving DecidableEq

/-- `Change::applyAmendment`, of the amendment and the flags of the transaction. -/
def applyAmendment (parentCloseTime : ℕ) (sle : Option AmendmentsEntry) (amendment : UInt256)
    (flags : UInt32) : Except Refusal AmendmentsEntry :=
  let amendmentObject := sle.getD ⟨[], none⟩
  if amendmentObject.amendments.contains amendment then .error .tefAlready
  else
    let gotMajority := flags &&& tfGotMajority ≠ 0
    let lostMajority := flags &&& tfLostMajority ≠ 0
    if gotMajority ∧ lostMajority then .error .temInvalidFlag
    else
      let oldMajorities := amendmentObject.majorities.getD []
      let found := oldMajorities.any fun majority => majority.1 = amendment
      if found ∧ gotMajority then .error .tefAlready
      else if ¬found ∧ lostMajority then .error .tefAlready
      else
        let passed := oldMajorities.filter fun majority => majority.1 ≠ amendment
        let newMajorities :=
          if gotMajority then passed ++ [(amendment, parentCloseTime)] else passed
        .ok
          { amendments :=
              if ¬gotMajority ∧ ¬lostMajority then amendmentObject.amendments ++ [amendment]
              else amendmentObject.amendments
            majorities := if newMajorities.isEmpty then none else some newMajorities }

/-- One transaction, with the reason if it is refused. -/
def applyTx (parentCloseTime : ℕ) (sle : Option AmendmentsEntry) (tx : UInt256 × UInt32) :
    Option AmendmentsEntry × Option Refusal :=
  match applyAmendment parentCloseTime sle tx.1 tx.2 with
  | .ok amendmentObject => (some amendmentObject, none)
  | .error refusal => (sle, some refusal)

/-! ### The validation before a flag ledger -/

/-- What is read of an `AmendmentState`. -/
structure AmendmentState where
  vote : AmendmentVote
  supported : Bool
  deriving DecidableEq

/-- `AmendmentTableImpl::doValidation`: what a node lists in its own validation. -/
def doValidation (enabled : List UInt256) (amendmentMap : Table UInt256 AmendmentState) :
    List UInt256 :=
  ((amendmentMap.entries.filter fun e =>
    e.2.supported && decide (e.2.vote = .up) && !enabled.contains e.1).map Sigma.fst).insertionSort
      fun a b => a.toNat ≤ b.toNat

/-! ### The ledgers -/

/-- What one node brings to the vote. -/
structure Ballot (K : Type) where
  recordedVotes : TrustedVotes K
  valSet : List (STValidation K)
  amendmentMap : Table UInt256 AmendmentVote

/-- A flag ledger is the last closed one. The next ledger has the given transactions, in the order
in which they are applied. -/
structure FlagLedger (K : Type) where
  parentCloseTime : ℕ
  closeTime : ℕ
  ballots : List (Ballot K)
  txs : List (UInt256 × UInt32)

/-- `AmendmentTable::doVoting` of one node, by the entry of the flag ledger. -/
def Ballot.actions (majorityTime : ℕ) (sle : Option AmendmentsEntry) (parentCloseTime : ℕ)
    (ballot : Ballot K) : AmendmentSet × List (UInt256 × UInt32) :=
  (doVoting majorityTime ballot.recordedVotes
    { closeTime := parentCloseTime
      enabledAmendments := getEnabledAmendments sle
      majorityAmendments := getMajorityAmendments sle
      valSet := ballot.valSet
      amendmentMap := ballot.amendmentMap }).2

/-- Every transaction is the action of some node. -/
def Voted (majorityTime : ℕ) (sle : Option AmendmentsEntry) (L : FlagLedger K) : Prop :=
  ∀ tx ∈ L.txs, ∃ ballot ∈ L.ballots,
    tx ∈ (ballot.actions majorityTime sle L.parentCloseTime).2

instance (majorityTime : ℕ) (sle : Option AmendmentsEntry) (L : FlagLedger K) :
    Decidable (Voted majorityTime sle L) :=
  List.decidableBAll (fun tx => ∃ ballot ∈ L.ballots,
    tx ∈ (ballot.actions majorityTime sle L.parentCloseTime).2) L.txs

/-- The ledger after the flag ledger. -/
def build (sle : Option AmendmentsEntry) (L : FlagLedger K) :
    Option AmendmentsEntry × List (Option Refusal) :=
  (Run.final (applyTx L.closeTime) sle L.txs, Run.outputs (applyTx L.closeTime) sle L.txs)

end AmendmentTable

/-! ### Fees -/

namespace FeeVote

inductive Fee
  | base
  | reserve
  | increment
  deriving DecidableEq

def Fee.all : List Fee := [.base, .reserve, .increment]

/-- The width of the older field for a fee. -/
def Fee.width : Fee → ℕ
  | .base => 64
  | .reserve => 32
  | .increment => 32

/-- In drops. -/
abbrev Fees := Fee → ℤ

/-- `VotableValue`. The map counts the votes that are listed here. -/
structure VotableValue where
  current : ℤ
  target : ℤ
  votes : List ℤ

namespace VotableValue

variable (value : VotableValue)

def make (current target : ℤ) : VotableValue := ⟨current, target, [target]⟩

def addVote (vote : ℤ) : VotableValue := { value with votes := vote :: value.votes }

def noVote : VotableValue := value.addVote value.current

def Between (key : ℤ) : Prop :=
  key ≤ max value.target value.current ∧ min value.target value.current ≤ key

instance (key : ℤ) : Decidable (value.Between key) := inferInstanceAs (Decidable (_ ∧ _))

/-- One turn of the loop of `getVotes`, with the vote and its weight. -/
def take (best : ℤ × ℕ) (key : ℤ) : ℤ × ℕ :=
  if value.Between key ∧ best.2 < value.votes.count key then (key, value.votes.count key)
  else best

def getVotes : ℤ × Bool :=
  let ourVote :=
    ((value.votes.dedup.insertionSort (· ≤ ·)).foldl value.take (value.current, 0)).1
  (ourVote, ourVote ≠ value.current)

end VotableValue

/-- What is read of a validation: the native amounts in its fields, and the older fields. -/
structure FeeValidation where
  isTrusted : Bool
  drops : Fee → Option ℤ
  old : Fee → Option ℕ

def isLegalAmountSigned (amount : ℤ) : Bool := -kInitialXrp ≤ amount && amount ≤ kInitialXrp

def doVote (value : VotableValue) (field : Option ℤ) : VotableValue :=
  match field.filter isLegalAmountSigned with
  | some vote => value.addVote vote
  | none => value.noVote

/-- The fields that the amendment asks for. -/
def FeeValidation.field (xrpFees : Bool) (fee : Fee) (val : FeeValidation) : Option ℤ :=
  if xrpFees then val.drops fee else (val.old fee).map Int.ofNat

/-- The votes that a node counts for one of the fees. -/
def votable (xrpFees : Bool) (fees target : Fees) (set : List FeeValidation) (fee : Fee) :
    VotableValue :=
  ((set.filter FeeValidation.isTrusted).map (FeeValidation.field xrpFees fee)).foldl doVote
    (.make (fees fee) (target fee))

/-- The transaction `ttFEE`, with the newer or with the older fields. -/
inductive FeeTx
  | drops (fees : Fees)
  | old (fees : Fee → ℕ)

def FeeTx.fees : FeeTx → Fees
  | .drops fees => fees
  | .old fees => fun fee => fees fee

/-- `XRPAmount::dropsAs` for a type without sign. -/
def dropsAs (width : ℕ) (drops : ℤ) : Option ℕ :=
  if drops < 2 ^ width ∧ 0 ≤ drops then some drops.toNat else none

/-- `FeeVoteImpl::doVoting`. -/
def doVoting (xrpFees : Bool) (fees target : Fees) (set : List FeeValidation) : Option FeeTx :=
  let vote fee := (votable xrpFees fees target set fee).getVotes
  if Fee.all.any fun fee => (vote fee).2 then
    some (if xrpFees then .drops fun fee => (vote fee).1
      else .old fun fee =>
        (dropsAs fee.width (vote fee).1).getD (fees fee % 2 ^ fee.width).toNat)
  else none

/-- `ltFEE_SETTINGS`; a missing entry reads like one without fields. -/
structure FeeSettings where
  drops : Fee → Option ℤ
  old : Fee → Option ℕ

/-- `Change::preclaim` and `Change::applyFee`. Fields of the wrong form are refused. -/
def applyFee (xrpFees : Bool) (sle : FeeSettings) : FeeTx → Option FeeSettings
  | .drops fees => if xrpFees then some ⟨fun fee => some (fees fee), fun _ => none⟩ else none
  | .old fees => if xrpFees then none else some { sle with old := fun fee => some (fees fee) }

/-- `Ledger::setup`: the fees of a ledger, and whether the entry is in order. -/
def setup (xrpFees : Bool) (fees : Fees) (sle : FeeSettings) : Fees × Bool :=
  let oldFees := Fee.all.any fun fee => (sle.old fee).isSome
  let newFees := Fee.all.any fun fee => (sle.drops fee).isSome
  (fun fee => (sle.drops fee).getD ((sle.old fee).elim (fees fee) Int.ofNat),
    !(oldFees && newFees) && (xrpFees || !newFees))

structure FeeState where
  xrpFees : Bool
  sle : FeeSettings
  fees : Fees

/-- The first ledger. -/
def genesis (xrpFees : Bool) (fees : Fees) : FeeState :=
  { xrpFees, fees
    sle :=
      if xrpFees then ⟨fun fee => some (fees fee), fun _ => none⟩
      else ⟨fun _ => none, fun fee => dropsAs fee.width (fees fee)⟩ }

/-- What one node brings to the vote. -/
structure FeeBallot where
  target : Fees
  set : List FeeValidation

/-- The ledger after a flag ledger, which may enable `featureXRPFees`. -/
structure FeeLedger where
  ballots : List FeeBallot
  txs : List FeeTx
  enablesXRPFees : Bool

/-- Every transaction is what some node votes for. -/
def Voted (s : FeeState) (L : FeeLedger) : Prop :=
  ∀ tx ∈ L.txs, ∃ ballot ∈ L.ballots,
    doVoting s.xrpFees s.fees ballot.target ballot.set = some tx

/-- The ledger, and whether its entry is in order. -/
def build (s : FeeState) (L : FeeLedger) : FeeState × Bool :=
  let sle := L.txs.foldl (fun sle tx => (applyFee s.xrpFees sle tx).getD sle) s.sle
  let xrpFees := s.xrpFees || L.enablesXRPFees
  (⟨xrpFees, sle, (setup xrpFees s.fees sle).1⟩, (setup xrpFees s.fees sle).2)

end FeeVote

end FalconLedger
