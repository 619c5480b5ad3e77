import FalconLedger.Data.Table
import FalconLedger.Protocol.PublicKey

/-!
# The negative UNL

The entry that lists disabled validators, the vote on it (`NegativeUNLVote.cpp`), the transaction
that carries the vote (`Change::applyUNLModify`), and what a flag ledger makes of it when it is built
(`Ledger::updateNegativeUNL`). How many validations of the last ledgers each node has issued is what
a voter has seen (`Voter`). Ledger numbers are natural numbers, and a hash set is a list without
repetition.
-/

namespace FalconLedger

namespace NegativeUNL

/-! ### The entry -/

/-- An element of `sfDisabledValidators`. -/
structure DisabledValidator where
  publicKey : Option Blob
  firstLedgerSequence : ℕ
  deriving DecidableEq

/-- `ltNEGATIVE_UNL`. -/
structure Entry where
  disabledValidators : Option (List DisabledValidator)
  validatorToDisable : Option Blob
  validatorToReEnable : Option Blob
  deriving DecidableEq

def kFlagLedgerInterval : ℕ := 256

def isFlagLedger (seq : ℕ) : Bool := seq % kFlagLedgerInterval = 0

/-- `Ledger::negativeUNL`. -/
def negativeUNL (sle : Option Entry) : List PublicKey :=
  ((sle.bind Entry.disabledValidators).getD []).filterMap
    fun n => n.publicKey.bind PublicKey.ofSlice?

/-- `Ledger::validatorToDisable`. -/
def validatorToDisable (sle : Option Entry) : Option PublicKey :=
  (sle.bind Entry.validatorToDisable).bind PublicKey.ofSlice?

/-- `Ledger::validatorToReEnable`. -/
def validatorToReEnable (sle : Option Entry) : Option PublicKey :=
  (sle.bind Entry.validatorToReEnable).bind PublicKey.ofSlice?

/-- `Ledger::updateNegativeUNL`: the pending changes are made. -/
def updateNegativeUNL (seq : ℕ) (sle : Option Entry) : Option Entry :=
  match sle with
  | none => none
  | some entry =>
    if entry.validatorToDisable.isNone && entry.validatorToReEnable.isNone then some entry
    else
      let kept := (entry.disabledValidators.getD []).filter fun v =>
        !(v.publicKey.isSome && v.publicKey == entry.validatorToReEnable)
      let newNUnl := kept ++
        entry.validatorToDisable.toList.map fun validator => ⟨some validator, seq⟩
      if newNUnl.isEmpty then none else some ⟨some newNUnl, none, none⟩

/-! ### The transaction -/

/-- `ttUNL_MODIFY`. -/
structure UNLModify where
  disabling : Option ℕ
  ledgerSequence : Option ℕ
  validator : Option Blob
  deriving DecidableEq

/-- `Change::applyUNLModify` on a ledger of the given number. -/
def applyUNLModify (seq : ℕ) (sle : Option Entry) (tx : UNLModify) : Except TER Entry := do
  failIf (!isFlagLedger seq) .tefFailure
  let disabling ← orFail tx.disabling .tefFailure
  failIf (1 < disabling) .tefFailure
  let ledgerSequence ← orFail tx.ledgerSequence .tefFailure
  let validator ← orFail tx.validator .tefFailure
  failIf (ledgerSequence ≠ seq) .tefFailure
  failIf (publicKeyType validator).isNone .tefFailure
  let negUnlObject := sle.getD ⟨none, none, none⟩
  let found := (negUnlObject.disabledValidators.getD []).any fun v =>
    v.publicKey == some validator
  if disabling ≠ 0 then
    failIf negUnlObject.validatorToDisable.isSome .tefFailure
    failIf (negUnlObject.validatorToReEnable = some validator) .tefFailure
    failIf found .tefFailure
    pure { negUnlObject with validatorToDisable := some validator }
  else
    failIf negUnlObject.validatorToReEnable.isSome .tefFailure
    failIf (negUnlObject.validatorToDisable = some validator) .tefFailure
    failIf (!found) .tefFailure
    pure { negUnlObject with validatorToReEnable := some validator }

/-! ### The vote -/

/-- What a node votes by. -/
structure Voter where
  myId : NodeID
  /-- The last 256 ledgers are known. -/
  hasHistory : Bool
  /-- How many of them a node has validated. -/
  validations : NodeID → ℕ
  /-- Nodes that have come to be trusted, and since which ledger. -/
  newValidators : Table NodeID ℕ

def kNegativeUnlLowWaterMark : ℕ := kFlagLedgerInterval * 50 / 100

def kNegativeUnlHighWaterMark : ℕ := kFlagLedgerInterval * 80 / 100

def kNegativeUnlMinLocalValsToVote : ℕ := kFlagLedgerInterval * 90 / 100

def kNewValidatorDisableSkip : ℕ := kFlagLedgerInterval * 2

/-- `std::ceil(unl.size() * kNEGATIVE_UNL_MAX_LISTED)`, a quarter rounded up. -/
def maxNegativeListed (unlSize : ℕ) : ℕ := (unlSize + 3) / 4

/-- `buildScoreTable`: no table if the own participation is not what it should be. -/
def buildScoreTable (voter : Voter) (unl : List NodeID) : Option (List (NodeID × ℕ)) :=
  if !voter.hasHistory then none
  else
    let myValidationCount := if voter.myId ∈ unl then voter.validations voter.myId else 0
    if kNegativeUnlMinLocalValsToVote < myValidationCount ∧
        myValidationCount ≤ kFlagLedgerInterval then
      some (unl.map fun n => (n, voter.validations n))
    else none

structure Candidates where
  toDisable : List NodeID
  toReEnable : List NodeID

def findAllCandidates (newValidators : Table NodeID ℕ) (unl negUnl : List NodeID)
    (scoreTable : List (NodeID × ℕ)) : Candidates :=
  let canAdd := (unl.countP fun n => n ∈ negUnl) < maxNegativeListed unl.length
  let toDisable := scoreTable.filter fun x =>
    canAdd && decide (x.2 < kNegativeUnlLowWaterMark) && decide (x.1 ∉ negUnl) &&
      (newValidators.lookup x.1).isNone
  let toReEnable := scoreTable.filter fun x =>
    decide (kNegativeUnlHighWaterMark < x.2) && decide (x.1 ∈ negUnl)
  { toDisable := toDisable.map Prod.fst
    toReEnable :=
      if toReEnable.isEmpty then negUnl.filter fun n => n ∉ unl else toReEnable.map Prod.fst }

/-- `choose`: the candidate that is least when mixed with the hash. -/
def choose (randomPadData : UInt256) (candidates : List NodeID) : Option NodeID :=
  let randomPad : NodeID := randomPadData.extractLsb' 96 160
  match candidates with
  | [] => none
  | first :: rest =>
    some (rest.foldl (fun n c => if c ^^^ randomPad < n ^^^ randomPad then c else n) first)

/-- `hash_map::emplace`. -/
def emplace (map : Table NodeID PublicKey) (n : NodeID) (k : PublicKey) : Table NodeID PublicKey :=
  if (map.lookup n).isSome then map else map.insert n k

variable (calcNodeID : PublicKey → NodeID)

/-- `NegativeUNLVote::doVoting`, on the ledger before a flag ledger. -/
def doVoting (voter : Voter) (prevSeq : ℕ) (prevHash : UInt256) (sle : Option Entry)
    (unlKeys : List PublicKey) : List UNLModify :=
  let unlNodeIDs := (unlKeys.map calcNodeID).dedup
  let nidToKeyMap := unlKeys.foldl (fun map k => emplace map (calcNodeID k) k) ∅
  match buildScoreTable voter unlNodeIDs with
  | none => []
  | some scoreTable =>
    -- build next negUnl
    let negUnlKeys := ((negativeUNL sle) ++ (validatorToDisable sle).toList).filter
      fun k => validatorToReEnable sle ≠ some k
    let negUnlNodeIDs := (negUnlKeys.map calcNodeID).dedup
    let nidToKeyMap := negUnlKeys.foldl (fun map k => emplace map (calcNodeID k) k) nidToKeyMap
    let seq := prevSeq + 1
    let newValidators : Table NodeID ℕ :=
      (voter.newValidators.entries.filter fun e =>
        decide (e.2 ≤ seq) && decide (seq - e.2 ≤ kNewValidatorDisableSkip)).foldl
          (fun t e => t.insert e.1 e.2) ∅
    let candidates := findAllCandidates newValidators unlNodeIDs negUnlNodeIDs scoreTable
    let addTx (disabling : ℕ) (n : NodeID) : List UNLModify :=
      (nidToKeyMap.lookup n).toList.map fun k => ⟨some disabling, some seq, some k.slice⟩
    (choose prevHash candidates.toDisable).toList.flatMap (addTx 1) ++
      (choose prevHash candidates.toReEnable).toList.flatMap (addTx 0)

/-! ### Flag ledgers -/

/-- The last flag ledger, and the entry as it was left there. -/
structure State where
  seq : ℕ
  sle : Option Entry

/-- One flag ledger: a node whose vote is taken, the hash of the ledger before, and the order in which
the transactions are applied. -/
structure Round where
  voter : Voter
  prevHash : UInt256
  order : List UNLModify → List UNLModify
  order_perm : ∀ txs, (order txs).Perm txs

/-- Apply the transactions, with the result of each. -/
def applyAll (seq : ℕ) : Option Entry → List UNLModify → Option Entry × List (Option TER)
  | sle, [] => (sle, [])
  | sle, tx :: txs =>
    match applyUNLModify seq sle tx with
    | .ok entry => ((applyAll seq (some entry) txs).1, none :: (applyAll seq (some entry) txs).2)
    | .error e => ((applyAll seq sle txs).1, some e :: (applyAll seq sle txs).2)

/-- The transactions of the next flag ledger. -/
def voted (unlKeys : List PublicKey) (s : State) (round : Round) : List UNLModify :=
  doVoting calcNodeID round.voter (s.seq + kFlagLedgerInterval - 1) round.prevHash s.sle unlKeys

/-- The next flag ledger is built. -/
def step (unlKeys : List PublicKey) (s : State) (round : Round) :
    State × List (Option TER) :=
  let seq := s.seq + kFlagLedgerInterval
  let result := applyAll seq (updateNegativeUNL seq s.sle)
    (round.order (voted calcNodeID unlKeys s round))
  (⟨seq, result.1⟩, result.2)

end NegativeUNL

end FalconLedger
