import FalconLedger.Data.Table
import FalconLedger.Protocol.STTx

/-!
# Voting for amendments

`TrustedVotes`, `AmendmentSet` and `AmendmentTableImpl::doVoting`. Times are natural numbers of
seconds; a timeout is one of the network clock, which has 32 bits. The order of a hash map is that of
a table's rows, and nothing depends on it.
-/

namespace FalconLedger

namespace AmendmentTable

variable {K : Type} [DecidableEq K]

/-! ### The votes on record -/

structure UpvotesAndTimeout where
  upVotes : List UInt256
  timeout : Option ℕ
  deriving DecidableEq

/-- What is read of a validation. -/
structure STValidation (K : Type) where
  signerPublic : K
  /-- `sfAmendments`. -/
  amendments : Option (List UInt256)

/-- `recordedVotes_`. -/
abbrev TrustedVotes (K : Type) := Table K UpvotesAndTimeout

/-- 24 hours. -/
def kExpiresAfter : ℕ := 86400

/-- `TrustedVotes::trustChanged`. -/
def trustChanged (recordedVotes : TrustedVotes K) (allTrusted : List K) : TrustedVotes K :=
  allTrusted.foldl (fun newRecordedVotes trusted =>
    newRecordedVotes.insert trusted ((recordedVotes.lookup trusted).getD ⟨[], none⟩)) ∅

/-- A validation replaces the votes of its signer, if that is trusted. -/
def recordVote (newTimeout : ℕ) (recordedVotes : TrustedVotes K) (val : STValidation K) :
    TrustedVotes K :=
  match recordedVotes.lookup val.signerPublic with
  | some _ =>
    recordedVotes.insert val.signerPublic ⟨val.amendments.getD [], some newTimeout⟩
  | none => recordedVotes

/-- Remove votes that have expired. -/
def expire (closeTime : ℕ) (votes : UpvotesAndTimeout) : UpvotesAndTimeout :=
  match votes.timeout with
  | none => votes
  | some timeout => if timeout < closeTime then ⟨[], none⟩ else votes

/-- `TrustedVotes::recordVotes`. -/
def recordVotes (recordedVotes : TrustedVotes K) (valSet : List (STValidation K))
    (closeTime : ℕ) : TrustedVotes K :=
  let newTimeout := (closeTime + kExpiresAfter) % 2 ^ 32
  (valSet.foldl (recordVote newTimeout) recordedVotes).mapValues fun _ => expire closeTime

/-- `ret[amendment] += 1`. -/
def countVote (ret : Table UInt256 ℕ) (amendment : UInt256) : Table UInt256 ℕ :=
  ret.insert amendment ((ret.lookup amendment).getD 0 + 1)

/-- `TrustedVotes::getVotes`. -/
def getVotes (recordedVotes : TrustedVotes K) : ℕ × Table UInt256 ℕ :=
  recordedVotes.entries.foldl (fun acc validatorVotes =>
    (if validatorVotes.2.timeout.isSome then acc.1 + 1 else acc.1,
      validatorVotes.2.upVotes.foldl countVote acc.2)) (0, ∅)

/-! ### The count -/

structure AmendmentSet where
  votes_ : Table UInt256 ℕ
  trustedValidations : ℕ
  threshold : ℕ

namespace AmendmentSet

/-- The constructor. The threshold is 80% of the trusted validations, rounded down. -/
def ofVotes (trustedVotes : TrustedVotes K) : AmendmentSet :=
  { votes_ := (getVotes trustedVotes).2
    trustedValidations := (getVotes trustedVotes).1
    threshold := Max.max 1 ((getVotes trustedVotes).1 * 4 / 5) }

def passes (set : AmendmentSet) (amendment : UInt256) : Bool :=
  match set.votes_.lookup amendment with
  | none => false
  | some count =>
    if set.trustedValidations = 1 then decide (set.threshold ≤ count)
    else decide (set.threshold < count)

def votes (set : AmendmentSet) (amendment : UInt256) : ℕ := (set.votes_.lookup amendment).getD 0

end AmendmentSet

/-! ### The actions -/

inductive AmendmentVote
  | obsolete
  | up
  | down
  deriving DecidableEq

def tfGotMajority : UInt32 := 0x00010000

def tfLostMajority : UInt32 := 0x00020000

/-- What `doVoting` is called with, and the rest of what it reads. -/
structure Round (K : Type) where
  closeTime : ℕ
  enabledAmendments : List UInt256
  majorityAmendments : Table UInt256 ℕ
  valSet : List (STValidation K)
  /-- `amendmentMap_`, of which the server's own votes are read. -/
  amendmentMap : Table UInt256 AmendmentVote

/-- The action for one amendment. -/
def action (majorityTime : ℕ) (round : Round K) (vote : AmendmentSet) (amendment : UInt256)
    (own : AmendmentVote) : Option UInt32 :=
  if round.enabledAmendments.contains amendment then none
  else
    let hasValMajority := vote.passes amendment
    match round.majorityAmendments.lookup amendment with
    | none => if hasValMajority ∧ own = .up then some tfGotMajority else none
    | some time =>
      if !hasValMajority then some tfLostMajority
      else if time + majorityTime ≤ round.closeTime ∧ own = .up then some 0
      else none

/-- `AmendmentTableImpl::doVoting`: the new record, the count and the actions. -/
def doVoting (majorityTime : ℕ) (recordedVotes : TrustedVotes K) (round : Round K) :
    TrustedVotes K × AmendmentSet × List (UInt256 × UInt32) :=
  let recorded := recordVotes recordedVotes round.valSet round.closeTime
  let vote := AmendmentSet.ofVotes recorded
  (recorded, vote, round.amendmentMap.entries.filterMap fun entry =>
    (action majorityTime round vote entry.1 entry.2).map fun flags => (entry.1, flags))

/-- What happens to the table. -/
inductive Event (K : Type)
  | trustChanged (allTrusted : List K)
  | doVoting (round : Round K)

/-- One call, with what a round of voting has counted and decided. -/
def step (majorityTime : ℕ) (recordedVotes : TrustedVotes K) :
    Event K → TrustedVotes K × Option (Round K × AmendmentSet × List (UInt256 × UInt32))
  | .trustChanged allTrusted => (trustChanged recordedVotes allTrusted, none)
  | .doVoting round =>
    let result := doVoting majorityTime recordedVotes round
    (result.1, some (round, result.2.1, result.2.2))

end AmendmentTable

end FalconLedger
