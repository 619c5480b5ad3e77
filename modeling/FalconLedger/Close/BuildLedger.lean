import FalconLedger.Close.ValidatorScoring
import FalconLedger.Tx.Transactor

/-!
# Closing and building a ledger

`applyGovernanceTally` and `buildLedgerImpl`: the transactions are applied, then the hooks run in a
fixed order (rollover, scoring, tally, pruning of the proposal list), then the parent's hash joins
the skip list. The negative UNL, which nothing here reads, is left out.

A `Chain` is the sequence of ledgers a node builds, as a state machine: transactions, closes with
whatever the validation store then holds, and `outside` steps for what other transaction types may
do to accounts and holdings.
-/

namespace FalconLedger

namespace GovernanceTally

/-- Two thirds, in bps, of the aggregate score. -/
def passes (votedFor aggregateScore : UInt32) : Bool :=
  decide (0 < aggregateScore) &&
    decide (aggregateScore.toNat * kGovernanceSupermajorityBps.toNat ≤
      votedFor.toNat * kBpsDenom.toNat)

/-- Write the value of a passed proposal to the parameters. -/
def writeParams (s : Ledger) (seq : UInt32) (key : UInt256) (proposal : GovernanceProposal) :
    Ledger :=
  if proposal.proposalType = kProposalTypeBurnBps then
    let clamped := max kFeeBurnMinBps (min proposal.proposalValue kFeeBurnMaxBps)
    { s with
      params := some
        { currentBurnBps := some clamped, previousTxnID := key, previousTxnLgrSeq := seq } }
  else s

/-- The proposal with its outcome. -/
def resolve (seq : UInt32) (key : UInt256) (passed : Bool) (proposal : GovernanceProposal) :
    GovernanceProposal :=
  { proposal with
    proposalState := if passed then .passed else .rejected
    previousTxnID := key
    previousTxnLgrSeq := seq }

/-- Tally one listed proposal: only an open one that has expired is resolved. -/
def tally (seq : UInt32) (aggregateScore : UInt32) (s : Ledger) (key : UInt256) : Ledger :=
  match s.proposals.lookup key with
  | none => s
  | some proposal =>
    if proposal.proposalState ≠ .open ∨ seq < proposal.proposalExpiry then s
    else
      let passed := passes (proposal.votedFor.getD 0) aggregateScore
      let s := if passed then writeParams s seq key proposal else s
      { s with proposals := s.proposals.insert key (resolve seq key passed proposal) }

/-- The score sum proposals are measured against. -/
def aggregateScore (s : Ledger) : UInt32 := (s.epoch.bind RewardEpoch.aggregateCompositeScore).getD 0

end GovernanceTally

open GovernanceTally

def applyGovernanceTally (s : Ledger) (seq : UInt32) (rules : Rules)
    (openProposalKeys : List UInt256) : Ledger :=
  if !rules.proofOfParticipation ∨ openProposalKeys = [] then s
  else openProposalKeys.foldl (tally seq (aggregateScore s)) s

namespace BuildLedger

/-- The keys in the epoch object's list of proposals. -/
def proposalKeys (s : Ledger) : List UInt256 := (s.epoch.bind RewardEpoch.proposals).getD []

/-- Whether a listed key stays listed. -/
def stillOpen (s : Ledger) (key : UInt256) : Bool :=
  (s.proposals.lookup key).any fun proposal => decide (proposal.proposalState = .open)

/-- Take resolved and missing proposals off the list; the list is written only if it has
become shorter. -/
def pruneProposals (s : Ledger) (keys : List UInt256) : Ledger :=
  let remaining := keys.filter (stillOpen s)
  if keys = [] ∨ remaining.length = keys.length then s
  else
    { s with epoch := s.epoch.map fun epoch => { epoch with proposals := some remaining } }

/-- Remember the parent's hash, and no more than 256 of them. -/
def updateSkipList (s : Ledger) (parentHash : UInt256) : Ledger :=
  let hashes := s.skip.getD []
  let hashes := if hashes.length = 256 then hashes.tail else hashes
  { s with skip := some (hashes ++ [parentHash]) }

/-- A ledger on top of its parent, before any transaction. -/
def openNext (parent : Ledger) : Ledger := { parent with seq := parent.seq + 1 }

/-- The hooks that run after the transactions. -/
def closeHooks (H : Hashes) (store : Validations) (parent s : Ledger) (seq : UInt32)
    (rules : Rules) : Ledger :=
  let s := applyRewardEpoch H s seq rules
  let s := applyValidatorScoring H store s parent seq rules
  -- read once, after the rollover: both hooks below work on this list
  let keys := proposalKeys s
  pruneProposals (applyGovernanceTally s seq rules keys) keys

end BuildLedger

open BuildLedger

/-- Build the ledger after `parent`. `applyTxs` is the set of transactions, as the function it
applies to the new ledger. -/
def buildLedgerImpl (H : Services) (parent : Ledger) (applyTxs : Ledger → Ledger)
    (store : Validations) : Ledger :=
  let built := openNext parent
  let s := closeHooks H.toHashes store parent (applyTxs built) built.seq built.rules
  updateSkipList s (H.ledgerHash parent)

/-! ### What the hooks leave alone -/

/-- The epoch object without its score sum and its list of proposals, which are all that the
hooks after the rollover change of it. -/
def RewardEpoch.terms (epoch : RewardEpoch) : RewardEpoch :=
  { epoch with aggregateCompositeScore := none, proposals := none }

/-- The terms of the current epoch. -/
def Ledger.terms (s : Ledger) : Option RewardEpoch := s.epoch.map RewardEpoch.terms

/-- The two ledgers differ in bonds, proposals, parameters and the epoch object's score sum and
list only. -/
structure Ledger.SameButScores (s s' : Ledger) : Prop where
  same : s' =
    { s with bonds := s'.bonds, epoch := s'.epoch, params := s'.params, proposals := s'.proposals }
  terms : s'.terms = s.terms

theorem Ledger.SameButScores.trans {s s' s'' : Ledger} (h : s.SameButScores s')
    (h' : s'.SameButScores s'') : s.SameButScores s'' := by
  refine ⟨?_, h'.terms.trans h.terms⟩
  rw [h'.same]
  rw [h.same]

namespace BuildLedger

open Ledger

theorem writeBonds_eq (s : Ledger) (scored : List (AccountID × ValidatorBond)) :
    ValidatorScoring.writeBonds s scored =
      { s with bonds := (ValidatorScoring.writeBonds s scored).bonds } := by
  unfold ValidatorScoring.writeBonds
  induction scored generalizing s with
  | nil => rfl
  | cons t scored ih =>
    rw [List.foldl_cons, ih]
    rfl

theorem applyValidatorScoring_sameButScores (H : Hashes) (store : Validations) (s parent : Ledger)
    (seq : UInt32) (rules : Rules) :
    SameButScores s (applyValidatorScoring H store s parent seq rules) := by
  unfold applyValidatorScoring
  split
  · exact ⟨rfl, rfl⟩
  · dsimp only
    rw [writeBonds_eq]
    refine ⟨rfl, ?_⟩
    simp only [Ledger.terms, Option.map_map]
    rfl

private theorem tally_eq (seq aggregate : UInt32) (s : Ledger) (key : UInt256) :
    tally seq aggregate s key =
      { s with
        params := (tally seq aggregate s key).params
        proposals := (tally seq aggregate s key).proposals } := by
  unfold tally
  split
  · rfl
  · split_ifs
    · rfl
    · dsimp only
      split_ifs
      · unfold writeParams
        split_ifs <;> rfl
      · rfl

theorem applyGovernanceTally_eq (s : Ledger) (seq : UInt32) (rules : Rules) (keys : List UInt256) :
    applyGovernanceTally s seq rules keys =
      { s with
        params := (applyGovernanceTally s seq rules keys).params
        proposals := (applyGovernanceTally s seq rules keys).proposals } := by
  unfold applyGovernanceTally
  split_ifs with h
  · rfl
  · clear h
    generalize aggregateScore s = aggregate
    induction keys generalizing s with
    | nil => rfl
    | cons key keys ih =>
      rw [List.foldl_cons, ih, tally_eq]

private theorem applyGovernanceTally_sameButScores (s : Ledger) (seq : UInt32) (rules : Rules)
    (keys : List UInt256) : SameButScores s (applyGovernanceTally s seq rules keys) := by
  rw [applyGovernanceTally_eq]
  exact ⟨rfl, rfl⟩

private theorem pruneProposals_sameButScores (s : Ledger) (keys : List UInt256) :
    SameButScores s (pruneProposals s keys) := by
  unfold pruneProposals
  dsimp only
  split_ifs
  · exact ⟨rfl, rfl⟩
  · refine ⟨rfl, ?_⟩
    simp only [Ledger.terms, Option.map_map]
    rfl

/-- **The hooks after the rollover** leave accounts, names, claims and the terms of the epoch
as the rollover left them. -/
theorem closeHooks_sameButScores (H : Hashes) (store : Validations) (parent s : Ledger)
    (seq : UInt32) (rules : Rules) :
    SameButScores (applyRewardEpoch H s seq rules) (closeHooks H store parent s seq rules) :=
  SameButScores.trans
    (SameButScores.trans (applyValidatorScoring_sameButScores H store _ parent seq rules)
      (applyGovernanceTally_sameButScores _ _ _ _))
    (pruneProposals_sameButScores _ _)

end BuildLedger

/-! ### The chain of ledgers -/

/-- The last closed ledger and the one under construction. -/
structure Chain where
  parent : Ledger
  view : Ledger

/-- What happens to a chain. -/
inductive Step
  | tx (flags : ApplyFlags) (tx : STTx)
  | close (store : Validations)
  /-- Any other transaction: accounts and holdings as it leaves them. -/
  | outside (accounts : Table AccountID AccountRoot) (holdings : Holdings)

def Step.isClose : Step → Bool
  | .close _ => true
  | _ => false

/-- What a step reports: the transaction and its receipt. -/
abbrev Event := Option (STTx × Receipt)

namespace Chain

/-- The chain on top of a closed ledger. -/
def start (parent : Ledger) : Chain := ⟨parent, openNext parent⟩

/-- Close the open ledger. -/
def closed (H : Services) (store : Validations) (c : Chain) : Ledger :=
  updateSkipList (closeHooks H.toHashes store c.parent c.view c.view.seq c.view.rules)
    (H.ledgerHash c.parent)

def step (H : Services) (c : Chain) : Step → Chain × Event
  | .tx flags tx =>
    let r := applyTransaction H flags c.view tx
    ({ c with view := r.1 }, some (tx, r.2))
  | .close store => (start (c.closed H store), none)
  | .outside accounts holdings => ({ c with view := { c.view with accounts, holdings } }, none)

/-- Whether the close of the open ledger starts a new epoch. -/
def rollsOver (H : Services) (c : Chain) : Bool :=
  RewardEpoch.rollsOver H.toHashes c.view c.view.seq c.view.rules

end Chain

/-! ### A small network

Two bonded validators, a vault, a pool and a treasury at the last ledger before the first
emitting epoch, for instances of the statements about chains. -/

namespace Sample

def number (bytes : Blob) : Nat := bytes.foldl (fun n b => 256 * n + b.toNat) 0

/-- Services that refuse nothing but what the treasury would have to sign, with numbers in place
of hashes. -/
def services : Services where
  calcValidatorBondID key := BitVec.ofNat 160 (number key)
  calcNodeID key := BitVec.ofNat 160 (number key)
  validatorBondKey id := BitVec.ofNat 256 (2 ^ 160 + id.toNat)
  governanceProposalKey account seq := BitVec.ofNat 256 (2 ^ 200 + 2 ^ 32 * account.toNat + seq.toNat)
  accountNameKey name := BitVec.ofNat 256 (2 ^ 250 + number name)
  ticketKey account seq := BitVec.ofNat 256 (2 ^ 201 + 2 ^ 32 * account.toNat + seq.toNat)
  ammKey _ _ := 7
  ammLptCurrency _ _ := 9
  getTreasuryAccountID := 1
  externalCheck check _ tx :=
    if check = .sign ∧ (tx.account = 1 ∨ tx.getFeePayer = 1) then some 0 else none
  parseValidation _ := none
  otherInvariants _ _ _ _ _ := true
  oversize _ _ := false
  ledgerHash _ := 0

def account (balance : Int) : AccountRoot := ⟨balance, 1, 0, none, none, none, false⟩

def alice : AccountID := 2

def bob : AccountID := 3

def aliceKey : Blob := [0xFB, 1]

def bobKey : Blob := [0xFB, 2]

def bond (owner : AccountID) (key : Blob) : ValidatorBond :=
  { ValidatorRegister.newBond 1 ⟨0, owner, none, 0, .seq 1, .validatorRegister key key⟩ key key 0 with
    bondedAmount := kQxrpMinBondDrops
    bondStatus := .bonded
    compositeScore := some 10000 }

def ammAccount : AccountID := 5

def lpTokens (n : UInt64) : IssuedAmount := ⟨n * 1000000000000000, -15, false, 9, ammAccount⟩

/-- One vault and one pool; all 100 shares of the vault and all tokens of the pool are held by
one account. -/
def holdings (holder : AccountID) : Holdings where
  amms := AList.insert 7 ⟨ammAccount, .xrp, .issue 10 11, lpTokens 1⟩ ∅
  lines := AList.insert (holder, ammAccount, 9) ⟨lpTokens 1, holder, ammAccount, false, false⟩ ∅
  vaults := AList.insert 6 ⟨4⟩ ∅
  issuances := AList.insert 4 100 ∅
  mptokens := AList.insert (4, holder) 100 ∅

/-- The closed ledger before epoch 8, with an emission of 10000 drops to come. -/
def ledger : Ledger where
  seq := 8 * kQxrpLedgersPerEpoch - 1
  drops := 200000000000
  rules := ⟨true, true, true, true⟩
  accounts := (((AList.insert 1 (account 4166667) ∅).insert alice (account 1000000)).insert bob
    (account 1000000)).insert ammAccount (account 1000000)
  bonds := (AList.insert (services.calcValidatorBondID aliceKey) (bond alice aliceKey) ∅).insert
    (services.calcValidatorBondID bobKey) (bond bob bobKey)
  names := ∅
  epoch := none
  params := none
  proposals := ∅
  lpStates := ∅
  tickets := ∅
  dirs := ∅
  skip := some (List.replicate 256 0)
  holdings := holdings alice

def chain : Chain := .start ledger

def flags : ApplyFlags := ⟨false, false, false⟩

def send (sender : AccountID) (seq : UInt32) (body : TxBody) : Step :=
  .tx flags ⟨BitVec.ofNat 256 seq.toNat, sender, none, 10, .seq seq, body⟩

end Sample

end FalconLedger
