import FalconLedger.Close.RewardEpoch
import FalconLedger.Tx.ApplyContext

/-!
# Validator scoring

`applyValidatorScoring` of `ValidatorScoring.cpp`, run when a ledger closes. Every 256 ledgers
it walks the last 256 ancestors, counts in the node's own store of received validations what
each bonded validator signed, and writes the scores to the bonds and their sum to the epoch
object.

The store (`Validations`) is no part of the ledger: it holds what the node happened to receive
and has not yet expired. Sign times are whole seconds.
-/

namespace FalconLedger

/-- A validation in the store. -/
structure Validation where
  nodeID : NodeID
  seq : UInt32
  ledgerID : UInt256
  full : Bool
  signTime : UInt32
  deriving DecidableEq

/-- The node-local store of received validations: by sequence number and by ledger. -/
structure Validations where
  bySequence : Table UInt32 (List Validation)
  byLedger : Table UInt256 (List Validation)

namespace Validations

/-- The store of a node that has received nothing. -/
def empty : Validations := ⟨∅, ∅⟩

/-- All full validations for a sequence number, trusted or not. -/
def getFullForSequence (store : Validations) (seq : UInt32) : List Validation :=
  ((store.bySequence.lookup seq).getD []).filter Validation.full

/-- All full validations for a ledger at its sequence number, trusted or not. -/
def getFullForLedger (store : Validations) (ledgerID : UInt256) (seq : UInt32) :
    List Validation :=
  ((store.byLedger.lookup ledgerID).getD []).filter fun v => v.full && decide (v.seq = seq)

end Validations

namespace ValidatorScoring

def latencyBpsFromDelayMs (delayMs : UInt64) : UInt32 :=
  let units := delayMs / 10
  let penalty := units * kLatencyPenaltyBpsPer10Ms.toUInt64
  if kBpsDenom.toUInt64 ≤ penalty then 0 else (kBpsDenom.toUInt64 - penalty).toUInt32

/-- Blend a new raw score with the one on the bond. -/
def emaComposite (raw previous : UInt32) : UInt32 :=
  if previous = 0 then raw
  else
    ((raw.toUInt64 * kScoreEmaNewBps.toUInt64 +
        previous.toUInt64 * (kBpsDenom - kScoreEmaNewBps).toUInt64) /
      kBpsDenom.toUInt64).toUInt32

/-- The longest run of absences, given the current run and the longest so far. -/
def maxGapFrom : UInt32 → UInt32 → List Bool → UInt32
  | _, maxGap, [] => maxGap
  | gap, maxGap, bit :: present =>
    if bit then maxGapFrom 0 maxGap present
    else maxGapFrom (gap + 1) (max maxGap (gap + 1)) present

def consistencyFromPresence (present : List Bool) : UInt32 :=
  if present = [] then 0
  else
    let pen := (maxGapFrom 0 0 present).toUInt64 * kBpsDenom.toUInt64 /
      UInt64.ofNat present.length
    if kBpsDenom.toUInt64 ≤ pen then 0 else (kBpsDenom.toUInt64 - pen).toUInt32

structure WindowStats where
  presenceCount : UInt32
  correctCount : UInt32
  latencySumBps : UInt64
  latencySamples : UInt32
  /-- One bit for each ledger of the window. -/
  present : List Bool
  deriving DecidableEq

/-- The statistics of a validator none of whose validations was found. -/
def WindowStats.absent : WindowStats := ⟨0, 0, 0, 0, List.replicate kFlagLedgerInterval.toNat false⟩

/-! ### Collecting the statistics -/

/-- Count a validator as present at position `i` of the window. -/
def markPresent (i : Nat) (stats : Table NodeID WindowStats) (v : Validation) :
    Table NodeID WindowStats :=
  match stats.lookup v.nodeID with
  | none => stats
  | some st =>
    -- one mark for a sequence number, however many validations there are for it
    if st.present.getD i false then stats
    else
      stats.insert v.nodeID
        { st with present := st.present.set i true, presenceCount := st.presenceCount + 1 }

/-- Count a validation of the canonical ledger, with its delay after the earliest one. -/
def markCorrect (earliest : UInt32) (stats : Table NodeID WindowStats) (v : Validation) :
    Table NodeID WindowStats :=
  match stats.lookup v.nodeID with
  | none => stats
  | some st =>
    let delayMs := if earliest < v.signTime then 1000 * (v.signTime - earliest).toUInt64 else 0
    stats.insert v.nodeID
      { st with
        correctCount := st.correctCount + 1
        latencySumBps := st.latencySumBps + (latencyBpsFromDelayMs delayMs).toUInt64
        latencySamples := st.latencySamples + 1 }

/-- The sign time of the earliest of some validations. -/
def earliestOf : List Validation → UInt32
  | [] => 0
  | v :: vs => vs.foldl (fun t v => if v.signTime < t then v.signTime else t) v.signTime

/-- Account for the `i`-th ledger of the window, counted back from the parent's parent. -/
def countLedger (store : Validations) (seq : UInt32) (ledgerAncestors : List UInt256)
    (stats : Table NodeID WindowStats) (i : Nat) : Table NodeID WindowStats :=
  -- the parent's skip list ends with the hash of the parent's parent, ledger `seq - 2`
  let ancestorHash := ledgerAncestors.getD (ledgerAncestors.length - 1 - i) 0
  let ancestorSeq := seq - 2 - UInt32.ofNat i
  let anyVals := store.getFullForSequence ancestorSeq
  let correctVals := store.getFullForLedger ancestorHash ancestorSeq
  correctVals.foldl (markCorrect (earliestOf correctVals)) (anyVals.foldl (markPresent i) stats)

/-- A bond whose validator is scored. -/
def isTarget (bond : ValidatorBond) : Bool :=
  decide (bond.bondStatus = .bonded) && isValidNodeKey bond.consensusKey

/-- The bonds to score. -/
def targets (s : Ledger) : List (AccountID × ValidatorBond) :=
  (s.bonds.entries.filter fun e => isTarget e.2).map fun e => (e.1, e.2)

/-- Empty statistics for every validator that is scored. -/
def initialStats (H : Hashes) (targets : List (AccountID × ValidatorBond)) :
    Table NodeID WindowStats :=
  targets.foldl (fun stats t => stats.insert (H.calcNodeID t.2.consensusKey) .absent) ∅

/-- The statistics over the whole window. -/
def windowStats (H : Hashes) (store : Validations) (seq : UInt32) (ledgerAncestors : List UInt256)
    (targets : List (AccountID × ValidatorBond)) : Table NodeID WindowStats :=
  (List.range kFlagLedgerInterval.toNat).foldl (countLedger store seq ledgerAncestors)
    (initialStats H targets)

/-! ### Scores -/

def uptimeBps (st : WindowStats) : UInt32 :=
  let window := if st.present = [] then kFlagLedgerInterval else UInt32.ofNat st.present.length
  min (st.presenceCount.toUInt64 * kBpsDenom.toUInt64 / window.toUInt64).toUInt32 kBpsDenom

def voteAccBps (st : WindowStats) : UInt32 :=
  if 0 < st.presenceCount then
    min (st.correctCount.toUInt64 * kBpsDenom.toUInt64 / st.presenceCount.toUInt64).toUInt32
      kBpsDenom
  else 0

def latencyBps (st : WindowStats) : UInt32 :=
  if 0 < st.latencySamples then
    min (st.latencySumBps / st.latencySamples.toUInt64).toUInt32 kBpsDenom
  else 0

def rawScore (st : WindowStats) : UInt32 :=
  ((uptimeBps st).toUInt64 * kScoreWeightUptime + (voteAccBps st).toUInt64 * kScoreWeightVoteAcc +
      (latencyBps st).toUInt64 * kScoreWeightLatency +
      (consistencyFromPresence st.present).toUInt64 * kScoreWeightConsistency) / 100
    |>.toUInt32

/-- The bond with the scores of a window written to it. -/
def scoreBond (st : WindowStats) (seq : UInt32) (bond : ValidatorBond) : ValidatorBond :=
  let rawSlashed :=
    UInt32.ofNat ((rawScore st).toNat * bond.slashMultiplier.toNat / kBpsDenom.toNat)
  { bond with
    uptimeBps := unlessZero (uptimeBps st)
    voteAccuracyBps := unlessZero (voteAccBps st)
    latencyScoreBps := unlessZero (latencyBps st)
    consistencyBps := unlessZero (consistencyFromPresence st.present)
    compositeScore := unlessZero (emaComposite rawSlashed (bond.compositeScore.getD 0))
    previousTxnLgrSeq := seq }

/-- The statistics `scoreBond` is given for a bond. -/
def statsFor (H : Hashes) (stats : Table NodeID WindowStats) (bond : ValidatorBond) : WindowStats :=
  (stats.lookup (H.calcNodeID bond.consensusKey)).getD ⟨0, 0, 0, 0, []⟩

/-- The sum of the composites, stopped at the largest value. -/
def sumAggregateComposites (bonds : List ValidatorBond) : UInt32 :=
  bonds.foldl
    (fun aggregate bond =>
      let c := bond.compositeScore.getD 0
      if c ≤ 0xFFFFFFFF - aggregate then aggregate + c else 0xFFFFFFFF) 0

/-- Write scored bonds back. -/
def writeBonds (s : Ledger) (scored : List (AccountID × ValidatorBond)) : Ledger :=
  scored.foldl (fun s t => s.setBond t.1 t.2) s

theorem targets_nodup (s : Ledger) : ((targets s).map Prod.fst).Nodup := by
  have hsub : ((targets s).map Prod.fst).Sublist s.bonds.keys := by
    rw [targets, List.map_map]
    exact List.filter_sublist.map _
  exact s.bonds.keys_nodup.sublist hsub

theorem lookup_of_mem_targets {s : Ledger} {id : AccountID} {bond : ValidatorBond}
    (h : (id, bond) ∈ targets s) : s.bonds.lookup id = some bond := by
  obtain ⟨⟨_, _⟩, he, heq⟩ := List.mem_map.mp h
  obtain ⟨rfl, rfl⟩ := Prod.mk.inj heq
  exact AList.mem_lookup_iff.mpr (List.mem_filter.mp he).1

theorem lookup_writeBonds_of_notMem {scored : List (AccountID × ValidatorBond)}
    {id : AccountID} (s : Ledger) (h : id ∉ scored.map Prod.fst) :
    (writeBonds s scored).bonds.lookup id = s.bonds.lookup id := by
  unfold writeBonds
  induction scored generalizing s with
  | nil => rfl
  | cons t scored ih =>
    rw [List.map_cons, List.mem_cons, not_or] at h
    rw [List.foldl_cons, ih _ h.2]
    exact AList.lookup_insert_ne h.1

theorem lookup_writeBonds {scored : List (AccountID × ValidatorBond)} {id : AccountID}
    {bond : ValidatorBond} (s : Ledger) (hnodup : (scored.map Prod.fst).Nodup)
    (hmem : (id, bond) ∈ scored) : (writeBonds s scored).bonds.lookup id = some bond := by
  induction scored generalizing s with
  | nil => cases hmem
  | cons t scored ih =>
    rw [List.map_cons, List.nodup_cons] at hnodup
    rcases List.mem_cons.mp hmem with rfl | hmem
    · -- the keys differ, so no later write touches this bond
      have hlast := lookup_writeBonds_of_notMem (s.setBond id bond) hnodup.1
      exact hlast.trans (AList.lookup_insert _)
    · exact ih (s.setBond t.1 t.2) hnodup.2 hmem

/-- The skip list a window is taken from, when there is one and it is long enough. -/
def windowOf (parent : Ledger) (seq : UInt32) (rules : Rules) : Option (List UInt256) :=
  if rules.proofOfParticipation ∧ seq ≠ 0 ∧ seq % kFlagLedgerInterval = 0 then
    parent.skip.filter fun hashes => decide (kFlagLedgerInterval.toNat ≤ hashes.length)
  else none

end ValidatorScoring

open ValidatorScoring

def applyValidatorScoring (H : Hashes) (store : Validations) (s parent : Ledger) (seq : UInt32)
    (rules : Rules) : Ledger :=
  match windowOf parent seq rules with
  | none => s
  | some ledgerAncestors =>
    let ts := targets s
    let stats := windowStats H store seq ledgerAncestors ts
    let scored := ts.map fun t => (t.1, scoreBond (statsFor H stats t.2) seq t.2)
    let aggregateScore := sumAggregateComposites (scored.map Prod.snd)
    let s := writeBonds s scored
    { s with
      epoch := s.epoch.map fun epoch =>
        { epoch with aggregateCompositeScore := unlessZero aggregateScore } }

end FalconLedger
