import FalconLedger.Consensus.LedgerTrie
import FalconLedger.Data.Table

/-!
# Recent validations

`Validations`: the current validation of every listed node, recent ones by ledger and by sequence
number, and the ancestry trie with the ledger each node is counted for. A trusted validation is
counted once its ledger is acquired; until then the node waits in `acquiring`, and the ledger it was
counted for before remains.

Times are seconds. The order in which a hash table is gone through is of no one's choosing, so it
comes, with the clocks and the ledgers at hand, from outside.
-/

namespace FalconLedger.Consensus

/-- Timing parameters, with their default values in seconds. -/
structure ValidationParms where
  validationCurrentWall : ℤ := 300
  validationCurrentLocal : ℤ := 180
  validationCurrentEarly : ℤ := 180
  validationSetExpires : ℤ := 600
  validationFreshness : ℤ := 20

/-- The largest sequence number taken from a node, and when it was. -/
structure SeqEnforcer where
  seq : ℕ := 0
  «when» : ℤ := 0

/-- The largest number is forgotten. -/
def SeqEnforcer.Expired (e : SeqEnforcer) (p : ValidationParms) (now : ℤ) : Prop :=
  e.when + p.validationSetExpires < now

instance (e : SeqEnforcer) (p : ValidationParms) (now : ℤ) : Decidable (e.Expired p now) :=
  inferInstanceAs (Decidable (_ < _))

/-- `operator()`: try to take a sequence number. -/
def SeqEnforcer.advance (e : SeqEnforcer) (p : ValidationParms) (now : ℤ) (s : ℕ) :
    Bool × SeqEnforcer :=
  let seq := if e.Expired p now then 0 else e.seq
  if s ≤ seq then (false, { e with seq }) else (true, ⟨s, now⟩)

def isCurrent (p : ValidationParms) (now signTime seenTime : ℤ) : Bool :=
  decide (now - p.validationCurrentEarly < signTime) &&
    decide (signTime < now + p.validationCurrentWall) &&
    (decide (seenTime = 0) || decide (seenTime < now + p.validationCurrentLocal))

inductive ValStatus
  | current
  | stale
  | badSeq
  | multiple
  | conflicting
  deriving DecidableEq

structure Validation (T : LedgerTraits) where
  ledgerID : T.ID
  seq : ℕ
  signTime : ℤ
  seenTime : ℤ
  cookie : ℕ
  trusted : Bool
  full : Bool

/-- What a pending acquisition is filed under. -/
def Validation.key {T : LedgerTraits} (val : Validation T) : ℕ × T.ID := (val.seq, val.ledgerID)

/-- Sets of validations by node, with the time each was last used. -/
abbrev Aged (K : Type) (T : LedgerTraits) (NodeID : Type) :=
  Table K (ℤ × Table NodeID (Validation T))

/-- The clocks, the ledgers at hand, and the orders in which hash tables are gone through. -/
structure Env (T : LedgerTraits) (NodeID : Type) where
  parms : ValidationParms
  now : ℤ
  clock : ℤ
  acquire : T.ID → Option T.Ledger
  nodeOrder : List NodeID → List NodeID
  keyOrder : List (ℕ × T.ID) → List (ℕ × T.ID)
  acquire_id : ∀ {id l}, acquire id = some l → T.id l = id
  nodeOrder_perm : ∀ l, (nodeOrder l).Perm l
  keyOrder_perm : ∀ l, (keyOrder l).Perm l

structure Validations (T : LedgerTraits) (NodeID : Type) where
  current : Table NodeID (Validation T)
  localSeqEnforcer : SeqEnforcer
  seqEnforcers : Table NodeID SeqEnforcer
  byLedger : Aged T.ID T NodeID
  bySequence : Aged ℕ T NodeID
  toKeep : Option (ℕ × ℕ)
  /-- `kREFRESH_TIME`. -/
  refreshTime : ℤ
  trie : LedgerTrie T
  lastLedger : Table NodeID T.Ledger
  acquiring : Table (ℕ × T.ID) (List NodeID)

namespace Validations

variable {T : LedgerTraits} {NodeID : Type} [DecidableEq NodeID]

def empty : Validations T NodeID := ⟨∅, {}, ∅, ∅, ∅, none, 0, .empty, ∅, ∅⟩

/-! ### The trie -/

/-- A node no longer waits for a ledger. -/
def stopAcquiring (s : Validations T NodeID) (key : ℕ × T.ID) (nodeID : NodeID) :
    Validations T NodeID :=
  match s.acquiring.lookup key with
  | none => s
  | some nodes =>
    let rest := nodes.filter (· ≠ nodeID)
    { s with acquiring := if rest = [] then s.acquiring.erase key else s.acquiring.insert key rest }

/-- `removeTrie`: remove support of a validated ledger. -/
def removeTrie (s : Validations T NodeID) (nodeID : NodeID) (val : Validation T) :
    Validations T NodeID :=
  let s := s.stopAcquiring val.key nodeID
  match s.lastLedger.lookup nodeID with
  | none => s
  | some ledger =>
    if T.id ledger = val.ledgerID then
      { s with trie := (s.trie.remove ledger 1).1, lastLedger := s.lastLedger.erase nodeID }
    else s

/-- `updateTrie` with a ledger: count the node for it, and no longer for the one before. -/
def updateLedger (s : Validations T NodeID) (nodeID : NodeID) (ledger : T.Ledger) :
    Validations T NodeID :=
  let trie := match s.lastLedger.lookup nodeID with
    | none => s.trie
    | some old => (s.trie.remove old 1).1
  { s with trie := trie.insert ledger 1, lastLedger := s.lastLedger.insert nodeID ledger }

/-- The loop body of `checkAcquired`. -/
def checkKey (env : Env T NodeID) (s : Validations T NodeID) (key : ℕ × T.ID) :
    Validations T NodeID :=
  match s.acquiring.lookup key, env.acquire key.2 with
  | some nodes, some ledger =>
    let s' := (env.nodeOrder nodes).foldl (fun s nodeID => s.updateLedger nodeID ledger) s
    { s' with acquiring := s'.acquiring.erase key }
  | _, _ => s

/-- `checkAcquired`: check if any pending acquisitions are complete. -/
def checkAcquired (env : Env T NodeID) (s : Validations T NodeID) : Validations T NodeID :=
  (env.keyOrder s.acquiring.keys).foldl (checkKey env) s

/-- The second half of `updateTrie`: count the node if the ledger is at hand, or let it wait. -/
def countOrWait (env : Env T NodeID) (s : Validations T NodeID) (nodeID : NodeID)
    (val : Validation T) : Validations T NodeID :=
  match s.acquiring.lookup val.key with
  | some nodes => { s with acquiring := s.acquiring.insert val.key (nodes.insert nodeID) }
  | none =>
    match env.acquire val.ledgerID with
    | some ledger => s.updateLedger nodeID ledger
    | none => { s with acquiring := s.acquiring.insert val.key [nodeID] }

/-- `updateTrie`: process a new trusted validation. -/
def updateTrie (env : Env T NodeID) (s : Validations T NodeID) (nodeID : NodeID)
    (val : Validation T) (prior : Option (ℕ × T.ID)) : Validations T NodeID :=
  let s := match prior with
    | none => s
    | some key => s.stopAcquiring key nodeID
  (s.checkAcquired env).countOrWait env nodeID val

/-- The loop body of `current`. -/
def flush (env : Env T NodeID) (s : Validations T NodeID) (nodeID : NodeID) :
    Validations T NodeID :=
  match s.current.lookup nodeID with
  | none => s
  | some val =>
    if isCurrent env.parms env.now val.signTime val.seenTime then s
    else
      let s := s.removeTrie nodeID val
      { s with current := s.current.erase nodeID }

/-- `current`: go through the current validations and flush any which are stale. -/
def queryCurrent (env : Env T NodeID) (s : Validations T NodeID) : Validations T NodeID :=
  (env.nodeOrder s.current.keys).foldl (flush env) s

/-- `withTrie`, as far as it changes the state. -/
def withTrie (env : Env T NodeID) (s : Validations T NodeID) : Validations T NodeID :=
  (s.queryCurrent env).checkAcquired env

/-- `byLedger`: a set that is asked for counts as used. -/
def queryByLedger (env : Env T NodeID) (s : Validations T NodeID) (ledgerID : T.ID) :
    Validations T NodeID :=
  match s.byLedger.lookup ledgerID with
  | none => s
  | some (_, vals) => { s with byLedger := s.byLedger.insert ledgerID (env.clock, vals) }

/-! ### New validations -/

/-- File a validation under its sequence number. Of two from one node the first is kept, unless it
was signed long before. Returns the one on file. -/
def trackSequence (env : Env T NodeID) (s : Validations T NodeID) (nodeID : NodeID)
    (val : Validation T) : Validation T × Validations T NodeID :=
  let (time, vals) := (s.bySequence.lookup val.seq).getD (env.clock, ∅)
  let tracked := match vals.lookup nodeID with
    | none => val
    | some old =>
      let diff := max old.signTime val.signTime - min old.signTime val.signTime
      if env.parms.validationCurrentWall < diff ∧ old.signTime < val.signTime then val
      else old
  (tracked, { s with bySequence := s.bySequence.insert val.seq (time, vals.insert nodeID tracked) })

/-- What is wrong with a validation whose sequence number is not taken. -/
def misbehaviour (tracked val : Validation T) : ValStatus :=
  if tracked.seq = val.seq then
    if tracked.ledgerID ≠ val.ledgerID then .conflicting
    else if tracked.signTime ≠ val.signTime then .conflicting
    else if tracked.cookie ≠ val.cookie then .multiple
    else .badSeq
  else .badSeq

/-- The enforcer of a node, a new one if there is none. -/
def enforcer (s : Validations T NodeID) (nodeID : NodeID) : SeqEnforcer :=
  (s.seqEnforcers.lookup nodeID).getD {}

/-- A validation becomes the current one of its node, if it is the first or the newest. -/
def storeCurrent (env : Env T NodeID) (s : Validations T NodeID) (nodeID : NodeID)
    (val : Validation T) : ValStatus × Validations T NodeID :=
  match s.current.lookup nodeID with
  | none =>
    let s := { s with current := s.current.insert nodeID val }
    (.current, if val.trusted then s.updateTrie env nodeID val none else s)
  | some oldVal =>
    if oldVal.signTime < val.signTime then
      let s := { s with current := s.current.insert nodeID val }
      (.current, if val.trusted then s.updateTrie env nodeID val (some oldVal.key) else s)
    else (.stale, s)

/-- Attempt to add a new validation. -/
def add (env : Env T NodeID) (s : Validations T NodeID) (nodeID : NodeID) (val : Validation T) :
    ValStatus × Validations T NodeID :=
  if isCurrent env.parms env.now val.signTime val.seenTime then
    let (tracked, s) := s.trackSequence env nodeID val
    let (taken, enf) := (s.enforcer nodeID).advance env.parms env.clock val.seq
    let s := { s with seqEnforcers := s.seqEnforcers.insert nodeID enf }
    if taken then
      let (time, vals) := (s.byLedger.lookup val.ledgerID).getD (env.clock, ∅)
      let s :=
        { s with byLedger := s.byLedger.insert val.ledgerID (time, vals.insert nodeID val) }
      s.storeCurrent env nodeID val
    else (misbehaviour tracked val, s)
  else (.stale, s)

/-- Whether the local node can issue a validation for a sequence number. -/
def canValidateSeq (env : Env T NodeID) (s : Validations T NodeID) (seq : ℕ) :
    Bool × Validations T NodeID :=
  let (taken, enf) := s.localSeqEnforcer.advance env.parms env.clock seq
  (taken, { s with localSeqEnforcer := enf })

/-! ### Expiry and trust -/

def setSeqToKeep (s : Validations T NodeID) (low high : ℕ) : Validations T NodeID :=
  { s with toKeep := some (low, high) }

/-- Sets whose last use is not within the given age. -/
def agedExpire {K : Type} [DecidableEq K] (env : Env T NodeID) (age : ℤ) (c : Aged K T NodeID) :
    Aged K T NodeID :=
  (c.entries.filter fun e => decide (e.2.1 ≤ env.clock - age)).foldl (fun c e => c.erase e.1) c

/-- The sets to keep count as used, once they are about to expire. -/
def refresh (env : Env T NodeID) (s : Validations T NodeID) : Validations T NodeID :=
  match s.toKeep with
  | none => s
  | some (low, high) =>
    if s.refreshTime ≤ env.clock then
      { s with
        refreshTime := env.clock + env.parms.validationSetExpires - env.parms.validationFreshness
        byLedger := s.byLedger.mapValues fun _ v =>
          match v.2.entries.head? with
          | some e => if low ≤ e.2.seq ∧ e.2.seq < high then (env.clock, v.2) else v
          | none => v
        bySequence := s.bySequence.mapValues fun seq v =>
          if low ≤ seq ∧ seq < high then (env.clock, v.2) else v }
    else s

/-- Expire old validation sets. -/
def expire (env : Env T NodeID) (s : Validations T NodeID) : Validations T NodeID :=
  let s := s.refresh env
  { s with
    byLedger := agedExpire env env.parms.validationSetExpires s.byLedger
    bySequence := agedExpire env env.parms.validationSetExpires s.bySequence }

/-- The first loop body of `trustChanged`. -/
def trustNode (env : Env T NodeID) (added removed : List NodeID) (s : Validations T NodeID)
    (nodeID : NodeID) : Validations T NodeID :=
  match s.current.lookup nodeID with
  | none => s
  | some val =>
    if nodeID ∈ added then
      let val := { val with trusted := true }
      ({ s with current := s.current.insert nodeID val }).updateTrie env nodeID val none
    else if nodeID ∈ removed then
      let val := { val with trusted := false }
      ({ s with current := s.current.insert nodeID val }).removeTrie nodeID val
    else s

/-- Update the trust status of validations. -/
def trustChanged (env : Env T NodeID) (s : Validations T NodeID) (added removed : List NodeID) :
    Validations T NodeID :=
  let s := (env.nodeOrder s.current.keys).foldl (trustNode env added removed) s
  { s with
    byLedger := s.byLedger.mapValues fun _ v =>
      (v.1, v.2.mapValues fun nodeID val =>
        if nodeID ∈ added then { val with trusted := true }
        else if nodeID ∈ removed then { val with trusted := false }
        else val) }

end Validations

end FalconLedger.Consensus
