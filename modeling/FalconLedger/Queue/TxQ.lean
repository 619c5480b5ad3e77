import FalconLedger.Queue.TxQAccount
import Mathlib.Data.Prod.Lex

/-!
# Moving the queue into the open ledger

`TxQ::accept` goes through the queue by falling fee level. A transaction it comes to before the first
one of its account is skipped, and the way back to it is taken by `eraseAndAdvance`. The objects are
held by account; the list by fee level refers to them. What the transaction engine does is a parameter.
What throws in the source is a fault.
-/

namespace FalconLedger

namespace TER

def isTefFailure : TER → Bool
  | tefBadAuth | tefBadLedger | tefBadQuorum | tefBadSignature | tefException | tefFailure
  | tefInternal | tefInvariantFailed | tefMasterDisabled | tefNotMultiSigning | tefNoTicket
  | tefPastSeq | tefTooBig => true
  | _ => false

def isTemMalformed : TER → Bool
  | temBadAmmTokens | temBadAmount | temBadFee | temBadQuorum | temBadSigner | temBadSrcAccount
  | temBadWeight | temDisabled | temDstIsSrc | temInvalid | temInvalidCount | temInvalidFlag
  | temInvalidInnerBatch | temMalformed | temSeqAndTicket => true
  | _ => false

end TER

namespace TxQ

def kBaseLevel : UInt64 := 256

/-- `MaybeTx::kRETRIES_ALLOWED`. -/
def kRetriesAllowed : Int := 10

/-- `MaybeTx`, with what `accept` reads and writes of it. -/
structure Candidate extends MaybeTx where
  feeLevel : UInt64
  lastValid : Option UInt32
  retriesRemaining : Int := kRetriesAllowed
  lastResult : Option TER := none

def Candidate.seqProx (c : Candidate) : SeqProxy := c.tx.seqProxy

structure TxQAccount where
  transactions : KeyedMap Candidate.seqProx
  retryPenalty : Bool := false
  dropPenalty : Bool := false

abbrev AccountMap := Table AccountID TxQAccount

/-- Where a candidate is: its account and its place there. -/
abbrev Ref := AccountID × SeqProxy

def candidateAt (byAccount : AccountMap) (r : Ref) : Option Candidate :=
  (byAccount.lookup r.1).bind fun account => account.transactions.find r.2

/-- `OrderCandidates`: by fee level descending, then by the id mixed with the parent hash. -/
def orderCandidates (parentHash : UInt256) (lhs rhs : Candidate) : Bool :=
  if lhs.feeLevel = rhs.feeLevel then
    decide (lhs.tx.transactionID ^^^ parentHash < rhs.tx.transactionID ^^^ parentHash)
  else decide (rhs.feeLevel < lhs.feeLevel)

/-- `FeeMetrics::Snapshot`. What `scaleFeeLevel` divides by is not `0`. -/
structure Snapshot where
  txnsExpected : UInt64
  escalationMultiplier : UInt64
  expected_ne_zero : txnsExpected * txnsExpected ≠ 0

/-- `FeeMetrics::scaleFeeLevel`, of the number of transactions in the open ledger. -/
def scaleFeeLevel (snapshot : Snapshot) (current : UInt64) : UInt64 :=
  let target := snapshot.txnsExpected
  if target < current then
    let level := snapshot.escalationMultiplier.toNat * (current * current).toNat /
      (target * target).toNat
    if level < 2 ^ 64 then UInt64.ofNat level else 0xFFFFFFFFFFFFFFFF
  else kBaseLevel

/-- The open ledger, the transaction engine on it, and what the queue goes by. -/
structure Engine (View : Type) where
  txCount : View → UInt64
  /-- `MaybeTx::apply`: the result, whether it was applied, and the view afterwards. -/
  apply : View → Candidate → TER × Bool × View
  snapshot : Snapshot
  maxSize : Option ℕ
  /-- `MaybeTx::parentHashComp`, the parent hash the queue is in order for. -/
  parentHash : UInt256

variable {View : Type} (E : Engine View)

def Engine.requiredFeeLevel (view : View) : UInt64 := scaleFeeLevel E.snapshot (E.txCount view)

/-- `isFull<95>`. -/
def Engine.isFull95 (size : ℕ) : Bool := E.maxSize.any fun n => n * 95 / 100 ≤ size

/-- The state of the loop: the list by fee level in two parts, the second of which begins with the
candidate, and on record what has been attempted and whether it was applied. -/
structure Drain (View : Type) where
  view : View
  byAccount : AccountMap
  passed : List Ref
  rest : List Ref
  ledgerChanged : Bool
  attempts : List (Ref × Bool)

/-- The candidate leaves the queue. The next transaction of its account is next if it comes before the
next one by fee level. -/
def eraseAndAdvance (d : Drain View) (r : Ref) (account : TxQAccount) (tail : List Ref) :
    Drain View :=
  let byAccount := d.byAccount.insert r.1
    { account with transactions := account.transactions.erase r.2 }
  match (account.transactions.upperBound r.2).head? with
  | some next =>
    if tail.head?.all fun feeNext => (candidateAt d.byAccount feeNext).any fun c =>
        orderCandidates E.parentHash next c then
      let byFee := d.passed ++ tail
      { d with
        byAccount
        passed := byFee.takeWhile (· ≠ (r.1, next.seqProx))
        rest := byFee.dropWhile (· ≠ (r.1, next.seqProx)) }
    else { d with byAccount, rest := tail }
  | none => { d with byAccount, rest := tail }

/-- The candidate stays in the queue. -/
def leave (d : Drain View) (r : Ref) (account : TxQAccount) (tail : List Ref) : Drain View :=
  { d with byAccount := d.byAccount.insert r.1 account, passed := d.passed ++ [r], rest := tail }

/-- The candidate stays, and the last transaction of its account leaves. -/
def dropLast (d : Drain View) (r : Ref) (account : TxQAccount) (last : SeqProxy)
    (tail : List Ref) : Drain View :=
  { d with
    byAccount := d.byAccount.insert r.1
      { account with transactions := account.transactions.erase last }
    passed := d.passed.filter (· ≠ (r.1, last)) ++ [r]
    rest := tail.filter (· ≠ (r.1, last)) }

/-- The candidate has failed once more. -/
def Candidate.retried (c : Candidate) (retryPenalty : Bool) (ter : TER) : Candidate :=
  { c with
    retriesRemaining :=
      if retryPenalty && decide (2 < c.retriesRemaining) then 1 else c.retriesRemaining - 1
    lastResult := some ter }

/-- A candidate that failed and may be tried again stays, unless the queue is nearly full and its
account has had a transaction fail. -/
def leaveOrDrop (d : Drain View) (r : Ref) (account : TxQAccount) (tail : List Ref) : Drain View :=
  if account.dropPenalty && decide (1 < account.transactions.toList.length) &&
      E.isFull95 (d.passed.length + 1 + tail.length) then
    if r.2.isTicket then eraseAndAdvance E d r account tail
    else
      match account.transactions.toList.getLast? with
      | some last =>
        if last.seqProx ≠ r.2 then dropLast d r account last.seqProx tail
        else leave d r account tail
      | none => leave d r account tail
  else leave d r account tail

/-- A candidate that pays enough is tried. -/
def attempt (d : Drain View) (r : Ref) (account : TxQAccount) (c : Candidate) (tail : List Ref) :
    Drain View :=
  let (ter, didApply, view) := E.apply d.view c
  let d := { d with view, attempts := d.attempts ++ [(r, didApply)] }
  if didApply then { eraseAndAdvance E d r account tail with ledgerChanged := true }
  else if ter.isTefFailure || ter.isTemMalformed || decide (c.retriesRemaining ≤ 0) then
    let account :=
      if c.retriesRemaining ≤ 0 then { account with retryPenalty := true }
      else { account with dropPenalty := true }
    eraseAndAdvance E d r account tail
  else
    let retried := c.retried account.retryPenalty ter
    leaveOrDrop E d r { account with transactions := account.transactions.set retried } tail

/-- A transaction by sequence number that is not the first of its account. -/
def isSkipped (account : TxQAccount) (c : Candidate) : Bool :=
  c.seqProx.isSeq &&
    account.transactions.toList.head?.any fun first => decide (first.seqProx < c.seqProx)

inductive Next (View : Type)
  | fault
  | done
  | next (d : Drain View)

/-- One turn of the loop. -/
def turn (d : Drain View) : Next View :=
  match d.rest with
  | [] => .done
  | r :: tail =>
    match d.byAccount.lookup r.1 with
    | none => .fault
    | some account =>
      match account.transactions.find r.2 with
      | none => .fault
      | some c =>
        if isSkipped account c then .next { d with passed := d.passed ++ [r], rest := tail }
        else if E.requiredFeeLevel d.view ≤ c.feeLevel then .next (attempt E d r account c tail)
        else .done

/-! ### The loop ends -/

/-- How much is left: the queue, then what has not been passed. -/
def Drain.measure (d : Drain View) : ℕ ×ₗ ℕ :=
  toLex (d.passed.length + d.rest.length, d.rest.length)

theorem eraseAndAdvance_length (d : Drain View) (r : Ref) (account : TxQAccount)
    (tail : List Ref) :
    (eraseAndAdvance E d r account tail).passed.length +
      (eraseAndAdvance E d r account tail).rest.length = d.passed.length + tail.length := by
  unfold eraseAndAdvance
  dsimp only
  split
  · split_ifs
    · dsimp only
      rw [← List.length_append, List.takeWhile_append_dropWhile, List.length_append]
    · rfl
  · rfl

private theorem measure_lt_of_length {d d' : Drain View} {r : Ref} {tail : List Ref}
    (hrest : d.rest = r :: tail)
    (h : d'.passed.length + d'.rest.length < d.passed.length + d.rest.length ∨
      d'.passed.length + d'.rest.length ≤ d.passed.length + d.rest.length ∧
        d'.rest.length ≤ tail.length) : d'.measure < d.measure := by
  rw [Drain.measure, Drain.measure, Prod.Lex.lt_iff]
  simp only [ofLex_toLex, hrest, List.length_cons] at h ⊢
  omega

private theorem measure_eraseAndAdvance {d d₁ : Drain View} {r : Ref} {account : TxQAccount}
    {tail : List Ref} (hrest : d.rest = r :: tail) (hpassed : d₁.passed = d.passed) :
    (eraseAndAdvance E d₁ r account tail).measure < d.measure := by
  refine measure_lt_of_length hrest (.inl ?_)
  rw [eraseAndAdvance_length, hpassed, hrest, List.length_cons]
  omega

private theorem measure_leave {d d₁ : Drain View} {r : Ref} {account : TxQAccount}
    {tail : List Ref} (hrest : d.rest = r :: tail) (hpassed : d₁.passed = d.passed) :
    (leave d₁ r account tail).measure < d.measure := by
  refine measure_lt_of_length hrest (.inr ?_)
  simp only [leave, List.length_append, hpassed, hrest, List.length_cons, List.length_nil]
  omega

private theorem measure_dropLast {d d₁ : Drain View} {r : Ref} {account : TxQAccount}
    {last : SeqProxy} {tail : List Ref} (hrest : d.rest = r :: tail)
    (hpassed : d₁.passed = d.passed) : (dropLast d₁ r account last tail).measure < d.measure := by
  have hp : (dropLast d₁ r account last tail).passed.length ≤ d.passed.length + 1 := by
    simp only [dropLast, List.length_append, List.length_singleton, hpassed]
    exact Nat.add_le_add_right (List.length_filter_le _ _) 1
  have ht : (dropLast d₁ r account last tail).rest.length ≤ tail.length :=
    List.length_filter_le _ _
  refine measure_lt_of_length hrest (.inr ⟨?_, ht⟩)
  rw [hrest, List.length_cons]
  omega

private theorem measure_leaveOrDrop {d d₁ : Drain View} {r : Ref} {account : TxQAccount}
    {tail : List Ref} (hrest : d.rest = r :: tail) (hpassed : d₁.passed = d.passed) :
    (leaveOrDrop E d₁ r account tail).measure < d.measure := by
  unfold leaveOrDrop
  split_ifs
  · exact measure_eraseAndAdvance E hrest hpassed
  · split
    · split_ifs
      · exact measure_dropLast hrest hpassed
      · exact measure_leave hrest hpassed
    · exact measure_leave hrest hpassed
  · exact measure_leave hrest hpassed

theorem turn_measure {d d' : Drain View} (h : turn E d = .next d') : d'.measure < d.measure := by
  unfold turn at h
  cases hrest : d.rest with
  | nil =>
    rw [hrest] at h
    cases h
  | cons r tail =>
    rw [hrest] at h
    dsimp only at h
    cases hlookup : d.byAccount.lookup r.1 with
    | none =>
      rw [hlookup] at h
      cases h
    | some account =>
      rw [hlookup] at h
      dsimp only at h
      cases hfind : account.transactions.find r.2 with
      | none =>
        rw [hfind] at h
        cases h
      | some c =>
        rw [hfind] at h
        dsimp only at h
        split_ifs at h
        · obtain rfl := Next.next.inj h
          refine measure_lt_of_length hrest (.inr ?_)
          simp only [List.length_append, hrest, List.length_cons, List.length_nil]
          omega
        · obtain rfl := Next.next.inj h
          unfold attempt
          dsimp only
          split_ifs
          · exact measure_eraseAndAdvance E hrest rfl
          · exact measure_eraseAndAdvance E hrest rfl
          · exact measure_eraseAndAdvance E hrest rfl
          · exact measure_leaveOrDrop E hrest rfl

instance : WellFoundedRelation (Drain View) :=
  ⟨fun d d' => d.measure < d'.measure, InvImage.wf Drain.measure wellFounded_lt⟩

/-- The loop of `accept`; `none` is a fault. -/
def drain (d : Drain View) : Option (Drain View) :=
  match _h : turn E d with
  | .fault => none
  | .done => some d
  | .next d' => drain d'
termination_by d
decreasing_by exact turn_measure E _h

/-! ### The queue -/

/-- The queue: the candidates by account, and the list by fee level. -/
structure Queue where
  byAccount : AccountMap
  byFee : List Ref

/-- All transactions of the accounts, in the order of a parent hash. -/
def rebuild (parentHash : UInt256) (byAccount : AccountMap) : List Ref :=
  let refs := byAccount.entries.flatMap fun e =>
    e.2.transactions.toList.map fun c => (e.1, c.seqProx)
  refs.insertionSort fun r r' => ¬(candidateAt byAccount r').any fun c' =>
    (candidateAt byAccount r).any fun c => orderCandidates parentHash c' c

def Drain.start (q : Queue) (view : View) : Drain View := ⟨view, q.byAccount, [], q.byFee, false, []⟩

/-- `TxQ::accept`, on a view whose parent hash is `parentHash`: the queue afterwards, and the loop as it
ended. -/
def accept (parentHash : UInt256) (q : Queue) (view : View) : Option (Queue × Drain View) :=
  (drain E (Drain.start q view)).map fun d => (⟨d.byAccount, rebuild parentHash d.byAccount⟩, d)

end TxQ

end FalconLedger
