import FalconLedger.Queue.TxQ

/-!
# The calls of the queue

`TxQ::apply` and `TxQ::processClosedLedger` on the whole queue, beside `accept`. For `apply`, the checks
of a transaction against its account are those of `TxQ.apply`; here is what a call writes. Whether the
transaction has gone straight into the ledger, and so is not queued, is a parameter.
-/

namespace FalconLedger.TxQ

/-- The account's transactions, without what only `accept` looks at. -/
def TxQAccount.txMap (account : TxQAccount) : TxMap where
  keys := account.transactions.keys
  find sp := (account.transactions.find sp).map Candidate.toMaybeTx
  mem_keys sp := by rw [account.transactions.mem_keys, Option.isSome_map]
  key_eq sp m h := by
    obtain ⟨c, hc, rfl⟩ := Option.map_eq_some_iff.mp h
    exact account.transactions.key_eq sp c hc

/-- What becomes of a transaction that is not queued. -/
structure DirectServices where
  /-- `tryDirectApply` has applied it. -/
  appliedDirectly : Ledger → Queue → AccountTx → Bool
  /-- `tryClearAccountQueueUpThruTx` has applied it, with the transactions in front of it. -/
  cleared : Ledger → Queue → AccountTx → Bool

/-- A transaction as it is submitted. -/
structure Submission where
  tx : AccountTx
  feeLevel : UInt64
  lastValid : Option UInt32

namespace Queue

def empty : Queue := ⟨∅, []⟩

/-- `TxQ::erase`: out of the list and out of the account. -/
def erase (q : Queue) (r : Ref) : Queue where
  byAccount :=
    match q.byAccount.lookup r.1 with
    | some account =>
      q.byAccount.insert r.1 { account with transactions := account.transactions.erase r.2 }
    | none => q.byAccount
  byFee := q.byFee.filter (· ≠ r)

/-- The transactions of the account from its sequence number up to the submitted one are erased. -/
def eraseThrough (q : Queue) (account : AccountID) (sequence : UInt32) (last : SeqProxy) : Queue :=
  (q.byFee.filter fun r => decide (r.1 = account) && decide (.seq sequence ≤ r.2) &&
    decide (r.2 ≤ last)).foldl erase q

/-- The last transaction of the account that is last by fee level and not the submitter's is erased. -/
def kickOut (q : Queue) (account : AccountID) : Queue :=
  match q.byFee.reverse.find? fun r => r.1 ≠ account with
  | none => q
  | some r =>
    match (q.byAccount.lookup r.1).bind fun end_ => end_.transactions.toList.getLast? with
    | none => q
    | some last => q.erase (r.1, last.seqProx)

/-- `TxQAccount::add`, with an account for it if there is none, and the entry in the list. -/
def add (parentHash : UInt256) (q : Queue) (account : AccountID) (c : Candidate) : Queue :=
  let old := (q.byAccount.lookup account).getD ⟨.empty, false, false⟩
  let byAccount := q.byAccount.insert account { old with transactions := old.transactions.set c }
  { byAccount
    byFee := q.byFee.orderedInsert (fun r r' => ¬(candidateAt byAccount r').any fun c' =>
      (candidateAt byAccount r).any fun c => orderCandidates parentHash c' c) (account, c.seqProx) }

/-- `TxQ::apply`. A transaction that is queued replaces the one in its place, or another one makes room
for it when the queue is full. -/
def apply (Q : QueueServices) (D : DirectServices) (parentHash : UInt256) (maxSize : Option ℕ)
    (s : Ledger) (q : Queue) (t : Submission) : Queue :=
  let account := t.tx.account
  let r : Ref := (account, t.tx.seqProxy)
  match TxQ.apply Q s ((q.byAccount.lookup account).map TxQAccount.txMap) t.tx with
  | .ok _ =>
    let c : Candidate :=
      { tx := t.tx
        consequences := makeTxConsequences t.tx
        feeLevel := t.feeLevel
        lastValid := t.lastValid }
    let replaces := (candidateAt q.byAccount r).isSome
    let q :=
      if !replaces && maxSize.any fun n => n ≤ q.byFee.length then q.kickOut account
      else q
    (q.erase r).add parentHash account c
  | .error _ =>
    if D.appliedDirectly s q t.tx then q.erase r
    else if D.cleared s q t.tx then
      (s.accounts.lookup account).elim q fun root => q.eraseThrough account root.sequence t.tx.seqProxy
    else q

/-- A transaction that can no longer be in a ledger leaves, and its account is penalized. -/
def expire (q : Queue) (r : Ref) : Queue :=
  let q := q.erase r
  { q with
    byAccount :=
      match q.byAccount.lookup r.1 with
      | some account => q.byAccount.insert r.1 { account with dropPenalty := true }
      | none => q.byAccount }

/-- `TxQ::processClosedLedger`, of the ledger with the sequence number `ledgerSeq`. -/
def processClosedLedger (q : Queue) (ledgerSeq : UInt32) : Queue :=
  let expired := q.byFee.filter fun r =>
    (candidateAt q.byAccount r).any fun c => c.lastValid.any fun last => decide (last ≤ ledgerSeq)
  let q := expired.foldl expire q
  let idle := q.byAccount.keys.filter fun a =>
    (q.byAccount.lookup a).any fun account => account.transactions.toList.isEmpty
  { q with byAccount := idle.foldl (fun byAccount a => byAccount.erase a) q.byAccount }

end Queue

end FalconLedger.TxQ
