import FalconLedger.Data.KeyedMap
import FalconLedger.Tx.Tickets
import Mathlib.Data.Nat.Order.Lemmas

/-!
# The queue of an account

What `TxQ` does with the transactions of one account: what it expects a transaction to do to the
account's sequence number, which sequence number can be queued next, and `TxQ::apply` up to the
transaction's being held. The checks of `TxQ::apply` that have to do with neither the order of the
account's transactions nor its blockers are parameters.
-/

namespace FalconLedger

namespace SeqProxy

/-- Sequences sort before tickets, each by value. -/
def rank : SeqProxy → ℕ
  | .seq v => v.toNat
  | .ticket v => 4294967296 + v.toNat

theorem rank_injective : Function.Injective rank := by
  rintro (v | v) (w | w) h
  · exact congrArg SeqProxy.seq (UInt32.toNat_inj.mp h)
  · have := v.toNat_lt
    simp only [rank] at h
    omega
  · have := w.toNat_lt
    simp only [rank] at h
    omega
  · exact congrArg SeqProxy.ticket (UInt32.toNat_inj.mp (Nat.add_left_cancel h))

instance : LinearOrder SeqProxy := LinearOrder.lift' rank rank_injective

theorem lt_iff_rank {a b : SeqProxy} : a < b ↔ a.rank < b.rank := Iff.rfl

theorem le_iff_rank {a b : SeqProxy} : a ≤ b ↔ a.rank ≤ b.rank := Iff.rfl

def advanceBy : SeqProxy → UInt32 → SeqProxy
  | .seq v, amount => .seq (v + amount)
  | .ticket v, amount => .ticket (v + amount)

end SeqProxy

/-! ### Consequences -/

/-- `TxConsequences`, as far as the order of transactions goes. -/
structure TxConsequences where
  isBlocker : Bool
  seqProxy : SeqProxy
  sequencesConsumed : UInt32
  deriving DecidableEq

/-- The `SeqProxy` that would follow this. -/
def TxConsequences.followingSeq (c : TxConsequences) : SeqProxy :=
  c.seqProxy.advanceBy c.sequencesConsumed

/-- `TxConsequences{tx}`, and the constructor for a blocker. -/
def TxConsequences.ofTx (tx : AccountTx) (isBlocker : Bool) : TxConsequences :=
  ⟨isBlocker, tx.seqProxy, if tx.seqProxy.isSeq then 1 else 0⟩

/-- `makeTxConsequences`, by type. -/
def makeTxConsequences (tx : AccountTx) : TxConsequences :=
  match tx.body with
  | .ticketCreate ticketCount =>
    { TxConsequences.ofTx tx false with sequencesConsumed := ticketCount }
  | .accountDelete _ => TxConsequences.ofTx tx true
  | .payment _ _ => TxConsequences.ofTx tx false
  | .other blocker => TxConsequences.ofTx tx blocker

namespace TxQ

/-- `MaybeTx`: a transaction in the queue, with what preflight has said about it. -/
structure MaybeTx where
  tx : AccountTx
  consequences : TxConsequences
  deriving DecidableEq

def MaybeTx.seqProxy (m : MaybeTx) : SeqProxy := m.tx.seqProxy

/-- The transactions of an account. -/
abbrev TxMap := KeyedMap MaybeTx.seqProxy

/-- `lower_bound`: the transactions from `seqProx` on. -/
def lowerBound (txs : TxMap) (seqProx : SeqProxy) : List MaybeTx :=
  txs.toList.filter fun m => seqProx ≤ m.seqProxy

/-- `getPrevTx`: the last transaction before `seqProx`, or the first one of all. -/
def getPrevTx (txs : TxMap) (seqProx : SeqProxy) : Option MaybeTx :=
  (txs.toList.filter fun m => m.seqProxy < seqProx).getLast? <|> txs.toList.head?

/-- The first opening in a list of transactions, where `attempt` is one so far. -/
def nextOpening (attempt : SeqProxy) : List MaybeTx → SeqProxy
  | [] => attempt
  | m :: rest =>
    if attempt < m.seqProxy then attempt else nextOpening m.consequences.followingSeq rest

/-- `nextQueuableSeqImpl`, of an account in the ledger whose sequence number is `sequence`. -/
def nextQueuableSeq (sequence : UInt32) (txs : TxMap) : SeqProxy :=
  match lowerBound txs (.seq sequence) with
  | [] => .seq sequence
  | first :: rest =>
    if first.seqProxy ≠ .seq sequence then .seq sequence
    else nextOpening first.consequences.followingSeq rest

/-! ### `TxQ::apply` -/

/-- The checks of `TxQ::apply` that are not modelled. -/
inductive QueueCheck
  | preflight
  /-- `tryDirectApply`: it has been tried, and this is the result. -/
  | directApply
  /-- The fee level needed to replace a transaction. -/
  | replacementFee
  /-- The fields, flags and last ledger sequence `canBeHeld` looks at. -/
  | holdable
  /-- The fees in flight. -/
  | balance
  | likelyToClaimFee
  /-- `tryClearAccountQueueUpThruTx`: it has applied the transaction. -/
  | clearAccountQueue
  /-- The queue is full, and there is nothing to drop for the transaction. -/
  | full

/-- The setup of the queue, and the checks that are not modelled. -/
structure QueueServices where
  maximumTxnPerAccount : ℕ
  queueCheck : QueueCheck → Ledger → Option TxMap → AccountTx → Except TER Unit

variable (Q : QueueServices)

/-- `canBeHeld`; `byAccount` is `none` when the account is not in the queue. -/
def canBeHeld (s : Ledger) (sequence : UInt32) (byAccount : Option TxMap) (tx : AccountTx)
    (replaces : Bool) : Except TER Unit := do
  Q.queueCheck .holdable s byAccount tx
  match byAccount with
  | none => .ok ()
  | some txs =>
    checkWhen (!replaces ∧ Q.maximumTxnPerAccount ≤ txs.toList.length) do
      failIf tx.seqProxy.isTicket .telCanNotQueueFull
      let nextQueuable := nextQueuableSeq sequence txs
      failIf (tx.seqProxy ≠ nextQueuable) .telCanNotQueueFull
      -- the transaction has to fill a gap
      failIf (!(txs.upperBound nextQueuable).head?.any fun m => m.seqProxy.isSeq)
        .telCanNotQueueFull

/-- A ticket has to be in the ledger. -/
def checkTicket (s : Ledger) (sequence : UInt32) (tx : AccountTx) : Except TER Unit :=
  match tx.seqProxy with
  | .seq _ => .ok ()
  | .ticket v =>
    checkWhen (s.tickets.lookup (tx.account, v) = none)
      (.error (if v < sequence then .tefNoTicket else .terPreTicket))

/-- What a blocker may be queued with. -/
def checkBlocker (active : List MaybeTx) (tx : AccountTx) : Except TER Unit :=
  checkWhen (makeTxConsequences tx).isBlocker do
    failIf (1 < active.length) .telCanNotQueueBlocks
    failIf (active.length = 1 ∧ active.head?.any fun m => m.seqProxy ≠ tx.seqProxy)
      .telCanNotQueueBlocks

/-- What may be queued with a blocker. -/
def checkBlocked (active : List MaybeTx) (tx : AccountTx) : Except TER Unit :=
  failIf (active.length = 1 ∧ active.head?.any fun m =>
    m.consequences.isBlocker && decide (m.seqProxy ≠ tx.seqProxy)) .telCanNotQueueBlocked

/-- The first sequence number in the queue must be the account's. -/
def checkFirst (sequence : UInt32) : SeqProxy → Except TER Unit
  | .seq n => do
    failIf (n < sequence) .tefPastSeq
    failIf (sequence < n) .terPreSeq
  | .ticket _ => .ok ()

/-- The transaction goes to the front, or follows the transactions in front of it. -/
def checkOrder (sequence : UInt32) (txs : TxMap) (tx : AccountTx) (replaces : Bool) :
    Except TER Unit :=
  if (getPrevTx txs tx.seqProxy).all fun prev => tx.seqProxy < prev.seqProxy then
    checkFirst sequence tx.seqProxy
  else
    checkWhen (!replaces)
      (failIf (tx.seqProxy.isSeq ∧ nextQueuableSeq sequence txs ≠ tx.seqProxy) .telCanNotQueue)

/-- `TxQ::apply`: the account's transactions with the new one among them. -/
def apply (s : Ledger) (byAccount : Option TxMap) (tx : AccountTx) : Except TER TxMap := do
  Q.queueCheck .preflight s byAccount tx
  Q.queueCheck .directApply s byAccount tx
  let root ← orFail (s.accounts.lookup tx.account) .terNoAccount
  checkTicket s root.sequence tx
  let txs := byAccount.getD .empty
  -- transactions the ledger has moved past are ignored
  let active := lowerBound txs (.seq root.sequence)
  checkBlocker active tx
  let replaces := (txs.find tx.seqProxy).isSome
  checkBlocked active tx
  checkWhen (active ≠ [] ∧ replaces) (Q.queueCheck .replacementFee s byAccount tx)
  let multiTxn := active ≠ [] ∧ (1 < active.length ∨ !replaces)
  checkWhen (active = []) (checkFirst root.sequence tx.seqProxy)
  checkWhen (active ≠ []) (failIf (tx.seqProxy < .seq root.sequence) .tefPastSeq)
  checkWhen multiTxn do
    canBeHeld Q s root.sequence byAccount tx replaces
    checkOrder root.sequence txs tx replaces
    Q.queueCheck .balance s byAccount tx
  Q.queueCheck .likelyToClaimFee s byAccount tx
  Q.queueCheck .clearAccountQueue s byAccount tx
  checkWhen (¬multiTxn) (canBeHeld Q s root.sequence byAccount tx replaces)
  checkWhen (!replaces) (Q.queueCheck .full s byAccount tx)
  -- a transaction with the same `SeqProxy` makes room for this one
  return txs.set ⟨tx, makeTxConsequences tx⟩

end TxQ

end FalconLedger
