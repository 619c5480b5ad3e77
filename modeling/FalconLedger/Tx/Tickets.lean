import FalconLedger.Tx.Transactor

/-!
# Tickets

The transactor `TicketCreate`. An account's tickets take the numbers from its sequence number on, and
the sequence number moves past them.
-/

namespace FalconLedger

/-- The fields of the transactions that make and delete accounts and tickets. -/
inductive AccountBody
  | ticketCreate (ticketCount : UInt32)
  | accountDelete (destination : AccountID)
  /-- The amount is `none` where it is not native. -/
  | payment (destination : AccountID) (amount : Option Int)
  /-- Any other type; whether the queue takes it for a blocker. -/
  | other (blocker : Bool)
  deriving DecidableEq

/-- A transaction. -/
structure AccountTx where
  transactionID : UInt256
  account : AccountID
  delegate : Option AccountID
  fee : Int
  seqProxy : SeqProxy
  body : AccountBody
  deriving DecidableEq

/-- The fields the fee and the sequence number are charged by. -/
def AccountTx.common (tx : AccountTx) : STTx where
  transactionID := tx.transactionID
  account := tx.account
  delegate := tx.delegate
  fee := tx.fee
  seqProxy := tx.seqProxy
  body := .nameSet none

/-- `Fees`, as far as reserves go. -/
structure Reserves where
  reserve : Int
  increment : Int

/-- `accountReserve`: the drops an account that owns so much has to hold. -/
def Reserves.accountReserve (fees : Reserves) (ownerCount : UInt32) : Int :=
  fees.reserve + ownerCount.toNat * fees.increment

/-- `confineOwnerCount`, of a positive adjustment. -/
def confineOwnerCount (current adjustment : UInt32) : UInt32 :=
  if current + adjustment < current then 0xFFFFFFFF else current + adjustment

namespace SeqProxy

def isSeq : SeqProxy → Bool
  | .seq _ => true
  | .ticket _ => false

def isTicket : SeqProxy → Bool
  | .seq _ => false
  | .ticket _ => true

def value : SeqProxy → UInt32
  | .seq v | .ticket v => v

end SeqProxy

namespace TicketCreate

def kMinValidCount : UInt32 := 1

def kMaxValidCount : UInt32 := 250

def kMaxTicketThreshold : UInt32 := 250

def preflight (ticketCount : UInt32) : Except TER Unit :=
  failIf (ticketCount < kMinValidCount ∨ kMaxValidCount < ticketCount) .temInvalidCount

def preclaim (s : Ledger) (tx : AccountTx) (ticketCount : UInt32) : Except TER Unit := do
  let root ← orFail (s.accounts.lookup tx.account) .terNoAccount
  let consumedTickets : UInt32 := if tx.seqProxy.isTicket then 1 else 0
  failIf (kMaxTicketThreshold < root.ticketCount.getD 0 + ticketCount - consumedTickets) .tecDirFull

/-- The loop that makes the tickets, from `ticketSeq` on. -/
def createTickets (H : Services) (account : AccountID) :
    ℕ → UInt32 → Ledger → Except TER Ledger
  | 0, _, s => .ok s
  | n + 1, ticketSeq, s => do
    -- inserting an entry that exists is a `logic_error`
    failIf (s.tickets.lookup (account, ticketSeq)).isSome .tefException
    let (page, s) ← orFail (← s.dirInsert account (H.ticketKey account ticketSeq)) .tecDirFull
    createTickets H account n (ticketSeq + 1)
      { s with tickets := s.tickets.insert (account, ticketSeq) ⟨page⟩ }

/-- `s` is charged; `preFeeBalance` is the balance before that. -/
def doApply (H : Services) (fees : Reserves) (s : Ledger) (preFeeBalance : Int) (tx : AccountTx)
    (ticketCount : UInt32) : Except TER Ledger := do
  let root ← orFail (s.accounts.lookup tx.account) .tefInternal
  failIf (preFeeBalance < fees.accountReserve (root.ownerCount + ticketCount))
    .tecInsufficientReserve
  let firstTicketSeq := root.sequence
  let txSeq := if tx.seqProxy.isSeq then tx.seqProxy.value else 0
  failIf (txSeq ≠ 0 ∧ txSeq ≠ firstTicketSeq - 1) .tefInternal
  let s ← createTickets H tx.account ticketCount.toNat firstTicketSeq s
  return s.setAccount tx.account
    { root with
      ticketCount := some (root.ticketCount.getD 0 + ticketCount)
      ownerCount := confineOwnerCount root.ownerCount ticketCount
      sequence := firstTicketSeq + ticketCount }

end TicketCreate

end FalconLedger
