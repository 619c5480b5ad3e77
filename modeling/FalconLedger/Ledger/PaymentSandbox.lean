import FalconLedger.Protocol.STTx
import Mathlib.Algebra.Order.Field.Rat

/-!
# Payment sandboxes

`PaymentSandbox` and its table of `DeferredCredits`: what a payment credits to an account is noted so
that the account cannot spend it in the same payment. Sandboxes nest; the hooks that report a balance
go through the whole stack, the hooks that note a payment write the innermost table.

Amounts are exact here: rational numbers for issued currencies and XRP, integers for tokens.
-/

namespace FalconLedger

/-- The account that stands for the ledger on the other side of an XRP balance. -/
def xrpAccount : AccountID := 0

/-- `MPTIssue::getIssuer`: the last twenty bytes of the id. -/
def MPTID.getIssuer (id : MPTID) : AccountID := id.setWidth 160

namespace DeferredCredits

structure ValueIOU where
  lowAcctDebits : ℚ
  highAcctDebits : ℚ
  lowAcctOrigBalance : ℚ

structure HolderValueMPT where
  debit : ℤ := 0
  origBalance : ℤ := 0

structure IssuerValueMPT where
  holders : AccountID → Option HolderValueMPT := fun _ => none
  credit : ℤ := 0
  origBalance : ℤ := 0
  selfDebit : ℤ := 0

structure AdjustmentIOU where
  debits : ℚ
  credits : ℚ
  origBalance : ℚ

abbrev KeyIOU := AccountID × AccountID × Currency

def makeKeyIOU (a₁ a₂ : AccountID) (c : Currency) : KeyIOU := if a₁ < a₂ then (a₁, a₂, c) else (a₂, a₁, c)

end DeferredCredits

open DeferredCredits

structure DeferredCredits where
  creditsIOU : KeyIOU → Option ValueIOU := fun _ => none
  creditsMPT : MPTID → Option IssuerValueMPT := fun _ => none
  ownerCounts : AccountID → Option ℕ := fun _ => none

namespace DeferredCredits

/-! ### Noting a payment -/

def creditIOU (tab : DeferredCredits) (sender receiver : AccountID) (currency : Currency)
    (amount preCreditSenderBalance : ℚ) : DeferredCredits :=
  let k := makeKeyIOU sender receiver currency
  let v : ValueIOU :=
    match tab.creditsIOU k with
    | none =>
      if sender < receiver then ⟨amount, 0, preCreditSenderBalance⟩
      else ⟨0, amount, -preCreditSenderBalance⟩
    | some v =>
      -- only record the balance the first time
      if sender < receiver then { v with lowAcctDebits := v.lowAcctDebits + amount }
      else { v with highAcctDebits := v.highAcctDebits + amount }
  { tab with creditsIOU := Function.update tab.creditsIOU k (some v) }

def creditMPT (tab : DeferredCredits) (sender receiver : AccountID) (mptID : MPTID) (amount : ℤ)
    (preCreditBalanceHolder preCreditBalanceIssuer : ℤ) : DeferredCredits :=
  let isSenderIssuer := sender = mptID.getIssuer
  let v : IssuerValueMPT :=
    match tab.creditsMPT mptID with
    | none =>
      if isSenderIssuer then
        { credit := amount
          holders := Function.update (fun _ => none) receiver
            (some { origBalance := preCreditBalanceHolder })
          origBalance := preCreditBalanceIssuer }
      else
        { holders := Function.update (fun _ => none) sender (some ⟨amount, preCreditBalanceHolder⟩)
          origBalance := preCreditBalanceIssuer }
    | some v =>
      if isSenderIssuer then
        { v with
          credit := v.credit + amount
          holders :=
            if (v.holders receiver).isSome then v.holders
            else Function.update v.holders receiver (some { origBalance := preCreditBalanceHolder }) }
      else
        { v with
          holders := Function.update v.holders sender
            (match v.holders sender with
            | none => some ⟨amount, preCreditBalanceHolder⟩
            | some h => some { h with debit := h.debit + amount }) }
  { tab with creditsMPT := Function.update tab.creditsMPT mptID (some v) }

def issuerSelfDebitMPT (tab : DeferredCredits) (mptID : MPTID) (amount origBalance : ℤ) :
    DeferredCredits :=
  let v : IssuerValueMPT :=
    match tab.creditsMPT mptID with
    | none => { origBalance := origBalance, selfDebit := amount }
    | some v => { v with selfDebit := v.selfDebit + amount }
  { tab with creditsMPT := Function.update tab.creditsMPT mptID (some v) }

def ownerCount (tab : DeferredCredits) (id : AccountID) (cur next : ℕ) : DeferredCredits :=
  let v := max cur next
  { tab with
    ownerCounts := Function.update tab.ownerCounts id
      (some ((tab.ownerCounts id).elim v fun mapVal => max v mapVal)) }

/-! ### Adjustments -/

/-- The adjustments for the balance between two accounts. -/
def adjustmentsIOU (tab : DeferredCredits) (main other : AccountID) (currency : Currency) :
    Option AdjustmentIOU :=
  (tab.creditsIOU (makeKeyIOU main other currency)).map fun v =>
    if main < other then ⟨v.lowAcctDebits, v.highAcctDebits, v.lowAcctOrigBalance⟩
    else ⟨v.highAcctDebits, v.lowAcctDebits, -v.lowAcctOrigBalance⟩

def adjustmentsMPT (tab : DeferredCredits) (mptID : MPTID) : Option IssuerValueMPT :=
  tab.creditsMPT mptID

/-! ### Applying a table to the one below -/

/-- `emplace`, or what is done with the value that is there. -/
def emplace {V : Type} (f : V → V → V) : Option V → Option V → Option V
  | toVal, none => toVal
  | none, some fromVal => some fromVal
  | some toVal, some fromVal => some (f toVal fromVal)

def applyIOU (toVal fromVal : ValueIOU) : ValueIOU :=
  -- the original balance is already correct
  { toVal with
    lowAcctDebits := toVal.lowAcctDebits + fromVal.lowAcctDebits
    highAcctDebits := toVal.highAcctDebits + fromVal.highAcctDebits }

def applyMPT (toVal fromVal : IssuerValueMPT) : IssuerValueMPT :=
  { toVal with
    credit := toVal.credit + fromVal.credit
    selfDebit := toVal.selfDebit + fromVal.selfDebit
    holders := fun k =>
      emplace (fun h v => { h with debit := h.debit + v.debit }) (toVal.holders k)
        (fromVal.holders k) }

def apply (tab toTab : DeferredCredits) : DeferredCredits where
  creditsIOU := fun k => emplace applyIOU (toTab.creditsIOU k) (tab.creditsIOU k)
  creditsMPT := fun k => emplace applyMPT (toTab.creditsMPT k) (tab.creditsMPT k)
  ownerCounts := fun k => emplace max (toTab.ownerCounts k) (tab.ownerCounts k)

end DeferredCredits

/-! ### The hooks of a stack of sandboxes -/

namespace PaymentSandbox

/-- The tables of the nested sandboxes, from the innermost out. -/
abbrev Tables := List DeferredCredits

/-- One sandbox of the pass: the debits, the last original balance and the least one so far. -/
def lookIOU (account issuer : AccountID) (currency : Currency) (acc : ℚ × ℚ × ℚ)
    (tab : DeferredCredits) : ℚ × ℚ × ℚ :=
  match tab.adjustmentsIOU account issuer currency with
  | some adj =>
    (acc.1 + adj.debits, adj.origBalance,
      if adj.origBalance < acc.2.2 then adj.origBalance else acc.2.2)
  | none => acc

def balanceHookIOU (tabs : Tables) (account issuer : AccountID) (currency : Currency) (amount : ℚ) :
    ℚ :=
  let acc := tabs.foldl (lookIOU account issuer currency) (0, amount, amount)
  let adjustedAmt := min amount (min (acc.2.1 - acc.1) acc.2.2)
  -- a negative XRP balance is not an error: what was credited has been spent again
  if issuer = xrpAccount ∧ adjustedAmt < 0 then 0 else adjustedAmt

/-- The debits and the original balance after one more sandbox, for a holder or for the issuer. -/
def lookAt (account : AccountID) (issue : MPTID) (acc : ℤ × ℤ × ℤ) (adj : IssuerValueMPT) : ℤ × ℤ :=
  if account ≠ issue.getIssuer then
    match adj.holders account with
    | some h => (acc.1 + h.debit, h.origBalance)
    | none => (acc.1, acc.2.1)
  else (acc.1 + adj.credit, adj.origBalance)

def lookMPT (account : AccountID) (issue : MPTID) (acc : ℤ × ℤ × ℤ) (tab : DeferredCredits) :
    ℤ × ℤ × ℤ :=
  match tab.adjustmentsMPT issue with
  | some adj =>
    let seen := lookAt account issue acc adj
    (seen.1, seen.2, min seen.2 acc.2.2)
  | none => acc

def balanceHookMPT (tabs : Tables) (account : AccountID) (issue : MPTID) (amount : ℤ) : ℤ :=
  let acc := tabs.foldl (lookMPT account issue) (0, amount, amount)
  let adjustedAmt := min amount (min (acc.2.1 - acc.1) acc.2.2)
  if 0 < adjustedAmt then adjustedAmt else 0

/-! ### A payment -/

/-- Balances, and what has been sent. A line has its balance as the low account sees it; an XRP balance
is a line with `xrpAccount`. What was sent is no part of the ledger: it is what the balances reported
are to be compared with. -/
structure Funds where
  lines : KeyIOU → ℚ
  tokens : MPTID → AccountID → ℤ
  sentIOU : AccountID → AccountID → Currency → ℚ := fun _ _ _ => 0
  sentMPT : MPTID → AccountID → ℤ := fun _ _ => 0

/-- The balance of an account on its line with another. -/
def Funds.balance (f : Funds) (account issuer : AccountID) (currency : Currency) : ℚ :=
  if account < issuer then f.lines (makeKeyIOU account issuer currency)
  else -f.lines (makeKeyIOU account issuer currency)

/-- Move an amount along a line. -/
def Funds.pay (f : Funds) (sender receiver : AccountID) (currency : Currency) (amount : ℚ) : Funds :=
  let k := makeKeyIOU sender receiver currency
  { f with
    lines := Function.update f.lines k
      (if sender < receiver then f.lines k - amount else f.lines k + amount)
    sentIOU := fun s r c =>
      if s = sender ∧ r = receiver ∧ c = currency then f.sentIOU s r c + amount else f.sentIOU s r c }

def Funds.issue (f : Funds) (mptID : MPTID) (holder : AccountID) (amount : ℤ) : Funds :=
  { f with
    tokens := fun m a => if m = mptID ∧ a = holder then f.tokens m a + amount else f.tokens m a }

def Funds.redeem (f : Funds) (mptID : MPTID) (holder : AccountID) (amount : ℤ) : Funds :=
  { f with
    tokens := fun m a => if m = mptID ∧ a = holder then f.tokens m a - amount else f.tokens m a
    sentMPT := fun m a => if m = mptID ∧ a = holder then f.sentMPT m a + amount else f.sentMPT m a }

/-- A sandbox: its table, and the funds when it was opened, which are back when it is dropped. -/
structure Level where
  tab : DeferredCredits := {}
  before : Funds

/-- The sandboxes that are open, from the innermost out, and the funds the innermost sees. -/
structure State where
  levels : List Level
  funds : Funds

def State.tabs (s : State) : Tables := s.levels.map Level.tab

/-- One thing that happens while sandboxes are open. The innermost one is written; each payment is noted
with the balance before it. -/
inductive Step : State → State → Prop
  | nest (top : Level) (rest : List Level) (funds : Funds) :
      Step ⟨top :: rest, funds⟩ ⟨{ before := funds } :: top :: rest, funds⟩
  | discard (top next : Level) (rest : List Level) (funds : Funds) :
      Step ⟨top :: next :: rest, funds⟩ ⟨next :: rest, top.before⟩
  | apply (top next : Level) (rest : List Level) (funds : Funds) :
      Step ⟨top :: next :: rest, funds⟩
        ⟨{ next with tab := top.tab.apply next.tab } :: rest, funds⟩
  | pay (top : Level) (rest : List Level) (funds : Funds) (sender receiver : AccountID)
      (currency : Currency) (amount : ℚ) (hne : sender ≠ receiver) (hamount : 0 ≤ amount)
      -- no account has less than no XRP
      (hxrp : receiver = xrpAccount → amount ≤ funds.balance sender receiver currency) :
      Step ⟨top :: rest, funds⟩
        ⟨{ top with
            tab := top.tab.creditIOU sender receiver currency amount
              (funds.balance sender receiver currency) } :: rest,
          funds.pay sender receiver currency amount⟩
  | issue (top : Level) (rest : List Level) (funds : Funds) (mptID : MPTID) (holder : AccountID)
      (amount available : ℤ) (hne : mptID.getIssuer ≠ holder) (hamount : 0 ≤ amount) :
      Step ⟨top :: rest, funds⟩
        ⟨{ top with
            tab := top.tab.creditMPT mptID.getIssuer holder mptID amount (funds.tokens mptID holder)
              available } :: rest,
          funds.issue mptID holder amount⟩
  | redeem (top : Level) (rest : List Level) (funds : Funds) (mptID : MPTID) (holder : AccountID)
      (amount available : ℤ) (hne : holder ≠ mptID.getIssuer) (hamount : 0 ≤ amount)
      (henough : amount ≤ funds.tokens mptID holder) :
      Step ⟨top :: rest, funds⟩
        ⟨{ top with
            tab := top.tab.creditMPT holder mptID.getIssuer mptID amount (funds.tokens mptID holder)
              available } :: rest,
          funds.redeem mptID holder amount⟩
  | selfDebit (top : Level) (rest : List Level) (funds : Funds) (mptID : MPTID)
      (amount origBalance : ℤ) :
      Step ⟨top :: rest, funds⟩
        ⟨{ top with tab := top.tab.issuerSelfDebitMPT mptID amount origBalance } :: rest, funds⟩
  | ownerCount (top : Level) (rest : List Level) (funds : Funds) (id : AccountID) (cur next : ℕ) :
      Step ⟨top :: rest, funds⟩
        ⟨{ top with tab := top.tab.ownerCount id cur next } :: rest, funds⟩

/-- The outermost sandbox, just opened. -/
def start (lines : KeyIOU → ℚ) (tokens : MPTID → AccountID → ℤ) : State :=
  let funds : Funds := { lines := lines, tokens := tokens }
  ⟨[{ before := funds }], funds⟩

end PaymentSandbox

end FalconLedger
