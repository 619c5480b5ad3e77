import FalconLedger.Lending.Entries
import FalconLedger.Tx.ApplyContext

/-!
# What the lending transactors call on

The transactions of the lending protocol and of the vaults, and in `LendingServices` the code they
call that is not modelled: the schedule of payments, the rounding to an asset, and assets other than
drops and vault shares. A movement of such an asset can change the trust lines, tokens and pools,
the directories and the owner counts, and nothing else (`AssetEffect`).
-/

namespace FalconLedger

/-! ### Transactions -/

/-- The fields of a `LoanSet` transaction. -/
structure LoanSetFields where
  loanBrokerID : UInt256
  data : Option Blob
  counterparty : Option AccountID
  /-- Whether `sfCounterpartySignature` is present. -/
  counterpartySignature : Bool
  loanOriginationFee : Option Number
  loanServiceFee : Option Number
  latePaymentFee : Option Number
  closePaymentFee : Option Number
  overpaymentFee : Option UInt32
  interestRate : Option UInt32
  lateInterestRate : Option UInt32
  closeInterestRate : Option UInt32
  overpaymentInterestRate : Option UInt32
  principalRequested : Number
  paymentTotal : Option UInt32
  paymentInterval : Option UInt32
  gracePeriod : Option UInt32
  collateral : Option STAmount
  deriving DecidableEq

/-- The fields of each transaction type. `sharePayment` is a `Payment` of vault shares. -/
inductive LendingBody
  | loanSet (fields : LoanSetFields)
  | loanDelete (loanID : UInt256)
  | loanManage (loanID : UInt256)
  | loanCollateralDeposit (loanID : UInt256) (collateral : STAmount)
  | loanPay (loanID : UInt256) (amount : STAmount)
  | vaultClaimCollateral (loanBrokerID : UInt256) (amount : Option STAmount)
  | vaultDeposit (vaultID : UInt256) (amount : STAmount)
  | vaultWithdraw (vaultID : UInt256) (amount : STAmount) (destination : Option AccountID)
  | vaultClawback (vaultID : UInt256) (holder : AccountID) (amount : Option STAmount)
  | sharePayment (destination : AccountID) (shares : MPTID) (amount : Nat)
  deriving DecidableEq

/-- A signed transaction; none of these types can be delegated. -/
structure LendingTx where
  transactionID : UInt256
  account : AccountID
  fee : Int
  seqProxy : SeqProxy
  flags : UInt32
  body : LendingBody
  deriving DecidableEq

namespace LendingTx

/-- The fields the fee and the sequence number are charged by; its body plays no part in that. -/
def common (tx : LendingTx) : STTx where
  transactionID := tx.transactionID
  account := tx.account
  delegate := none
  fee := tx.fee
  seqProxy := tx.seqProxy
  body := .nameSet none

/-- `tx.isFlag`. -/
def isFlag (tx : LendingTx) (flag : UInt32) : Bool := tx.flags &&& flag == flag

end LendingTx

/-! ### The schedule of a loan -/

/-- The parts of a payment: what goes to the vault, by how much the loan's value changes beside
that, and what goes to the broker. -/
structure LoanPaymentParts where
  principalPaid : Number
  interestPaid : Number
  valueChange : Number
  feePaid : Number

structure LoanState where
  valueOutstanding : Number
  principalOutstanding : Number
  interestDue : Number
  managementFeeDue : Number

structure LoanProperties where
  periodicPayment : Number
  loanState : LoanState
  loanScale : Int
  firstPaymentPrincipal : Number

inductive LoanPaymentType
  | regular
  | late
  | full
  | overpayment
  deriving DecidableEq

/-! ### Assets -/

inductive AuthType
  | legacy
  | weakAuth
  | strongAuth
  deriving DecidableEq

/-- Checks of the token code, each about one asset. -/
inductive AssetCheck
  | canAddHolding
  | checkFrozen (account : AccountID)
  | checkDeepFrozen (account : AccountID)
  | requireAuth (account : AccountID) (auth : AuthType)
  | canTransfer (source destination : AccountID)
  | canWithdraw (source destination : AccountID) (amount : STAmount)
  | verifyDepositPreauth (source destination : AccountID)
  /-- The issuer has kept the right to claw the asset back. -/
  | canClawback
  deriving DecidableEq

/-- What moving an asset can change. -/
structure AssetEffect where
  holdings : Holdings
  dirs : Table (AccountID × UInt64) DirNode
  /-- The new owner count of an account, from the old one. -/
  ownerCount : AccountID → UInt32 → UInt32

/-! ### Services -/

/-- The code the lending transactors call that is not modelled. -/
structure LendingServices extends Services where
  loanKey : UInt256 → UInt32 → UInt256
  mptokenKey : MPTID → AccountID → UInt256
  /-- `some code` when the check refuses the transaction. -/
  lendingCheck : ExternalCheck → Market → LendingTx → Option Nat
  /-- The signing key of `sfCounterpartySignature`. -/
  counterpartyKeyCheck : LendingTx → Option Nat
  /-- The signature in `sfCounterpartySignature`, for an account that is no pseudo-account. -/
  counterpartySignCheck : Market → LendingTx → AccountID → Option Nat
  /-- What the invariant checkers look at besides the type of the transaction. -/
  otherLendingInvariants : Market → Market → LendingTx → TER → Int → Bool
  lendingOversize : Market → LendingTx → Bool
  assetCheck : AssetCheck → Market → Asset → Except TER Unit
  /-- `accountHolds`, of an asset other than drops. -/
  accountHolds : Market → AccountID → Asset → Number
  /-- What is in the pool of drops and an asset: drops, and units of the asset. -/
  ammHolds : Market → Asset → Option (Int × Number)
  addEmptyHolding : Market → AccountID → Int → Asset → Except TER AssetEffect
  accountSend : Market → AccountID → AccountID → STAmount → Except TER AssetEffect
  accountSendMulti : Market → AccountID → Asset → List (AccountID × Number) → Except TER AssetEffect
  /-- Whether the account has the credentials a domain asks for. -/
  verifyValidDomain : Market → UInt256 → AccountID → Except TER Unit
  /-- `STAmount{asset, value}`, as a number. -/
  toAsset : Asset → Number → Number
  roundToAsset : Asset → Number → Int → RoundingMode → Option Number
  isRounded : Asset → Number → Int → Bool
  /-- `scale(assetsTotal, asset)`. -/
  scaleOf : Number → Asset → Int
  computeLoanProperties : LendingRules → Asset → Number → UInt32 → UInt32 → UInt32 → UInt16 → Int →
    Option LoanProperties
  checkLoanGuards : Asset → Number → Bool → UInt32 → LoanProperties → Except TER Unit
  loanMakePayment : Market → Asset → Loan → LoanBroker → STAmount → LoanPaymentType →
    Except TER (LoanBalances × LoanPaymentParts)

/-- `STAmount{asset, value}`; an amount of drops or tokens is rounded to an integer. -/
def LendingServices.amountOf (G : LendingServices) (env : NumberEnv) (asset : Asset)
    (value : Number) : Option STAmount :=
  match asset with
  | .xrp => (value.toRep env).map .native
  | .mpt id => (value.toRep env).map (.mpt id)
  | .issue currency issuer => some (.issued currency issuer (G.toAsset asset value))

/-- A number, or the exception its computation has thrown. -/
def number {α : Type} (x : Option α) : Except TER α := orFail x .tefException

@[simp] theorem number_eq_ok {α : Type} {x : Option α} {a : α} : number x = .ok a ↔ x = some a :=
  orFail_eq_ok

/-- Refuse with the code of a check outside this model. -/
def refuseIf (code : Option Nat) : Except TER Unit :=
  match code with
  | some code => .error (.notTec code)
  | none => .ok ()

@[simp] theorem refuseIf_eq_ok {code : Option Nat} {u : Unit} :
    refuseIf code = .ok u ↔ code = none := by
  cases code <;> simp [refuseIf]

end FalconLedger
