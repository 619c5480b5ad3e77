import FalconLedger.Ledger.Directory
import FalconLedger.Protocol.Number

/-!
# Loans, brokers and vaults

The entries of the lending protocol, the share tokens of the vaults, and the `Market`, a ledger
together with them. A `SoeDefault` field that the code tests with `isFieldPresent` is an `Option`,
and storing its default removes it (`unlessDefault`); every other one is the value read. Amounts of
share tokens are natural numbers: no sum of them reaches 64 bits.
-/

namespace FalconLedger

/-- `Asset::getIssuer`; the low bits of a token's id are its issuer. -/
def Asset.getIssuer : Asset → AccountID
  | .xrp => 0
  | .issue _ account => account
  | .mpt id => id.setWidth 160

/-- An amount: drops, units of an issued currency, or a number of tokens. -/
inductive STAmount
  | native (drops : Int)
  | issued (currency : Currency) (issuer : AccountID) (value : Number)
  | mpt (id : MPTID) (value : Int)
  deriving DecidableEq

namespace STAmount

def asset : STAmount → Asset
  | native _ => .xrp
  | issued currency issuer _ => .issue currency issuer
  | mpt id _ => .mpt id

/-- `STAmount{asset}`: none of it. -/
def zeroOf : Asset → STAmount
  | .xrp => native 0
  | .issue currency issuer => issued currency issuer 0
  | .mpt id => mpt id 0

/-- `amount > beast::kZERO`. -/
def positive : STAmount → Bool
  | native n | mpt _ n => 0 < n
  | issued _ _ x => Number.lt 0 x

/-- `amount < beast::kZERO`. -/
def negative : STAmount → Bool
  | native n | mpt _ n => n < 0
  | issued _ _ x => Number.lt x 0

/-- `operator<` on amounts of one asset. -/
def lt : STAmount → STAmount → Bool
  | native n, native n' | mpt _ n, mpt _ n' => n < n'
  | issued _ _ x, issued _ _ x' => Number.lt x x'
  | _, _ => false

/-- `operator Number`. -/
def toNumber (env : NumberEnv) : STAmount → Option Number
  | native n | mpt _ n => Number.ofInt env n
  | issued _ _ x => some x

/-- `Number(mantissa(), exponent() + scale)`. -/
def scaled (env : NumberEnv) (scale : UInt8) : STAmount → Option Number
  | native n | mpt _ n => Number.normalize env false n.natAbs scale.toNat
  | issued _ _ x => Number.normalize env false x.mantissa (x.exponent + scale.toNat)

/-- The drops of a native amount. -/
def drops : STAmount → Option Int
  | native n => some n
  | _ => none

end STAmount

/-- The value a `SoeDefault` field holds once `v` is stored in it. -/
def unlessDefault {α : Type} [Zero α] [DecidableEq α] (v : α) : Option α :=
  if v = 0 then none else some v

/-- The amendments the lending code tests. -/
structure LendingRules where
  lendingProtocol : Bool
  lendingCollateral : Bool
  lendingPermissionless : Bool
  singleAssetVault : Bool
  mptokensV1 : Bool
  mptokensV2 : Bool
  amm : Bool
  fixSecurity3_1_3 : Bool
  deriving DecidableEq

/-- What is enabled in either; an amendment is never disabled again. -/
def LendingRules.union (r r' : LendingRules) : LendingRules where
  lendingProtocol := r.lendingProtocol || r'.lendingProtocol
  lendingCollateral := r.lendingCollateral || r'.lendingCollateral
  lendingPermissionless := r.lendingPermissionless || r'.lendingPermissionless
  singleAssetVault := r.singleAssetVault || r'.singleAssetVault
  mptokensV1 := r.mptokensV1 || r'.mptokensV1
  mptokensV2 := r.mptokensV2 || r'.mptokensV2
  amm := r.amm || r'.amm
  fixSecurity3_1_3 := r.fixSecurity3_1_3 || r'.fixSecurity3_1_3

/-- `ltVAULT`. -/
structure VaultEntry where
  owner : AccountID
  /-- The vault's pseudo-account. -/
  account : AccountID
  asset : Asset
  assetsTotal : Number
  assetsAvailable : Number
  assetsMaximum : Number
  lossUnrealized : Number
  shareMPTID : MPTID
  withdrawalPolicy : UInt8
  scale : UInt8
  /-- `lsfVaultPrivate`. -/
  isPrivate : Bool
  /-- Drops of forfeited collateral the share holders can claim. -/
  liquidationCollateral : Option Int
  /-- Drops forfeited per share since the vault was created. -/
  liquidationIndex : Option Number
  deriving DecidableEq

/-- `ltLOAN_BROKER`. -/
structure LoanBroker where
  owner : AccountID
  /-- The broker's pseudo-account. -/
  account : AccountID
  vaultID : UInt256
  loanSequence : UInt32
  managementFeeRate : UInt16
  interestRate : UInt32
  ownerCount : UInt32
  debtTotal : Number
  debtMaximum : Number
  coverAvailable : Number
  coverRateMinimum : UInt32
  coverRateLiquidation : UInt32
  deriving DecidableEq

/-- The fields of a loan that are fixed when it is made. -/
structure LoanTerms where
  loanScale : Int
  startDate : UInt32
  paymentInterval : UInt32
  gracePeriod : UInt32
  loanOriginationFee : Number
  loanServiceFee : Number
  latePaymentFee : Number
  closePaymentFee : Number
  overpaymentFee : UInt32
  interestRate : UInt32
  lateInterestRate : UInt32
  closeInterestRate : UInt32
  overpaymentInterestRate : UInt32
  deriving DecidableEq

/-- The fields of a loan that payments change. -/
structure LoanBalances where
  principalOutstanding : Number
  totalValueOutstanding : Number
  managementFeeOutstanding : Number
  periodicPayment : Number
  previousPaymentDueDate : UInt32
  nextPaymentDueDate : UInt32
  paymentRemaining : UInt32
  deriving DecidableEq

/-- `ltLOAN`; the flags are `lsfLoanDefault`, `lsfLoanImpaired`, `lsfLoanOverpayment` and
`lsfLoanPermissionless`. -/
structure Loan where
  loanBrokerID : UInt256
  loanSequence : UInt32
  borrower : AccountID
  ownerNode : UInt64
  loanBrokerNode : UInt64
  isDefault : Bool
  isImpaired : Bool
  isOverpayment : Bool
  isPermissionless : Bool
  terms : LoanTerms
  balances : LoanBalances
  /-- Drops the borrower has pledged. -/
  collateral : Option Int
  deriving DecidableEq

/-- `ltMPTOKEN_ISSUANCE` of a vault's shares. -/
structure ShareIssuance where
  issuer : AccountID
  outstandingAmount : Nat
  maximumAmount : Option Nat
  /-- `lsfMPTLocked`. -/
  locked : Bool
  /-- `sfDomainID`. -/
  domainID : Option UInt256
  deriving DecidableEq

/-- `ltMPTOKEN` of a holder of a vault's shares. -/
structure ShareToken where
  amount : Nat
  lockedAmount : Nat
  /-- `lsfMPTAuthorized`. -/
  authorized : Bool
  ownerNode : UInt64
  /-- What of `shares * index` does not belong to the holder, or has been paid. -/
  liquidationDebt : Option Number
  deriving DecidableEq

/-- A ledger with the entries of the lending protocol. The trust lines, tokens and pools of the
vaults' assets are the `holdings` of `ledger`. -/
structure Market where
  ledger : Ledger
  rules : LendingRules
  closeTime : UInt32
  parentCloseTime : UInt32
  /-- The reserve of an account, and what each entry it owns adds. -/
  reserveBase : Int
  reserveIncrement : Int
  /-- The accounts whose root names the vault, broker or pool they stand for. -/
  pseudoAccounts : List AccountID
  vaults : Table UInt256 VaultEntry
  brokers : Table UInt256 LoanBroker
  loans : Table UInt256 Loan
  issuances : Table MPTID ShareIssuance
  tokens : Table (MPTID × AccountID) ShareToken

namespace Market

/-- Numbers round to nearest unless a guard says otherwise, and have large mantissas once a vault
or a loan can exist. -/
def env (m : Market) : NumberEnv where
  mode := .toNearest
  scale := if m.rules.singleAssetVault || m.rules.lendingProtocol then .large else .small

/-- `fees().accountReserve`. -/
def accountReserve (m : Market) (ownerCount : UInt32) : Int :=
  m.reserveBase + ownerCount.toNat * m.reserveIncrement

def isPseudoAccount (m : Market) (id : AccountID) : Bool := m.pseudoAccounts.contains id

/-- What an account can spend of its drops; a pseudo-account needs no reserve. -/
def xrpLiquid (m : Market) (id : AccountID) : Int :=
  match m.ledger.accounts.lookup id with
  | none => 0
  | some root =>
    let reserve := if m.isPseudoAccount id then 0 else m.accountReserve root.ownerCount
    if root.balance < reserve then 0 else root.balance - reserve

/-- `hasExpired`. -/
def hasExpired (m : Market) (time : UInt32) : Bool := time ≤ m.parentCloseTime

def setVault (m : Market) (id : UInt256) (vault : VaultEntry) : Market :=
  { m with vaults := m.vaults.insert id vault }

def setBroker (m : Market) (id : UInt256) (broker : LoanBroker) : Market :=
  { m with brokers := m.brokers.insert id broker }

def setLoan (m : Market) (id : UInt256) (loan : Loan) : Market :=
  { m with loans := m.loans.insert id loan }

def setToken (m : Market) (shares : MPTID) (holder : AccountID) (token : ShareToken) : Market :=
  { m with tokens := m.tokens.insert (shares, holder) token }

end Market

end FalconLedger
