import FalconLedger.Lending.LoanManage

/-!
# The parts of a loan payment

`detail::computePaymentComponents` and `detail::doPayment` of `LendingHelpers.cpp`. What a payment
reduces is the difference between what is outstanding and what the schedule asks to be outstanding
after it, rounded to the asset, and cut so that no part exceeds what is outstanding. `round` is
`roundToAsset` for the loan's asset and scale, and `theoretical` the state of the schedule with so many
payments remaining. The assertions are left out; they change nothing.
-/

namespace FalconLedger

/-- `std::max`. -/
def maxNumber (x y : Number) : Number := if Number.lt x y then y else x

/-- `std::min` of three: the first of the smallest. -/
def minOfThree (x y z : Number) : Number := minNumber (minNumber x y) z

/-- `std::clamp`. -/
def clampNumber (x lo hi : Number) : Number :=
  if Number.lt x lo then lo else if Number.lt hi x then hi else x

inductive PaymentSpecialCase
  | none
  | final
  | extra
  deriving DecidableEq

structure PaymentComponents where
  trackedValueDelta : Number
  trackedPrincipalDelta : Number
  trackedManagementFeeDelta : Number
  specialCase : PaymentSpecialCase := .none

structure ExtendedPaymentComponents extends PaymentComponents where
  untrackedManagementFee : Number
  untrackedInterest : Number

structure LoanStateDeltas where
  principal : Number
  interest : Number
  managementFee : Number

variable (env : NumberEnv)

def PaymentComponents.trackedInterestPart (p : PaymentComponents) : Option Number := do
  Number.sub env p.trackedValueDelta
    (← Number.add env p.trackedPrincipalDelta p.trackedManagementFeeDelta)

def constructLoanState (totalValueOutstanding principalOutstanding managementFeeOutstanding : Number) :
    Option LoanState := do
  let interest ← Number.sub env totalValueOutstanding principalOutstanding
  return {
    valueOutstanding := totalValueOutstanding
    principalOutstanding
    interestDue := ← Number.sub env interest managementFeeOutstanding
    managementFeeDue := managementFeeOutstanding }

namespace LoanStateDeltas

def total (d : LoanStateDeltas) : Option Number := do
  Number.add env (← Number.add env d.principal d.interest) d.managementFee

def nonNegative (d : LoanStateDeltas) : LoanStateDeltas where
  principal := if Number.lt d.principal 0 then 0 else d.principal
  interest := if Number.lt d.interest 0 then 0 else d.interest
  managementFee := if Number.lt d.managementFee 0 then 0 else d.managementFee

/-- `operator-` of two states. -/
def ofStates (lhs rhs : LoanState) : Option LoanStateDeltas := do
  return {
    principal := ← Number.sub env lhs.principalOutstanding rhs.principalOutstanding
    interest := ← Number.sub env lhs.interestDue rhs.interestDue
    managementFee := ← Number.sub env lhs.managementFeeDue rhs.managementFeeDue }

/-- `takeFrom`: the component and the excess after it has been reduced by what it has of it. -/
def takeFrom (component excess : Number) : Option (Number × Number) := do
  if Number.lt 0 excess then
    let part := minNumber component excess
    return (← Number.sub env component part, ← Number.sub env excess part)
  else return (component, excess)

/-- Interest is reduced first, then the fee, then the principal. -/
def addressExcess (d : LoanStateDeltas) (excess : Number) : Option LoanStateDeltas := do
  let (interest, excess) ← takeFrom env d.interest excess
  let (managementFee, excess) ← takeFrom env d.managementFee excess
  let (principal, _) ← takeFrom env d.principal excess
  return { principal, interest, managementFee }

end LoanStateDeltas

def roundPeriodicPayment (round : Number → RoundingMode → Option Number) (periodicPayment : Number) :
    Option Number :=
  round periodicPayment .upward

/-- The target of a payment, rounded as the values of a loan are. -/
def roundedTarget (round : Number → RoundingMode → Option Number) (target : LoanState) :
    Option LoanState := do
  return {
    valueOutstanding := ← round target.valueOutstanding env.mode
    principalOutstanding := ← round target.principalOutstanding env.mode
    interestDue := ← round target.interestDue env.mode
    managementFeeDue := ← round target.managementFeeDue env.mode }

/-- Cap each part by what is outstanding, and the later ones by what is left of the payment. -/
def capped (d : LoanStateDeltas) (current : LoanState) (roundedPeriodicPayment : Number) :
    Option LoanStateDeltas := do
  let principal := minNumber d.principal current.principalOutstanding
  let left ← Number.sub env roundedPeriodicPayment principal
  let interest := minOfThree d.interest (maxNumber 0 left) current.interestDue
  let left ← Number.sub env roundedPeriodicPayment (← Number.add env principal interest)
  return {
    principal
    interest
    managementFee := minOfThree d.managementFee left current.managementFeeDue }

def computePaymentComponents (round : Number → RoundingMode → Option Number)
    (theoretical : UInt32 → Option LoanState)
    (totalValueOutstanding principalOutstanding managementFeeOutstanding periodicPayment : Number)
    (paymentRemaining : UInt32) : Option PaymentComponents := do
  let roundedPeriodicPayment ← roundPeriodicPayment round periodicPayment
  if paymentRemaining = 1 ∨ !Number.lt roundedPeriodicPayment totalValueOutstanding then
    return {
      trackedValueDelta := totalValueOutstanding
      trackedPrincipalDelta := principalOutstanding
      trackedManagementFeeDelta := managementFeeOutstanding
      specialCase := .final }
  else
    let target ← roundedTarget env round (← theoretical (paymentRemaining - 1))
    let current ← constructLoanState env totalValueOutstanding principalOutstanding
      managementFeeOutstanding
    let deltas ← LoanStateDeltas.ofStates env current target
    let deltas ← capped env deltas.nonNegative current roundedPeriodicPayment
    let totalOverpayment ← Number.sub env (← deltas.total env) current.valueOutstanding
    let deltas ←
      if Number.lt 0 totalOverpayment then deltas.addressExcess env totalOverpayment else pure deltas
    let shortage ← Number.sub env roundedPeriodicPayment (← deltas.total env)
    let deltas ← if Number.lt shortage 0 then deltas.addressExcess env shortage.neg else pure deltas
    return {
      trackedValueDelta := clampNumber (← deltas.total env) 0 current.valueOutstanding
      trackedPrincipalDelta := clampNumber deltas.principal 0 current.principalOutstanding
      trackedManagementFeeDelta := clampNumber deltas.managementFee 0 current.managementFeeDue }

/-- The balances of a loan after a payment. -/
def balancesAfter (payment : PaymentComponents) (b : LoanBalances) (paymentInterval : UInt32) :
    Option LoanBalances :=
  if payment.specialCase = .final then
    some { b with
      paymentRemaining := 0
      previousPaymentDueDate := b.nextPaymentDueDate
      nextPaymentDueDate := 0
      principalOutstanding := 0
      totalValueOutstanding := 0
      managementFeeOutstanding := 0 }
  else do
    let principalOutstanding ← Number.sub env b.principalOutstanding payment.trackedPrincipalDelta
    let totalValueOutstanding ← Number.sub env b.totalValueOutstanding payment.trackedValueDelta
    let managementFeeOutstanding ←
      Number.sub env b.managementFeeOutstanding payment.trackedManagementFeeDelta
    let b := { b with principalOutstanding, totalValueOutstanding, managementFeeOutstanding }
    -- an overpayment leaves the schedule where it is
    return if payment.specialCase = .extra then b
      else
        { b with
          paymentRemaining := b.paymentRemaining - 1
          previousPaymentDueDate := b.nextPaymentDueDate
          nextPaymentDueDate := b.nextPaymentDueDate + paymentInterval }

def doPayment (payment : ExtendedPaymentComponents) (b : LoanBalances) (paymentInterval : UInt32) :
    Option (LoanBalances × LoanPaymentParts) := do
  let b ← balancesAfter env payment.toPaymentComponents b paymentInterval
  let interest ← payment.trackedInterestPart env
  return (b, {
    principalPaid := payment.trackedPrincipalDelta
    interestPaid := ← Number.add env interest payment.untrackedInterest
    valueChange := payment.untrackedInterest
    feePaid := ← Number.add env payment.trackedManagementFeeDelta payment.untrackedManagementFee })

end FalconLedger
