import FalconLedger.Protocol.STAmount

/-!
# Issued amounts

`IOUAmount`: a mantissa of sixteen digits with a sign, and an exponent; and `mulRatio`, which multiplies one
by a fraction. The tables of `mulRatio` are asked with the index the source computes, and what would be
out of range is a fault of its own.
-/

namespace FalconLedger

open Wire (AmountEnv STAmount)

structure IOUAmount where
  mantissa : ℤ
  exponent : ℤ
  deriving DecidableEq

namespace IOUAmount

def zero : IOUAmount := ⟨0, -100⟩

def minPositiveAmount : IOUAmount := ⟨STAmount.kMinValue, STAmount.kMinOffset⟩

/-- The value of an amount. -/
def value (a : IOUAmount) : ℚ := a.mantissa * 10 ^ a.exponent

/-- An amount of a magnitude. -/
def signed (negative : Bool) (mantissa : ℕ) (exponent : ℤ) : IOUAmount :=
  ⟨if negative then -(mantissa : ℤ) else mantissa, exponent⟩

/-- `IOUAmount(Number)`. The range of `fromNumber` is that of the small scale. -/
def ofNumber (mode : RoundingMode) (x : Number) : Option IOUAmount := do
  let r ← Number.normalize ⟨mode, .small⟩ x.negative x.mantissa x.exponent
  if STAmount.kMaxOffset < r.exponent then none
  else if r.exponent < STAmount.kMinOffset then some zero
  else some (signed r.negative r.mantissa r.exponent)

/-- `IOUAmount(mantissa, exponent)`, which normalizes. -/
def ofParts (env : AmountEnv) (mantissa exponent : ℤ) : Option IOUAmount :=
  let negative := decide (mantissa < 0)
  if mantissa = 0 then some zero
  else if env.switchover then do
    let v ← Number.normalize env.number negative mantissa.natAbs exponent
    ofNumber env.number.mode v
  else do
    let (m, e) := STAmount.scaleUp mantissa.natAbs exponent
    let r ← STAmount.scaleDown m e
    if r.2 < STAmount.kMinOffset ∨ r.1 < STAmount.kMinValue then some zero
    else if STAmount.kMaxOffset < r.2 then none
    else some (signed negative r.1 r.2)

/-! ### Multiplication by a fraction -/

/-- What stops `mulRatio`. -/
inductive Fault
  | divisionByZero
  | overflow
  | outOfRange
  deriving DecidableEq

/-- `kPOWER_TABLE`: the powers of ten. -/
def kPowerTable : List ℕ := (List.range 30).map (10 ^ ·)

/-- The index of the first power that is not less. -/
def lowerBound (v : ℕ) : ℕ := kPowerTable.findIdx fun p => decide (v ≤ p)

def log10Ceil (v : ℕ) : ℕ := lowerBound v

/-- `kLOG10_FLOOR`, which is asked for one value only. -/
def log10Floor (v : ℕ) : ℕ :=
  if kPowerTable[lowerBound v]? = some v then lowerBound v else lowerBound v - 1

def kFl64 : ℕ := log10Floor Number.kMaxRep

def power (i : ℕ) : Except Fault ℕ :=
  match kPowerTable[i]? with
  | some p => .ok p
  | none => .error .outOfRange

/-- The quotient is given as many more digits as there is room for. -/
def grow (den low rem : ℕ) (exponent : ℤ) : Except Fault (ℕ × ℕ × ℤ) :=
  if rem = 0 then .ok (low, rem, exponent)
  else do
    let (low, rem, exponent) ←
      if log10Ceil low < kFl64 then do
        let p ← power (kFl64 - log10Ceil low)
        pure (low * p, rem * p, exponent - ((kFl64 - log10Ceil low : ℕ) : ℤ))
      else pure (low, rem, exponent)
    let addRem := rem / den
    pure (low + addRem, rem - addRem * den, exponent)

/-- A quotient that may not fit in 64 bits is cut. -/
def shrink (low : ℕ) (hasRem : Bool) (exponent : ℤ) : Except Fault (ℕ × Bool × ℤ) :=
  if kFl64 < log10Ceil low then do
    let p ← power (log10Ceil low - kFl64)
    pure (low / p, hasRem || decide (low - low / p * p ≠ 0),
      exponent + ((log10Ceil low - kFl64 : ℕ) : ℤ))
  else pure (low, hasRem, exponent)

/-- `convert_to<std::int64_t>` -/
def toInt64 (low : ℕ) : Except Fault ℕ :=
  if Number.kMaxRep < low then .error .outOfRange else .ok low

def orOverflow : Option IOUAmount → Except Fault IOUAmount
  | some a => .ok a
  | none => .error .overflow

/-- The last step: a quotient with a remainder is moved away from zero. -/
def roundAway (env : AmountEnv) (result : IOUAmount) (hasRem neg roundUp : Bool) :
    Except Fault IOUAmount :=
  if hasRem && roundUp && !neg then
    if result.mantissa = 0 then .ok minPositiveAmount
    else orOverflow (ofParts env (result.mantissa + 1) result.exponent)
  else if hasRem && !roundUp && neg then
    if result.mantissa = 0 then
      orOverflow (ofParts env (-(STAmount.kMinValue : ℤ)) STAmount.kMinOffset)
    else orOverflow (ofParts env (result.mantissa - 1) result.exponent)
  else .ok result

def mulRatio (env : AmountEnv) (amt : IOUAmount) (num den : UInt32) (roundUp : Bool) :
    Except Fault IOUAmount :=
  if den = 0 then .error .divisionByZero
  else do
    let neg := decide (amt.mantissa < 0)
    let mul := amt.mantissa.natAbs * num.toNat
    let low := mul / den.toNat
    let (low, rem, exponent) ← grow den.toNat low (mul - low * den.toNat) amt.exponent
    let (low, hasRem, exponent) ← shrink low (decide (rem ≠ 0)) exponent
    let mantissa ← toInt64 low
    let result ← orOverflow (ofParts env (if neg then -(mantissa : ℤ) else mantissa) exponent)
    roundAway env result hasRem neg roundUp

end IOUAmount

end FalconLedger
