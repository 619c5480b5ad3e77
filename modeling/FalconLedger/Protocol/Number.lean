import Mathlib.Algebra.Order.Field.Power

/-!
# Decimal floating point

A sign, a mantissa of a fixed number of decimal digits and an exponent. A longer result is rounded
by way of a `Guard`, which keeps the digits that were shifted out. The rounding mode and the size of
the mantissa, thread-local in the source, are a `NumberEnv` here; `none` is the
`std::overflow_error` an operation throws. The loops are recursions on a bound of their rounds.
-/

namespace FalconLedger

/-- `MantissaRange::MantissaScale`. -/
inductive MantissaScale
  | small
  | large
  deriving DecidableEq

namespace MantissaScale

/-- `MantissaRange::log`. -/
def log : MantissaScale → ℕ
  | small => 15
  | large => 18

/-- The least mantissa of a normalized number. -/
def min (scale : MantissaScale) : ℕ := 10 ^ scale.log

/-- The greatest mantissa of a normalized number. -/
def max (scale : MantissaScale) : ℕ := scale.min * 10 - 1

end MantissaScale

/-- `Number::RoundingMode`. -/
inductive RoundingMode
  | toNearest
  | towardsZero
  | downward
  | upward
  deriving DecidableEq

/-- `Number::mode` and `Number::kRANGE`. -/
structure NumberEnv where
  mode : RoundingMode
  scale : MantissaScale
  deriving DecidableEq

structure Number where
  negative : Bool
  mantissa : ℕ
  exponent : ℤ
  deriving DecidableEq

namespace Number

def kMinExponent : ℤ := -32768

def kMaxExponent : ℤ := 32768

/-- The largest `std::int64_t`. -/
def kMaxRep : ℕ := 9223372036854775807

/-- `Number{}`. -/
def zero : Number := ⟨false, 0, -2147483648⟩

instance : Zero Number := ⟨zero⟩

/-! ### Guard digits -/

/-- `Number::Guard`: sixteen digits, four bits each, whether a digit other than `0` has been lost
behind them, and the sign. -/
structure Guard where
  digits : ℕ := 0
  xbit : Bool := false
  sbit : Bool

namespace Guard

def push (g : Guard) (d : ℕ) : Guard :=
  { g with
    digits := g.digits / 16 + d % 16 * 16 ^ 15
    xbit := g.xbit || g.digits % 16 != 0 }

/-- The first digit. -/
def top (g : Guard) : ℕ := g.digits / 16 ^ 15

/-- What is left after the first digit is taken back. -/
def pop (g : Guard) : Guard := { g with digits := g.digits * 16 % 16 ^ 16 }

/-- `1` to round the mantissa away from zero, `-1` to leave it, `0` to decide by its last bit. -/
def round (mode : RoundingMode) (g : Guard) : ℤ :=
  match mode with
  | .towardsZero => -1
  | .downward => if g.sbit && (0 < g.digits || g.xbit) then 1 else -1
  | .upward => if !g.sbit && (0 < g.digits || g.xbit) then 1 else -1
  | .toNearest =>
    if 5 * 16 ^ 15 < g.digits then 1
    else if g.digits < 5 * 16 ^ 15 then -1
    else if g.xbit then 1
    else 0

/-- Whether the mantissa moves by one. -/
def rounds (mode : RoundingMode) (g : Guard) (mantissa : ℕ) : Bool :=
  g.round mode = 1 || (g.round mode = 0 && mantissa % 2 = 1)

/-- At most one digit is missing after rounding. -/
def bringIntoRange (env : NumberEnv) (negative : Bool) (mantissa : ℕ) (exponent : ℤ) : Number :=
  let (mantissa, exponent) :=
    if mantissa < env.scale.min then (mantissa * 10, exponent - 1) else (mantissa, exponent)
  if exponent < kMinExponent then zero else ⟨negative, mantissa, exponent⟩

def doRoundUp (env : NumberEnv) (g : Guard) (negative : Bool) (mantissa : ℕ) (exponent : ℤ) :
    Option Number :=
  let (mantissa, exponent) :=
    if g.rounds env.mode mantissa then
      if env.scale.max < mantissa + 1 ∨ kMaxRep < mantissa + 1 then
        ((mantissa + 1) / 10, exponent + 1)
      else (mantissa + 1, exponent)
    else (mantissa, exponent)
  let result := bringIntoRange env negative mantissa exponent
  if kMaxExponent < result.exponent then none else some result

def doRoundDown (env : NumberEnv) (g : Guard) (negative : Bool) (mantissa : ℕ) (exponent : ℤ) :
    Number :=
  let (mantissa, exponent) :=
    if g.rounds env.mode mantissa then
      if mantissa - 1 < env.scale.min then ((mantissa - 1) * 10, exponent - 1)
      else (mantissa - 1, exponent)
    else (mantissa, exponent)
  bringIntoRange env negative mantissa exponent

end Guard

/-! ### Normal form -/

/-- The number of decimal digits of a 128-bit number. -/
def digitsMax : ℕ := 39

/-- Add digits while the mantissa is short of them. -/
def scaleUp (least : ℕ) : ℕ → ℕ → ℤ → ℕ × ℤ
  | 0, m, e => (m, e)
  | n + 1, m, e => if m < least ∧ kMinExponent < e then scaleUp least n (m * 10) (e - 1) else (m, e)

/-- Shift digits out while the mantissa has too many. -/
def scaleDown (most : ℕ) : ℕ → ℕ → ℤ → Guard → ℕ × ℤ × Guard
  | 0, m, e, g => (m, e, g)
  | n + 1, m, e, g =>
    if most < m then scaleDown most n (m / 10) (e + 1) (g.push (m % 10)) else (m, e, g)

/-- `doNormalize`. The exponent at which the second loop throws is not reached sooner than its
result shows. -/
def normalize (env : NumberEnv) (negative : Bool) (mantissa : ℕ) (exponent : ℤ) : Option Number :=
  if mantissa = 0 then some zero
  else
    let (m, e) := scaleUp env.scale.min digitsMax mantissa exponent
    let (m, e, g) := scaleDown env.scale.max digitsMax m e { sbit := negative }
    if kMaxExponent < e then none
    else if e < kMinExponent ∨ m < env.scale.min then some zero
    else if kMaxRep < m then
      if kMaxExponent ≤ e then none
      else (g.push (m % 10)).doRoundUp env negative (m / 10) (e + 1)
    else g.doRoundUp env negative m e

/-- `Number(rep)`. -/
def ofInt (env : NumberEnv) (n : ℤ) : Option Number := normalize env (decide (n < 0)) n.natAbs 0

/-! ### Order -/

def lt (x y : Number) : Bool :=
  if x.negative ≠ y.negative then x.negative
  else if x.mantissa = 0 then 0 < y.mantissa
  else if y.mantissa = 0 then false
  else if y.exponent < x.exponent then x.negative
  else if x.exponent < y.exponent then !x.negative
  else x.mantissa < y.mantissa

/-! ### Arithmetic -/

def neg (x : Number) : Number :=
  if x.mantissa = 0 then zero else { x with negative := !x.negative }

/-- Shift `n` digits of a mantissa into the guard. -/
def shiftRight : ℕ → ℕ → Guard → ℕ × Guard
  | 0, m, g => (m, g)
  | n + 1, m, g => shiftRight n (m / 10) (g.push (m % 10))

/-- Give the difference of two mantissas its digits back. -/
def restore (least : ℕ) : ℕ → ℕ → ℤ → Guard → ℕ × ℤ × Guard
  | 0, m, e, g => (m, e, g)
  | n + 1, m, e, g =>
    if m < least ∧ m * 10 ≤ kMaxRep then restore least n (m * 10 - g.top) (e - 1) g.pop
    else (m, e, g)

/-- The sum of two mantissas of one sign. -/
def addSame (env : NumberEnv) (negative : Bool) (xm ym : ℕ) (e : ℤ) (g : Guard) : Option Number :=
  let sum := xm + ym
  if env.scale.max < sum ∨ kMaxRep < sum then
    (g.push (sum % 10)).doRoundUp env negative (sum / 10) (e + 1)
  else g.doRoundUp env negative sum e

/-- The difference of two mantissas of unlike sign; the larger one gives the sign. -/
def addOpposite (env : NumberEnv) (xn yn : Bool) (xm ym : ℕ) (e : ℤ) (g : Guard) : Number :=
  let (negative, m) := if ym < xm then (xn, xm - ym) else (yn, ym - xm)
  let (m, e, g) := restore env.scale.min digitsMax m e g
  g.doRoundDown env negative m e

/-- The mantissas at the larger of the two exponents. -/
def align (x y : Number) : ℕ × ℕ × ℤ × Guard :=
  if x.exponent < y.exponent then
    let (m, g) := shiftRight (y.exponent - x.exponent).toNat x.mantissa { sbit := x.negative }
    (m, y.mantissa, y.exponent, g)
  else if y.exponent < x.exponent then
    let (m, g) := shiftRight (x.exponent - y.exponent).toNat y.mantissa { sbit := y.negative }
    (x.mantissa, m, x.exponent, g)
  else (x.mantissa, y.mantissa, x.exponent, { sbit := false })

/-- `operator+=`. -/
def add (env : NumberEnv) (x y : Number) : Option Number :=
  if y = zero then some x
  else if x = zero then some y
  else if x = neg y then some zero
  else
    let (xm, ym, e, g) := align x y
    let sum :=
      if x.negative = y.negative then addSame env x.negative xm ym e g
      else some (addOpposite env x.negative y.negative xm ym e g)
    sum.bind fun z => normalize env z.negative z.mantissa z.exponent

/-- `operator-=`. -/
def sub (env : NumberEnv) (x y : Number) : Option Number := add env x (neg y)

/-- `operator*=`. -/
def mul (env : NumberEnv) (x y : Number) : Option Number :=
  if x = zero then some x
  else if y = zero then some y
  else
    let negative := x.negative != y.negative
    let (m, e, g) := scaleDown (min env.scale.max kMaxRep) digitsMax (x.mantissa * y.mantissa)
      (x.exponent + y.exponent) { sbit := negative }
    (g.doRoundUp env negative m e).bind fun z => normalize env z.negative z.mantissa z.exponent

/-- The power of ten a dividend is multiplied by. -/
def divShift : MantissaScale → ℕ
  | .small => 17
  | .large => 19

/-- `operator/=`. For the large mantissa a quotient that does not come out even is computed to
three more digits, which are only rounded with. -/
def div (env : NumberEnv) (x y : Number) : Option Number :=
  if y = zero then none
  else if x = zero then some x
  else
    let numerator := x.mantissa * 10 ^ divShift env.scale
    let quotient := numerator / y.mantissa
    let remainder := numerator % y.mantissa
    let e := x.exponent - y.exponent - divShift env.scale
    let negative := x.negative != y.negative
    if env.scale = .large ∧ remainder ≠ 0 then
      normalize env negative (quotient * 1000 + remainder * 1000 / y.mantissa) (e - 3)
    else normalize env negative quotient e

/-! ### Conversion to an integer -/

/-- The mantissa and exponent as callers see them: a mantissa that is no `std::int64_t` ends in a
`0`, which goes to the exponent. -/
def external (x : Number) : ℕ × ℤ :=
  if kMaxRep < x.mantissa then (x.mantissa / 10, x.exponent + 1) else (x.mantissa, x.exponent)

/-- `operator rep`. -/
def toRep (env : NumberEnv) (x : Number) : Option ℤ :=
  if x.mantissa = 0 then some 0
  else
    let (m, e) := external x
    let (m, g) := shiftRight (-e).toNat m { sbit := x.negative }
    -- the loop gives up before a step that would leave the range
    if 0 < e ∧ kMaxRep / 10 < m * 10 ^ (e - 1).toNat then none
    else
      let m := m * 10 ^ e.toNat
      if g.rounds env.mode m then
        if kMaxRep ≤ m then none
        else some (if x.negative then -(m + 1 : ℕ) else (m + 1 : ℕ))
      else some (if x.negative then -(m : ℤ) else m)

/-- Drop the digits behind the point. -/
def truncate (env : NumberEnv) (x : Number) : Option Number :=
  if 0 ≤ x.exponent ∨ x.mantissa = 0 then some x
  else normalize env x.negative (x.mantissa / 10 ^ (-x.exponent).toNat) 0

end Number

end FalconLedger
