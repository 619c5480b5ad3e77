import Mathlib.Algebra.Order.Field.Basic

/-!
# The formulas for a single asset of a pool

What a deposit or a withdrawal of one asset of an AMM is worth in its tokens, and back: equations 3, 4,
7 and 8 of `AMMHelpers.cpp`. The arithmetic and the square root are parameters. A division by zero and
a root that cannot be taken throw, which is `none`.
-/

namespace FalconLedger.AMM

variable {K : Type*} [Field K] [DecidableEq K] (root2 : K → Option K)

/-- `operator/`, which throws for a divisor of zero. -/
def divide (x y : K) : Option K := if y = 0 then none else some (x / y)

/-- `feeMult` and `feeMultHalf`, of the fee as a fraction. -/
def feeMult (tfee : K) : K := 1 - tfee

def feeMultHalf (tfee : K) : K := 1 - tfee / 2

/-- Equation 3: the tokens for a deposit of one asset. -/
def lpTokensOut (fixAMMv1_3 : Bool) (asset1Balance asset1Deposit lptAMMBalance tfee : K) :
    Option K := do
  let f1 := feeMult tfee
  let f2 ← divide (feeMultHalf tfee) f1
  let r ← divide asset1Deposit asset1Balance
  let rf ← divide r f1
  let root ← root2 (f2 * f2 + rf)
  let c := root - f2
  if fixAMMv1_3 then
    let frac ← divide (r - c) (1 + c)
    return lptAMMBalance * frac
  else divide (lptAMMBalance * (r - c)) (1 + c)

def solveQuadraticEq (a b c : K) : Option K := do
  let root ← root2 (b * b - 4 * a * c)
  divide (-b + root) (2 * a)

/-- Equation 4: the deposit that is worth a number of tokens. -/
def ammAssetIn (asset1Balance lptAMMBalance lpTokens tfee : K) : Option K := do
  let f1 := feeMult tfee
  let f2 ← divide (feeMultHalf tfee) f1
  let t1 ← divide lpTokens lptAMMBalance
  let t2 := 1 + t1
  let q ← divide t1 t2
  let d := f2 - q
  let a ← divide 1 (t2 * t2)
  let bq ← divide (2 * d) t2
  let bf ← divide 1 f1
  let frac ← solveQuadraticEq root2 a (bq - bf) (d * d - f2 * f2)
  -- with `fixAMMv1_3` the product is rounded another way, and nothing else
  return asset1Balance * frac

/-- Equation 7: the tokens for a withdrawal of one asset. -/
def lpTokensIn (fixAMMv1_3 : Bool) (asset1Balance asset1Withdraw lptAMMBalance tfee : K) :
    Option K := do
  let fr ← divide asset1Withdraw asset1Balance
  let c := fr * tfee + 2 - tfee
  let root ← root2 (c * c - 4 * fr)
  if fixAMMv1_3 then
    let frac ← divide (c - root) 2
    return lptAMMBalance * frac
  else divide (lptAMMBalance * (c - root)) 2

/-- Equation 8: the withdrawal that takes a number of tokens. -/
def ammAssetOut (fixAMMv1_3 : Bool) (assetBalance lptAMMBalance lpTokens tfee : K) : Option K := do
  let t1 ← divide lpTokens lptAMMBalance
  if fixAMMv1_3 then
    let frac ← divide (t1 * t1 - t1 * (2 - tfee)) (t1 * tfee - 1)
    return assetBalance * frac
  else divide (assetBalance * (t1 * t1 - t1 * (2 - tfee))) (t1 * tfee - 1)

/-- `divide` does not throw for a divisor other than zero. -/
theorem divide_eq {x y : K} (h : y ≠ 0) : divide x y = some (x / y) := if_neg h

end FalconLedger.AMM
