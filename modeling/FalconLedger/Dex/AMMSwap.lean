import FalconLedger.Protocol.IOUAmount

/-!
# Swapping against a pool

`swapAssetIn` and `swapAssetOut` of `AMMHelpers.h`, with the rounding mode of every operation written
out. They are templates over the types of the two amounts, which an `AmountType` describes, and use
`Number` by the operations of an `Arithmetic`. What throws is `none`.
-/

namespace FalconLedger.AMM

/-- `Number` and `IOUAmount`, as far as swaps use them. An operation is given the rounding mode. -/
structure Arithmetic (N I : Type) where
  ofInt : RoundingMode → ℤ → Option N
  add : RoundingMode → N → N → Option N
  sub : RoundingMode → N → N → Option N
  mul : RoundingMode → N → N → Option N
  div : RoundingMode → N → N → Option N
  signum : N → ℤ
  /-- `operator rep` -/
  toRep : RoundingMode → N → Option ℤ
  /-- `IOUAmount::operator Number` -/
  ofIOU : RoundingMode → I → Option N
  /-- `IOUAmount(Number)` -/
  toIOU : RoundingMode → N → Option I
  negIOU : I → I
  signumIOU : I → ℤ
  zeroIOU : I
  minPositiveIOU : I
  maxIOU : I

/-- What the templates ask of the type of an amount. -/
structure AmountType (N T : Type) where
  toNumber : RoundingMode → T → Option N
  sub : RoundingMode → T → T → Option T
  signum : T → ℤ
  /-- `toAmount`, by the mode in force and the one that it is given -/
  toAmount : RoundingMode → RoundingMode → N → Option T
  zero : T
  toMaxAmount : T

structure TAmounts (TIn TOut : Type) where
  amountIn : TIn
  amountOut : TOut

namespace Arithmetic

variable {N I : Type} (A : Arithmetic N I)

/-- `IOUAmount::operator-=`, with the switchover that pools require. -/
def subIOU [DecidableEq I] (mode : RoundingMode) (x y : I) : Option I :=
  if y = A.zeroIOU then some x
  else if x = A.zeroIOU then some (A.negIOU y)
  else do A.toIOU mode (← A.add mode (← A.ofIOU mode x) (← A.ofIOU mode (A.negIOU y)))

/-- `XRPAmount`, in drops. -/
def xrpAmount : AmountType N ℤ where
  toNumber := A.ofInt
  sub _ x y := some (x - y)
  signum := Int.sign
  toAmount _ mode n := A.toRep mode n
  zero := 0
  toMaxAmount := Wire.STAmount.kMaxNativeN

/-- `MPTAmount`. Only XRP is converted with the mode that `toAmount` is given. -/
def mptAmount : AmountType N ℤ where
  toNumber := A.ofInt
  sub _ x y := some (x - y)
  signum := Int.sign
  toAmount getround _ n := A.toRep getround n
  zero := 0
  toMaxAmount := Wire.STAmount.kMaxMPTokenAmount

def iouAmount [DecidableEq I] : AmountType N I where
  toNumber := A.ofIOU
  sub := A.subIOU
  signum := A.signumIOU
  toAmount getround _ n := A.toIOU getround n
  zero := A.zeroIOU
  toMaxAmount := A.maxIOU

def kAuctionSlotFeeScaleFactor : ℤ := 100000

def getFee (mode : RoundingMode) (tfee : ℕ) : Option N := do
  A.div mode (← A.ofInt mode tfee) (← A.ofInt mode kAuctionSlotFeeScaleFactor)

def feeMult (mode : RoundingMode) (tfee : ℕ) : Option N := do
  A.sub mode (← A.ofInt mode 1) (← A.getFee mode tfee)

variable {TIn TOut : Type} (inType : AmountType N TIn) (outType : AmountType N TOut)

/-- `swapAssetIn`; `getround` is the rounding mode of the caller. -/
def swapAssetIn (fixAMMv1_1 : Bool) (getround : RoundingMode) (pool : TAmounts TIn TOut)
    (assetIn : TIn) (tfee : ℕ) : Option TOut :=
  if fixAMMv1_1 then do
    let numerator ← A.mul .upward (← inType.toNumber .upward pool.amountIn)
      (← outType.toNumber .upward pool.amountOut)
    let fee ← A.getFee .upward tfee
    let rest ← A.sub .downward (← A.ofInt .downward 1) fee
    let denom ← A.add .downward (← inType.toNumber .downward pool.amountIn)
      (← A.mul .downward (← inType.toNumber .downward assetIn) rest)
    if A.signum denom ≤ 0 then some outType.zero
    else do
      let ratio ← A.div .upward numerator denom
      let swapOut ← A.sub .downward (← outType.toNumber .downward pool.amountOut) ratio
      if A.signum swapOut < 0 then some outType.zero
      else outType.toAmount .downward .downward swapOut
  else do
    let product ← A.mul getround (← inType.toNumber getround pool.amountIn)
      (← outType.toNumber getround pool.amountOut)
    let paid ← A.mul getround (← inType.toNumber getround assetIn) (← A.feeMult getround tfee)
    let denom ← A.add getround (← inType.toNumber getround pool.amountIn) paid
    let swapOut ← A.sub getround (← outType.toNumber getround pool.amountOut)
      (← A.div getround product denom)
    outType.toAmount getround .downward swapOut

/-- `swapAssetOut`. -/
def swapAssetOut (fixAMMv1_1 : Bool) (getround : RoundingMode) (pool : TAmounts TIn TOut)
    (assetOut : TOut) (tfee : ℕ) : Option TIn :=
  if fixAMMv1_1 then do
    let numerator ← A.mul .upward (← inType.toNumber .upward pool.amountIn)
      (← outType.toNumber .upward pool.amountOut)
    let denom ← outType.sub .downward pool.amountOut assetOut
    if outType.signum denom ≤ 0 then some inType.toMaxAmount
    else do
      -- the divisor is an amount, and becomes a number in the mode of the division
      let ratio ← A.div .upward numerator (← outType.toNumber .upward denom)
      let numerator2 ← A.sub .upward ratio (← inType.toNumber .upward pool.amountIn)
      let fee ← A.getFee .upward tfee
      let feeMult ← A.sub .downward (← A.ofInt .downward 1) fee
      let swapIn ← A.div .upward numerator2 feeMult
      if A.signum swapIn < 0 then some inType.zero
      else inType.toAmount .upward .upward swapIn
  else do
    let product ← A.mul getround (← inType.toNumber getround pool.amountIn)
      (← outType.toNumber getround pool.amountOut)
    let denom ← outType.sub getround pool.amountOut assetOut
    let ratio ← A.div getround product (← outType.toNumber getround denom)
    let numerator ← A.sub getround ratio (← inType.toNumber getround pool.amountIn)
    inType.toAmount getround .upward (← A.div getround numerator (← A.feeMult getround tfee))

end Arithmetic

/-! ### The numbers of the ledger -/

/-- The operations of `Number`, with mantissas of the scale. -/
def numbers (scale : MantissaScale) : Arithmetic Number IOUAmount where
  ofInt mode n := Number.ofInt ⟨mode, scale⟩ n
  add mode x y := Number.add ⟨mode, scale⟩ x y
  sub mode x y := Number.sub ⟨mode, scale⟩ x y
  mul mode x y := Number.mul ⟨mode, scale⟩ x y
  div mode x y := Number.div ⟨mode, scale⟩ x y
  signum x := if x.mantissa = 0 then 0 else if x.negative then -1 else 1
  toRep mode x := Number.toRep ⟨mode, scale⟩ x
  ofIOU mode a :=
    Number.normalize ⟨mode, scale⟩ (decide (a.mantissa < 0)) a.mantissa.natAbs a.exponent
  toIOU mode x := IOUAmount.ofNumber mode x
  negIOU a := ⟨-a.mantissa, a.exponent⟩
  signumIOU a := a.mantissa.sign
  zeroIOU := IOUAmount.zero
  minPositiveIOU := IOUAmount.minPositiveAmount
  maxIOU := ⟨Wire.STAmount.kMaxValue, Wire.STAmount.kMaxOffset⟩

end FalconLedger.AMM
