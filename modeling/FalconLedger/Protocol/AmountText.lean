import FalconLedger.Data.Numerals
import FalconLedger.Protocol.STAmount
import Mathlib.Data.List.DropRight

/-!
# Amounts as texts

`STAmount::getText` writes the mantissa with the point where it belongs, or with an exponent where there
would be too many zeros; `amountFromString` reads such texts, and the constructor of `STAmount` brings what
is read into canonical form. A text is a list of characters. What throws is `none`.
-/

namespace FalconLedger.Wire

/-! ### Numbers -/

/-- `std::to_string` -/
def decimalText (n : ℕ) : List Char :=
  if n = 0 then ['0'] else (Numeral.numeral 10 n).map Nat.digitChar

def intText (n : ℤ) : List Char :=
  if n < 0 then '-' :: decimalText n.natAbs else decimalText n.natAbs

/-- The number that a text of digits says. -/
def digitsValue (text : List Char) : ℕ := Numeral.value 10 (text.map fun c => c.toNat - 48)

/-- `boost::lexical_cast` of digits, to a type with the numbers below a bound. -/
def lexicalCast (bound : ℕ) (text : List Char) : Option ℕ :=
  if digitsValue text < bound then some (digitsValue text) else none

/-- A text after an optional sign, and whether that is a minus. -/
def afterSign : List Char → Bool × List Char
  | '-' :: text => (true, text)
  | '+' :: text => (false, text)
  | text => (false, text)

structure NumberParts where
  mantissa : ℕ
  exponent : ℤ
  negative : Bool
  deriving DecidableEq

/-- `(\.([0-9]+))?` -/
def readFraction : List Char → Option (List Char × List Char)
  | '.' :: text =>
    if text.takeWhile Char.isDigit = [] then none
    else some (text.takeWhile Char.isDigit, text.dropWhile Char.isDigit)
  | text => some ([], text)

/-- `([eE]([+-]?)([0-9]+))?$` -/
def readExponent : List Char → Option ℤ
  | [] => some 0
  | c :: text =>
    if c = 'e' ∨ c = 'E' then
      let (negative, digits) := afterSign text
      if digits ≠ [] ∧ digits.all Char.isDigit then
        (lexicalCast (2 ^ 31) digits).map fun n : ℕ => if negative then -(n : ℤ) else n
      else none
    else none

/-- `partsFromString` -/
def partsFromString (number : List Char) : Option NumberParts := do
  let (negative, text) := afterSign number
  let whole := text.takeWhile Char.isDigit
  -- no leading zeros, unless 0
  if whole = [] ∨ (whole.head? = some '0' ∧ whole ≠ ['0']) then none
  else do
    let (fraction, text) ← readFraction (text.dropWhile Char.isDigit)
    let exponent ← readExponent text
    let mantissa ← lexicalCast (2 ^ 64) (whole ++ fraction)
    return ⟨mantissa, -fraction.length + exponent, negative⟩

namespace STAmount

/-! ### The constructor -/

/-- `integral()` -/
def integral (asset : Asset) : Bool :=
  match asset with
  | .xrp => true
  | .mpt _ => true
  | .issue _ _ => false

/-- The second loop of `canonicalize` for amounts without fraction. -/
def raise (most : ℕ) : ℕ → ℕ → Option ℕ
  | 0, value => some value
  | n + 1, value => if most < value then none else raise most n (value * 10 % 2 ^ 64)

/-- `canonicalize`, of a native amount or one of a token. -/
def canonicalizeIntegral (env : AmountEnv) (most : ℕ) (maxOffset : ℤ) (a : STAmount) :
    Option STAmount :=
  if a.value = 0 ∨ a.offset ≤ -20 then some { a with value := 0, offset := 0, isNegative := false }
  else if maxOffset < a.offset then none
  else do
    let a ←
      if env.switchover then
        (Number.toRep env.number ⟨a.isNegative, a.value, a.offset⟩).map fun val =>
          { a with value := val.natAbs, offset := 0, isNegative := decide (val < 0) }
      else
        (raise most a.offset.toNat (a.value / 10 ^ (-a.offset).toNat)).map fun value =>
          { a with value, offset := 0 }
    if most < a.value then none else return a

/-- `STAmount(asset, mantissa, exponent, negative)` -/
def construct (env : AmountEnv) (a : STAmount) : Option STAmount :=
  match a.asset with
  | .xrp => canonicalizeIntegral env kMaxNativeN 17 a
  | .mpt _ => canonicalizeIntegral env kMaxMPTokenAmount 18 a
  | .issue _ _ => canonicalize env a

/-! ### Texts -/

/-- `getText` -/
def getText (a : STAmount) : List Char :=
  if a.value = 0 then ['0']
  else
    let rawValue := decimalText a.value
    let sign := if a.isNegative then ['-'] else []
    let scientific := a.offset ≠ 0 ∧ (a.offset < -25 ∨ -5 < a.offset)
    if integral a.asset ∨ scientific then
      sign ++ rawValue ++ if scientific then 'e' :: intText a.offset else []
    else
      let padPrefix := 27
      let padSuffix := 23
      let val := List.replicate padPrefix '0' ++ rawValue ++ List.replicate padSuffix '0'
      let offset := (a.offset + 43).toNat
      let pre := val.take offset
      let post := val.drop offset
      let pre := (if padPrefix < pre.length then pre.drop padPrefix else pre).dropWhile (· = '0')
      let post :=
        (if padSuffix < post.length then post.take (post.length - padSuffix) else post).rdropWhile (· = '0')
      sign ++ (if pre = [] then ['0'] else pre) ++ if post = [] then [] else '.' :: post

/-- `amountFromString` -/
def amountFromString (env : AmountEnv) (asset : Asset) (amount : List Char) : Option STAmount := do
  let parts ← partsFromString amount
  if integral asset ∧ parts.exponent < 0 then none
  else construct env ⟨asset, parts.mantissa, parts.exponent, parts.negative⟩

end STAmount

end FalconLedger.Wire
