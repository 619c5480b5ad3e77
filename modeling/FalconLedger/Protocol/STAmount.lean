import FalconLedger.Protocol.Number
import FalconLedger.Protocol.Serializer
import FalconLedger.Protocol.STTx

/-!
# Amounts on the wire

`STAmount`: a native amount is eight bytes, an issued one is followed by currency and issuer, and an
amount of a token puts a byte of flags before the eight bytes and the token after them. Bit 63 of the first
eight bytes tells issued amounts, bit 61 tokens and bit 62 the sign. What throws is `none`.
-/

namespace FalconLedger

open Bytes

namespace Wire

structure STAmount where
  asset : Asset
  value : ℕ
  offset : ℤ
  isNegative : Bool
  deriving DecidableEq

/-- `getSTNumberSwitchover`, and the mode and range of numbers. -/
structure AmountEnv where
  switchover : Bool
  number : NumberEnv
  deriving DecidableEq

namespace STAmount

def kMinOffset : ℤ := -96

def kMaxOffset : ℤ := 80

def kMinValue : ℕ := 1000000000000000

def kMaxValue : ℕ := kMinValue * 10 - 1

def kMaxNativeN : ℕ := 200000000000000000

def kMaxMPTokenAmount : ℕ := 0x7FFFFFFFFFFFFFFF

def kIssuedCurrency : ℕ := 2 ^ 63

def kPositive : ℕ := 2 ^ 62

def kMPToken : ℕ := 2 ^ 61

/-! ### Writing -/

/-- `static_cast<std::uint64_t>(flags) << (64 - 10)` -/
def topBits (flags : ℤ) : ℕ := (flags % 2 ^ 64).toNat * 2 ^ 54 % 2 ^ 64

def add (a : STAmount) : Blob :=
  match a.asset with
  | .mpt id =>
    let u8 := if a.isNegative then kMPToken / 2 ^ 56 else kMPToken / 2 ^ 56 ||| kPositive / 2 ^ 56
    byte u8 :: (toBE 8 a.value ++ toBE 24 id.toNat)
  | .xrp => toBE 8 (if a.isNegative then a.value else a.value ||| kPositive)
  | .issue currency account =>
    let word :=
      if a.value = 0 then kIssuedCurrency
      else if a.isNegative then a.value ||| topBits (a.offset + 512 + 97)
      else a.value ||| topBits (a.offset + 512 + 256 + 97)
    toBE 8 word ++ toBE 20 currency.toNat ++ toBE 20 account.toNat

/-! ### Issued amounts in canonical form -/

/-- The first loop of `canonicalize`. -/
def scaleUp (value : ℕ) (offset : ℤ) : ℕ × ℤ :=
  if value < kMinValue ∧ kMinOffset < offset then scaleUp (value * 10) (offset - 1)
  else (value, offset)
termination_by (offset - kMinOffset).toNat
decreasing_by omega

/-- The second loop. -/
def scaleDown (value : ℕ) (offset : ℤ) : Option (ℕ × ℤ) :=
  if kMaxValue < value then
    if kMaxOffset ≤ offset then none else scaleDown (value / 10) (offset + 1)
  else some (value, offset)
termination_by (kMaxOffset - offset).toNat
decreasing_by omega

/-- The zero of an issued amount. -/
def zeroIssued (a : STAmount) : STAmount := { a with value := 0, offset := -100, isNegative := false }

/-- `*this = iou()`, with `IOUAmount::normalize` by way of `Number`. -/
def viaNumber (env : NumberEnv) (a : STAmount) : Option STAmount :=
  if a.value = 0 then some a.zeroIssued
  else do
    let v ← Number.normalize env a.isNegative a.value a.offset
    -- the range of `fromNumber` is that of the small scale
    let r ← Number.normalize { env with scale := .small } v.negative v.mantissa v.exponent
    if kMaxOffset < r.exponent then none
    else if r.exponent < kMinOffset then some a.zeroIssued
    else some { a with value := r.mantissa, offset := r.exponent, isNegative := r.negative }

/-- `canonicalize`, of an issued amount. -/
def canonicalize (env : AmountEnv) (a : STAmount) : Option STAmount :=
  if env.switchover then a.viaNumber env.number
  else if a.value = 0 then some a.zeroIssued
  else
    let (value, offset) := scaleUp a.value a.offset
    match scaleDown value offset with
    | none => none
    | some (value, offset) =>
      if offset < kMinOffset ∨ value < kMinValue then some a.zeroIssued
      else if kMaxOffset < offset then none
      else some { a with value, offset }

/-! ### Reading -/

/-- The amount that a word without bit 63 and bit 61 stands for. -/
def readNative (value : ℕ) : Option STAmount :=
  if value.testBit 62 then some ⟨.xrp, value % 2 ^ 61, 0, false⟩
  -- negative zero is not canonical
  else if value = 0 then none
  else some ⟨.xrp, value % 2 ^ 61, 0, true⟩

/-- The rest of an amount of a token. The word is shifted by the byte that follows it. -/
def readMPT (value : ℕ) : Parser STAmount :=
  get8.bind fun b => (getBE 24).filterMap fun id =>
    some ⟨.mpt (BitVec.ofNat 192 id), value * 2 ^ 8 % 2 ^ 64 ||| b, 0, !value.testBit 62⟩

/-- The amount of a currency and an issuer that a word stands for. -/
def issued (env : AmountEnv) (asset : Asset) (word : ℕ) : Option STAmount :=
  -- ten bits for the offset, sign and "not native" flag
  let offset := word / 2 ^ 54
  let value := word % 2 ^ 54
  if value ≠ 0 then
    let isNegative := !offset.testBit 8
    let offset : ℤ := (offset % 256 : ℕ) - 97
    if value < kMinValue ∨ kMaxValue < value ∨ offset < kMinOffset ∨ kMaxOffset < offset then none
    else canonicalize env ⟨asset, value, offset, isNegative⟩
  else if offset ≠ 512 then none
  else canonicalize env ⟨asset, 0, 0, false⟩

def readIssued (env : AmountEnv) (word : ℕ) : Parser STAmount :=
  (getBE 20).bind fun currency =>
    if currency = 0 then fun _ => none
    else (getBE 20).filterMap fun account =>
      if account = 0 then none
      else issued env (.issue (BitVec.ofNat 160 currency) (BitVec.ofNat 160 account)) word

/-- `STAmount(SerialIter)` -/
def read (env : AmountEnv) : Parser STAmount :=
  (getBE 8).bind fun value =>
    if ¬value.testBit 63 then
      if value.testBit 61 then readMPT value
      else fun bs => (readNative value).map fun a => (a, bs)
    else readIssued env value

end STAmount

end Wire

end FalconLedger
