import FalconLedger.Data.Bytes
import FalconLedger.Data.Numerals
import FalconLedger.Protocol.PublicKey

/-!
# Base 58

The text form of keys, seeds and accounts (`tokens.cpp`): a token is put between its type and a
checksum, and these bytes are read as a number, written in base 58; leading zeros are kept one by one.
`RefCodec` is the reference codec (`b58_ref`), digit by digit; `FastCodec` is the one in use
(`b58_fast`), by way of base 58^10 and base 2^64. Strings are lists of bytes. A fixed array is a list
of that length, and an access beyond it is a fault of its own (`outOfRange`).
-/

namespace FalconLedger

namespace Base58

inductive TokenType
  | none
  | nodePublic
  | nodePrivate
  | accountID
  | accountPublic
  | accountSecret
  | familyGenerator
  | familySeed
  deriving DecidableEq

def TokenType.toByte : TokenType → UInt8
  | .none => 1
  | .nodePublic => 28
  | .nodePrivate => 32
  | .accountID => 0
  | .accountPublic => 35
  | .accountSecret => 34
  | .familyGenerator => 41
  | .familySeed => 33

inductive TokenCodecErrc
  | inputTooLarge
  | inputTooSmall
  | badB58Character
  | outputTooSmall
  | mismatchedTokenType
  | mismatchedChecksum
  | invalidEncodingChar
  | overflowAdd
  | unknown
  deriving DecidableEq

/-- An error of the codec, or an access beyond an array. -/
inductive Fault
  | code (c : TokenCodecErrc)
  | outOfRange
  deriving DecidableEq

def kAlphabetForward : Blob :=
  ['r', 'p', 's', 'h', 'n', 'a', 'f', '3', '9', 'w', 'B', 'U', 'D', 'N', 'E', 'G', 'H', 'J', 'K',
    'L', 'M', '4', 'P', 'Q', 'R', 'S', 'T', '7', 'V', 'W', 'X', 'Y', 'Z', '2', 'b', 'c', 'd', 'e',
    'C', 'g', '6', '5', 'j', 'k', 'm', '8', 'o', 'F', 'q', 'i', '1', 't', 'u', 'v', 'A', 'x', 'y',
    'z'].map fun c => c.toUInt8

/-- The digit that a character stands for. -/
def kAlphabetReverse (c : UInt8) : Option ℕ := kAlphabetForward.idxOf? c

/-- The character of a digit. -/
def forward (digit : ℕ) : UInt8 := kAlphabetForward.getD digit 0

/-- Bytes as digits in base 256, and back. -/
def digits (s : Blob) : List ℕ := s.map UInt8.toNat

def bytes (ds : List ℕ) : Blob := ds.map UInt8.ofNat

/-- How many of the first elements are zero. -/
def countLeadingZeros (zero : UInt8) (s : Blob) : ℕ := (s.takeWhile fun c => c = zero).length

/-- A checksum is four bytes. -/
abbrev Checksum := Blob → { s : Blob // s.length = 4 }

/-- `<type><token><checksum>`. -/
def layout (checksum : Checksum) (type : TokenType) (token : Blob) : Blob :=
  (type.toByte :: token) ++ (checksum (type.toByte :: token)).val

/-! ### The reference codec -/

namespace RefCodec

/-- Digits of a fixed number, least significant first, after `acc = acc * m + digit` for each digit. -/
def convert (b m : ℕ) (size : ℕ) (ds : List ℕ) : List ℕ :=
  ds.foldl (fun acc x => (Numeral.mulAdd b m x acc).1) (List.replicate size 0)

/-- `detail::encodeBase58`. -/
def encodeBase58 (message : Blob) (tempSize : ℕ) : Blob :=
  let zeroes := countLeadingZeros 0 message
  let b58 := (convert 58 256 tempSize (digits (message.drop zeroes))).reverse
  List.replicate zeroes (forward 0) ++ (Numeral.strip b58).map forward

/-- `detail::decodeBase58`; a string that is none decodes to the empty string. -/
def decodeBase58 (s : Blob) : Blob :=
  let zeroes := (s.takeWhile fun c => kAlphabetReverse c = some 0).length
  let rest := s.drop zeroes
  if 64 < rest.length then []
  else
    match rest.mapM kAlphabetReverse with
    | none => []
    | some ds =>
      let b256 := (convert 256 58 (rest.length * 733 / 1000 + 1) ds).reverse
      List.replicate zeroes 0 ++ bytes (Numeral.strip b256)

variable (checksum : Checksum)

def encodeBase58Token (type : TokenType) (token : Blob) : Blob :=
  let expanded := 1 + token.length + 4
  let bufsize := expanded * 3
  encodeBase58 (layout checksum type token) (bufsize - expanded)

def decodeBase58Token (s : Blob) (type : TokenType) : Blob :=
  let ret := decodeBase58 s
  if ret.length < 6 then []
  else if ret.head? ≠ some type.toByte then []
  else if (checksum (ret.take (ret.length - 4))).val ≠ ret.drop (ret.length - 4) then []
  else (ret.drop 1).take (ret.length - 1 - 4)

end RefCodec

/-! ### The codec in use -/

namespace FastCodec

/-- 58^10. -/
def kB5810 : ℕ := 430804206899405824

def kWord : ℕ := 18446744073709551616

/-- An error unless the condition holds. -/
def check (c : Prop) [Decidable c] (e : Fault) : Except Fault Unit := if c then .ok () else .error e

/-- `carryingAdd`. -/
def carryingAdd (a b : ℕ) : ℕ × ℕ := ((a + b) % kWord, (a + b) / kWord)

/-- The loop of `inplaceBigintAdd` over the upper coefficients. -/
def carryUp : List ℕ → ℕ → Except Fault (List ℕ)
  | [], carry => if carry ≠ 0 then .error (.code .overflowAdd) else .ok []
  | v :: vs, carry =>
    if carry = 0 then .ok (v :: vs)
    else (carryUp vs (carryingAdd v 1).2).map fun rest => (carryingAdd v 1).1 :: rest

def inplaceBigintAdd (a : List ℕ) (b : ℕ) : Except Fault (List ℕ) :=
  match a with
  | [] => .error (.code .inputTooSmall)
  | [_] => .error (.code .inputTooSmall)
  | v :: vs => (carryUp vs (carryingAdd v b).2).map fun rest => (carryingAdd v b).1 :: rest

/-- The loop is `carryingMul` over the lower coefficients. -/
def inplaceBigintMul (a : List ℕ) (b : ℕ) : Except Fault (List ℕ) :=
  match a.getLast? with
  | none => .error (.code .inputTooSmall)
  | some last =>
    if last ≠ 0 then .error (.code .inputTooLarge)
    else
      let product := Numeral.mulAdd kWord b 0 a.dropLast
      .ok (product.1 ++ [product.2])

def inplaceBigintDivRem (numerator : List ℕ) (divisor : ℕ) : List ℕ × ℕ :=
  Numeral.divRem kWord divisor numerator

/-- The loop of `b5810ToB58Be`, least significant digit first, into the places that are left. -/
def b58Digits : ℕ → ℕ → Except Fault (List ℕ)
  | 0, input => if 0 < input then .error .outOfRange else .ok []
  | room + 1, input =>
    if 0 < input then (b58Digits room (input / 58)).map fun rest => input % 58 :: rest
    else .ok []

def b5810ToB58Be (input : ℕ) : Except Fault (List ℕ) := do
  let result ← b58Digits 10 input
  pure (List.replicate (10 - result.length) 0 ++ result.reverse)

/-- The coefficients of the input, lowest first: eight bytes for each, from the end, into the places
that are left. -/
def base264Coeffs (input : Blob) : ℕ → ℕ → List ℕ
  | 0, _ => []
  | room + 1, srcIEnd =>
    if srcIEnd = 0 then []
    else if 8 ≤ srcIEnd then
      Bytes.ofBE ((input.take srcIEnd).drop (srcIEnd - 8)) ::
        base264Coeffs input room (srcIEnd - 8)
    else [Bytes.ofBE (input.take srcIEnd)]

/-- The base 58^10 coefficients, lowest first, into the places that are left. -/
def base5810Coeffs : ℕ → List ℕ → Except Fault (List ℕ)
  | _, [] => .ok []
  | 0, _ :: _ => .error .outOfRange
  | room + 1, c :: cs =>
    let divided := inplaceBigintDivRem (c :: cs) kB5810
    let quotient := if divided.1.getLast? = some 0 then divided.1.dropLast else divided.1
    (base5810Coeffs room quotient).map fun rest => divided.2 :: rest

/-- Write at the end of what has been written. -/
def write (outSize : ℕ) (out : Blob) (s : Blob) : Except Fault Blob :=
  if out.length + s.length ≤ outSize then .ok (out ++ s) else .error .outOfRange

/-- The coefficients from the highest on, after the zeros have been skipped. -/
def writeCoeffs (outSize : ℕ) : Blob → List ℕ → Except Fault Blob
  | out, [] => .ok out
  | out, c :: cs => do
    check (c < kB5810) (.code .inputTooLarge)
    let b58Be ← b5810ToB58Be c
    let out ← write outSize out (b58Be.map forward)
    writeCoeffs outSize out cs

/-- The coefficients from the highest on, while zeros are skipped. -/
def skipCoeffs (outSize : ℕ) (out : Blob) : List ℕ → Except Fault Blob
  | [] => .ok out
  | c :: cs =>
    if c = 0 then skipCoeffs outSize out cs
    else do
      check (c < kB5810) (.code .inputTooLarge)
      let b58Be ← b5810ToB58Be c
      let toSkip := (b58Be.takeWhile fun x => x = 0).length
      check ((cs.length + 1) * 10 - toSkip ≤ outSize) (.code .outputTooSmall)
      let out ← write outSize out ((b58Be.drop toSkip).map forward)
      writeCoeffs outSize out cs

def b256ToB58Be (input : Blob) (outSize : ℕ) : Except Fault Blob := do
  check (input.length ≤ 38) (.code .inputTooLarge)
  let inputZeros := countLeadingZeros 0 input
  let input := input.drop inputZeros
  let base264Coeff := base264Coeffs input 5 input.length
  let base5810Coeff ← base5810Coeffs 6 base264Coeff
  let out ← write outSize [] (List.replicate inputZeros (forward 0))
  skipCoeffs outSize out base5810Coeff.reverse

/-- `b5810Coeff[index] = b5810Coeff[index] * 58 + curVal`. -/
def push (b5810Coeff : List ℕ) (index : ℕ) (c : UInt8) : Except Fault (List ℕ) :=
  match kAlphabetReverse c with
  | none => .error (.code .invalidEncodingChar)
  | some curVal =>
    if h : index < b5810Coeff.length then
      .ok (b5810Coeff.set index ((b5810Coeff[index] * 58 % kWord + curVal) % kWord))
    else .error .outOfRange

/-- The same for the character at a place of the string. -/
def pushAt (input : Blob) (b5810Coeff : List ℕ) (index place : ℕ) : Except Fault (List ℕ) :=
  match input[place]? with
  | none => .error .outOfRange
  | some c => push b5810Coeff index c

/-- The base 58^10 coefficients of a string, highest first. -/
def b5810Coeffs (input : Blob) : Except Fault (List ℕ) := do
  let numFullCoeffs := input.length / 10
  let partialCoeffLen := input.length % 10
  let numPartialCoeffs := if partialCoeffLen ≠ 0 then 1 else 0
  let b5810Coeff ← (input.take partialCoeffLen).foldlM (fun coeff c => push coeff 0 c)
    (List.replicate 6 0)
  (List.range 10).foldlM (fun coeff i =>
    (List.range numFullCoeffs).foldlM (fun coeff j =>
      pushAt input coeff (numPartialCoeffs + j) (partialCoeffLen + j * 10 + i)) coeff) b5810Coeff

/-- Multiply the number in the first places by 58^10 and add the next coefficient; how many places it
takes is kept with the array. -/
def accumulate : List ℕ × ℕ → ℕ → Except Fault (List ℕ × ℕ)
  | (result, curResultSize), c => do
    check (curResultSize + 1 ≤ result.length) .outOfRange
    let span ← inplaceBigintMul (result.take (curResultSize + 1)) kB5810
    let span ← inplaceBigintAdd span c
    let result := span ++ result.drop (curResultSize + 1)
    pure (result, if result.getD curResultSize 0 ≠ 0 then curResultSize + 1 else curResultSize)

def b58ToB256Be (input : Blob) (outSize : ℕ) : Except Fault Blob := do
  check (input.length ≤ 52) (.code .inputTooLarge)
  check (8 ≤ outSize) (.code .outputTooSmall)
  let inputZeros := countLeadingZeros (forward 0) input
  let numB5810Coeffs := input.length / 10 + if input.length % 10 ≠ 0 then 1 else 0
  let b5810Coeff ← b5810Coeffs input
  let (result, curResultSize) ←
    ((b5810Coeff.take numB5810Coeffs).drop 1).foldlM accumulate
      (b5810Coeff.headD 0 :: List.replicate 4 0, 1)
  let out ← write outSize [] (List.replicate inputZeros 0)
  let top := Bytes.toBE 8 (result.getD (curResultSize - 1) 0)
  let out ← write outSize out (top.dropWhile fun b => b = 0)
  check (out.length + 8 * (curResultSize - 1) ≤ outSize) (.code .outputTooSmall)
  write outSize out ((result.take (curResultSize - 1)).reverse.flatMap (Bytes.toBE 8))

variable (checksum : Checksum)

/-- `encodeBase58Token` into a buffer. -/
def encodeBase58TokenTo (type : TokenType) (input : Blob) (outSize : ℕ) : Except Fault Blob := do
  let kTmpBufSize := 128
  check (input.length ≤ kTmpBufSize - 5) (.code .inputTooLarge)
  check (input ≠ []) (.code .inputTooSmall)
  b256ToB58Be (layout checksum type input) outSize

/-- `decodeBase58Token` into a buffer. -/
def decodeBase58TokenTo (type : TokenType) (s : Blob) (outSize : ℕ) : Except Fault Blob := do
  let ret ← b58ToB256Be s 64
  check (6 ≤ ret.length) (.code .inputTooSmall)
  check (ret.head? = some type.toByte) (.code .mismatchedTokenType)
  check ((checksum (ret.take (ret.length - 4))).val = ret.drop (ret.length - 4))
    (.code .mismatchedChecksum)
  let size := ret.length - 1 - 4
  check (size ≤ outSize) (.code .outputTooSmall)
  pure ((ret.drop 1).take size)

/-- The result, or the empty string. -/
def orEmpty : Except Fault Blob → Blob
  | .ok s => s
  | .error _ => []

def encodeBase58Token (type : TokenType) (token : Blob) : Blob :=
  orEmpty (encodeBase58TokenTo checksum type token 128)

def decodeBase58Token (s : Blob) (type : TokenType) : Blob :=
  orEmpty (decodeBase58TokenTo checksum type s 64)

end FastCodec

/-! ### Public keys -/

variable (checksum : Checksum)

/-- `toBase58` of a key. -/
def toBase58 (type : TokenType) (pk : PublicKey) : Blob :=
  FastCodec.encodeBase58Token checksum type pk.slice

/-- `parseBase58<PublicKey>`. -/
def parseBase58 (type : TokenType) (s : Blob) : Option PublicKey :=
  let pks := FastCodec.decodeBase58Token checksum s type
  if (signingPubKeyType pks).isNone then Option.none else PublicKey.ofSlice? pks

end Base58

end FalconLedger
