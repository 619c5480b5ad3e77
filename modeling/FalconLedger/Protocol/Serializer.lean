import FalconLedger.Data.Bytes
import Mathlib.Tactic.Linarith

/-!
# The wire format

`Serializer` and `SerialIter`: field ids of one to three bytes, and length prefixes of one to
three bytes for variable-length data. A function that throws in the source returns `none`.

Every writer has its reader, and `addFieldID_inverts` and `addVL_inverts` say that the reader
takes back exactly what was written.
-/

namespace FalconLedger

open Bytes

/-- A byte of a value that fits. -/
def byte (n : ℕ) : UInt8 := UInt8.ofNat n

theorem byte_toNat {n : ℕ} (h : n < 256) : (byte n).toNat = n := by
  rw [byte, UInt8.toNat_ofNat']
  exact Nat.mod_eq_of_lt h

/-- The next byte. -/
def get8 : Parser ℕ
  | [] => none
  | b :: bs => some (b.toNat, bs)

/-! ### Field ids -/

def addFieldID (type name : ℕ) : List UInt8 :=
  if type < 16 then
    if name < 16 then [byte (16 * type + name)] else [byte (16 * type), byte name]
  else if name < 16 then [byte name, byte type]
  else [byte 0, byte type, byte name]

/-- A nibble that is zero stands for a whole byte that follows, which must be at least 16. -/
def getUncommon (nibble : ℕ) : Parser ℕ := fun bs =>
  if nibble = 0 then
    (get8 bs).bind fun r => if r.1 < 16 then none else some r
  else some (nibble, bs)

def getFieldID : Parser (ℕ × ℕ) :=
  get8.bind fun b => (getUncommon (b / 16)).bind fun type => (getUncommon (b % 16)).bind fun name =>
    fun bs => some ((type, name), bs)

theorem addFieldID_inverts {type name : ℕ} (ht : 0 < type) (ht' : type < 256) (hn : 0 < name)
    (hn' : name < 256) : Inverts getFieldID (addFieldID type name) (type, name) := by
  intro rest
  unfold addFieldID
  split_ifs with h16 hname hname
  · have hb : (byte (16 * type + name)).toNat = 16 * type + name := byte_toNat (by omega)
    have hdiv : (16 * type + name) / 16 = type := by omega
    have hmod : (16 * type + name) % 16 = name := by omega
    have hge : ¬16 * type + name < 16 := by omega
    simp [getFieldID, Parser.bind, get8, hb, hdiv, hmod, getUncommon, hn.ne', hge]
  · have hb : (byte (16 * type)).toNat = 16 * type := byte_toNat (by omega)
    have hdiv : 16 * type / 16 = type := by omega
    have hmod : 16 * type % 16 = 0 := by omega
    simp [getFieldID, Parser.bind, get8, hb, hdiv, hmod, getUncommon, ht.ne', byte_toNat hn', hname]
  · have hmod : name % 16 = name := by omega
    simp [getFieldID, Parser.bind, get8, byte_toNat hn', byte_toNat ht', hmod, getUncommon,
      hn.ne', h16, hname]
  · have hb : (byte 0).toNat = 0 := rfl
    simp [getFieldID, Parser.bind, get8, hb, byte_toNat hn', byte_toNat ht', getUncommon, h16, hname]

theorem addFieldID_ne_nil (type name : ℕ) : addFieldID type name ≠ [] := by
  unfold addFieldID
  split_ifs <;> simp

/-! ### Variable-length data -/

/-- The longest data a length prefix can announce. -/
def kMaxVLLength : ℕ := 918744

/-- The length prefix; longer data is an `overflow_error`. -/
def addEncoded (length : ℕ) : Option (List UInt8) :=
  if length ≤ 192 then some [byte length]
  else if length ≤ 12480 then
    some [byte (193 + (length - 193) / 256), byte ((length - 193) % 256)]
  else if length ≤ kMaxVLLength then
    some [byte (241 + (length - 12481) / 65536), byte ((length - 12481) / 256 % 256),
      byte ((length - 12481) % 256)]
  else none

def getVLDataLength : Parser ℕ :=
  get8.bind fun b1 =>
    if b1 ≤ 192 then fun bs => some (b1, bs)
    else if b1 ≤ 240 then get8.bind fun b2 => fun bs => some (193 + (b1 - 193) * 256 + b2, bs)
    else if b1 ≤ 254 then
      get8.bind fun b2 => get8.bind fun b3 => fun bs =>
        some (12481 + (b1 - 241) * 65536 + b2 * 256 + b3, bs)
    else fun _ => none

theorem addEncoded_eq_none {length : ℕ} : addEncoded length = none ↔ kMaxVLLength < length := by
  unfold addEncoded kMaxVLLength
  split_ifs <;> simp <;> omega

private theorem getVLDataLength_one {b : ℕ} (h : b ≤ 192) :
    Inverts getVLDataLength [byte b] b := by
  intro rest
  simp [getVLDataLength, Parser.bind, get8, byte_toNat (show b < 256 by omega), h]

private theorem getVLDataLength_two {q r : ℕ} (hq : q ≤ 47) (hr : r < 256) :
    Inverts getVLDataLength [byte (193 + q), byte r] (193 + q * 256 + r) := by
  intro rest
  have hb : (byte (193 + q)).toNat = 193 + q := byte_toNat (by omega)
  have hgt : ¬193 + q ≤ 192 := by omega
  have hle : 193 + q ≤ 240 := by omega
  simp [getVLDataLength, Parser.bind, get8, hb, byte_toNat hr, hgt, hle]

private theorem getVLDataLength_three {q r₁ r₂ : ℕ} (hq : q ≤ 13) (hr₁ : r₁ < 256)
    (hr₂ : r₂ < 256) :
    Inverts getVLDataLength [byte (241 + q), byte r₁, byte r₂]
      (12481 + q * 65536 + r₁ * 256 + r₂) := by
  intro rest
  have hb : (byte (241 + q)).toNat = 241 + q := byte_toNat (by omega)
  have hgt : ¬241 + q ≤ 192 := by omega
  have hgt' : ¬241 + q ≤ 240 := by omega
  have hle : 241 + q ≤ 254 := by omega
  simp [getVLDataLength, Parser.bind, get8, hb, byte_toNat hr₁, byte_toNat hr₂, hgt, hgt', hle]

theorem addEncoded_inverts {length : ℕ} {bytes : List UInt8} (h : addEncoded length = some bytes) :
    Inverts getVLDataLength bytes length := by
  unfold addEncoded kMaxVLLength at h
  split_ifs at h with h1 h2 h3
  · rw [← Option.some.inj h]
    exact getVLDataLength_one h1
  · have htwo := getVLDataLength_two (q := (length - 193) / 256) (r := (length - 193) % 256)
      (by omega) (by omega)
    rw [← Option.some.inj h]
    rwa [show 193 + (length - 193) / 256 * 256 + (length - 193) % 256 = length by omega] at htwo
  · have hthree := getVLDataLength_three (q := (length - 12481) / 65536)
      (by omega) (show (length - 12481) / 256 % 256 < 256 by omega)
      (show (length - 12481) % 256 < 256 by omega)
    rw [← Option.some.inj h]
    rwa [show 12481 + (length - 12481) / 65536 * 65536 + (length - 12481) / 256 % 256 * 256 +
      (length - 12481) % 256 = length by omega] at hthree

def addVL (data : List UInt8) : Option (List UInt8) :=
  (addEncoded data.length).map fun length => length ++ data

def getVL : Parser (List UInt8) := getVLDataLength.bind getRaw

theorem addVL_inverts {data bytes : List UInt8} (h : addVL data = some bytes) :
    Inverts getVL bytes data := by
  obtain ⟨length, hlength, rfl⟩ := Option.map_eq_some_iff.mp h
  exact (addEncoded_inverts hlength).bind (getRaw_inverts data)

theorem addVL_isSome {data : List UInt8} : (addVL data).isSome ↔ data.length ≤ kMaxVLLength := by
  rw [addVL, Option.isSome_map, Option.isSome_iff_ne_none, ne_eq, addEncoded_eq_none, not_lt]

end FalconLedger
