import Mathlib.Data.BitVec
import FalconLedger.Protocol.WideArith

/-!
# Arithmetic on machine words

`muldiv64`, `muldivU64` and `divu10` as the machine computes them: a signed result that does not
fit 64 bits is undefined (`none`), unsigned arithmetic wraps, and `muldivU64` has both of its
bodies, with a 128-bit product and without. All agree with the floor of the product exactly when the
product of the remainder and the multiplier fits (`muldiv_exact_iff`); `divu10` is exact on every
128-bit number (`divu10_exact`).
-/

namespace FalconLedger

namespace Word

/-! ### Multiply and divide -/

/-- The value of a signed 64-bit computation, unless it overflows. -/
def int64 (x : ℤ) : Option ℤ := if -2 ^ 63 ≤ x ∧ x < 2 ^ 63 then some x else none

/-- `muldiv64` with every signed operation checked. -/
def muldiv64 (a : ℤ) (b d : UInt32) : Option ℤ := do
  let q := a.tdiv d.toNat
  let r := a.tmod d.toNat
  let qb ← int64 (q * b.toNat)
  let rb ← int64 (r * b.toNat)
  int64 (qb + rb.tdiv d.toNat)

/-- `muldivU64` through a 128-bit product. -/
def muldivU64 (a b d : UInt64) : UInt64 :=
  if d = 0 ∨ a = 0 ∨ b = 0 then 0
  else
    let wide (x : UInt64) : BitVec 128 := x.toBitVec.setWidth 128
    ⟨((wide a * wide b) / wide d).setWidth 64⟩

/-- `muldivU64` where no 128-bit type is available. -/
def muldivU64Portable (a b d : UInt64) : UInt64 :=
  if d = 0 ∨ a = 0 ∨ b = 0 then 0
  else
    let q := a / d
    let r := a % d
    q * b + r * b / d

/-! ### Division by ten -/

/-- The approximation of `u / 10` that `divu10` starts from: `u * 0.75` is refined towards
`u * 0.8`, and an eighth of that is taken. -/
def tenth (u : BitVec 128) : BitVec 128 :=
  let q := (u >>> 1) + (u >>> 2)
  let q := q + (q >>> 4)
  let q := q + (q >>> 8)
  let q := q + (q >>> 16)
  let q := q + (q >>> 32)
  let q := q + (q >>> 64)
  q >>> 3

/-- The remainder that goes with the approximation, cut to an `unsigned`. -/
def tenthRemainder (u : BitVec 128) : BitVec 32 :=
  let q := tenth u
  (u - ((q <<< 3) + (q <<< 1))).setWidth 32

/-- The last digit of `u`, and the new value of `u`. -/
def divu10 (u : BitVec 128) : BitVec 32 × BitVec 128 :=
  let q := tenth u
  let r := tenthRemainder u
  let c := (r + 6) >>> 4
  (r - c * 10, q + c.setWidth 128)

/-! ### The exact value of a product -/

theorem lt_of_int64_natCast {n : ℕ} {y : ℤ} (h : int64 n = some y) : n < 2 ^ 63 := by
  unfold int64 at h
  split_ifs at h with hn
  omega

theorem int64_natCast {n : ℕ} : int64 n = some (n : ℤ) ↔ n < 2 ^ 63 := by
  constructor
  · exact lt_of_int64_natCast
  · intro h
    exact if_pos ⟨by omega, by omega⟩

private theorem split_mul_div (a b : ℕ) {d : ℕ} (hd : 0 < d) :
    a / d * b + a % d * b / d = a * b / d := by
  have hsplit : a * b = a % d * b + d * (a / d * b) := by
    conv_lhs => rw [← Nat.mod_add_div a d]
    ring
  rw [hsplit, Nat.add_mul_div_left _ _ hd, add_comm]

private theorem mul_div_le_self (a : ℕ) {b d : ℕ} (hbd : b ≤ d) : a * b / d ≤ a := by
  refine Nat.div_le_of_le_mul ?_
  rw [mul_comm d a]
  exact Nat.mul_le_mul_left a hbd

variable {b d : UInt32}

theorem muldiv64_eq_some_iff {a : ℕ} (ha : a < 2 ^ 63) (hd : 0 < d.toNat)
    (hbd : b.toNat ≤ d.toNat) :
    muldiv64 a b d = some ((a * b.toNat / d.toNat : ℕ) : ℤ) ↔
      a % d.toNat * b.toNat < 2 ^ 63 := by
  have hsum := split_mul_div a b.toNat hd
  have hle := mul_div_le_self a hbd
  have hq : a / d.toNat * b.toNat ≤ a := (Nat.le_add_right _ _).trans (hsum.le.trans hle)
  have hqb : int64 ((a : ℤ).tdiv d.toNat * b.toNat) = some ((a / d.toNat * b.toNat : ℕ) : ℤ) := by
    have hcast : (a : ℤ).tdiv d.toNat * b.toNat = ((a / d.toNat * b.toNat : ℕ) : ℤ) := by
      rw [← Int.ofNat_tdiv, Nat.cast_mul]
    rw [hcast]
    exact int64_natCast.mpr (hq.trans_lt ha)
  have hrb : (a : ℤ).tmod d.toNat * b.toNat = ((a % d.toNat * b.toNat : ℕ) : ℤ) := by
    rw [← Int.ofNat_tmod, Nat.cast_mul]
  have hshape : muldiv64 a b d = (int64 ((a : ℤ).tdiv d.toNat * b.toNat)).bind fun qb =>
      (int64 ((a : ℤ).tmod d.toNat * b.toNat)).bind fun rb => int64 (qb + rb.tdiv d.toNat) := rfl
  rw [hshape, hqb, hrb, Option.bind_some]
  constructor
  · intro h
    obtain ⟨rb, hrb, -⟩ := Option.bind_eq_some_iff.mp h
    exact lt_of_int64_natCast hrb
  · intro h
    rw [int64_natCast.mpr h, Option.bind_some, ← Int.ofNat_tdiv, ← Nat.cast_add, hsum]
    exact int64_natCast.mpr (hle.trans_lt ha)

/-- Where `muldivU64` answers zero at once, zero is the value of the fraction. -/
private theorem mul_div_of_shortcut {a : UInt64} (hd : 0 < d.toNat)
    (h : d.toUInt64 = 0 ∨ a = 0 ∨ b.toUInt64 = 0) : a.toNat * b.toNat / d.toNat = 0 := by
  rcases h with h | h | h
  · have hd0 : d.toNat = 0 := by simpa using congrArg UInt64.toNat h
    omega
  · simp [h]
  · have hb : b.toNat = 0 := by simpa using congrArg UInt64.toNat h
    simp [hb]

/-- The 128-bit product of two words is exact, and a fraction of at most one of `a` fits the
word it is cut to. -/
theorem toNat_muldivU64 (a : UInt64) (hd : 0 < d.toNat) (hbd : b.toNat ≤ d.toNat) :
    (muldivU64 a b.toUInt64 d.toUInt64).toNat = a.toNat * b.toNat / d.toNat := by
  unfold muldivU64
  split_ifs with h
  · rw [mul_div_of_shortcut hd h]
    rfl
  · have hle := mul_div_le_self a.toNat hbd
    have ha : a.toNat < 2 ^ 64 := a.toNat_lt
    have hb : b.toNat < 2 ^ 32 := b.toNat_lt
    have hd' : d.toNat < 2 ^ 32 := d.toNat_lt
    have hprod : a.toNat * b.toNat < 2 ^ 128 :=
      (Nat.mul_lt_mul'' ha hb).trans_le (by norm_num)
    have h1 : a.toNat < 2 ^ 128 := ha.trans (by norm_num)
    have h2 : b.toNat < 2 ^ 128 := hb.trans (by norm_num)
    have h3 : d.toNat < 2 ^ 128 := hd'.trans (by norm_num)
    simp only [UInt64.toNat, BitVec.toNat_setWidth, BitVec.toNat_udiv, BitVec.toNat_mul]
    simp only [UInt64.toNat_toBitVec, UInt32.toNat_toUInt64, Nat.mod_eq_of_lt, h1, h2, h3, hprod]
    exact Nat.mod_eq_of_lt (hle.trans_lt ha)

/-- With 32-bit `b` and `d` neither product of the portable body leaves the word. -/
theorem toNat_muldivU64Portable (a : UInt64) (hd : 0 < d.toNat) (hbd : b.toNat ≤ d.toNat) :
    (muldivU64Portable a b.toUInt64 d.toUInt64).toNat = a.toNat * b.toNat / d.toNat := by
  unfold muldivU64Portable
  split_ifs with h
  · rw [mul_div_of_shortcut hd h]
    rfl
  · have hsum := split_mul_div a.toNat b.toNat hd
    have hle := mul_div_le_self a.toNat hbd
    have ha : a.toNat < 2 ^ 64 := a.toNat_lt
    have hb : b.toNat < 2 ^ 32 := b.toNat_lt
    have hd' : d.toNat < 2 ^ 32 := d.toNat_lt
    have hr : a.toNat % d.toNat < 2 ^ 32 := (Nat.mod_lt _ hd).trans hd'
    have hrb : a.toNat % d.toNat * b.toNat < 2 ^ 64 :=
      (Nat.mul_lt_mul'' hr hb).trans_le (by norm_num)
    have hqb : a.toNat / d.toNat * b.toNat < 2 ^ 64 :=
      ((Nat.le_add_right _ _).trans (hsum.le.trans hle)).trans_lt ha
    simp only [UInt64.toNat_add, UInt64.toNat_mul, UInt64.toNat_div, UInt64.toNat_mod,
      UInt32.toNat_toUInt64]
    rw [Nat.mod_eq_of_lt hqb, Nat.mod_eq_of_lt hrb, hsum]
    exact Nat.mod_eq_of_lt (hle.trans_lt ha)

/-- Multiplying and dividing words is exact, on both bodies of `muldivU64`, except that the
second product of `muldiv64` has to fit a signed word. -/
theorem muldiv_exact_iff (a : ℤ) (ha0 : 0 ≤ a) (ha : a < 2 ^ 63) (u : UInt64) (b d : UInt32)
    (hd : 0 < d) (hbd : b ≤ d) :
    (muldiv64 a b d = some (a * b.toNat / d.toNat) ∧
      (muldivU64 u b.toUInt64 d.toUInt64).toNat = u.toNat * b.toNat / d.toNat ∧
      muldivU64Portable u b.toUInt64 d.toUInt64 = muldivU64 u b.toUInt64 d.toUInt64) ↔
    a % d.toNat * b.toNat < 2 ^ 63 := by
  have hd' : 0 < d.toNat := UInt32.lt_iff_toNat_lt.mp hd
  have hbd' : b.toNat ≤ d.toNat := UInt32.le_iff_toNat_le.mp hbd
  have hwide := toNat_muldivU64 u hd' hbd'
  have hportable := toNat_muldivU64Portable u hd' hbd'
  obtain ⟨n, rfl⟩ := Int.eq_ofNat_of_zero_le ha0
  have hsigned := muldiv64_eq_some_iff (by omega : n < 2 ^ 63) hd' hbd'
  push_cast at hsigned
  constructor
  · rintro ⟨h, -, -⟩
    exact_mod_cast hsigned.mp h
  · intro h
    refine ⟨hsigned.mpr (by exact_mod_cast h), hwide, ?_⟩
    exact UInt64.toNat_inj.mp (hportable.trans hwide.symm)

/-- A remainder and a multiplier near `2 ^ 32`: their product does not fit a signed word, though
the whole amount is the exact answer. -/
theorem muldiv64_overflow :
    muldiv64 4294967294 4294967295 4294967295 = none ∧
    (4294967294 : ℤ) * (4294967295 : UInt32).toNat / (4294967295 : UInt32).toNat =
      4294967294 := by
  decide

theorem muldiv_exact_small :
    (muldiv64 1000003 7 9 = some (1000003 * (7 : UInt32).toNat / (9 : UInt32).toNat) ∧
      (muldivU64 18446744073709551615 (7 : UInt32).toUInt64 (9 : UInt32).toUInt64).toNat =
        (18446744073709551615 : UInt64).toNat * (7 : UInt32).toNat / (9 : UInt32).toNat ∧
      muldivU64Portable 18446744073709551615 (7 : UInt32).toUInt64 (9 : UInt32).toUInt64 =
        muldivU64 18446744073709551615 (7 : UInt32).toUInt64 (9 : UInt32).toUInt64) ↔
    (1000003 : ℤ) % (9 : UInt32).toNat * (7 : UInt32).toNat < 2 ^ 63 :=
  muldiv_exact_iff 1000003 (by decide) (by decide) 18446744073709551615 7 9 (by decide)
    (by decide)

/-! ### Exactness of the division by ten -/

/-- What one refining step does to a number, as long as the sum fits 128 bits: it multiplies by
`1 + 2⁻ᵏ` and loses less than one. -/
private theorem sharpen_bounds {k : ℕ} {q : BitVec 128}
    (h : (2 ^ k + 1) * q.toNat < 2 ^ k * 2 ^ 128) :
    2 ^ k * (q + (q >>> k)).toNat ≤ (2 ^ k + 1) * q.toNat ∧
      (2 ^ k + 1) * q.toNat + 1 ≤ 2 ^ k * (q + (q >>> k)).toNat + 2 ^ k := by
  have hk : 0 < 2 ^ k := Nat.two_pow_pos k
  have hdiv := Nat.div_add_mod q.toNat (2 ^ k)
  have hmod := Nat.mod_lt q.toNat hk
  have hle := Nat.mul_div_le q.toNat (2 ^ k)
  have hscale : 2 ^ k * (q.toNat + q.toNat / 2 ^ k) = 2 ^ k * q.toNat + 2 ^ k * (q.toNat / 2 ^ k) :=
    mul_add _ _ _
  have hfit : q.toNat + q.toNat / 2 ^ k < 2 ^ 128 := by
    refine lt_of_mul_lt_mul_left ?_ hk.le
    calc 2 ^ k * (q.toNat + q.toNat / 2 ^ k) ≤ (2 ^ k + 1) * q.toNat := by linarith
      _ < 2 ^ k * 2 ^ 128 := h
  have hsum : (q + (q >>> k)).toNat = q.toNat + q.toNat / 2 ^ k := by
    rw [BitVec.toNat_add, BitVec.toNat_ushiftRight, Nat.shiftRight_eq_div_pow,
      Nat.mod_eq_of_lt hfit]
  rw [hsum]
  constructor
  · linarith
  · linarith

private theorem threeQuarters_bounds (u : BitVec 128) :
    4 * ((u >>> 1) + (u >>> 2)).toNat ≤ 3 * u.toNat ∧
      3 * u.toNat ≤ 4 * ((u >>> 1) + (u >>> 2)).toNat + 5 := by
  have hu : u.toNat < 2 ^ 128 := u.isLt
  have hsum : ((u >>> 1) + (u >>> 2)).toNat = u.toNat / 2 + u.toNat / 4 := by
    rw [BitVec.toNat_add, BitVec.toNat_ushiftRight, BitVec.toNat_ushiftRight,
      Nat.shiftRight_eq_div_pow, Nat.shiftRight_eq_div_pow]
    exact Nat.mod_eq_of_lt (by omega)
  rw [hsum]
  constructor
  · omega
  · omega

theorem tenth_bounds (u : BitVec 128) :
    10 * (tenth u).toNat ≤ u.toNat ∧ u.toNat ≤ 10 * (tenth u).toNat + 19 := by
  have hu : u.toNat < 2 ^ 128 := u.isLt
  obtain ⟨h0, h0'⟩ := threeQuarters_bounds u
  unfold tenth
  generalize (u >>> 1) + (u >>> 2) = q0 at h0 h0' ⊢
  obtain ⟨h1, h1'⟩ := sharpen_bounds (k := 4) (q := q0) (by linarith)
  dsimp only
  generalize q0 + (q0 >>> 4) = q1 at h1 h1' ⊢
  obtain ⟨h2, h2'⟩ := sharpen_bounds (k := 8) (q := q1) (by linarith)
  generalize q1 + (q1 >>> 8) = q2 at h2 h2' ⊢
  obtain ⟨h3, h3'⟩ := sharpen_bounds (k := 16) (q := q2) (by linarith)
  generalize q2 + (q2 >>> 16) = q3 at h3 h3' ⊢
  obtain ⟨h4, h4'⟩ := sharpen_bounds (k := 32) (q := q3) (by linarith)
  generalize q3 + (q3 >>> 32) = q4 at h4 h4' ⊢
  obtain ⟨h5, h5'⟩ := sharpen_bounds (k := 64) (q := q4) (by linarith)
  generalize q4 + (q4 >>> 64) = q5 at h5 h5' ⊢
  have heighth : (q5 >>> 3).toNat = q5.toNat / 8 := by
    rw [BitVec.toNat_ushiftRight, Nat.shiftRight_eq_div_pow]
  have h6 : 8 * (q5.toNat / 8) ≤ q5.toNat := Nat.mul_div_le _ _
  have h6' : q5.toNat ≤ 8 * (q5.toNat / 8) + 7 := by omega
  rw [heighth]
  constructor
  · linarith
  · linarith

theorem toNat_tenthRemainder (u : BitVec 128) :
    (tenthRemainder u).toNat = u.toNat - 10 * (tenth u).toNat := by
  obtain ⟨hle, hge⟩ := tenth_bounds u
  have hu : u.toNat < 2 ^ 128 := u.isLt
  have hten : ((tenth u <<< 3) + (tenth u <<< 1)).toNat = 10 * (tenth u).toNat := by
    rw [BitVec.toNat_add, BitVec.toNat_shiftLeft, BitVec.toNat_shiftLeft,
      Nat.shiftLeft_eq, Nat.shiftLeft_eq, Nat.mod_eq_of_lt, Nat.mod_eq_of_lt, Nat.mod_eq_of_lt]
    · ring
    all_goals omega
  simp only [tenthRemainder, BitVec.toNat_setWidth]
  rw [BitVec.toNat_sub_of_le (BitVec.le_def.mpr (hten.trans_le hle)), hten]
  exact Nat.mod_eq_of_lt (by omega)

/-- `divu10` divides every 128-bit number by ten: one correction absorbs all that the shifts
lost, for the remainder it corrects is at most nineteen. -/
theorem divu10_exact (u : BitVec 128) :
    (divu10 u).1.toNat = u.toNat % 10 ∧ (divu10 u).2.toNat = u.toNat / 10 ∧
      (tenthRemainder u).toNat ≤ 19 := by
  obtain ⟨hle, hge⟩ := tenth_bounds u
  have hu : u.toNat < 2 ^ 128 := u.isLt
  have hr := toNat_tenthRemainder u
  have hc : ((tenthRemainder u + 6) >>> 4).toNat = ((tenthRemainder u).toNat + 6) / 16 := by
    rw [BitVec.toNat_ushiftRight, Nat.shiftRight_eq_div_pow, BitVec.toNat_add]
    have : (6 : BitVec 32).toNat = 6 := rfl
    rw [this, Nat.mod_eq_of_lt (by omega)]
  have hdigit : (divu10 u).1.toNat =
      (tenthRemainder u).toNat - ((tenthRemainder u).toNat + 6) / 16 * 10 := by
    unfold divu10
    bv_omega
  have hquotient : (divu10 u).2.toNat =
      (tenth u).toNat + ((tenthRemainder u).toNat + 6) / 16 := by
    simp only [divu10, BitVec.toNat_add, BitVec.toNat_setWidth, hc]
    rw [Nat.mod_eq_of_lt (a := (_ + 6) / 16) (by omega), Nat.mod_eq_of_lt (by omega)]
  rw [hdigit, hquotient]
  refine ⟨?_, ?_, ?_⟩
  · omega
  · omega
  · omega

end Word

end FalconLedger
