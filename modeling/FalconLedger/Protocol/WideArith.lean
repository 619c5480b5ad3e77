import Mathlib.Data.Int.Order.Lemmas
import Mathlib.Data.Nat.Cast.Order.Field
import Mathlib.Tactic.Linarith
import Mathlib.Tactic.Ring

/-!
# Wide multiply-divide

`muldiv64` and `muldivU64` of `WideArith.h`. The signed variant splits `a = q·d + r` and
returns `q·b + r·b/d`; C++ division truncates toward zero, so the model uses `Int.tdiv` and
`Int.tmod`. Signed overflow is undefined in the source. The integers here are exact, which
agrees with it wherever nothing overflows, in particular for `0 ≤ a < 2⁶³` and `b ≤ d`, the
documented precondition.

`muldivU64` is the `__int128` path: the exact quotient, cast back to 64 bits.
-/

namespace FalconLedger

/-- `(a * b) / d` through the quotient and remainder of `a` by `d`. -/
def muldiv64 (a : Int) (b d : UInt32) : Int :=
  let q := a.tdiv d.toNat
  let r := a.tmod d.toNat
  q * b.toNat + (r * b.toNat).tdiv d.toNat

/-- `(a * b) / d` for full 64-bit factors, `0` when a factor or the divisor is `0`. -/
def muldivU64 (a b d : Nat) : Nat :=
  if d = 0 ∨ a = 0 ∨ b = 0 then 0 else a * b / d % 2 ^ 64

theorem toNat_max (a b : UInt32) : (max a b).toNat = max a.toNat b.toNat := by
  rw [UInt32.max_def, Nat.max_def]
  split_ifs <;> simp_all [UInt32.le_iff_toNat_le]

theorem toNat_min (a b : UInt32) : (min a b).toNat = min a.toNat b.toNat := by
  rw [Std.min_eq_if, Nat.min_def]
  split_ifs <;> simp_all [UInt32.le_iff_toNat_le]

theorem muldiv64_eq_ediv {a : Int} {b d : UInt32} (ha : 0 ≤ a) (hd : 0 < d.toNat) :
    muldiv64 a b d = a * b.toNat / d.toNat := by
  have hr : 0 ≤ a % (d.toNat : Int) := Int.emod_nonneg _ (by omega)
  have hb : (0 : Int) ≤ b.toNat := Int.natCast_nonneg _
  rw [muldiv64, Int.tdiv_eq_ediv_of_nonneg ha, Int.tmod_eq_emod_of_nonneg ha,
    Int.tdiv_eq_ediv_of_nonneg (mul_nonneg hr hb)]
  have hsplit : a * b.toNat = a % d.toNat * b.toNat + a / d.toNat * b.toNat * d.toNat := by
    conv_lhs => rw [← Int.emod_add_mul_ediv a d.toNat]
    ring
  rw [hsplit, Int.add_mul_ediv_right _ _ (by omega)]
  ring

theorem muldiv64_nonneg {a : Int} {b d : UInt32} (ha : 0 ≤ a) (hd : 0 < d.toNat) :
    0 ≤ muldiv64 a b d := by
  rw [muldiv64_eq_ediv ha hd]
  exact Int.ediv_nonneg (mul_nonneg ha (Int.natCast_nonneg _)) (Int.natCast_nonneg _)

theorem muldiv64_le {a : Int} {b d : UInt32} (ha : 0 ≤ a) (hd : 0 < d.toNat) (hbd : b ≤ d) :
    muldiv64 a b d ≤ a := by
  have hbd' : (b.toNat : Int) ≤ d.toNat := by exact_mod_cast UInt32.le_iff_toNat_le.mp hbd
  rw [muldiv64_eq_ediv ha hd]
  refine Int.ediv_le_of_le_mul (by omega) ?_
  exact mul_le_mul_of_nonneg_left hbd' ha

theorem muldiv64_mono {a : Int} {b b' d : UInt32} (ha : 0 ≤ a) (hd : 0 < d.toNat)
    (hbb : b ≤ b') : muldiv64 a b d ≤ muldiv64 a b' d := by
  have hbb' : (b.toNat : Int) ≤ b'.toNat := by exact_mod_cast UInt32.le_iff_toNat_le.mp hbb
  rw [muldiv64_eq_ediv ha hd, muldiv64_eq_ediv ha hd]
  exact Int.ediv_le_ediv (by omega) (mul_le_mul_of_nonneg_left hbb' ha)

theorem muldivU64_le_div (a b d : Nat) : muldivU64 a b d ≤ a * b / d := by
  unfold muldivU64
  split_ifs
  · exact Nat.zero_le _
  · exact Nat.mod_le _ _

/-- The part of `a` the unsigned variant gives is at most the fraction `b / d` of it. -/
theorem muldivU64_le_mul_div (a b d : Nat) : (muldivU64 a b d : ℚ) ≤ a * ((b : ℚ) / d) := by
  have hle : (muldivU64 a b d : ℚ) ≤ ((a * b / d : ℕ) : ℚ) := by
    exact_mod_cast muldivU64_le_div a b d
  calc (muldivU64 a b d : ℚ) ≤ ((a * b / d : ℕ) : ℚ) := hle
    _ ≤ ((a * b : ℕ) : ℚ) / d := Nat.cast_div_le
    _ = a * ((b : ℚ) / d) := by rw [Nat.cast_mul, mul_div_assoc]

end FalconLedger
