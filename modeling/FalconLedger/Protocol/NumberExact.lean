import FalconLedger.Protocol.Number
import Mathlib.Tactic.Linarith
import Mathlib.Tactic.Positivity
import Mathlib.Tactic.Ring

/-!
# Arithmetic without rounding

A result that has no more digits than a mantissa is not rounded: the digits that are shifted out
on the way to it are all zero, and the guard stays empty. `Fits` says that a value is a multiple
of a power of ten with a coefficient that a mantissa can hold; sums, products and quotients that
fit are computed exactly, in every rounding mode (`add_fits`, `mul_fits`, `div_fits`).
-/

namespace FalconLedger

namespace Number

/-- The value of a number. -/
def toRat (x : Number) : ℚ := (if x.negative then -1 else 1) * x.mantissa * 10 ^ x.exponent

/-- `isnormal`. -/
def IsNormal (scale : MantissaScale) (x : Number) : Prop :=
  x = zero ∨ (scale.min ≤ x.mantissa ∧ x.mantissa ≤ scale.max ∧
    (x.mantissa ≤ kMaxRep ∨ x.mantissa % 10 = 0) ∧
    kMinExponent ≤ x.exponent ∧ x.exponent ≤ kMaxExponent)

/-- An exponent that leaves room for the digits of a mantissa. -/
def InRange (scale : MantissaScale) (u : ℤ) : Prop :=
  kMinExponent + scale.log ≤ u ∧ u ≤ kMaxExponent

instance (scale : MantissaScale) (u : ℤ) : Decidable (InRange scale u) :=
  inferInstanceAs (Decidable (_ ∧ _))

/-! ### Powers of ten -/

section Decimal

variable {m c : ℕ} {e u : ℤ}

private theorem exponent_lt (h : (m : ℚ) * 10 ^ e = c * 10 ^ u) (hlt : c < m) : e < u := by
  by_contra hle
  have hpow : (10 : ℚ) ^ u ≤ 10 ^ e := zpow_le_zpow_right₀ (by norm_num) (not_lt.mp hle)
  have hpos : (0 : ℚ) < 10 ^ u := by positivity
  have hcast : (c : ℚ) < m := by exact_mod_cast hlt
  have hstrict : (c : ℚ) * 10 ^ u < m * 10 ^ e :=
    calc (c : ℚ) * 10 ^ u < m * 10 ^ u := mul_lt_mul_of_pos_right hcast hpos
      _ ≤ m * 10 ^ e := mul_le_mul_of_nonneg_left hpow (Nat.cast_nonneg m)
  exact absurd h hstrict.ne'

private theorem coefficient_eq (h : (m : ℚ) * 10 ^ e = c * 10 ^ u) {k : ℕ} (hk : u = e + k) :
    m = c * 10 ^ k := by
  have hpos : (10 : ℚ) ^ e ≠ 0 := by positivity
  rw [hk, zpow_add₀ (by norm_num), zpow_natCast, mul_comm ((10 : ℚ) ^ e), ← mul_assoc] at h
  exact_mod_cast mul_right_cancel₀ hpos h

private theorem exponent_le (h : (m : ℚ) * 10 ^ e = c * 10 ^ u) (hc : 0 < c) (hle : c ≤ m) :
    e ≤ u := by
  rcases hle.lt_or_eq with hlt | rfl
  · exact (exponent_lt h hlt).le
  · have hcast : (c : ℚ) ≠ 0 := by exact_mod_cast hc.ne'
    exact (zpow_right_injective₀ (by norm_num) (by norm_num) (mul_left_cancel₀ hcast h)).le

/-- A coefficient of at most `k` digits puts the exponent less than `k` below. -/
private theorem le_exponent (h : (m : ℚ) * 10 ^ e = c * 10 ^ u) (hc : 0 < c) {k : ℕ}
    (hm : m < 10 ^ k) : u - k < e := by
  have hshift : ((c * 10 ^ k : ℕ) : ℚ) * 10 ^ (u - k) = m * 10 ^ e := by
    rw [h]
    push_cast
    rw [mul_assoc, ← zpow_natCast, ← zpow_add₀ (by norm_num), add_sub_cancel]
  exact exponent_lt hshift (hm.trans_le (Nat.le_mul_of_pos_left _ hc))

private theorem mod_ten_eq_zero (h : (m : ℚ) * 10 ^ e = c * 10 ^ u) (hlt : c < m) : m % 10 = 0 := by
  have hexp := exponent_lt h hlt
  obtain ⟨k, hk⟩ := Int.le.dest hexp.le
  have hpos : k ≠ 0 := fun h0 => by omega
  obtain ⟨j, rfl⟩ := Nat.exists_eq_succ_of_ne_zero hpos
  rw [coefficient_eq h hk.symm, pow_succ, ← mul_assoc, Nat.mul_mod_left]

private theorem div_ten (h : (m : ℚ) * 10 ^ e = c * 10 ^ u) (hmod : m % 10 = 0) :
    ((m / 10 : ℕ) : ℚ) * 10 ^ (e + 1) = c * 10 ^ u := by
  have hmul : m / 10 * 10 = m := Nat.div_mul_cancel (Nat.dvd_of_mod_eq_zero hmod)
  have hcast : ((m / 10 : ℕ) : ℚ) * 10 = m := by exact_mod_cast hmul
  rw [zpow_add₀ (by norm_num), zpow_one, mul_comm ((10 : ℚ) ^ e), ← mul_assoc, hcast, h]

private theorem mul_ten (m : ℕ) (e : ℤ) : ((m * 10 : ℕ) : ℚ) * 10 ^ (e - 1) = m * 10 ^ e := by
  push_cast
  rw [mul_assoc]
  congr 1
  rw [← zpow_one_add₀ (by norm_num), add_sub_cancel]

end Decimal

/-! ### Limits -/

section Limits

variable (scale : MantissaScale)

private theorem scale_max_lt : scale.max < 10 ^ (scale.log + 1) := by
  cases scale <;> decide

private theorem min_le_max : scale.min ≤ scale.max := by
  cases scale <;> decide

private theorem min_le_maxRep : scale.min ≤ kMaxRep := by
  cases scale <;> decide

end Limits

/-! ### The empty guard -/

/-- No digit but zeros has been shifted out. -/
structure Guard.Empty (g : Guard) : Prop where
  digits : g.digits = 0
  xbit : g.xbit = false

section Guard

variable {g : Guard} {env : NumberEnv} {m : ℕ} {e : ℤ} {negative : Bool}

theorem Guard.Empty.push (h : g.Empty) : (g.push 0).Empty := by
  refine ⟨?_, ?_⟩
  · simp [Guard.push, h.digits]
  · simp [Guard.push, h.digits, h.xbit]

private theorem Guard.Empty.push_mod (h : g.Empty) (hm : m % 10 = 0) : (g.push (m % 10)).Empty := by
  rw [hm]
  exact h.push

private theorem Guard.Empty.pop (h : g.Empty) : g.pop.Empty :=
  ⟨by simp [Guard.pop, h.digits], h.xbit⟩

private theorem Guard.Empty.top (h : g.Empty) : g.top = 0 := by simp [Guard.top, h.digits]

theorem Guard.Empty.rounds (h : g.Empty) (mode : RoundingMode) (m : ℕ) :
    g.rounds mode m = false := by
  cases mode <;> simp [Guard.rounds, Guard.round, h.digits, h.xbit]

end Guard

/-! ### Rounding with an empty guard -/

section Exact

variable {env : NumberEnv} {g : Guard} {negative : Bool} {m c : ℕ} {e u : ℤ}

/-- The number has the value `c * 10 ^ u`, up to its sign, and a full mantissa. -/
structure Exact (scale : MantissaScale) (negative : Bool) (c : ℕ) (u : ℤ) (z : Number) : Prop where
  sign : z.negative = negative
  value : (z.mantissa : ℚ) * 10 ^ z.exponent = c * 10 ^ u
  min_le : scale.min ≤ z.mantissa
  le_max : z.mantissa ≤ scale.max

private theorem bringIntoRange_exact (hval : (m : ℚ) * 10 ^ e = c * 10 ^ u) (hc : 0 < c)
    (hu : InRange env.scale u) (hm : m ≤ env.scale.max) (hten : env.scale.min ≤ m * 10) :
    Exact env.scale negative c u (Guard.bringIntoRange env negative m e) := by
  unfold Guard.bringIntoRange
  by_cases hlt : m < env.scale.min
  · have hexp : u - env.scale.log < e := le_exponent hval hc hlt
    have hmin : ¬e - 1 < kMinExponent := by
      have := hu.1
      omega
    rw [if_pos hlt]
    simp only [if_neg hmin]
    refine ⟨rfl, (mul_ten m e).trans hval, hten, ?_⟩
    have hmax : env.scale.max = env.scale.min * 10 - 1 := rfl
    change m * 10 ≤ env.scale.max
    omega
  · have hexp : u - (env.scale.log + 1 : ℕ) < e :=
      le_exponent hval hc (hm.trans_lt (scale_max_lt env.scale))
    have hmin : ¬e < kMinExponent := by
      have := hu.1
      push_cast at hexp
      omega
    rw [if_neg hlt]
    simp only [if_neg hmin]
    exact ⟨rfl, hval, not_lt.mp hlt, hm⟩

private theorem Exact.exponent_le {z : Number} (h : Exact env.scale negative c u z) (hc : 0 < c)
    (hcmin : c ≤ env.scale.min) (hu : InRange env.scale u) : z.exponent ≤ kMaxExponent :=
  (Number.exponent_le h.value hc (hcmin.trans h.min_le)).trans hu.2

private theorem Exact.isNormal {z : Number} (h : Exact env.scale negative c u z) (hc : 0 < c)
    (hcmin : c ≤ env.scale.min) (hu : InRange env.scale u) : IsNormal env.scale z := by
  have hexp : u - (env.scale.log + 1 : ℕ) < z.exponent :=
    le_exponent h.value hc (h.le_max.trans_lt (scale_max_lt env.scale))
  refine .inr ⟨h.min_le, h.le_max, ?_, ?_, h.exponent_le hc hcmin hu⟩
  · by_cases hrep : z.mantissa ≤ kMaxRep
    · exact .inl hrep
    · have hlt : c < z.mantissa := by
        have := min_le_maxRep env.scale
        omega
      exact .inr (mod_ten_eq_zero h.value hlt)
  · have := hu.1
    push_cast at hexp
    omega

private theorem doRoundUp_exact (hg : g.Empty) (hval : (m : ℚ) * 10 ^ e = c * 10 ^ u) (hc : 0 < c)
    (hcmin : c ≤ env.scale.min) (hu : InRange env.scale u) (hm : m ≤ env.scale.max)
    (hten : env.scale.min ≤ m * 10) :
    ∃ z, g.doRoundUp env negative m e = some z ∧ Exact env.scale negative c u z := by
  have hexact : Exact env.scale negative c u (Guard.bringIntoRange env negative m e) :=
    bringIntoRange_exact hval hc hu hm hten
  refine ⟨_, ?_, hexact⟩
  unfold Guard.doRoundUp
  simp only [hg.rounds, Bool.false_eq_true, if_false]
  exact if_neg (not_lt.mpr (hexact.exponent_le hc hcmin hu))

private theorem doRoundDown_exact (hg : g.Empty) (hval : (m : ℚ) * 10 ^ e = c * 10 ^ u)
    (hc : 0 < c) (hu : InRange env.scale u) (hm : m ≤ env.scale.max)
    (hten : env.scale.min ≤ m * 10) :
    Exact env.scale negative c u (g.doRoundDown env negative m e) := by
  unfold Guard.doRoundDown
  simp only [hg.rounds, Bool.false_eq_true, if_false]
  exact bringIntoRange_exact hval hc hu hm hten

/-! ### The loops -/

private theorem scaleUp_exact (n : ℕ) (hval : (m : ℚ) * 10 ^ e = c * 10 ^ u) (hc : 0 < c)
    (hu : InRange env.scale u) (hfuel : env.scale.min ≤ m * 10 ^ n) :
    ∃ m' e', scaleUp env.scale.min n m e = (m', e') ∧ (m' : ℚ) * 10 ^ e' = c * 10 ^ u ∧
      env.scale.min ≤ m' ∧ m' ≤ max m env.scale.max := by
  induction n generalizing m e with
  | zero => exact ⟨m, e, rfl, hval, by simpa using hfuel, le_max_left _ _⟩
  | succ n ih =>
    unfold scaleUp
    by_cases hlt : m < env.scale.min
    · have hexp : u - env.scale.log < e := le_exponent hval hc hlt
      have hmin : kMinExponent < e := by
        have := hu.1
        omega
      rw [if_pos ⟨hlt, hmin⟩]
      have hmax : env.scale.max = env.scale.min * 10 - 1 := rfl
      obtain ⟨m', e', heq, hval', hle, hle'⟩ := ih ((mul_ten m e).trans hval)
        (by rw [mul_assoc, ← pow_succ']; exact hfuel)
      refine ⟨m', e', heq, hval', hle, hle'.trans (max_le ?_ (le_max_right _ _))⟩
      exact le_max_of_le_right (by omega)
    · rw [if_neg fun h => hlt h.1]
      exact ⟨m, e, rfl, hval, not_lt.mp hlt, le_max_left _ _⟩

private theorem scaleDown_exact (n : ℕ) {most : ℕ} (hg : g.Empty)
    (hval : (m : ℚ) * 10 ^ e = c * 10 ^ u) (hle : c ≤ most) (hfuel : m < (most + 1) * 10 ^ n) :
    ∃ m' e' g', scaleDown most n m e g = (m', e', g') ∧ g'.Empty ∧
      (m' : ℚ) * 10 ^ e' = c * 10 ^ u ∧ m' ≤ most ∧ (m' = m ∨ most < m' * 10) := by
  induction n generalizing m e g with
  | zero => exact ⟨m, e, g, rfl, hg, hval, by simpa [Nat.lt_succ_iff] using hfuel, .inl rfl⟩
  | succ n ih =>
    unfold scaleDown
    by_cases hlt : most < m
    · have hmod := mod_ten_eq_zero hval (hle.trans_lt hlt)
      rw [if_pos hlt]
      obtain ⟨m', e', g', heq, hg', hval', hle', hor⟩ := ih (hg.push_mod hmod)
        (div_ten hval hmod) (by
          rw [Nat.div_lt_iff_lt_mul (by norm_num), mul_assoc, ← pow_succ]
          exact hfuel)
      refine ⟨m', e', g', heq, hg', hval', hle', .inr ?_⟩
      rcases hor with rfl | hor
      · omega
      · exact hor
    · rw [if_neg hlt]
      exact ⟨m, e, g, rfl, hg, hval, not_lt.mp hlt, .inl rfl⟩

theorem normalize_exact (hval : (m : ℚ) * 10 ^ e = c * 10 ^ u) (hc : 0 < c)
    (hcmin : c ≤ env.scale.min) (hu : InRange env.scale u) (hm : 0 < m)
    (hlt : m < 10 ^ digitsMax) :
    ∃ z, normalize env negative m e = some z ∧ Exact env.scale negative c u z := by
  have hpow : env.scale.min ≤ 10 ^ digitsMax := by cases env.scale <;> decide
  obtain ⟨m₁, e₁, hup, hval₁, hmin₁, hle₁⟩ := scaleUp_exact digitsMax hval hc hu
    (hpow.trans (Nat.le_mul_of_pos_left _ hm))
  have hempty : Guard.Empty { sbit := negative } := ⟨rfl, rfl⟩
  have hmax₁ : m₁ < (env.scale.max + 1) * 10 ^ digitsMax := by
    refine hle₁.trans_lt (max_lt ?_ ?_)
    · exact hlt.trans_le (Nat.le_mul_of_pos_left _ (Nat.succ_pos _))
    · exact Nat.lt_of_lt_of_le (Nat.lt_succ_self _) (Nat.le_mul_of_pos_right _ (by positivity))
  obtain ⟨m₂, e₂, g₂, hdown, hg₂, hval₂, hle₂, hor⟩ := scaleDown_exact digitsMax hempty hval₁
    (hcmin.trans (min_le_max env.scale)) hmax₁
  have hmin₂ : env.scale.min ≤ m₂ := by
    rcases hor with rfl | hor
    · exact hmin₁
    · have hmax : env.scale.max = env.scale.min * 10 - 1 := rfl
      omega
  have hexact : Exact env.scale negative c u ⟨negative, m₂, e₂⟩ := ⟨rfl, hval₂, hmin₂, hle₂⟩
  have hnormal := hexact.isNormal hc hcmin hu
  have he₂ : e₂ ≤ kMaxExponent := hexact.exponent_le hc hcmin hu
  have he₂' : kMinExponent ≤ e₂ := by
    rcases hnormal with h0 | ⟨-, -, -, hexp, -⟩
    · have hpos : 0 < env.scale.min := by cases env.scale <;> decide
      have hzero : m₂ = 0 := congrArg Number.mantissa h0
      omega
    · exact hexp
  unfold normalize
  rw [if_neg hm.ne', hup]
  simp only [hdown]
  rw [if_neg (not_lt.mpr he₂), if_neg (fun h => h.elim (not_lt.mpr he₂') (not_lt.mpr hmin₂))]
  by_cases hrep : kMaxRep < m₂
  · have hclt : c < m₂ := by
      have := min_le_maxRep env.scale
      omega
    have hmod := mod_ten_eq_zero hval₂ hclt
    have hltu := exponent_lt hval₂ hclt
    rw [if_pos hrep, if_neg (by have := hu.2; omega)]
    refine doRoundUp_exact (hg₂.push_mod hmod) (div_ten hval₂ hmod) hc hcmin hu ?_ ?_
    · omega
    · omega
  · rw [if_neg hrep]
    exact doRoundUp_exact hg₂ hval₂ hc hcmin hu hle₂ (by omega)

private theorem shiftRight_exact (n k : ℕ) (hg : g.Empty) :
    ∃ g', shiftRight n (k * 10 ^ n) g = (k, g') ∧ g'.Empty := by
  induction n generalizing g with
  | zero =>
    rw [pow_zero, mul_one]
    exact ⟨g, rfl, hg⟩
  | succ n ih =>
    have hsplit : k * 10 ^ (n + 1) = k * 10 ^ n * 10 := by rw [pow_succ, mul_assoc]
    unfold shiftRight
    rw [hsplit, Nat.mul_div_cancel _ (by norm_num), Nat.mul_mod_left]
    exact ih hg.push

private theorem restore_exact (n : ℕ) (hg : g.Empty) (hval : (m : ℚ) * 10 ^ e = c * 10 ^ u)
    (hm : m ≤ env.scale.max) (hfuel : env.scale.min ≤ m * 10 ^ n) :
    ∃ m' e' g', restore env.scale.min n m e g = (m', e', g') ∧ g'.Empty ∧
      (m' : ℚ) * 10 ^ e' = c * 10 ^ u ∧ m' ≤ env.scale.max ∧ env.scale.min ≤ m' * 10 := by
  induction n generalizing m e g with
  | zero =>
    refine ⟨m, e, g, rfl, hg, hval, hm, ?_⟩
    simp only [pow_zero, mul_one] at hfuel
    omega
  | succ n ih =>
    unfold restore
    by_cases h : m < env.scale.min ∧ m * 10 ≤ kMaxRep
    · have hmax : env.scale.max = env.scale.min * 10 - 1 := rfl
      rw [if_pos h, hg.top, Nat.sub_zero]
      exact ih hg.pop ((mul_ten m e).trans hval) (by omega)
        (by rw [mul_assoc, ← pow_succ']; exact hfuel)
    · rw [if_neg h]
      refine ⟨m, e, g, rfl, hg, hval, hm, ?_⟩
      have := min_le_maxRep env.scale
      omega

end Exact

/-! ### Operations -/

/-- The number is normalized and its value is `a * 10 ^ u`, with a coefficient of at most as many
digits as a mantissa has. -/
structure Fits (scale : MantissaScale) (u a : ℤ) (x : Number) : Prop where
  normal : IsNormal scale x
  value : x.toRat = a * 10 ^ u
  le : a.natAbs ≤ scale.min

section Fits

variable {env : NumberEnv} {scale : MantissaScale} {x y z : Number} {a b : ℤ} {u v : ℤ}

theorem toRat_zero : zero.toRat = 0 := by simp [toRat, zero]

theorem fits_zero (scale : MantissaScale) (u : ℤ) : Fits scale u 0 zero :=
  ⟨.inl rfl, by simp [toRat_zero], Nat.zero_le _⟩

private theorem toRat_eq (x : Number) :
    x.toRat = if x.negative then -((x.mantissa : ℚ) * 10 ^ x.exponent)
      else (x.mantissa : ℚ) * 10 ^ x.exponent := by
  unfold toRat
  split_ifs <;> ring

theorem min_pos (scale : MantissaScale) : 0 < scale.min := by cases scale <;> decide

private theorem Fits.exact (h : Fits scale u a x) :
    (x = zero ∧ a = 0) ∨ (a ≠ 0 ∧ Exact scale (decide (a < 0)) a.natAbs u x) := by
  have hpow : (0 : ℚ) < 10 ^ u := zpow_pos (by norm_num) u
  rcases h.normal with rfl | ⟨hmin, hmax, -, -, -⟩
  · have hvalue := h.value
    rw [toRat_zero] at hvalue
    have hzero : (a : ℚ) = 0 := (mul_eq_zero.mp hvalue.symm).resolve_right hpow.ne'
    exact .inl ⟨rfl, by exact_mod_cast hzero⟩
  · have hpos : (0 : ℚ) < x.mantissa * 10 ^ x.exponent := by
      have hm : (0 : ℚ) < x.mantissa := by exact_mod_cast (min_pos scale).trans_le hmin
      exact mul_pos hm (zpow_pos (by norm_num) _)
    have hvalue := h.value
    rw [toRat_eq] at hvalue
    cases hneg : x.negative with
    | false =>
      rw [hneg] at hvalue
      simp only [Bool.false_eq_true, if_false] at hvalue
      have ha : 0 < a := by
        rw [hvalue] at hpos
        exact_mod_cast pos_of_mul_pos_left hpos hpow.le
      refine .inr ⟨ha.ne', ⟨by simp [hneg, not_lt.mpr ha.le], ?_, hmin, hmax⟩⟩
      rw [hvalue, Nat.cast_natAbs, abs_of_pos ha]
    | true =>
      rw [hneg] at hvalue
      simp only [if_true] at hvalue
      have ha : a < 0 := by
        have : (a : ℚ) * 10 ^ u < 0 := by rw [← hvalue]; linarith
        exact_mod_cast neg_of_mul_neg_left this hpow.le
      refine .inr ⟨ha.ne, ⟨by simp [hneg, ha], ?_, hmin, hmax⟩⟩
      rw [Nat.cast_natAbs, abs_of_neg ha]
      push_cast
      linarith

private theorem Exact.fits (h : Exact scale (decide (a < 0)) a.natAbs u z) (ha : a ≠ 0)
    (hle : a.natAbs ≤ scale.min) (hu : InRange scale u) : Fits scale u a z := by
  have hnormal : IsNormal (NumberEnv.mk .toNearest scale).scale z :=
    Exact.isNormal h (Int.natAbs_pos.mpr ha) hle hu
  refine ⟨hnormal, ?_, hle⟩
  rw [toRat_eq, h.sign, h.value, Nat.cast_natAbs]
  rcases lt_or_gt_of_ne ha with hneg | hpos
  · rw [abs_of_neg hneg]
    simp [hneg]
  · rw [abs_of_pos hpos]
    simp [not_lt.mpr hpos.le]

theorem ofInt_fits {n : ℤ} (hn : n.natAbs ≤ env.scale.min) :
    ∃ z, ofInt env n = some z ∧ Fits env.scale 0 n z := by
  by_cases h0 : n = 0
  · subst h0
    exact ⟨zero, rfl, fits_zero _ _⟩
  · have hu : InRange env.scale 0 := by cases env.scale <;> decide
    have hlt : n.natAbs < 10 ^ digitsMax := hn.trans_lt (by cases env.scale <;> decide)
    obtain ⟨z, hz, hexact⟩ := @normalize_exact env (decide (n < 0)) n.natAbs n.natAbs 0 0 rfl
      (Int.natAbs_pos.mpr h0) hn hu (Int.natAbs_pos.mpr h0) hlt
    exact ⟨z, hz, hexact.fits h0 hn hu⟩

theorem Fits.neg (h : Fits scale u a x) : Fits scale u (-a) x.neg := by
  unfold Number.neg
  split_ifs with hm
  · have hzero : (a : ℚ) * 10 ^ u = 0 := by rw [← h.value, toRat, hm]; simp
    have ha : a = 0 := by
      exact_mod_cast (mul_eq_zero.mp hzero).resolve_right (zpow_ne_zero u (by norm_num))
    rw [ha, neg_zero]
    exact fits_zero _ _
  · refine ⟨?_, ?_, by rw [Int.natAbs_neg]; exact h.le⟩
    · rcases h.normal with rfl | hnormal
      · exact absurd rfl hm
      · exact .inr hnormal
    · have hvalue := h.value
      rw [toRat_eq] at hvalue ⊢
      push_cast
      rw [neg_mul, ← hvalue]
      cases x.negative <;> simp

theorem Fits.eq_zero_iff (h : Fits scale u a x) : x = zero ↔ a = 0 := by
  rcases h.exact with ⟨rfl, ha⟩ | ⟨ha, hexact⟩
  · exact iff_of_true rfl ha
  · refine iff_of_false (fun h0 => ?_) ha
    have hmin := hexact.min_le
    rw [h0] at hmin
    exact absurd hmin (not_le.mpr (min_pos scale))

theorem Fits.lt_zero (h : Fits scale u a x) : lt x zero = decide (a < 0) := by
  rcases h.exact with ⟨rfl, rfl⟩ | ⟨ha, hexact⟩
  · rfl
  · have hm : x.mantissa ≠ 0 := ((min_pos scale).trans_le hexact.min_le).ne'
    unfold lt
    rw [hexact.sign]
    by_cases hneg : a < 0 <;> simp [zero, hneg, hm]

theorem Fits.zero_lt (h : Fits scale u a x) : lt zero x = decide (0 < a) := by
  rcases h.exact with ⟨rfl, rfl⟩ | ⟨ha, hexact⟩
  · rfl
  · have hm : 0 < x.mantissa := (min_pos scale).trans_le hexact.min_le
    unfold lt
    rw [hexact.sign]
    by_cases hneg : a < 0
    · simp [zero, hneg, hneg.le]
    · have hpos : 0 < a := lt_of_le_of_ne (not_lt.mp hneg) (Ne.symm ha)
      simp [zero, hneg, hm, hpos]

theorem magnitude_lt {m n : ℕ} {e f : ℤ} (hm : m ≤ scale.max) (hn : scale.min ≤ n)
    (hlt : e < f) : (m : ℚ) * 10 ^ e < n * 10 ^ f := by
  have hten : (0 : ℚ) < 10 ^ e := zpow_pos (by norm_num) e
  have hmax : m < scale.min * 10 := by
    have := min_pos scale
    unfold MantissaScale.max at hm
    omega
  calc (m : ℚ) * 10 ^ e < (scale.min * 10 : ℕ) * 10 ^ e :=
        mul_lt_mul_of_pos_right (by exact_mod_cast hmax) hten
    _ = scale.min * 10 ^ (e + 1) := by
        rw [zpow_add_one₀ (by norm_num)]
        push_cast
        ring
    _ ≤ n * 10 ^ f :=
        mul_le_mul (by exact_mod_cast hn) (zpow_le_zpow_right₀ (by norm_num) (by omega))
          (by positivity) (by positivity)

/-- On numbers that are not negative the order is that of the values. Of two negative numbers with
one exponent, `operator<` compares the mantissas the wrong way round. -/
theorem Fits.lt_of_nonneg (hx : Fits scale u a x) (hy : Fits scale v b y) (ha : 0 ≤ a)
    (hb : 0 ≤ b) : lt x y = decide (x.toRat < y.toRat) := by
  rcases hx.exact with ⟨rfl, rfl⟩ | ⟨ha0, hx'⟩
  · rw [hy.zero_lt, decide_eq_decide, toRat_zero, hy.value,
      mul_pos_iff_of_pos_right (zpow_pos (by norm_num) v), Int.cast_pos]
  rcases hy.exact with ⟨rfl, rfl⟩ | ⟨hb0, hy'⟩
  · have hnonneg : (0 : ℚ) ≤ a * 10 ^ u :=
      mul_nonneg (by exact_mod_cast ha) (zpow_nonneg (by norm_num) u)
    rw [hx.lt_zero, decide_eq_decide, toRat_zero, hx.value]
    exact iff_of_false ha.not_gt hnonneg.not_gt
  have hsign : x.negative = false := by rw [hx'.sign, decide_eq_false ha.not_gt]
  have hsign' : y.negative = false := by rw [hy'.sign, decide_eq_false hb.not_gt]
  have hm : x.mantissa ≠ 0 := ((min_pos scale).trans_le hx'.min_le).ne'
  have hm' : y.mantissa ≠ 0 := ((min_pos scale).trans_le hy'.min_le).ne'
  simp only [lt, toRat, hsign, hsign', hm, hm', ne_eq, not_true_eq_false, if_false, one_mul,
    Bool.false_eq_true, Bool.not_false]
  split_ifs with hgt hlt
  · exact (decide_eq_false (magnitude_lt hy'.le_max hx'.min_le hgt).not_gt).symm
  · exact (decide_eq_true (magnitude_lt hx'.le_max hy'.min_le hlt)).symm
  · have hexp : x.exponent = y.exponent := le_antisymm (not_lt.mp hgt) (not_lt.mp hlt)
    rw [decide_eq_decide, hexp, mul_lt_mul_iff_left₀ (zpow_pos (by norm_num) _), Nat.cast_lt]

private theorem Exact.unique {negative : Bool} {c : ℕ} (hx : Exact scale negative c u x)
    (hz : Exact scale negative c u z) : x = z := by
  have hmax : scale.max = scale.min * 10 - 1 := rfl
  have key : ∀ {m m' : ℕ} {e e' : ℤ}, (m : ℚ) * 10 ^ e = m' * 10 ^ e' → m ≤ scale.max →
      scale.min ≤ m' → e' ≤ e := by
    intro m m' e e' heq hm hm'
    by_contra hlt
    obtain ⟨k, hk⟩ := Int.le.dest (not_le.mp hlt).le
    obtain ⟨j, rfl⟩ := Nat.exists_eq_succ_of_ne_zero (fun h0 : k = 0 => by omega)
    have hcoef := coefficient_eq heq hk.symm
    have hpow : 10 ≤ 10 ^ (j + 1) := Nat.le_self_pow (Nat.succ_ne_zero j) 10
    have hle : m' * 10 ≤ m := hcoef ▸ Nat.mul_le_mul_left m' hpow
    have := min_pos scale
    omega
  have hvalue : (x.mantissa : ℚ) * 10 ^ x.exponent = z.mantissa * 10 ^ z.exponent :=
    hx.value.trans hz.value.symm
  have hexp : x.exponent = z.exponent := le_antisymm
    (key hvalue.symm hz.le_max hx.min_le) (key hvalue hx.le_max hz.min_le)
  have hmant : x.mantissa = z.mantissa := by
    rw [hexp] at hvalue
    exact_mod_cast mul_right_cancel₀ (zpow_ne_zero _ (by norm_num)) hvalue
  have hsign := hx.sign.trans hz.sign.symm
  cases x
  cases z
  simp_all

private theorem align_exact {A B : ℕ} {xn yn : Bool} (hx : Exact scale xn A u x)
    (hy : Exact scale yn B u y) (hA : 0 < A) (hB : 0 < B) (hAle : A ≤ scale.min)
    (hBle : B ≤ scale.min) :
    ∃ (t : ℕ) (g : Guard), align x y = (A * 10 ^ t, B * 10 ^ t, u - t, g) ∧ g.Empty ∧
      A * 10 ^ t ≤ scale.max ∧ B * 10 ^ t ≤ scale.max ∧
      (scale.min ≤ A * 10 ^ t ∨ scale.min ≤ B * 10 ^ t) := by
  have hxe := Number.exponent_le hx.value hA (hAle.trans hx.min_le)
  have hye := Number.exponent_le hy.value hB (hBle.trans hy.min_le)
  obtain ⟨i, hi⟩ := Int.le.dest hxe
  obtain ⟨j, hj⟩ := Int.le.dest hye
  have hxm := coefficient_eq hx.value hi.symm
  have hym := coefficient_eq hy.value hj.symm
  have hempty : ∀ sbit, Guard.Empty { sbit := sbit } := fun _ => ⟨rfl, rfl⟩
  have hmono : ∀ C n k : ℕ, C * 10 ^ n ≤ C * 10 ^ (k + n) := fun C n k =>
    Nat.mul_le_mul_left C (Nat.pow_le_pow_right (by norm_num) (Nat.le_add_left n k))
  have hxmax := hx.le_max
  have hymax := hy.le_max
  have hxmin := hx.min_le
  have hymin := hy.min_le
  rw [hxm] at hxmax hxmin
  rw [hym] at hymax hymin
  unfold align
  rcases lt_trichotomy x.exponent y.exponent with hlt | heq | hgt
  · -- the first is shifted
    obtain ⟨k, rfl⟩ : ∃ k, i = k + j := ⟨i - j, by omega⟩
    have hk : (y.exponent - x.exponent).toNat = k := by omega
    have hsplit : x.mantissa = A * 10 ^ j * 10 ^ k := by
      rw [hxm, pow_add, mul_assoc, mul_comm (10 ^ k)]
    obtain ⟨g, hshift, hg⟩ := shiftRight_exact k (A * 10 ^ j) (hempty x.negative)
    refine ⟨j, g, ?_, hg, (hmono A j k).trans hxmax, hymax, .inr hymin⟩
    rw [if_pos hlt, hk, hsplit, hshift, hym]
    have : y.exponent = u - j := by omega
    rw [this]
  · obtain rfl : i = j := by omega
    refine ⟨i, _, ?_, hempty false, hxmax, hymax, .inl hxmin⟩
    rw [if_neg heq.not_lt, if_neg heq.not_gt, hxm, hym]
    have : x.exponent = u - i := by omega
    rw [this]
  · obtain ⟨k, rfl⟩ : ∃ k, j = k + i := ⟨j - i, by omega⟩
    have hk : (x.exponent - y.exponent).toNat = k := by omega
    have hsplit : y.mantissa = B * 10 ^ i * 10 ^ k := by
      rw [hym, pow_add, mul_assoc, mul_comm (10 ^ k)]
    obtain ⟨g, hshift, hg⟩ := shiftRight_exact k (B * 10 ^ i) (hempty y.negative)
    refine ⟨i, g, ?_, hg, hxmax, (hmono B i k).trans hymax, .inl hxmin⟩
    rw [if_neg hgt.not_gt, if_pos hgt, hk, hsplit, hshift, hxm]
    have : x.exponent = u - i := by omega
    rw [this]

private theorem shifted_value (c t : ℕ) (u : ℤ) :
    ((c * 10 ^ t : ℕ) : ℚ) * 10 ^ (u - t) = c * 10 ^ u := by
  push_cast
  rw [mul_assoc, ← zpow_natCast, ← zpow_add₀ (by norm_num), add_sub_cancel]

private theorem addSame_exact {A B t : ℕ} {negative : Bool} {g : Guard} (hg : g.Empty)
    (hA : 0 < A) (hle : A + B ≤ env.scale.min) (hu : InRange env.scale u)
    (hx : A * 10 ^ t ≤ env.scale.max) (hy : B * 10 ^ t ≤ env.scale.max)
    (hmin : env.scale.min ≤ A * 10 ^ t ∨ env.scale.min ≤ B * 10 ^ t) :
    ∃ z, addSame env negative (A * 10 ^ t) (B * 10 ^ t) (u - t) g = some z ∧
      Exact env.scale negative (A + B) u z := by
  have hval : ((A * 10 ^ t + B * 10 ^ t : ℕ) : ℚ) * 10 ^ (u - t) = (A + B : ℕ) * 10 ^ u := by
    rw [← add_mul]
    exact shifted_value (A + B) t u
  have hc : 0 < A + B := by omega
  have hmin' : env.scale.min ≤ A * 10 ^ t + B * 10 ^ t := by omega
  unfold addSame
  by_cases hbig : env.scale.max < A * 10 ^ t + B * 10 ^ t ∨ kMaxRep < A * 10 ^ t + B * 10 ^ t
  · have hlt : A + B < A * 10 ^ t + B * 10 ^ t := by
      have := min_le_max env.scale
      have := min_le_maxRep env.scale
      omega
    have hmod := mod_ten_eq_zero hval hlt
    simp only [if_pos hbig]
    exact doRoundUp_exact (hg.push_mod hmod) (div_ten hval hmod) hc hle hu (by omega) (by omega)
  · simp only [if_neg hbig]
    exact doRoundUp_exact hg hval hc hle hu (by omega) (by omega)

private theorem addOpposite_exact {A B t : ℕ} {xn yn : Bool} {g : Guard} (hg : g.Empty)
    (hne : A ≠ B) (hu : InRange env.scale u) (hx : A * 10 ^ t ≤ env.scale.max)
    (hy : B * 10 ^ t ≤ env.scale.max) :
    Exact env.scale (if B < A then xn else yn) (if B < A then A - B else B - A) u
      (addOpposite env xn yn (A * 10 ^ t) (B * 10 ^ t) (u - t) g) := by
  have hpow : 0 < 10 ^ t := by positivity
  have hfuel : ∀ {m : ℕ}, 0 < m → env.scale.min ≤ m * 10 ^ digitsMax := fun hm =>
    (show env.scale.min ≤ 10 ^ digitsMax by cases env.scale <;> decide).trans
      (Nat.le_mul_of_pos_left _ hm)
  have hdiff : ∀ {c : ℕ} {negative : Bool}, 0 < c → c * 10 ^ t ≤ env.scale.max →
      Exact env.scale negative c u
        ((restore env.scale.min digitsMax (c * 10 ^ t) (u - t) g).2.2.doRoundDown env negative
          (restore env.scale.min digitsMax (c * 10 ^ t) (u - t) g).1
          (restore env.scale.min digitsMax (c * 10 ^ t) (u - t) g).2.1) := by
    intro c negative hc hmax
    obtain ⟨m, e, g', heq, hg', hval, hle, hten⟩ := restore_exact digitsMax hg
      (shifted_value c t u) hmax (hfuel (Nat.mul_pos hc hpow))
    rw [heq]
    exact doRoundDown_exact hg' hval hc hu hle hten
  unfold addOpposite
  rcases lt_or_gt_of_ne hne with hlt | hgt
  · have hnot : ¬B * 10 ^ t < A * 10 ^ t := not_lt.mpr (Nat.mul_le_mul_right _ hlt.le)
    rw [if_neg hnot, if_neg hlt.not_gt, if_neg hlt.not_gt, ← Nat.sub_mul]
    exact hdiff (by omega) ((Nat.mul_le_mul_right _ (Nat.sub_le _ _)).trans hy)
  · have hlt' : B * 10 ^ t < A * 10 ^ t := Nat.mul_lt_mul_of_pos_right hgt hpow
    rw [if_pos hlt', if_pos hgt, if_pos hgt, ← Nat.sub_mul]
    exact hdiff (by omega) ((Nat.mul_le_mul_right _ (Nat.sub_le _ _)).trans hx)

private theorem Exact.normalize {negative : Bool} {c : ℕ} (h : Exact env.scale negative c u z)
    (hc : 0 < c) (hle : c ≤ env.scale.min) (hu : InRange env.scale u) :
    ∃ z', normalize env z.negative z.mantissa z.exponent = some z' ∧
      Exact env.scale negative c u z' := by
  have hlt : z.mantissa < 10 ^ digitsMax :=
    h.le_max.trans_lt (by cases env.scale <;> decide)
  rw [h.sign]
  exact normalize_exact h.value hc hle hu ((min_pos _).trans_le h.min_le) hlt

theorem add_fits (hx : Fits env.scale u a x) (hy : Fits env.scale u b y)
    (hle : (a + b).natAbs ≤ env.scale.min) (hu : InRange env.scale u) :
    ∃ z, add env x y = some z ∧ Fits env.scale u (a + b) z := by
  unfold add
  rcases hy.exact with ⟨rfl, rfl⟩ | ⟨hb, hyexact⟩
  · exact ⟨x, by simp, by rwa [add_zero]⟩
  rw [if_neg (hy.eq_zero_iff.not.mpr hb)]
  rcases hx.exact with ⟨rfl, rfl⟩ | ⟨ha, hxexact⟩
  · exact ⟨y, by simp, by rwa [zero_add]⟩
  rw [if_neg (hx.eq_zero_iff.not.mpr ha)]
  by_cases hsum : a + b = 0
  · -- the numbers cancel
    have hneg : x = y.neg := by
      have hab : -b = a := by omega
      have hyneg := hy.neg
      rw [hab] at hyneg
      rcases hyneg.exact with ⟨-, h0⟩ | ⟨-, hnegexact⟩
      · exact absurd h0 ha
      · exact hxexact.unique hnegexact
    rw [if_pos hneg, hsum]
    exact ⟨zero, rfl, fits_zero _ _⟩
  have hne : x ≠ y.neg := by
    intro heq
    have hvalue := hy.neg.value
    rw [← heq, hx.value] at hvalue
    have hcoef : (a : ℚ) = ((-b : ℤ) : ℚ) :=
      mul_right_cancel₀ (zpow_ne_zero u (by norm_num)) hvalue
    have hab : a = -b := by exact_mod_cast hcoef
    omega
  rw [if_neg hne]
  obtain ⟨t, g, halign, hg, hxle, hyle, hmin⟩ := align_exact hxexact hyexact
    (Int.natAbs_pos.mpr ha) (Int.natAbs_pos.mpr hb) hx.le hy.le
  simp only [halign, hxexact.sign, hyexact.sign]
  suffices h : ∃ z, (if decide (a < 0) = decide (b < 0) then
      addSame env (decide (a < 0)) (a.natAbs * 10 ^ t) (b.natAbs * 10 ^ t) (u - t) g
      else some (addOpposite env (decide (a < 0)) (decide (b < 0)) (a.natAbs * 10 ^ t)
        (b.natAbs * 10 ^ t) (u - t) g)) = some z ∧
      Exact env.scale (decide (a + b < 0)) (a + b).natAbs u z by
    obtain ⟨z, hz, hexact⟩ := h
    obtain ⟨z', hz', hexact'⟩ := hexact.normalize (Int.natAbs_pos.mpr hsum) hle hu
    refine ⟨z', ?_, hexact'.fits hsum hle hu⟩
    rw [hz]
    exact hz'
  by_cases hsign : decide (a < 0) = decide (b < 0)
  · have hiff : a < 0 ↔ b < 0 := decide_eq_decide.mp hsign
    have habs : a.natAbs + b.natAbs = (a + b).natAbs := by omega
    have hneg : decide (a < 0) = decide (a + b < 0) := decide_eq_decide.mpr (by omega)
    rw [if_pos hsign, ← habs, ← hneg]
    exact addSame_exact hg (Int.natAbs_pos.mpr ha) (by omega) hu hxle hyle hmin
  · have hiff : ¬(a < 0 ↔ b < 0) := fun h => hsign (decide_eq_decide.mpr h)
    have hexact := @addOpposite_exact env u a.natAbs b.natAbs t (decide (a < 0)) (decide (b < 0)) g
      hg (by omega) hu hxle hyle
    rw [if_neg hsign]
    refine ⟨_, rfl, ?_⟩
    by_cases hlt : b.natAbs < a.natAbs
    · rw [if_pos hlt, if_pos hlt] at hexact
      have habs : a.natAbs - b.natAbs = (a + b).natAbs := by omega
      have hneg : decide (a < 0) = decide (a + b < 0) := decide_eq_decide.mpr (by omega)
      rw [← habs, ← hneg]
      exact hexact
    · rw [if_neg hlt, if_neg hlt] at hexact
      have habs : b.natAbs - a.natAbs = (a + b).natAbs := by omega
      have hneg : decide (b < 0) = decide (a + b < 0) := decide_eq_decide.mpr (by omega)
      rw [← habs, ← hneg]
      exact hexact

theorem sub_fits (hx : Fits env.scale u a x) (hy : Fits env.scale u b y)
    (hle : (a - b).natAbs ≤ env.scale.min) (hu : InRange env.scale u) :
    ∃ z, sub env x y = some z ∧ Fits env.scale u (a - b) z := by
  rw [sub_eq_add_neg] at hle ⊢
  exact add_fits hx hy.neg hle hu

theorem mul_fits (hx : Fits env.scale u a x) (hy : Fits env.scale v b y)
    (hle : (a * b).natAbs ≤ env.scale.min) (huv : InRange env.scale (u + v)) :
    ∃ z, mul env x y = some z ∧ Fits env.scale (u + v) (a * b) z := by
  unfold mul
  rcases hx.exact with ⟨rfl, rfl⟩ | ⟨ha, hxexact⟩
  · exact ⟨zero, by simp, by rw [zero_mul]; exact fits_zero _ _⟩
  rw [if_neg (hx.eq_zero_iff.not.mpr ha)]
  rcases hy.exact with ⟨rfl, rfl⟩ | ⟨hb, hyexact⟩
  · exact ⟨zero, by simp, by rw [mul_zero]; exact fits_zero _ _⟩
  rw [if_neg (hy.eq_zero_iff.not.mpr hb)]
  have hab : a * b ≠ 0 := mul_ne_zero ha hb
  have hval : ((x.mantissa * y.mantissa : ℕ) : ℚ) * 10 ^ (x.exponent + y.exponent) =
      (a * b).natAbs * 10 ^ (u + v) := by
    rw [Int.natAbs_mul]
    push_cast
    rw [zpow_add₀ (by norm_num), zpow_add₀ (by norm_num), mul_mul_mul_comm, hxexact.value,
      hyexact.value, mul_mul_mul_comm]
  have hcap : env.scale.min ≤ min env.scale.max kMaxRep :=
    le_min (min_le_max env.scale) (min_le_maxRep env.scale)
  have hfuel : x.mantissa * y.mantissa < (min env.scale.max kMaxRep + 1) * 10 ^ digitsMax :=
    calc x.mantissa * y.mantissa ≤ env.scale.max * env.scale.max :=
          Nat.mul_le_mul hxexact.le_max hyexact.le_max
      _ < (min env.scale.max kMaxRep + 1) * 10 ^ digitsMax := by cases env.scale <;> decide
  obtain ⟨m, e, g, hdown, hg, hval', hmle, hor⟩ := scaleDown_exact
    (g := { sbit := decide (a < 0) != decide (b < 0) }) digitsMax ⟨rfl, rfl⟩ hval
    (hle.trans hcap) hfuel
  have hten : env.scale.min ≤ m * 10 := by
    rcases hor with rfl | hor
    · have hone : env.scale.min ≤ x.mantissa * y.mantissa :=
        hxexact.min_le.trans (Nat.le_mul_of_pos_right _ ((min_pos _).trans_le hyexact.min_le))
      omega
    · exact hcap.trans hor.le
  have hneg : (decide (a < 0) != decide (b < 0)) = decide (a * b < 0) := by
    rw [Bool.eq_iff_iff]
    simp only [bne_iff_ne, ne_eq, decide_eq_decide, decide_eq_true_eq, mul_neg_iff]
    omega
  obtain ⟨z, hz, hexact⟩ := @doRoundUp_exact env g (decide (a * b < 0)) m (a * b).natAbs e (u + v)
    hg hval' (Int.natAbs_pos.mpr hab) hle huv (hmle.trans (min_le_left _ _)) hten
  obtain ⟨z', hz', hexact'⟩ := hexact.normalize (Int.natAbs_pos.mpr hab) hle huv
  refine ⟨z', ?_, hexact'.fits hab hle huv⟩
  rw [hneg] at hdown
  rw [hxexact.sign, hyexact.sign]
  simp only [hneg, hdown, hz]
  exact hz'

private theorem quotient_exact {w : ℤ} {A B Q : ℕ} {xn yn : Bool} (hx : Exact env.scale xn A u x)
    (hy : Exact env.scale yn B v y) (hQ : Q ≤ env.scale.min)
    (hval : (x.mantissa : ℚ) * 10 ^ x.exponent = (Q * y.mantissa : ℕ) * 10 ^ (w + y.exponent)) :
    ∃ j : ℕ, x.mantissa * 10 ^ divShift env.scale = Q * 10 ^ j * y.mantissa ∧
      x.exponent - y.exponent - divShift env.scale = w - j := by
  have hexp : x.exponent ≤ w + y.exponent + env.scale.log := by
    by_contra hlt
    obtain ⟨k, hk⟩ := Int.le.dest (not_le.mp hlt).le
    obtain ⟨j, rfl⟩ := Nat.exists_eq_succ_of_ne_zero (fun h0 : k = 0 => by omega)
    have hcoef := @coefficient_eq (Q * y.mantissa) x.mantissa (w + y.exponent) x.exponent
      hval.symm (env.scale.log + (j + 1)) (by push_cast; omega)
    have hsmall : Q * y.mantissa ≤ env.scale.min * env.scale.max := Nat.mul_le_mul hQ hy.le_max
    have hten : 10 ≤ 10 ^ (j + 1) := Nat.le_self_pow (Nat.succ_ne_zero j) 10
    have hlarge : env.scale.min * (10 ^ env.scale.log * 10) ≤
        x.mantissa * 10 ^ (env.scale.log + (j + 1)) := by
      rw [pow_add]
      exact Nat.mul_le_mul hx.min_le (Nat.mul_le_mul_left _ hten)
    have hlt' : env.scale.min * env.scale.max < env.scale.min * (10 ^ env.scale.log * 10) := by
      cases env.scale <;> decide
    omega
  have hshift : env.scale.log ≤ divShift env.scale := by cases env.scale <;> decide
  obtain ⟨j, hj⟩ := Int.le.dest (show x.exponent ≤ w + y.exponent + divShift env.scale by omega)
  refine ⟨j, ?_, by omega⟩
  have hcoef : ((x.mantissa * 10 ^ divShift env.scale : ℕ) : ℚ) *
      10 ^ (x.exponent - divShift env.scale) = (Q * y.mantissa : ℕ) * 10 ^ (w + y.exponent) := by
    rw [shifted_value, hval]
  rw [coefficient_eq hcoef (show w + y.exponent = x.exponent - divShift env.scale + j by omega)]
  ring

theorem div_fits {w q : ℤ} (hx : Fits env.scale u a x) (hy : Fits env.scale v b y) (hb : b ≠ 0)
    (hq : (a : ℚ) * 10 ^ u = q * 10 ^ w * (b * 10 ^ v)) (hle : q.natAbs ≤ env.scale.min)
    (hw : InRange env.scale w) : ∃ z, div env x y = some z ∧ Fits env.scale w q z := by
  have hten : ∀ k : ℤ, (0 : ℚ) < 10 ^ k := fun k => zpow_pos (by norm_num) k
  have hqb : (a : ℚ) * 10 ^ u = (q * b : ℤ) * 10 ^ (w + v) := by
    rw [hq, zpow_add₀ (by norm_num)]
    push_cast
    ring
  unfold div
  rw [if_neg (hy.eq_zero_iff.not.mpr hb)]
  obtain ⟨-, hyexact⟩ := hy.exact.resolve_left fun h => hb h.2
  rcases hx.exact with ⟨rfl, rfl⟩ | ⟨ha, hxexact⟩
  · have hzero : ((q * b : ℤ) : ℚ) = 0 := by
      rw [Int.cast_zero, zero_mul] at hqb
      exact (mul_eq_zero.mp hqb.symm).resolve_right (hten _).ne'
    have hq0 : q = 0 := (mul_eq_zero.mp (by exact_mod_cast hzero : q * b = 0)).resolve_right hb
    exact ⟨zero, by simp, hq0 ▸ fits_zero _ _⟩
  rw [if_neg (hx.eq_zero_iff.not.mpr ha)]
  have hq0 : q ≠ 0 := by
    rintro rfl
    rw [zero_mul, Int.cast_zero, zero_mul] at hqb
    exact ha (by exact_mod_cast (mul_eq_zero.mp hqb).resolve_right (hten u).ne')
  have hval : (x.mantissa : ℚ) * 10 ^ x.exponent =
      (q.natAbs * y.mantissa : ℕ) * 10 ^ (w + y.exponent) := by
    have hcast : ∀ n : ℤ, |(n : ℚ)| = (n.natAbs : ℚ) := fun n => by
      rw [Nat.cast_natAbs, Int.cast_abs]
    have habs : |(a : ℚ) * 10 ^ u| = |(q : ℚ) * 10 ^ w * (b * 10 ^ v)| := by rw [hq]
    simp only [abs_mul, abs_of_pos (hten _), hcast] at habs
    rw [hxexact.value, habs, ← hyexact.value, zpow_add₀ (by norm_num)]
    push_cast
    ring
  obtain ⟨j, hnum, hj⟩ := quotient_exact hxexact hyexact hle hval
  have hy0 : 0 < y.mantissa := (min_pos _).trans_le hyexact.min_le
  have hquot : x.mantissa * 10 ^ divShift env.scale / y.mantissa = q.natAbs * 10 ^ j := by
    rw [hnum, Nat.mul_div_cancel _ hy0]
  have hrem : x.mantissa * 10 ^ divShift env.scale % y.mantissa = 0 := by
    rw [hnum, Nat.mul_mod_left]
  have hlt : q.natAbs * 10 ^ j < 10 ^ digitsMax := by
    rw [← hquot]
    calc x.mantissa * 10 ^ divShift env.scale / y.mantissa
        ≤ x.mantissa * 10 ^ divShift env.scale := Nat.div_le_self _ _
      _ ≤ env.scale.max * 10 ^ divShift env.scale := Nat.mul_le_mul_right _ hxexact.le_max
      _ < 10 ^ digitsMax := by cases env.scale <;> decide
  have hneg : (decide (a < 0) != decide (b < 0)) = decide (q < 0) := by
    have hiff : a < 0 ↔ q * b < 0 := by
      have hsign : ∀ (r : ℚ) (k : ℤ), r * 10 ^ k < 0 ↔ r < 0 := fun r k =>
        ⟨fun h => neg_of_mul_neg_left h (hten k).le, fun h => mul_neg_of_neg_of_pos h (hten k)⟩
      have hcast : (a : ℚ) < 0 ↔ ((q * b : ℤ) : ℚ) < 0 := by
        rw [← hsign a u, hqb, hsign]
      exact_mod_cast hcast
    rw [Bool.eq_iff_iff]
    simp only [bne_iff_ne, ne_eq, decide_eq_decide, decide_eq_true_eq, hiff, mul_neg_iff]
    omega
  obtain ⟨z, hz, hexact⟩ := @normalize_exact env (decide (q < 0)) (q.natAbs * 10 ^ j) q.natAbs
    (w - j) w (shifted_value _ _ _) (Int.natAbs_pos.mpr hq0) hle hw
    (Nat.mul_pos (Int.natAbs_pos.mpr hq0) (by positivity)) hlt
  refine ⟨z, ?_, hexact.fits hq0 hle hw⟩
  simp only [hxexact.sign, hyexact.sign, hneg, hquot, hrem, hj, ne_eq, not_true_eq_false,
    and_false, if_false]
  exact hz

end Fits

end Number

end FalconLedger
