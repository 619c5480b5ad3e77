import FalconLedger.Protocol.IOUAmount
import FalconLedger.Protocol.NumberExact
import Mathlib.Data.Int.Log
import Mathlib.Data.Rat.Floor
import Mathlib.Tactic.IntervalCases

/-!
# Normalizing an issued amount

A mantissa of up to nineteen digits becomes one of sixteen. `roundsAway` says by the digits that are
dropped whether the last one moves, in each rounding mode; `ofParts_holds` is what comes of a mantissa
and an exponent, in both scales of `Number` and without it.
-/

namespace FalconLedger

namespace Number

/-! ### Rounding to sixteen digits -/

/-- Whether the magnitude `w` becomes the next whole number and not the one below it. -/
def roundsAway (mode : RoundingMode) (negative : Bool) (w : ℚ) : Bool :=
  match mode with
  | .toNearest =>
    decide (1 / 2 < Int.fract w) || (decide (Int.fract w = 1 / 2) && decide (⌊w⌋ % 2 = 1))
  | .towardsZero => false
  | .downward => negative && decide (0 < Int.fract w)
  | .upward => !negative && decide (0 < Int.fract w)

theorem roundsAway_of_fract_eq_zero {mode : RoundingMode} {negative : Bool} {w : ℚ}
    (hw : Int.fract w = 0) : roundsAway mode negative w = false := by
  cases mode <;> simp [roundsAway, hw]

section Digits

variable {mode : RoundingMode} {negative : Bool}

theorem rounds_eq {g : Guard} {M K : ℕ} (hK : 0 < K) (hx : g.xbit = false)
    (hs : g.sbit = negative) (hgt : 5 * 16 ^ 15 < g.digits ↔ K < 2 * (M % K))
    (hlt : g.digits < 5 * 16 ^ 15 ↔ 2 * (M % K) < K) (hpos : 0 < g.digits ↔ 0 < M % K) :
    g.rounds mode (M / K) = roundsAway mode negative (M / K : ℚ) := by
  have hfloor : ⌊(M / K : ℚ)⌋ = (M / K : ℕ) := Rat.floor_natCast_div_natCast M K
  have hfract : Int.fract (M / K : ℚ) = (M % K : ℕ) / K := Int.fract_div_natCast_eq_div_natCast_mod
  have hK' : (0 : ℚ) < K := by exact_mod_cast hK
  have hhalf : 1 / 2 < Int.fract (M / K : ℚ) ↔ K < 2 * (M % K) := by
    rw [hfract, div_lt_div_iff₀ two_pos hK', one_mul, mul_comm]
    exact_mod_cast Iff.rfl
  have htie : Int.fract (M / K : ℚ) = 1 / 2 ↔ 2 * (M % K) = K := by
    rw [hfract, div_eq_div_iff hK'.ne' two_ne_zero, one_mul, mul_comm]
    exact_mod_cast Iff.rfl
  have hnonzero : 0 < Int.fract (M / K : ℚ) ↔ 0 < M % K := by
    rw [hfract, div_pos_iff_of_pos_right hK']
    exact_mod_cast Iff.rfl
  cases mode with
  | toNearest =>
    have hround : g.round .toNearest =
        if K < 2 * (M % K) then 1 else if 2 * (M % K) < K then -1 else 0 := by
      simp only [Guard.round, hgt, hlt, hx, Bool.false_eq_true, if_false]
    have hmod : ((M / K : ℕ) : ℤ) % 2 = 1 ↔ M / K % 2 = 1 := by omega
    simp only [roundsAway, Guard.rounds, hround, hfloor, hhalf, htie, hmod]
    by_cases h1 : K < 2 * (M % K)
    · simp [h1]
    · by_cases h2 : 2 * (M % K) < K
      · simp [h1, h2, h2.ne]
      · have heq : 2 * (M % K) = K := by omega
        simp [heq]
  | towardsZero => simp [roundsAway, Guard.rounds, Guard.round]
  | downward =>
    simp only [roundsAway, Guard.rounds, Guard.round, hx, hs, hnonzero, hpos]
    cases negative <;> by_cases h : 0 < M % K <;> simp [h]
  | upward =>
    simp only [roundsAway, Guard.rounds, Guard.round, hx, hs, hnonzero, hpos]
    cases negative <;> by_cases h : 0 < M % K <;> simp [h]

/-- The guard after the digits of `M` from the `k`-th on have been shifted out. -/
theorem scaleDown_guard (mode : RoundingMode) (negative : Bool) {M k : ℕ} (hk : k ≤ 3) (hlo : 10 ^ 15 * 10 ^ k ≤ M)
    (hhi : M < 10 ^ 16 * 10 ^ k) (e : ℤ) :
    ∃ g, scaleDown MantissaScale.small.max digitsMax M e { sbit := negative } =
        (M / 10 ^ k, e + k, g) ∧
      g.rounds mode (M / 10 ^ k) = roundsAway mode negative (M / (10 ^ k : ℕ) : ℚ) := by
  have hmax : MantissaScale.small.max = 9999999999999999 := by decide
  rw [hmax, digitsMax]
  obtain rfl | rfl | rfl | rfl : k = 0 ∨ k = 1 ∨ k = 2 ∨ k = 3 := by omega
  · refine ⟨{ sbit := negative }, ?_, ?_⟩
    · rw [scaleDown, if_neg (by omega)]
      simp
    · refine rounds_eq (by norm_num) rfl rfl ?_ ?_ ?_ <;> simp [Nat.mod_one]
  · refine ⟨Guard.push { sbit := negative } (M % 10), ?_, ?_⟩
    · rw [scaleDown, if_pos (by omega), scaleDown, if_neg (by omega)]
      norm_num
    · refine rounds_eq (by norm_num) ?_ rfl ?_ ?_ ?_ <;> simp [Guard.push] <;> omega
  · refine ⟨Guard.push (Guard.push { sbit := negative } (M % 10)) (M / 10 % 10), ?_, ?_⟩
    · rw [scaleDown, if_pos (by omega), scaleDown, if_pos (by omega), scaleDown,
        if_neg (by omega), Nat.div_div_eq_div_mul, add_assoc]
      norm_num
    · refine rounds_eq (by norm_num) ?_ rfl ?_ ?_ ?_ <;> simp [Guard.push] <;> omega
  · refine ⟨Guard.push (Guard.push (Guard.push { sbit := negative } (M % 10)) (M / 10 % 10))
      (M / 10 / 10 % 10), ?_, ?_⟩
    · rw [scaleDown, if_pos (by omega), scaleDown, if_pos (by omega), scaleDown,
        if_pos (by omega), scaleDown, if_neg (by omega), Nat.div_div_eq_div_mul,
        Nat.div_div_eq_div_mul, add_assoc, add_assoc]
      norm_num
    · refine rounds_eq (by norm_num) ?_ rfl ?_ ?_ ?_ <;> simp [Guard.push] <;> omega

theorem doRoundUp_eq {g : Guard} {m m' : ℕ} {e e' : ℤ}
    (h : (if g.rounds mode m then
        if MantissaScale.small.max < m + 1 ∨ kMaxRep < m + 1 then ((m + 1) / 10, e + 1)
        else (m + 1, e)
      else (m, e)) = (m', e')) (hm : 10 ^ 15 ≤ m') (he : -30000 ≤ e') (he' : e' ≤ 30000) :
    g.doRoundUp ⟨mode, .small⟩ negative m e = some ⟨negative, m', e'⟩ := by
  have hmin : MantissaScale.small.min = 10 ^ 15 := rfl
  have hrange : Guard.bringIntoRange ⟨mode, .small⟩ negative m' e' = ⟨negative, m', e'⟩ := by
    rw [Guard.bringIntoRange]
    simp only [hmin, if_neg (not_lt.mpr hm)]
    exact if_neg (by rw [kMinExponent]; omega)
  rw [Guard.doRoundUp]
  simp only [h, hrange]
  exact if_neg (by rw [kMaxExponent]; omega)

/-- A magnitude of sixteen digits. -/
structure Sixteen (negative : Bool) (magnitude : ℚ) (r : Number) : Prop where
  sign : r.negative = negative
  value : (r.mantissa : ℚ) * 10 ^ r.exponent = magnitude
  min_le : 10 ^ 15 ≤ r.mantissa
  lt_max : r.mantissa < 10 ^ 16

/-- `w` rounded to a whole number. -/
def rounded (mode : RoundingMode) (negative : Bool) (w : ℚ) : ℤ :=
  ⌊w⌋ + if roundsAway mode negative w then 1 else 0

/-- **Normalizing rounds to sixteen digits**, in every mode. -/
theorem normalize_rounds (mode : RoundingMode) (negative : Bool) {M k : ℕ} {e : ℤ} (hk : k ≤ 3) (hlo : 10 ^ 15 * 10 ^ k ≤ M)
    (hhi : M < 10 ^ 16 * 10 ^ k) (he : -1000 ≤ e) (he' : e ≤ 1000) :
    ∃ r, normalize ⟨mode, .small⟩ negative M e = some r ∧
      Sixteen negative (rounded mode negative (M / (10 ^ k : ℕ) : ℚ) * 10 ^ (e + k)) r ∧
      e ≤ r.exponent ∧ r.exponent ≤ e + k + 1 := by
  have hK : 0 < 10 ^ k := by positivity
  have hM : M ≠ 0 := by
    have : 0 < 10 ^ 15 * 10 ^ k := by positivity
    omega
  have hmin : MantissaScale.small.min = 10 ^ 15 := rfl
  have hmax : MantissaScale.small.max = 9999999999999999 := by decide
  have hup : scaleUp MantissaScale.small.min digitsMax M e = (M, e) := by
    rw [digitsMax, scaleUp, if_neg fun h => absurd h.1 (not_lt.mpr ?_)]
    exact (Nat.le_mul_of_pos_right _ hK).trans hlo
  obtain ⟨g, hdown, hrounds⟩ := scaleDown_guard mode negative hk hlo hhi e
  have hq : 10 ^ 15 ≤ M / 10 ^ k := (Nat.le_div_iff_mul_le hK).mpr hlo
  have hq' : M / 10 ^ k < 10 ^ 16 := Nat.div_lt_of_lt_mul (by rwa [mul_comm])
  have hfloor : ⌊(M / (10 ^ k : ℕ) : ℚ)⌋ = (M / 10 ^ k : ℕ) := Rat.floor_natCast_div_natCast _ _
  have hnormal : normalize ⟨mode, .small⟩ negative M e =
      g.doRoundUp ⟨mode, .small⟩ negative (M / 10 ^ k) (e + k) := by
    rw [normalize, if_neg hM]
    simp only [hup, hdown]
    rw [if_neg (by rw [kMaxExponent]; omega),
      if_neg (by rw [kMinExponent, hmin]; omega), if_neg (by rw [kMaxRep]; omega)]
  rw [hnormal, rounded, hfloor]
  by_cases haway : roundsAway mode negative (M / (10 ^ k : ℕ) : ℚ) = true
  · by_cases hcarry : M / 10 ^ k + 1 = 10 ^ 16
    · -- the carry makes a mantissa of seventeen digits
      refine ⟨⟨negative, 10 ^ 15, e + k + 1⟩, doRoundUp_eq ?_ le_rfl (by omega) (by omega),
        ⟨rfl, ?_, le_rfl, by norm_num⟩, by simp only; omega, le_rfl⟩
      · rw [hrounds, if_pos haway, if_pos (by rw [hmax]; omega), hcarry]
        norm_num
      · have hcast : ((M / 10 ^ k : ℕ) : ℚ) + 1 = 10 ^ 16 := by exact_mod_cast hcarry
        rw [if_pos haway, Int.cast_add, Int.cast_natCast, Int.cast_one, hcast,
          zpow_add_one₀ (by norm_num)]
        push_cast
        ring
    · refine ⟨⟨negative, M / 10 ^ k + 1, e + k⟩, doRoundUp_eq ?_ (by omega) (by omega) (by omega),
        ⟨rfl, ?_, by change _ ≤ _ + 1; omega, by change _ + 1 < _; omega⟩, by simp only; omega,
        by simp only; omega⟩
      · rw [hrounds, if_pos haway, if_neg (by rw [hmax, kMaxRep]; omega)]
      · rw [if_pos haway, Int.cast_add, Int.cast_natCast, Int.cast_one]
        push_cast
        ring
  · refine ⟨⟨negative, M / 10 ^ k, e + k⟩, doRoundUp_eq ?_ hq (by omega) (by omega), ⟨rfl, ?_, hq,
      hq'⟩, by simp only; omega, by simp only; omega⟩
    · rw [hrounds, if_neg haway]
    · rw [if_neg haway, add_zero, Int.cast_natCast]

theorem rounded_natCast (m : ℕ) : rounded mode negative m = m := by
  rw [rounded, if_neg, Int.floor_natCast, add_zero]
  simp [roundsAway_of_fract_eq_zero]

end Digits

end Number

namespace IOUAmount

open Number (Sixteen roundsAway rounded)
open Wire (AmountEnv STAmount)

/-! ### The exponent of the sixteenth digit -/

/-- The exponent of a value whose mantissa has sixteen digits. -/
def sixteenth (U : ℚ) : ℤ := Int.log 10 U - 15

theorem sixteenth_eq {U : ℚ} {e : ℤ} (hlo : 10 ^ 15 * 10 ^ e ≤ U) (hhi : U < 10 ^ 16 * 10 ^ e) :
    sixteenth U = e := by
  have hpos : 0 < U := lt_of_lt_of_le (by positivity) hlo
  have hle : e + 15 ≤ Int.log 10 U := by
    rw [← Int.zpow_le_iff_le_log (by norm_num) hpos, zpow_add₀ (by norm_num)]
    push_cast
    linarith
  have hlt : Int.log 10 U < e + 16 := by
    rw [← Int.lt_zpow_iff_log_lt (by norm_num) hpos, zpow_add₀ (by norm_num)]
    push_cast
    linarith
  rw [sixteenth]
  omega

theorem sixteenth_le {U : ℚ} (hU : 0 < U) : 10 ^ 15 * 10 ^ sixteenth U ≤ U := by
  have := Int.zpow_log_le_self (b := 10) (by norm_num) hU
  rw [sixteenth, zpow_sub₀ (by norm_num)]
  push_cast at this
  norm_num at this ⊢
  linarith

theorem lt_sixteenth {U : ℚ} : U < 10 ^ 16 * 10 ^ sixteenth U := by
  have := Int.lt_zpow_succ_log_self (b := 10) (by norm_num) U
  rw [zpow_add_one₀ (by norm_num)] at this
  rw [sixteenth, zpow_sub₀ (by norm_num)]
  push_cast at this
  norm_num at this ⊢
  linarith

/-! ### Normalizing an amount -/

/-- Whether an amount with the digits `w` is normalized away from zero. -/
def movesAway (env : AmountEnv) (negative : Bool) (w : ℚ) : Bool :=
  env.switchover && roundsAway env.number.mode negative w

/-- The digits `w` rounded to sixteen of them. -/
def cut (env : AmountEnv) (negative : Bool) (w : ℚ) : ℤ :=
  ⌊w⌋ + if movesAway env negative w then 1 else 0

/-- The value of the least positive amount. -/
def least : ℚ := 10 ^ 15 * 10 ^ (-96 : ℤ)

/-- The amount of a magnitude, or zero if it is too small. -/
def Holds (negative : Bool) (R : ℚ) (a : IOUAmount) : Prop :=
  (R < least ∧ a = zero) ∨
    (least ≤ R ∧ ∃ (m : ℕ) (x : ℤ), a = signed negative m x ∧ 10 ^ 15 ≤ m ∧ m < 10 ^ 16 ∧
      (m : ℚ) * 10 ^ x = R ∧ -96 ≤ x ∧ x ≤ 80)

/-- Sixteen digits are an amount, unless the exponent is too small or too large. -/
theorem holds_of_digits {negative : Bool} {R : ℚ} {m : ℕ} {x : ℤ} {a : IOUAmount}
    (hlo : 10 ^ 15 ≤ m) (hhi : m < 10 ^ 16) (hR : (m : ℚ) * 10 ^ x = R)
    (ha : (if STAmount.kMaxOffset < x then none
      else if x < STAmount.kMinOffset then some zero
      else some (signed negative m x)) = some a) : Holds negative R a := by
  have hlo' : (10 : ℚ) ^ 15 ≤ m := by exact_mod_cast hlo
  have hhi' : (m : ℚ) < 10 ^ 16 := by exact_mod_cast hhi
  split_ifs at ha with hover hsmall
  · have hx : x < -96 := hsmall
    refine .inl ⟨?_, (Option.some.inj ha).symm⟩
    have hpow : (10 : ℚ) ^ x ≤ 10 ^ (-97 : ℤ) := zpow_le_zpow_right₀ (by norm_num) (by omega)
    calc R = m * 10 ^ x := hR.symm
      _ < 10 ^ 16 * 10 ^ x := by gcongr
      _ ≤ 10 ^ 16 * 10 ^ (-97 : ℤ) := by gcongr
      _ = least := by rw [least]; norm_num
  · have hx : -96 ≤ x := not_lt.mp hsmall
    have hx' : x ≤ 80 := not_lt.mp hover
    refine .inr ⟨?_, m, x, (Option.some.inj ha).symm, hlo, hhi, hR, hx, hx'⟩
    have hpow : (10 : ℚ) ^ (-96 : ℤ) ≤ 10 ^ x := zpow_le_zpow_right₀ (by norm_num) hx
    rw [least, ← hR]
    exact mul_le_mul hlo' hpow (by positivity) (by positivity)

theorem ofNumber_holds {mode : RoundingMode} {negative : Bool} {R : ℚ} {z r : Number}
    {a : IOUAmount}
    (hr : Number.normalize ⟨mode, .small⟩ z.negative z.mantissa z.exponent = some r)
    (hsixteen : Sixteen negative R r) (ha : ofNumber mode z = some a) : Holds negative R a := by
  have hfit : ofNumber mode z = if STAmount.kMaxOffset < r.exponent then none
      else if r.exponent < STAmount.kMinOffset then some zero
      else some (signed r.negative r.mantissa r.exponent) := by
    rw [ofNumber, hr]
    rfl
  rw [hfit, hsixteen.sign] at ha
  exact holds_of_digits hsixteen.min_le hsixteen.lt_max hsixteen.value ha

theorem normalize_sixteen (mode : RoundingMode) {negative : Bool} {R : ℚ} {z : Number}
    (hz : Sixteen negative R z) (hlo : -1000 ≤ z.exponent) (hhi : z.exponent ≤ 1000) :
    ∃ r, Number.normalize ⟨mode, .small⟩ z.negative z.mantissa z.exponent = some r ∧
      Sixteen negative R r := by
  obtain ⟨r, hr, hsixteen, -⟩ := Number.normalize_rounds mode z.negative (k := 0) (by norm_num) (by simpa using hz.min_le) (by simpa using hz.lt_max) hlo hhi
  rw [pow_zero, Nat.cast_one, div_one, Number.rounded_natCast, Int.cast_natCast, Nat.cast_zero,
    add_zero, hz.value, hz.sign] at hsixteen
  exact ⟨r, hr, hsixteen⟩

theorem exists_extra {M : ℕ} (hlo : 10 ^ 15 ≤ M) (hhi : M ≤ 10 ^ 18) :
    ∃ k, k ≤ 3 ∧ 10 ^ 15 * 10 ^ k ≤ M ∧ M < 10 ^ 16 * 10 ^ k := by
  by_cases h1 : M < 10 ^ 16
  · exact ⟨0, by norm_num, by omega, by omega⟩
  · by_cases h2 : M < 10 ^ 17
    · exact ⟨1, by norm_num, by omega, by omega⟩
    · by_cases h3 : M < 10 ^ 18
      · exact ⟨2, by norm_num, by omega, by omega⟩
      · exact ⟨3, le_rfl, by omega, by omega⟩

section Normalize

variable {M : ℕ} {E : ℤ}

/-- The digits of a value, by the exponent of the sixteenth. -/
def digitsOf (U : ℚ) : ℚ := U / 10 ^ sixteenth U

theorem digitsOf_eq {k : ℕ} (hlo : 10 ^ 15 * 10 ^ k ≤ M) (hhi : M < 10 ^ 16 * 10 ^ k) :
    sixteenth (M * 10 ^ E) = E + k ∧ digitsOf (M * 10 ^ E) = M / (10 ^ k : ℕ) := by
  have hlo' : (10 : ℚ) ^ 15 * 10 ^ k ≤ M := by exact_mod_cast hlo
  have hhi' : (M : ℚ) < 10 ^ 16 * 10 ^ k := by exact_mod_cast hhi
  have hE : (0 : ℚ) < 10 ^ E := by positivity
  have hsplit : (10 : ℚ) ^ (E + k) = 10 ^ k * 10 ^ E := by
    rw [zpow_add₀ (by norm_num), zpow_natCast, mul_comm]
  have hexp : sixteenth (M * 10 ^ E) = E + k := by
    apply sixteenth_eq
    · rw [hsplit, ← mul_assoc]
      exact mul_le_mul_of_nonneg_right hlo' hE.le
    · rw [hsplit, ← mul_assoc]
      exact mul_lt_mul_of_pos_right hhi' hE
  refine ⟨hexp, ?_⟩
  rw [digitsOf, hexp, hsplit, mul_div_mul_right _ _ hE.ne']
  push_cast
  rfl

theorem exponent_bounds {z : Number} (hM : 0 < M) (hM' : M ≤ 10 ^ 18) {n : ℕ}
    (hz : (z.mantissa : ℚ) * 10 ^ z.exponent = M * 10 ^ E) (hlo : 1 ≤ z.mantissa)
    (hhi : z.mantissa < 10 ^ n) : E - n < z.exponent ∧ z.exponent ≤ E + 18 := by
  have hM1 : (1 : ℚ) ≤ M := by exact_mod_cast hM
  have hM2 : (M : ℚ) ≤ 10 ^ 18 := by exact_mod_cast hM'
  have hz1 : (1 : ℚ) ≤ z.mantissa := by exact_mod_cast hlo
  have hz2 : (z.mantissa : ℚ) < 10 ^ n := by exact_mod_cast hhi
  constructor
  · have : (10 : ℚ) ^ E < 10 ^ (n + z.exponent) := calc
      (10 : ℚ) ^ E ≤ M * 10 ^ E := le_mul_of_one_le_left (by positivity) hM1
      _ = z.mantissa * 10 ^ z.exponent := hz.symm
      _ < 10 ^ n * 10 ^ z.exponent := by gcongr
      _ = 10 ^ (n + z.exponent) := by rw [zpow_add₀ (by norm_num), zpow_natCast]
    have := (zpow_lt_zpow_iff_right₀ (by norm_num)).mp this
    omega
  · have : (10 : ℚ) ^ z.exponent ≤ 10 ^ (18 + E) := calc
      (10 : ℚ) ^ z.exponent ≤ z.mantissa * 10 ^ z.exponent :=
        le_mul_of_one_le_left (by positivity) hz1
      _ = M * 10 ^ E := hz
      _ ≤ 10 ^ 18 * 10 ^ E := by gcongr
      _ = 10 ^ (18 + E) := by rw [zpow_add₀ (by norm_num)]; norm_num
    have := (zpow_le_zpow_iff_right₀ (by norm_num)).mp this
    omega

theorem viaNumber_holds {env : NumberEnv} {negative : Bool} {v : Number} {a : IOUAmount}
    (hM : 0 < M) (hM' : M ≤ 10 ^ 18) (hE : -400 ≤ E) (hE' : E ≤ 400)
    (hv : Number.normalize env negative M E = some v) (ha : ofNumber env.mode v = some a) :
    Holds negative (rounded env.mode negative (digitsOf (M * 10 ^ E)) *
      10 ^ sixteenth (M * 10 ^ E)) a := by
  have hlt : M < 10 ^ Number.digitsMax := by
    rw [Number.digitsMax]
    omega
  obtain ⟨mode, scale⟩ := env
  cases scale with
  | large =>
    -- nineteen digits hold the mantissa as it is
    obtain ⟨z, hz, hexact⟩ : ∃ z, Number.normalize ⟨mode, .large⟩ negative M E = some z ∧
        Number.Exact .large negative M E z :=
      Number.normalize_exact rfl hM hM'
        ⟨by change -32768 + 18 ≤ E; omega, by change E ≤ 32768; omega⟩ hM hlt
    obtain rfl := Option.some.inj (hz.symm.trans hv)
    have hmin : 10 ^ 18 ≤ z.mantissa := hexact.min_le
    have hmax : z.mantissa ≤ 9999999999999999999 := hexact.le_max
    obtain ⟨he, he'⟩ := exponent_bounds (n := 19) hM hM' hexact.value (by omega) (by omega)
    obtain ⟨hexp, hdigits⟩ := digitsOf_eq (M := z.mantissa) (E := z.exponent) (k := 3)
      (by omega) (by omega)
    rw [hexact.value] at hexp hdigits
    obtain ⟨r, hr, hsixteen, -⟩ := Number.normalize_rounds mode negative (M := z.mantissa) (e := z.exponent) (k := 3) le_rfl (by omega) (by omega) (by omega) (by omega)
    rw [← hdigits, ← hexp] at hsixteen
    exact ofNumber_holds (by rw [hexact.sign]; exact hr) hsixteen ha
  | small =>
    by_cases hshort : M < 10 ^ 15
    · -- a mantissa that is short of digits is given them
      obtain ⟨z, hz, hexact⟩ : ∃ z, Number.normalize ⟨mode, .small⟩ negative M E = some z ∧
          Number.Exact .small negative M E z :=
        Number.normalize_exact rfl hM hshort.le
          ⟨by change -32768 + 15 ≤ E; omega, by change E ≤ 32768; omega⟩ hM hlt
      obtain rfl := Option.some.inj (hz.symm.trans hv)
      have hmin : 10 ^ 15 ≤ z.mantissa := hexact.min_le
      have hmax : z.mantissa ≤ 9999999999999999 := hexact.le_max
      obtain ⟨he, he'⟩ := exponent_bounds (n := 16) hM hM' hexact.value (by omega) (by omega)
      obtain ⟨hexp, hdigits⟩ := digitsOf_eq (M := z.mantissa) (E := z.exponent) (k := 0)
        (by omega) (by omega)
      rw [hexact.value] at hexp hdigits
      obtain ⟨r, hr, hsixteen, -⟩ := Number.normalize_rounds mode negative (M := z.mantissa) (e := z.exponent) (k := 0) (by norm_num) (by omega) (by omega)
        (by omega) (by omega)
      rw [← hdigits, ← hexp] at hsixteen
      exact ofNumber_holds (by rw [hexact.sign]; exact hr) hsixteen ha
    · obtain ⟨k, hk, hlo, hhi⟩ := exists_extra (not_lt.mp hshort) hM'
      obtain ⟨hexp, hdigits⟩ := digitsOf_eq (E := E) hlo hhi
      obtain ⟨z, hz, hsixteen, he, he'⟩ := Number.normalize_rounds mode negative (e := E) hk hlo hhi (by omega) (by omega)
      obtain rfl := Option.some.inj (hz.symm.trans hv)
      rw [← hdigits, ← hexp] at hsixteen
      obtain ⟨r, hr, hagain⟩ := normalize_sixteen mode hsixteen (by omega) (by omega)
      exact ofNumber_holds hr hagain ha

/-! ### Normalizing as it was before `Number` -/

theorem scaleUp_spec (M : ℕ) (E : ℤ) (hM : 0 < M) (hshort : M < 10 ^ 15) :
    ((STAmount.scaleUp M E).1 : ℚ) * 10 ^ (STAmount.scaleUp M E).2 = M * 10 ^ E ∧
      (STAmount.scaleUp M E).1 < 10 ^ 16 ∧
      (10 ^ 15 ≤ (STAmount.scaleUp M E).1 ∨ (STAmount.scaleUp M E).2 ≤ -96) := by
  fun_induction STAmount.scaleUp M E with
  | case1 M E h ih =>
    have hten : ((M * 10 : ℕ) : ℚ) * 10 ^ (E - 1) = M * 10 ^ E := by
      rw [zpow_sub_one₀ (by norm_num)]
      push_cast
      field_simp
    by_cases hnext : M * 10 < 10 ^ 15
    · obtain ⟨hvalue, hrest⟩ := ih (by omega) hnext
      exact ⟨hvalue.trans hten, hrest⟩
    · rw [STAmount.scaleUp, if_neg fun hc => hnext hc.1]
      exact ⟨hten, by simp only; omega, .inl (by simp only; omega)⟩
  | case2 M E h =>
    refine ⟨rfl, by simp only; omega, .inr ?_⟩
    by_contra hexp
    exact h ⟨hshort, not_le.mp hexp⟩

theorem scaleDown_spec {k : ℕ} {r : ℕ × ℤ} (hk : k ≤ 3) (hlo : 10 ^ 15 * 10 ^ k ≤ M)
    (hhi : M < 10 ^ 16 * 10 ^ k) (hr : STAmount.scaleDown M E = some r) :
    r = (M / 10 ^ k, E + k) := by
  have hmax : STAmount.kMaxValue = 9999999999999999 := rfl
  induction k generalizing M E with
  | zero =>
    rw [STAmount.scaleDown, if_neg (by omega)] at hr
    simp [← Option.some.inj hr]
  | succ k ih =>
    have hK : 0 < 10 ^ k := by positivity
    rw [pow_succ] at hlo hhi
    rw [STAmount.scaleDown, if_pos (by omega)] at hr
    split_ifs at hr with hover
    have hnext := ih (M := M / 10) (by omega) (by omega) (by omega) hr
    rw [hnext, Nat.div_div_eq_div_mul, pow_succ']
    push_cast
    rw [add_assoc, add_comm (1 : ℤ)]

theorem floor_digits_le {U : ℚ} : ⌊digitsOf U⌋ * (10 : ℚ) ^ sixteenth U ≤ U := by
  have hpos : (0 : ℚ) < 10 ^ sixteenth U := by positivity
  calc ⌊digitsOf U⌋ * (10 : ℚ) ^ sixteenth U ≤ digitsOf U * 10 ^ sixteenth U :=
        mul_le_mul_of_nonneg_right (Int.floor_le _) hpos.le
    _ = U := div_mul_cancel₀ U hpos.ne'

theorem dropped_holds {negative : Bool} {r : ℕ × ℤ} {a : IOUAmount} (hM : 0 < M)
    (hM' : M ≤ 10 ^ 18)
    (hr : STAmount.scaleDown (STAmount.scaleUp M E).1 (STAmount.scaleUp M E).2 = some r)
    (ha : (if r.2 < STAmount.kMinOffset ∨ r.1 < STAmount.kMinValue then some zero
      else if STAmount.kMaxOffset < r.2 then none else some (signed negative r.1 r.2)) = some a) :
    Holds negative (⌊digitsOf (M * 10 ^ E)⌋ * 10 ^ sixteenth (M * 10 ^ E)) a := by
  -- for a full mantissa, the order of the two checks does not matter
  have hfull : ∀ (m : ℕ) (x : ℤ), r = (m, x) → 10 ^ 15 ≤ m → m < 10 ^ 16 →
      Holds negative (m * 10 ^ x) a := by
    rintro m x rfl hlo hhi
    have hmin : ¬m < STAmount.kMinValue := not_lt.mpr hlo
    refine holds_of_digits hlo hhi rfl ?_
    by_cases hsmall : x < STAmount.kMinOffset
    · have hover : ¬STAmount.kMaxOffset < x := by
        have hx : x < -96 := hsmall
        change ¬80 < x
        omega
      rw [if_pos (.inl hsmall)] at ha
      rw [if_neg hover, if_pos hsmall, ha]
    · rw [if_neg (not_or_intro hsmall hmin)] at ha
      rw [if_neg hsmall, ha]
  by_cases hshort : M < 10 ^ 15
  · obtain ⟨hvalue, hlt, hor⟩ := scaleUp_spec M E hM hshort
    have hmax : STAmount.kMaxValue = 9999999999999999 := rfl
    have hstop : r = STAmount.scaleUp M E := by
      rw [STAmount.scaleDown, if_neg (by omega)] at hr
      exact (Option.some.inj hr).symm
    by_cases hlo : 10 ^ 15 ≤ (STAmount.scaleUp M E).1
    · obtain ⟨hexp, hdigits⟩ := digitsOf_eq (E := (STAmount.scaleUp M E).2) (k := 0)
        (by simpa using hlo) (by simpa using hlt)
      rw [hvalue] at hexp hdigits
      rw [hexp, hdigits, pow_zero, Nat.cast_one, div_one, Int.floor_natCast, Int.cast_natCast,
        Nat.cast_zero, add_zero]
      exact hfull _ _ hstop hlo hlt
    · -- the exponent has run out first
      have hexp := hor.resolve_left hlo
      have hzero : a = zero := by
        rw [hstop, if_pos (.inr (not_le.mp hlo))] at ha
        exact (Option.some.inj ha).symm
      refine .inl ⟨floor_digits_le.trans_lt ?_, hzero⟩
      have hlt' : ((STAmount.scaleUp M E).1 : ℚ) < 10 ^ 15 := by exact_mod_cast not_le.mp hlo
      have hpow : (10 : ℚ) ^ (STAmount.scaleUp M E).2 ≤ 10 ^ (-96 : ℤ) :=
        zpow_le_zpow_right₀ (by norm_num) hexp
      rw [← hvalue, least]
      exact mul_lt_mul hlt' hpow (by positivity) (by positivity)
  · obtain ⟨k, hk, hlo, hhi⟩ := exists_extra (not_lt.mp hshort) hM'
    obtain ⟨hexp, hdigits⟩ := digitsOf_eq (E := E) hlo hhi
    have hsame : STAmount.scaleUp M E = (M, E) := by
      rw [STAmount.scaleUp, if_neg fun h => hshort h.1]
    rw [hsame] at hr
    have hK : 0 < 10 ^ k := by positivity
    have hfloor : ⌊(M / (10 ^ k : ℕ) : ℚ)⌋ = (M / 10 ^ k : ℕ) := Rat.floor_natCast_div_natCast _ _
    rw [hexp, hdigits, hfloor, Int.cast_natCast]
    exact hfull _ _ (scaleDown_spec hk hlo hhi hr) ((Nat.le_div_iff_mul_le hK).mpr hlo)
      (Nat.div_lt_of_lt_mul (by rwa [mul_comm]))

/-- **Normalizing an amount** rounds its magnitude to sixteen digits, or makes it zero. -/
theorem ofParts_holds {env : AmountEnv} {negative : Bool} {a : IOUAmount} (hM : 0 < M)
    (hM' : M ≤ 10 ^ 18) (hE : -400 ≤ E) (hE' : E ≤ 400)
    (ha : ofParts env (if negative then -(M : ℤ) else M) E = some a) :
    Holds negative (cut env negative (digitsOf (M * 10 ^ E)) * 10 ^ sixteenth (M * 10 ^ E)) a := by
  have hne : (if negative then -(M : ℤ) else M) ≠ 0 := by split_ifs <;> omega
  have hneg : decide ((if negative then -(M : ℤ) else M) < 0) = negative := by
    cases negative
    · simp
    · simp
      omega
  have habs : (if negative then -(M : ℤ) else M).natAbs = M := by split_ifs <;> omega
  rw [ofParts, if_neg hne, hneg, habs] at ha
  rw [cut, movesAway]
  by_cases hswitch : env.switchover = true
  · rw [if_pos hswitch] at ha
    rw [hswitch, Bool.true_and]
    simp only [Option.bind_eq_bind, Option.bind_eq_some_iff] at ha
    obtain ⟨v, hv, ha⟩ := ha
    exact viaNumber_holds hM hM' hE hE' hv ha
  · rw [if_neg hswitch] at ha
    rw [Bool.eq_false_iff.mpr hswitch, Bool.false_and, if_neg (by simp), add_zero]
    simp only [Option.bind_eq_bind, Option.bind_eq_some_iff] at ha
    obtain ⟨r, hr, ha⟩ := ha
    exact dropped_holds hM hM' hr ha

end Normalize

end IOUAmount

end FalconLedger
