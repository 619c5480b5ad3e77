import FalconLedger.Properties.AmountRounding

/-!
# An amount times a fraction

`mulRatio` cuts the exact quotient to eighteen digits, remembers whether there are more, and
normalizes what it has cut to sixteen digits before it rounds in the direction asked for. The
normalization rounds on its own: to the nearest, where the mode is the default one.
-/

namespace FalconLedger.IOUAmount

open Wire (AmountEnv STAmount)

/-! ### Logarithms by a table -/

theorem kFl64_eq : kFl64 = 18 := by decide

theorem kPowerTable_get {i : ℕ} (hi : i < 30) : kPowerTable[i]? = some (10 ^ i) := by
  rw [kPowerTable, List.getElem?_map, List.getElem?_range hi]
  rfl

theorem power_ok {i : ℕ} (hi : i < 30) : power i = .ok (10 ^ i) := by
  rw [power, kPowerTable_get hi]

theorem pow_lt_of_lt_log10Ceil {v i : ℕ} (h : i < log10Ceil v) : 10 ^ i < v := by
  have hi : i < 30 := h.trans_le List.findIdx_le_length
  have hnot := List.not_of_lt_findIdx h
  simpa [kPowerTable] using hnot

theorem le_pow_log10Ceil {v : ℕ} (hv : v ≤ 10 ^ 29) : log10Ceil v < 30 ∧ v ≤ 10 ^ log10Ceil v := by
  have hlt : log10Ceil v < 30 := by
    refine List.findIdx_lt_length_of_exists ⟨10 ^ 29, ?_, by simpa using hv⟩
    exact List.mem_of_getElem? (kPowerTable_get (by norm_num))
  refine ⟨hlt, ?_⟩
  have := List.findIdx_of_getElem?_eq_some (p := fun p => decide (v ≤ p)) (kPowerTable_get hlt)
  exact of_decide_eq_true this

/-! ### Scaling the quotient -/

theorem mul_div_mod_carried (mul : ℕ) {den : ℕ} (hden : 0 < den) (p : ℕ) :
    mul * p / den = mul / den * p + mul % den * p / den ∧
      mul * p % den = mul % den * p - mul % den * p / den * den := by
  have hsplit : mul * p = mul % den * p + mul / den * p * den := by
    have := congrArg (· * p) (Nat.div_add_mod mul den)
    simp only [add_mul] at this
    rw [← this]
    ring
  constructor
  · rw [hsplit, Nat.add_mul_div_right _ _ hden, add_comm]
  · rw [hsplit, Nat.add_mul_mod_self_right]
    have := Nat.div_add_mod' (mul % den * p) den
    omega

theorem grow_spec {mul den : ℕ} {e : ℤ} (hden : 0 < den) (hlow : 0 < mul / den)
    (hmul : mul / den ≤ 10 ^ 29) :
    ∃ r : ℕ, r ≤ 18 ∧ grow den (mul / den) (mul - mul / den * den) e =
        .ok (mul * 10 ^ r / den, mul * 10 ^ r % den, e - r) ∧ mul * 10 ^ r / den ≤ 10 ^ 29 ∧
      (mul * 10 ^ r % den ≠ 0 → 10 ^ 17 ≤ mul * 10 ^ r / den) := by
  have hrem : mul - mul / den * den = mul % den := by
    have := Nat.div_add_mod' mul den
    omega
  rw [hrem, grow, kFl64_eq]
  by_cases hzero : mul % den = 0
  · refine ⟨0, by norm_num, ?_, ?_, ?_⟩
    · rw [if_pos hzero, pow_zero, mul_one, Nat.cast_zero, sub_zero]
    · simpa using hmul
    · simp [hzero]
  · obtain ⟨hc, hle⟩ := le_pow_log10Ceil hmul
    rw [if_neg hzero]
    by_cases hroom : log10Ceil (mul / den) < 18
    · obtain ⟨r, hr⟩ : ∃ r, log10Ceil (mul / den) + r = 18 :=
        ⟨18 - log10Ceil (mul / den), by omega⟩
      have hsub : 18 - log10Ceil (mul / den) = r := by omega
      have hp : 0 < 10 ^ r := by positivity
      obtain ⟨hquot, hmod⟩ := mul_div_mod_carried mul hden (10 ^ r)
      refine ⟨r, by omega, ?_, ?_, fun _ => ?_⟩
      · rw [if_pos hroom, hsub, power_ok (by omega)]
        change Except.ok (mul / den * 10 ^ r + mul % den * 10 ^ r / den,
          mul % den * 10 ^ r - mul % den * 10 ^ r / den * den, e - (r : ℤ)) = _
        rw [← hmod, ← hquot]
      · have hlt : mul % den * 10 ^ r / den < 10 ^ r := by
          rw [Nat.div_lt_iff_lt_mul hden, mul_comm (10 ^ r)]
          exact Nat.mul_lt_mul_of_pos_right (Nat.mod_lt _ hden) hp
        have hpow : 10 ^ log10Ceil (mul / den) * 10 ^ r = 10 ^ 18 := by rw [← pow_add, hr]
        have hle' := Nat.mul_le_mul_right (10 ^ r) hle
        have hpow18 : 10 ^ r ≤ 10 ^ 18 := Nat.pow_le_pow_right (by norm_num) (by omega)
        rw [hquot]
        omega
      · rw [hquot]
        refine le_trans ?_ (Nat.le_add_right _ _)
        by_cases hc0 : log10Ceil (mul / den) = 0
        · have : r = 18 := by omega
          rw [this]
          omega
        · obtain ⟨c, hc'⟩ := Nat.exists_eq_succ_of_ne_zero hc0
          have hlt := pow_lt_of_lt_log10Ceil (v := mul / den) (i := c) (by omega)
          calc 10 ^ 17 = 10 ^ c * 10 ^ r := by
                rw [← pow_add]
                congr 1
                omega
            _ ≤ mul / den * 10 ^ r := Nat.mul_le_mul_right _ hlt.le
    · refine ⟨0, by norm_num, ?_, ?_, fun _ => ?_⟩
      · have hlt : mul % den / den = 0 := Nat.div_eq_of_lt (Nat.mod_lt _ hden)
        rw [if_neg hroom, pow_zero, mul_one, Nat.cast_zero, sub_zero]
        change Except.ok (mul / den + mul % den / den, mul % den - mul % den / den * den, e) = _
        rw [hlt, add_zero, zero_mul, Nat.sub_zero]
      · simpa using hmul
      · have := pow_lt_of_lt_log10Ceil (v := mul / den) (i := 17) (by omega)
        simp only [pow_zero, mul_one]
        omega

theorem shrink_spec {low : ℕ} (hasRem : Bool) {e : ℤ} (hlow : low ≤ 10 ^ 29)
    (hrem : hasRem = true → 10 ^ 17 ≤ low) :
    ∃ s : ℕ, s ≤ 11 ∧ shrink low hasRem e =
        .ok (low / 10 ^ s, hasRem || decide (low % 10 ^ s ≠ 0), e + s) ∧ low / 10 ^ s ≤ 10 ^ 18 ∧
      ((hasRem || decide (low % 10 ^ s ≠ 0)) = true → 10 ^ 17 ≤ low / 10 ^ s) ∧
      (0 < low → 0 < low / 10 ^ s) := by
  obtain ⟨hc, hle⟩ := le_pow_log10Ceil hlow
  rw [shrink, kFl64_eq]
  by_cases hshrink : 18 < log10Ceil low
  · obtain ⟨s, hs⟩ : ∃ s, 18 + s = log10Ceil low := ⟨log10Ceil low - 18, by omega⟩
    have hsub : log10Ceil low - 18 = s := by omega
    have hp : 0 < 10 ^ s := by positivity
    have hmod : low - low / 10 ^ s * 10 ^ s = low % 10 ^ s := by
      have := Nat.div_add_mod' low (10 ^ s)
      omega
    have hlt := pow_lt_of_lt_log10Ceil (v := low) (i := 17 + s) (by omega)
    have hge : 10 ^ 17 ≤ low / 10 ^ s := by
      rw [Nat.le_div_iff_mul_le hp, ← pow_add]
      exact hlt.le
    refine ⟨s, by omega, ?_, ?_, fun _ => hge, fun _ => by omega⟩
    · rw [if_pos hshrink, hsub, power_ok (by omega)]
      change Except.ok (low / 10 ^ s, hasRem || decide (low - low / 10 ^ s * 10 ^ s ≠ 0),
        e + (s : ℤ)) = _
      rw [hmod]
    · refine Nat.div_le_of_le_mul ?_
      rw [← pow_add, add_comm s, hs]
      exact hle
  · refine ⟨0, by norm_num, ?_, ?_, fun h => ?_, fun h => by simpa using h⟩
    · rw [if_neg hshrink]
      simp [Nat.mod_one]
      rfl
    · have : 10 ^ log10Ceil low ≤ 10 ^ 18 := Nat.pow_le_pow_right (by norm_num) (by omega)
      simp only [pow_zero, Nat.div_one]
      omega
    · simp only [pow_zero, Nat.mod_one, ne_eq, not_true_eq_false, decide_false, Bool.or_false] at h
      simpa using hrem h

/-- A fraction with the quotient that is normalized, and the exponent that goes with it. -/
structure Scaled (mul den : ℕ) (e : ℤ) (N D : ℕ) (E : ℤ) : Prop where
  pos : 0 < D
  value : (N / D : ℚ) * 10 ^ E = mul / den * 10 ^ e
  quotient_pos : 0 < N / D
  quotient_le : N / D ≤ 10 ^ 18
  le_quotient : N % D ≠ 0 → 10 ^ 17 ≤ N / D
  le_exponent : e - 18 ≤ E
  exponent_le : E ≤ e + 11

/-- **`mulRatio` normalizes a quotient of at most eighteen digits**, and no index is out of range. -/
theorem mulRatio_eq (env : AmountEnv) {amt : IOUAmount} {num den : UInt32} (roundUp : Bool)
    (hden : 0 < den.toNat) (hlow : 0 < amt.mantissa.natAbs * num.toNat / den.toNat)
    (hmul : amt.mantissa.natAbs * num.toNat ≤ 10 ^ 29) :
    ∃ N D E, Scaled (amt.mantissa.natAbs * num.toNat) den.toNat amt.exponent N D E ∧
      mulRatio env amt num den roundUp =
        (orOverflow (ofParts env
          (if decide (amt.mantissa < 0) = true then -((N / D : ℕ) : ℤ) else (N / D : ℕ)) E)).bind
          fun result =>
            roundAway env result (decide (N % D ≠ 0)) (decide (amt.mantissa < 0)) roundUp := by
  set mul := amt.mantissa.natAbs * num.toNat with hmuldef
  obtain ⟨r, hr, hgrow, hle, hge⟩ := grow_spec (e := amt.exponent) hden hlow
    ((Nat.div_le_self _ _).trans hmul)
  obtain ⟨s, hs, hshrink, hle18, hge17, hpos⟩ := shrink_spec
    (decide (mul * 10 ^ r % den.toNat ≠ 0)) (e := amt.exponent - r) hle
    fun h => hge (of_decide_eq_true h)
  have hD : 0 < den.toNat * 10 ^ s := Nat.mul_pos hden (by positivity)
  have hquot : mul * 10 ^ r / den.toNat / 10 ^ s = mul * 10 ^ r / (den.toNat * 10 ^ s) :=
    Nat.div_div_eq_div_mul _ _ _
  have hrem : (decide (mul * 10 ^ r % den.toNat ≠ 0) ||
      decide (mul * 10 ^ r / den.toNat % 10 ^ s ≠ 0)) =
        decide (mul * 10 ^ r % (den.toNat * 10 ^ s) ≠ 0) := by
    rw [← Bool.decide_or, decide_eq_decide, Nat.mod_mul]
    constructor
    · rintro (h | h) hzero
      · exact h (Nat.add_eq_zero_iff.mp hzero).1
      · exact (Nat.mul_ne_zero hden.ne' h) (Nat.add_eq_zero_iff.mp hzero).2
    · intro h
      by_contra hnot
      rw [not_or, not_not, not_not] at hnot
      rw [hnot.1, hnot.2] at h
      exact h rfl
  have hgrown : 0 < mul * 10 ^ r / den.toNat :=
    hlow.trans_le (Nat.div_le_div_right (Nat.le_mul_of_pos_right _ (by positivity)))
  rw [hquot] at hle18 hpos
  rw [hquot, hrem] at hge17
  refine ⟨mul * 10 ^ r, den.toNat * 10 ^ s, amt.exponent - r + s,
    ⟨hD, ?_, hpos hgrown, hle18, fun h => hge17 (decide_eq_true h), by omega, by omega⟩, ?_⟩
  · have hden' : (den.toNat : ℚ) ≠ 0 := by exact_mod_cast hden.ne'
    rw [zpow_add₀ (by norm_num), zpow_sub₀ (by norm_num), zpow_natCast, zpow_natCast]
    push_cast
    field_simp
  · have hne : den ≠ 0 := by
      rintro rfl
      exact lt_irrefl _ hden
    have hint : toInt64 (mul * 10 ^ r / (den.toNat * 10 ^ s)) =
        .ok (mul * 10 ^ r / (den.toNat * 10 ^ s)) := by
      rw [toInt64, if_neg]
      rw [Number.kMaxRep]
      omega
    rw [mulRatio, if_neg hne]
    simp only [← hmuldef, hgrow, bind, Except.bind, hshrink, hquot, hrem, hint]

/-! ### The digits that are kept -/

/-- The digits of a value up to the eighteenth. -/
def kept (X : ℚ) : ℚ := ⌊100 * digitsOf X⌋ / 100

/-- There are more than eighteen digits. -/
def Longer (X : ℚ) : Prop := (⌊100 * digitsOf X⌋ : ℚ) ≠ 100 * digitsOf X

theorem hundred_digits_int {M : ℕ} {E : ℤ} (hM : 0 < M) (hM' : M ≤ 10 ^ 18) :
    ∃ n : ℤ, 100 * digitsOf (M * 10 ^ E) = n := by
  by_cases hshort : M < 10 ^ 15
  · have hM1 : (0 : ℚ) < M := by exact_mod_cast hM
    have hM2 : (M : ℚ) < 10 ^ 15 := by exact_mod_cast hshort
    have hle := sixteenth_le (U := M * 10 ^ E) (mul_pos hM1 (by positivity))
    have hpow : (10 : ℚ) ^ sixteenth (M * 10 ^ E) < 10 ^ E := by
      have : (M : ℚ) * 10 ^ E < 10 ^ 15 * 10 ^ E := by gcongr
      exact lt_of_mul_lt_mul_left (hle.trans_lt this) (by positivity)
    obtain ⟨n, hn⟩ := Int.le.dest ((zpow_lt_zpow_iff_right₀ (by norm_num)).mp hpow).le
    refine ⟨100 * (M * 10 ^ n), ?_⟩
    have hne : (10 : ℚ) ^ sixteenth (M * 10 ^ E) ≠ 0 := by positivity
    rw [digitsOf]
    nth_rewrite 1 [← hn]
    rw [zpow_add₀ (by norm_num), zpow_natCast, mul_comm ((10 : ℚ) ^ sixteenth _), ← mul_assoc,
      mul_div_cancel_right₀ _ hne]
    push_cast
    rfl
  · obtain ⟨k, hk, hlo, hhi⟩ := exists_extra (not_lt.mp hshort) hM'
    rw [(digitsOf_eq (E := E) hlo hhi).2]
    obtain rfl | rfl | rfl | rfl : k = 0 ∨ k = 1 ∨ k = 2 ∨ k = 3 := by omega
    · exact ⟨100 * M, by push_cast; ring⟩
    · exact ⟨10 * M, by push_cast; ring⟩
    · exact ⟨M, by push_cast; ring⟩
    · obtain rfl : M = 10 ^ 18 := by omega
      exact ⟨10 ^ 17, by norm_num⟩

theorem mod_eq_zero_iff {N D : ℕ} (hD : 0 < D) : N % D = 0 ↔ (N / D : ℚ) = (N / D : ℕ) := by
  have hD' : (D : ℚ) ≠ 0 := by exact_mod_cast hD.ne'
  rw [div_eq_iff hD']
  constructor
  · intro hzero
    exact_mod_cast (Nat.div_mul_cancel (Nat.dvd_of_mod_eq_zero hzero)).symm
  · intro heq
    have hnat : N = N / D * D := by exact_mod_cast heq
    have := Nat.div_add_mod' N D
    omega

theorem quotient_bounds (N D : ℕ) :
    ((N / D : ℕ) : ℚ) ≤ N / D ∧ (N / D : ℚ) < (N / D : ℕ) + 1 := by
  have hfloor : ⌊(N / D : ℚ)⌋ = (N / D : ℕ) := Rat.floor_natCast_div_natCast N D
  have hle := Int.floor_le (N / D : ℚ)
  have hlt := Int.lt_floor_add_one (N / D : ℚ)
  rw [hfloor, Int.cast_natCast] at hle hlt
  exact ⟨hle, hlt⟩

theorem quotient_digits {N D k : ℕ} (E : ℤ) (hlo : 10 ^ 15 * 10 ^ k ≤ N / D)
    (hhi : N / D < 10 ^ 16 * 10 ^ k) :
    sixteenth ((N / D : ℚ) * 10 ^ E) = E + k ∧
      digitsOf ((N / D : ℚ) * 10 ^ E) = (N / D : ℚ) / (10 ^ k : ℕ) := by
  obtain ⟨hle, hlt⟩ := quotient_bounds N D
  have hE : (0 : ℚ) < 10 ^ E := by positivity
  have hlo' : (10 : ℚ) ^ 15 * 10 ^ k ≤ (N / D : ℕ) := by exact_mod_cast hlo
  have hhi' : ((N / D : ℕ) : ℚ) + 1 ≤ 10 ^ 16 * 10 ^ k := by exact_mod_cast hhi
  have hsplit : (10 : ℚ) ^ (E + k) = 10 ^ k * 10 ^ E := by
    rw [zpow_add₀ (by norm_num), zpow_natCast, mul_comm]
  have hexp : sixteenth ((N / D : ℚ) * 10 ^ E) = E + k := by
    apply sixteenth_eq
    · rw [hsplit, ← mul_assoc]
      exact mul_le_mul_of_nonneg_right (hlo'.trans hle) hE.le
    · rw [hsplit, ← mul_assoc]
      exact mul_lt_mul_of_pos_right (hlt.trans_le hhi') hE
  refine ⟨hexp, ?_⟩
  rw [digitsOf, hexp, hsplit, mul_div_mul_right _ _ hE.ne']
  push_cast
  rfl

theorem Scaled.digits {mul den N D : ℕ} {e E : ℤ} (h : Scaled mul den e N D E) :
    sixteenth ((N / D : ℕ) * 10 ^ E) = sixteenth ((N / D : ℚ) * 10 ^ E) ∧
      digitsOf ((N / D : ℕ) * 10 ^ E) = kept ((N / D : ℚ) * 10 ^ E) ∧
      (N % D ≠ 0 ↔ Longer ((N / D : ℚ) * 10 ^ E)) := by
  have hfloor : ⌊(N / D : ℚ)⌋ = (N / D : ℕ) := Rat.floor_natCast_div_natCast N D
  obtain ⟨hle, hlt⟩ := quotient_bounds N D
  have hexact := mod_eq_zero_iff (N := N) h.pos
  by_cases hrem : N % D = 0
  · rw [hexact.mp hrem]
    obtain ⟨n, hn⟩ := hundred_digits_int (E := E) h.quotient_pos h.quotient_le
    refine ⟨rfl, ?_, ?_⟩
    · rw [kept, hn, Int.floor_intCast, ← hn]
      ring
    · rw [Longer, hn, Int.floor_intCast]
      simp [hrem]
  · have hne : (N / D : ℚ) ≠ (N / D : ℕ) := mt hexact.mpr hrem
    have hgt : ((N / D : ℕ) : ℚ) < N / D := lt_of_le_of_ne hle hne.symm
    have h17 := h.le_quotient hrem
    by_cases h18 : N / D < 10 ^ 18
    · obtain ⟨hx, hdx⟩ := quotient_digits (N := N) (D := D) (k := 2) E (by omega) (by omega)
      obtain ⟨hu, hdu⟩ := digitsOf_eq (M := N / D) (E := E) (k := 2) (by omega) (by omega)
      have hhundred : 100 * digitsOf ((N / D : ℚ) * 10 ^ E) = N / D := by
        rw [hdx]
        push_cast
        ring
      refine ⟨hu.trans hx.symm, ?_, iff_of_true hrem ?_⟩
      · rw [hdu, kept, hhundred, hfloor, Int.cast_natCast]
        norm_num
      · rw [Longer, hhundred, hfloor, Int.cast_natCast]
        exact hne.symm
    · have heq : N / D = 10 ^ 18 := le_antisymm h.quotient_le (not_lt.mp h18)
      obtain ⟨hx, hdx⟩ := quotient_digits (N := N) (D := D) (k := 3) E (by omega) (by omega)
      obtain ⟨hu, hdu⟩ := digitsOf_eq (M := N / D) (E := E) (k := 3) (by omega) (by omega)
      have hcast : ((N / D : ℕ) : ℚ) = 10 ^ 18 := by exact_mod_cast heq
      have hhundred : 100 * digitsOf ((N / D : ℚ) * 10 ^ E) = N / D / 10 := by
        rw [hdx]
        push_cast
        ring
      have hfloor' : ⌊(N / D : ℚ) / 10⌋ = 10 ^ 17 := by
        rw [Int.floor_eq_iff]
        push_cast
        constructor <;> linarith
      refine ⟨hu.trans hx.symm, ?_, iff_of_true hrem ?_⟩
      · rw [hdu, kept, hhundred, hfloor', hcast]
        norm_num
      · rw [Longer, hhundred, hfloor']
        push_cast
        intro hbad
        linarith

/-! ### The last step -/

/-- A magnitude with its sign. -/
def withSign (negative : Bool) (R : ℚ) : ℚ := if negative then -R else R

theorem value_signed (negative : Bool) (m : ℕ) (x : ℤ) :
    (signed negative m x).value = withSign negative (m * 10 ^ x) := by
  cases negative
  · rfl
  · simp [value, signed, withSign]

theorem value_zero : zero.value = 0 := by
  rw [value, zero]
  simp

theorem least_pos : 0 < least := by
  rw [least]
  positivity

theorem Holds.value_eq {negative : Bool} {R : ℚ} {a : IOUAmount} (h : Holds negative R a)
    (hR : least ≤ R) : a.value = withSign negative R := by
  rcases h with ⟨hlt, -⟩ | ⟨-, m, x, rfl, -, -, hvalue, -⟩
  · exact absurd hR (not_le.mpr hlt)
  · rw [value_signed, hvalue]

theorem ofParts_whole {env : AmountEnv} {negative : Bool} {M : ℕ} {E : ℤ} {a : IOUAmount}
    (hlo : 10 ^ 15 ≤ M) (hhi : M ≤ 10 ^ 16) (hE : -96 ≤ E) (hE' : E ≤ 80)
    (ha : ofParts env (if negative then -(M : ℤ) else M) E = some a) :
    a.value = withSign negative (M * 10 ^ E) := by
  have hholds := ofParts_holds (by omega) (by omega) (by omega) (by omega) ha
  have hpow : (10 : ℚ) ^ (-96 : ℤ) ≤ 10 ^ E := zpow_le_zpow_right₀ (by norm_num) hE
  have hlo' : (10 : ℚ) ^ 15 ≤ M := by exact_mod_cast hlo
  have hleast : least ≤ M * 10 ^ E := mul_le_mul hlo' hpow (by positivity) (by positivity)
  obtain ⟨n, hn⟩ : ∃ n : ℕ, digitsOf (M * 10 ^ E) = n := by
    by_cases hM : M < 10 ^ 16
    · exact ⟨M, by rw [(digitsOf_eq (k := 0) (by omega) (by omega)).2]; norm_num⟩
    · obtain rfl : M = 10 ^ 16 := by omega
      exact ⟨10 ^ 15, by rw [(digitsOf_eq (k := 1) (by omega) (by omega)).2]; norm_num⟩
  have hfract : Int.fract (n : ℚ) = 0 := Int.fract_natCast n
  have hback : (n : ℚ) * 10 ^ sixteenth (M * 10 ^ E) = M * 10 ^ E := by
    rw [← hn, digitsOf, div_mul_cancel₀]
    positivity
  have hcut : cut env negative n = n := by
    rw [cut, movesAway, Number.roundsAway_of_fract_eq_zero hfract, Bool.and_false]
    simp
  rw [hn, hcut, Int.cast_natCast, hback] at hholds
  exact hholds.value_eq hleast

/-- What the last step makes of a magnitude that has been normalized. -/
structure Stepped (moved : Bool) (R Rr : ℚ) : Prop where
  lost : R < least → Rr = if moved then least else 0
  kept : least ≤ R → moved = false → Rr = R
  moved : least ≤ R → moved = true → ∃ (m : ℕ) (x : ℤ), 10 ^ 15 ≤ m ∧ m < 10 ^ 16 ∧
    (m : ℚ) * 10 ^ x = R ∧ Rr = R + 10 ^ x

theorem orOverflow_ok {b : Option IOUAmount} {r : IOUAmount} (h : orOverflow b = .ok r) :
    b = some r := by
  cases b with
  | none => cases h
  | some b => exact congrArg some (Except.ok.inj h)

theorem roundAway_lost {env : AmountEnv} {hasRem negative roundUp : Bool} {r : IOUAmount}
    (hr : roundAway env zero hasRem negative roundUp = .ok r) :
    r.value = withSign negative (if hasRem && (roundUp != negative) then least else 0) := by
  have hsame : .ok zero = (.ok r : Except Fault IOUAmount) → r.value = withSign negative 0 := by
    intro h
    obtain rfl := Except.ok.inj h
    cases negative <;> simp [withSign, value_zero]
  cases hasRem with
  | false => exact hsame hr
  | true =>
    cases negative with
    | false =>
      cases roundUp with
      | false => exact hsame hr
      | true =>
        obtain rfl := Except.ok.inj hr
        norm_num [withSign, value, minPositiveAmount, least, STAmount.kMinValue,
          STAmount.kMinOffset]
    | true =>
      cases roundUp with
      | false =>
        have hparts : ofParts env (if (true : Bool) = true then -((10 ^ 15 : ℕ) : ℤ)
            else (10 ^ 15 : ℕ)) (-96) = some r := orOverflow_ok hr
        rw [ofParts_whole le_rfl (by norm_num) (by norm_num) (by norm_num) hparts]
        norm_num [withSign, least]
      | true => exact hsame hr

theorem roundAway_kept {env : AmountEnv} {hasRem negative roundUp : Bool} {m : ℕ} {x : ℤ}
    {r : IOUAmount} (hlo : 10 ^ 15 ≤ m) (hhi : m < 10 ^ 16) (hx : -96 ≤ x) (hx' : x ≤ 80)
    (hr : roundAway env (signed negative m x) hasRem negative roundUp = .ok r) :
    r.value = withSign negative
      ((if hasRem && (roundUp != negative) then m + 1 else m : ℕ) * 10 ^ x) := by
  have hne : (signed negative m x).mantissa ≠ 0 := by
    cases negative with
    | false => exact Int.natCast_ne_zero.mpr (by omega)
    | true => exact neg_ne_zero.mpr (Int.natCast_ne_zero.mpr (by omega))
  have hsame : .ok (signed negative m x) = (.ok r : Except Fault IOUAmount) →
      r.value = withSign negative (m * 10 ^ x) := by
    intro h
    rw [← Except.ok.inj h, value_signed]
  cases hasRem with
  | false => exact hsame hr
  | true =>
    cases negative with
    | false =>
      cases roundUp with
      | false => exact hsame hr
      | true =>
        have heq : roundAway env (signed false m x) true false true =
            orOverflow (ofParts env ((signed false m x).mantissa + 1) x) := if_neg hne
        have hparts : ofParts env (if false = true then -((m + 1 : ℕ) : ℤ) else (m + 1 : ℕ)) x =
            some r := orOverflow_ok (heq.symm.trans hr)
        change r.value = withSign _ ((m + 1 : ℕ) * 10 ^ x)
        exact ofParts_whole (by omega) (by omega) hx hx' hparts
    | true =>
      cases roundUp with
      | false =>
        have heq : roundAway env (signed true m x) true true false =
            orOverflow (ofParts env ((signed true m x).mantissa - 1) x) := if_neg hne
        have hmantissa : (signed true m x).mantissa - 1 = -((m + 1 : ℕ) : ℤ) := by
          simp only [signed, if_true]
          push_cast
          ring
        rw [hmantissa] at heq
        have hparts : ofParts env (if true = true then -((m + 1 : ℕ) : ℤ) else (m + 1 : ℕ)) x =
            some r := orOverflow_ok (heq.symm.trans hr)
        change r.value = withSign _ ((m + 1 : ℕ) * 10 ^ x)
        exact ofParts_whole (by omega) (by omega) hx hx' hparts
      | true => exact hsame hr

theorem roundAway_stepped {env : AmountEnv} {hasRem negative roundUp : Bool} {R : ℚ}
    {a r : IOUAmount} (ha : Holds negative R a)
    (hr : roundAway env a hasRem negative roundUp = .ok r) :
    ∃ Rr, r.value = withSign negative Rr ∧ Stepped (hasRem && (roundUp != negative)) R Rr := by
  rcases ha with ⟨hlt, rfl⟩ | ⟨hle, m, x, rfl, hlo, hhi, hvalue, hx, hx'⟩
  · have hnot : ¬least ≤ R := not_le.mpr hlt
    exact ⟨_, roundAway_lost hr, fun _ => rfl, fun h => absurd h hnot, fun h => absurd h hnot⟩
  · refine ⟨_, roundAway_kept hlo hhi hx hx' hr, fun h => absurd hle (not_le.mpr h),
      fun _ h => ?_, fun _ h => ⟨m, x, hlo, hhi, hvalue, ?_⟩⟩
    · rw [h, if_neg (by simp), hvalue]
    · rw [h, if_pos rfl, ← hvalue]
      push_cast
      ring

/-! ### The right direction -/

/-- The distance from a value to the next amount. -/
def unit (X : ℚ) : ℚ := if |X| < least then least else 10 ^ sixteenth |X|

/-- A magnitude rounded as it should be. -/
structure RoundedTo (away : Bool) (X Rr : ℚ) : Prop where
  outward : away = true → X ≤ Rr
  inward : away = false → Rr ≤ X
  near : |Rr - X| ≤ unit X

/-- The digits of a magnitude vanish: it is normalized to zero. -/
def Vanishes (env : AmountEnv) (negative : Bool) (X : ℚ) : Prop :=
  cut env negative (kept X) * 10 ^ sixteenth X < least

/-- The normalization of a magnitude does not move it in the wrong direction, or by itself in the one
that the last step moves it again. -/
structure DirectionKept (env : AmountEnv) (negative away : Bool) (X : ℚ) : Prop where
  -- below the least amount
  small_away : 0 < X → X < least → away = true → Longer X ∨ ¬Vanishes env negative X
  small_toward : X < least → away = false → Vanishes env negative X
  -- away from zero, with and without a remainder
  longer : least ≤ X → away = true → Longer X → movesAway env negative (kept X) = false
  whole : least ≤ X → away = true → ¬Longer X →
    movesAway env negative (kept X) = true ∨ Int.fract (digitsOf X) = 0
  toward : least ≤ X → away = false → movesAway env negative (kept X) = false

theorem floor_kept (X : ℚ) : ⌊kept X⌋ = ⌊digitsOf X⌋ := by
  have h1 : ⌊kept X⌋ = ⌊100 * digitsOf X⌋ / 100 := by
    have h := Int.floor_div_natCast ((⌊100 * digitsOf X⌋ : ℤ) : ℚ) 100
    rwa [Int.floor_intCast, Nat.cast_ofNat, Nat.cast_ofNat] at h
  have h2 : ⌊digitsOf X⌋ = ⌊100 * digitsOf X⌋ / 100 := by
    have h := Int.floor_div_natCast (100 * digitsOf X) 100
    rwa [Nat.cast_ofNat, Nat.cast_ofNat, mul_div_cancel_left₀ _ (by norm_num)] at h
  rw [h1, h2]

section Magnitude

variable {env : AmountEnv} {negative away moved : Bool} {X Rr : ℚ}

theorem least_le_iff (hX : 0 < X) : least ≤ X ↔ -96 ≤ sixteenth X := by
  have hleast : least = ((10 : ℕ) : ℚ) ^ (-81 : ℤ) := by
    rw [least]
    norm_num
  rw [hleast, Int.zpow_le_iff_le_log (by norm_num) hX, sixteenth]
  omega

theorem digits_bounds (hX : 0 < X) :
    10 ^ 15 ≤ ⌊digitsOf X⌋ ∧ ⌊digitsOf X⌋ < 10 ^ 16 ∧
      ⌊digitsOf X⌋ * (10 : ℚ) ^ sixteenth X ≤ X ∧
      X < (⌊digitsOf X⌋ + 1) * (10 : ℚ) ^ sixteenth X := by
  have hpos : (0 : ℚ) < 10 ^ sixteenth X := by positivity
  have hback : digitsOf X * 10 ^ sixteenth X = X := div_mul_cancel₀ X hpos.ne'
  have hlo : (10 : ℚ) ^ 15 ≤ digitsOf X := by
    rw [digitsOf, le_div_iff₀ hpos]
    exact sixteenth_le hX
  have hhi : digitsOf X < 10 ^ 16 := by
    rw [digitsOf, div_lt_iff₀ hpos]
    exact lt_sixteenth
  refine ⟨?_, ?_, floor_digits_le, ?_⟩
  · rw [Int.le_floor]
    exact_mod_cast hlo
  · rw [Int.floor_lt]
    exact_mod_cast hhi
  · calc X = digitsOf X * 10 ^ sixteenth X := hback.symm
      _ < (⌊digitsOf X⌋ + 1) * 10 ^ sixteenth X :=
        mul_lt_mul_of_pos_right (Int.lt_floor_add_one _) hpos

theorem cut_kept (env : AmountEnv) (negative : Bool) (X : ℚ) :
    (cut env negative (kept X) : ℚ) =
      ⌊digitsOf X⌋ + if movesAway env negative (kept X) then 1 else 0 := by
  rw [cut, floor_kept]
  split_ifs
  · push_cast
    rfl
  · push_cast
    rfl

theorem cut_bounds (env : AmountEnv) (negative : Bool) (hX : 0 < X) :
    cut env negative (kept X) * (10 : ℚ) ^ sixteenth X ≤ X + 10 ^ sixteenth X ∧
      (movesAway env negative (kept X) = true →
        X < cut env negative (kept X) * (10 : ℚ) ^ sixteenth X) ∧
      (movesAway env negative (kept X) = false →
        cut env negative (kept X) * (10 : ℚ) ^ sixteenth X ≤ X ∧
          X < cut env negative (kept X) * (10 : ℚ) ^ sixteenth X + 10 ^ sixteenth X) := by
  obtain ⟨-, -, hle, hlt⟩ := digits_bounds hX
  have hpos : (0 : ℚ) < 10 ^ sixteenth X := by positivity
  rw [cut_kept]
  refine ⟨?_, fun h => ?_, fun h => ?_⟩
  · split_ifs
    · linarith
    · linarith
  · rwa [if_pos h]
  · rw [h, if_neg (by simp), add_zero]
    exact ⟨hle, by linarith⟩

theorem least_le_cut (env : AmountEnv) (negative : Bool) (hX : 0 < X) (hle : least ≤ X) :
    least ≤ cut env negative (kept X) * (10 : ℚ) ^ sixteenth X := by
  have hlo : (10 : ℚ) ^ 15 ≤ ⌊digitsOf X⌋ := by exact_mod_cast (digits_bounds hX).1
  have hpow : (10 : ℚ) ^ (-96 : ℤ) ≤ 10 ^ sixteenth X :=
    zpow_le_zpow_right₀ (by norm_num) ((least_le_iff hX).mp hle)
  have hcut : (10 : ℚ) ^ 15 ≤ cut env negative (kept X) := by
    rw [cut_kept]
    split_ifs
    · linarith
    · linarith
  exact mul_le_mul hcut hpow (by positivity) (by linarith)

theorem near_of_kept (hX : 0 < X) (hle : least ≤ X)
    (hRr : Rr = cut env negative (kept X) * (10 : ℚ) ^ sixteenth X) : |Rr - X| ≤ unit X := by
  obtain ⟨hup, hcutUp, hcutDown⟩ := cut_bounds env negative hX
  have hpos : (0 : ℚ) < 10 ^ sixteenth X := by positivity
  rw [unit, abs_of_pos hX, if_neg (not_lt.mpr hle), hRr, abs_le]
  cases hmv : movesAway env negative (kept X) with
  | true =>
    have hgt := hcutUp hmv
    constructor <;> linarith
  | false =>
    have hcut := (hcutDown hmv).2
    constructor <;> linarith

/-- The digits have been moved: what is rounded towards zero is too large then, and so is what the last
step moves again. -/
theorem roundedTo_iff_of_moves (hX : 0 < X) (hle : least ≤ X)
    (hmv : movesAway env negative (kept X) = true)
    (hmoved : moved = true ↔ Longer X ∧ away = true)
    (hstep : Stepped moved (cut env negative (kept X) * 10 ^ sixteenth X) Rr) :
    RoundedTo away X Rr ↔ DirectionKept env negative away X := by
  have hpos : (0 : ℚ) < 10 ^ sixteenth X := by positivity
  have hR := least_le_cut env negative hX hle
  have hgt := (cut_bounds env negative hX).2.1 hmv
  have hnot : ¬X < least := not_lt.mpr hle
  cases hm : moved with
  | true =>
    obtain ⟨hlonger, haway⟩ := hmoved.mp hm
    obtain ⟨m, x, hmlo, hmhi, hvalue, hRr⟩ := hstep.moved hR hm
    -- the unit that is added is not less than that of the sixteenth digit
    have hx : (10 : ℚ) ^ sixteenth X ≤ 10 ^ x := by
      refine zpow_le_zpow_right₀ (by norm_num) ?_
      have hmhi' : (m : ℚ) < 10 ^ 16 := by exact_mod_cast hmhi
      have hlt : (10 : ℚ) ^ (sixteenth X + 15) < 10 ^ (x + 16) := by
        rw [zpow_add₀ (by norm_num), zpow_add₀ (by norm_num)]
        calc (10 : ℚ) ^ sixteenth X * 10 ^ (15 : ℤ) ≤ X := by
              rw [mul_comm]
              exact_mod_cast sixteenth_le hX
          _ < m * 10 ^ x := by
              rw [hvalue]
              exact hgt
          _ < 10 ^ x * 10 ^ (16 : ℤ) := by
              rw [mul_comm]
              exact mul_lt_mul_of_pos_left (by exact_mod_cast hmhi') (by positivity)
      have := (zpow_lt_zpow_iff_right₀ (by norm_num)).mp hlt
      omega
    refine iff_of_false (fun h => ?_) fun h => ?_
    · have hnear := h.near
      rw [unit, abs_of_pos hX, if_neg hnot, abs_le] at hnear
      linarith [hnear.2]
    · have := h.longer hle haway hlonger
      rw [hmv] at this
      cases this
  | false =>
    have hRr := hstep.kept hR hm
    cases away with
    | true =>
      have hlonger : ¬Longer X := fun h => by
        rw [hmoved.mpr ⟨h, rfl⟩] at hm
        cases hm
      exact iff_of_true ⟨fun _ => hRr ▸ hgt.le, fun h => (by cases h), near_of_kept hX hle hRr⟩
        ⟨fun _ h => absurd h hnot, fun h => absurd h hnot, fun _ _ h => absurd h hlonger,
          fun _ _ _ => .inl hmv, fun _ h => (by cases h)⟩
    | false =>
      refine iff_of_false (fun h => ?_) fun h => ?_
      · have := h.inward rfl
        linarith
      · have := h.toward hle rfl
        rw [hmv] at this
        cases this

theorem roundedTo_iff_of_cut (hX : 0 < X) (hle : least ≤ X)
    (hmv : movesAway env negative (kept X) = false)
    (hmoved : moved = true ↔ Longer X ∧ away = true)
    (hstep : Stepped moved (cut env negative (kept X) * 10 ^ sixteenth X) Rr) :
    RoundedTo away X Rr ↔ DirectionKept env negative away X := by
  obtain ⟨hlo, hhi, -, -⟩ := digits_bounds hX
  obtain ⟨hcut, hcut'⟩ := (cut_bounds env negative hX).2.2 hmv
  have hpos : (0 : ℚ) < 10 ^ sixteenth X := by positivity
  have hR := least_le_cut env negative hX hle
  have hnot : ¬X < least := not_lt.mpr hle
  have hwhole : (cut env negative (kept X) : ℚ) = ⌊digitsOf X⌋ := by
    rw [cut_kept, hmv, if_neg (by simp), add_zero]
  cases hm : moved with
  | true =>
    obtain ⟨hlonger, haway⟩ := hmoved.mp hm
    obtain ⟨m, x, hmlo, hmhi, hvalue, hRr⟩ := hstep.moved hR hm
    -- the mantissa is that of the digits
    have hx : x = sixteenth X := by
      have hmlo' : (10 : ℚ) ^ 15 ≤ m := by exact_mod_cast hmlo
      have hmhi' : (m : ℚ) < 10 ^ 16 := by exact_mod_cast hmhi
      have hlo' : (10 : ℚ) ^ 15 ≤ ⌊digitsOf X⌋ := by exact_mod_cast hlo
      have hhi' : (⌊digitsOf X⌋ : ℚ) < 10 ^ 16 := by exact_mod_cast hhi
      have hpx : (0 : ℚ) < 10 ^ x := by positivity
      have h1 : sixteenth (m * 10 ^ x) = x :=
        sixteenth_eq (mul_le_mul_of_nonneg_right hmlo' hpx.le)
          (mul_lt_mul_of_pos_right hmhi' hpx)
      have h2 : sixteenth (⌊digitsOf X⌋ * (10 : ℚ) ^ sixteenth X) = sixteenth X :=
        sixteenth_eq (mul_le_mul_of_nonneg_right hlo' hpos.le)
          (mul_lt_mul_of_pos_right hhi' hpos)
      rw [hvalue, hwhole, h2] at h1
      exact h1.symm
    rw [hx] at hRr
    refine iff_of_true ⟨fun _ => ?_, fun h => ?_, ?_⟩
      ⟨fun _ h => absurd h hnot, fun h => absurd h hnot, fun _ _ _ => hmv,
        fun _ _ h => absurd hlonger h, fun _ _ => hmv⟩
    · linarith
    · rw [haway] at h
      cases h
    · rw [unit, abs_of_pos hX, if_neg hnot, hRr, abs_le]
      constructor <;> linarith
  | false =>
    have hRr := hstep.kept hR hm
    cases away with
    | true =>
      have hlonger : ¬Longer X := fun h => by
        rw [hmoved.mpr ⟨h, rfl⟩] at hm
        cases hm
      have hback : digitsOf X * 10 ^ sixteenth X = X := div_mul_cancel₀ X hpos.ne'
      constructor
      · intro h
        have houtward := h.outward rfl
        refine ⟨fun _ h => absurd h hnot, fun h => absurd h hnot, fun _ _ h => absurd h hlonger,
          fun _ _ _ => .inr ?_, fun _ h => (by cases h)⟩
        have heq : digitsOf X = ⌊digitsOf X⌋ := by
          refine le_antisymm (le_of_mul_le_mul_right ?_ hpos) (Int.floor_le _)
          rw [hback]
          rwa [hRr, hwhole] at houtward
        rw [heq, Int.fract_intCast]
      · intro h
        refine ⟨fun _ => ?_, fun h => (by cases h), near_of_kept hX hle hRr⟩
        rcases h.whole hle rfl hlonger with hbad | hfract
        · rw [hmv] at hbad
          cases hbad
        · have heq : (⌊digitsOf X⌋ : ℚ) = digitsOf X := by
            have := Int.floor_add_fract (digitsOf X)
            rwa [hfract, add_zero] at this
          rw [hRr, hwhole, heq, hback]
    | false =>
      exact iff_of_true ⟨fun h => (by cases h), fun _ => hRr ▸ hcut, near_of_kept hX hle hRr⟩
        ⟨fun _ h => absurd h hnot, fun h => absurd h hnot, fun _ h => (by cases h),
          fun _ h => (by cases h), fun _ _ => hmv⟩

theorem roundedTo_iff_of_le (hX : 0 < X) (hle : least ≤ X)
    (hmoved : moved = true ↔ Longer X ∧ away = true)
    (hstep : Stepped moved (cut env negative (kept X) * 10 ^ sixteenth X) Rr) :
    RoundedTo away X Rr ↔ DirectionKept env negative away X := by
  cases hmv : movesAway env negative (kept X) with
  | true => exact roundedTo_iff_of_moves hX hle hmv hmoved hstep
  | false => exact roundedTo_iff_of_cut hX hle hmv hmoved hstep

theorem roundedTo_iff_of_vanishes (hX : 0 < X) (hlt : X < least) (hvanish : Vanishes env negative X)
    (hmoved : moved = true ↔ Longer X ∧ away = true)
    (hstep : Stepped moved (cut env negative (kept X) * 10 ^ sixteenth X) Rr) :
    RoundedTo away X Rr ↔ DirectionKept env negative away X := by
  have hunit : unit X = least := by
    rw [unit, abs_of_pos hX, if_pos hlt]
  have hnot : ¬least ≤ X := not_le.mpr hlt
  have hRr := hstep.lost hvanish
  cases hm : moved with
  | true =>
    obtain ⟨hlonger, haway⟩ := hmoved.mp hm
    rw [hm, if_pos rfl] at hRr
    refine iff_of_true ⟨fun _ => hRr ▸ hlt.le, fun h => ?_, ?_⟩
      ⟨fun _ _ _ => .inl hlonger, fun _ h => ?_, fun h => absurd h hnot, fun h => absurd h hnot,
        fun h => absurd h hnot⟩
    · rw [haway] at h
      cases h
    · rw [hunit, hRr, abs_le]
      constructor <;> linarith
    · rw [haway] at h
      cases h
  | false =>
    rw [hm, if_neg (by simp)] at hRr
    cases away with
    | true =>
      -- zero is below the magnitude, and the least amount has not been put in its place
      refine iff_of_false (fun h => ?_) fun h => ?_
      · have := h.outward rfl
        linarith
      · rcases h.small_away hX hlt rfl with hlonger | hno
        · rw [hmoved.mpr ⟨hlonger, rfl⟩] at hm
          cases hm
        · exact hno hvanish
    | false =>
      refine iff_of_true ⟨fun h => (by cases h), fun _ => hRr ▸ hX.le, ?_⟩
        ⟨fun _ _ h => (by cases h), fun _ _ => hvanish, fun h => absurd h hnot,
          fun h => absurd h hnot, fun h => absurd h hnot⟩
      rw [hunit, hRr, abs_le]
      constructor <;> linarith

theorem zpow_le_of_small {m : ℕ} {x : ℤ} {R : ℚ} (hm : 10 ^ 15 ≤ m) (hR : (m : ℚ) * 10 ^ x = R)
    (hsmall : R < least + least) : (10 : ℚ) ^ x ≤ 10 ^ (-96 : ℤ) := by
  refine zpow_le_zpow_right₀ (by norm_num) ?_
  have hm' : (10 : ℚ) ^ 15 ≤ m := by exact_mod_cast hm
  have hpx : (0 : ℚ) < 10 ^ x := by positivity
  have hpos96 : (0 : ℚ) < 10 ^ (-96 : ℤ) := by positivity
  have hleast : least = 10 ^ 15 * 10 ^ (-96 : ℤ) := rfl
  have hlt : (10 : ℚ) ^ x < 10 ^ (-95 : ℤ) := by
    have h1 : (10 : ℚ) ^ 15 * 10 ^ x ≤ m * 10 ^ x := mul_le_mul_of_nonneg_right hm' hpx.le
    have h2 : (10 : ℚ) ^ (-95 : ℤ) = 10 * 10 ^ (-96 : ℤ) := by norm_num
    rw [h2]
    linarith
  have := (zpow_lt_zpow_iff_right₀ (by norm_num)).mp hlt
  omega

theorem roundedTo_iff_of_shown (hX : 0 < X) (hlt : X < least)
    (hshown : ¬Vanishes env negative X) (hmoved : moved = true ↔ Longer X ∧ away = true)
    (hstep : Stepped moved (cut env negative (kept X) * 10 ^ sixteenth X) Rr) :
    RoundedTo away X Rr ↔ DirectionKept env negative away X := by
  obtain ⟨hup, -, -⟩ := cut_bounds env negative hX
  have hunit : unit X = least := by
    rw [unit, abs_of_pos hX, if_pos hlt]
  have hnot : ¬least ≤ X := not_le.mpr hlt
  have hexp : sixteenth X < -96 := not_le.mp (mt (least_le_iff hX).mpr hnot)
  have hpow : (10 : ℚ) ^ sixteenth X ≤ 10 ^ (-97 : ℤ) :=
    zpow_le_zpow_right₀ (by norm_num) (by omega)
  have hten : (10 : ℚ) ^ (-97 : ℤ) ≤ 10 ^ (-96 : ℤ) := by norm_num
  have hsmall : (10 : ℚ) ^ (-96 : ℤ) + 10 ^ (-96 : ℤ) ≤ least := by
    rw [show least = 10 ^ 15 * 10 ^ (-96 : ℤ) from rfl]
    norm_num
  have hR : least ≤ cut env negative (kept X) * (10 : ℚ) ^ sixteenth X := not_lt.mp hshown
  cases hm : moved with
  | true =>
    obtain ⟨hlonger, haway⟩ := hmoved.mp hm
    obtain ⟨m, x, hmlo, hmhi, hvalue, hRr⟩ := hstep.moved hR hm
    have hx := zpow_le_of_small hmlo hvalue (by linarith)
    have hpx : (0 : ℚ) < 10 ^ x := by positivity
    refine iff_of_true ⟨fun _ => by linarith, fun h => ?_, ?_⟩
      ⟨fun _ _ _ => .inl hlonger, fun _ h => ?_, fun h => absurd h hnot, fun h => absurd h hnot,
        fun h => absurd h hnot⟩
    · rw [haway] at h
      cases h
    · rw [hunit, hRr, abs_le]
      constructor <;> linarith
    · rw [haway] at h
      cases h
  | false =>
    have hRr := hstep.kept hR hm
    cases away with
    | true =>
      refine iff_of_true ⟨fun _ => by linarith, fun h => (by cases h), ?_⟩
        ⟨fun _ _ _ => .inr hshown, fun _ h => (by cases h), fun h => absurd h hnot,
          fun h => absurd h hnot, fun h => absurd h hnot⟩
      rw [hunit, hRr, abs_le]
      constructor <;> linarith
    | false =>
      -- the least amount is above the magnitude
      refine iff_of_false (fun h => ?_) fun h => hshown (h.small_toward hlt rfl)
      have := h.inward rfl
      linarith

theorem roundedTo_iff_of_lt (hX : 0 < X) (hlt : X < least)
    (hmoved : moved = true ↔ Longer X ∧ away = true)
    (hstep : Stepped moved (cut env negative (kept X) * 10 ^ sixteenth X) Rr) :
    RoundedTo away X Rr ↔ DirectionKept env negative away X := by
  by_cases hvanish : Vanishes env negative X
  · exact roundedTo_iff_of_vanishes hX hlt hvanish hmoved hstep
  · exact roundedTo_iff_of_shown hX hlt hvanish hmoved hstep

end Magnitude

/-! ### Every amount and fraction -/

/-- An amount in normal form. -/
def IsNormal (a : IOUAmount) : Prop :=
  a = zero ∨ (10 ^ 15 ≤ a.mantissa.natAbs ∧ a.mantissa.natAbs < 10 ^ 16 ∧ -96 ≤ a.exponent ∧
    a.exponent ≤ 80)

instance (a : IOUAmount) : Decidable (IsNormal a) := inferInstanceAs (Decidable (_ ∨ _))

/-- What `mulRatio` is to compute. -/
def exactRatio (amt : IOUAmount) (num den : UInt32) : ℚ := amt.value * num.toNat / den.toNat

/-- The result is rounded in the direction asked for, by at most one unit, and what is positive does
not become less than the least positive amount when it is rounded up. -/
structure RoundsRight (exact : ℚ) (roundUp : Bool) (r : IOUAmount) : Prop where
  up : roundUp = true → exact ≤ r.value
  down : roundUp = false → r.value ≤ exact
  near : |r.value - exact| ≤ unit exact
  positive : roundUp = true → 0 < exact → least ≤ r.value

theorem abs_withSign (negative : Bool) {X : ℚ} (hX : 0 ≤ X) : |withSign negative X| = X := by
  cases negative
  · exact abs_of_nonneg hX
  · exact (abs_neg X).trans (abs_of_nonneg hX)

theorem unit_withSign (negative : Bool) (X : ℚ) : unit (withSign negative X) = unit X := by
  cases negative
  · rfl
  · rw [withSign, if_pos rfl, unit, unit, abs_neg]

theorem roundsRight_iff {negative roundUp moved : Bool} {X R Rr : ℚ} {r : IOUAmount} (hX : 0 < X)
    (hr : r.value = withSign negative Rr) (hstep : Stepped moved R Rr) :
    RoundsRight (withSign negative X) roundUp r ↔ RoundedTo (roundUp != negative) X Rr := by
  have hleast : 0 < Rr → least ≤ Rr := by
    intro hpos
    by_cases hlt : R < least
    · have := hstep.lost hlt
      split_ifs at this with hm
      · exact this.ge
      · exact absurd hpos (by rw [this]; exact lt_irrefl _)
    · cases hm : moved with
      | true =>
        obtain ⟨m, x, -, -, -, heq⟩ := hstep.moved (not_lt.mp hlt) hm
        have hpx : (0 : ℚ) < 10 ^ x := by positivity
        linarith
      | false => exact (not_lt.mp hlt).trans_eq (hstep.kept (not_lt.mp hlt) hm).symm
  have hnear : |r.value - withSign negative X| = |Rr - X| := by
    rw [hr]
    cases negative
    · rfl
    · rw [withSign, if_pos rfl, withSign, if_pos rfl, ← abs_neg]
      congr 1
      ring
  constructor
  · intro h
    refine ⟨fun ha => ?_, fun ha => ?_, by rw [← hnear, ← unit_withSign negative]; exact h.near⟩
    · cases negative with
      | false =>
        have := h.up (by simpa using ha)
        rwa [hr] at this
      | true =>
        have := h.down (by simpa using ha)
        rw [hr] at this
        exact neg_le_neg_iff.mp this
    · cases negative with
      | false =>
        have := h.down (by simpa using ha)
        rwa [hr] at this
      | true =>
        have := h.up (by simpa using ha)
        rw [hr] at this
        exact neg_le_neg_iff.mp this
  · intro h
    refine ⟨fun hu => ?_, fun hu => ?_, by rw [hnear, unit_withSign]; exact h.near,
      fun hu hpos => ?_⟩
    · rw [hr]
      cases negative with
      | false => exact h.outward (by simpa using hu)
      | true => exact neg_le_neg (h.inward (by simpa using hu))
    · rw [hr]
      cases negative with
      | false => exact h.inward (by simpa using hu)
      | true => exact neg_le_neg (h.outward (by simpa using hu))
    · cases negative with
      | false =>
        rw [hr]
        exact hleast (hX.trans_le (h.outward (by simpa using hu)))
      | true =>
        exact absurd hpos (not_lt.mpr (neg_nonpos.mpr hX.le))

theorem orOverflow_ne {b : Option IOUAmount} : orOverflow b ≠ .error .outOfRange := by
  cases b with
  | none => exact fun h => by cases h
  | some a => exact fun h => by cases h

theorem roundAway_ne {env : AmountEnv} {a : IOUAmount} {hasRem negative roundUp : Bool} :
    roundAway env a hasRem negative roundUp ≠ .error .outOfRange := by
  rw [roundAway]
  split_ifs
  · exact fun h => by cases h
  · exact orOverflow_ne
  · exact orOverflow_ne
  · exact orOverflow_ne
  · exact fun h => by cases h

theorem mulRatio_zero (env : AmountEnv) {amt : IOUAmount} {num den : UInt32} (hden : den ≠ 0)
    (hmul : amt.mantissa.natAbs * num.toNat = 0) (roundUp : Bool) :
    mulRatio env amt num den roundUp = .ok zero := by
  have hgrow : grow den.toNat (0 / den.toNat) (0 - 0 / den.toNat * den.toNat) amt.exponent =
      .ok (0, 0, amt.exponent) := by
    rw [Nat.zero_div, zero_mul, Nat.sub_zero, grow, if_pos rfl]
  have hshrink : shrink 0 false amt.exponent = .ok (0, false, amt.exponent) := rfl
  have hparts : ofParts env (if decide (amt.mantissa < 0) = true then -((0 : ℕ) : ℤ) else (0 : ℕ))
      amt.exponent = some zero := by
    rw [Nat.cast_zero, neg_zero, ite_self, ofParts, if_pos rfl]
  rw [mulRatio, if_neg hden]
  simp only [hmul, hgrow, bind, Except.bind, ne_eq, not_true_eq_false, decide_false, hshrink,
    toInt64, if_neg (Nat.not_lt_zero _), hparts, orOverflow, roundAway, Bool.false_and,
    Bool.false_eq_true, if_false]

theorem zero_right (env : AmountEnv) (negative roundUp : Bool) :
    RoundsRight 0 roundUp zero ↔
      DirectionKept env negative (roundUp != negative) |(0 : ℚ)| := by
  have hcut : cut env negative (kept 0) = 0 := by
    have hzero : kept 0 = 0 := by simp [kept, digitsOf]
    rw [hzero, cut, movesAway, Number.roundsAway_of_fract_eq_zero Int.fract_zero, Bool.and_false]
    simp
  have hnot : ¬least ≤ 0 := not_le.mpr least_pos
  rw [abs_zero]
  refine iff_of_true ⟨fun _ => value_zero.ge, fun _ => value_zero.le, ?_, fun _ h => ?_⟩
    ⟨fun h => absurd h (lt_irrefl _), fun _ _ => ?_, fun h => absurd h hnot,
      fun h => absurd h hnot, fun h => absurd h hnot⟩
  · rw [value_zero, sub_zero, abs_zero, unit, abs_zero, if_pos least_pos]
    exact least_pos.le
  · exact absurd h (lt_irrefl _)
  · rw [Vanishes, hcut, Int.cast_zero, zero_mul]
    exact least_pos

theorem exactRatio_eq (amt : IOUAmount) (num den : UInt32) :
    exactRatio amt num den = withSign (decide (amt.mantissa < 0))
      ((amt.mantissa.natAbs * num.toNat : ℕ) / den.toNat * 10 ^ amt.exponent) := by
  have habs : (amt.mantissa : ℚ) =
      withSign (decide (amt.mantissa < 0)) (amt.mantissa.natAbs : ℚ) := by
    by_cases hneg : amt.mantissa < 0
    · have : (amt.mantissa : ℤ) = -(amt.mantissa.natAbs : ℤ) := by omega
      rw [withSign, decide_eq_true hneg, if_pos rfl]
      exact_mod_cast this
    · have : (amt.mantissa : ℤ) = (amt.mantissa.natAbs : ℤ) := by omega
      rw [withSign, decide_eq_false hneg, if_neg (by simp)]
      exact (congrArg Int.cast this).trans (Int.cast_natCast _)
  rw [exactRatio, value, habs]
  cases decide (amt.mantissa < 0)
  · simp only [withSign, Bool.false_eq_true, if_false]
    push_cast
    ring
  · simp only [withSign, if_true]
    push_cast
    ring

/-- **When `mulRatio` rounds in the requested direction.** No index and no conversion is ever out of
range, and a result is right if and only if the normalization to sixteen digits has moved it as
`DirectionKept` says. -/
theorem mulRatio_rounds_iff {env : AmountEnv} {amt : IOUAmount} (hamt : amt.IsNormal)
    {num den : UInt32} (hden : den ≠ 0) (roundUp : Bool) :
    mulRatio env amt num den roundUp ≠ .error .outOfRange ∧
      ∀ r, mulRatio env amt num den roundUp = .ok r →
        (RoundsRight (exactRatio amt num den) roundUp r ↔
          DirectionKept env (decide (amt.mantissa < 0)) (roundUp != decide (amt.mantissa < 0))
            |exactRatio amt num den|) := by
  have hden0 : 0 < den.toNat := Nat.pos_of_ne_zero fun h => hden (UInt32.toNat_inj.mp h)
  set mul := amt.mantissa.natAbs * num.toNat with hmul
  have hexact := exactRatio_eq amt num den
  rw [← hmul] at hexact
  by_cases hzero : mul = 0
  · have hresult := mulRatio_zero env hden (hmul ▸ hzero) roundUp
    have hX : exactRatio amt num den = 0 := by
      rw [hexact, hzero]
      cases decide (amt.mantissa < 0) <;> simp [withSign]
    rw [hresult, hX]
    refine ⟨fun h => (by cases h), fun r hr => ?_⟩
    obtain rfl := Except.ok.inj hr
    exact zero_right env _ roundUp
  · -- the product has at least sixteen digits, so that the quotient is not zero
    have hnum : 0 < num.toNat := Nat.pos_of_ne_zero fun h => hzero (by rw [hmul, h, mul_zero])
    have hnum' : num.toNat < 2 ^ 32 := num.toNat_lt
    have hden' : den.toNat < 2 ^ 32 := den.toNat_lt
    obtain ⟨hlo, hhi, he, he'⟩ : 10 ^ 15 ≤ amt.mantissa.natAbs ∧ amt.mantissa.natAbs < 10 ^ 16 ∧
        -96 ≤ amt.exponent ∧ amt.exponent ≤ 80 := by
      rcases hamt with rfl | h
      · exact absurd (by rw [hmul]; exact Nat.zero_mul _) hzero
      · exact h
    have hlow : 0 < mul / den.toNat := by
      refine Nat.div_pos ?_ hden0
      calc den.toNat ≤ 10 ^ 15 * 1 := by omega
        _ ≤ mul := Nat.mul_le_mul hlo hnum
    have hmul29 : mul ≤ 10 ^ 29 := calc
      mul ≤ 10 ^ 16 * 2 ^ 32 := Nat.mul_le_mul hhi.le hnum'.le
      _ ≤ 10 ^ 29 := by norm_num
    obtain ⟨N, D, E, hscaled, heq⟩ := mulRatio_eq env roundUp hden0 (hmul ▸ hlow)
      (hmul ▸ hmul29)
    rw [heq]
    obtain ⟨hsix, hdigits, hlonger⟩ := hscaled.digits
    rw [hscaled.value, ← hmul] at hsix hdigits hlonger
    have hX : (0 : ℚ) < mul / den.toNat * 10 ^ amt.exponent := by
      have hmul0 : (0 : ℚ) < mul := by exact_mod_cast Nat.pos_of_ne_zero hzero
      have hden1 : (0 : ℚ) < den.toNat := by exact_mod_cast hden0
      positivity
    cases hb : ofParts env
        (if decide (amt.mantissa < 0) = true then -((N / D : ℕ) : ℤ) else (N / D : ℕ)) E with
    | none => exact ⟨fun h => (by cases h), fun r hr => (by cases hr)⟩
    | some a =>
      refine ⟨roundAway_ne, fun r hr => ?_⟩
      have hlo18 := hscaled.le_exponent
      have hle11 := hscaled.exponent_le
      have hholds := ofParts_holds hscaled.quotient_pos hscaled.quotient_le (by omega) (by omega) hb
      rw [hsix, hdigits] at hholds
      obtain ⟨Rr, hvalue, hstep⟩ := roundAway_stepped hholds hr
      have hmoved : (decide (N % D ≠ 0) && (roundUp != decide (amt.mantissa < 0))) = true ↔
          Longer (mul / den.toNat * 10 ^ amt.exponent) ∧
            (roundUp != decide (amt.mantissa < 0)) = true := by
        rw [Bool.and_eq_true, decide_eq_true_iff, hlonger]
      rw [hexact, abs_withSign _ hX.le]
      refine (roundsRight_iff hX hvalue hstep).trans ?_
      by_cases hle : least ≤ (mul / den.toNat * 10 ^ amt.exponent : ℚ)
      · exact roundedTo_iff_of_le hX hle hmoved hstep
      · exact roundedTo_iff_of_lt hX (not_le.mp hle) hmoved hstep

theorem mulRatio_rounds_third :
    mulRatio ⟨true, ⟨.toNearest, .large⟩⟩ ⟨1000000000000000, -15⟩ 1 3 false =
        .ok ⟨3333333333333333, -16⟩ ∧
      (RoundsRight (exactRatio ⟨1000000000000000, -15⟩ 1 3) false ⟨3333333333333333, -16⟩ ↔
        DirectionKept ⟨true, ⟨.toNearest, .large⟩⟩ (decide ((1000000000000000 : ℤ) < 0))
          (false != decide ((1000000000000000 : ℤ) < 0))
          |exactRatio ⟨1000000000000000, -15⟩ 1 3|) := by
  have hthird : mulRatio ⟨true, ⟨.toNearest, .large⟩⟩ ⟨1000000000000000, -15⟩ 1 3 false =
      .ok ⟨3333333333333333, -16⟩ := by decide +kernel
  exact ⟨hthird, (mulRatio_rounds_iff (by decide) (by decide) false).2 _ hthird⟩

/-- Two thirds of one, rounded down, are more than two thirds; half of the least amount, rounded up, is
nothing. -/
theorem mulRatio_not_right :
    (∃ r, mulRatio ⟨true, ⟨.toNearest, .large⟩⟩ ⟨1000000000000000, -15⟩ 2 3 false = .ok r ∧
        ¬ RoundsRight (exactRatio ⟨1000000000000000, -15⟩ 2 3) false r) ∧
      ∃ r, mulRatio ⟨true, ⟨.toNearest, .large⟩⟩ minPositiveAmount 1 2 true = .ok r ∧
        ¬ RoundsRight (exactRatio minPositiveAmount 1 2) true r := by
  have h1 : (1 : UInt32).toNat = 1 := rfl
  have h2 : (2 : UInt32).toNat = 2 := rfl
  have h3 : (3 : UInt32).toNat = 3 := rfl
  refine ⟨⟨⟨6666666666666667, -16⟩, by decide +kernel, fun h => ?_⟩, zero, by decide +kernel,
    fun h => ?_⟩
  · have := h.down rfl
    norm_num [value, exactRatio, h2, h3] at this
  · have := h.up rfl
    norm_num [value, exactRatio, zero, minPositiveAmount, STAmount.kMinValue, STAmount.kMinOffset,
      h1, h2] at this

end FalconLedger.IOUAmount
