import FalconLedger.Protocol.NumberExact

/-!
# The order of numbers

`operator<` decides by the signs, then by the exponents, then by the mantissas. The first two steps
turn the answer round for negative numbers and the last one does not, so that of two negative
numbers with one exponent the larger passes for the smaller.
-/

namespace FalconLedger

namespace Number

/-- `operator<=`. -/
def le (x y : Number) : Bool := !lt y x

/-- `std::min`. -/
def min (x y : Number) : Number := if lt y x then y else x

/-- `std::max`. -/
def max (x y : Number) : Number := if lt x y then y else x

/-- The comparisons of two numbers say what those of their values say. -/
structure OrderedAsRat (x y : Number) : Prop where
  lt_iff : lt x y = true ↔ x.toRat < y.toRat
  eq_iff : x = y ↔ x.toRat = y.toRat
  le_iff : le x y = true ↔ x.toRat ≤ y.toRat
  min_eq : (min x y).toRat = Min.min x.toRat y.toRat
  max_eq : (max x y).toRat = Max.max x.toRat y.toRat

/-- The last comparison of `operator<` is reached by two negative numbers. -/
def MantissasDecide (x y : Number) : Prop :=
  x.negative = true ∧ y.negative = true ∧ x.exponent = y.exponent ∧ x.mantissa ≠ y.mantissa

theorem MantissasDecide.symm {x y : Number} (h : MantissasDecide x y) : MantissasDecide y x :=
  ⟨h.2.1, h.1, h.2.2.1.symm, h.2.2.2.symm⟩

section

variable {scale : MantissaScale} {x y : Number}

/-- What a number is without its sign. -/
private def magnitude (x : Number) : ℚ := x.mantissa * 10 ^ x.exponent

private theorem toRat_of_nonneg (h : x.negative = false) : x.toRat = magnitude x := by
  simp [toRat, magnitude, h]

private theorem toRat_of_negative (h : x.negative = true) : x.toRat = -magnitude x := by
  simp [toRat, magnitude, h]

private theorem magnitude_nonneg (x : Number) : 0 ≤ magnitude x := by
  unfold magnitude
  positivity

private theorem magnitude_pos (h : scale.min ≤ x.mantissa) : 0 < magnitude x := by
  have hm : (0 : ℚ) < x.mantissa := by exact_mod_cast (min_pos scale).trans_le h
  unfold magnitude
  positivity

private theorem magnitude_lt_iff (h : x.exponent = y.exponent) :
    magnitude x < magnitude y ↔ x.mantissa < y.mantissa := by
  unfold magnitude
  rw [h, mul_lt_mul_iff_left₀ (zpow_pos (by norm_num) _), Nat.cast_lt]

/-! ### One step of the comparison each -/

private theorem lt_of_signs (h : x.negative ≠ y.negative) : lt x y = x.negative := by
  unfold lt
  rw [if_pos h]

private theorem lt_of_exponents (hsign : x.negative = y.negative) (hx : x.mantissa ≠ 0)
    (hy : y.mantissa ≠ 0) (h : y.exponent < x.exponent) : lt x y = x.negative := by
  unfold lt
  rw [if_neg (not_not.mpr hsign), if_neg hx, if_neg hy, if_pos h]

private theorem lt_of_exponents' (hsign : x.negative = y.negative) (hx : x.mantissa ≠ 0)
    (hy : y.mantissa ≠ 0) (h : x.exponent < y.exponent) : lt x y = !x.negative := by
  unfold lt
  rw [if_neg (not_not.mpr hsign), if_neg hx, if_neg hy, if_neg h.asymm, if_pos h]

private theorem lt_of_mantissas (hsign : x.negative = y.negative) (hx : x.mantissa ≠ 0)
    (hy : y.mantissa ≠ 0) (h : x.exponent = y.exponent) :
    lt x y = decide (x.mantissa < y.mantissa) := by
  unfold lt
  rw [if_neg (not_not.mpr hsign), if_neg hx, if_neg hy, if_neg h.not_gt, if_neg h.not_lt]

/-! ### The order of the values -/

private theorem lt_iff_of_signs (hx : IsNormal scale x)
    (h : x.negative ≠ y.negative) : lt x y = true ↔ x.toRat < y.toRat := by
  rw [lt_of_signs h]
  cases hneg : x.negative with
  | true =>
    have hneg' : y.negative = false := by simpa [hneg] using h.symm
    have hpos : 0 < magnitude x := by
      rcases hx with rfl | hx
      · exact absurd hneg (by simp [zero])
      · exact magnitude_pos hx.1
    rw [toRat_of_negative hneg, toRat_of_nonneg hneg']
    have := magnitude_nonneg y
    exact iff_of_true rfl (by linarith)
  | false =>
    have hneg' : y.negative = true := by simpa [hneg] using h.symm
    have := magnitude_nonneg x
    have := magnitude_nonneg y
    rw [toRat_of_nonneg hneg, toRat_of_negative hneg']
    exact iff_of_false (by simp) (by linarith)

private theorem lt_iff_of_nonzero (hx : scale.min ≤ x.mantissa) (hx' : x.mantissa ≤ scale.max)
    (hy : scale.min ≤ y.mantissa) (hy' : y.mantissa ≤ scale.max)
    (hsign : x.negative = y.negative) (hdecide : ¬MantissasDecide x y) :
    lt x y = true ↔ x.toRat < y.toRat := by
  have hx0 : x.mantissa ≠ 0 := ((min_pos scale).trans_le hx).ne'
  have hy0 : y.mantissa ≠ 0 := ((min_pos scale).trans_le hy).ne'
  rcases lt_trichotomy x.exponent y.exponent with hlt | heq | hgt
  · have hmag : magnitude x < magnitude y := magnitude_lt hx' hy hlt
    rw [lt_of_exponents' hsign hx0 hy0 hlt]
    cases hneg : x.negative with
    | true =>
      rw [toRat_of_negative hneg, toRat_of_negative (hsign ▸ hneg)]
      exact iff_of_false (by simp) (by linarith)
    | false =>
      rw [toRat_of_nonneg hneg, toRat_of_nonneg (hsign ▸ hneg)]
      exact iff_of_true rfl hmag
  · rw [lt_of_mantissas hsign hx0 hy0 heq, decide_eq_true_iff]
    cases hneg : x.negative with
    | true =>
      have hneg' : y.negative = true := hsign ▸ hneg
      have hmantissa : x.mantissa = y.mantissa :=
        not_not.mp fun hne => hdecide ⟨hneg, hneg', heq, hne⟩
      rw [toRat_of_negative hneg, toRat_of_negative hneg', neg_lt_neg_iff,
        magnitude_lt_iff heq.symm, hmantissa]
    | false =>
      rw [toRat_of_nonneg hneg, toRat_of_nonneg (hsign ▸ hneg), magnitude_lt_iff heq]
  · have hmag : magnitude y < magnitude x := magnitude_lt hy' hx hgt
    rw [lt_of_exponents hsign hx0 hy0 hgt]
    cases hneg : x.negative with
    | true =>
      rw [toRat_of_negative hneg, toRat_of_negative (hsign ▸ hneg)]
      exact iff_of_true rfl (by linarith)
    | false =>
      rw [toRat_of_nonneg hneg, toRat_of_nonneg (hsign ▸ hneg)]
      exact iff_of_false (by simp) (by linarith)

private theorem lt_zero_self : lt zero zero = false := rfl

theorem lt_iff_toRat_lt (hx : IsNormal scale x) (hy : IsNormal scale y)
    (hdecide : ¬MantissasDecide x y) : lt x y = true ↔ x.toRat < y.toRat := by
  by_cases hsign : x.negative = y.negative
  · rcases hx with rfl | hx
    · rcases hy with rfl | hy
      · rw [lt_zero_self]
        exact iff_of_false (by simp) (lt_irrefl _)
      · have hpos : 0 < y.mantissa := (min_pos scale).trans_le hy.1
        rw [toRat_zero, toRat_of_nonneg hsign.symm]
        exact iff_of_true (by simp [lt, zero, ← hsign, hpos]) (magnitude_pos hy.1)
    · rcases hy with rfl | hy
      · have hpos : x.mantissa ≠ 0 := ((min_pos scale).trans_le hx.1).ne'
        rw [toRat_zero, toRat_of_nonneg hsign]
        exact iff_of_false (by simp [lt, zero, hsign, hpos]) (magnitude_nonneg x).not_gt
      · exact lt_iff_of_nonzero hx.1 hx.2.1 hy.1 hy.2.1 hsign hdecide
  · exact lt_iff_of_signs hx hsign

private theorem eq_of_not_lt (hx : IsNormal scale x) (hy : IsNormal scale y)
    (hlt : lt x y = false) (hgt : lt y x = false) : x = y := by
  have hsign : x.negative = y.negative := by
    by_contra hne
    rw [lt_of_signs hne] at hlt
    rw [lt_of_signs (Ne.symm hne)] at hgt
    exact hne (hlt.trans hgt.symm)
  rcases hx with rfl | hx
  · rcases hy with rfl | hy
    · rfl
    · have hpos : 0 < y.mantissa := (min_pos scale).trans_le hy.1
      simp [lt, zero, ← hsign, hpos] at hlt
  rcases hy with rfl | hy
  · have hpos : 0 < x.mantissa := (min_pos scale).trans_le hx.1
    simp [lt, zero, hsign, hpos] at hgt
  have hx0 : x.mantissa ≠ 0 := ((min_pos scale).trans_le hx.1).ne'
  have hy0 : y.mantissa ≠ 0 := ((min_pos scale).trans_le hy.1).ne'
  rcases lt_trichotomy x.exponent y.exponent with hexp | hexp | hexp
  · rw [lt_of_exponents' hsign hx0 hy0 hexp] at hlt
    rw [lt_of_exponents hsign.symm hy0 hx0 hexp, ← hsign] at hgt
    exact absurd hlt (by simp [hgt])
  · rw [lt_of_mantissas hsign hx0 hy0 hexp, decide_eq_false_iff_not] at hlt
    rw [lt_of_mantissas hsign.symm hy0 hx0 hexp.symm, decide_eq_false_iff_not] at hgt
    have hmantissa : x.mantissa = y.mantissa := le_antisymm (not_lt.mp hgt) (not_lt.mp hlt)
    cases x
    cases y
    simp_all
  · rw [lt_of_exponents hsign hx0 hy0 hexp] at hlt
    rw [lt_of_exponents' hsign.symm hy0 hx0 hexp, ← hsign] at hgt
    exact absurd hgt (by simp [hlt])

theorem eq_iff_toRat_eq (hx : IsNormal scale x) (hy : IsNormal scale y) :
    x = y ↔ x.toRat = y.toRat := by
  refine ⟨fun h => h ▸ rfl, fun h => ?_⟩
  by_cases hdecide : MantissasDecide x y
  · obtain ⟨hneg, hneg', hexp, hne⟩ := hdecide
    rw [toRat_of_negative hneg, toRat_of_negative hneg', neg_inj] at h
    have hle := (magnitude_lt_iff hexp).not.mp h.not_lt
    have hge := (magnitude_lt_iff hexp.symm).not.mp h.not_gt
    exact absurd (le_antisymm (not_lt.mp hge) (not_lt.mp hle)) hne
  · have hlt : lt x y = false := by
      simpa using (lt_iff_toRat_lt hx hy hdecide).not.mpr h.not_lt
    have hgt : lt y x = false := by
      simpa using (lt_iff_toRat_lt hy hx fun hd => hdecide hd.symm).not.mpr h.not_gt
    exact eq_of_not_lt hx hy hlt hgt

/-- The comparisons that go by `operator<` are right when it is, both ways round. -/
theorem OrderedAsRat.of_lt_iff (hx : IsNormal scale x) (hy : IsNormal scale y)
    (hlt : lt x y = true ↔ x.toRat < y.toRat) (hgt : lt y x = true ↔ y.toRat < x.toRat) :
    OrderedAsRat x y where
  lt_iff := hlt
  eq_iff := eq_iff_toRat_eq hx hy
  le_iff := by
    unfold le
    rw [Bool.not_eq_true', ← Bool.not_eq_true, hgt, not_lt]
  min_eq := by
    unfold min
    split_ifs with h
    · exact (min_eq_right (hgt.mp h).le).symm
    · exact (min_eq_left (not_lt.mp (hgt.not.mp h))).symm
  max_eq := by
    unfold max
    split_ifs with h
    · exact (max_eq_right (hlt.mp h).le).symm
    · exact (max_eq_left (not_lt.mp (hlt.not.mp h))).symm

theorem MantissasDecide.lt_iff (h : MantissasDecide x y) (hx : IsNormal scale x)
    (hy : IsNormal scale y) : lt x y = true ↔ y.toRat < x.toRat := by
  obtain ⟨hneg, hneg', hexp, -⟩ := h
  rcases hx with rfl | hx
  · exact absurd hneg (by simp [zero])
  rcases hy with rfl | hy
  · exact absurd hneg' (by simp [zero])
  have hx0 : x.mantissa ≠ 0 := ((min_pos scale).trans_le hx.1).ne'
  have hy0 : y.mantissa ≠ 0 := ((min_pos scale).trans_le hy.1).ne'
  rw [lt_of_mantissas (hneg.trans hneg'.symm) hx0 hy0 hexp, decide_eq_true_iff,
    toRat_of_negative hneg, toRat_of_negative hneg', neg_lt_neg_iff, magnitude_lt_iff hexp]

/-- The order of two normalized numbers is that of their values, except for two different negative
numbers with one exponent. -/
theorem orderedAsRat_iff (hx : IsNormal scale x) (hy : IsNormal scale y) :
    OrderedAsRat x y ↔ ¬MantissasDecide x y := by
  constructor
  · intro h hdecide
    have hlt := h.lt_iff.symm.trans (hdecide.lt_iff hx hy)
    have hle : ¬x.toRat < y.toRat := fun hlt' => hlt'.asymm (hlt.mp hlt')
    have hge : ¬y.toRat < x.toRat := fun hgt' => hgt'.asymm (hlt.mpr hgt')
    have heq : x = y := h.eq_iff.mpr (le_antisymm (not_lt.mp hge) (not_lt.mp hle))
    exact hdecide.2.2.2 (by rw [heq])
  · intro hdecide
    exact .of_lt_iff hx hy (lt_iff_toRat_lt hx hy hdecide)
      (lt_iff_toRat_lt hy hx fun hd => hdecide hd.symm)

end

/-- `-1` and `-2` with the small mantissa. -/
def minusOne : Number := ⟨true, 1000000000000000, -15⟩

def minusTwo : Number := ⟨true, 2000000000000000, -15⟩

private theorem minusOne_isNormal : IsNormal .small minusOne := by
  right
  decide

private theorem minusTwo_isNormal : IsNormal .small minusTwo := by
  right
  decide

/-- A negative number and one that is not: the order is right, and `-1 < 0`. -/
theorem orderedAsRat_minusOne_zero :
    (OrderedAsRat minusOne zero ↔ ¬MantissasDecide minusOne zero) ∧ lt minusOne zero = true :=
  ⟨orderedAsRat_iff minusOne_isNormal (.inl rfl), rfl⟩

/-- `-1 < -2`, and so the lesser of the two is `-1`. -/
theorem minusOne_lt_minusTwo :
    IsNormal .small minusOne ∧ IsNormal .small minusTwo ∧ lt minusOne minusTwo = true ∧
      minusTwo.toRat < minusOne.toRat ∧ min minusOne minusTwo = minusOne ∧
      ¬OrderedAsRat minusOne minusTwo := by
  have hlt : minusTwo.toRat < minusOne.toRat := by
    norm_num [toRat, minusOne, minusTwo]
  refine ⟨minusOne_isNormal, minusTwo_isNormal, rfl, hlt, rfl, fun h => ?_⟩
  exact hlt.asymm (h.lt_iff.mp rfl)

end Number

end FalconLedger
