import FalconLedger.Dex.AMMFormulas
import Mathlib.Analysis.Real.Sqrt
import Mathlib.Tactic.LinearCombination
import Mathlib.Tactic.Positivity

/-!
# Depositing and withdrawing one asset

In exact arithmetic the four formulas for a single asset of a pool undo each other
(`single_asset_inverse`). A deposit is given by the number `c` of equation 3: it is
`(1 - f) * c * (1 + c) + c` of the pool, and worth `(1 - f) * c` of the tokens. A withdrawal is
given by the share `x` of the tokens it takes: it is `x * ((1 - f) + (1 - x)) / (1 - f * x)` of the
pool.
-/

namespace FalconLedger.AMM

section Shares

variable {K : Type*} [Field K]

/-- The deposit to the pool that goes with `c`, as a share of the balance. -/
def depositShare (f c : K) : K := (1 - f) * c * (1 + c) + c

/-- The withdrawal that a share `x` of the tokens pays for, as a share of the balance. -/
def withdrawShare (f x : K) : K := x * ((1 - f) + (1 - x)) / (1 - f * x)

end Shares

variable {K : Type*} [Field K] [LinearOrder K] [IsStrictOrderedRing K] {root2 : K → Option K}
  {fixAMMv1_3 : Bool} {B T f : K}

/-- The square root is exact, and there is one of every number that is not negative. -/
def ExactRoot (root2 : K → Option K) : Prop :=
  ∀ x, 0 ≤ x → ∃ y, root2 x = some y ∧ 0 ≤ y ∧ y * y = x

theorem ExactRoot.eq (h : ExactRoot root2) {x y : K} (hy : 0 ≤ y) (hxy : x = y * y) :
    root2 x = some y := by
  obtain ⟨z, hz, hz0, hzx⟩ := h x (hxy ▸ mul_self_nonneg y)
  rw [hz, (mul_self_inj hz0 hy).mp (hzx.trans hxy)]

/-! ### Deposits -/

theorem depositShare_strictMono (hf1 : f < 1) {c c' : K} (hc : 0 ≤ c) (h : c < c') :
    depositShare f c < depositShare f c' := by
  have hpos : 0 < (c' - c) * ((1 - f) * (c + c') + (2 - f)) :=
    mul_pos (by linarith) (by nlinarith)
  rw [depositShare, depositShare]
  linarith [show (1 - f) * c' ^ 2 + (2 - f) * c' - ((1 - f) * c ^ 2 + (2 - f) * c) =
    (c' - c) * ((1 - f) * (c + c') + (2 - f)) by ring]

theorem exists_depositShare (hroot : ExactRoot root2) (hf1 : f < 1) {r : K}
    (hr : 0 < r) : ∃ c, 0 < c ∧ r = depositShare f c := by
  have hf1' : 0 < 1 - f := by linarith
  have hd : 0 ≤ (2 - f) * (2 - f) + 4 * (1 - f) * r := by
    have := mul_pos hf1' hr
    nlinarith [mul_self_nonneg (2 - f)]
  obtain ⟨y, -, hy, hyy⟩ := hroot _ hd
  have hlt : 2 - f < y := by
    by_contra hle
    have : y * y ≤ (2 - f) * (2 - f) := mul_self_le_mul_self hy (not_lt.mp hle)
    nlinarith [mul_pos hf1' hr]
  refine ⟨(y - (2 - f)) / (2 * (1 - f)), div_pos (by linarith) (by linarith), ?_⟩
  rw [depositShare]
  field_simp
  linear_combination (-1 : K) * hyy

theorem lpTokensOut_eq (hroot : ExactRoot root2) (hB : 0 < B) (hf1 : f < 1) {c : K}
    (hc : 0 < c) :
    lpTokensOut root2 fixAMMv1_3 B (B * depositShare f c) T f = some (T * ((1 - f) * c)) := by
  have hf1' : 0 < 1 - f := by linarith
  have hf2 : 0 ≤ (1 - f / 2) / (1 - f) := div_nonneg (by linarith) hf1'.le
  have hratio : B * depositShare f c / B = depositShare f c := mul_div_cancel_left₀ _ hB.ne'
  have hsqrt : root2 ((1 - f / 2) / (1 - f) * ((1 - f / 2) / (1 - f)) +
      depositShare f c / (1 - f)) = some (c + (1 - f / 2) / (1 - f)) := by
    refine hroot.eq (by linarith) ?_
    rw [depositShare]
    field_simp
    ring
  have hshare : depositShare f c - c = (1 - f) * c * (1 + c) := by
    rw [depositShare]
    ring
  simp only [lpTokensOut, feeMult, feeMultHalf, divide_eq hf1'.ne', divide_eq hB.ne', hratio,
    hsqrt, Option.bind_eq_bind, Option.bind_some, add_sub_cancel_right, hshare,
    divide_eq (show 1 + c ≠ 0 by linarith), Option.pure_def]
  have hcancel : (1 - f) * c * (1 + c) / (1 + c) = (1 - f) * c :=
    mul_div_cancel_right₀ _ (by linarith)
  split_ifs
  · rw [hcancel]
  · rw [mul_div_assoc, hcancel]

theorem ammAssetIn_eq (hroot : ExactRoot root2) (hT : 0 < T) (hf1 : f < 1) {c : K}
    (hc : 0 < c) :
    ammAssetIn root2 B T (T * ((1 - f) * c)) f = some (B * depositShare f c) := by
  have hf1' : 0 < 1 - f := by linarith
  have hratio : T * ((1 - f) * c) / T = (1 - f) * c := mul_div_cancel_left₀ _ hT.ne'
  have ht2 : 0 < 1 + (1 - f) * c := by
    have := mul_pos hf1' hc
    linarith
  set t1 := (1 - f) * c with ht1
  set f2 := (1 - f / 2) / (1 - f) with hf2
  have hmul : (1 - f) * f2 = 1 - f / 2 := mul_div_cancel₀ _ hf1'.ne'
  -- the root of the discriminant, and it is not negative
  have hpos : 0 ≤ 2 * (c + f2) / (1 + t1) - 1 / (1 - f) := by
    rw [sub_nonneg, div_le_div_iff₀ hf1' ht2]
    have := mul_pos hf1' hc
    linarith [show 2 * (c + f2) * (1 - f) = 2 * t1 + 2 * ((1 - f) * f2) by rw [ht1]; ring]
  have hdisc : (2 * (f2 - t1 / (1 + t1)) / (1 + t1) - 1 / (1 - f)) *
        (2 * (f2 - t1 / (1 + t1)) / (1 + t1) - 1 / (1 - f)) -
      4 * (1 / ((1 + t1) * (1 + t1))) *
        ((f2 - t1 / (1 + t1)) * (f2 - t1 / (1 + t1)) - f2 * f2) =
      (2 * (c + f2) / (1 + t1) - 1 / (1 - f)) * (2 * (c + f2) / (1 + t1) - 1 / (1 - f)) := by
    rw [hf2, ht1] at *
    field_simp
    ring
  have hsolve : (-(2 * (f2 - t1 / (1 + t1)) / (1 + t1) - 1 / (1 - f)) +
      (2 * (c + f2) / (1 + t1) - 1 / (1 - f))) / (2 * (1 / ((1 + t1) * (1 + t1)))) =
        depositShare f c := by
    rw [depositShare]
    have hne := ht2.ne'
    field_simp
    rw [ht1]
    ring
  simp only [ammAssetIn, solveQuadraticEq, feeMult, feeMultHalf, divide_eq hf1'.ne',
    divide_eq hT.ne', hratio, Option.bind_eq_bind, Option.bind_some, divide_eq ht2.ne',
    divide_eq (mul_pos ht2 ht2).ne', ← hf2, hdisc, hroot.eq hpos rfl, Option.pure_def]
  rw [divide_eq (mul_pos two_pos (one_div_pos.mpr (mul_pos ht2 ht2))).ne', Option.bind_some,
    hsolve]

/-! ### Withdrawals -/

theorem one_sub_mul_pos (hf1 : f < 1) {x : K} (hx : 0 ≤ x) (hx1 : x ≤ 1) : 0 < 1 - f * x := by
  rcases hx.eq_or_lt with rfl | hx
  · simp
  · nlinarith

theorem withdrawShare_strictMono (hf : 0 ≤ f) (hf1 : f < 1) {x y : K} (hx : 0 ≤ x) (h : x < y)
    (hy : y ≤ 1) : withdrawShare f x < withdrawShare f y := by
  have hfx := one_sub_mul_pos hf1 hx (h.le.trans hy)
  have hfy := one_sub_mul_pos hf1 (hx.trans h.le) hy
  rw [withdrawShare, withdrawShare, div_lt_div_iff₀ hfx hfy]
  -- both factors of the difference are positive
  have hrest : 0 < (1 - f) * ((1 - x) + (1 - y)) + f * ((1 - x) * (1 - y)) :=
    add_pos_of_pos_of_nonneg (mul_pos (by linarith) (by linarith))
      (mul_nonneg hf (mul_nonneg (by linarith) (by linarith)))
  have hprod := mul_pos (sub_pos.mpr h) hrest
  linarith [show y * (2 - f - y) * (1 - f * x) - x * (2 - f - x) * (1 - f * y) =
    (y - x) * ((1 - f) * ((1 - x) + (1 - y)) + f * ((1 - x) * (1 - y))) by ring]

theorem ammAssetOut_eq (fixAMMv1_3 : Bool) (hT : 0 < T) (hf1 : f < 1) {x : K} (hx : 0 ≤ x) (hx1 : x ≤ 1) :
    ammAssetOut fixAMMv1_3 B T (T * x) f = some (B * withdrawShare f x) := by
  have hpos := one_sub_mul_pos hf1 hx hx1
  have hne : x * f - 1 ≠ 0 := by
    rw [mul_comm]
    linarith
  have hfrac : (x * x - x * (2 - f)) / (x * f - 1) = withdrawShare f x := by
    rw [withdrawShare, div_eq_div_iff hne hpos.ne']
    ring
  simp only [ammAssetOut, divide_eq hT.ne', mul_div_cancel_left₀ x hT.ne', Option.bind_eq_bind,
    Option.bind_some, divide_eq hne, Option.pure_def]
  split_ifs
  · rw [hfrac]
  · rw [mul_div_assoc, hfrac]

theorem exists_lpTokensIn (hroot : ExactRoot root2) (fixAMMv1_3 : Bool) (T : K) (hB : 0 < B)
    (hf : 0 ≤ f) (hf1 : f < 1) {b : K} (hb : 0 < b) (hbB : b ≤ B) :
    ∃ x, 0 ≤ x ∧ x ≤ 1 ∧ b = B * withdrawShare f x ∧
      lpTokensIn root2 fixAMMv1_3 B b T f = some (T * x) := by
  obtain ⟨r, rfl⟩ : ∃ r, b = B * r := ⟨b / B, (mul_div_cancel₀ b hB.ne').symm⟩
  have hr : 0 < r := (mul_pos_iff_of_pos_left hB).mp hb
  have hr1 : r ≤ 1 := by
    rwa [mul_le_iff_le_one_right hB] at hbB
  set c := r * f + 2 - f with hc
  have hc0 : 0 ≤ c := by
    have := mul_nonneg hr.le hf
    linarith
  have hd : 0 ≤ c * c - 4 * r := by
    have h1 : 0 ≤ (1 - r) * (1 - f) := mul_nonneg (by linarith) (by linarith)
    rw [show c * c - 4 * r = 4 * ((1 - r) * (1 - f)) + (f * (1 - r)) * (f * (1 - r)) by
      rw [hc]; ring]
    exact add_nonneg (by linarith) (mul_self_nonneg _)
  obtain ⟨y, hy, hy0, hyy⟩ := hroot _ hd
  have hle : y ≤ c := abs_le_of_sq_le_sq' (by nlinarith) hc0 |>.2
  have hge : c - 2 ≤ y := by
    have : f * r ≤ f := mul_le_of_le_one_right hf hr1
    linarith
  have hx : 0 ≤ (c - y) / 2 := div_nonneg (by linarith) two_pos.le
  have hx1 : (c - y) / 2 ≤ 1 := by
    rw [div_le_one two_pos]
    linarith
  refine ⟨(c - y) / 2, hx, hx1, ?_, ?_⟩
  · -- the share is a root of `x ^ 2 - c * x + r`
    have hquad : (c - y) / 2 * ((1 - f) + (1 - (c - y) / 2)) = r * (1 - f * ((c - y) / 2)) := by
      linear_combination (-1 / 4 : K) * hyy + (c - y) / 2 * hc
    rw [withdrawShare, hquad, mul_div_cancel_right₀ _ (one_sub_mul_pos hf1 hx hx1).ne']
  · simp only [lpTokensIn, divide_eq hB.ne', mul_div_cancel_left₀ r hB.ne', Option.bind_eq_bind,
      Option.bind_some, ← hc, hy, divide_eq (two_ne_zero (α := K)), Option.pure_def]
    split_ifs
    · rfl
    · rw [mul_div_assoc]

/-! ### The formulas together -/

theorem withdrawShare_of_deposit (hf : 0 ≤ f) (hf1 : f < 1) {c : K} (hc : 0 < c) :
    (1 + depositShare f c) * withdrawShare f ((1 - f) * c / (1 + (1 - f) * c)) ≤
      depositShare f c := by
  have hf1' : 0 < 1 - f := by linarith
  have ht : 0 < (1 - f) * c := mul_pos hf1' hc
  have ht2 : 0 < 1 + (1 - f) * c := by linarith
  have hden : 0 < 1 + (1 - f) * ((1 - f) * c) := by
    have := mul_pos hf1' ht
    linarith
  have hshare : withdrawShare f ((1 - f) * c / (1 + (1 - f) * c)) =
      (1 - f) * c * (2 - f + (1 - f) * ((1 - f) * c)) /
        ((1 + (1 - f) * c) * (1 + (1 - f) * ((1 - f) * c))) := by
    have hne := ht2.ne'
    have hfx : 1 - f * ((1 - f) * c / (1 + (1 - f) * c)) =
        (1 + (1 - f) * ((1 - f) * c)) / (1 + (1 - f) * c) := by
      field_simp
      ring
    rw [withdrawShare, hfx]
    have hne' := hden.ne'
    field_simp
    ring
  rw [hshare, ← mul_div_assoc, div_le_iff₀ (mul_pos ht2 hden)]
  -- the pool keeps the fee on the whole of what was deposited
  have hkept : 0 ≤ f * (2 - f) * (c * (1 + (1 - f) * c)) :=
    mul_nonneg (mul_nonneg hf (by linarith)) (mul_pos hc ht2).le
  rw [depositShare]
  linarith [show ((1 - f) * c ^ 2 + (2 - f) * c) *
      ((1 + (1 - f) * c) * (1 + (1 - f) * ((1 - f) * c))) -
    (1 + ((1 - f) * c ^ 2 + (2 - f) * c)) * ((1 - f) * c * (2 - f + (1 - f) * ((1 - f) * c))) =
      f * (2 - f) * (c * (1 + (1 - f) * c)) by ring]

/-- What a deposit of `b` is worth: the tokens, which cost the deposit and buy back no more than it. -/
def DepositUndone (root2 : K → Option K) (fixAMMv1_3 : Bool) (B T f b : K) : Prop :=
  ∃ t, lpTokensOut root2 fixAMMv1_3 B b T f = some t ∧ 0 ≤ t ∧
    ammAssetIn root2 B T t f = some b ∧
    ∃ o, ammAssetOut fixAMMv1_3 (B + b) (T + t) t f = some o ∧ 0 ≤ o ∧ o ≤ b

/-- What a withdrawal of `b` costs: the tokens, which buy it. -/
def WithdrawalUndone (root2 : K → Option K) (fixAMMv1_3 : Bool) (B T f b : K) : Prop :=
  ∃ t, lpTokensIn root2 fixAMMv1_3 B b T f = some t ∧ 0 ≤ t ∧
    ammAssetOut fixAMMv1_3 B T t f = some b

/-- A formula of an amount: more is worth more. -/
def IncreasingOn (S : Set K) (F : K → Option K) : Prop :=
  ∀ b ∈ S, ∀ b' ∈ S, b < b' → ∀ t ∈ F b, ∀ t' ∈ F b', t < t'

theorem depositUndone (hroot : ExactRoot root2) (hB : 0 < B) (hT : 0 < T) (hf : 0 ≤ f)
    (hf1 : f < 1) {b : K} (hb : 0 < b) : DepositUndone root2 fixAMMv1_3 B T f b := by
  obtain ⟨c, hc, hshare⟩ := exists_depositShare hroot hf1 (div_pos hb hB)
  obtain rfl : b = B * depositShare f c := by rw [← hshare, mul_div_cancel₀ b hB.ne']
  have ht : 0 < (1 - f) * c := mul_pos (by linarith) hc
  have ht2 : 0 < 1 + (1 - f) * c := by linarith
  refine ⟨_, lpTokensOut_eq hroot hB hf1 hc, (mul_pos hT ht).le, ammAssetIn_eq hroot hT hf1 hc, ?_⟩
  -- of the tokens after the deposit
  have hx : 0 ≤ (1 - f) * c / (1 + (1 - f) * c) := (div_pos ht ht2).le
  have hx1 : (1 - f) * c / (1 + (1 - f) * c) ≤ 1 := by
    rw [div_le_one ht2]
    linarith
  have htokens : T * ((1 - f) * c) =
      (T + T * ((1 - f) * c)) * ((1 - f) * c / (1 + (1 - f) * c)) := by
    have hne := ht2.ne'
    field_simp
  have hT' : 0 < T + T * ((1 - f) * c) := add_pos hT (mul_pos hT ht)
  have hout := ammAssetOut_eq (B := B + B * depositShare f c) fixAMMv1_3 hT' hf1 hx hx1
  rw [← htokens] at hout
  have hpool : 0 < B + B * depositShare f c := add_pos hB hb
  have hshare0 : 0 ≤ withdrawShare f ((1 - f) * c / (1 + (1 - f) * c)) :=
    div_nonneg (mul_nonneg hx (by linarith)) (one_sub_mul_pos hf1 hx hx1).le
  refine ⟨_, hout, mul_nonneg hpool.le hshare0, ?_⟩
  calc (B + B * depositShare f c) * withdrawShare f ((1 - f) * c / (1 + (1 - f) * c))
      = B * ((1 + depositShare f c) * withdrawShare f ((1 - f) * c / (1 + (1 - f) * c))) := by ring
    _ ≤ B * depositShare f c := mul_le_mul_of_nonneg_left (withdrawShare_of_deposit hf hf1 hc) hB.le

theorem lpTokensOut_increasing (hroot : ExactRoot root2) (hB : 0 < B) (hT : 0 < T) (hf1 : f < 1) :
    IncreasingOn (Set.Ioi 0) fun b => lpTokensOut root2 fixAMMv1_3 B b T f := by
  intro b hb b' hb' hlt t ht t' ht'
  obtain ⟨c, hc, hshare⟩ := exists_depositShare hroot hf1 (div_pos hb hB)
  obtain ⟨c', hc', hshare'⟩ := exists_depositShare hroot hf1 (div_pos hb' hB)
  obtain rfl : b = B * depositShare f c := by rw [← hshare, mul_div_cancel₀ b hB.ne']
  obtain rfl : b' = B * depositShare f c' := by rw [← hshare', mul_div_cancel₀ b' hB.ne']
  obtain rfl := Option.some.inj ((lpTokensOut_eq hroot hB hf1 hc).symm.trans ht)
  obtain rfl := Option.some.inj ((lpTokensOut_eq hroot hB hf1 hc').symm.trans ht')
  have hcc' : c < c' := by
    by_contra hle
    rcases (not_lt.mp hle).eq_or_lt with rfl | hgt
    · exact lt_irrefl _ hlt
    · exact lt_asymm hlt (mul_lt_mul_of_pos_left (depositShare_strictMono hf1 hc'.le hgt) hB)
  exact mul_lt_mul_of_pos_left (mul_lt_mul_of_pos_left hcc' (by linarith)) hT

theorem lpTokensIn_increasing (hroot : ExactRoot root2) (hB : 0 < B) (hT : 0 < T) (hf : 0 ≤ f)
    (hf1 : f < 1) : IncreasingOn (Set.Ioc 0 B) fun b => lpTokensIn root2 fixAMMv1_3 B b T f := by
  rintro b ⟨hb, hbB⟩ b' ⟨hb', hbB'⟩ hlt t ht t' ht'
  obtain ⟨x, hx, hx1, rfl, hin⟩ := exists_lpTokensIn hroot fixAMMv1_3 T hB hf hf1 hb hbB
  obtain ⟨x', hx', hx1', rfl, hin'⟩ := exists_lpTokensIn hroot fixAMMv1_3 T hB hf hf1 hb' hbB'
  obtain rfl := Option.some.inj (hin.symm.trans ht)
  obtain rfl := Option.some.inj (hin'.symm.trans ht')
  have hxx' : x < x' := by
    by_contra hle
    rcases (not_lt.mp hle).eq_or_lt with rfl | hgt
    · exact lt_irrefl _ hlt
    · exact lt_asymm hlt (mul_lt_mul_of_pos_left (withdrawShare_strictMono hf hf1 hx' hgt hx1) hB)
  exact mul_lt_mul_of_pos_left hxx' hT

/-- **The formulas for a single asset undo each other**, in exact arithmetic: no division by zero and
no root of a negative number is met on the way. -/
theorem single_asset_inverse (hroot : ExactRoot root2) (fixAMMv1_3 : Bool) (hB : 0 < B)
    (hT : 0 < T) (hf : 0 ≤ f) (hf1 : f < 1) :
    (∀ b, 0 < b → DepositUndone root2 fixAMMv1_3 B T f b) ∧
      (∀ b, 0 < b → b ≤ B → WithdrawalUndone root2 fixAMMv1_3 B T f b) ∧
      (IncreasingOn (Set.Ioi 0) fun b => lpTokensOut root2 fixAMMv1_3 B b T f) ∧
      IncreasingOn (Set.Ioc 0 B) fun b => lpTokensIn root2 fixAMMv1_3 B b T f := by
  refine ⟨fun b hb => depositUndone hroot hB hT hf hf1 hb, fun b hb hbB => ?_,
    lpTokensOut_increasing hroot hB hT hf1, lpTokensIn_increasing hroot hB hT hf hf1⟩
  obtain ⟨x, hx, hx1, rfl, hin⟩ := exists_lpTokensIn hroot fixAMMv1_3 T hB hf hf1 hb hbB
  exact ⟨_, hin, mul_nonneg hT.le hx, ammAssetOut_eq fixAMMv1_3 hT hf1 hx hx1⟩

/-- `root2` of the real numbers, which throws for a negative one. -/
noncomputable def realRoot (x : ℝ) : Option ℝ := if x < 0 then none else some (Real.sqrt x)

theorem exactRoot_realRoot : ExactRoot realRoot := fun x hx =>
  ⟨Real.sqrt x, if_neg (not_lt.mpr hx), Real.sqrt_nonneg x, Real.mul_self_sqrt hx⟩

/-- A real pool of 100 of the asset and 10 tokens, with a fee of one percent. -/
theorem single_asset_inverse_real :
    (0 : ℝ) < 100 ∧ (0 : ℝ) < 10 ∧ (0 : ℝ) ≤ 1 / 100 ∧ (1 / 100 : ℝ) < 1 ∧
      (∀ b : ℝ, 0 < b → DepositUndone realRoot true 100 10 (1 / 100) b) ∧
      (∀ b : ℝ, 0 < b → b ≤ 100 → WithdrawalUndone realRoot true 100 10 (1 / 100) b) ∧
      (IncreasingOn (Set.Ioi 0) fun b : ℝ => lpTokensOut realRoot true 100 b 10 (1 / 100)) ∧
      IncreasingOn (Set.Ioc 0 100) fun b : ℝ => lpTokensIn realRoot true 100 b 10 (1 / 100) := by
  have hB : (0 : ℝ) < 100 := by norm_num
  have hT : (0 : ℝ) < 10 := by norm_num
  have hf : (0 : ℝ) ≤ 1 / 100 := by norm_num
  have hf1 : (1 / 100 : ℝ) < 1 := by norm_num
  exact ⟨hB, hT, hf, hf1, single_asset_inverse exactRoot_realRoot true hB hT hf hf1⟩

end FalconLedger.AMM
