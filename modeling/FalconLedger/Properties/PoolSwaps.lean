import FalconLedger.Dex.AMMSwap
import FalconLedger.Protocol.NumberExact
import Mathlib.Tactic.FieldSimp

/-!
# A swap does not shrink the pool

With operations that round in the direction they are told to, a pool of `P` and `Q` that takes `a`
and gives `o` has `P * Q ≤ (P + a) * (Q - o)`: always for `swapAssetIn`, and for `swapAssetOut` when
the conversions keep what the formula relies on (`swaps_keep_product`).
-/

namespace FalconLedger.AMM

/-! ### Rounding in a direction -/

/-- `z` is on the side of `x` that a mode says. What is rounded down keeps its sign, and all that
`least` stands for. -/
def Directed (least : ℚ) : RoundingMode → ℚ → ℚ → Prop
  | .downward, x, z => z ≤ x ∧ (0 ≤ x → 0 ≤ z) ∧ (least ≤ x → least ≤ z)
  | .upward, x, z => x ≤ z
  | _, _, _ => True

instance (least : ℚ) : ∀ mode x z, Decidable (Directed least mode x z)
  | .downward, _, _ => inferInstanceAs (Decidable (_ ∧ _))
  | .upward, x, z => inferInstanceAs (Decidable (x ≤ z))
  | .toNearest, _, _ | .towardsZero, _, _ => inferInstanceAs (Decidable True)

namespace Directed

variable {least x z : ℚ}

theorem le (h : Directed least .downward x z) : z ≤ x := h.1

theorem nonneg (h : Directed least .downward x z) (hx : 0 ≤ x) : 0 ≤ z := h.2.1 hx

theorem least_le (h : Directed least .downward x z) (hx : least ≤ x) : least ≤ z := h.2.2 hx

theorem ge (h : Directed least .upward x z) : x ≤ z := h

end Directed

variable {N I : Type}

/-- What numbers and amounts stand for. The integers of `R` are numbers, and so is every fee. -/
structure Arithmetic.Values (A : Arithmetic N I) (R : Set ℚ) (num : N → ℚ) (iou : I → ℚ) :
    Prop where
  signum_pos : ∀ x, 0 < A.signum x ↔ 0 < num x
  signum_neg : ∀ x, A.signum x < 0 ↔ num x < 0
  negIOU : ∀ a, iou (A.negIOU a) = -iou a
  signumIOU_pos : ∀ a, 0 < A.signumIOU a ↔ 0 < iou a
  zeroIOU : iou A.zeroIOU = 0
  minPositiveIOU : 0 < iou A.minPositiveIOU ∧ iou A.minPositiveIOU ≤ 1 / 100000
  one_mem : 1 ∈ R
  ofInt_eq : ∀ {mode x} {n : ℤ}, (n : ℚ) ∈ R → A.ofInt mode n = some x → num x = n
  getFee_eq : ∀ {tfee fee}, tfee < 100000 → A.getFee .upward tfee = some fee →
    num fee = tfee / 100000

/-- The operations round in the direction of their mode, and an amount of an IOU is a number. -/
structure Arithmetic.Respects (A : Arithmetic N I) (R : Set ℚ) (num : N → ℚ) (iou : I → ℚ) :
    Prop extends A.Values R num iou where
  ofInt : ∀ {mode n x}, A.ofInt mode n = some x → Directed (iou A.minPositiveIOU) mode n (num x)
  add : ∀ {mode x y z}, A.add mode x y = some z →
    Directed (iou A.minPositiveIOU) mode (num x + num y) (num z)
  sub : ∀ {mode x y z}, A.sub mode x y = some z →
    Directed (iou A.minPositiveIOU) mode (num x - num y) (num z)
  mul : ∀ {mode x y z}, A.mul mode x y = some z →
    Directed (iou A.minPositiveIOU) mode (num x * num y) (num z)
  div : ∀ {mode x y z}, A.div mode x y = some z →
    Directed (iou A.minPositiveIOU) mode (num x / num y) (num z)
  toRep : ∀ {mode x n}, A.toRep mode x = some n →
    (mode = .downward → 0 ≤ num x → 0 ≤ n ∧ n ≤ num x) ∧ (mode = .upward → num x ≤ n)
  ofIOU : ∀ {mode a x}, A.ofIOU mode a = some x → num x = iou a
  -- what is less than the least amount becomes zero in every mode
  toIOU : ∀ {mode x a}, A.toIOU mode x = some a →
    (mode = .upward → iou A.minPositiveIOU ≤ num x) →
      Directed (iou A.minPositiveIOU) mode (num x) (iou a)

/-- The arithmetic `A`, without the results that are not rounded in the direction of their mode. -/
def Arithmetic.respecting (A : Arithmetic N I) (num : N → ℚ) (iou : I → ℚ) : Arithmetic N I :=
  let least := iou A.minPositiveIOU
  { A with
    ofInt mode n := (A.ofInt mode n).filter fun x => Directed least mode n (num x)
    add mode x y := (A.add mode x y).filter fun z => Directed least mode (num x + num y) (num z)
    sub mode x y := (A.sub mode x y).filter fun z => Directed least mode (num x - num y) (num z)
    mul mode x y := (A.mul mode x y).filter fun z => Directed least mode (num x * num y) (num z)
    div mode x y := (A.div mode x y).filter fun z => Directed least mode (num x / num y) (num z)
    toRep mode x := (A.toRep mode x).filter fun n =>
      (mode = .downward → 0 ≤ num x → 0 ≤ n ∧ n ≤ num x) ∧ (mode = .upward → num x ≤ n)
    ofIOU mode a := (A.ofIOU mode a).filter fun x => num x = iou a
    toIOU mode x := (A.toIOU mode x).filter fun a =>
      (mode = .upward → least ≤ num x) → Directed least mode (num x) (iou a) }

section Respecting

variable {A : Arithmetic N I} {R : Set ℚ} {num : N → ℚ} {iou : I → ℚ}

private theorem eq_of_filter {α : Type} {p : α → Bool} {o : Option α} {x : α}
    (h : o.filter p = some x) : o = some x :=
  (Option.filter_eq_some_iff.mp h).1

theorem Arithmetic.getFee_of_respecting {mode : RoundingMode} {tfee : ℕ} {fee : N}
    (h : (A.respecting num iou).getFee mode tfee = some fee) : A.getFee mode tfee = some fee := by
  simp only [getFee, Option.bind_eq_bind, Option.bind_eq_some_iff] at h ⊢
  obtain ⟨t, ht, s, hs, h⟩ := h
  exact ⟨t, eq_of_filter ht, s, eq_of_filter hs, eq_of_filter h⟩

theorem Arithmetic.respecting_respects (h : A.Values R num iou) :
    (A.respecting num iou).Respects R num iou where
  signum_pos := h.signum_pos
  signum_neg := h.signum_neg
  negIOU := h.negIOU
  signumIOU_pos := h.signumIOU_pos
  zeroIOU := h.zeroIOU
  minPositiveIOU := h.minPositiveIOU
  one_mem := h.one_mem
  ofInt_eq hR hx := h.ofInt_eq hR (eq_of_filter hx)
  getFee_eq htfee hfee := h.getFee_eq htfee (getFee_of_respecting hfee)
  ofInt h := of_decide_eq_true (Option.filter_eq_some_iff.mp h).2
  add h := of_decide_eq_true (Option.filter_eq_some_iff.mp h).2
  sub h := of_decide_eq_true (Option.filter_eq_some_iff.mp h).2
  mul h := of_decide_eq_true (Option.filter_eq_some_iff.mp h).2
  div h := of_decide_eq_true (Option.filter_eq_some_iff.mp h).2
  toRep h := of_decide_eq_true (Option.filter_eq_some_iff.mp h).2
  ofIOU h := of_decide_eq_true (Option.filter_eq_some_iff.mp h).2
  toIOU h := of_decide_eq_true (Option.filter_eq_some_iff.mp h).2

end Respecting

/-! ### The types of amounts -/

/-- An amount type that rounds in the pool's favour. A difference that is `Kept` becomes the number it
is, and a price that is `Payable` is not lost. -/
structure AmountType.Faithful {N T : Type} (type : AmountType N T) (num : N → ℚ) (val : T → ℚ)
    (Kept Payable : ℚ → Prop) : Prop where
  toNumber_downward : ∀ {a x}, type.toNumber .downward a = some x →
    num x ≤ val a ∧ (0 ≤ val a → 0 ≤ num x)
  toNumber_upward : ∀ {a x}, type.toNumber .upward a = some x → val a ≤ num x
  sub : ∀ {a b d}, type.sub .downward a b = some d → 0 < val a - val b → Kept (val a - val b) →
    0 < val d ∧ val d ≤ val a - val b ∧ ∀ {x}, type.toNumber .upward d = some x → num x = val d
  signum_pos : ∀ a, 0 < type.signum a ↔ 0 < val a
  toAmount_downward : ∀ {x a}, type.toAmount .downward .downward x = some a → 0 ≤ num x →
    0 ≤ val a ∧ val a ≤ num x
  toAmount_upward : ∀ {x a}, type.toAmount .upward .upward x = some a → Payable (num x) →
    num x ≤ val a
  zero : val type.zero = 0
  payable_mono : ∀ {p q}, p ≤ q → Payable p → Payable q

/-- The types of the amounts of a pool. -/
inductive Leg
  | xrp
  | mpt
  | iou

namespace Leg

def Amount (I : Type) : Leg → Type
  | xrp => ℤ
  | mpt => ℤ
  | iou => I

variable {N I : Type} [DecidableEq I]

def type (A : Arithmetic N I) : (leg : Leg) → AmountType N (leg.Amount I)
  | xrp => A.xrpAmount
  | mpt => A.mptAmount
  | iou => A.iouAmount

/-- The amount itself, in drops for XRP. -/
def value (iouValue : I → ℚ) : (leg : Leg) → leg.Amount I → ℚ
  | xrp => fun n : ℤ => n
  | mpt => fun n : ℤ => n
  | iou => iouValue

/-- A difference that is not rounded up on the way to a divisor: `Number` holds it, or it is an IOU
amount that is not too small. -/
def Kept (R : Set ℚ) (least : ℚ) : Leg → ℚ → Prop
  | xrp, d => d ∈ R
  | mpt, d => d ∈ R
  | iou, d => least ≤ d

/-- A price that there are amounts for. -/
def Payable (least : ℚ) : Leg → ℚ → Prop
  | iou, p => least ≤ p
  | _, _ => True

variable {A : Arithmetic N I} {R : Set ℚ} {num : N → ℚ} {iouValue : I → ℚ}

omit [DecidableEq I] in
theorem rep_downward (h : A.Respects R num iouValue) {x : N} {n : ℤ}
    (hn : A.toRep .downward x = some n) (hx : 0 ≤ num x) : (0 : ℚ) ≤ n ∧ (n : ℚ) ≤ num x := by
  obtain ⟨hn0, hle⟩ := (h.toRep hn).1 rfl hx
  exact ⟨Int.cast_nonneg hn0, hle⟩

theorem sign_pos_iff (a : ℤ) : 0 < Int.sign a ↔ (0 : ℚ) < a := by
  rw [Int.cast_pos]
  exact Int.sign_pos_iff

omit [DecidableEq I] in
theorem int_faithful (h : A.Respects R num iouValue) {type : AmountType N ℤ}
    (hnumber : type.toNumber = A.ofInt) (hsub : ∀ a b, type.sub .downward a b = some (a - b))
    (hsignum : type.signum = Int.sign)
    (hdown : type.toAmount .downward .downward = A.toRep .downward)
    (hup : type.toAmount .upward .upward = A.toRep .upward) (hzero : type.zero = 0) :
    type.Faithful num (fun n : ℤ => (n : ℚ)) (· ∈ R) fun _ => True := by
  refine
    { toNumber_downward := fun hx => ?_
      toNumber_upward := fun hx => ?_
      sub := fun hd hpos hkept => ?_
      signum_pos := fun a => ?_
      toAmount_downward := fun hn => ?_
      toAmount_upward := fun hn _ => ?_
      zero := by rw [hzero, Int.cast_zero]
      payable_mono := fun _ hp => hp }
  · rw [hnumber] at hx
    exact ⟨(h.ofInt hx).le, (h.ofInt hx).nonneg⟩
  · rw [hnumber] at hx
    exact (h.ofInt hx).ge
  · rw [hsub] at hd
    obtain rfl := Option.some.inj hd
    rw [← Int.cast_sub] at hpos hkept ⊢
    refine ⟨hpos, le_rfl, fun hx => ?_⟩
    rw [hnumber] at hx
    exact h.ofInt_eq hkept hx
  · rw [hsignum]
    exact sign_pos_iff a
  · rw [hdown] at hn
    exact rep_downward h hn
  · rw [hup] at hn
    exact (h.toRep hn).2 rfl

theorem subIOU_faithful (h : A.Respects R num iouValue) {a b d : I}
    (hd : A.subIOU .downward a b = some d) (hpos : 0 < iouValue a - iouValue b)
    (hkept : iouValue A.minPositiveIOU ≤ iouValue a - iouValue b) :
    0 < iouValue d ∧ iouValue d ≤ iouValue a - iouValue b := by
  rw [Arithmetic.subIOU] at hd
  split_ifs at hd with hb ha
  · obtain rfl := Option.some.inj hd
    rw [hb, h.zeroIOU, sub_zero] at hpos ⊢
    exact ⟨hpos, le_rfl⟩
  · obtain rfl := Option.some.inj hd
    rw [h.negIOU]
    rw [ha, h.zeroIOU, zero_sub] at hpos ⊢
    exact ⟨hpos, le_rfl⟩
  · simp only [Option.bind_eq_bind, Option.bind_eq_some_iff] at hd
    obtain ⟨x, hx, y, hy, z, hz, hd⟩ := hd
    have hsum := h.add hz
    rw [h.ofIOU hx, h.ofIOU hy, h.negIOU, ← sub_eq_add_neg] at hsum
    -- neither the sum nor the amount is rounded below the least amount
    have hround := h.toIOU hd nofun
    exact ⟨h.minPositiveIOU.1.trans_le (hround.least_le (hsum.least_le hkept)),
      hround.le.trans hsum.le⟩

theorem faithful (h : A.Respects R num iouValue) (leg : Leg) :
    (leg.type A).Faithful num (leg.value iouValue) (leg.Kept R (iouValue A.minPositiveIOU))
      (leg.Payable (iouValue A.minPositiveIOU)) := by
  cases leg with
  | xrp => exact int_faithful h rfl (fun _ _ => rfl) rfl rfl rfl rfl
  | mpt => exact int_faithful h rfl (fun _ _ => rfl) rfl rfl rfl rfl
  | iou =>
    refine
      { toNumber_downward := fun hx => ⟨(h.ofIOU hx).le, fun ha => ha.trans_eq (h.ofIOU hx).symm⟩
        toNumber_upward := fun hx => (h.ofIOU hx).ge
        sub := fun hd hpos hkept => ?_
        signum_pos := h.signumIOU_pos
        toAmount_downward := fun hn hx => ?_
        toAmount_upward := fun hn hp => (h.toIOU hn fun _ => hp).ge
        zero := h.zeroIOU
        payable_mono := fun hle hp => le_trans hp hle }
    · obtain ⟨hd0, hle⟩ := subIOU_faithful h hd hpos hkept
      exact ⟨hd0, hle, fun hx => h.ofIOU hx⟩
    · have hround := h.toIOU hn nofun
      exact ⟨hround.nonneg hx, hround.le⟩

end Leg

section Swaps

variable {N I TIn TOut : Type} {A : Arithmetic N I} {R : Set ℚ} {num : N → ℚ} {iou : I → ℚ}

/-! ### The fee -/

/-- The trading fee as a fraction. -/
def feeOf (tfee : ℕ) : ℚ := tfee / 100000

theorem feeOf_nonneg (tfee : ℕ) : 0 ≤ feeOf tfee := div_nonneg (Nat.cast_nonneg _) (by norm_num)

theorem feeOf_lt_one {tfee : ℕ} (htfee : tfee < 100000) : feeOf tfee < 1 := by
  rw [feeOf, div_lt_one (by norm_num)]
  exact_mod_cast htfee

/-- What is left of an amount when the fee is taken: no more than exactly, and something. -/
theorem rest_bounds (h : A.Respects R num iou) {tfee : ℕ} (htfee : tfee < 100000) {fee one rest : N}
    (hfee : A.getFee .upward tfee = some fee) (hone : A.ofInt .downward 1 = some one)
    (hrest : A.sub .downward one fee = some rest) : 0 < num rest ∧ num rest ≤ 1 - feeOf tfee := by
  have hone' : num one = 1 :=
    (h.ofInt_eq (by rw [Int.cast_one]; exact h.one_mem) hone).trans Int.cast_one
  have hsub := h.sub hrest
  rw [hone', h.getFee_eq htfee hfee] at hsub
  have hle : (tfee : ℚ) ≤ 99999 := by exact_mod_cast Nat.le_of_lt_succ htfee
  have hleast : iou A.minPositiveIOU ≤ 1 - (tfee : ℚ) / 100000 := by
    have := h.minPositiveIOU.2
    linarith
  exact ⟨h.minPositiveIOU.1.trans_le (hsub.least_le hleast), hsub.le⟩

/-! ### The two swaps -/

variable {inType : AmountType N TIn} {outType : AmountType N TOut} {valIn : TIn → ℚ}
  {valOut : TOut → ℚ} {KeptIn PayableIn KeptOut PayableOut : ℚ → Prop} {getround : RoundingMode}
  {pool : TAmounts TIn TOut} {tfee : ℕ}

/-- A pool of `P` and `Q` takes `a` and gives `o`. -/
def KeepsProduct (P Q a o : ℚ) : Prop := P * Q ≤ (P + a) * (Q - o)

/-- **`swapAssetIn` does not shrink the pool.** -/
theorem swapAssetIn_keeps (h : A.Respects R num iou)
    (hin : inType.Faithful num valIn KeptIn PayableIn)
    (hout : outType.Faithful num valOut KeptOut PayableOut) (hP : 0 < valIn pool.amountIn)
    (hQ : 0 < valOut pool.amountOut) (htfee : tfee < 100000) {assetIn : TIn} {o : TOut}
    (ha : 0 ≤ valIn assetIn)
    (ho : A.swapAssetIn inType outType true getround pool assetIn tfee = some o) :
    0 ≤ valOut o ∧ valOut o < valOut pool.amountOut ∧
      KeepsProduct (valIn pool.amountIn) (valOut pool.amountOut) (valIn assetIn) (valOut o) := by
  simp only [Arithmetic.swapAssetIn, if_true, Option.bind_eq_bind, Option.bind_eq_some_iff] at ho
  obtain ⟨P', hP', Q', hQ', numerator, hnumerator, fee, hfee, one, hone, rest, hrest, P'', hP'',
    a', ha', paid, hpaid, denom, hdenom, ho⟩ := ho
  -- giving nothing keeps the product
  have hnothing : KeepsProduct (valIn pool.amountIn) (valOut pool.amountOut) (valIn assetIn) 0 := by
    rw [KeepsProduct, sub_zero]
    exact mul_le_mul_of_nonneg_right (le_add_of_nonneg_right ha) hQ.le
  have hclip : 0 ≤ valOut outType.zero ∧ valOut outType.zero < valOut pool.amountOut ∧
      KeepsProduct (valIn pool.amountIn) (valOut pool.amountOut) (valIn assetIn)
        (valOut outType.zero) := by
    rw [hout.zero]
    exact ⟨le_rfl, hQ, hnothing⟩
  split_ifs at ho with hsign
  · obtain rfl := Option.some.inj ho
    exact hclip
  have hdenom0 : 0 < num denom := (h.signum_pos denom).mp (not_le.mp hsign)
  simp only [Option.bind_eq_some_iff] at ho
  obtain ⟨ratio, hratio, Q'', hQ'', swapOut, hswapOut, ho⟩ := ho
  split_ifs at ho with hneg
  · obtain rfl := Option.some.inj ho
    exact hclip
  have hswapOut0 : 0 ≤ num swapOut := not_lt.mp fun hlt => hneg ((h.signum_neg swapOut).mpr hlt)
  -- the numerator is rounded up
  have hnum : valIn pool.amountIn * valOut pool.amountOut ≤ num numerator :=
    (mul_le_mul (hin.toNumber_upward hP') (hout.toNumber_upward hQ') hQ.le
      (hP.le.trans (hin.toNumber_upward hP'))).trans (h.mul hnumerator).ge
  -- and the denominator down
  have hden : num denom ≤ valIn pool.amountIn + valIn assetIn := by
    obtain ⟨hrest0, hrest1⟩ := rest_bounds h htfee hfee hone hrest
    have hpaid' : num paid ≤ valIn assetIn := calc
      num paid ≤ num a' * num rest := (h.mul hpaid).le
      _ ≤ valIn assetIn * num rest :=
        mul_le_mul_of_nonneg_right (hin.toNumber_downward ha').1 hrest0.le
      _ ≤ valIn assetIn :=
        mul_le_of_le_one_right ha (hrest1.trans (sub_le_self _ (feeOf_nonneg tfee)))
    exact (h.add hdenom).le.trans (add_le_add (hin.toNumber_downward hP'').1 hpaid')
  have hratio0 : 0 < num ratio :=
    (div_pos ((mul_pos hP hQ).trans_le hnum) hdenom0).trans_le (h.div hratio).ge
  have hswap : num swapOut ≤ valOut pool.amountOut - num ratio :=
    (h.sub hswapOut).le.trans (sub_le_sub_right (hout.toNumber_downward hQ'').1 _)
  obtain ⟨ho0, hole⟩ := hout.toAmount_downward ho hswapOut0
  refine ⟨ho0, by linarith, ?_⟩
  rw [KeepsProduct]
  calc valIn pool.amountIn * valOut pool.amountOut
      ≤ num numerator / num denom * num denom := by rwa [div_mul_cancel₀ _ hdenom0.ne']
    _ ≤ num ratio * num denom := mul_le_mul_of_nonneg_right (h.div hratio).ge hdenom0.le
    _ ≤ num ratio * (valIn pool.amountIn + valIn assetIn) :=
        mul_le_mul_of_nonneg_left hden hratio0.le
    _ ≤ (valIn pool.amountIn + valIn assetIn) * (valOut pool.amountOut - valOut o) := by
        rw [mul_comm]
        exact mul_le_mul_of_nonneg_left (by linarith) (by linarith)

/-- What has to be paid for `out`, fee included. -/
def price (P Q out : ℚ) (tfee : ℕ) : ℚ := P * out / (Q - out) / (1 - feeOf tfee)

/-- **`swapAssetOut` does not shrink the pool**, if the difference is kept and the price payable. -/
theorem swapAssetOut_keeps (h : A.Respects R num iou)
    (hin : inType.Faithful num valIn KeptIn PayableIn)
    (hout : outType.Faithful num valOut KeptOut PayableOut) (hP : 0 < valIn pool.amountIn)
    (hQ : 0 < valOut pool.amountOut) (htfee : tfee < 100000) {assetOut : TOut} {i : TIn}
    (ha : 0 < valOut assetOut) (haQ : valOut assetOut < valOut pool.amountOut)
    (hkept : KeptOut (valOut pool.amountOut - valOut assetOut))
    (hpayable : PayableIn
      (price (valIn pool.amountIn) (valOut pool.amountOut) (valOut assetOut) tfee))
    (hi : A.swapAssetOut inType outType true getround pool assetOut tfee = some i) :
    KeepsProduct (valIn pool.amountIn) (valOut pool.amountOut) (valIn i) (valOut assetOut) := by
  simp only [Arithmetic.swapAssetOut, if_true, Option.bind_eq_bind, Option.bind_eq_some_iff] at hi
  obtain ⟨P', hP', Q', hQ', numerator, hnumerator, denom, hdenom, hi⟩ := hi
  have hdiff : 0 < valOut pool.amountOut - valOut assetOut := sub_pos.mpr haQ
  obtain ⟨hdenom0, hdenomle, hexactly⟩ := hout.sub hdenom hdiff hkept
  rw [if_neg (not_le.mpr ((hout.signum_pos denom).mpr hdenom0))] at hi
  simp only [Option.bind_eq_some_iff] at hi
  obtain ⟨D, hD, ratio, hratio, P'', hP'', numerator2, hnumerator2, fee, hfee, one, hone, rest,
    hrest, swapIn, hswapIn, hi⟩ := hi
  -- the pool's balance is converted twice, the same way
  obtain rfl : P' = P'' := Option.some.inj (hP'.symm.trans hP'')
  have hPP : valIn pool.amountIn ≤ num P' := (hin.toNumber_upward hP')
  have hD' : num D = valOut denom := hexactly hD
  have hnum : num P' * valOut pool.amountOut ≤ num numerator :=
    (mul_le_mul_of_nonneg_left (hout.toNumber_upward hQ') (hP.le.trans hPP)).trans
      (h.mul hnumerator).ge
  have hratio' : num P' * valOut pool.amountOut /
      (valOut pool.amountOut - valOut assetOut) ≤ num ratio := calc
    num P' * valOut pool.amountOut / (valOut pool.amountOut - valOut assetOut)
      ≤ num numerator / valOut denom :=
        div_le_div₀ ((mul_nonneg (hP.le.trans hPP) hQ.le).trans hnum) hnum hdenom0 hdenomle
    _ ≤ num ratio := by
        rw [← hD']
        exact (h.div hratio).ge
  have hfeeRest : 0 < 1 - feeOf tfee := sub_pos.mpr (feeOf_lt_one htfee)
  have hnum2 : valIn pool.amountIn * valOut assetOut /
      (valOut pool.amountOut - valOut assetOut) ≤ num numerator2 := calc
    valIn pool.amountIn * valOut assetOut / (valOut pool.amountOut - valOut assetOut)
      ≤ num P' * valOut assetOut / (valOut pool.amountOut - valOut assetOut) :=
        div_le_div_of_nonneg_right (mul_le_mul_of_nonneg_right hPP ha.le) hdiff.le
    _ = num P' * valOut pool.amountOut / (valOut pool.amountOut - valOut assetOut) - num P' := by
        have := hdiff.ne'
        field_simp
        ring
    _ ≤ num ratio - num P' := sub_le_sub_right hratio' _
    _ ≤ num numerator2 := (h.sub hnumerator2).ge
  have hexact : 0 < valIn pool.amountIn * valOut assetOut /
      (valOut pool.amountOut - valOut assetOut) := div_pos (mul_pos hP ha) hdiff
  have hprice : price (valIn pool.amountIn) (valOut pool.amountOut) (valOut assetOut) tfee ≤
      num swapIn := by
    rw [price]
    obtain ⟨hrest0, hrest1⟩ := rest_bounds h htfee hfee hone hrest
    exact (div_le_div₀ (hexact.le.trans hnum2) hnum2 hrest0 hrest1).trans (h.div hswapIn).ge
  have hle : valIn pool.amountIn * valOut assetOut / (valOut pool.amountOut - valOut assetOut) ≤
      price (valIn pool.amountIn) (valOut pool.amountOut) (valOut assetOut) tfee :=
    le_div_self hexact.le hfeeRest (sub_le_self _ (feeOf_nonneg tfee))
  rw [if_neg fun hneg => ((h.signum_neg swapIn).mp hneg).not_ge
    ((hexact.le.trans hle).trans hprice)] at hi
  have hpaid := hin.toAmount_upward hi (hin.payable_mono hprice hpayable)
  have hcost := (div_le_iff₀ hdiff).mp (hle.trans (hprice.trans hpaid))
  rw [KeepsProduct]
  linarith [show (valIn pool.amountIn + valIn i) * (valOut pool.amountOut - valOut assetOut) =
    valIn pool.amountIn * valOut pool.amountOut - valIn pool.amountIn * valOut assetOut +
      valIn i * (valOut pool.amountOut - valOut assetOut) by ring]

theorem le_of_keepsProduct {P Q a o P2 Q2 b : ℚ} (hQ : 0 < Q) (ho : 0 ≤ o)
    (hb : 0 ≤ b) (h : KeepsProduct P Q a o) (h2 : KeepsProduct P2 Q2 o b) (hP2 : Q - o ≤ P2)
    (hQ2 : Q2 ≤ P + a) : b ≤ a := by
  rw [KeepsProduct] at h h2
  have hfirst : o * (P + a) ≤ a * Q := by linarith
  have hsecond : b * (P2 + o) ≤ o * Q2 := by linarith
  refine le_of_mul_le_mul_right ?_ hQ
  calc b * Q ≤ b * (P2 + o) := mul_le_mul_of_nonneg_left (by linarith) hb
    _ ≤ o * Q2 := hsecond
    _ ≤ o * (P + a) := mul_le_mul_of_nonneg_left hQ2 ho
    _ ≤ a * Q := hfirst

end Swaps

/-! ### Every pool -/

section Pools

variable {N I : Type} [DecidableEq I] (A : Arithmetic N I) (num : N → ℚ) (iou : I → ℚ)
  (legIn legOut : Leg)

/-- What a pool of two legs holds. -/
def holds {legIn legOut : Leg} (pool : TAmounts (legIn.Amount I) (legOut.Amount I)) : ℚ × ℚ :=
  (legIn.value iou pool.amountIn, legOut.value iou pool.amountOut)

/-- The operations of a swap in round in the direction of their modes: it comes to the same without
the results that do not. -/
def RespectsIn (getround : RoundingMode) (pool : TAmounts (legIn.Amount I) (legOut.Amount I))
    (assetIn : legIn.Amount I) (tfee : ℕ) : Prop :=
  let B := A.respecting num iou
  B.swapAssetIn (legIn.type B) (legOut.type B) true getround pool assetIn tfee =
    A.swapAssetIn (legIn.type A) (legOut.type A) true getround pool assetIn tfee

/-- The same for a swap out. -/
def RespectsOut (getround : RoundingMode) (pool : TAmounts (legIn.Amount I) (legOut.Amount I))
    (assetOut : legOut.Amount I) (tfee : ℕ) : Prop :=
  let B := A.respecting num iou
  B.swapAssetOut (legIn.type B) (legOut.type B) true getround pool assetOut tfee =
    A.swapAssetOut (legIn.type A) (legOut.type A) true getround pool assetOut tfee

/-- Every swap in whose operations round as they are told keeps the product, and takes no more out
than there is. -/
def SwapsInKeep (getround : RoundingMode) (pool : TAmounts (legIn.Amount I) (legOut.Amount I))
    (tfee : ℕ) : Prop :=
  ∀ assetIn, 0 ≤ legIn.value iou assetIn →
    RespectsIn A num iou legIn legOut getround pool assetIn tfee → ∀ o,
    A.swapAssetIn (legIn.type A) (legOut.type A) true getround pool assetIn tfee = some o →
      0 ≤ legOut.value iou o ∧ legOut.value iou o ≤ (holds iou pool).2 ∧
        KeepsProduct (holds iou pool).1 (holds iou pool).2 (legIn.value iou assetIn)
          (legOut.value iou o)

/-- The swap out of an amount keeps the product. -/
def SwapOutKeeps (getround : RoundingMode) (pool : TAmounts (legIn.Amount I) (legOut.Amount I))
    (assetOut : legOut.Amount I) (tfee : ℕ) : Prop :=
  ∀ i, A.swapAssetOut (legIn.type A) (legOut.type A) true getround pool assetOut tfee = some i →
    KeepsProduct (holds iou pool).1 (holds iou pool).2 (legIn.value iou i)
      (legOut.value iou assetOut)

/-- Swapping back what a swap has given, in a pool that has kept at least what was left and got no
more than was put in, does not give more than was put in. -/
def SwapBackGainsNothing (getround : RoundingMode) (pool : TAmounts (legIn.Amount I) (legOut.Amount I))
    (tfee : ℕ) : Prop :=
  ∀ assetIn, 0 ≤ legIn.value iou assetIn →
    RespectsIn A num iou legIn legOut getround pool assetIn tfee → ∀ o,
    A.swapAssetIn (legIn.type A) (legOut.type A) true getround pool assetIn tfee = some o →
      ∀ pool' : TAmounts (legOut.Amount I) (legIn.Amount I),
        (holds iou pool).2 - legOut.value iou o ≤ (holds iou pool').1 →
        0 < (holds iou pool').2 →
        (holds iou pool').2 ≤ (holds iou pool).1 + legIn.value iou assetIn →
        RespectsIn A num iou legOut legIn getround pool' o tfee → ∀ back,
        A.swapAssetIn (legOut.type A) (legIn.type A) true getround pool' o tfee = some back →
          legIn.value iou back ≤ legIn.value iou assetIn

variable {A num iou} {R : Set ℚ}

end Pools

/-! ### The numbers of the ledger -/

/-- The integers of no more digits than a mantissa is sure to have. -/
def wholeNumbers (scale : MantissaScale) : Set ℚ := {q | ∃ n : ℤ, q = n ∧ n.natAbs ≤ scale.min}

/-- The value of a number. The power of ten of zero, whose exponent is far out, is not computed. -/
def valueOf (x : Number) : ℚ := if x.mantissa = 0 then 0 else x.toRat

theorem valueOf_eq (x : Number) : valueOf x = x.toRat := by
  rw [valueOf]
  by_cases hzero : x.mantissa = 0
  · rw [if_pos hzero, Number.toRat, hzero, Nat.cast_zero, mul_zero, zero_mul]
  · rw [if_neg hzero]

theorem valueOf_pos_iff (x : Number) : 0 < valueOf x ↔ x.mantissa ≠ 0 ∧ x.negative = false := by
  have hpow : (0 : ℚ) < 10 ^ x.exponent := zpow_pos (by norm_num) _
  rw [valueOf_eq, Number.toRat, mul_pos_iff_of_pos_right hpow]
  cases x.negative <;> simp [Nat.pos_iff_ne_zero]

theorem valueOf_neg_iff (x : Number) : valueOf x < 0 ↔ x.mantissa ≠ 0 ∧ x.negative = true := by
  have hpow : (0 : ℚ) < 10 ^ x.exponent := zpow_pos (by norm_num) _
  rw [valueOf_eq, Number.toRat, ← not_le, ← zero_mul ((10 : ℚ) ^ x.exponent),
    mul_le_mul_iff_left₀ hpow, not_le]
  cases x.negative <;> simp [Nat.pos_iff_ne_zero]

theorem ofInt_eq {scale : MantissaScale} {mode : RoundingMode} {n : ℤ} {x : Number}
    (hn : n.natAbs ≤ scale.min) (hx : (numbers scale).ofInt mode n = some x) :
    Number.Fits scale 0 n x := by
  obtain ⟨z, hz, hfits⟩ := @Number.ofInt_fits ⟨mode, scale⟩ n hn
  obtain rfl := Option.some.inj (hz.symm.trans hx)
  exact hfits

theorem getFee_eq {scale : MantissaScale} {tfee : ℕ} {fee : Number} (htfee : tfee < 100000)
    (hfee : (numbers scale).getFee .upward tfee = some fee) : valueOf fee = tfee / 100000 := by
  simp only [Arithmetic.getFee, Option.bind_eq_bind, Option.bind_eq_some_iff] at hfee
  obtain ⟨t, ht, s, hs, hfee⟩ := hfee
  have hscale : 100000 ≤ scale.min := by cases scale <;> decide
  have hle : (tfee : ℤ).natAbs ≤ scale.min := by omega
  obtain ⟨z, hz, hfits⟩ := @Number.div_fits ⟨.upward, scale⟩ _ _ _ _ _ _ (-5) tfee (ofInt_eq hle ht)
    (ofInt_eq (show (100000 : ℤ).natAbs ≤ scale.min from hscale) hs) (by norm_num)
    (by norm_num; ring) hle (by cases scale <;> decide)
  obtain rfl := Option.some.inj (hz.symm.trans hfee)
  rw [valueOf_eq, hfits.value, Int.cast_natCast]
  norm_num
  ring

/-- The code's own numbers, whatever the scale. -/
theorem numbers_values (scale : MantissaScale) :
    (numbers scale).Values (wholeNumbers scale) valueOf IOUAmount.value where
  signum_pos x := by
    rw [valueOf_pos_iff]
    change 0 < (if x.mantissa = 0 then (0 : ℤ) else if x.negative then -1 else 1) ↔ _
    split_ifs with hzero hneg <;> simp [*]
  signum_neg x := by
    rw [valueOf_neg_iff]
    change (if x.mantissa = 0 then (0 : ℤ) else if x.negative then -1 else 1) < 0 ↔ _
    split_ifs with hzero hneg <;> simp [*]
  negIOU a := by
    change ((-a.mantissa : ℤ) : ℚ) * 10 ^ a.exponent = -(a.mantissa * 10 ^ a.exponent)
    rw [Int.cast_neg, neg_mul]
  signumIOU_pos a := by
    change 0 < a.mantissa.sign ↔ 0 < (a.mantissa : ℚ) * 10 ^ a.exponent
    rw [Int.sign_pos_iff, mul_pos_iff_of_pos_right (zpow_pos (by norm_num) _), Int.cast_pos]
  zeroIOU := by norm_num [numbers, IOUAmount.value, IOUAmount.zero]
  minPositiveIOU := by
    norm_num [numbers, IOUAmount.value, IOUAmount.minPositiveAmount, Wire.STAmount.kMinValue,
      Wire.STAmount.kMinOffset]
  one_mem := ⟨1, Int.cast_one.symm, by cases scale <;> decide⟩
  ofInt_eq := by
    rintro mode x n ⟨m, hm, hle⟩ hx
    obtain rfl := Int.cast_injective hm
    rw [valueOf_eq, (ofInt_eq hle hx).value, zpow_zero, mul_one]
  getFee_eq := getFee_eq

end FalconLedger.AMM
