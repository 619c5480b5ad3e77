import FalconLedger.Lending.Payments
import FalconLedger.Properties.NumberOrder

/-!
# What a payment reduces

The values of a loan are multiples of one unit, and here every value is that multiple. The parts of
a payment are what is missing to the target, cut to what is outstanding and to what is left of the
payment; the principal is cut to what is outstanding only.
-/

namespace FalconLedger

namespace LoanPayment

open Number

variable {env : NumberEnv} {u : ℤ}

/-! ### Comparisons of multiples of a unit -/

section Order

variable {x y z : Number} {a b c : ℤ}

theorem not_negative (hx : Fits .large u a x) (ha : 0 ≤ a) : x.negative = false := by
  rcases hx.normal with rfl | hnormal
  · rfl
  · by_contra hneg
    have hmin : (0 : ℚ) < x.mantissa := by
      exact_mod_cast (min_pos MantissaScale.large).trans_le hnormal.1
    have hten : (0 : ℚ) < 10 ^ x.exponent := zpow_pos (by norm_num) _
    have hvalue := hx.value
    rw [toRat, if_pos (Bool.eq_true_of_not_eq_false hneg)] at hvalue
    have hnonneg : (0 : ℚ) ≤ a * 10 ^ u :=
      mul_nonneg (by exact_mod_cast ha) (zpow_nonneg (by norm_num) u)
    nlinarith [mul_pos hmin hten]

theorem lt_fits (hx : Fits .large u a x) (hy : Fits .large u b y) (h : 0 ≤ a ∨ 0 ≤ b) :
    Number.lt x y = decide (a < b) := by
  have hten : (0 : ℚ) < 10 ^ u := zpow_pos (by norm_num) u
  have hdecide : ¬MantissasDecide x y := by
    rintro ⟨hneg, hneg', -⟩
    rcases h with ha | hb
    · rw [not_negative hx ha] at hneg
      cases hneg
    · rw [not_negative hy hb] at hneg'
      cases hneg'
  rw [Bool.eq_iff_iff, decide_eq_true_eq, lt_iff_toRat_lt hx.normal hy.normal hdecide, hx.value,
    hy.value, mul_lt_mul_iff_left₀ hten, Int.cast_lt]

theorem min_fits (hx : Fits .large u a x) (hy : Fits .large u b y) (h : 0 ≤ a ∨ 0 ≤ b) :
    Fits .large u (min a b) (minNumber x y) := by
  rw [minNumber, lt_fits hy hx h.symm]
  split_ifs with hlt
  · rw [min_eq_right (of_decide_eq_true hlt).le]
    exact hy
  · rw [min_eq_left (not_lt.mp fun h => hlt (decide_eq_true h))]
    exact hx

theorem max_fits (hx : Fits .large u a x) (hy : Fits .large u b y) (h : 0 ≤ a ∨ 0 ≤ b) :
    Fits .large u (max a b) (maxNumber x y) := by
  rw [maxNumber, lt_fits hx hy h]
  split_ifs with hlt
  · rw [max_eq_right (of_decide_eq_true hlt).le]
    exact hy
  · rw [max_eq_left (not_lt.mp fun h => hlt (decide_eq_true h))]
    exact hx

theorem nonneg_fits (hx : Fits .large u a x) :
    Fits .large u (max 0 a) (if Number.lt x 0 then 0 else x) := by
  have hlt : Number.lt x 0 = decide (a < 0) := hx.lt_zero
  rw [hlt]
  split_ifs with hneg
  · rw [max_eq_left (of_decide_eq_true hneg).le]
    exact fits_zero _ _
  · rw [max_eq_right (not_lt.mp fun h => hneg (decide_eq_true h))]
    exact hx

theorem clamp_fits (hx : Fits .large u a x) (hy : Fits .large u b y) (hb : 0 ≤ b) :
    Fits .large u (min (max 0 a) b) (clampNumber x 0 y) := by
  have hlt : Number.lt x 0 = decide (a < 0) := hx.lt_zero
  rw [clampNumber, hlt, lt_fits hy hx (.inl hb)]
  split_ifs with hneg hmore
  · rw [max_eq_left (of_decide_eq_true hneg).le, min_eq_left hb]
    exact fits_zero _ _
  · rw [max_eq_right (hb.trans (of_decide_eq_true hmore).le),
      min_eq_right (of_decide_eq_true hmore).le]
    exact hy
  · rw [max_eq_right (not_lt.mp fun h => hneg (decide_eq_true h)),
      min_eq_left (not_lt.mp fun h => hmore (decide_eq_true h))]
    exact hx

theorem sub_fits' (hscale : env.scale = .large) (hu : InRange .large u) (hx : Fits .large u a x)
    (hy : Fits .large u b y) (hle : (a - b).natAbs ≤ 10 ^ 18) :
    ∃ z, Number.sub env x y = some z ∧ Fits .large u (a - b) z := by
  rw [← hscale] at hx hy hu ⊢
  exact sub_fits hx hy (by rw [hscale]; exact hle) hu

theorem add_fits' (hscale : env.scale = .large) (hu : InRange .large u) (hx : Fits .large u a x)
    (hy : Fits .large u b y) (hle : (a + b).natAbs ≤ 10 ^ 18) :
    ∃ z, Number.add env x y = some z ∧ Fits .large u (a + b) z := by
  rw [← hscale] at hx hy hu ⊢
  exact add_fits hx hy (by rw [hscale]; exact hle) hu

end Order

/-! ### The parts in units -/

/-- What a payment of `P` units takes of the principal `C`, given the target `tp`. -/
def principalPart (C tp : ℤ) : ℤ := min (max 0 (C - tp)) C

def interestPart (P I ti dp : ℤ) : ℤ := min (min (max 0 (I - ti)) (max 0 (P - dp))) I

def feePart (P F tf taken : ℤ) : ℤ := min (min (max 0 (F - tf)) (P - taken)) F

/-- A rounded loan and its next payment: the units of the value, the principal and the fee outstanding,
of the rounded payment, and of the rounded target. -/
structure Rounded (env : NumberEnv) (round : Number → RoundingMode → Option Number)
    (theoretical : UInt32 → Option LoanState) (value principal fee periodicPayment payment : Number)
    (target : LoanState) (paymentRemaining : UInt32) (u V C F P tp ti tf : ℤ) : Prop where
  scale : env.scale = .large
  inRange : InRange .large u
  value : Fits .large u V value
  principal : Fits .large u C principal
  fee : Fits .large u F fee
  payment_eq : roundPeriodicPayment round periodicPayment = some payment
  payment : Fits .large u P payment
  target_eq : (theoretical (paymentRemaining - 1)).bind (roundedTarget env round) = some target
  targetPrincipal : Fits .large u tp target.principalOutstanding
  targetInterest : Fits .large u ti target.interestDue
  targetFee : Fits .large u tf target.managementFeeDue
  principal_nonneg : 0 ≤ C
  fee_nonneg : 0 ≤ F
  sum_le : C + F ≤ V
  value_le : V ≤ 10 ^ 17
  payment_le : |P| ≤ 10 ^ 17
  target_le : |tp| ≤ 10 ^ 17 ∧ |ti| ≤ 10 ^ 17 ∧ |tf| ≤ 10 ^ 17

section Parts

variable {round : Number → RoundingMode → Option Number} {theoretical : UInt32 → Option LoanState}
  {value principal fee periodicPayment payment : Number} {target current : LoanState}
  {deltas : LoanStateDeltas} {paymentRemaining : UInt32} {V C F P tp ti tf I : ℤ}

theorem ofStates_fits (hscale : env.scale = .large) (hu : InRange .large u)
    (hC : Fits .large u C current.principalOutstanding) (hI : Fits .large u I current.interestDue)
    (hF : Fits .large u F current.managementFeeDue)
    (htp : Fits .large u tp target.principalOutstanding) (hti : Fits .large u ti target.interestDue)
    (htf : Fits .large u tf target.managementFeeDue)
    (hle : (C - tp).natAbs ≤ 10 ^ 18 ∧ (I - ti).natAbs ≤ 10 ^ 18 ∧ (F - tf).natAbs ≤ 10 ^ 18) :
    ∃ d, LoanStateDeltas.ofStates env current target = some d ∧
      Fits .large u (C - tp) d.principal ∧ Fits .large u (I - ti) d.interest ∧
      Fits .large u (F - tf) d.managementFee := by
  obtain ⟨x, hx, hxFit⟩ := sub_fits' hscale hu hC htp hle.1
  obtain ⟨y, hy, hyFit⟩ := sub_fits' hscale hu hI hti hle.2.1
  obtain ⟨z, hz, hzFit⟩ := sub_fits' hscale hu hF htf hle.2.2
  refine ⟨⟨x, y, z⟩, ?_, hxFit, hyFit, hzFit⟩
  simp only [LoanStateDeltas.ofStates, hx, hy, hz, Option.bind_eq_bind, Option.bind_some, Option.pure_def]

theorem interestPart_bounds {dp : ℤ} (hI : 0 ≤ I) :
    0 ≤ interestPart P I ti dp ∧ interestPart P I ti dp ≤ I ∧
      interestPart P I ti dp ≤ max 0 (P - dp) := by
  rw [interestPart]
  omega

theorem feePart_bounds {used : ℤ} (hF : 0 ≤ F) :
    feePart P F tf used ≤ F ∧ feePart P F tf used ≤ P - used ∧
      (0 ≤ feePart P F tf used ∨ feePart P F tf used = P - used) := by
  rw [feePart]
  omega

theorem principalPart_bounds (hC : 0 ≤ C) : 0 ≤ principalPart C tp ∧ principalPart C tp ≤ C := by
  rw [principalPart]
  omega

theorem capped_fits (hscale : env.scale = .large) (hu : InRange .large u)
    (hC : Fits .large u C current.principalOutstanding) (hI : Fits .large u I current.interestDue)
    (hF : Fits .large u F current.managementFeeDue) (hP : Fits .large u P payment)
    (hdp : Fits .large u (max 0 (C - tp)) deltas.principal)
    (hdi : Fits .large u (max 0 (I - ti)) deltas.interest)
    (hdf : Fits .large u (max 0 (F - tf)) deltas.managementFee)
    (hC0 : 0 ≤ C) (hI0 : 0 ≤ I) (hF0 : 0 ≤ F) (hCle : C ≤ 10 ^ 17) (hIle : I ≤ 10 ^ 17)
    (hPle : |P| ≤ 10 ^ 17) :
    ∃ d, capped env deltas current payment = some d ∧
      Fits .large u (principalPart C tp) d.principal ∧
      Fits .large u (interestPart P I ti (principalPart C tp)) d.interest ∧
      Fits .large u (feePart P F tf
        (principalPart C tp + interestPart P I ti (principalPart C tp))) d.managementFee := by
  have hPle := abs_le.mp hPle
  obtain ⟨hdp0, hdpC⟩ := @principalPart_bounds _ tp hC0
  obtain ⟨hdi0, hdiI, -⟩ := @interestPart_bounds P ti _ (principalPart C tp) hI0
  have hprincipal : Fits .large u (principalPart C tp)
      (minNumber deltas.principal current.principalOutstanding) :=
    min_fits hdp hC (.inr hC0)
  obtain ⟨left, hleft, hleftFit⟩ := sub_fits' hscale hu hP hprincipal (by omega)
  have hinterest : Fits .large u (interestPart P I ti (principalPart C tp))
      (minOfThree deltas.interest (maxNumber 0 left) current.interestDue) :=
    min_fits (min_fits hdi (max_fits (fits_zero _ _) hleftFit (.inl le_rfl))
      (.inl (le_max_left _ _))) hI (.inr hI0)
  obtain ⟨taken, htaken, htakenFit⟩ := add_fits' hscale hu hprincipal hinterest (by omega)
  obtain ⟨rest, hrest, hrestFit⟩ := sub_fits' hscale hu hP htakenFit (by omega)
  refine ⟨⟨minNumber deltas.principal current.principalOutstanding,
    minOfThree deltas.interest (maxNumber 0 left) current.interestDue,
    minOfThree deltas.managementFee rest current.managementFeeDue⟩, ?_, hprincipal, hinterest,
    min_fits (min_fits hdf hrestFit (.inl (le_max_left _ _))) hF (.inr hF0)⟩
  simp only [capped, hleft, htaken, hrest, Option.bind_eq_bind, Option.bind_some, Option.pure_def]

theorem total_fits {dp di df : ℤ} (hscale : env.scale = .large) (hu : InRange .large u)
    (hdp : Fits .large u dp deltas.principal) (hdi : Fits .large u di deltas.interest)
    (hdf : Fits .large u df deltas.managementFee) (hle : (dp + di).natAbs ≤ 10 ^ 18)
    (hle' : (dp + di + df).natAbs ≤ 10 ^ 18) :
    ∃ t, deltas.total env = some t ∧ Fits .large u (dp + di + df) t := by
  obtain ⟨x, hx, hxFit⟩ := add_fits' hscale hu hdp hdi hle
  obtain ⟨t, ht, htFit⟩ := add_fits' hscale hu hxFit hdf hle'
  refine ⟨t, ?_, htFit⟩
  simp only [LoanStateDeltas.total, hx, ht, Option.bind_eq_bind, Option.bind_some]

theorem constructLoanState_fits (hscale : env.scale = .large) (hu : InRange .large u)
    (hV : Fits .large u V value) (hC : Fits .large u C principal) (hF : Fits .large u F fee)
    (hC0 : 0 ≤ C) (hF0 : 0 ≤ F) (hsum : C + F ≤ V) (hVle : V ≤ 10 ^ 17) :
    ∃ current, constructLoanState env value principal fee = some current ∧
      current.valueOutstanding = value ∧ current.principalOutstanding = principal ∧
      current.managementFeeDue = fee ∧ Fits .large u (V - C - F) current.interestDue := by
  obtain ⟨x, hx, hxFit⟩ := sub_fits' hscale hu hV hC (by omega)
  obtain ⟨i, hi, hiFit⟩ := sub_fits' hscale hu hxFit hF (by omega)
  refine ⟨⟨value, principal, i, fee⟩, ?_, rfl, rfl, rfl, hiFit⟩
  simp only [constructLoanState, hx, hi, Option.bind_eq_bind, Option.bind_some, Option.pure_def]

variable {dp di df : ℤ}

theorem parts_le (hdp : dp = principalPart C tp) (hdi : di = interestPart P (V - C - F) ti dp)
    (hdf : df = feePart P F tf (dp + di)) (hC : 0 ≤ C) (hF : 0 ≤ F) (hsum : C + F ≤ V) :
    (0 ≤ dp ∧ dp ≤ C) ∧ (0 ≤ di ∧ di ≤ V - C - F) ∧ (df ≤ F ∧ dp + di + df ≤ P) ∧
      (0 ≤ df ∨ P < dp ∧ di = 0 ∧ df = P - dp) := by
  have hprincipal : 0 ≤ dp ∧ dp ≤ C := hdp ▸ principalPart_bounds hC
  have hinterest : 0 ≤ di ∧ di ≤ V - C - F ∧ di ≤ max 0 (P - dp) :=
    hdi ▸ interestPart_bounds (by omega)
  have hfee : df ≤ F ∧ df ≤ P - (dp + di) ∧ (0 ≤ df ∨ df = P - (dp + di)) := hdf ▸ feePart_bounds hF
  omega

/-- The components of a payment that is not the last one. -/
theorem components_fits (h : Rounded env round theoretical value principal fee periodicPayment payment
    target paymentRemaining u V C F P tp ti tf) (hremaining : paymentRemaining ≠ 1) (hlt : P < V)
    (hdp : dp = principalPart C tp) (hdi : di = interestPart P (V - C - F) ti dp)
    (hdf : df = feePart P F tf (dp + di)) :
    ∃ r, computePaymentComponents env round theoretical value principal fee periodicPayment
        paymentRemaining = some r ∧ r.specialCase = .none ∧
      Fits .large u (min (max 0 (dp + di + df)) V) r.trackedValueDelta ∧
      Fits .large u (min (max 0 dp) C) r.trackedPrincipalDelta ∧
      Fits .large u (min (max 0 df) F) r.trackedManagementFeeDelta := by
  obtain ⟨hscale, hu⟩ := And.intro h.scale h.inRange
  have hC0 := h.principal_nonneg
  have hF0 := h.fee_nonneg
  have hsum := h.sum_le
  have hVle := h.value_le
  have hPle := abs_le.mp h.payment_le
  have htp := abs_le.mp h.target_le.1
  have hti := abs_le.mp h.target_le.2.1
  have htf := abs_le.mp h.target_le.2.2
  have hparts := parts_le hdp hdi hdf hC0 hF0 hsum
  obtain ⟨current, hcurrent, hvalue, hprincipal, hfee, hinterest⟩ :=
    constructLoanState_fits hscale hu h.value h.principal h.fee hC0 hF0 hsum hVle
  have hCFit : Fits .large u C current.principalOutstanding := by
    rw [hprincipal]
    exact h.principal
  have hFFit : Fits .large u F current.managementFeeDue := by
    rw [hfee]
    exact h.fee
  have hVFit : Fits .large u V current.valueOutstanding := by
    rw [hvalue]
    exact h.value
  obtain ⟨missing, hmissing, hmC, hmI, hmF⟩ := ofStates_fits hscale hu hCFit hinterest hFFit
    h.targetPrincipal h.targetInterest h.targetFee (by omega)
  -- the caps, in the order the code takes them: principal, interest, fee
  obtain ⟨deltas, hdeltas, hdFit, hiFit, hfFit⟩ := @capped_fits _ _ _ _ missing.nonNegative _ _ _ _ _ _ _
    hscale hu hCFit hinterest hFFit h.payment (nonneg_fits hmC) (nonneg_fits hmI) (nonneg_fits hmF) hC0
    (by omega) hF0 (by omega) (by omega) h.payment_le
  rw [← hdp, ← hdi, ← hdf] at hfFit
  rw [← hdp, ← hdi] at hiFit
  rw [← hdp] at hdFit
  obtain ⟨total, htotal, htotalFit⟩ := total_fits hscale hu hdFit hiFit hfFit (by omega) (by omega)
  obtain ⟨excess, hexcess, hexcessFit⟩ := sub_fits' hscale hu htotalFit hVFit (by omega)
  obtain ⟨shortage, hshortage, hshortageFit⟩ := sub_fits' hscale hu h.payment htotalFit (by omega)
  -- neither of the two corrections is ever made
  have hnotOver : Number.lt 0 excess = false := by
    have hlt : Number.lt 0 excess = decide (0 < dp + di + df - V) := hexcessFit.zero_lt
    rw [hlt, decide_eq_false (by omega)]
  have hnotShort : Number.lt shortage 0 = false := by
    have hlt : Number.lt shortage 0 = decide (P - (dp + di + df) < 0) := hshortageFit.lt_zero
    rw [hlt, decide_eq_false (by omega)]
  have hfinal : ¬(paymentRemaining = 1 ∨ (!Number.lt payment value) = true) := by
    rw [lt_fits h.payment h.value (.inr (by omega)), decide_eq_true hlt]
    simpa using hremaining
  refine ⟨⟨clampNumber total 0 current.valueOutstanding,
    clampNumber deltas.principal 0 current.principalOutstanding,
    clampNumber deltas.managementFee 0 current.managementFeeDue, .none⟩, ?_, rfl,
    clamp_fits htotalFit hVFit (by omega), clamp_fits hdFit hCFit hC0, clamp_fits hfFit hFFit hF0⟩
  obtain ⟨theory, htheory, htarget⟩ := Option.bind_eq_some_iff.mp h.target_eq
  simp only [computePaymentComponents, h.payment_eq, hfinal, htheory, htarget, hcurrent, hmissing,
    hdeltas, htotal, hexcess, hshortage, hnotOver, hnotShort, Option.bind_eq_bind, Option.bind_some,
    Option.pure_def, if_false, Bool.false_eq_true]

end Parts

/-! ### What a payment promises -/

/-- The three tracked balances of a loan are in order. -/
structure InOrder (value principal fee : Number) : Prop where
  principal_nonneg : 0 ≤ principal.toRat
  fee_nonneg : 0 ≤ fee.toRat
  sum_le : principal.toRat + fee.toRat ≤ value.toRat

/-- The parts of a payment are not negative, add up, exceed neither what is outstanding nor, before
the last payment, the rounded payment, and leave the balances in order. -/
structure PartsSound (env : NumberEnv) (value principal fee payment : Number)
    (r : PaymentComponents) : Prop where
  principalPart : 0 ≤ r.trackedPrincipalDelta.toRat ∧ r.trackedPrincipalDelta.toRat ≤ principal.toRat
  feePart : 0 ≤ r.trackedManagementFeeDelta.toRat ∧ r.trackedManagementFeeDelta.toRat ≤ fee.toRat
  interestPart : ∃ i, r.trackedInterestPart env = some i ∧ 0 ≤ i.toRat ∧
    i.toRat ≤ value.toRat - principal.toRat - fee.toRat ∧
    r.trackedPrincipalDelta.toRat + i.toRat + r.trackedManagementFeeDelta.toRat =
      r.trackedValueDelta.toRat
  total : r.specialCase = .final ∨ r.trackedValueDelta.toRat ≤ payment.toRat
  final : r.specialCase = .final → r.trackedValueDelta = value ∧ r.trackedPrincipalDelta = principal ∧
    r.trackedManagementFeeDelta = fee
  after : ∀ (b b' : LoanBalances) (parts : LoanPaymentParts) (untrackedFee untrackedInterest : Number)
    (paymentInterval : UInt32), b.totalValueOutstanding = value → b.principalOutstanding = principal →
      b.managementFeeOutstanding = fee →
      doPayment env ⟨r, untrackedFee, untrackedInterest⟩ b paymentInterval = some (b', parts) →
        InOrder b'.totalValueOutstanding b'.principalOutstanding b'.managementFeeOutstanding

theorem doPayment_spec {payment : ExtendedPaymentComponents} {b b' : LoanBalances}
    {parts : LoanPaymentParts} {paymentInterval : UInt32}
    (h : doPayment env payment b paymentInterval = some (b', parts)) :
    (b'.totalValueOutstanding = 0 ∧ b'.principalOutstanding = 0 ∧ b'.managementFeeOutstanding = 0) ∨
    (Number.sub env b.totalValueOutstanding payment.trackedValueDelta =
        some b'.totalValueOutstanding ∧
      Number.sub env b.principalOutstanding payment.trackedPrincipalDelta =
        some b'.principalOutstanding ∧
      Number.sub env b.managementFeeOutstanding payment.trackedManagementFeeDelta =
        some b'.managementFeeOutstanding) := by
  obtain ⟨b₁, hb, h⟩ := Option.bind_eq_some_iff.mp h
  obtain ⟨interest, -, h⟩ := Option.bind_eq_some_iff.mp h
  obtain ⟨paid, -, h⟩ := Option.bind_eq_some_iff.mp h
  obtain ⟨feePaid, -, h⟩ := Option.bind_eq_some_iff.mp h
  cases h
  rw [balancesAfter] at hb
  by_cases hfinal : payment.specialCase = .final
  · rw [if_pos hfinal] at hb
    cases hb
    exact .inl ⟨rfl, rfl, rfl⟩
  · rw [if_neg hfinal] at hb
    obtain ⟨x, hx, hb⟩ := Option.bind_eq_some_iff.mp hb
    obtain ⟨y, hy, hb⟩ := Option.bind_eq_some_iff.mp hb
    obtain ⟨z, hz, hb⟩ := Option.bind_eq_some_iff.mp hb
    split_ifs at hb
    all_goals
      cases hb
      exact .inr ⟨hy, hx, hz⟩

section Values

variable {x y z : Number} {a b c : ℤ}

theorem le_iff_of_fits (hx : Fits .large u a x) (hy : Fits .large u b y) :
    x.toRat ≤ y.toRat ↔ a ≤ b := by
  rw [hx.value, hy.value, mul_le_mul_iff_left₀ (zpow_pos (by norm_num) u), Int.cast_le]

theorem nonneg_iff_of_fits (hx : Fits .large u a x) : 0 ≤ x.toRat ↔ 0 ≤ a := by
  rw [hx.value, mul_nonneg_iff_of_pos_right (zpow_pos (by norm_num) u), Int.cast_nonneg_iff]

theorem add_le_iff_of_fits (hx : Fits .large u a x) (hy : Fits .large u b y)
    (hz : Fits .large u c z) : x.toRat + y.toRat ≤ z.toRat ↔ a + b ≤ c := by
  rw [hx.value, hy.value, hz.value, ← add_mul, mul_le_mul_iff_left₀ (zpow_pos (by norm_num) u)]
  exact_mod_cast Iff.rfl

theorem inOrder_iff (hz : Fits .large u c z) (hx : Fits .large u a x) (hy : Fits .large u b y) :
    InOrder z x y ↔ 0 ≤ a ∧ 0 ≤ b ∧ a + b ≤ c := by
  rw [← nonneg_iff_of_fits hx, ← nonneg_iff_of_fits hy, ← add_le_iff_of_fits hx hy hz]
  exact ⟨fun h => ⟨h.1, h.2, h.3⟩, fun h => ⟨h.1, h.2.1, h.2.2⟩⟩

theorem fits_of_sub (hscale : env.scale = .large) (hu : InRange .large u) (hx : Fits .large u a x)
    (hy : Fits .large u b y) (hle : (a - b).natAbs ≤ 10 ^ 18) (hz : Number.sub env x y = some z) :
    Fits .large u (a - b) z := by
  obtain ⟨z', hz', hfits⟩ := sub_fits' hscale hu hx hy hle
  exact Option.some_inj.mp (hz'.symm.trans hz) ▸ hfits

end Values

section Sound

variable {round : Number → RoundingMode → Option Number} {theoretical : UInt32 → Option LoanState}
  {value principal fee periodicPayment payment : Number} {target : LoanState}
  {paymentRemaining : UInt32} {V C F P tp ti tf v p f : ℤ} {r : PaymentComponents}

theorem trackedInterestPart_fits (hscale : env.scale = .large) (hu : InRange .large u)
    (hv : Fits .large u v r.trackedValueDelta) (hp : Fits .large u p r.trackedPrincipalDelta)
    (hf : Fits .large u f r.trackedManagementFeeDelta) (hle : (p + f).natAbs ≤ 10 ^ 18)
    (hle' : (v - (p + f)).natAbs ≤ 10 ^ 18) :
    ∃ i, r.trackedInterestPart env = some i ∧ Fits .large u (v - (p + f)) i := by
  obtain ⟨x, hx, hxFit⟩ := add_fits' hscale hu hp hf hle
  obtain ⟨i, hi, hiFit⟩ := sub_fits' hscale hu hv hxFit hle'
  refine ⟨i, ?_, hiFit⟩
  simp only [PaymentComponents.trackedInterestPart, hx, hi, Option.bind_eq_bind, Option.bind_some]

theorem partsSound_of_fits (h : Rounded env round theoretical value principal fee periodicPayment
    payment target paymentRemaining u V C F P tp ti tf) (hv : Fits .large u v r.trackedValueDelta)
    (hp : Fits .large u p r.trackedPrincipalDelta)
    (hf : Fits .large u f r.trackedManagementFeeDelta) (hp0 : 0 ≤ p) (hpC : p ≤ C) (hf0 : 0 ≤ f)
    (hfF : f ≤ F) (hi0 : 0 ≤ v - (p + f)) (hiI : v - (p + f) ≤ V - C - F)
    (htotal : r.specialCase = .final ∨ v ≤ P)
    (hfinal : r.specialCase = .final → r.trackedValueDelta = value ∧
      r.trackedPrincipalDelta = principal ∧ r.trackedManagementFeeDelta = fee) :
    PartsSound env value principal fee payment r := by
  obtain ⟨hscale, hu⟩ := And.intro h.scale h.inRange
  have hsum := h.sum_le
  have hVle := h.value_le
  have hC0 := h.principal_nonneg
  have hF0 := h.fee_nonneg
  obtain ⟨i, hi, hiFit⟩ := trackedInterestPart_fits hscale hu hv hp hf (by omega) (by omega)
  refine ⟨⟨(nonneg_iff_of_fits hp).mpr hp0, (le_iff_of_fits hp h.principal).mpr hpC⟩,
    ⟨(nonneg_iff_of_fits hf).mpr hf0, (le_iff_of_fits hf h.fee).mpr hfF⟩,
    ⟨i, hi, (nonneg_iff_of_fits hiFit).mpr hi0, ?_, ?_⟩,
    htotal.imp_right (le_iff_of_fits hv h.payment).mpr, hfinal, ?_⟩
  · have hten : (0 : ℚ) ≤ 10 ^ u := zpow_nonneg (by norm_num) u
    have hcast : ((v - (p + f) : ℤ) : ℚ) ≤ ((V - C - F : ℤ) : ℚ) := by exact_mod_cast hiI
    have hmul := mul_le_mul_of_nonneg_right hcast hten
    rw [hiFit.value, h.value.value, h.principal.value, h.fee.value]
    push_cast at hmul ⊢
    linarith
  · rw [hiFit.value, hp.value, hf.value, hv.value]
    push_cast
    ring
  · rintro b b' parts _ _ _ rfl rfl rfl hpay
    rcases doPayment_spec hpay with ⟨hvalue, hprincipal, hfee⟩ | ⟨hvalue, hprincipal, hfee⟩
    · rw [hvalue, hprincipal, hfee]
      exact (inOrder_iff (fits_zero _ u) (fits_zero _ u) (fits_zero _ u)).mpr (by omega)
    · refine (inOrder_iff (fits_of_sub hscale hu h.value hv (by omega) hvalue)
        (fits_of_sub hscale hu h.principal hp (by omega) hprincipal)
        (fits_of_sub hscale hu h.fee hf (by omega) hfee)).mpr ?_
      omega

theorem final_sound (h : Rounded env round theoretical value principal fee periodicPayment payment
    target paymentRemaining u V C F P tp ti tf) (hfinal : paymentRemaining = 1 ∨ V ≤ P) :
    ∃ r, computePaymentComponents env round theoretical value principal fee periodicPayment
        paymentRemaining = some r ∧ PartsSound env value principal fee payment r := by
  have hsum := h.sum_le
  have hC0 := h.principal_nonneg
  have hF0 := h.fee_nonneg
  have hcase : paymentRemaining = 1 ∨ (!Number.lt payment value) = true := by
    rw [lt_fits h.payment h.value (.inr (by omega))]
    simpa using hfinal
  refine ⟨⟨value, principal, fee, .final⟩, ?_, partsSound_of_fits h h.value h.principal h.fee hC0
    le_rfl hF0 le_rfl (by omega) (by omega) (.inl rfl) fun _ => ⟨rfl, rfl, rfl⟩⟩
  rw [computePaymentComponents, h.payment_eq, Option.bind_eq_bind, Option.bind_some, if_pos hcase]
  rfl

theorem principalPart_le_iff (h : Rounded env round theoretical value principal fee periodicPayment
    payment target paymentRemaining u V C F P tp ti tf) :
    Min.min (Max.max 0 (principal.toRat - target.principalOutstanding.toRat)) principal.toRat ≤
      payment.toRat ↔ principalPart C tp ≤ P := by
  have hten : (0 : ℚ) < 10 ^ u := zpow_pos (by norm_num) u
  have hpart : Min.min (Max.max 0 (principal.toRat - target.principalOutstanding.toRat))
      principal.toRat = (principalPart C tp : ℤ) * 10 ^ u := by
    rw [h.principal.value, h.targetPrincipal.value, principalPart, ← sub_mul]
    push_cast
    rw [min_mul_of_nonneg _ _ hten.le, max_mul_of_nonneg _ _ hten.le, zero_mul]
  rw [hpart, h.payment.value, mul_le_mul_iff_left₀ hten, Int.cast_le]

/-- **The parts of a payment are sound exactly when it is the last one, or the principal it takes does
not exceed it.** -/
theorem parts_sound_iff (h : Rounded env round theoretical value principal fee periodicPayment payment
    target paymentRemaining u V C F P tp ti tf) :
    ∃ r, computePaymentComponents env round theoretical value principal fee periodicPayment
        paymentRemaining = some r ∧
      (PartsSound env value principal fee payment r ↔
        paymentRemaining = 1 ∨ value.toRat ≤ payment.toRat ∨
          Min.min (Max.max 0 (principal.toRat - target.principalOutstanding.toRat))
            principal.toRat ≤ payment.toRat) := by
  rw [principalPart_le_iff h, le_iff_of_fits h.value h.payment]
  by_cases hlast : paymentRemaining = 1 ∨ V ≤ P
  · obtain ⟨r, hr, hsound⟩ := final_sound h hlast
    exact ⟨r, hr, iff_of_true hsound (or_assoc.mp (.inl hlast))⟩
  rw [not_or, not_le] at hlast
  obtain ⟨dp, hdp⟩ : ∃ dp, dp = principalPart C tp := ⟨_, rfl⟩
  obtain ⟨di, hdi⟩ : ∃ di, di = interestPart P (V - C - F) ti dp := ⟨_, rfl⟩
  obtain ⟨df, hdf⟩ : ∃ df, df = feePart P F tf (dp + di) := ⟨_, rfl⟩
  have hC0 := h.principal_nonneg
  have hF0 := h.fee_nonneg
  have hsum := h.sum_le
  have hVle := h.value_le
  have hPle := abs_le.mp h.payment_le
  have hparts := parts_le hdp hdi hdf hC0 hF0 hsum
  obtain ⟨r, hr, hcase, hv, hp, hf⟩ := components_fits h hlast.1 hlast.2 hdp hdi hdf
  refine ⟨r, hr, ?_⟩
  rw [← hdp]
  simp only [hlast.1, not_le.mpr hlast.2, false_or]
  constructor
  · -- a principal above the payment leaves a negative rest for the interest
    intro hsound
    obtain ⟨i, hi, hi0, -⟩ := hsound.interestPart
    obtain ⟨i', hi', hiFit⟩ := trackedInterestPart_fits h.scale h.inRange hv hp hf (by omega)
      (by omega)
    rw [← Option.some_inj.mp (hi'.symm.trans hi), nonneg_iff_of_fits hiFit] at hi0
    have htotal := hsound.total.resolve_left (by rw [hcase]; decide)
    rw [le_iff_of_fits hv h.payment] at htotal
    omega
  · intro hle
    exact partsSound_of_fits h hv hp hf (by omega) (by omega) (by omega) (by omega) (by omega)
      (by omega) (.inr (by omega)) fun hfinal => by rw [hcase] at hfinal; cases hfinal

end Sound

/-! ### Two loans without interest -/

def nearestLarge : NumberEnv := ⟨.toNearest, .large⟩

def ten : Number := ⟨false, 1000000000000000000, -17⟩

def twenty : Number := ⟨false, 2000000000000000000, -17⟩

def hundred : Number := ⟨false, 1000000000000000000, -16⟩

/-- Nothing is lost by rounding. -/
def unrounded (x : Number) (_ : RoundingMode) : Option Number := some x

/-- The state of a loan that is paid back ten at a time. -/
def tenEach (n : UInt32) : Option LoanState := do
  let left ← Number.mul nearestLarge ten (← Number.ofInt nearestLarge n.toNat)
  return ⟨left, left, 0, 0⟩

theorem fits_of_ofInt {n : ℤ} {z : Number} (h : Number.ofInt nearestLarge n = some z)
    (hle : n.natAbs ≤ 10 ^ 18) : Fits .large 0 n z := by
  obtain ⟨z', hz', hfits⟩ := @ofInt_fits nearestLarge n hle
  exact Option.some_inj.mp (hz'.symm.trans h) ▸ hfits

theorem parts_sound_twenty : ∃ r, computePaymentComponents nearestLarge unrounded tenEach twenty twenty
    0 ten 2 = some r ∧ PartsSound nearestLarge twenty twenty 0 ten r := by
  have hten : Fits .large 0 10 ten := fits_of_ofInt (by decide +kernel) (by decide)
  have htwenty : Fits .large 0 20 twenty := fits_of_ofInt (by decide +kernel) (by decide)
  have hrounded : Rounded nearestLarge unrounded tenEach twenty twenty 0 ten ten ⟨ten, ten, 0, 0⟩ 2
      0 20 20 0 10 10 0 0 :=
    { scale := rfl
      inRange := by decide
      value := htwenty
      principal := htwenty
      fee := fits_zero _ _
      payment_eq := rfl
      payment := hten
      target_eq := by rfl
      targetPrincipal := hten
      targetInterest := fits_zero _ _
      targetFee := fits_zero _ _
      principal_nonneg := by decide
      fee_nonneg := by decide
      sum_le := by decide
      value_le := by decide
      payment_le := by decide
      target_le := by decide }
  obtain ⟨r, hr, hiff⟩ := parts_sound_iff hrounded
  refine ⟨r, hr, hiff.mpr (.inr (.inr ?_))⟩
  rw [htwenty.value, hten.value]
  norm_num

/-- With two payments of ten left and a hundred outstanding, the principal part is ninety, the whole
payment ten, and the interest minus eighty. -/
theorem parts_unsound_hundred : ∃ r, computePaymentComponents nearestLarge unrounded tenEach hundred
    hundred 0 ten 2 = some r ∧ InOrder hundred hundred 0 ∧ r.specialCase = .none ∧
      r.trackedValueDelta = ten ∧ r.trackedPrincipalDelta = ⟨false, 9000000000000000000, -17⟩ ∧
      r.trackedInterestPart nearestLarge = some ⟨true, 8000000000000000000, -17⟩ ∧
      ¬PartsSound nearestLarge hundred hundred 0 ten r := by
  have hhundred : Fits .large 0 100 hundred := fits_of_ofInt (by decide +kernel) (by decide)
  have hinterest : (⟨ten, ⟨false, 9000000000000000000, -17⟩, 0, .none⟩ :
      PaymentComponents).trackedInterestPart nearestLarge =
        some ⟨true, 8000000000000000000, -17⟩ := by
    decide +kernel
  refine ⟨⟨ten, ⟨false, 9000000000000000000, -17⟩, 0, .none⟩, by rfl,
    (inOrder_iff hhundred hhundred (fits_zero _ _)).mpr (by decide), rfl, rfl, rfl, hinterest,
    fun hsound => ?_⟩
  obtain ⟨i, hi, hi0, -⟩ := hsound.interestPart
  rw [← Option.some_inj.mp (hinterest.symm.trans hi)] at hi0
  norm_num [toRat] at hi0

end LoanPayment

end FalconLedger
