import FalconLedger.Close.BuildLedger

/-!
# Scores

What a window does to the score of a validator: the four components are parts of 10000, the composite
moves from the previous one towards the new one and never past it, and windows of one score bring it
there, but for two points that flooring keeps (`scores_run`).
-/

namespace FalconLedger.ValidatorScoring

variable {st st' : WindowStats} {raw raw' previous previous' : UInt32}

/-! ### One pass -/

theorem kBpsDenom_toNat : kBpsDenom.toNat = 10000 := rfl

theorem toUInt32_toNat_of_lt {n : UInt64} (h : n.toNat < 2 ^ 32) : n.toUInt32.toNat = n.toNat := by
  rw [UInt64.toNat_toUInt32]
  exact Nat.mod_eq_of_lt h

/-- The composite without machine arithmetic. -/
def blend (raw previous : ℕ) : ℕ :=
  if previous = 0 then raw else (raw * 3500 + previous * 6500) / 10000

theorem emaComposite_toNat (hraw : raw.toNat ≤ 10000) (hprevious : previous.toNat ≤ 10000) :
    (emaComposite raw previous).toNat = blend raw.toNat previous.toNat := by
  have hzero : previous = 0 ↔ previous.toNat = 0 := by rw [← UInt32.toNat_inj]; rfl
  rw [emaComposite, blend]
  simp only [hzero]
  split_ifs
  · rfl
  · have hsum : (raw.toUInt64 * kScoreEmaNewBps.toUInt64 +
        previous.toUInt64 * (kBpsDenom - kScoreEmaNewBps).toUInt64).toNat =
          raw.toNat * 3500 + previous.toNat * 6500 := by
      rw [UInt64.toNat_add, UInt64.toNat_mul, UInt64.toNat_mul]
      change (raw.toNat * 3500 % 2 ^ 64 + previous.toNat * 6500 % 2 ^ 64) % 2 ^ 64 = _
      omega
    rw [toUInt32_toNat_of_lt, UInt64.toNat_div, hsum]
    · rfl
    · rw [UInt64.toNat_div, hsum]
      change _ / 10000 < _
      omega

theorem blend_bounds {r p : ℕ} (hp : p ≠ 0) : min r p ≤ blend r p ∧ blend r p ≤ max r p := by
  rw [blend, if_neg hp]
  omega

theorem blend_le {r p : ℕ} (hr : r ≤ 10000) (hp : p ≤ 10000) : blend r p ≤ 10000 := by
  rw [blend]
  split_ifs <;> omega

theorem blend_mono {r r' p p' : ℕ} (hr : r ≤ r') (hp : p ≤ p') (hzero : p = 0 ↔ p' = 0) :
    blend r p ≤ blend r' p' := by
  rw [blend, blend]
  split_ifs <;> omega

/-! ### Components -/

theorem uptimeBps_le (st : WindowStats) : (uptimeBps st).toNat ≤ 10000 := by
  rw [uptimeBps, toNat_min]
  exact Nat.min_le_right _ _

theorem voteAccBps_le (st : WindowStats) : (voteAccBps st).toNat ≤ 10000 := by
  rw [voteAccBps]
  split_ifs
  · rw [toNat_min]
    exact Nat.min_le_right _ _
  · exact Nat.zero_le _

theorem latencyBps_le (st : WindowStats) : (latencyBps st).toNat ≤ 10000 := by
  rw [latencyBps]
  split_ifs
  · rw [toNat_min]
    exact Nat.min_le_right _ _
  · exact Nat.zero_le _

theorem penalized_toNat (pen : UInt64) :
    (if kBpsDenom.toUInt64 ≤ pen then 0 else (kBpsDenom.toUInt64 - pen).toUInt32).toNat =
      10000 - pen.toNat := by
  have hdenom : kBpsDenom.toUInt64.toNat = 10000 := rfl
  split_ifs with h
  · have := UInt64.le_iff_toNat_le.mp h
    change 0 = _
    omega
  · have hlt := UInt64.lt_iff_toNat_lt.mp (UInt64.not_le.mp h)
    have hsub : (kBpsDenom.toUInt64 - pen).toNat = 10000 - pen.toNat := by
      rw [UInt64.toNat_sub_of_le _ _ (UInt64.le_iff_toNat_le.mpr hlt.le), hdenom]
    rw [toUInt32_toNat_of_lt (by rw [hsub]; omega), hsub]

theorem latencyBpsFromDelayMs_le (delayMs : UInt64) :
    (latencyBpsFromDelayMs delayMs).toNat ≤ 10000 := by
  rw [latencyBpsFromDelayMs, penalized_toNat]
  exact Nat.sub_le _ _

theorem consistencyFromPresence_le (present : List Bool) :
    (consistencyFromPresence present).toNat ≤ 10000 := by
  rw [consistencyFromPresence]
  split_ifs with hempty
  · exact Nat.zero_le _
  · rw [penalized_toNat]
    exact Nat.sub_le _ _

theorem rawScore_toNat (st : WindowStats) :
    (rawScore st).toNat = ((uptimeBps st).toNat * 40 + (voteAccBps st).toNat * 30 +
      (latencyBps st).toNat * 15 + (consistencyFromPresence st.present).toNat * 10) / 100 := by
  have huptime := uptimeBps_le st
  have hvote := voteAccBps_le st
  have hlatency := latencyBps_le st
  have hconsistency := consistencyFromPresence_le st.present
  have hsum : ((uptimeBps st).toUInt64 * kScoreWeightUptime + (voteAccBps st).toUInt64 *
      kScoreWeightVoteAcc + (latencyBps st).toUInt64 * kScoreWeightLatency +
        (consistencyFromPresence st.present).toUInt64 * kScoreWeightConsistency).toNat =
      (uptimeBps st).toNat * 40 + (voteAccBps st).toNat * 30 + (latencyBps st).toNat * 15 +
        (consistencyFromPresence st.present).toNat * 10 := by
    simp only [UInt64.toNat_add, UInt64.toNat_mul]
    change ((((uptimeBps st).toNat * 40 % 2 ^ 64 + (voteAccBps st).toNat * 30 % 2 ^ 64) % 2 ^ 64 +
      (latencyBps st).toNat * 15 % 2 ^ 64) % 2 ^ 64 +
        (consistencyFromPresence st.present).toNat * 10 % 2 ^ 64) % 2 ^ 64 = _
    omega
  rw [rawScore, toUInt32_toNat_of_lt, UInt64.toNat_div, hsum]
  · rfl
  · rw [UInt64.toNat_div, hsum]
    change _ / 100 < _
    omega

theorem rawScore_le (st : WindowStats) : (rawScore st).toNat ≤ 9500 := by
  have := uptimeBps_le st
  have := voteAccBps_le st
  have := latencyBps_le st
  have := consistencyFromPresence_le st.present
  rw [rawScore_toNat]
  omega

/-! ### The bond -/

/-- The composite on a bond. -/
def composite (bond : ValidatorBond) : ℕ := (bond.compositeScore.getD 0).toNat

/-- The raw score after slashing. -/
def slashed (st : WindowStats) (slashMultiplier : UInt32) : ℕ :=
  (rawScore st).toNat * slashMultiplier.toNat / 10000

theorem slashed_le {slashMultiplier : UInt32} (h : slashMultiplier.toNat ≤ 10000) :
    slashed st slashMultiplier ≤ 10000 := by
  have hraw := rawScore_le st
  have hmul := Nat.mul_le_mul hraw h
  rw [slashed]
  omega

theorem composite_scoreBond {bond : ValidatorBond} (seq : UInt32)
    (hmult : bond.slashMultiplier.toNat ≤ 10000) (hcomposite : composite bond ≤ 10000) :
    composite (scoreBond st seq bond) = blend (slashed st bond.slashMultiplier) (composite bond) := by
  have hle : slashed st bond.slashMultiplier ≤ 10000 := slashed_le hmult
  have hslashed : (UInt32.ofNat ((rawScore st).toNat * bond.slashMultiplier.toNat /
      kBpsDenom.toNat)).toNat = slashed st bond.slashMultiplier := by
    rw [slashed, ← kBpsDenom_toNat] at hle ⊢
    exact UInt32.toNat_ofNat_of_lt' (hle.trans_lt (by decide))
  have hblend := emaComposite_toNat (by rw [hslashed]; exact hle) hcomposite
  rw [hslashed] at hblend
  rw [composite, scoreBond]
  dsimp only
  rw [getD_unlessZero]
  exact hblend

/-! ### What the components measure -/

/-- The longest run of absences. -/
def longestGap : ℕ → ℕ → List Bool → ℕ
  | _, longest, [] => longest
  | gap, longest, bit :: present =>
    if bit then longestGap 0 longest present
    else longestGap (gap + 1) (max longest (gap + 1)) present

theorem maxGapFrom_toNat {gap longest : UInt32} {present : List Bool}
    (h : gap.toNat + present.length < 2 ^ 32) :
    (maxGapFrom gap longest present).toNat = longestGap gap.toNat longest.toNat present := by
  induction present generalizing gap longest with
  | nil => rfl
  | cons bit present ih =>
    rw [List.length_cons] at h
    rw [maxGapFrom, longestGap]
    split_ifs
    · refine ih ?_
      change 0 + _ < _
      omega
    · have hsucc : (gap + 1).toNat = gap.toNat + 1 := by
        rw [UInt32.toNat_add]
        exact Nat.mod_eq_of_lt (by change _ + 1 < _; omega)
      rw [ih (by rw [hsucc]; omega), toNat_max, hsucc]

/-- Every ledger the first window was present for, the second was as well. -/
def Covers (present present' : List Bool) : Prop :=
  List.Forall₂ (fun bit bit' => bit = true → bit' = true) present present'

theorem longestGap_anti {gap gap' longest longest' : ℕ} {present present' : List Bool}
    (h : Covers present present') (hgap : gap' ≤ gap) (hlongest : longest' ≤ longest) :
    longestGap gap' longest' present' ≤ longestGap gap longest present := by
  induction h generalizing gap gap' longest longest' with
  | nil => exact hlongest
  | @cons bit bit' present present' hbit _ ih =>
    rw [longestGap, longestGap]
    cases bit with
    | true =>
      rw [if_pos (hbit rfl), if_pos rfl]
      exact ih le_rfl hlongest
    | false =>
      have hfalse : ¬ (false = true) := Bool.false_ne_true
      cases bit' with
      | true =>
        rw [if_pos rfl, if_neg hfalse]
        exact ih (Nat.zero_le _) (hlongest.trans (le_max_left _ _))
      | false =>
        rw [if_neg hfalse, if_neg hfalse]
        exact ih (Nat.succ_le_succ hgap) (max_le_max hlongest (Nat.succ_le_succ hgap))

theorem consistency_mono {present present' : List Bool} (hlength : present.length < 2 ^ 32)
    (h : Covers present present') :
    (consistencyFromPresence present).toNat ≤ (consistencyFromPresence present').toNat := by
  have hlen : present.length = present'.length := h.length_eq
  have hempty : present = [] ↔ present' = [] := by
    rw [← List.length_eq_zero_iff, hlen, List.length_eq_zero_iff]
  rw [consistencyFromPresence, consistencyFromPresence]
  by_cases hnil : present = []
  · rw [if_pos hnil]
    exact Nat.zero_le _
  · rw [if_neg hnil, if_neg (mt hempty.mpr hnil), penalized_toNat, penalized_toNat]
    refine Nat.sub_le_sub_left ?_ _
    rw [UInt64.toNat_div, UInt64.toNat_div, hlen]
    refine Nat.div_le_div_right ?_
    have hzero : (0 : UInt32).toNat + present.length < 2 ^ 32 := by
      change 0 + _ < _
      omega
    have hlt := (maxGapFrom 0 0 present).toNat_lt
    have hlt' := (maxGapFrom 0 0 present').toNat_lt
    have hle : (maxGapFrom 0 0 present').toNat ≤ (maxGapFrom 0 0 present).toNat := by
      rw [maxGapFrom_toNat hzero, maxGapFrom_toNat (hlen ▸ hzero)]
      exact longestGap_anti h le_rfl le_rfl
    rw [UInt64.toNat_mul, UInt64.toNat_mul]
    change (maxGapFrom 0 0 present').toNat * 10000 % 2 ^ 64 ≤
      (maxGapFrom 0 0 present).toNat * 10000 % 2 ^ 64
    rw [Nat.mod_eq_of_lt (by omega), Nat.mod_eq_of_lt (by omega)]
    exact Nat.mul_le_mul_right _ hle

theorem share_toNat {n : UInt32} (d : UInt32) (hn : n.toNat ≤ 256) :
    (n.toUInt64 * kBpsDenom.toUInt64 / d.toUInt64).toUInt32.toNat = n.toNat * 10000 / d.toNat := by
  have hmul : (n.toUInt64 * kBpsDenom.toUInt64).toNat = n.toNat * 10000 := by
    rw [UInt64.toNat_mul]
    change n.toNat * 10000 % 2 ^ 64 = _
    omega
  have hdiv : (n.toUInt64 * kBpsDenom.toUInt64 / d.toUInt64).toNat = n.toNat * 10000 / d.toNat := by
    rw [UInt64.toNat_div, hmul]
    rfl
  have hself := Nat.div_le_self (n.toNat * 10000) d.toNat
  rw [toUInt32_toNat_of_lt (by rw [hdiv]; omega), hdiv]

theorem uptimeBps_mono (hpresent : st.present.length = kFlagLedgerInterval.toNat)
    (hpresent' : st'.present.length = kFlagLedgerInterval.toNat)
    (hcount : st'.presenceCount.toNat ≤ kFlagLedgerInterval.toNat)
    (h : st.presenceCount ≤ st'.presenceCount) : uptimeBps st ≤ uptimeBps st' := by
  have hle := UInt32.le_iff_toNat_le.mp h
  have hnil : st.present ≠ [] := List.ne_nil_of_length_pos (hpresent ▸ by decide)
  have hnil' : st'.present ≠ [] := List.ne_nil_of_length_pos (hpresent' ▸ by decide)
  have hcount' : st'.presenceCount.toNat ≤ 256 := hcount
  rw [uptimeBps, uptimeBps, if_neg hnil, if_neg hnil', hpresent, hpresent', UInt32.ofNat_toNat,
    UInt32.le_iff_toNat_le, toNat_min, toNat_min, share_toNat _ (hle.trans hcount'),
    share_toNat _ hcount']
  exact min_le_min_right _ (Nat.div_le_div_right (Nat.mul_le_mul_right _ hle))

/-! ### Windows -/

/-- Statistics when the marks of some ledgers of the window, and the votes of some, are counted. -/
structure Counted (seen judged : ℕ) (st : WindowStats) : Prop where
  length : st.present.length = kFlagLedgerInterval.toNat
  unseen : ∀ i, seen ≤ i → st.present.getD i false = false
  presence : st.presenceCount.toNat = st.present.count true
  correct : st.correctCount.toNat ≤ judged
  samples : st.latencySamples = st.correctCount
  latency : st.latencySumBps.toNat ≤ 10000 * st.correctCount.toNat

theorem Counted.presence_le {seen judged : ℕ} (h : Counted seen judged st) :
    st.presenceCount.toNat ≤ 256 := by
  rw [h.presence]
  exact List.count_le_length.trans h.length.le

theorem voteAccBps_mono (hcount : st'.correctCount.toNat ≤ kFlagLedgerInterval.toNat)
    (hpresence : st.presenceCount = st'.presenceCount) (h : st.correctCount ≤ st'.correctCount) :
    voteAccBps st ≤ voteAccBps st' := by
  have hle := UInt32.le_iff_toNat_le.mp h
  have hcount' : st'.correctCount.toNat ≤ 256 := hcount
  rw [voteAccBps, voteAccBps, hpresence]
  split_ifs
  · rw [UInt32.le_iff_toNat_le, toNat_min, toNat_min, share_toNat _ (hle.trans hcount'),
      share_toNat _ hcount']
    exact min_le_min_right _ (Nat.div_le_div_right (Nat.mul_le_mul_right _ hle))
  · exact UInt32.le_refl _

theorem latencyBps_mono (hsum : st'.latencySumBps.toNat ≤ 10000 * st'.latencySamples.toNat)
    (hsamples : st.latencySamples = st'.latencySamples)
    (h : st.latencySumBps ≤ st'.latencySumBps) : latencyBps st ≤ latencyBps st' := by
  have hle := UInt64.le_iff_toNat_le.mp h
  have hmean : ∀ n : UInt64, n.toNat ≤ 10000 * st'.latencySamples.toNat →
      (n / st'.latencySamples.toUInt64).toUInt32.toNat = n.toNat / st'.latencySamples.toNat :=
    fun n hn => by
      have hdiv : (n / st'.latencySamples.toUInt64).toNat = n.toNat / st'.latencySamples.toNat := by
        rw [UInt64.toNat_div]
        rfl
      have hbound : n.toNat / st'.latencySamples.toNat ≤ 10000 :=
        Nat.div_le_of_le_mul (by rw [Nat.mul_comm]; exact hn)
      rw [toUInt32_toNat_of_lt (by rw [hdiv]; omega), hdiv]
  rw [latencyBps, latencyBps, hsamples]
  split_ifs
  · rw [UInt32.le_iff_toNat_le, toNat_min, toNat_min, hmean _ (hle.trans hsum), hmean _ hsum]
    exact min_le_min_right _ (Nat.div_le_div_right hle)
  · exact UInt32.le_refl _

theorem Counted.absent : Counted 0 0 .absent where
  length := List.length_replicate
  unseen i _ := by
    rw [WindowStats.absent, List.getD_eq_getElem?_getD, List.getElem?_replicate]
    split_ifs <;> rfl
  presence := by
    rw [WindowStats.absent, List.count_replicate]
    rfl
  correct := le_rfl
  samples := rfl
  latency := le_rfl

/-- Mark a window at a position. -/
def marked (i : ℕ) (st : WindowStats) : WindowStats :=
  if st.present.getD i false then st
  else { st with present := st.present.set i true, presenceCount := st.presenceCount + 1 }

/-- Count a right vote in a window. -/
def judged (delayMs : UInt64) (st : WindowStats) : WindowStats :=
  { st with
    correctCount := st.correctCount + 1
    latencySumBps := st.latencySumBps + (latencyBpsFromDelayMs delayMs).toUInt64
    latencySamples := st.latencySamples + 1 }

theorem length_marked (i : ℕ) (st : WindowStats) :
    (marked i st).present.length = st.present.length := by
  rw [marked]
  split_ifs
  · rfl
  · exact List.length_set

theorem getD_marked {i : ℕ} (h : i < st.present.length) :
    (marked i st).present.getD i false = true := by
  rw [marked]
  split_ifs with hbit
  · exact hbit
  · rw [List.getD_eq_getElem?_getD, List.getElem?_set_self h]
    rfl

theorem marked_marked {i : ℕ} (h : i < st.present.length) :
    marked i (marked i st) = marked i st := by
  conv_lhs => rw [marked]
  rw [if_pos (getD_marked h)]

theorem Counted.marked {n k : ℕ} (h : Counted (n + 1) k st) (hn : n < kFlagLedgerInterval.toNat) :
    Counted (n + 1) k (marked n st) := by
  rw [ValidatorScoring.marked]
  split_ifs with hbit
  · exact h
  · have hlt : n < st.present.length := h.length ▸ hn
    have hcount : (st.present.set n true).count true = st.present.count true + 1 := by
      rw [List.count_set hlt]
      have hfalse : st.present[n] = false := by
        rw [List.getD_eq_getElem?_getD, List.getElem?_eq_getElem hlt, Option.getD_some] at hbit
        exact Bool.eq_false_iff.mpr hbit
      rw [hfalse]
      rfl
    refine ⟨by rw [List.length_set, h.length], fun i hi => ?_, ?_, h.correct, h.samples, h.latency⟩
    · rw [List.getD_eq_getElem?_getD, List.getElem?_set_ne (by omega),
        ← List.getD_eq_getElem?_getD]
      exact h.unseen i hi
    · have hle := h.presence_le
      rw [hcount, ← h.presence, UInt32.toNat_add]
      exact Nat.mod_eq_of_lt (by change _ + 1 < _; omega)

theorem Counted.judged {n k : ℕ} (h : Counted n k st) (hk : k < kFlagLedgerInterval.toNat)
    (delayMs : UInt64) : Counted n (k + 1) (judged delayMs st) := by
  have hk' : k < 256 := hk
  have hcorrect := h.correct
  have hlatency := h.latency
  have hsucc : (st.correctCount + 1).toNat = st.correctCount.toNat + 1 := by
    rw [UInt32.toNat_add]
    exact Nat.mod_eq_of_lt (by change _ + 1 < _; omega)
  refine ⟨h.length, h.unseen, h.presence, ?_, ?_, ?_⟩
  · change (st.correctCount + 1).toNat ≤ _
    omega
  · change st.latencySamples + 1 = st.correctCount + 1
    rw [h.samples]
  · have hadd := latencyBpsFromDelayMs_le delayMs
    change (st.latencySumBps + (latencyBpsFromDelayMs delayMs).toUInt64).toNat ≤
      10000 * (st.correctCount + 1).toNat
    rw [hsucc, UInt64.toNat_add]
    refine (Nat.mod_le _ _).trans ?_
    change st.latencySumBps.toNat + (latencyBpsFromDelayMs delayMs).toNat ≤ _
    omega

section Walk

variable {stats : Table NodeID WindowStats} {vals : List Validation} {id : NodeID} {i : ℕ}

theorem lookup_markPresent (v : Validation) :
    (markPresent i stats v).lookup id =
      if v.nodeID = id then (stats.lookup id).map (marked i) else stats.lookup id := by
  rw [markPresent]
  split
  case h_1 hnone =>
    split_ifs with heq
    · rw [← heq, hnone]
      rfl
    · rfl
  case h_2 st hsome =>
    split_ifs with hbit heq heq
    · rw [← heq, hsome, Option.map_some, marked, if_pos hbit]
    · rfl
    · rw [← heq, AList.lookup_insert, hsome, Option.map_some, marked, if_neg hbit]
    · rw [AList.lookup_insert_ne (Ne.symm heq)]

theorem lookup_markCorrect (earliest : UInt32) (v : Validation) :
    ∃ delayMs, (markCorrect earliest stats v).lookup id =
      if v.nodeID = id then (stats.lookup id).map (judged delayMs) else stats.lookup id := by
  refine ⟨if earliest < v.signTime then 1000 * (v.signTime - earliest).toUInt64 else 0, ?_⟩
  rw [markCorrect]
  split
  case h_1 hnone =>
    by_cases heq : v.nodeID = id
    · rw [if_pos heq, ← heq, hnone]
      rfl
    · rw [if_neg heq]
  case h_2 st hsome =>
    by_cases heq : v.nodeID = id
    · rw [if_pos heq, ← heq, AList.lookup_insert, hsome]
      rfl
    · rw [if_neg heq, AList.lookup_insert_ne (Ne.symm heq)]

theorem lookup_foldl_markPresent (hlength : ∀ st, stats.lookup id = some st → i < st.present.length) :
    (vals.foldl (markPresent i) stats).lookup id =
      if ∃ v ∈ vals, v.nodeID = id then (stats.lookup id).map (marked i) else stats.lookup id := by
  induction vals generalizing stats with
  | nil => rw [if_neg (by rintro ⟨_, hv, _⟩; cases hv)]; rfl
  | cons v vals ih =>
    have hlookup := @lookup_markPresent stats id i v
    rw [List.foldl_cons]
    by_cases heq : v.nodeID = id
    · rw [if_pos heq] at hlookup
      rw [ih, if_pos (⟨v, List.mem_cons_self, heq⟩ : ∃ w ∈ v :: vals, w.nodeID = id), hlookup]
      · split_ifs
        · cases hst : stats.lookup id with
          | none => rfl
          | some st => rw [Option.map_some, Option.map_some, marked_marked (hlength st hst)]
        · rfl
      · intro st hst
        rw [hlookup, Option.map_eq_some_iff] at hst
        obtain ⟨st₀, hst₀, rfl⟩ := hst
        rw [length_marked]
        exact hlength st₀ hst₀
    · rw [if_neg heq] at hlookup
      rw [ih fun st hst => hlength st (hlookup ▸ hst), hlookup]
      refine if_congr ?_ rfl rfl
      rw [List.exists_mem_cons_iff, or_iff_right heq]

theorem lookup_foldl_markCorrect_of_ne (earliest : UInt32) (h : ∀ v ∈ vals, v.nodeID ≠ id) :
    (vals.foldl (markCorrect earliest) stats).lookup id = stats.lookup id := by
  induction vals generalizing stats with
  | nil => rfl
  | cons v vals ih =>
    obtain ⟨_, hlookup⟩ := @lookup_markCorrect stats id earliest v
    rw [List.foldl_cons, ih fun w hw => h w (List.mem_cons_of_mem _ hw), hlookup,
      if_neg (h v List.mem_cons_self)]

theorem lookup_foldl_markCorrect (earliest : UInt32) (hnodup : (vals.map Validation.nodeID).Nodup) :
    (vals.foldl (markCorrect earliest) stats).lookup id = stats.lookup id ∨
      (∃ v ∈ vals, v.nodeID = id) ∧ ∃ delayMs,
        (vals.foldl (markCorrect earliest) stats).lookup id =
          (stats.lookup id).map (judged delayMs) := by
  induction vals generalizing stats with
  | nil => exact .inl rfl
  | cons v vals ih =>
    rw [List.map_cons, List.nodup_cons] at hnodup
    obtain ⟨delayMs, hlookup⟩ := @lookup_markCorrect stats id earliest v
    rw [List.foldl_cons]
    by_cases heq : v.nodeID = id
    · have hrest : ∀ w ∈ vals, w.nodeID ≠ id := by
        rintro w hw rfl
        exact hnodup.1 (heq ▸ List.mem_map_of_mem hw)
      rw [if_pos heq] at hlookup
      exact .inr ⟨⟨v, List.mem_cons_self, heq⟩, delayMs,
        (lookup_foldl_markCorrect_of_ne earliest hrest).trans hlookup⟩
    · rw [if_neg heq] at hlookup
      rcases @ih (markCorrect earliest stats v) hnodup.2 with h | ⟨⟨w, hw, hid⟩, d, h⟩
      · exact .inl (h.trans hlookup)
      · exact .inr ⟨⟨w, List.mem_cons_of_mem _ hw, hid⟩, d, by rw [h, hlookup]⟩

end Walk

/-- At most one validation of a node is kept for a ledger. -/
def OnePerNode (store : Validations) : Prop :=
  ∀ ledgerID vals, store.byLedger.lookup ledgerID = some vals → (vals.map Validation.nodeID).Nodup

/-- For the ledgers of the window, every full validation that is kept by ledger is kept by number. -/
def KeptByNumber (store : Validations) (seq : UInt32) (ledgerAncestors : List UInt256) : Prop :=
  ∀ i < kFlagLedgerInterval.toNat, ∀ v ∈ store.getFullForLedger
    (ledgerAncestors.getD (ledgerAncestors.length - 1 - i) 0) (seq - 2 - UInt32.ofNat i),
      ∃ w ∈ store.getFullForSequence (seq - 2 - UInt32.ofNat i), w.nodeID = v.nodeID

theorem nodup_getFullForLedger {store : Validations} (h : OnePerNode store) (ledgerID : UInt256)
    (seq : UInt32) : ((store.getFullForLedger ledgerID seq).map Validation.nodeID).Nodup := by
  rw [Validations.getFullForLedger]
  refine List.Nodup.sublist (List.filter_sublist.map _) ?_
  cases hvals : store.byLedger.lookup ledgerID with
  | none => exact List.nodup_nil
  | some vals => exact h ledgerID vals hvals

section Count

variable {store : Validations} {seq : UInt32} {ledgerAncestors : List UInt256}
  {stats : Table NodeID WindowStats}

/-- What holds of a node's statistics when `n` ledgers of the window are counted. -/
def Walked (store : Validations) (seq : UInt32) (ledgerAncestors : List UInt256) (n : ℕ)
    (st : WindowStats) : Prop :=
  Counted n n st ∧
    (KeptByNumber store seq ledgerAncestors → st.correctCount.toNat ≤ st.presenceCount.toNat)

theorem presenceCount_marked {n k : ℕ} (h : Counted n k st) :
    (marked n st).presenceCount.toNat = st.presenceCount.toNat + 1 := by
  have hle := h.presence_le
  rw [marked, if_neg (by rw [h.unseen n le_rfl]; exact Bool.false_ne_true)]
  change (st.presenceCount + 1).toNat = _
  rw [UInt32.toNat_add]
  exact Nat.mod_eq_of_lt (by change _ + 1 < _; omega)

theorem correctCount_marked (n : ℕ) (st : WindowStats) :
    (marked n st).correctCount = st.correctCount := by
  rw [marked]
  split_ifs <;> rfl

theorem marks_countLedger {n : ℕ} {vals : List Validation} (hn : n < kFlagLedgerInterval.toNat)
    (h : ∀ id st, stats.lookup id = some st → Walked store seq ledgerAncestors n st) {id : NodeID}
    {st : WindowStats} (hst : (vals.foldl (markPresent n) stats).lookup id = some st) :
    Counted (n + 1) n st ∧ (KeptByNumber store seq ledgerAncestors →
      st.correctCount.toNat + (if ∃ v ∈ vals, v.nodeID = id then 1 else 0) ≤
        st.presenceCount.toNat) := by
  have hseen : ∀ st, Counted n n st → Counted (n + 1) n st := fun st hc =>
    ⟨hc.length, fun i hi => hc.unseen i (by omega), hc.presence, hc.correct, hc.samples, hc.latency⟩
  rw [lookup_foldl_markPresent fun st hst => (h id st hst).1.length ▸ hn] at hst
  split_ifs at hst ⊢
  · obtain ⟨st₀, hst₀, rfl⟩ := Option.map_eq_some_iff.mp hst
    obtain ⟨hcounted, hbacked⟩ := h id st₀ hst₀
    refine ⟨(hseen _ hcounted).marked hn, fun hkept => ?_⟩
    rw [presenceCount_marked hcounted, correctCount_marked]
    exact Nat.succ_le_succ (hbacked hkept)
  · obtain ⟨hcounted, hbacked⟩ := h id st hst
    exact ⟨hseen _ hcounted, hbacked⟩

theorem walked_countLedger {n : ℕ} (hstore : OnePerNode store) (hn : n < kFlagLedgerInterval.toNat)
    (h : ∀ id st, stats.lookup id = some st → Walked store seq ledgerAncestors n st) (id : NodeID)
    (st : WindowStats) (hst : (countLedger store seq ledgerAncestors stats n).lookup id = some st) :
    Walked store seq ledgerAncestors (n + 1) st := by
  rw [countLedger] at hst
  rcases @lookup_foldl_markCorrect ((store.getFullForSequence (seq - 2 - UInt32.ofNat n)).foldl
    (markPresent n) stats) _ id _
      (nodup_getFullForLedger hstore _ _) with heq | ⟨⟨v, hv, hid⟩, delayMs, heq⟩
  · obtain ⟨hcounted, hbacked⟩ := marks_countLedger hn h (heq ▸ hst)
    refine ⟨⟨hcounted.length, hcounted.unseen, hcounted.presence, hcounted.correct.trans n.le_succ,
      hcounted.samples, hcounted.latency⟩, fun hkept => ?_⟩
    exact (Nat.le_add_right _ _).trans (hbacked hkept)
  · obtain ⟨st₁, hst₁, rfl⟩ := Option.map_eq_some_iff.mp (heq.symm.trans hst)
    obtain ⟨hcounted, hbacked⟩ := marks_countLedger hn h hst₁
    refine ⟨hcounted.judged hn delayMs, fun hkept => ?_⟩
    -- the vote is kept by number as well, so the node was marked for this ledger
    obtain ⟨w, hw, hwid⟩ := hkept n hn v hv
    have hle := hbacked hkept
    rw [if_pos ⟨w, hw, hwid.trans hid⟩] at hle
    refine le_trans ?_ hle
    change (st₁.correctCount + 1).toNat ≤ _
    rw [UInt32.toNat_add]
    exact Nat.mod_le _ _

end Count

theorem walked_windowStats {store : Validations} (hstore : OnePerNode store) (H : Hashes)
    (seq : UInt32) (ledgerAncestors : List UInt256) (ts : List (AccountID × ValidatorBond))
    {id : NodeID} {st : WindowStats}
    (hst : (windowStats H store seq ledgerAncestors ts).lookup id = some st) :
    Walked store seq ledgerAncestors kFlagLedgerInterval.toNat st := by
  have hinitial : ∀ id st, (initialStats H ts).lookup id = some st → st = .absent := by
    rw [initialStats]
    refine List.foldlRecOn ts _ (motive := fun stats : Table NodeID WindowStats =>
      ∀ id st, stats.lookup id = some st → st = .absent) ?_ ?_
    · intro id st hst
      cases hst
    · intro stats ih t _ id st hst
      by_cases heq : id = H.calcNodeID t.2.consensusKey
      · rw [heq, AList.lookup_insert] at hst
        exact (Option.some_inj.mp hst).symm
      · rw [AList.lookup_insert_ne heq] at hst
        exact ih id st hst
  have hwalk : ∀ n ≤ kFlagLedgerInterval.toNat, ∀ id st,
      ((List.range n).foldl (countLedger store seq ledgerAncestors)
        (initialStats H ts)).lookup id = some st → Walked store seq ledgerAncestors n st := by
    intro n hn
    induction n with
    | zero =>
      intro id st hst
      rw [hinitial id st hst]
      exact ⟨.absent, fun _ => le_rfl⟩
    | succ n ih =>
      intro id st hst
      rw [List.range_succ, List.foldl_append] at hst
      exact walked_countLedger hstore hn (ih (by omega)) id st hst
  exact hwalk _ le_rfl id st hst

/-! ### Windows of one score -/

/-- How far a composite is from a score. -/
def apart (p r : ℕ) : ℕ := (p - r) + (r - p)

theorem apart_blend (r p : ℕ) : apart (blend r p) r ≤ max 2 (apart p r - 1) := by
  rw [blend, apart, apart]
  split_ifs <;> omega

theorem settles {bonds : ℕ → ValidatorBond} {windows : ℕ → WindowStats} {seqs : ℕ → UInt32} {r : ℕ}
    (hmult : ∀ n, (bonds n).slashMultiplier.toNat ≤ 10000) (hzero : composite (bonds 0) ≤ 10000)
    (hscore : ∀ n, slashed (windows n) (bonds n).slashMultiplier = r)
    (hrun : ∀ n, composite (bonds (n + 1)) = composite (scoreBond (windows n) (seqs n) (bonds n)))
    (n : ℕ) : composite (bonds n) ≤ 10000 ∧ apart (composite (bonds n)) r ≤ max 2 (10000 - n) := by
  have hr : r ≤ 10000 := hscore 0 ▸ slashed_le (hmult 0)
  induction n with
  | zero =>
    refine ⟨hzero, le_max_of_le_right ?_⟩
    rw [apart]
    omega
  | succ n ih =>
    obtain ⟨hle, hapart⟩ := ih
    have hstep := apart_blend r (composite (bonds n))
    rw [hrun, composite_scoreBond _ (hmult n) hle, hscore]
    exact ⟨blend_le hr hle, by omega⟩

/-! ### Scores react -/

theorem count_le_of_covers {present present' : List Bool} (h : Covers present present') :
    present.count true ≤ present'.count true := by
  induction h with
  | nil => exact le_rfl
  | @cons bit bit' present present' hbit _ ih =>
    rw [List.count_cons, List.count_cons]
    cases bit with
    | true =>
      rw [hbit rfl]
      exact Nat.succ_le_succ ih
    | false => exact ih.trans (Nat.le_add_right _ _)

theorem composite_mono {bond bond' : ValidatorBond} {seq seq' : UInt32}
    (huptime : uptimeBps st ≤ uptimeBps st') (hvote : voteAccBps st ≤ voteAccBps st')
    (hlatency : latencyBps st ≤ latencyBps st')
    (hconsistency : consistencyFromPresence st.present ≤ consistencyFromPresence st'.present)
    (hle : bond.slashMultiplier ≤ bond'.slashMultiplier)
    (hmult : bond'.slashMultiplier.toNat ≤ 10000) (hprevious : composite bond ≤ composite bond')
    (hcomposite : composite bond' ≤ 10000) (hzero : composite bond = 0 ↔ composite bond' = 0) :
    composite (scoreBond st seq bond) ≤ composite (scoreBond st' seq' bond') := by
  have huptime := UInt32.le_iff_toNat_le.mp huptime
  have hvote := UInt32.le_iff_toNat_le.mp hvote
  have hlatency := UInt32.le_iff_toNat_le.mp hlatency
  have hconsistency := UInt32.le_iff_toNat_le.mp hconsistency
  have hle := UInt32.le_iff_toNat_le.mp hle
  have hraw : (rawScore st).toNat ≤ (rawScore st').toNat := by
    rw [rawScore_toNat, rawScore_toNat]
    omega
  rw [composite_scoreBond seq (hle.trans hmult) (hprevious.trans hcomposite),
    composite_scoreBond seq' hmult hcomposite]
  exact blend_mono (Nat.div_le_div_right (Nat.mul_le_mul hraw hle)) hprevious hzero

/-- A composite stays between the score and the one before and below 10000, as the components do,
the counts of a window are those of its marks, scores react to more of what they measure, and windows
of one score bring the composite to within two of it, where it stays. -/
theorem scores_run :
    (∀ st seq bond, bond.slashMultiplier.toNat ≤ 10000 → composite bond ≤ 10000 →
      let scored := scoreBond st seq bond
      (0 < composite bond →
        min (slashed st bond.slashMultiplier) (composite bond) ≤ composite scored ∧
          composite scored ≤ max (slashed st bond.slashMultiplier) (composite bond)) ∧
      composite scored ≤ 10000 ∧ (scored.uptimeBps.getD 0).toNat ≤ 10000 ∧
      (scored.voteAccuracyBps.getD 0).toNat ≤ 10000 ∧
      (scored.latencyScoreBps.getD 0).toNat ≤ 10000 ∧
      (scored.consistencyBps.getD 0).toNat ≤ 10000) ∧
    (∀ store, OnePerNode store → ∀ H seq ledgerAncestors ts id st,
      (windowStats H store seq ledgerAncestors ts).lookup id = some st →
        Counted 256 256 st ∧ (KeptByNumber store seq ledgerAncestors →
          st.correctCount.toNat ≤ st.presenceCount.toNat)) ∧
    (∀ st st', Counted 256 256 st → Counted 256 256 st' →
      (Covers st.present st'.present → uptimeBps st ≤ uptimeBps st' ∧
        consistencyFromPresence st.present ≤ consistencyFromPresence st'.present) ∧
      (st.presenceCount = st'.presenceCount → st.correctCount ≤ st'.correctCount →
        voteAccBps st ≤ voteAccBps st') ∧
      (st.latencySamples = st'.latencySamples → st.latencySumBps ≤ st'.latencySumBps →
        latencyBps st ≤ latencyBps st')) ∧
    (∀ st st' seq seq' bond bond', uptimeBps st ≤ uptimeBps st' → voteAccBps st ≤ voteAccBps st' →
      latencyBps st ≤ latencyBps st' →
      consistencyFromPresence st.present ≤ consistencyFromPresence st'.present →
      bond.slashMultiplier ≤ bond'.slashMultiplier → bond'.slashMultiplier.toNat ≤ 10000 →
      composite bond ≤ composite bond' → composite bond' ≤ 10000 →
      (composite bond = 0 ↔ composite bond' = 0) →
        composite (scoreBond st seq bond) ≤ composite (scoreBond st' seq' bond')) ∧
    (∀ (bonds : ℕ → ValidatorBond) (windows : ℕ → WindowStats) (seqs : ℕ → UInt32) r,
      (∀ n, (bonds n).slashMultiplier.toNat ≤ 10000) → composite (bonds 0) ≤ 10000 →
      (∀ n, slashed (windows n) (bonds n).slashMultiplier = r) →
      (∀ n, composite (bonds (n + 1)) = composite (scoreBond (windows n) (seqs n) (bonds n))) →
        ∀ n, 10000 ≤ n → composite (bonds n) ≤ r + 2 ∧ r ≤ composite (bonds n) + 2) := by
  refine ⟨fun st seq bond hmult hcomposite => ?_, fun store hstore H seq ledgerAncestors ts id st hst =>
    walked_windowStats hstore H seq ledgerAncestors ts hst, fun st st' hst hst' =>
    ⟨fun hcovers => ⟨?_, ?_⟩, voteAccBps_mono hst'.correct, latencyBps_mono ?_⟩, ?_, ?_⟩
  · intro scored
    refine ⟨fun hpositive => ?_, ?_, ?_⟩
    · rw [composite_scoreBond seq hmult hcomposite]
      exact blend_bounds hpositive.ne'
    · rw [composite_scoreBond seq hmult hcomposite]
      exact blend_le (slashed_le hmult) hcomposite
    · simp only [scored, scoreBond, getD_unlessZero]
      exact ⟨uptimeBps_le st, voteAccBps_le st, latencyBps_le st, consistencyFromPresence_le st.present⟩
  · refine uptimeBps_mono hst.length hst'.length hst'.presence_le ?_
    rw [UInt32.le_iff_toNat_le, hst.presence, hst'.presence]
    exact count_le_of_covers hcovers
  · rw [UInt32.le_iff_toNat_le]
    exact consistency_mono (by rw [hst.length]; decide) hcovers
  · rw [hst'.samples]
    exact hst'.latency
  · intro st st' seq seq' bond bond' huptime hvote hlatency hconsistency hle hmult hprevious
    exact composite_mono huptime hvote hlatency hconsistency hle hmult hprevious
  · -- the distance to the score shrinks by one at least until it is two
    intro bonds windows seqs r hmult hzero hscore hrun n hn
    have hapart := (settles hmult hzero hscore hrun n).2
    rw [apart] at hapart
    omega

/-- A bond with a composite. -/
def scoredBond (compositeScore : Option UInt32) : ValidatorBond where
  account := 1
  publicKey := []
  consensusKey := []
  bondedAmount := 0
  bondStatus := .bonded
  uptimeBps := none
  voteAccuracyBps := none
  latencyScoreBps := none
  consistencyBps := none
  slashMultiplier := 10000
  compositeScore := compositeScore
  slashCount := none
  lastClaimedEpoch := none
  unbondingStartLedger := none
  ownerNode := 0
  previousTxnID := 0
  previousTxnLgrSeq := 0

/-- A window with marks for some first ledgers and a right vote of one. -/
def windowOfMarks (n : ℕ) : WindowStats where
  presenceCount := UInt32.ofNat n
  correctCount := 1
  latencySumBps := 10000
  latencySamples := 1
  present := List.replicate n true ++ List.replicate (256 - n) false

theorem counted_windowOfMarks {n : ℕ} (h : n ≤ 256) : Counted 256 256 (windowOfMarks n) where
  length := by
    rw [windowOfMarks, List.length_append, List.length_replicate, List.length_replicate]
    exact Nat.add_sub_cancel' h
  unseen i hi := by
    have hlength : (windowOfMarks n).present.length ≤ i := by
      rw [windowOfMarks, List.length_append, List.length_replicate, List.length_replicate]
      omega
    rw [List.getD_eq_getElem?_getD, List.getElem?_eq_none hlength]
    rfl
  presence := by
    rw [windowOfMarks, List.count_append, List.count_replicate_self, List.count_replicate,
      if_neg (by decide)]
    exact UInt32.toNat_ofNat_of_lt' (h.trans_lt (by decide))
  correct := show (1 : UInt32).toNat ≤ 256 by decide
  samples := rfl
  latency := le_rfl

/-- A store that still holds the votes for a ledger of the window, and no longer those for its
number. -/
def outlived : Validations where
  bySequence := ∅
  byLedger := AList.insert 0 [⟨0, 254, 0, true, 0⟩] ∅

/-- Hashes that are all the same. -/
def sameHashes : Hashes where
  calcValidatorBondID _ := 0
  calcNodeID _ := 0
  validatorBondKey _ := 0
  governanceProposalKey _ _ := 0
  accountNameKey _ := 0
  ticketKey _ _ := 0
  ammKey _ _ := 0
  ammLptCurrency _ _ := 0
  getTreasuryAccountID := 0

theorem onePerNode_outlived : OnePerNode outlived := by
  intro ledgerID vals hvals
  by_cases hzero : ledgerID = 0
  · subst hzero
    rw [outlived, AList.lookup_insert] at hvals
    rw [← Option.some_inj.mp hvals]
    exact List.nodup_singleton _
  · rw [outlived, AList.lookup_insert_ne hzero] at hvals
    cases hvals

theorem covers_windowOfMarks : Covers (windowOfMarks 1).present (windowOfMarks 2).present := by
  have hzip : ∀ p ∈ (windowOfMarks 1).present.zip (windowOfMarks 2).present,
      p.1 = true → p.2 = true := by
    decide +kernel
  exact List.forall₂_iff_zip.mpr ⟨rfl, fun hmem => hzip _ hmem⟩

/-- A window with one vote leaves a composite of 10000 above its own score, one with two marks has the
better uptime, and a composite that is the score stays where it is. -/
theorem scores_run_once :
    4519 ≤ composite (scoreBond (windowOfMarks 1) 256 (scoredBond (some 10000))) ∧
      (∀ st, (windowStats sameHashes outlived 256 (List.replicate 256 0)
        [(1, scoredBond none)]).lookup 0 = some st → Counted 256 256 st) ∧
      uptimeBps (windowOfMarks 1) ≤ uptimeBps (windowOfMarks 2) ∧
      composite (scoredBond (some 4519)) ≤ 4519 + 2 := by
  obtain ⟨hbounds, hcounted, hreact, _, hsettle⟩ := scores_run
  refine ⟨?_, fun st hst => ?_, ?_, ?_⟩
  · exact le_trans (by decide +kernel)
      ((hbounds (windowOfMarks 1) 256 (scoredBond (some 10000)) (by decide) (by decide)).1
        (by decide)).1
  · exact (hcounted outlived onePerNode_outlived _ _ _ _ 0 st hst).1
  · exact ((hreact _ _ (counted_windowOfMarks (by decide))
      (counted_windowOfMarks (by decide))).1 covers_windowOfMarks).1
  · exact (hsettle (fun _ => scoredBond (some 4519)) (fun _ => windowOfMarks 1) (fun _ => 256) 4519
      (fun _ => by decide) (by decide) (fun _ => by decide +kernel) (fun _ => by decide +kernel)
      10000 le_rfl).1

/-- A window with one mark more is scored lower, a composite of one is worth less than none, and a
store may hold more right votes of a node than marks. -/
theorem scores_drop :
    (Counted 256 256 (windowOfMarks 1) ∧ Counted 256 256 (windowOfMarks 2) ∧
      Covers (windowOfMarks 1).present (windowOfMarks 2).present ∧
      composite (scoreBond (windowOfMarks 2) 256 (scoredBond none)) <
        composite (scoreBond (windowOfMarks 1) 256 (scoredBond none))) ∧
    composite (scoreBond (windowOfMarks 1) 256 (scoredBond (some 1))) <
      composite (scoreBond (windowOfMarks 1) 256 (scoredBond none)) ∧
    OnePerNode outlived ∧
    ((windowStats sameHashes outlived 256 (List.replicate 256 0) [(1, scoredBond none)]).lookup
      0).map (fun st => (st.correctCount, st.presenceCount)) = some (1, 0) :=
  ⟨⟨counted_windowOfMarks (by decide), counted_windowOfMarks (by decide),
    covers_windowOfMarks, by decide +kernel⟩, by decide +kernel, onePerNode_outlived,
    by decide +kernel⟩

end FalconLedger.ValidatorScoring
