import FalconLedger.Protocol.NumberExact
import FalconLedger.Protocol.STAmount

/-!
# Binary forms of amounts

A canonical amount is read back from the bytes that `add` writes. The other way round, what is read is
canonical and is written as it was read unless one of three things that the reader lets pass is there: too
many drops, unused bits in the flags of a token amount, or a token amount out of range or a negative zero.
-/

namespace FalconLedger

open Bytes

/-! ### Sixteen digits -/

namespace Number

variable {env : NumberEnv} {m : ℕ} {e : ℤ}

private theorem doRoundUp_empty {g : Guard} {z : Number} {negative : Bool} (hg : g.Empty)
    (hz : Guard.bringIntoRange env negative m e = z) (he : z.exponent ≤ kMaxExponent) :
    g.doRoundUp env negative m e = some z := by
  rw [Guard.doRoundUp]
  simp only [hg.rounds, Bool.false_eq_true, if_false, hz]
  exact if_neg (not_lt.mpr he)

private theorem scaleUp_mul {least n k : ℕ} (hk : k ≤ n) (hmin : least ≤ m * 10 ^ k)
    (hmax : m * 10 ^ k < least * 10) (he : kMinExponent + k ≤ e) :
    scaleUp least n m e = (m * 10 ^ k, e - k) := by
  induction k generalizing n m e with
  | zero =>
    rw [pow_zero, mul_one] at hmin ⊢
    rw [Nat.cast_zero, sub_zero]
    cases n with
    | zero => rfl
    | succ n => rw [scaleUp, if_neg fun hlt => absurd hlt.1 (not_lt.mpr hmin)]
  | succ k ih =>
    obtain ⟨n, rfl⟩ : ∃ n', n = n' + 1 := ⟨n - 1, by omega⟩
    have hpow : m * 10 ^ (k + 1) = m * 10 * 10 ^ k := by ring
    have hlt : m < least := by
      have hge : m * 10 ≤ m * 10 * 10 ^ k := Nat.le_mul_of_pos_right _ (by positivity)
      omega
    push_cast at he ⊢
    rw [scaleUp, if_pos ⟨hlt, by omega⟩, ih (by omega) (hpow ▸ hmin) (hpow ▸ hmax) (by omega), hpow]
    congr 1
    omega

private theorem scaleDown_mul (most : ℕ) {n k : ℕ} {g : Guard} (hk : k ≤ n) (hg : g.Empty)
    (hmax : m ≤ most) (hmin : most < m * 10) :
    ∃ g', scaleDown most n (m * 10 ^ k) (e - k) g = (m, e, g') ∧ g'.Empty := by
  induction k generalizing n g with
  | zero =>
    refine ⟨g, ?_, hg⟩
    rw [pow_zero, mul_one, Nat.cast_zero, sub_zero]
    cases n with
    | zero => rfl
    | succ n => rw [scaleDown, if_neg (not_lt.mpr hmax)]
  | succ k ih =>
    obtain ⟨n, rfl⟩ : ∃ n', n = n' + 1 := ⟨n - 1, by omega⟩
    have hpow : m * 10 ^ (k + 1) = m * 10 ^ k * 10 := by ring
    have hlt : most < m * 10 ^ (k + 1) := by
      have hge : m * 10 ≤ m * 10 * 10 ^ k := Nat.le_mul_of_pos_right _ (by positivity)
      rw [pow_succ', ← mul_assoc]
      omega
    have hexp : e - (k + 1 : ℕ) + 1 = e - k := by
      push_cast
      ring
    rw [scaleDown, if_pos hlt, hpow, Nat.mul_div_cancel _ (by decide), Nat.mul_mod_left, hexp]
    exact ih (by omega) hg.push

theorem normalize_scaled (env : NumberEnv) (negative : Bool) {i : ℕ} (hmin : 10 ^ 15 ≤ m * 10 ^ i)
    (hmax : m * 10 ^ i < 10 ^ 16) (he : kMinExponent + 3 ≤ e) :
    normalize env negative m (e + i) = normalize env negative (m * 10 ^ i) e := by
  have hm : m ≠ 0 := by
    rintro rfl
    rw [zero_mul] at hmin
    omega
  have hi : i < 16 := by
    have hle : 10 ^ i ≤ m * 10 ^ i := Nat.le_mul_of_pos_left _ (Nat.pos_of_ne_zero hm)
    exact (Nat.pow_lt_pow_iff_right (by decide)).mp (hle.trans_lt hmax)
  have hscale : scaleUp env.scale.min digitsMax m (e + i) =
      scaleUp env.scale.min digitsMax (m * 10 ^ i) e := by
    have hdigits : digitsMax = 39 := rfl
    cases env.scale with
    | small =>
      have hleast : MantissaScale.small.min = 10 ^ 15 := by decide
      have hzeros : scaleUp (10 ^ 15) digitsMax m (e + i) = (m * 10 ^ i, e + i - i) :=
        scaleUp_mul (by omega) hmin (by omega) (by omega)
      have hnone : scaleUp (10 ^ 15) digitsMax (m * 10 ^ i) e = (m * 10 ^ i * 10 ^ 0, e - (0 : ℕ)) :=
        scaleUp_mul (by omega) (by omega) (by omega) (by push_cast; omega)
      rw [hleast, hzeros, hnone, pow_zero, mul_one, Nat.cast_zero, sub_zero, add_sub_cancel_right]
    | large =>
      have hleast : MantissaScale.large.min = 10 ^ 18 := by decide
      have hpow : m * 10 ^ (i + 3) = m * 10 ^ i * 10 ^ 3 := by ring
      have hzeros : scaleUp (10 ^ 18) digitsMax m (e + i) = (m * 10 ^ (i + 3), e + i - (i + 3 : ℕ)) :=
        scaleUp_mul (by omega) (by omega) (by omega) (by push_cast; omega)
      have hthree : scaleUp (10 ^ 18) digitsMax (m * 10 ^ i) e = (m * 10 ^ i * 10 ^ 3, e - (3 : ℕ)) :=
        scaleUp_mul (by omega) (by omega) (by omega) (by push_cast; omega)
      rw [hleast, hzeros, hthree, hpow]
      congr 1
      push_cast
      ring
  rw [normalize, normalize, if_neg hm, if_neg (by positivity), hscale]

theorem normalize_small (mode : RoundingMode) (negative : Bool) {k : ℕ} (hk : k ≤ digitsMax)
    (hmin : 10 ^ 15 ≤ m) (hmax : m < 10 ^ 16) (he : kMinExponent ≤ e) (he' : e ≤ kMaxExponent) :
    normalize ⟨mode, .small⟩ negative (m * 10 ^ k) (e - k) = some ⟨negative, m, e⟩ := by
  have hleast : MantissaScale.small.min = 10 ^ 15 := by decide
  have hmost : MantissaScale.small.max = 10 ^ 16 - 1 := by decide
  have hrep : ¬kMaxRep < m := by
    have : kMaxRep = 9223372036854775807 := rfl
    omega
  have hpos : m * 10 ^ k ≠ 0 := by positivity
  have hup : scaleUp MantissaScale.small.min digitsMax (m * 10 ^ k) (e - k) =
      (m * 10 ^ k, e - k) := by
    have hge : 10 ^ 15 ≤ m * 10 ^ k := hmin.trans (Nat.le_mul_of_pos_right _ (by positivity))
    rw [digitsMax, scaleUp, if_neg fun hlt => absurd hlt.1 (not_lt.mpr (hleast ▸ hge))]
  obtain ⟨g, hdown, hg⟩ := scaleDown_mul MantissaScale.small.max (e := e) (m := m)
    (g := { sbit := negative }) hk ⟨rfl, rfl⟩ (by omega) (by omega)
  rw [normalize, if_neg hpos, hup]
  simp only [hdown]
  have hnormal : ¬(e < kMinExponent ∨ m < MantissaScale.small.min) := by omega
  rw [if_neg (not_lt.mpr he'), if_neg hnormal, if_neg hrep]
  refine doRoundUp_empty hg ?_ he'
  rw [Guard.bringIntoRange, if_neg (show ¬m < MantissaScale.small.min by omega)]
  exact if_neg (not_lt.mpr he)

theorem normalize_large (mode : RoundingMode) (negative : Bool) (hmin : 10 ^ 15 ≤ m)
    (hmax : m < 10 ^ 16) (he : kMinExponent + 3 ≤ e) (he' : e ≤ kMaxExponent) :
    normalize ⟨mode, .large⟩ negative m e = some ⟨negative, m * 10 ^ 3, e - (3 : ℕ)⟩ := by
  have hleast : MantissaScale.large.min = 10 ^ 18 := by decide
  have hmost : MantissaScale.large.max = 10 ^ 19 - 1 := by decide
  have hup : scaleUp MantissaScale.large.min digitsMax m e = (m * 10 ^ 3, e - (3 : ℕ)) :=
    scaleUp_mul (by decide) (by omega) (by omega) (by push_cast; omega)
  have hdown : scaleDown MantissaScale.large.max digitsMax (m * 10 ^ 3) (e - (3 : ℕ))
      { sbit := negative } = (m * 10 ^ 3, e - (3 : ℕ), { sbit := negative }) := by
    rw [digitsMax, scaleDown, if_neg (by omega)]
  rw [normalize, if_neg (by omega : ¬m = 0), hup]
  simp only [hdown]
  have hnormal : ¬(e - (3 : ℕ) < kMinExponent ∨ m * 10 ^ 3 < MantissaScale.large.min) := by omega
  rw [if_neg (by omega : ¬kMaxExponent < e - (3 : ℕ)), if_neg hnormal]
  by_cases hrep : kMaxRep < m * 10 ^ 3
  · -- the last zero goes to the guard while the rounding is done
    have hmod : m * 10 ^ 3 % 10 = 0 := by omega
    have hdiv : m * 10 ^ 3 / 10 < MantissaScale.large.min := by omega
    have hback : m * 10 ^ 3 / 10 * 10 = m * 10 ^ 3 := by omega
    rw [if_pos hrep, if_neg (by omega : ¬kMaxExponent ≤ e - (3 : ℕ)), hmod]
    refine doRoundUp_empty (Guard.Empty.push ⟨rfl, rfl⟩) ?_ (by dsimp only; omega)
    rw [Guard.bringIntoRange, if_pos hdiv, hback, add_sub_cancel_right]
    exact if_neg (by omega)
  · rw [if_neg hrep]
    refine doRoundUp_empty ⟨rfl, rfl⟩ ?_ (by dsimp only; omega)
    rw [Guard.bringIntoRange, if_neg (show ¬m * 10 ^ 3 < MantissaScale.large.min by omega)]
    exact if_neg (by omega)

end Number

namespace Wire.STAmount

variable {env : AmountEnv} {a : STAmount}

/-! ### Canonical amounts -/

/-- The amounts that have a form of their own. -/
def Canonical (a : STAmount) : Prop :=
  match a.asset with
  | .xrp => a.offset = 0 ∧ a.value ≤ kMaxNativeN ∧ (a.value = 0 → a.isNegative = false)
  | .mpt _ => a.offset = 0 ∧ a.value ≤ kMaxMPTokenAmount ∧ (a.value = 0 → a.isNegative = false)
  | .issue currency account => currency ≠ 0 ∧ account ≠ 0 ∧
    ((a.value = 0 ∧ a.offset = -100 ∧ a.isNegative = false) ∨
      (kMinValue ≤ a.value ∧ a.value ≤ kMaxValue ∧ kMinOffset ≤ a.offset ∧ a.offset ≤ kMaxOffset))

instance (a : STAmount) : Decidable a.Canonical := by
  unfold Canonical
  split <;> infer_instance

theorem canonicalize_of_range (env : AmountEnv) (hmin : kMinValue ≤ a.value)
    (hmax : a.value ≤ kMaxValue) (hlow : kMinOffset ≤ a.offset) (hhigh : a.offset ≤ kMaxOffset) :
    canonicalize env a = some a := by
  have hvalue : a.value ≠ 0 := by
    have : kMinValue = 1000000000000000 := rfl
    omega
  have hdigits : 10 ^ 15 ≤ a.value ∧ a.value < 10 ^ 16 := by
    have h₁ : kMinValue = 10 ^ 15 := by decide
    have h₂ : kMaxValue = 10 ^ 16 - 1 := by decide
    omega
  have hexp : Number.kMinExponent + 3 ≤ a.offset ∧ a.offset ≤ Number.kMaxExponent := by
    have h₁ : kMinOffset = -96 := rfl
    have h₂ : kMaxOffset = 80 := rfl
    have h₃ : Number.kMinExponent = -32768 := rfl
    have h₄ : Number.kMaxExponent = 32768 := rfl
    omega
  rw [canonicalize]
  by_cases hswitch : env.switchover = true
  · have hnumber : ∃ v, Number.normalize env.number a.isNegative a.value a.offset = some v ∧
        Number.normalize { env.number with scale := .small } v.negative v.mantissa v.exponent =
          some ⟨a.isNegative, a.value, a.offset⟩ := by
      obtain ⟨switchover, mode, scale⟩ := env
      have hback := fun k hk => Number.normalize_small (k := k) mode a.isNegative hk hdigits.1
        hdigits.2 (by omega) hexp.2
      cases scale with
      | small =>
        have h := hback 0 (by decide)
        rw [pow_zero, mul_one, Nat.cast_zero, sub_zero] at h
        exact ⟨_, h, h⟩
      | large =>
        exact ⟨_, Number.normalize_large mode a.isNegative hdigits.1 hdigits.2 hexp.1 hexp.2,
          hback 3 (by decide)⟩
    obtain ⟨v, hv, hr⟩ := hnumber
    rw [if_pos hswitch, viaNumber, if_neg hvalue, hv]
    simp only [Option.bind_eq_bind, Option.bind_some, hr]
    rw [if_neg (not_lt.mpr hhigh), if_neg (not_lt.mpr hlow)]
  · have hup : scaleUp a.value a.offset = (a.value, a.offset) := by
      rw [scaleUp, if_neg fun h => absurd h.1 (not_lt.mpr hmin)]
    have hdown : scaleDown a.value a.offset = some (a.value, a.offset) := by
      rw [scaleDown, if_neg (not_lt.mpr hmax)]
    rw [if_neg hswitch, if_neg hvalue, hup]
    simp only [hdown]
    rw [if_neg (not_or.mpr ⟨not_lt.mpr hlow, not_lt.mpr hmin⟩), if_neg (not_lt.mpr hhigh)]

theorem canonicalize_zero (env : AmountEnv) (h : a.value = 0) :
    canonicalize env a = some a.zeroIssued := by
  rw [canonicalize, viaNumber, if_pos h, if_pos h, ite_self]

/-! ### Words -/

theorem issued_eq_some {asset : Asset} {word : ℕ} {x : STAmount}
    (h : issued env asset word = some x) :
    (word = kIssuedCurrency ∧ x = ⟨asset, 0, -100, false⟩) ∨
      ∃ value offset isNegative, x = ⟨asset, value, offset, isNegative⟩ ∧ kMinValue ≤ value ∧
        value ≤ kMaxValue ∧ kMinOffset ≤ offset ∧ offset ≤ kMaxOffset ∧ value = word % 2 ^ 54 ∧
        (isNegative = !(word / 2 ^ 54).testBit 8) ∧ offset = (word / 2 ^ 54 % 256 : ℕ) - 97 := by
  rw [issued] at h
  dsimp only at h
  by_cases hvalue : word % 2 ^ 54 ≠ 0
  · rw [if_pos hvalue] at h
    split_ifs at h with hrange
    simp only [not_or, not_lt] at hrange
    obtain ⟨hmin, hmax, hlow, hhigh⟩ := hrange
    rw [canonicalize_of_range env hmin hmax hlow hhigh] at h
    exact .inr ⟨_, _, _, (Option.some.inj h).symm, hmin, hmax, hlow, hhigh, rfl, rfl, rfl⟩
  · rw [if_neg hvalue] at h
    split_ifs at h with hoffset
    rw [canonicalize_zero env rfl] at h
    refine .inl ⟨?_, (Option.some.inj h).symm⟩
    have : kIssuedCurrency = 2 ^ 63 := rfl
    omega

theorem or_topBits {value : ℕ} {flags : ℤ} (hvalue : value < 2 ^ 54) (hlow : 0 ≤ flags)
    (hhigh : flags < 1024) : value ||| topBits flags = flags.toNat * 2 ^ 54 + value := by
  have htop : topBits flags = 2 ^ 54 * flags.toNat := by
    rw [topBits]
    omega
  rw [htop, Nat.or_comm, ← Nat.two_pow_add_eq_or_of_lt hvalue, Nat.mul_comm]

/-- The ten bits in front of a mantissa, from an exponent in range. -/
def flagsOf (offset : ℤ) (isNegative : Bool) : ℤ :=
  offset + 512 + (if isNegative then 0 else 256) + 97

theorem flagsOf_spec {offset : ℤ} (isNegative : Bool) (hlow : kMinOffset ≤ offset)
    (hhigh : offset ≤ kMaxOffset) :
    0 ≤ flagsOf offset isNegative ∧ flagsOf offset isNegative < 1024 ∧
      512 ≤ flagsOf offset isNegative ∧
      (flagsOf offset isNegative).toNat.testBit 8 = !isNegative ∧
      (((flagsOf offset isNegative).toNat % 256 : ℕ) : ℤ) - 97 = offset := by
  have h₁ : kMinOffset = -96 := rfl
  have h₂ : kMaxOffset = 80 := rfl
  rw [Nat.testBit_eq_decide_div_mod_eq, flagsOf]
  cases isNegative <;> simp <;> omega

theorem add_issued {currency : Currency} {account : AccountID} {value : ℕ} {offset : ℤ}
    (isNegative : Bool) (hmin : kMinValue ≤ value) (hmax : value ≤ kMaxValue)
    (hlow : kMinOffset ≤ offset) (hhigh : offset ≤ kMaxOffset) :
    add ⟨.issue currency account, value, offset, isNegative⟩ =
      toBE 8 ((flagsOf offset isNegative).toNat * 2 ^ 54 + value) ++ toBE 20 currency.toNat ++
        toBE 20 account.toNat := by
  have h₁ : kMinValue = 10 ^ 15 := by decide
  have h₂ : kMaxValue = 10 ^ 16 - 1 := by decide
  obtain ⟨hflags, hflags', -⟩ := flagsOf_spec isNegative hlow hhigh
  rw [← or_topBits (by omega) hflags hflags', add]
  dsimp only
  rw [if_neg (by omega : ¬value = 0)]
  cases isNegative
  · rfl
  · simp [flagsOf]

theorem issued_word (env : AmountEnv) (asset : Asset) {value : ℕ} {offset : ℤ} (isNegative : Bool)
    (hmin : kMinValue ≤ value) (hmax : value ≤ kMaxValue) (hlow : kMinOffset ≤ offset)
    (hhigh : offset ≤ kMaxOffset) :
    issued env asset ((flagsOf offset isNegative).toNat * 2 ^ 54 + value) =
      some ⟨asset, value, offset, isNegative⟩ := by
  have h₁ : kMinValue = 10 ^ 15 := by decide
  have h₂ : kMaxValue = 10 ^ 16 - 1 := by decide
  obtain ⟨-, -, -, hsign, hoffset⟩ := flagsOf_spec isNegative hlow hhigh
  have hdiv : ((flagsOf offset isNegative).toNat * 2 ^ 54 + value) / 2 ^ 54 =
      (flagsOf offset isNegative).toNat := by omega
  have hmod : ((flagsOf offset isNegative).toNat * 2 ^ 54 + value) % 2 ^ 54 = value := by omega
  rw [issued]
  simp only [hdiv, hmod, hsign, hoffset, Bool.not_not]
  rw [if_pos (by omega), if_neg (by omega)]
  exact canonicalize_of_range env hmin hmax hlow hhigh

/-! ### Reading back -/

/-- The word of a native amount. -/
def nativeWord (value : ℕ) (isNegative : Bool) : ℕ := value + if isNegative then 0 else 2 ^ 62

theorem nativeWord_spec {value : ℕ} (isNegative : Bool) (h : value < 2 ^ 61) :
    nativeWord value isNegative < 256 ^ 8 ∧ (nativeWord value isNegative).testBit 63 = false ∧
      (nativeWord value isNegative).testBit 62 = !isNegative ∧
      (nativeWord value isNegative).testBit 61 = false ∧
      nativeWord value isNegative % 2 ^ 61 = value := by
  simp only [Nat.testBit_eq_decide_div_mod_eq, nativeWord]
  cases isNegative
  · simp only [Bool.false_eq_true, if_false, Bool.not_false, decide_eq_true_iff,
      decide_eq_false_iff_not]
    omega
  · simp only [if_true, Nat.add_zero, Bool.not_true, decide_eq_false_iff_not]
    omega

theorem add_native {value : ℕ} (isNegative : Bool) (h : value < 2 ^ 61) :
    add ⟨.xrp, value, 0, isNegative⟩ = toBE 8 (nativeWord value isNegative) := by
  rw [add, nativeWord]
  cases isNegative
  · have hor : value ||| kPositive = value + 2 ^ 62 := by
      rw [Nat.or_comm, kPositive, Nat.add_comm]
      exact (Nat.two_pow_add_eq_or_of_lt (i := 62) (by omega) 1).symm
    simp only [Bool.false_eq_true, if_false, hor]
  · rfl

theorem readNative_word {value : ℕ} {isNegative : Bool} (h : value < 2 ^ 61)
    (hzero : value = 0 → isNegative = false) :
    readNative (nativeWord value isNegative) = some ⟨.xrp, value, 0, isNegative⟩ := by
  obtain ⟨-, -, hsign, -, hmod⟩ := nativeWord_spec isNegative h
  rw [readNative, hsign, hmod]
  cases isNegative
  · rfl
  · have hne : nativeWord value true ≠ 0 := fun h => absurd (hzero h) (by decide)
    rw [if_neg (by decide), if_neg hne]

theorem read_native (env : AmountEnv) {value : ℕ} {isNegative : Bool} (h : value < 2 ^ 61)
    (hzero : value = 0 → isNegative = false) :
    Inverts (read env) (add ⟨.xrp, value, 0, isNegative⟩) ⟨.xrp, value, 0, isNegative⟩ := by
  obtain ⟨hlt, h63, -, h61, -⟩ := nativeWord_spec isNegative h
  rw [add_native isNegative h, ← List.append_nil (toBE 8 _), read]
  refine (getBE_inverts hlt).bind ?_
  rw [h63, h61]
  intro bs
  simp only [Bool.false_eq_true, not_false_eq_true, if_true, if_false, readNative_word h hzero,
    Option.map_some, List.nil_append]

theorem read_issued (env : AmountEnv) {currency : Currency} {account : AccountID} {word : ℕ}
    {x : STAmount} (hcurrency : currency ≠ 0) (haccount : account ≠ 0) (hword : word < 256 ^ 8)
    (h63 : word.testBit 63 = true) (h : issued env (.issue currency account) word = some x) :
    Inverts (read env) (toBE 8 word ++ (toBE 20 currency.toNat ++ toBE 20 account.toNat)) x := by
  have hne : ∀ n : BitVec 160, n ≠ 0 → n.toNat ≠ 0 := by
    intro n hn hzero
    exact hn (BitVec.eq_of_toNat_eq hzero)
  have hlt : ∀ n : BitVec 160, n.toNat < 256 ^ 20 := fun n => n.isLt
  rw [read]
  refine (getBE_inverts hword).bind ?_
  rw [h63]
  simp only [not_true_eq_false, if_false]
  rw [readIssued]
  refine (getBE_inverts (hlt currency)).bind ?_
  rw [if_neg (hne currency hcurrency)]
  refine (getBE_inverts (hlt account)).filterMap ?_
  rw [if_neg (hne account haccount), BitVec.ofNat_toNat, BitVec.ofNat_toNat, BitVec.setWidth_eq,
    BitVec.setWidth_eq, h]

/-! ### Token amounts -/

theorem cons_toBE (flags value : ℕ) (hflags : flags < 256) (hvalue : value < 2 ^ 64) :
    byte flags :: toBE 8 value = toBE 8 (flags * 2 ^ 56 + value / 256) ++ [byte (value % 256)] := by
  have hlength : (byte flags :: toBE 8 value).length = 9 := by
    rw [List.length_cons, length_toBE]
  have hlength' : (toBE 8 (flags * 2 ^ 56 + value / 256) ++ [byte (value % 256)]).length = 9 := by
    rw [List.length_append, length_toBE]
    rfl
  rw [← toBE_ofBE (byte flags :: toBE 8 value), ← toBE_ofBE (toBE 8 _ ++ [byte (value % 256)]),
    hlength, hlength']
  congr 1
  rw [ofBE_cons, length_toBE, ofBE_toBE (by omega), byte_toNat hflags, ofBE_append, ofBE_toBE (by omega)]
  change _ = _ * 256 ^ 1 + (256 * 0 + (byte (value % 256)).toNat)
  rw [byte_toNat (by omega)]
  omega

/-- The flags of a token amount. -/
def flagsOfMPT (isNegative : Bool) : ℕ := if isNegative then 32 else 96

theorem add_mpt (id : MPTID) (value : ℕ) (isNegative : Bool) :
    add ⟨.mpt id, value, 0, isNegative⟩ =
      byte (flagsOfMPT isNegative) :: (toBE 8 value ++ toBE 24 id.toNat) := by
  rw [add, flagsOfMPT]
  cases isNegative <;> rfl

theorem shift_or {word b : ℕ} (hb : b < 256) :
    word * 2 ^ 8 % 2 ^ 64 ||| b = word % 2 ^ 56 * 256 + b := by
  have hshift : word * 2 ^ 8 % 2 ^ 64 = 2 ^ 8 * (word % 2 ^ 56) := by omega
  rw [hshift, ← Nat.two_pow_add_eq_or_of_lt (by omega)]
  omega

theorem flags_word (flags : ℕ) {high : ℕ} (hhigh : high < 2 ^ 56) :
    (flags * 2 ^ 56 + high) / 2 ^ 56 = flags ∧ (flags * 2 ^ 56 + high) % 2 ^ 56 = high ∧
      ∀ i, (flags * 2 ^ 56 + high).testBit (i + 56) = flags.testBit i := by
  refine ⟨by omega, by omega, fun i => ?_⟩
  rw [← Nat.testBit_div_two_pow, show (flags * 2 ^ 56 + high) / 2 ^ 56 = flags by omega]

theorem get8_inverts {b : ℕ} (hb : b < 256) : Inverts get8 [byte b] b := by
  intro rest
  rw [List.cons_append, List.nil_append, get8, byte_toNat hb]

theorem read_mpt (env : AmountEnv) (id : MPTID) {value : ℕ} (isNegative : Bool)
    (h : value < 2 ^ 64) :
    Inverts (read env) (add ⟨.mpt id, value, 0, isNegative⟩) ⟨.mpt id, value, 0, isNegative⟩ := by
  have hflags : flagsOfMPT isNegative < 256 := by cases isNegative <;> decide
  have hid : id.toNat < 256 ^ 24 := id.isLt
  obtain ⟨-, hmod, hbit⟩ := flags_word (flagsOfMPT isNegative)
    (by omega : value / 256 < 2 ^ 56)
  have h63 := hbit 7
  have h62 := hbit 6
  have h61 := hbit 5
  rw [add_mpt, ← List.cons_append, cons_toBE _ _ hflags h, List.append_assoc, read]
  refine (getBE_inverts (by omega)).bind ?_
  rw [h63, h61, (by cases isNegative <;> decide : (flagsOfMPT isNegative).testBit 7 = false),
    (by cases isNegative <;> decide : (flagsOfMPT isNegative).testBit 5 = true)]
  simp only [Bool.false_eq_true, not_false_eq_true, if_true]
  rw [readMPT]
  refine (get8_inverts (by omega)).bind ((getBE_inverts hid).filterMap ?_)
  rw [shift_or (by omega), hmod, h62, BitVec.ofNat_toNat, BitVec.setWidth_eq,
    (by cases isNegative <;> decide : (!(flagsOfMPT isNegative).testBit 6) = isNegative),
    (by omega : value / 256 * 256 + value % 256 = value)]

/-! ### What is read -/

theorem bind_eq_some {α β : Type} {p : Parser α} {f : α → Parser β}
    {bs rest : List UInt8} {y : β} (h : p.bind f bs = some (y, rest)) :
    ∃ x bs', p bs = some (x, bs') ∧ f x bs' = some (y, rest) := by
  obtain ⟨⟨x, bs'⟩, hp, hf⟩ := Option.bind_eq_some_iff.mp h
  exact ⟨x, bs', hp, hf⟩

/-- The three forms of an amount. -/
inductive Form (env : AmountEnv) : Blob → STAmount → Prop
  | native (value : ℕ) (isNegative : Bool) (hvalue : value < 2 ^ 61)
      (hzero : value = 0 → isNegative = false) :
      Form env (toBE 8 (nativeWord value isNegative)) ⟨.xrp, value, 0, isNegative⟩
  | mpt (flags value : ℕ) (id : MPTID) (hflags : flags < 128) (hbit : flags.testBit 5 = true)
      (hvalue : value < 2 ^ 64) :
      Form env (byte flags :: (toBE 8 value ++ toBE 24 id.toNat))
        ⟨.mpt id, value, 0, !flags.testBit 6⟩
  | issued (word : ℕ) (currency : Currency) (account : AccountID) (x : STAmount)
      (hword : word < 2 ^ 64) (hbit : word.testBit 63 = true) (hcurrency : currency ≠ 0)
      (haccount : account ≠ 0) (hx : issued env (.issue currency account) word = some x) :
      Form env (toBE 8 word ++ (toBE 20 currency.toNat ++ toBE 20 account.toNat)) x

theorem filterMap_eq_some {α β : Type} {p : Parser α} {f : α → Option β} {bs rest : Blob} {y : β}
    (h : p.filterMap f bs = some (y, rest)) : ∃ x, p bs = some (x, rest) ∧ f x = some y := by
  obtain ⟨⟨x, bs'⟩, hp, hf⟩ := Option.bind_eq_some_iff.mp h
  obtain ⟨y', hy, heq⟩ := Option.map_eq_some_iff.mp hf
  cases heq
  exact ⟨x, hp, hy⟩

theorem native_form {env : AmountEnv} {word : ℕ} {x : STAmount} (hlt : word < 2 ^ 64)
    (h63 : word.testBit 63 = false) (h61 : word.testBit 61 = false)
    (h : readNative word = some x) : Form env (toBE 8 word) x := by
  simp only [readNative, Nat.testBit_eq_decide_div_mod_eq, decide_eq_true_iff,
    decide_eq_false_iff_not] at h h63 h61
  split_ifs at h with hsign hzero
  · have hword : word = nativeWord (word % 2 ^ 61) false := by
      simp only [nativeWord, Bool.false_eq_true, if_false]
      omega
    have hform : Form env _ _ := .native (word % 2 ^ 61) false (by omega) fun _ => rfl
    rwa [← hword, Option.some.inj h] at hform
  · have hword : word = nativeWord (word % 2 ^ 61) true := by
      simp only [nativeWord, if_true]
      omega
    have hform : Form env _ _ := .native (word % 2 ^ 61) true (by omega) fun h0 => by omega
    rwa [← hword, Option.some.inj h] at hform

theorem mpt_form {env : AmountEnv} {word : ℕ} {bs rest : Blob} {x : STAmount} (hlt : word < 2 ^ 64)
    (h63 : word.testBit 63 = false) (h61 : word.testBit 61 = true)
    (h : readMPT word bs = some (x, rest)) :
    ∃ front, toBE 8 word ++ bs = front ++ rest ∧ Form env front x := by
  obtain ⟨b, bs', hb, hrest⟩ := bind_eq_some h
  obtain ⟨id, hid, heq⟩ := filterMap_eq_some hrest
  obtain ⟨hidlt, rfl⟩ := getBE_eq_some hid
  cases bs with
  | nil => cases hb
  | cons c bs =>
    cases hb
    have hc : c.toNat < 256 := c.toNat_lt
    have hbyte : byte ((word % 2 ^ 56 * 256 + c.toNat) % 256) = c := by
      rw [byte, show (word % 2 ^ 56 * 256 + c.toNat) % 256 = c.toNat by omega, UInt8.ofNat_toNat]
    have hword : word / 2 ^ 56 * 2 ^ 56 + (word % 2 ^ 56 * 256 + c.toNat) / 256 = word := by omega
    obtain ⟨-, -, hbit⟩ := flags_word (word / 2 ^ 56)
      (by omega : (word % 2 ^ 56 * 256 + c.toNat) / 256 < 2 ^ 56)
    rw [hword] at hbit
    have hbytes := cons_toBE (word / 2 ^ 56) (word % 2 ^ 56 * 256 + c.toNat)
      (by omega) (by omega)
    rw [hbyte, hword] at hbytes
    have hflags : word / 2 ^ 56 < 128 := by
      rw [Nat.testBit_eq_decide_div_mod_eq, decide_eq_false_iff_not] at h63
      omega
    have hid' : (BitVec.ofNat 192 id).toNat = id := by
      rw [BitVec.toNat_ofNat]
      exact Nat.mod_eq_of_lt hidlt
    refine ⟨byte (word / 2 ^ 56) :: (toBE 8 (word % 2 ^ 56 * 256 + c.toNat) ++
      toBE 24 (BitVec.ofNat 192 id).toNat), ?_, ?_⟩
    · calc toBE 8 word ++ (c :: (toBE 24 id ++ rest))
          = (toBE 8 word ++ [c]) ++ (toBE 24 id ++ rest) := by simp
        _ = _ := by rw [← hbytes, hid']; simp
    · rw [shift_or hc, show word.testBit 62 = (word / 2 ^ 56).testBit 6 from hbit 6] at heq
      rw [← Option.some.inj heq]
      exact .mpt _ _ _ hflags (h61 ▸ (hbit 5).symm) (by omega)

theorem issued_form {env : AmountEnv} {word : ℕ} {bs rest : Blob} {x : STAmount}
    (hlt : word < 2 ^ 64) (h63 : word.testBit 63 = true)
    (h : readIssued env word bs = some (x, rest)) :
    ∃ front, toBE 8 word ++ bs = front ++ rest ∧ Form env front x := by
  obtain ⟨currency, bs', hcurrency, hrest⟩ := bind_eq_some h
  obtain ⟨hcurrencylt, rfl⟩ := getBE_eq_some hcurrency
  split_ifs at hrest with hc
  obtain ⟨account, haccount, hissued⟩ := filterMap_eq_some hrest
  obtain ⟨haccountlt, rfl⟩ := getBE_eq_some haccount
  split_ifs at hissued with ha
  have htoNat : ∀ n : ℕ, n < 256 ^ 20 → (BitVec.ofNat 160 n).toNat = n := by
    intro n hn
    rw [BitVec.toNat_ofNat]
    exact Nat.mod_eq_of_lt hn
  have hne : ∀ n : ℕ, n < 256 ^ 20 → n ≠ 0 → BitVec.ofNat 160 n ≠ 0 := by
    intro n hn hn0 heq
    apply hn0
    rw [← htoNat n hn, heq]
    rfl
  refine ⟨_, ?_, .issued word (BitVec.ofNat 160 currency) (BitVec.ofNat 160 account) x hlt h63
    (hne _ hcurrencylt hc) (hne _ haccountlt ha) hissued⟩
  rw [htoNat _ hcurrencylt, htoNat _ haccountlt]
  simp

theorem form_of_read {env : AmountEnv} {bs rest : Blob} {x : STAmount}
    (h : read env bs = some (x, rest)) : ∃ front, bs = front ++ rest ∧ Form env front x := by
  obtain ⟨word, bs', hword, hrest⟩ := bind_eq_some h
  obtain ⟨hlt, rfl⟩ := getBE_eq_some hword
  split_ifs at hrest with h63 h61
  · exact issued_form hlt h63 hrest
  · exact mpt_form hlt (Bool.eq_false_iff.mpr h63) h61 hrest
  · obtain ⟨y, hy, heq⟩ := Option.map_eq_some_iff.mp hrest
    cases heq
    exact ⟨_, rfl, native_form hlt (Bool.eq_false_iff.mpr h63) (Bool.eq_false_iff.mpr h61) hy⟩

/-! ### The exact forms -/

/-- The bytes that stand for their amount in its one form: not more drops than there are, and for a token
no unused flag, a value in range and no negative zero. -/
def ExactForm (bs : Blob) : Prop :=
  let word := ofBE (bs.take 8)
  if word.testBit 63 then True
  else if word.testBit 61 then
    let value := ofBE ((bs.drop 1).take 8)
    word / 2 ^ 56 % 32 = 0 ∧ value ≤ kMaxMPTokenAmount ∧ (word.testBit 62 ∨ value ≠ 0)
  else word % 2 ^ 61 ≤ kMaxNativeN

instance (bs : Blob) : Decidable (ExactForm bs) := by
  unfold ExactForm
  dsimp only
  split
  · infer_instance
  · split <;> infer_instance

theorem take_toBE (n : ℕ) (bs : Blob) : (toBE 8 n ++ bs).take 8 = toBE 8 n :=
  List.take_left' (length_toBE 8 n)

theorem exactForm_native {value : ℕ} (isNegative : Bool) (rest : Blob) (h : value < 2 ^ 61) :
    ExactForm (toBE 8 (nativeWord value isNegative) ++ rest) ↔ value ≤ kMaxNativeN := by
  obtain ⟨hlt, h63, -, h61, hmod⟩ := nativeWord_spec isNegative h
  rw [ExactForm]
  simp only [take_toBE, ofBE_toBE hlt, h63, h61, hmod, Bool.false_eq_true, if_false]

theorem exactForm_issued {word : ℕ} (rest : Blob) (h : word < 2 ^ 64)
    (h63 : word.testBit 63 = true) : ExactForm (toBE 8 word ++ rest) := by
  rw [ExactForm]
  simp only [take_toBE, ofBE_toBE (w := 8) h, h63, if_true]

theorem exactForm_mpt {flags value : ℕ} (rest : Blob) (hflags : flags < 128)
    (hbit : flags.testBit 5 = true) (hvalue : value < 2 ^ 64) :
    ExactForm (byte flags :: (toBE 8 value ++ rest)) ↔
      flags % 32 = 0 ∧ value ≤ kMaxMPTokenAmount ∧ (flags.testBit 6 = true ∨ value ≠ 0) := by
  have hlt : flags * 2 ^ 56 + value / 256 < 256 ^ 8 := by omega
  obtain ⟨hdiv, -, hbits⟩ := flags_word flags (by omega : value / 256 < 2 ^ 56)
  have h63 : flags.testBit 7 = false := Nat.testBit_lt_two_pow hflags
  have hbytes : byte flags :: (toBE 8 value ++ rest) =
      toBE 8 (flags * 2 ^ 56 + value / 256) ++ ([byte (value % 256)] ++ rest) := by
    rw [← List.cons_append, cons_toBE _ _ (by omega) hvalue, List.append_assoc]
  have hdrop : ((byte flags :: (toBE 8 value ++ rest)).drop 1).take 8 = toBE 8 value :=
    take_toBE value rest
  rw [ExactForm]
  simp only [hdrop]
  simp only [hbytes, take_toBE, ofBE_toBE hlt, ofBE_toBE (w := 8) hvalue, hdiv, hbits 7, hbits 6,
    hbits 5, h63, hbit, Bool.false_eq_true, if_false, if_true]

theorem flagsOfMPT_eq_iff {flags : ℕ} (hflags : flags < 128) (hbit : flags.testBit 5 = true) :
    flags = flagsOfMPT (!flags.testBit 6) ↔ flags % 32 = 0 := by
  rw [Nat.testBit_eq_decide_div_mod_eq, decide_eq_true_iff] at hbit
  rw [Nat.testBit_eq_decide_div_mod_eq, flagsOfMPT]
  by_cases h : flags / 2 ^ 6 % 2 = 1
  · simp only [h, decide_true, Bool.not_true, Bool.false_eq_true, if_false]
    omega
  · simp only [h, decide_false, Bool.not_false, if_true]
    omega

theorem Form.iff {front rest : Blob} {x : STAmount} (h : Form env front x) :
    (x.Canonical ∧ add x = front) ↔ ExactForm (front ++ rest) := by
  cases h with
  | native value isNegative hvalue hzero =>
    rw [exactForm_native isNegative rest hvalue, add_native isNegative hvalue]
    exact ⟨fun h => h.1.2.1, fun h => ⟨⟨rfl, h, hzero⟩, rfl⟩⟩
  | mpt flags value id hflags hbit hvalue =>
    rw [List.cons_append, List.append_assoc, exactForm_mpt _ hflags hbit hvalue, add_mpt,
      ← flagsOfMPT_eq_iff hflags hbit]
    constructor
    · rintro ⟨⟨-, hmax, hzero⟩, hbytes⟩
      have hflags' : flagsOfMPT (!flags.testBit 6) < 256 := by
        cases flags.testBit 6 <;> decide
      have hbyte := congrArg UInt8.toNat (List.cons.inj hbytes).1
      rw [byte_toNat hflags', byte_toNat (by omega)] at hbyte
      refine ⟨hbyte.symm, hmax, ?_⟩
      by_cases h0 : value = 0
      · exact .inl (by simpa using hzero h0)
      · exact .inr h0
    · rintro ⟨heq, hmax, hsign⟩
      refine ⟨⟨rfl, hmax, fun h0 => ?_⟩, by rw [← heq]⟩
      rw [hsign.resolve_right (not_not.mpr h0), Bool.not_true]
  | issued word currency account x hword hbit hcurrency haccount hx =>
    refine iff_of_true ?_ (by rw [List.append_assoc]; exact exactForm_issued _ hword hbit)
    rcases issued_eq_some hx with ⟨rfl, rfl⟩ | ⟨value, offset, isNegative, rfl, hmin, hmax, hlow,
      hhigh, hvalue, hsign, hoffset⟩
    · exact ⟨⟨hcurrency, haccount, .inl ⟨rfl, rfl, rfl⟩⟩, List.append_assoc _ _ _⟩
    · refine ⟨⟨hcurrency, haccount, .inr ⟨hmin, hmax, hlow, hhigh⟩⟩, ?_⟩
      have hflags : (flagsOf offset isNegative).toNat = word / 2 ^ 54 := by
        simp only [Nat.testBit_eq_decide_div_mod_eq, decide_eq_true_iff] at hbit hsign
        rw [flagsOf, hoffset, hsign]
        by_cases h : word / 2 ^ 54 / 2 ^ 8 % 2 = 1
        · simp only [h, decide_true, Bool.not_true, Bool.false_eq_true, if_false]
          omega
        · simp only [h, decide_false, Bool.not_false, if_true]
          omega
      rw [add_issued isNegative hmin hmax hlow hhigh, hflags, List.append_assoc,
        show word / 2 ^ 54 * 2 ^ 54 + value = word by omega]

/-- Amounts and bytes. A canonical amount is read back from what `add` writes, and nothing more is read;
what is read is canonical and written as it was read exactly where the bytes are of an exact form. -/
theorem one_binary_form (env : AmountEnv) :
    (∀ a : STAmount, a.Canonical → Inverts (read env) (add a) a) ∧
    ∀ bs a rest, read env bs = some (a, rest) →
      ((a.Canonical ∧ add a ++ rest = bs) ↔ ExactForm bs) := by
  refine ⟨fun a ha => ?_, fun bs a rest h => ?_⟩
  · obtain ⟨asset, value, offset, isNegative⟩ := a
    cases asset with
    | xrp =>
      obtain ⟨rfl, hmax, hzero⟩ := ha
      have hvalue : value < 2 ^ 61 := lt_of_le_of_lt hmax (by decide)
      exact read_native env hvalue hzero
    | mpt id =>
      obtain ⟨rfl, hmax, -⟩ := ha
      exact read_mpt env id isNegative (lt_of_le_of_lt hmax (by decide))
    | issue currency account =>
      obtain ⟨hcurrency, haccount, ⟨rfl, rfl, rfl⟩ | ⟨hmin, hmax, hlow, hhigh⟩⟩ := ha
      · have hword : kIssuedCurrency = 2 ^ 63 := rfl
        have hzero : issued env (.issue currency account) kIssuedCurrency =
            some ⟨.issue currency account, 0, -100, false⟩ := by
          rw [issued]
          simp only [hword, Nat.reducePow, Nat.reduceMod, Nat.reduceDiv, ne_eq, not_true_eq_false,
            if_false]
          exact canonicalize_zero env rfl
        have hread := read_issued env hcurrency haccount (by decide) (by decide) hzero
        rwa [← List.append_assoc] at hread
      · obtain ⟨hflags, hflags', hbit, -⟩ := flagsOf_spec isNegative hlow hhigh
        have h₁ : kMaxValue = 10 ^ 16 - 1 := by decide
        rw [add_issued isNegative hmin hmax hlow hhigh, List.append_assoc]
        refine read_issued env hcurrency haccount (by omega) ?_
          (issued_word env _ isNegative hmin hmax hlow hhigh)
        rw [Nat.testBit_eq_decide_div_mod_eq, decide_eq_true_iff]
        omega
  · obtain ⟨front, rfl, hform⟩ := form_of_read h
    rw [← hform.iff, List.append_cancel_right_eq]

def Sample.switchedOff : AmountEnv := ⟨false, ⟨.toNearest, .small⟩⟩

/-- The bytes of a token amount with these flags, for the token with id zero. -/
def Sample.token (flags value : ℕ) : Blob := byte flags :: (toBE 8 value ++ List.replicate 24 0)

theorem one_binary_form_five :
    (read Sample.switchedOff (add ⟨.xrp, 5, 0, false⟩ ++ [1]) = some (⟨.xrp, 5, 0, false⟩, [1])) ∧
    (⟨.mpt 0, 5, 0, false⟩ : STAmount).Canonical ∧
      add ⟨.mpt 0, 5, 0, false⟩ ++ [] = Sample.token 0x60 5 :=
  ⟨(one_binary_form Sample.switchedOff).1 ⟨.xrp, 5, 0, false⟩ (by decide) [1],
    ((one_binary_form Sample.switchedOff).2 (Sample.token 0x60 5) ⟨.mpt 0, 5, 0, false⟩ []
      (by decide +kernel)).mpr (by decide +kernel)⟩

/-- Amounts that are accepted and are not canonical, or are written with other bytes: a token amount with
an unused flag, one that is a negative zero, one above the greatest, and 2^60 drops. -/
theorem one_binary_form_loose :
    read Sample.switchedOff (Sample.token 0x61 5) = some (⟨.mpt 0, 5, 0, false⟩, []) ∧
      add ⟨.mpt 0, 5, 0, false⟩ ≠ Sample.token 0x61 5 ∧
    read Sample.switchedOff (Sample.token 0x20 0) = some (⟨.mpt 0, 0, 0, true⟩, []) ∧
      ¬(⟨.mpt 0, 0, 0, true⟩ : STAmount).Canonical ∧
    read Sample.switchedOff (Sample.token 0x60 (2 ^ 63)) = some (⟨.mpt 0, 2 ^ 63, 0, false⟩, []) ∧
      ¬(⟨.mpt 0, 2 ^ 63, 0, false⟩ : STAmount).Canonical ∧
    read Sample.switchedOff (toBE 8 (2 ^ 62 + 2 ^ 60)) = some (⟨.xrp, 2 ^ 60, 0, false⟩, []) ∧
      ¬(⟨.xrp, 2 ^ 60, 0, false⟩ : STAmount).Canonical := by
  decide +kernel

end Wire.STAmount

end FalconLedger
