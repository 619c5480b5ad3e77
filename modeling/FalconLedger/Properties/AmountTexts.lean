import FalconLedger.Properties.AmountForms
import FalconLedger.Properties.BridgeOut
import FalconLedger.Protocol.AmountText
import Mathlib.Data.Rat.Floor

/-!
# What the text of an amount says

`getText` pads the digits of the mantissa with zeros on both sides, cuts them at the point and takes
the zeros off again, so that the text says the mantissa over a power of ten, less its last zeros.
Whatever says the same number comes out of the constructor the same, and every canonical amount is
read back from its text.
-/

namespace FalconLedger.Wire

/-! ### Digits -/

section Digits

variable {text pre post : List Char}

/-- All characters are digits. -/
def AllDigits (text : List Char) : Prop := ∀ c ∈ text, c.isDigit = true

theorem digitsValue_append (pre post : List Char) :
    digitsValue (pre ++ post) = digitsValue pre * 10 ^ post.length + digitsValue post := by
  rw [digitsValue, List.map_append, Numeral.value_append, List.length_map]
  rfl

theorem digitsValue_zeros (n : ℕ) : digitsValue (List.replicate n '0') = 0 := by
  have hzero : ∀ x ∈ (List.replicate n '0').map fun c => c.toNat - 48, x = 0 := by
    intro x hx
    rw [List.map_replicate] at hx
    exact List.eq_of_mem_replicate hx
  have h := Numeral.value_append_of_zero (b := 10) hzero []
  rwa [List.append_nil] at h

theorem digitsValue_dropWhile (text : List Char) :
    digitsValue (text.dropWhile (· = '0')) = digitsValue text := by
  induction text with
  | nil => rfl
  | cons c text ih =>
    rw [List.dropWhile_cons]
    by_cases hc : c = '0'
    · subst hc
      have hsplit : digitsValue ('0' :: text) = digitsValue ['0'] * 10 ^ text.length + digitsValue text :=
        digitsValue_append ['0'] text
      have hzero : digitsValue ['0'] = 0 := by decide
      rw [if_pos (decide_eq_true rfl), ih, hsplit, hzero, zero_mul, zero_add]
    · rw [if_neg (by simpa using hc)]

theorem digitsValue_lt (h : AllDigits text) : digitsValue text < 10 ^ text.length := by
  have hdigits : ∀ x ∈ text.map fun c => c.toNat - 48, x < 10 := by
    intro x hx
    obtain ⟨c, hc, rfl⟩ := List.mem_map.mp hx
    have hdigit := h c hc
    rw [Char.isDigit, Bool.and_eq_true, decide_eq_true_iff, decide_eq_true_iff] at hdigit
    have hle : c.toNat ≤ 57 := hdigit.2
    omega
  have hlt := Numeral.value_lt (by decide) hdigits
  rwa [List.length_map] at hlt

theorem rdropWhile_append_zeros (text : List Char) :
    text.rdropWhile (· = '0') ++
      List.replicate (text.length - (text.rdropWhile (· = '0')).length) '0' = text := by
  have hsplit := List.rdropWhile_append_rtakeWhile (p := fun c : Char => decide (c = '0')) (l := text)
  have hzeros : text.rtakeWhile (· = '0') =
      List.replicate (text.rtakeWhile (· = '0')).length '0' :=
    List.eq_replicate_iff.mpr ⟨rfl, fun c hc => by simpa using List.mem_rtakeWhile_imp hc⟩
  have hlength := congrArg List.length hsplit
  rw [List.length_append] at hlength
  have hcount : text.length - (text.rdropWhile (· = '0')).length =
      (text.rtakeWhile (· = '0')).length := by omega
  rw [hcount, ← hzeros, hsplit]

theorem decimalText_of_pos {n : ℕ} (hn : n ≠ 0) :
    decimalText n = (Numeral.numeral 10 n).map Nat.digitChar := by
  rw [decimalText, if_neg hn]

theorem allDigits_decimalText (n : ℕ) : AllDigits (decimalText n) := by
  intro c hc
  by_cases hn : n = 0
  · rw [decimalText, if_pos hn] at hc
    rw [List.mem_singleton.mp hc]
    decide
  · rw [decimalText_of_pos hn] at hc
    obtain ⟨d, hd, rfl⟩ := List.mem_map.mp hc
    rw [Nat.isDigit_digitChar]
    exact decide_eq_true (Numeral.numeral_lt (by decide) hd)

theorem digitsValue_decimalText (n : ℕ) : digitsValue (decimalText n) = n := by
  by_cases hn : n = 0
  · rw [decimalText, if_pos hn, hn]
    decide
  · have hmap : (Numeral.numeral 10 n).map ((fun c : Char => c.toNat - 48) ∘ Nat.digitChar) =
        Numeral.numeral 10 n := by
      conv_rhs => rw [← List.map_id (Numeral.numeral 10 n)]
      refine List.map_congr_left fun d hd => ?_
      exact Nat.toNat_digitChar_sub_48_of_lt_ten (Numeral.numeral_lt (by decide) hd)
    rw [digitsValue, decimalText_of_pos hn, List.map_map, hmap, Numeral.value_numeral]

theorem decimalText_ne_nil (n : ℕ) : decimalText n ≠ [] := by
  rw [decimalText]
  split_ifs with hn
  · decide
  · rw [ne_eq, List.map_eq_nil_iff]
    intro hnil
    have h := Numeral.value_numeral (b := 10) n
    rw [hnil] at h
    exact hn h.symm

theorem head_decimalText {n : ℕ} (hn : n ≠ 0) : (decimalText n).head? ≠ some '0' := by
  rw [decimalText_of_pos hn, List.head?_map, Numeral.numeral, List.head?_reverse]
  intro h
  obtain ⟨d, hd, hzero⟩ := Option.map_eq_some_iff.mp h
  rw [Nat.digitChar_eq_zero] at hzero
  subst hzero
  have hne : Nat.digits 10 n ≠ [] := Nat.digits_ne_nil_iff_ne_zero.mpr hn
  rw [List.getLast?_eq_some_getLast hne] at hd
  exact Nat.getLast_digit_ne_zero 10 hn (Option.some.inj hd)

theorem length_decimalText {n k : ℕ} (hlow : 10 ^ k ≤ n) (hhigh : n < 10 ^ (k + 1)) :
    (decimalText n).length = k + 1 := by
  have hn : n ≠ 0 := by
    have : 0 < 10 ^ k := by positivity
    omega
  rw [decimalText_of_pos hn, List.length_map]
  have hle := (Numeral.length_numeral_le (b := 10) (by decide)).mpr hhigh
  have hge := mt (Numeral.length_numeral_le (b := 10) (by decide)).mp (not_lt.mpr hlow)
  omega

theorem span_digits (hpre : AllDigits pre) (hpost : ∀ c ∈ post.head?, c.isDigit = false) :
    (pre ++ post).takeWhile Char.isDigit = pre ∧ (pre ++ post).dropWhile Char.isDigit = post := by
  rw [List.takeWhile_append_of_pos hpre, List.dropWhile_append_of_pos hpre]
  cases post with
  | nil => exact ⟨List.append_nil pre, rfl⟩
  | cons c post =>
    have hc : ¬c.isDigit = true := by rw [hpost c rfl]; decide
    rw [List.takeWhile_cons_of_neg hc, List.dropWhile_cons_of_neg hc]
    exact ⟨List.append_nil pre, rfl⟩

end Digits

/-! ### Reading -/

def signText (negative : Bool) : List Char := if negative then ['-'] else []

def fractionText (fraction : List Char) : List Char := if fraction = [] then [] else '.' :: fraction

theorem afterSign_of_digit {c : Char} (hc : c.isDigit = true) (text : List Char) :
    afterSign (c :: text) = (false, c :: text) := by
  rw [afterSign.eq_def]
  split
  next heq =>
    rw [(List.cons.inj heq).1] at hc
    exact absurd hc (by decide)
  next heq =>
    rw [(List.cons.inj heq).1] at hc
    exact absurd hc (by decide)
  next => rfl

theorem afterSign_digits {text : List Char} (hdigits : AllDigits text) (hne : text ≠ [])
    (negative : Bool) (rest : List Char) :
    afterSign (signText negative ++ text ++ rest) = (negative, text ++ rest) := by
  cases negative with
  | true => rfl
  | false =>
    obtain ⟨c, text, rfl⟩ := List.exists_cons_of_ne_nil hne
    exact afterSign_of_digit (hdigits c List.mem_cons_self) _

theorem readExponent_int {e : ℤ} (he : e.natAbs < 2 ^ 31) : readExponent ('e' :: intText e) = some e := by
  have hread : ∀ negative, afterSign (signText negative ++ decimalText e.natAbs) =
      (negative, decimalText e.natAbs) := by
    intro negative
    have h := afterSign_digits (allDigits_decimalText e.natAbs) (decimalText_ne_nil _) negative []
    rwa [List.append_nil, List.append_nil] at h
  have htext : intText e = signText (decide (e < 0)) ++ decimalText e.natAbs := by
    rw [intText, signText]
    by_cases hneg : e < 0 <;> simp [hneg]
  have hall : (decimalText e.natAbs).all Char.isDigit = true :=
    List.all_eq_true.mpr (allDigits_decimalText _)
  rw [readExponent, if_pos (.inl rfl), htext, hread]
  dsimp only
  rw [if_pos ⟨decimalText_ne_nil _, hall⟩, lexicalCast, digitsValue_decimalText, if_pos he,
    Option.map_some]
  congr 1
  by_cases hneg : e < 0
  · rw [if_pos (decide_eq_true hneg)]
    omega
  · rw [if_neg (by simpa using hneg)]
    omega

/-- What is made of a sign, digits, digits behind the point and an exponent. -/
theorem partsFromString_text {whole : List Char} {e : ℤ} (negative : Bool)
    (fraction exponent : List Char) (hwhole : AllDigits whole) (hne : whole ≠ [])
    (hhead : whole.head? = some '0' → whole = ['0'])
    (hfraction : AllDigits fraction) (he : readExponent exponent = some e)
    (hexponent : ∀ c ∈ exponent.head?, c.isDigit = false ∧ c ≠ '.')
    (hlt : digitsValue (whole ++ fraction) < 2 ^ 64) :
    partsFromString (signText negative ++ whole ++ (fractionText fraction ++ exponent)) =
      some ⟨digitsValue (whole ++ fraction), -fraction.length + e, negative⟩ := by
  have hbehind : ∀ c ∈ (fractionText fraction ++ exponent).head?, c.isDigit = false := by
    intro c hc
    rw [fractionText] at hc
    split_ifs at hc
    · exact (hexponent c hc).1
    · rw [← Option.some.inj hc]
      decide
  obtain ⟨htake, hdrop⟩ := span_digits hwhole hbehind
  have hread : readFraction (fractionText fraction ++ exponent) = some (fraction, exponent) := by
    by_cases hnil : fraction = []
    · subst hnil
      rw [fractionText, if_pos rfl, List.nil_append, readFraction.eq_def]
      split
      next heq => exact absurd rfl (hexponent '.' rfl).2
      next => rfl
    · obtain ⟨htake', hdrop'⟩ := span_digits hfraction fun c hc => (hexponent c hc).1
      rw [fractionText, if_neg hnil, List.cons_append, readFraction, htake', hdrop', if_neg hnil]
  have hzeros : ¬(whole = [] ∨ (whole.head? = some '0' ∧ whole ≠ ['0'])) := by
    rintro (hnil | ⟨hzero, hnot⟩)
    · exact hne hnil
    · exact hnot (hhead hzero)
  rw [partsFromString, afterSign_digits hwhole hne]
  dsimp only
  rw [htake, hdrop, if_neg hzeros, hread]
  simp only [Option.bind_eq_bind, Option.bind_some, he, lexicalCast, if_pos hlt, Option.pure_def]

/-! ### Writing -/

theorem dropWhile_padded {text : List Char} {n : ℕ} (h : ∀ c ∈ text.take n, c = '0') :
    (if n < text.length then text.drop n else text).dropWhile (· = '0') = text.dropWhile (· = '0') := by
  split_ifs
  · conv_rhs => rw [← List.take_append_drop n text]
    rw [List.dropWhile_append_of_pos fun c hc => decide_eq_true (h c hc)]
  · rfl

theorem rdropWhile_padded {text : List Char} {n : ℕ} (h : ∀ c ∈ text.reverse.take n, c = '0') :
    (if n < text.length then text.take (text.length - n) else text).rdropWhile (· = '0') =
      text.rdropWhile (· = '0') := by
  have hpadded := dropWhile_padded h
  rw [List.length_reverse] at hpadded
  rw [List.rdropWhile, List.rdropWhile, ← hpadded]
  split_ifs
  · rw [List.drop_reverse]
  · rfl

theorem rdropWhile_append_replicate (text : List Char) (n : ℕ) :
    (text ++ List.replicate n '0').rdropWhile (· = '0') = text.rdropWhile (· = '0') := by
  rw [List.rdropWhile, List.reverse_append, List.reverse_replicate, List.dropWhile_append_of_pos]
  · rfl
  · intro c hc
    exact decide_eq_true (List.eq_of_mem_replicate hc)

namespace STAmount

variable {a : STAmount}

/-- An issued amount that is written without an exponent. -/
def Plain (offset : ℤ) : Prop := offset = 0 ∨ -25 ≤ offset ∧ offset ≤ -5

instance (offset : ℤ) : Decidable (Plain offset) := inferInstanceAs (Decidable (_ ∨ _))

/-- The digits in front of the point and behind it say the amount, where its last zeros are left out. -/
structure Says (a : STAmount) (whole fraction : List Char) : Prop where
  wholeDigits : AllDigits whole
  ne_nil : whole ≠ []
  head : whole.head? = some '0' → whole = ['0']
  fractionDigits : AllDigits fraction
  value : ∃ i : ℕ, digitsValue (whole ++ fraction) * 10 ^ i = a.value ∧
    -(fraction.length : ℤ) = a.offset + i

theorem getText_integral (hasset : integral a.asset = true) (hoffset : a.offset = 0)
    (hvalue : a.value ≠ 0) :
    getText a = signText a.isNegative ++ decimalText a.value ++ (fractionText [] ++ []) := by
  have hnot : ¬(a.offset ≠ 0 ∧ (a.offset < -25 ∨ -5 < a.offset)) := fun h => h.1 hoffset
  rw [getText, if_neg hvalue]
  dsimp only
  rw [if_pos (.inl hasset), if_neg hnot]
  rfl

theorem getText_scientific (hoffset : ¬Plain a.offset) (hvalue : a.value ≠ 0) :
    getText a =
      signText a.isNegative ++ decimalText a.value ++ (fractionText [] ++ 'e' :: intText a.offset) := by
  have hscientific : a.offset ≠ 0 ∧ (a.offset < -25 ∨ -5 < a.offset) := by
    rw [Plain] at hoffset
    omega
  rw [getText, if_neg hvalue]
  dsimp only
  rw [if_pos (.inr hscientific), if_pos hscientific]
  rfl

theorem getText_plain (hasset : integral a.asset = false) (hoffset : Plain a.offset)
    (hlow : 10 ^ 15 ≤ a.value) (hhigh : a.value < 10 ^ 16) :
    ∃ whole fraction, Says a whole fraction ∧
      getText a = signText a.isNegative ++ whole ++ (fractionText fraction ++ []) := by
  have hvalue : a.value ≠ 0 := by omega
  have hplain : ¬(integral a.asset = true ∨ (a.offset ≠ 0 ∧ (a.offset < -25 ∨ -5 < a.offset))) := by
    rw [hasset]
    rw [Plain] at hoffset
    rintro (h | h)
    · cases h
    · omega
  obtain ⟨k, hk, hk', hk''⟩ : ∃ k : ℕ, (a.offset + 43).toNat = k ∧ (k : ℤ) = a.offset + 43 ∧ k ≤ 43 := by
    refine ⟨_, rfl, ?_⟩
    rw [Plain] at hoffset
    omega
  generalize hpadded : List.replicate 27 '0' ++ decimalText a.value = padded
  have hlength : padded.length = 43 := by
    rw [← hpadded, List.length_append, List.length_replicate, length_decimalText hlow hhigh]
  have hdigits : AllDigits padded := by
    intro c hc
    rw [← hpadded] at hc
    rcases List.mem_append.mp hc with hc | hc
    · rw [List.eq_of_mem_replicate hc]
      decide
    · exact allDigits_decimalText _ c hc
  have hsays : digitsValue padded = a.value := by
    rw [← hpadded, digitsValue_append, digitsValue_zeros, zero_mul, zero_add, digitsValue_decimalText]
  have htake : (padded ++ List.replicate 23 '0').take k = padded.take k :=
    List.take_append_of_le_length (by omega)
  have hdrop : (padded ++ List.replicate 23 '0').drop k = padded.drop k ++ List.replicate 23 '0' :=
    List.drop_append_of_le_length (by omega)
  -- the zeros on the outside go in any case
  have hfront : ∀ c ∈ (padded.take k).take 27, c = '0' := by
    intro c hc
    rw [List.take_take, ← hpadded] at hc
    have hmem := (List.take_prefix_take_left (min_le_left 27 k)).subset hc
    rw [List.take_left' (List.length_replicate ..)] at hmem
    exact List.eq_of_mem_replicate hmem
  have hback : ∀ c ∈ (padded.drop k ++ List.replicate 23 '0').reverse.take 23, c = '0' := by
    intro c hc
    rw [List.reverse_append, List.reverse_replicate, List.take_left' (List.length_replicate ..)] at hc
    exact List.eq_of_mem_replicate hc
  have hpre := dropWhile_padded hfront
  have hpost := rdropWhile_padded hback
  rw [rdropWhile_append_replicate] at hpost
  generalize hfraction : (padded.drop k).rdropWhile (· = '0') = fraction at hpost
  generalize hwhole : (padded.take k).dropWhile (· = '0') = whole at hpre
  have hlast : fraction ++ List.replicate ((padded.drop k).length - fraction.length) '0' =
      padded.drop k := by
    rw [← hfraction]
    exact rdropWhile_append_zeros _
  have hwholeDigits : AllDigits whole := fun c hc => by
    rw [← hwhole] at hc
    exact hdigits c ((List.take_sublist _ _).subset ((List.dropWhile_sublist _).subset hc))
  have hwholeValue : digitsValue (if whole = [] then ['0'] else whole) = digitsValue (padded.take k) := by
    rw [← digitsValue_dropWhile (padded.take k), hwhole]
    split_ifs with hnil
    · rw [hnil]
      decide
    · rfl
  refine ⟨if whole = [] then ['0'] else whole, fraction, ⟨?_, ?_, ?_, ?_, ?_⟩, ?_⟩
  · split_ifs
    · intro c hc
      rw [List.mem_singleton.mp hc]
      decide
    · exact hwholeDigits
  · split_ifs with hnil
    · decide
    · exact hnil
  · split_ifs with hnil
    · exact fun _ => rfl
    · intro hzero
      have hhead := List.head?_dropWhile_not (fun c : Char => decide (c = '0')) (padded.take k)
      rw [hwhole, hzero] at hhead
      exact absurd hhead (by decide)
  · intro c hc
    refine hdigits c ((List.drop_sublist k _).subset ?_)
    rw [← hlast]
    exact List.mem_append_left _ hc
  · have hsplit := hsays
    rw [← List.take_append_drop k padded, ← hlast, ← List.append_assoc, digitsValue_append,
      digitsValue_zeros, add_zero, List.length_replicate] at hsplit
    refine ⟨(padded.drop k).length - fraction.length, ?_, ?_⟩
    · rw [digitsValue_append, hwholeValue, ← digitsValue_append]
      exact hsplit
    · have hle := congrArg List.length hlast
      rw [List.length_append, List.length_replicate, List.length_drop, hlength] at hle
      rw [List.length_drop, hlength]
      omega
  · rw [getText, if_neg hvalue]
    dsimp only
    rw [if_neg hplain, hpadded, hk, htake, hdrop, hpre, hpost, List.append_nil]
    rfl

/-! ### The constructor -/

theorem scaleUp_mul {m i : ℕ} {o : ℤ} (hmax : m * 10 ^ i < 10 ^ 16) (ho : kMinOffset ≤ o) :
    scaleUp m (o + i) = scaleUp (m * 10 ^ i) o := by
  induction i generalizing m with
  | zero => rw [pow_zero, mul_one, Nat.cast_zero, add_zero]
  | succ i ih =>
    have hpow : m * 10 ^ (i + 1) = m * 10 * 10 ^ i := by ring
    have hmin : kMinValue = 10 ^ 15 := by decide
    have hlt : m < kMinValue := by
      have hle : m * 10 ≤ m * 10 * 10 ^ i := Nat.le_mul_of_pos_right _ (by positivity)
      omega
    have hoffset : o + (i + 1 : ℕ) - 1 = o + i := by
      push_cast
      ring
    rw [scaleUp, if_pos ⟨hlt, by push_cast; omega⟩, hoffset, hpow]
    exact ih (hpow ▸ hmax)

theorem canonicalize_mul (env : AmountEnv) {asset : Asset} {m i : ℕ} {o : ℤ} {negative : Bool}
    (hlow : 10 ^ 15 ≤ m * 10 ^ i) (hhigh : m * 10 ^ i < 10 ^ 16) (ho : kMinOffset ≤ o)
    (ho' : o ≤ kMaxOffset) :
    canonicalize env ⟨asset, m, o + i, negative⟩ = some ⟨asset, m * 10 ^ i, o, negative⟩ := by
  have hmin : kMinValue = 10 ^ 15 := by decide
  have hmax : kMaxValue = 10 ^ 16 - 1 := by decide
  have hrange := canonicalize_of_range (a := ⟨asset, m * 10 ^ i, o, negative⟩) env
    (by dsimp only; omega) (by dsimp only; omega) ho ho'
  have hm : m ≠ 0 := by
    rintro rfl
    rw [zero_mul] at hlow
    omega
  have hne : m * 10 ^ i ≠ 0 := by positivity
  have hexp : Number.kMinExponent + 3 ≤ o := by
    have h₁ : kMinOffset = -96 := rfl
    have h₂ : Number.kMinExponent = -32768 := rfl
    omega
  rw [← hrange, canonicalize, canonicalize]
  by_cases hswitch : env.switchover = true
  · rw [if_pos hswitch, if_pos hswitch, viaNumber, viaNumber, if_neg hm, if_neg hne]
    dsimp only
    rw [Number.normalize_scaled env.number negative hlow hhigh hexp]
    rfl
  · rw [if_neg hswitch, if_neg hswitch, if_neg hm, if_neg hne]
    dsimp only
    rw [scaleUp_mul hhigh ho]
    rfl

theorem toRep_of_int (env : NumberEnv) (negative : Bool) {m : ℕ} (hm : m ≠ 0)
    (hmax : m ≤ Number.kMaxRep) :
    Number.toRep env ⟨negative, m, 0⟩ = some (if negative then -(m : ℤ) else m) := by
  have hexternal : Number.external ⟨negative, m, 0⟩ = (m, 0) := by
    rw [Number.external, if_neg (not_lt.mpr hmax)]
  have hguard : Number.Guard.rounds env.mode { sbit := negative } m = false :=
    Number.Guard.Empty.rounds ⟨rfl, rfl⟩ env.mode m
  have hshift : Number.shiftRight (-0 : ℤ).toNat m { sbit := negative } = (m, { sbit := negative }) := rfl
  rw [Number.toRep, if_neg hm, hexternal]
  dsimp only
  rw [hshift]
  dsimp only
  rw [if_neg (fun h => absurd h.1 (lt_irrefl 0)), Int.toNat_zero, pow_zero, mul_one, hguard]
  rfl

theorem canonicalizeIntegral_of_range (env : AmountEnv) {most : ℕ} {maxOffset : ℤ}
    (hoffset : a.offset = 0) (hvalue : a.value ≠ 0) (hmost : a.value ≤ most)
    (hrep : most ≤ Number.kMaxRep) (hmax : 0 ≤ maxOffset) :
    canonicalizeIntegral env most maxOffset a = some a := by
  obtain ⟨asset, value, offset, isNegative⟩ := a
  dsimp only at hoffset hvalue hmost
  subst hoffset
  have hsame : (Number.toRep env.number ⟨isNegative, value, 0⟩).map (fun val =>
      (⟨asset, val.natAbs, 0, decide (val < 0)⟩ : STAmount)) = some ⟨asset, value, 0, isNegative⟩ := by
    rw [toRep_of_int env.number isNegative hvalue (hmost.trans hrep), Option.map_some]
    cases isNegative with
    | true => simp [Nat.pos_of_ne_zero hvalue]
    | false => simp
  have hraise : raise most (0 : ℤ).toNat (value / 10 ^ (-0 : ℤ).toNat) = some value := by
    rw [neg_zero, Int.toNat_zero, pow_zero, Nat.div_one]
    rfl
  have hsmall : ¬(value = 0 ∨ (0 : ℤ) ≤ -20) := by omega
  rw [canonicalizeIntegral, if_neg hsmall, if_neg (not_lt.mpr hmax)]
  dsimp only
  split_ifs
  · rw [hsame, Option.bind_eq_bind, Option.bind_some, if_neg (not_lt.mpr hmost)]
    rfl
  · rw [hraise, Option.map_some, Option.bind_eq_bind, Option.bind_some, if_neg (not_lt.mpr hmost)]
    rfl

/-! ### There and back -/

theorem construct_zero (env : AmountEnv) (h : a.Canonical) (hvalue : a.value = 0) :
    construct env ⟨a.asset, 0, 0, false⟩ = some a := by
  obtain ⟨asset, value, offset, isNegative⟩ := a
  dsimp only at hvalue ⊢
  subst hvalue
  cases asset with
  | xrp =>
    obtain ⟨hoffset, -, hsign⟩ := h
    dsimp only at hoffset hsign
    rw [hoffset, hsign rfl]
    rfl
  | mpt id =>
    obtain ⟨hoffset, -, hsign⟩ := h
    dsimp only at hoffset hsign
    rw [hoffset, hsign rfl]
    rfl
  | issue currency account =>
    obtain ⟨-, -, ⟨-, hoffset, hsign⟩ | ⟨hmin, -⟩⟩ := h
    · dsimp only at hoffset hsign
      rw [construct, canonicalize_zero env rfl, hoffset, hsign]
      rfl
    · exact absurd (show kMinValue ≤ 0 from hmin) (by decide)

theorem canonical_integral (env : AmountEnv) (h : a.Canonical) (hasset : integral a.asset = true)
    (hvalue : a.value ≠ 0) :
    a.offset = 0 ∧ a.value < 2 ^ 64 ∧ construct env a = some a := by
  obtain ⟨asset, value, offset, isNegative⟩ := a
  have hnative : kMaxNativeN ≤ Number.kMaxRep ∧ Number.kMaxRep < 2 ^ 64 := by decide
  cases asset with
  | xrp =>
    obtain ⟨hoffset, hmost, -⟩ := h
    exact ⟨hoffset, hmost.trans_lt (hnative.1.trans_lt hnative.2),
      canonicalizeIntegral_of_range env hoffset hvalue hmost hnative.1 (by decide)⟩
  | mpt id =>
    obtain ⟨hoffset, hmost, -⟩ := h
    exact ⟨hoffset, hmost.trans_lt hnative.2,
      canonicalizeIntegral_of_range env hoffset hvalue hmost le_rfl (by decide)⟩
  | issue currency account => cases hasset

theorem canonical_issued (h : a.Canonical) (hasset : integral a.asset = false) (hvalue : a.value ≠ 0) :
    10 ^ 15 ≤ a.value ∧ a.value < 10 ^ 16 ∧ kMinOffset ≤ a.offset ∧ a.offset ≤ kMaxOffset := by
  obtain ⟨asset, value, offset, isNegative⟩ := a
  have hmin' : kMinValue = 10 ^ 15 := by decide
  have hmax' : kMaxValue = 10 ^ 16 - 1 := by decide
  cases asset with
  | xrp => cases hasset
  | mpt id => cases hasset
  | issue currency account =>
    obtain ⟨-, -, ⟨hzero, -⟩ | ⟨hmin, hmax, hlow, hhigh⟩⟩ := h
    · exact absurd hzero hvalue
    · dsimp only at hmin hmax hlow hhigh ⊢
      exact ⟨by omega, by omega, hlow, hhigh⟩

theorem construct_issued (env : AmountEnv) {asset : Asset} (hasset : integral asset = false) {m : ℕ}
    {o : ℤ} {negative : Bool} :
    construct env ⟨asset, m, o, negative⟩ = canonicalize env ⟨asset, m, o, negative⟩ := by
  cases asset with
  | xrp => cases hasset
  | mpt id => cases hasset
  | issue currency account => rfl

theorem amountFromString_getText (env : AmountEnv) (h : a.Canonical) :
    amountFromString env a.asset (getText a) = some a := by
  by_cases hvalue : a.value = 0
  · have hparts : partsFromString ['0'] = some ⟨0, 0, false⟩ := by decide +kernel
    rw [getText, if_pos hvalue, amountFromString, hparts, Option.bind_eq_bind, Option.bind_some,
      if_neg (fun h => absurd h.2 (lt_irrefl 0))]
    exact construct_zero env h hvalue
  have hdigits : digitsValue (decimalText a.value ++ []) = a.value := by
    rw [List.append_nil, digitsValue_decimalText]
  have hhead : (decimalText a.value).head? = some '0' → decimalText a.value = ['0'] :=
    fun hzero => absurd hzero (head_decimalText hvalue)
  by_cases hasset : integral a.asset = true
  · obtain ⟨hoffset, hmax, hconstruct⟩ := canonical_integral env h hasset hvalue
    have hparts := partsFromString_text a.isNegative [] []
      (allDigits_decimalText a.value) (decimalText_ne_nil _) hhead (fun _ hc => by cases hc) rfl
      (fun _ hc => by cases hc) (by rw [hdigits]; exact hmax)
    rw [getText_integral hasset hoffset hvalue, amountFromString, hparts, Option.bind_eq_bind,
      Option.bind_some, hdigits, if_neg (by simp)]
    have hsame : (⟨a.asset, a.value, -(([] : List Char).length : ℤ) + 0, a.isNegative⟩ : STAmount) = a := by
      obtain ⟨asset, value, offset, isNegative⟩ := a
      dsimp only at hoffset
      rw [hoffset]
      rfl
    rw [hsame]
    exact hconstruct
  · have hasset : integral a.asset = false := Bool.eq_false_iff.mpr hasset
    obtain ⟨hlow, hhigh, ho, ho'⟩ := canonical_issued h hasset hvalue
    have hback : ∀ {m i : ℕ}, m * 10 ^ i = a.value →
        construct env ⟨a.asset, m, a.offset + i, a.isNegative⟩ = some a := by
      intro m i hm
      rw [construct_issued env hasset, canonicalize_mul env (by rw [hm]; exact hlow)
        (by rw [hm]; exact hhigh) ho ho', hm]
    have hguard : ∀ e : ℤ, ¬(integral a.asset = true ∧ e < 0) := by
      rw [hasset]
      exact fun _ h => absurd h.1 (by decide)
    by_cases hplain : Plain a.offset
    · obtain ⟨whole, fraction, hsays, htext⟩ := getText_plain hasset hplain hlow hhigh
      obtain ⟨i, hi, hlength⟩ := hsays.value
      have hlt : digitsValue (whole ++ fraction) < 2 ^ 64 := by
        have hle : digitsValue (whole ++ fraction) ≤ digitsValue (whole ++ fraction) * 10 ^ i :=
          Nat.le_mul_of_pos_right _ (by positivity)
        omega
      rw [htext, amountFromString, partsFromString_text a.isNegative _ _ hsays.wholeDigits
        hsays.ne_nil hsays.head hsays.fractionDigits rfl (fun _ hc => by cases hc) hlt, Option.bind_eq_bind,
        Option.bind_some, if_neg (hguard _), add_zero, hlength]
      exact hback hi
    · have hexponent : a.offset.natAbs < 2 ^ 31 := by
        have h₁ : kMinOffset = -96 := rfl
        have h₂ : kMaxOffset = 80 := rfl
        omega
      have hparts := partsFromString_text a.isNegative [] ('e' :: intText a.offset)
        (allDigits_decimalText a.value) (decimalText_ne_nil _) hhead
        (fun _ hc => by cases hc) (readExponent_int hexponent)
        (fun c hc => by rw [← Option.some.inj hc]; decide) (by rw [hdigits]; omega)
      rw [getText_scientific hplain hvalue, amountFromString, hparts, Option.bind_eq_bind,
        Option.bind_some, if_neg (hguard _), hdigits]
      have h := hback (m := a.value) (i := 0) (by rw [pow_zero, mul_one])
      rw [Nat.cast_zero, add_zero] at h
      rw [List.length_nil, Nat.cast_zero, neg_zero, zero_add]
      exact h

/-! ### The relay's reader -/

open WithdrawRelay

theorem pyInt_digits {text : List Char} (h : AllDigits text) (hne : text ≠ []) :
    pyInt text = some (digitsValue text) := by
  rw [pyInt, if_pos ⟨hne, List.all_eq_true.mpr h⟩]
  rfl

theorem intOrZero_digits {text : List Char} (h : AllDigits text) :
    intOrZero text = some (digitsValue text) := by
  rw [intOrZero]
  split_ifs with hnil
  · rw [hnil]
    rfl
  · exact pyInt_digits h hnil

theorem lt_value_take (ds : List Char) (hds : AllDigits ds) (k : ℕ) :
    (digitsValue ds : ℚ) / 10 ^ ds.length * 10 ^ k <
      digitsValue ((ds ++ List.replicate (k - ds.length) '0').take k) + 1 := by
  rcases le_total k ds.length with hle | hle
  · obtain ⟨front, back, rfl, rfl⟩ : ∃ front back, ds = front ++ back ∧ k = front.length :=
      ⟨ds.take k, ds.drop k, (List.take_append_drop k ds).symm, by simp [hle]⟩
    have hback : digitsValue back < 10 ^ back.length :=
      digitsValue_lt fun c hc => hds c (List.mem_append_right _ hc)
    have hback' : (digitsValue back : ℚ) < 10 ^ back.length := by exact_mod_cast hback
    have hpos : (0 : ℚ) < 10 ^ front.length := by positivity
    have hpos' : (0 : ℚ) < 10 ^ back.length := by positivity
    rw [Nat.sub_eq_zero_of_le hle, List.replicate_zero, List.append_nil, List.take_left,
      digitsValue_append, List.length_append, pow_add]
    push_cast
    rw [div_mul_eq_mul_div, div_lt_iff₀ (mul_pos hpos hpos')]
    nlinarith
  · have hlength : (ds ++ List.replicate (k - ds.length) '0').length = k := by simp; omega
    have hpow : (10 : ℚ) ^ k = 10 ^ (k - ds.length) * 10 ^ ds.length := by
      rw [← pow_add, Nat.sub_add_cancel hle]
    have hpos : (0 : ℚ) < 10 ^ ds.length := by positivity
    rw [List.take_of_length_le hlength.le, digitsValue_append, digitsValue_zeros,
      List.length_replicate, add_zero, hpow]
    push_cast
    rw [← mul_assoc, div_mul_eq_mul_div, div_mul_cancel₀ _ hpos.ne']
    exact lt_add_one _

theorem takeWhile_point {whole : List Char} (rest : List Char) (hwhole : AllDigits whole) :
    (whole ++ '.' :: rest).takeWhile (· ≠ '.') = whole ∧
      (whole ++ '.' :: rest).dropWhile (· ≠ '.') = '.' :: rest := by
  have hne : ∀ c ∈ whole, decide (c ≠ '.') = true := by
    intro c hc
    have hdigit := hwhole c hc
    rw [decide_eq_true_iff]
    rintro rfl
    exact absurd hdigit (by decide)
  rw [List.takeWhile_append_of_pos hne, List.dropWhile_append_of_pos hne]
  exact ⟨List.append_nil whole, rfl⟩

theorem parts_point {whole fraction : List Char} (hwhole : AllDigits whole)
    (hfraction : AllDigits fraction) :
    wholePart (whole ++ fractionText fraction) = whole ∧
      fracPart (whole ++ fractionText fraction) = fraction := by
  have hplain : ∀ {text : List Char}, AllDigits text → ∀ c ∈ text, decide (c ≠ '.') = true := by
    intro text htext c hc
    have hdigit := htext c hc
    rw [decide_eq_true_iff]
    rintro rfl
    exact absurd hdigit (by decide)
  rw [wholePart, fracPart, fractionText]
  split_ifs with hnil
  · subst hnil
    rw [List.append_nil, List.takeWhile_eq_self_iff.mpr (hplain hwhole),
      List.dropWhile_eq_nil_iff.mpr (hplain hwhole)]
    exact ⟨rfl, rfl⟩
  · obtain ⟨htake, hdrop⟩ := takeWhile_point fraction hwhole
    rw [htake, hdrop, List.tail_cons, List.takeWhile_eq_self_iff.mpr (hplain hfraction)]
    exact ⟨rfl, rfl⟩

theorem amountToRaw_says {whole fraction : List Char} (h : Says a whole fraction) :
    amountToRaw (whole ++ fractionText fraction) =
      some ⌊(a.value : ℚ) * 10 ^ a.offset * 10 ^ decimals⌋₊ := by
  obtain ⟨hwhole, hfrac⟩ := parts_point h.wholeDigits h.fractionDigits
  have hcut : AllDigits ((fraction ++ List.replicate (decimals - fraction.length) '0').take decimals) := by
    intro c hc
    rcases List.mem_append.mp ((List.take_sublist _ _).subset hc) with hc | hc
    · exact h.fractionDigits c hc
    · rw [List.eq_of_mem_replicate hc]
      decide
  rw [amountToRaw, hwhole, hfrac, intOrZero_digits h.wholeDigits]
  simp only [Option.bind_eq_bind, Option.bind_some, intOrZero_digits hcut, Option.pure_def]
  congr 1
  symm
  obtain ⟨i, hi, hlength⟩ := h.value
  have hvalue : (a.value : ℚ) * 10 ^ a.offset * 10 ^ decimals =
      digitsValue whole * 10 ^ decimals + digitsValue fraction / 10 ^ fraction.length * 10 ^ decimals := by
    have hoffset : a.offset = -(fraction.length : ℤ) - i := by omega
    have hpos : (10 : ℚ) ^ fraction.length ≠ 0 := by positivity
    rw [← hi, hoffset, zpow_sub₀ (by norm_num), zpow_neg, zpow_natCast, zpow_natCast,
      digitsValue_append]
    push_cast
    field_simp
  have hle := value_take_le (fraction.map fun c : Char => c.toNat - 48) decimals
  have hlt := lt_value_take fraction h.fractionDigits decimals
  have hsame : Numeral.value 10 (((fraction.map fun c : Char => c.toNat - 48) ++
      List.replicate (decimals - fraction.length) 0).take decimals) =
        digitsValue ((fraction ++ List.replicate (decimals - fraction.length) '0').take decimals) := by
    rw [digitsValue, List.map_take, List.map_append, List.map_replicate]
    rfl
  rw [List.length_map, hsame] at hle
  rw [Nat.floor_eq_iff (by positivity), hvalue]
  change _ ≤ (digitsValue fraction : ℚ) / _ * _ at hle
  push_cast
  constructor <;> linarith

theorem amountToRaw_scientific (hsign : a.isNegative = false) (hoffset : ¬Plain a.offset)
    (hvalue : a.value ≠ 0) : amountToRaw (getText a) = none := by
  have htext : getText a = decimalText a.value ++ 'e' :: intText a.offset := by
    rw [getText_scientific hoffset hvalue, hsign]
    rfl
  have hne : ∀ c ∈ decimalText a.value, decide (c ≠ 'e') = true := by
    intro c hc
    have hdigit := allDigits_decimalText a.value c hc
    rw [decide_eq_true_iff]
    rintro rfl
    exact absurd hdigit (by decide)
  have hfront : (getText a).takeWhile (· ≠ 'e') = decimalText a.value := by
    rw [htext, List.takeWhile_append_of_pos hne]
    exact List.append_nil _
  refine amountToRaw_of_exponent ?_ (?_ : _ = some a.value)
  · rw [htext]
    simp
  · rw [hfront, pyInt_digits (allDigits_decimalText _) (decimalText_ne_nil _), digitsValue_decimalText]

/-- The text of a canonical amount keeps its value, and the relay takes what is due of it, if and only if
the text of a positive issued amount is written without an exponent. -/
theorem texts_keep_value (env : AmountEnv) (a : STAmount) (h : a.Canonical) :
    (amountFromString env a.asset (getText a) = some a ∧
      (integral a.asset = false → a.isNegative = false → a.value ≠ 0 →
        amountToRaw (getText a) = some ⌊(a.value : ℚ) * 10 ^ a.offset * 10 ^ decimals⌋₊)) ↔
    (integral a.asset = false → a.isNegative = false → a.value ≠ 0 → Plain a.offset) := by
  constructor
  · rintro ⟨-, hraw⟩ hasset hsign hvalue
    by_contra hplain
    have hnone := amountToRaw_scientific hsign hplain hvalue
    rw [hraw hasset hsign hvalue] at hnone
    cases hnone
  · intro hplain
    refine ⟨amountFromString_getText env h, fun hasset hsign hvalue => ?_⟩
    obtain ⟨hlow, hhigh, -⟩ := canonical_issued h hasset hvalue
    obtain ⟨whole, fraction, hsays, htext⟩ := getText_plain hasset (hplain hasset hsign hvalue) hlow hhigh
    rw [htext, hsign, List.append_nil]
    exact amountToRaw_says hsays

theorem texts_keep_value_half :
    amountFromString ⟨true, ⟨.toNearest, .large⟩⟩ (.issue 1 1)
        (getText ⟨.issue 1 1, 1500000000000000, -15, false⟩) =
      some ⟨.issue 1 1, 1500000000000000, -15, false⟩ ∧
    amountToRaw (getText ⟨.issue 1 1, 1500000000000000, -15, false⟩) = some 1500000 := by
  have h := (texts_keep_value ⟨true, ⟨.toNearest, .large⟩⟩ ⟨.issue 1 1, 1500000000000000, -15, false⟩
    (by decide)).mpr fun _ _ _ => by decide
  refine ⟨h.1, ?_⟩
  rw [h.2 rfl rfl (by decide)]
  norm_num [decimals]

theorem texts_keep_value_million :
    Canonical ⟨.issue 1 1, 1000000000000000, -3, false⟩ ∧
      getText ⟨.issue 1 1, 1000000000000000, -3, false⟩ =
        "1000000000000000e-3".toList ∧
      amountToRaw (getText ⟨.issue 1 1, 1000000000000000, -3, false⟩) = none := by
  decide +kernel

end STAmount

end FalconLedger.Wire
