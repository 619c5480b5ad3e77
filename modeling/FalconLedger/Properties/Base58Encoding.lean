import FalconLedger.Protocol.Base58

/-!
# Writing base 58

Both codecs write the leading zeros and then the numeral of the rest in base 58 (`encoded`): the
reference codec digit by digit, the fast one by way of coefficients in base 2^64 and base 58^10. The
fixed arrays of the fast codec are large enough because a loop that has as many places left as it has
limbs, and a value below 58^10 to that power, comes to its end (`base5810Coeffs_spec`).
-/

namespace FalconLedger

namespace Base58

open Nat (ofDigits)
open Numeral

/-! ### Characters and bytes -/

theorem kAlphabetReverse_forward : ∀ digit < 58, kAlphabetReverse (forward digit) = some digit := by
  decide

theorem kAlphabetReverse_eq_some {c : UInt8} {digit : ℕ} (h : kAlphabetReverse c = some digit) :
    digit < 58 ∧ forward digit = c := by
  obtain ⟨hlt, heq, -⟩ := List.idxOf?_eq_some_iff.mp h
  refine ⟨hlt, ?_⟩
  rw [forward, List.getD_eq_getElem?_getD, List.getElem?_eq_getElem hlt]
  exact heq

theorem kAlphabetReverse_eq_zero {c : UInt8} : kAlphabetReverse c = some 0 ↔ c = forward 0 := by
  constructor
  · exact fun h => (kAlphabetReverse_eq_some h).2.symm
  · rintro rfl
    exact kAlphabetReverse_forward 0 (by decide)

theorem digits_lt (s : Blob) : ∀ x ∈ digits s, x < 256 := by
  intro x hx
  obtain ⟨c, -, rfl⟩ := List.mem_map.mp hx
  exact c.toNat_lt

@[simp] theorem length_digits (s : Blob) : (digits s).length = s.length := List.length_map _

theorem value_digits (s : Blob) : value 256 (digits s) = Bytes.ofBE s := by
  rw [value_eq_foldl, digits, List.foldl_map, Bytes.ofBE]
  simp only [Nat.mul_comm]

theorem bytes_digits (s : Blob) : bytes (digits s) = s := by
  rw [bytes, digits, List.map_map]
  exact (List.map_congr_left fun c _ => UInt8.ofNat_toNat).trans (List.map_id s)

theorem drop_length_takeWhile {α : Type} (p : α → Bool) (l : List α) :
    l.drop (l.takeWhile p).length = l.dropWhile p := by
  conv_lhs => rw [← List.takeWhile_append_dropWhile (p := p) (l := l)]
  rw [List.drop_append_of_le_length (by simp)]
  simp

theorem digits_dropWhile (s : Blob) : digits (s.dropWhile fun c => c = 0) = strip (digits s) := by
  rw [digits, digits, strip, List.dropWhile_map]
  congr 1
  refine congrArg (fun p => s.dropWhile p) (funext fun c => ?_)
  rw [Function.comp_apply, decide_eq_decide]
  exact ⟨fun h => h ▸ rfl, fun h => UInt8.toNat_inj.mp h⟩

theorem digits_drop_zeros (s : Blob) :
    digits (s.drop (countLeadingZeros 0 s)) = strip (digits s) := by
  rw [countLeadingZeros, drop_length_takeWhile, digits_dropWhile]

/-- What a string of bytes is in base 58. -/
def encoded (s : Blob) : Blob :=
  List.replicate (countLeadingZeros 0 s) (forward 0) ++
    (numeral 58 (value 256 (digits s))).map forward

/-! ### The reference codec -/

namespace RefCodec

theorem convert_spec {b m size : ℕ} (hb : 0 < b) (hm : 1 < m) {ds : List ℕ}
    (hds : ∀ x ∈ ds, x < m) (hfit : m ^ ds.length ≤ b ^ size) :
    ofDigits b (convert b m size ds) = value m ds ∧ (convert b m size ds).length = size ∧
      ∀ x ∈ convert b m size ds, x < b := by
  induction ds using List.reverseRecOn with
  | nil =>
    refine ⟨Nat.ofDigits_replicate_zero, List.length_replicate, fun x hx => ?_⟩
    exact (List.eq_of_mem_replicate hx).symm ▸ hb
  | append_singleton ds x ih =>
    rw [List.length_append, List.length_singleton] at hfit
    have hle : m ^ ds.length ≤ m ^ (ds.length + 1) := Nat.pow_le_pow_right (by omega) (by omega)
    obtain ⟨hvalue, hlength, -⟩ := ih (fun y hy => hds y (List.mem_append_left _ hy)) (hle.trans hfit)
    have hlt := value_lt hm hds
    rw [value_concat, List.length_append, List.length_singleton] at hlt
    have hnext : convert b m size (ds ++ [x]) = (mulAdd b m x (convert b m size ds)).1 := by
      rw [convert, List.foldl_append]
      rfl
    have hroom : m * ofDigits b (convert b m size ds) + x < b ^ (convert b m size ds).length := by
      rw [hvalue, hlength, Nat.mul_comm]
      omega
    rw [hnext]
    refine ⟨?_, (length_mulAdd _ _).trans hlength, mulAdd_lt hb _ _⟩
    rw [(mulAdd_of_lt hroom).2, hvalue, value_concat, Nat.mul_comm]

theorem strip_convert {b m size : ℕ} (hb : 1 < b) (hm : 1 < m) {ds : List ℕ}
    (hds : ∀ x ∈ ds, x < m) (hfit : m ^ ds.length ≤ b ^ size) :
    strip (convert b m size ds).reverse = numeral b (value m ds) := by
  obtain ⟨hvalue, -, hlt⟩ := convert_spec (Nat.zero_lt_of_lt hb) hm hds hfit
  rw [strip_eq_numeral hb fun x hx => hlt x (List.mem_reverse.mp hx), value, List.reverse_reverse,
    hvalue]

theorem encodeBase58_eq (s : Blob) {size : ℕ} (h : 2 * s.length ≤ size) :
    encodeBase58 s size = encoded s := by
  have hfit : 256 ^ (digits (s.drop (countLeadingZeros 0 s))).length ≤ 58 ^ size := by
    rw [length_digits, List.length_drop]
    calc 256 ^ (s.length - countLeadingZeros 0 s) ≤ (58 ^ 2) ^ (s.length - countLeadingZeros 0 s) :=
          Nat.pow_le_pow_left (by norm_num) _
      _ = 58 ^ (2 * (s.length - countLeadingZeros 0 s)) := (pow_mul 58 2 _).symm
      _ ≤ 58 ^ size := Nat.pow_le_pow_right (by norm_num) (by omega)
  rw [encodeBase58, encoded]
  rw [strip_convert (by norm_num) (by norm_num) (digits_lt _) hfit, digits_drop_zeros, value_strip]

end RefCodec

/-! ### The fast encoder -/

namespace FastCodec

theorem kB5810_eq : kB5810 = 58 ^ 10 := by norm_num [kB5810]

theorem kWord_eq : kWord = 256 ^ 8 := by norm_num [kWord]

@[simp] theorem ok_bind {α β : Type} (a : α) (f : α → Except Fault β) :
    (Except.ok a >>= f) = f a := rfl

theorem check_of {c : Prop} [Decidable c] {e : Fault} (h : c) : check c e = .ok () := if_pos h

theorem ofBE_lt (s : Blob) : Bytes.ofBE s < 256 ^ s.length := by
  rw [← value_digits, ← length_digits s]
  exact value_lt (by norm_num) (digits_lt s)

theorem ofBE_append (s t : Blob) :
    Bytes.ofBE (s ++ t) = Bytes.ofBE s * 256 ^ t.length + Bytes.ofBE t := by
  rw [← value_digits, digits, List.map_append, value_append, List.length_map]
  exact congrArg₂ (· * _ + ·) (value_digits s) (value_digits t)

theorem base264Coeffs_spec (input : Blob) (room srcIEnd : ℕ) (hroom : srcIEnd ≤ 8 * room)
    (hle : srcIEnd ≤ input.length) :
    ofDigits kWord (base264Coeffs input room srcIEnd) = Bytes.ofBE (input.take srcIEnd) ∧
      (∀ x ∈ base264Coeffs input room srcIEnd, x < kWord) ∧
      (base264Coeffs input room srcIEnd).length ≤ room := by
  induction room generalizing srcIEnd with
  | zero =>
    obtain rfl : srcIEnd = 0 := by omega
    exact ⟨rfl, List.forall_mem_nil _, le_rfl⟩
  | succ room ih =>
    rw [base264Coeffs]
    split_ifs with hzero hfull
    · subst hzero
      exact ⟨rfl, List.forall_mem_nil _, Nat.zero_le _⟩
    · obtain ⟨hvalue, hlt, hlength⟩ := ih (srcIEnd - 8) (by omega) (by omega)
      have hlen : ((input.take srcIEnd).drop (srcIEnd - 8)).length = 8 := by
        rw [List.length_drop, List.length_take]
        omega
      have hcut : input.take srcIEnd =
          input.take (srcIEnd - 8) ++ (input.take srcIEnd).drop (srcIEnd - 8) := by
        conv_lhs => rw [← List.take_append_drop (srcIEnd - 8) (input.take srcIEnd)]
        rw [List.take_take, Nat.min_eq_left (by omega)]
      refine ⟨?_, fun x hx => ?_, by rw [List.length_cons]; omega⟩
      · rw [Nat.ofDigits_cons, hvalue]
        conv_rhs => rw [hcut, ofBE_append, hlen, ← kWord_eq]
        ring
      · rcases List.mem_cons.mp hx with rfl | hx
        · have := ofBE_lt ((input.take srcIEnd).drop (srcIEnd - 8))
          rwa [hlen, ← kWord_eq] at this
        · exact hlt x hx
    · have hlen : (input.take srcIEnd).length ≤ 8 := by
        rw [List.length_take]
        omega
      refine ⟨Nat.ofDigits_singleton .., fun x hx => ?_, by simp⟩
      obtain rfl := List.mem_singleton.mp hx
      rw [kWord_eq]
      exact (ofBE_lt _).trans_le (Nat.pow_le_pow_right (by norm_num) hlen)

theorem ofDigits_dropLast {b : ℕ} {xs : List ℕ} (h : xs.getLast? = some 0) :
    ofDigits b xs.dropLast = ofDigits b xs := by
  obtain ⟨ys, rfl⟩ : ∃ ys, xs = ys ++ [0] := by
    obtain ⟨ys, hys⟩ := List.getLast?_eq_some_iff.mp h
    exact ⟨ys, hys⟩
  rw [List.dropLast_concat, Nat.ofDigits_append_zero]

theorem base5810Coeffs_spec (room : ℕ) {cs : List ℕ} (hcs : ∀ x ∈ cs, x < kWord)
    (hlength : cs.length ≤ room) (hvalue : ofDigits kWord cs < kB5810 ^ room) :
    ∃ rs, base5810Coeffs room cs = .ok rs ∧ ofDigits kB5810 rs = ofDigits kWord cs ∧
      (∀ x ∈ rs, x < kB5810) ∧ rs.length ≤ room := by
  induction room generalizing cs with
  | zero =>
    obtain rfl := List.length_eq_zero_iff.mp (Nat.le_zero.mp hlength)
    exact ⟨[], rfl, rfl, List.forall_mem_nil _, le_rfl⟩
  | succ room ih =>
    obtain _ | ⟨c, cs⟩ := cs
    · exact ⟨[], rfl, rfl, List.forall_mem_nil _, Nat.zero_le _⟩
    have hpos : 0 < kB5810 := by norm_num [kB5810]
    have hq : ofDigits kWord (divRem kWord kB5810 (c :: cs)).1 < kB5810 ^ room := by
      rw [ofDigits_divRem_eq_div hpos]
      exact Nat.div_lt_of_lt_mul (by rwa [pow_succ'] at hvalue)
    have hqlt := divRem_lt hpos hcs
    have hqlen := length_divRem (b := kWord) (d := kB5810) (c :: cs)
    have hsum := ofDigits_divRem (b := kWord) (d := kB5810) (c :: cs)
    have hrem := divRem_rem_lt (b := kWord) hpos (c :: cs)
    rw [base5810Coeffs, inplaceBigintDivRem]
    -- either the highest limb has become zero, or the value is still so large that there are
    -- more places than limbs
    obtain ⟨rs, hrs, hvalue', hlt, hlen⟩ : ∃ rs, base5810Coeffs room
        (if (divRem kWord kB5810 (c :: cs)).1.getLast? = some 0 then
          (divRem kWord kB5810 (c :: cs)).1.dropLast else (divRem kWord kB5810 (c :: cs)).1) = .ok rs ∧
        ofDigits kB5810 rs = ofDigits kWord (divRem kWord kB5810 (c :: cs)).1 ∧
        (∀ x ∈ rs, x < kB5810) ∧ rs.length ≤ room := by
      split_ifs with hzero
      · rw [← ofDigits_dropLast hzero] at hq ⊢
        refine ih (fun x hx => hqlt x (List.mem_of_mem_dropLast hx)) ?_ hq
        rw [List.length_dropLast, hqlen]
        omega
      · refine ih hqlt ?_ hq
        rw [hqlen]
        have hne : (divRem kWord kB5810 (c :: cs)).1 ≠ [] := by
          rw [← List.length_pos_iff, hqlen]
          exact Nat.succ_pos _
        have htop := pow_le_ofDigits (b := kWord) (fun hne' hz => hzero
          (by rw [List.getLast?_eq_some_getLast hne', hz])) hne
        rw [hqlen] at htop
        have hpow : kWord ^ ((c :: cs).length - 1) < kWord ^ room :=
          (htop.trans_lt hq).trans_le (Nat.pow_le_pow_left (by norm_num [kB5810, kWord]) room)
        have := (Nat.pow_lt_pow_iff_right (by norm_num [kWord])).mp hpow
        omega
    refine ⟨(divRem kWord kB5810 (c :: cs)).2 :: rs, by rw [hrs]; rfl, ?_, ?_, ?_⟩
    · rw [Nat.ofDigits_cons, hvalue', ← hsum]
      ring
    · intro x hx
      rcases List.mem_cons.mp hx with rfl | hx
      · exact hrem
      · exact hlt x hx
    · rw [List.length_cons]
      omega

/-- Ten digits for each coefficient. -/
def expand (c : ℕ) : List ℕ := List.replicate (10 - (numeral 58 c).length) 0 ++ numeral 58 c

theorem b58Digits_eq {room input : ℕ} (h : input < 58 ^ room) :
    b58Digits room input = .ok (Nat.digits 58 input) := by
  induction room generalizing input with
  | zero =>
    obtain rfl : input = 0 := by simpa using h
    rfl
  | succ room ih =>
    rw [b58Digits]
    split_ifs with hpos
    · have hnext : input / 58 < 58 ^ room :=
        Nat.div_lt_of_lt_mul (by rwa [pow_succ'] at h)
      rw [ih hnext, Nat.digits_eq_cons_digits_div (by norm_num) hpos.ne']
      rfl
    · obtain rfl : input = 0 := by omega
      rw [Nat.digits_zero]

theorem b5810ToB58Be_eq {c : ℕ} (h : c < kB5810) : b5810ToB58Be c = .ok (expand c) := by
  rw [b5810ToB58Be, b58Digits_eq (kB5810_eq ▸ h), expand, numeral, List.length_reverse]
  rfl

theorem length_expand {c : ℕ} (h : c < kB5810) : (expand c).length = 10 := by
  have hle := (length_numeral_le (b := 58) (by norm_num)).mpr (kB5810_eq ▸ h)
  rw [expand, List.length_append, List.length_replicate]
  omega

theorem expand_lt (c : ℕ) : ∀ x ∈ expand c, x < 58 := by
  intro x hx
  rcases List.mem_append.mp hx with hx | hx
  · rw [List.eq_of_mem_replicate hx]
    norm_num
  · exact numeral_lt (by norm_num) hx

theorem value_expand (c : ℕ) : value 58 (expand c) = c := by
  have hzeros : value 58 (List.replicate (10 - (numeral 58 c).length) 0) = 0 := by
    rw [value, List.reverse_replicate, Nat.ofDigits_replicate_zero]
  rw [expand, value_append, hzeros, value_numeral, zero_mul, zero_add]

theorem write_of_le {outSize : ℕ} {out s : Blob} (h : out.length + s.length ≤ outSize) :
    write outSize out s = .ok (out ++ s) := if_pos h

theorem writeCoeffs_eq (outSize : ℕ) (out : Blob) {cs : List ℕ} (hcs : ∀ c ∈ cs, c < kB5810)
    (hroom : out.length + 10 * cs.length ≤ outSize) :
    writeCoeffs outSize out cs = .ok (out ++ (cs.flatMap expand).map forward) := by
  induction cs generalizing out with
  | nil => rw [writeCoeffs, List.flatMap_nil, List.map_nil, List.append_nil]
  | cons c cs ih =>
    have hc := hcs c List.mem_cons_self
    have hlen : ((expand c).map forward).length = 10 := by
      rw [List.length_map, length_expand hc]
    rw [List.length_cons] at hroom
    have hwrite : write outSize out ((expand c).map forward) =
        .ok (out ++ (expand c).map forward) := write_of_le (by omega)
    have hrest := ih (out ++ (expand c).map forward) (fun x hx => hcs x (List.mem_cons_of_mem c hx))
      (by rw [List.length_append, hlen]; omega)
    rw [writeCoeffs, check_of hc, b5810ToB58Be_eq hc, ok_bind, ok_bind, hwrite, ok_bind, hrest,
      List.flatMap_cons, List.map_append, List.append_assoc]

theorem strip_expand_of_ne {c : ℕ} (h : c ≠ 0) : strip (expand c) ≠ [] := by
  intro hnil
  apply h
  rw [← value_expand c, ← value_strip, hnil, value_nil]

theorem skipCoeffs_eq (outSize : ℕ) (out : Blob) {cs : List ℕ} (hcs : ∀ c ∈ cs, c < kB5810)
    (hroom : out.length + 10 * cs.length ≤ outSize) :
    skipCoeffs outSize out cs = .ok (out ++ (strip (cs.flatMap expand)).map forward) := by
  induction cs with
  | nil => rw [skipCoeffs, List.flatMap_nil, strip, List.dropWhile_nil, List.map_nil,
      List.append_nil]
  | cons c cs ih =>
    have hc := hcs c List.mem_cons_self
    have hcs' : ∀ x ∈ cs, x < kB5810 := fun x hx => hcs x (List.mem_cons_of_mem c hx)
    rw [List.length_cons] at hroom
    rw [skipCoeffs, List.flatMap_cons]
    split_ifs with hzero
    · have hstrip : strip (expand c) = [] := by
        rw [strip_eq_numeral (by norm_num) (expand_lt c), value_expand, hzero]
        rfl
      rw [strip_append_of_nil hstrip]
      exact ih hcs' (by omega)
    · have hlen : (strip (expand c)).length ≤ 10 :=
        ((List.dropWhile_sublist _).length_le).trans (length_expand hc).le
      have hwrite : write outSize out ((strip (expand c)).map forward) =
          .ok (out ++ (strip (expand c)).map forward) :=
        write_of_le (by rw [List.length_map]; omega)
      have hrest := writeCoeffs_eq outSize (out ++ (strip (expand c)).map forward) hcs'
        (by rw [List.length_append, List.length_map]; omega)
      have hskip : (expand c).drop ((expand c).takeWhile fun x => x = 0).length =
          strip (expand c) := drop_length_takeWhile _ _
      have hroom' : (cs.length + 1) * 10 - ((expand c).takeWhile fun x => x = 0).length ≤ outSize := by
        omega
      rw [check_of hc, b5810ToB58Be_eq hc, ok_bind, ok_bind]
      dsimp only
      rw [check_of hroom', ok_bind, hskip, hwrite, ok_bind, hrest, strip_append_of_ne_nil (strip_expand_of_ne hzero), List.map_append,
        List.append_assoc]

theorem strip_flatMap_expand {cs : List ℕ} (hcs : ∀ c ∈ cs, c < kB5810) :
    strip (cs.flatMap expand) = numeral 58 (value kB5810 cs) := by
  rw [kB5810_eq]
  exact strip_flatMap (by norm_num) (fun c hc => length_expand (hcs c hc)) (fun c _ => expand_lt c)
    fun c _ => value_expand c

theorem b256ToB58Be_eq {input : Blob} (h : input.length ≤ 38) :
    b256ToB58Be input 128 = .ok (encoded input) := by
  have hzeros : countLeadingZeros 0 input ≤ 38 :=
    ((List.takeWhile_sublist _).length_le).trans h
  have hrest : (input.drop (countLeadingZeros 0 input)).length ≤ 38 := by
    rw [List.length_drop]
    omega
  obtain ⟨hvalue, hlt, hlength⟩ := base264Coeffs_spec (input.drop (countLeadingZeros 0 input)) 5 _
    (by omega) le_rfl
  rw [List.take_length, ← value_digits, digits_drop_zeros, value_strip] at hvalue
  have hsmall : value 256 (digits input) < kB5810 ^ 6 := by
    refine (value_lt (by norm_num) (digits_lt input)).trans_le ?_
    calc 256 ^ (digits input).length ≤ 256 ^ 38 :=
          Nat.pow_le_pow_right (by norm_num) (by rwa [length_digits])
      _ ≤ kB5810 ^ 6 := by norm_num [kB5810]
  obtain ⟨rs, hrs, hvalue', hrlt, hrlen⟩ := base5810Coeffs_spec 6 hlt (by omega)
    (hvalue ▸ hsmall)
  have hrev : ∀ x ∈ rs.reverse, x < kB5810 := fun x hx => hrlt x (List.mem_reverse.mp hx)
  have hwrite : write 128 [] (List.replicate (countLeadingZeros 0 input) (forward 0)) =
      .ok (List.replicate (countLeadingZeros 0 input) (forward 0)) :=
    write_of_le (by rw [List.length_nil, List.length_replicate]; omega)
  have hskip := skipCoeffs_eq 128 (List.replicate (countLeadingZeros 0 input) (forward 0)) hrev
    (by rw [List.length_replicate, List.length_reverse]; omega)
  rw [strip_flatMap_expand hrev, value, List.reverse_reverse, hvalue', hvalue] at hskip
  rw [b256ToB58Be, check_of h, ok_bind]
  dsimp only
  rw [hrs, ok_bind, hwrite, ok_bind, hskip, encoded]

end FastCodec

end Base58

end FalconLedger
