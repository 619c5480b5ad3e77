import FalconLedger.Properties.Base58Encoding
import Mathlib.Data.List.TakeWhile

/-!
# Reading base 58

What a string stands for (`decoded`) are the leading zeros and then the bytes of the number that the
rest writes. The fast decoder cuts the string into coefficients of ten characters (`b5810Coeffs_spec`)
and collects them in limbs: of the five limbs there are as many in use as the value needs (`Result`),
and at most 52 characters need no more than five.
-/

namespace FalconLedger

namespace Base58

open Nat (ofDigits)
open Numeral

/-- The digit of a character, if it has one. -/
def digit (c : UInt8) : ℕ := (kAlphabetReverse c).getD 0

/-- Strings of characters of the alphabet. -/
def Valid (s : Blob) : Prop := ∀ c ∈ s, (kAlphabetReverse c).isSome

instance (s : Blob) : Decidable (Valid s) := inferInstanceAs (Decidable (∀ c ∈ s, _))

theorem digit_lt (c : UInt8) : digit c < 58 := by
  rw [digit]
  cases h : kAlphabetReverse c with
  | none => norm_num
  | some d => exact (kAlphabetReverse_eq_some h).1

/-- What a string of characters of the alphabet says. -/
def decoded (s : Blob) : Blob :=
  List.replicate (countLeadingZeros (forward 0) s) 0 ++
    bytes (numeral 256 (value 58 (s.map digit)))

theorem value_map_digit (s : Blob) :
    value 58 (s.map digit) = value 58 ((s.drop (countLeadingZeros (forward 0) s)).map digit) := by
  have hzeros : ∀ x ∈ (s.takeWhile fun c => c = forward 0).map digit, x = 0 := by
    intro x hx
    obtain ⟨c, hc, rfl⟩ := List.mem_map.mp hx
    have hfirst : c = forward 0 := by simpa using List.mem_takeWhile_imp hc
    rw [hfirst, digit, kAlphabetReverse_forward 0 (by norm_num), Option.getD_some]
  rw [countLeadingZeros, drop_length_takeWhile]
  conv_lhs => rw [← List.takeWhile_append_dropWhile (p := fun c => c = forward 0) (l := s)]
  rw [List.map_append, value_append_of_zero hzeros]

theorem length_decoded_le (s : Blob) : (decoded s).length ≤ s.length := by
  have hzeros : countLeadingZeros (forward 0) s ≤ s.length := (List.takeWhile_sublist _).length_le
  have hvalue : value 58 (s.map digit) < 256 ^ (s.length - countLeadingZeros (forward 0) s) := by
    have hlt : ∀ x ∈ (s.drop (countLeadingZeros (forward 0) s)).map digit, x < 58 := by
      intro x hx
      obtain ⟨c, -, rfl⟩ := List.mem_map.mp hx
      exact digit_lt c
    have := value_lt (b := 58) (by norm_num) hlt
    rw [List.length_map, List.length_drop] at this
    rw [value_map_digit]
    exact this.trans_le (Nat.pow_le_pow_left (by norm_num) _)
  have hlen := (length_numeral_le (b := 256) (by norm_num)).mpr hvalue
  rw [decoded, List.length_append, List.length_replicate, bytes, List.length_map]
  omega

namespace FastCodec

/-- What the limbs hold. -/
structure Holds (limbs : List ℕ) (v : ℕ) : Prop where
  lt : ∀ x ∈ limbs, x < kWord
  value : ofDigits kWord limbs = v

theorem Holds.lt_pow {limbs : List ℕ} {v : ℕ} (h : Holds limbs v) : v < kWord ^ limbs.length :=
  h.value ▸ Nat.ofDigits_lt_base_pow_length (by norm_num [kWord]) h.lt

theorem carryUp_spec {vs : List ℕ} {carry : ℕ} (hvs : ∀ x ∈ vs, x < kWord) (hcarry : carry ≤ 1)
    (hfit : ofDigits kWord vs + carry < kWord ^ vs.length) :
    ∃ ws, carryUp vs carry = .ok ws ∧ Holds ws (ofDigits kWord vs + carry) ∧
      ws.length = vs.length := by
  induction vs generalizing carry with
  | nil =>
    obtain rfl : carry = 0 := by simpa using hfit
    exact ⟨[], rfl, ⟨List.forall_mem_nil _, rfl⟩, rfl⟩
  | cons v vs ih =>
    rw [carryUp]
    split_ifs with hzero
    · exact ⟨v :: vs, rfl, ⟨hvs, by rw [hzero, add_zero]⟩, rfl⟩
    · obtain rfl : carry = 1 := by omega
      have hpos : 0 < kWord := by norm_num [kWord]
      have hv := hvs v List.mem_cons_self
      have hsplit := Nat.mod_add_div (v + 1) kWord
      rw [Nat.ofDigits_cons, List.length_cons, pow_succ'] at hfit
      have hnext : ofDigits kWord vs + (v + 1) / kWord < kWord ^ vs.length := by
        refine lt_of_mul_lt_mul_left (a := kWord) ?_ (Nat.zero_le _)
        rw [Nat.mul_add]
        omega
      obtain ⟨ws, hws, hholds, hlength⟩ := ih (fun x hx => hvs x (List.mem_cons_of_mem v hx))
        (Nat.div_le_of_le_mul (by omega)) hnext
      refine ⟨(v + 1) % kWord :: ws, ?_, ⟨?_, ?_⟩, by rw [List.length_cons, hlength]; rfl⟩
      · rw [carryingAdd, hws]
        rfl
      · exact List.forall_mem_cons.mpr ⟨Nat.mod_lt _ hpos, hholds.lt⟩
      · rw [Nat.ofDigits_cons, hholds.value, Nat.ofDigits_cons, Nat.mul_add]
        omega

theorem inplaceBigintAdd_spec {limbs : List ℕ} {v c : ℕ} (h : Holds limbs v) (hc : c < kWord)
    (hlength : 2 ≤ limbs.length) (hfit : v + c < kWord ^ limbs.length) :
    ∃ ws, inplaceBigintAdd limbs c = .ok ws ∧ Holds ws (v + c) ∧ ws.length = limbs.length := by
  obtain _ | ⟨x, _ | ⟨y, xs⟩⟩ := limbs
  · exact absurd hlength (by simp)
  · exact absurd hlength (by simp)
  have hpos : 0 < kWord := by norm_num [kWord]
  have hx := h.lt x List.mem_cons_self
  have hvalue := h.value
  have hsplit := Nat.mod_add_div (x + c) kWord
  rw [Nat.ofDigits_cons] at hvalue
  rw [List.length_cons, pow_succ'] at hfit
  have hnext : ofDigits kWord (y :: xs) + (x + c) / kWord < kWord ^ (y :: xs).length := by
    refine lt_of_mul_lt_mul_left (a := kWord) ?_ (Nat.zero_le _)
    rw [Nat.mul_add]
    omega
  have hcarry : (x + c) / kWord ≤ 1 := by
    rw [Nat.div_le_iff_le_mul_add_pred hpos]
    omega
  obtain ⟨ws, hws, hholds, hlength'⟩ :=
    carryUp_spec (fun z hz => h.lt z (List.mem_cons_of_mem x hz)) hcarry hnext
  refine ⟨(x + c) % kWord :: ws, ?_, ⟨?_, ?_⟩, by rw [List.length_cons, hlength']; rfl⟩
  · rw [inplaceBigintAdd, carryingAdd, hws]
    · rfl
    · simp
  · exact List.forall_mem_cons.mpr ⟨Nat.mod_lt _ hpos, hholds.lt⟩
  · rw [Nat.ofDigits_cons, hholds.value, Nat.mul_add]
    omega

theorem inplaceBigintMul_spec {limbs : List ℕ} {v m : ℕ} (h : Holds limbs v) (hm : m ≤ kWord) :
    ∃ ws, inplaceBigintMul (limbs ++ [0]) m = .ok ws ∧ Holds ws (m * v) ∧
      ws.length = limbs.length + 1 := by
  have hpos : 0 < kWord := by norm_num [kWord]
  have hsum := ofDigits_mulAdd (b := kWord) (m := m) 0 limbs
  rw [h.value, add_zero] at hsum
  have htop : (mulAdd kWord m 0 limbs).2 < kWord := by
    by_contra hge
    have hle : kWord ^ limbs.length * kWord ≤ m * v :=
      (Nat.mul_le_mul_left _ (Nat.le_of_not_lt hge)).trans (by omega)
    have hlt : m * v < kWord * kWord ^ limbs.length :=
      (Nat.mul_le_mul_right v hm).trans_lt ((Nat.mul_lt_mul_left hpos).mpr h.lt_pow)
    rw [Nat.mul_comm] at hle
    omega
  refine ⟨(mulAdd kWord m 0 limbs).1 ++ [(mulAdd kWord m 0 limbs).2], ?_, ⟨?_, ?_⟩, ?_⟩
  · rw [inplaceBigintMul, List.getLast?_concat]
    dsimp only
    rw [if_neg (by simp), List.dropLast_concat]
  · intro x hx
    rcases List.mem_append.mp hx with hx | hx
    · exact mulAdd_lt hpos _ _ x hx
    · exact List.mem_singleton.mp hx ▸ htop
  · rw [Nat.ofDigits_append, Nat.ofDigits_singleton, length_mulAdd]
    exact hsum
  · rw [List.length_append, length_mulAdd, List.length_singleton]

/-- The array of five limbs, of which the first `curResultSize` hold the value; all of them are
needed, except that zero takes one. -/
structure Result (result : List ℕ) (curResultSize v : ℕ) : Prop where
  pos : 0 < curResultSize
  le : curResultSize ≤ 5
  length : result.length = 5
  holds : Holds (result.take curResultSize) v
  rest : result.drop curResultSize = List.replicate (5 - curResultSize) 0
  needed : curResultSize = 1 ∨ kWord ^ (curResultSize - 1) ≤ v

theorem accumulate_spec {result : List ℕ} {curResultSize v c : ℕ} (h : Result result curResultSize v)
    (hv : v < kWord ^ 4) (hc : c < kB5810) :
    ∃ r, accumulate (result, curResultSize) c = .ok r ∧ Result r.1 r.2 (kB5810 * v + c) := by
  have hpos := h.pos
  have hsize : curResultSize ≤ 4 := by
    rcases h.needed with hone | hneeded
    · omega
    · have := (Nat.pow_lt_pow_iff_right (by norm_num [kWord])).mp (hneeded.trans_lt hv)
      omega
  have hlength := h.length
  have hword : kB5810 ≤ kWord := by norm_num [kB5810, kWord]
  have hspan : result.take (curResultSize + 1) = result.take curResultSize ++ [0] := by
    have hget : result[curResultSize]? = some 0 := by
      have hdrop : (result.drop curResultSize)[0]? = some 0 := by
        rw [h.rest, List.getElem?_replicate, if_pos (by omega)]
      rwa [List.getElem?_drop, add_zero] at hdrop
    rw [List.take_add_one, hget]
    rfl
  have htake : (result.take curResultSize).length = curResultSize := by
    rw [List.length_take]
    omega
  obtain ⟨product, hmul, hproduct, hplen⟩ := inplaceBigintMul_spec h.holds hword
  rw [htake] at hplen
  have hvlt := h.holds.lt_pow
  rw [htake] at hvlt
  have hfit : kB5810 * v + c < kWord ^ (curResultSize + 1) := by
    calc kB5810 * v + c < kB5810 * (v + 1) := by rw [Nat.mul_add]; omega
      _ ≤ kWord * kWord ^ curResultSize := Nat.mul_le_mul hword hvlt
      _ = kWord ^ (curResultSize + 1) := (pow_succ' _ _).symm
  obtain ⟨span, hadd, hsum, hslen⟩ := inplaceBigintAdd_spec hproduct (hc.trans_le hword) (by omega)
    (by rwa [hplen])
  rw [hplen] at hslen
  have hdrop : result.drop (curResultSize + 1) = List.replicate (5 - (curResultSize + 1)) 0 := by
    rw [← List.drop_drop, h.rest, List.drop_replicate]
    congr 1
  rw [accumulate, check_of (by omega), ok_bind, hspan, hmul, ok_bind, hadd, ok_bind]
  dsimp only
  refine ⟨_, rfl, ?_⟩
  have hnext : (span ++ result.drop (curResultSize + 1)).length = 5 := by
    rw [List.length_append, List.length_drop]
    omega
  have hgrow : v ≤ kB5810 * v + c :=
    (Nat.le_mul_of_pos_left v (by norm_num [kB5810])).trans (Nat.le_add_right _ _)
  obtain ⟨low, top, rfl⟩ : ∃ low top, span = low ++ [top] :=
    ⟨span.dropLast, span.getLast (by rw [← List.length_pos_iff]; omega),
      (List.dropLast_append_getLast _).symm⟩
  have hlow : low.length = curResultSize := by
    rw [List.length_append, List.length_singleton] at hslen
    omega
  have htop : (low ++ [top] ++ result.drop (curResultSize + 1)).getD curResultSize 0 = top := by
    rw [List.append_assoc, List.getD_eq_getElem?_getD, List.getElem?_append_right hlow.le, hlow,
      Nat.sub_self]
    rfl
  rw [htop]
  split_ifs with hzero
  · -- the product has one limb more
    refine ⟨by omega, by omega, hnext, ?_, ?_, .inr ?_⟩
    · rw [List.take_append_of_le_length (by omega), List.take_of_length_le (by omega)]
      exact hsum
    · rw [List.drop_append_of_le_length (by omega), List.drop_of_length_le (by omega),
        List.nil_append]
      exact hdrop
    · rw [Nat.add_sub_cancel, ← hsum.value, Nat.ofDigits_append, Nat.ofDigits_singleton, hlow]
      exact (Nat.le_mul_of_pos_right _ (Nat.pos_of_ne_zero hzero)).trans (Nat.le_add_left _ _)
  · obtain rfl : top = 0 := by simpa using hzero
    have hlimbs : (low ++ [0] ++ result.drop (curResultSize + 1)).take curResultSize = low := by
      rw [List.append_assoc, List.take_append_of_le_length (by omega),
        List.take_of_length_le (by omega)]
    refine ⟨hpos, h.le, hnext, ?_, ?_, h.needed.imp_right hgrow.trans'⟩
    · rw [hlimbs]
      refine ⟨fun x hx => hsum.lt x (List.mem_append_left _ hx), ?_⟩
      rw [← hsum.value, Nat.ofDigits_append_zero]
    · rw [List.append_assoc, List.drop_append_of_le_length (by omega),
        List.drop_of_length_le (by omega), List.nil_append, hdrop]
      have : 5 - curResultSize = 5 - (curResultSize + 1) + 1 := by omega
      rw [this, List.replicate_succ]
      rfl

/-- The first coefficient alone. -/
theorem result_head {c : ℕ} (h : c < kB5810) : Result (c :: List.replicate 4 0) 1 c where
  pos := Nat.one_pos
  le := by norm_num
  length := rfl
  holds := ⟨fun x hx => (List.mem_singleton.mp hx).symm ▸ h.trans (by norm_num [kB5810, kWord]),
    Nat.ofDigits_singleton ..⟩
  rest := rfl
  needed := .inl rfl

theorem foldlM_accumulate (cs : List ℕ) {result : List ℕ} {curResultSize v : ℕ}
    (h : Result result curResultSize v) (hcs : ∀ c ∈ cs, c < kB5810)
    (hfit : (v + 1) * kB5810 ^ cs.length ≤ 58 ^ 52) :
    ∃ r, cs.foldlM accumulate (result, curResultSize) = .ok r ∧
      Result r.1 r.2 (v * kB5810 ^ cs.length + value kB5810 cs) := by
  induction cs generalizing result curResultSize v with
  | nil => exact ⟨_, rfl, by simpa using h⟩
  | cons c cs ih =>
    have hc := hcs c List.mem_cons_self
    have hpow : 0 < kB5810 ^ cs.length := Nat.pow_pos (by norm_num [kB5810])
    rw [List.length_cons, pow_succ'] at hfit
    have hv : v < kWord ^ 4 := by
      have hone : (v + 1) * kB5810 ≤ 58 ^ 52 := by
        refine le_trans ?_ hfit
        rw [← Nat.mul_assoc]
        exact Nat.le_mul_of_pos_right _ hpow
      have hlimit : 58 ^ 52 < kWord ^ 4 * kB5810 := by norm_num [kWord, kB5810]
      have := lt_of_mul_lt_mul_right (hone.trans_lt hlimit) (Nat.zero_le _)
      omega
    obtain ⟨⟨result', size'⟩, hstep, hresult⟩ := accumulate_spec h hv hc
    obtain ⟨r, hr, hfinal⟩ := ih hresult (fun x hx => hcs x (List.mem_cons_of_mem c hx)) (by
      refine le_trans ?_ hfit
      rw [← Nat.mul_assoc]
      refine Nat.mul_le_mul_right _ ?_
      calc kB5810 * v + c + 1 ≤ kB5810 * v + kB5810 := by omega
        _ = (v + 1) * kB5810 := by ring)
    refine ⟨r, ?_, ?_⟩
    · rw [List.foldlM_cons, hstep, ok_bind]
      exact hr
    · rw [List.length_cons, value_cons, pow_succ']
      have hvalue : v * (kB5810 * kB5810 ^ cs.length) +
          (c * kB5810 ^ cs.length + value kB5810 cs) =
          (kB5810 * v + c) * kB5810 ^ cs.length + value kB5810 cs := by ring
      rw [hvalue]
      exact hfinal

/-- The coefficients of parts of a string, of at most ten characters each. -/
structure Read (coeff : List ℕ) (parts : ℕ → Blob) : Prop where
  length : coeff.length = 6
  valid : ∀ k < 6, Valid (parts k)
  short : ∀ k < 6, (parts k).length ≤ 10
  value : ∀ k < 6, coeff[k]? = some (value 58 ((parts k).map digit))

/-- The parts have been read, or the string has a character that is not in the alphabet. -/
def Outcome (s : Blob) (r : Except Fault (List ℕ)) (parts : ℕ → Blob) : Prop :=
  (∃ coeff, r = .ok coeff ∧ Read coeff parts) ∨
    r = .error (.code .invalidEncodingChar) ∧ ¬Valid s

theorem Outcome.bind {s : Blob} {r : Except Fault (List ℕ)} {parts parts' : ℕ → Blob}
    {f : List ℕ → Except Fault (List ℕ)} (h : Outcome s r parts)
    (hf : ∀ coeff, Read coeff parts → Outcome s (f coeff) parts') : Outcome s (r >>= f) parts' := by
  rcases h with ⟨coeff, rfl, hread⟩ | ⟨rfl, hinvalid⟩
  · exact hf coeff hread
  · exact .inr ⟨rfl, hinvalid⟩

theorem push_spec {s : Blob} {coeff : List ℕ} {parts : ℕ → Blob} {index : ℕ} {c : UInt8}
    (h : Read coeff parts) (hindex : index < 6) (hshort : (parts index).length < 10) (hc : c ∈ s) :
    Outcome s (push coeff index c) (Function.update parts index (parts index ++ [c])) := by
  rw [push]
  cases hrev : kAlphabetReverse c with
  | none => exact .inr ⟨rfl, fun hvalid => by simpa [hrev] using hvalid c hc⟩
  | some d =>
    have hlt : index < coeff.length := h.length.symm ▸ hindex
    have hcoeff : coeff[index] = value 58 ((parts index).map digit) := by
      have := h.value index hindex
      rwa [List.getElem?_eq_getElem hlt, Option.some_inj] at this
    have hd : digit c = d := by rw [digit, hrev, Option.getD_some]
    have hnew : value 58 ((parts index ++ [c]).map digit) =
        value 58 ((parts index).map digit) * 58 + d := by
      rw [List.map_append, List.map_singleton, value_concat, hd]
    have hsmall : value 58 ((parts index ++ [c]).map digit) < kWord := by
      have hlt : ∀ x ∈ (parts index ++ [c]).map digit, x < 58 := by
        intro x hx
        obtain ⟨a, -, rfl⟩ := List.mem_map.mp hx
        exact digit_lt a
      calc value 58 ((parts index ++ [c]).map digit)
          < 58 ^ ((parts index ++ [c]).map digit).length := value_lt (by norm_num) hlt
        _ ≤ 58 ^ 10 := Nat.pow_le_pow_right (by norm_num) (by simpa using hshort)
        _ < kWord := by norm_num [kWord]
    dsimp only
    rw [dif_pos hlt, hcoeff]
    have hnowrap : (value 58 ((parts index).map digit) * 58 % kWord + d) % kWord =
        value 58 ((parts index ++ [c]).map digit) := by
      rw [Nat.mod_add_mod, ← hnew, Nat.mod_eq_of_lt hsmall]
    refine .inl ⟨_, rfl, List.length_set.trans h.length, fun k hk => ?_, fun k hk => ?_,
      fun k hk => ?_⟩
    · by_cases hsame : k = index
      · subst hsame
        rw [Function.update_self]
        intro a ha
        rcases List.mem_append.mp ha with ha | ha
        · exact h.valid k hk a ha
        · rw [List.mem_singleton.mp ha, hrev]
          rfl
      · rw [Function.update_of_ne hsame]
        exact h.valid k hk
    · by_cases hsame : k = index
      · subst hsame
        rw [Function.update_self, List.length_append]
        exact hshort
      · rw [Function.update_of_ne hsame]
        exact h.short k hk
    · by_cases hsame : k = index
      · subst hsame
        rw [Function.update_self, List.getElem?_set_self hlt, hnowrap]
      · rw [Function.update_of_ne hsame, List.getElem?_set_ne (Ne.symm hsame)]
        exact h.value k hk

/-- The loop over the characters that are left when the string is cut into tens. -/
theorem foldlM_push {s : Blob} (cs : Blob) {coeff : List ℕ} {parts : ℕ → Blob}
    (h : Read coeff parts) (hshort : (parts 0).length + cs.length ≤ 10) (hcs : ∀ c ∈ cs, c ∈ s) :
    Outcome s (cs.foldlM (fun coeff c => push coeff 0 c) coeff)
      (Function.update parts 0 (parts 0 ++ cs)) := by
  induction cs generalizing coeff parts with
  | nil =>
    rw [List.append_nil, Function.update_eq_self]
    exact .inl ⟨coeff, rfl, h⟩
  | cons c cs ih =>
    rw [List.length_cons] at hshort
    rw [List.foldlM_cons]
    refine (push_spec h (by norm_num) (by omega) (hcs c List.mem_cons_self)).bind
      fun coeff' hread => ?_
    have hrest := ih hread (by simp; omega) fun a ha => hcs a (List.mem_cons_of_mem c ha)
    rw [Function.update_self, Function.update_idem, List.append_assoc] at hrest
    exact hrest

section Chunks

variable (s : Blob)

/-- The first characters, when the string is cut into tens from the end. -/
def partialLen : ℕ := s.length % 10

def numPartial : ℕ := if s.length % 10 ≠ 0 then 1 else 0

/-- The characters of each coefficient after `i` rounds, and `j` steps of the next one. -/
def chunk (i j k : ℕ) : Blob :=
  if k < numPartial s then s.take (partialLen s)
  else (s.drop (partialLen s + (k - numPartial s) * 10)).take
    (if k - numPartial s < j then i + 1 else i)

variable {s}

theorem chunk_full {i k : ℕ} : chunk s i (s.length / 10) k = chunk s (i + 1) 0 k := by
  rw [chunk, chunk]
  split_ifs with htens hj hzero
  · rfl
  · exact absurd hzero (Nat.not_lt_zero _)
  · rfl
  · omega
  · -- beyond the last ten there is nothing
    have hbeyond : s.length ≤ partialLen s + (k - numPartial s) * 10 := by
      rw [partialLen]
      omega
    rw [List.drop_of_length_le hbeyond, List.take_nil, List.take_nil]

theorem update_chunk {i j : ℕ} {c : UInt8}
    (hc : s[partialLen s + j * 10 + i]? = some c) :
    Function.update (chunk s i j) (numPartial s + j) (chunk s i j (numPartial s + j) ++ [c]) =
      chunk s i (j + 1) := by
  funext k
  by_cases hk : k = numPartial s + j
  · subst hk
    rw [Function.update_self, chunk, chunk, if_neg (by omega), if_neg (by omega),
      Nat.add_sub_cancel_left, if_neg (by omega), if_pos (by omega), List.take_add_one,
      List.getElem?_drop, hc]
    rfl
  · rw [Function.update_of_ne hk, chunk, chunk]
    split_ifs <;> first | rfl | omega

theorem inner_spec {coeff : List ℕ} {i n : ℕ} (hlen : s.length ≤ 52) (hi : i < 10)
    (hn : n ≤ s.length / 10) (h : Read coeff (chunk s i 0)) :
    Outcome s ((List.range n).foldlM (fun coeff j =>
      pushAt s coeff (numPartial s + j) (partialLen s + j * 10 + i)) coeff) (chunk s i n) := by
  induction n with
  | zero => exact .inl ⟨coeff, rfl, h⟩
  | succ j ih =>
    rw [List.range_succ, List.foldlM_append]
    refine (ih (by omega)).bind fun coeff' hread => ?_
    have hplace : partialLen s + j * 10 + i < s.length := by
      rw [partialLen]
      omega
    have hindex : numPartial s + j < 6 := by
      rw [numPartial]
      split_ifs <;> omega
    have hget : s[partialLen s + j * 10 + i]? = some s[partialLen s + j * 10 + i] :=
      List.getElem?_eq_getElem hplace
    have hshort : (chunk s i j (numPartial s + j)).length < 10 := by
      rw [chunk, if_neg (by omega), Nat.add_sub_cancel_left, if_neg (by omega), List.length_take]
      omega
    have hpush := push_spec hread hindex hshort (List.getElem_mem hplace)
    rw [update_chunk hget] at hpush
    rw [List.foldlM_cons, pushAt, hget]
    exact hpush.bind fun coeff'' hread'' => .inl ⟨coeff'', rfl, hread''⟩

theorem outer_spec {coeff : List ℕ} {n : ℕ} (hlen : s.length ≤ 52) (hn : n ≤ 10)
    (h : Read coeff (chunk s 0 0)) :
    Outcome s ((List.range n).foldlM (fun coeff i => (List.range (s.length / 10)).foldlM
      (fun coeff j => pushAt s coeff (numPartial s + j) (partialLen s + j * 10 + i)) coeff) coeff)
      (chunk s n 0) := by
  induction n with
  | zero => exact .inl ⟨coeff, rfl, h⟩
  | succ i ih =>
    rw [List.range_succ, List.foldlM_append]
    refine (ih (by omega)).bind fun coeff' hread => ?_
    have hinner := inner_spec hlen (i := i) (by omega) le_rfl hread
    have hfull : chunk s i (s.length / 10) = chunk s (i + 1) 0 := funext fun k => chunk_full
    rw [hfull] at hinner
    rw [List.foldlM_cons]
    exact hinner.bind fun coeff'' hread'' => .inl ⟨coeff'', rfl, hread''⟩

theorem b5810Coeffs_spec (hlen : s.length ≤ 52) : Outcome s (b5810Coeffs s) (chunk s 10 0) := by
  have hstart : Read (List.replicate 6 0) fun _ => [] :=
    ⟨List.length_replicate, fun _ _ => List.forall_mem_nil _, fun _ _ => Nat.zero_le _,
      fun k hk => by rw [List.getElem?_replicate, if_pos hk]; rfl⟩
  have hfirst := foldlM_push (s := s) (s.take (partialLen s)) hstart
    (by rw [List.length_nil, List.length_take, partialLen]; omega) fun c hc => List.mem_of_mem_take hc
  have hparts : Function.update (fun _ => []) 0 ([] ++ s.take (partialLen s)) = chunk s 0 0 := by
    funext k
    by_cases hk : k = 0
    · subst hk
      rw [Function.update_self, List.nil_append, chunk, numPartial, partialLen]
      split_ifs <;> simp_all
    · rw [Function.update_of_ne hk, chunk, if_neg, if_neg (Nat.not_lt_zero _), List.take_zero]
      rw [numPartial]
      split_ifs <;> omega
  rw [hparts] at hfirst
  exact hfirst.bind fun coeff hread => outer_spec hlen le_rfl hread

theorem Read.valid_string {coeff : List ℕ} (hlen : s.length ≤ 52)
    (h : Read coeff (chunk s 10 0)) : Valid s := by
  intro c hc
  obtain ⟨place, hplace, rfl⟩ := List.mem_iff_getElem.mp hc
  by_cases hfirst : place < partialLen s
  · have htens : numPartial s = 1 := if_pos (by rw [partialLen] at hfirst; omega)
    refine h.valid 0 (by norm_num) _ ?_
    rw [chunk, if_pos (htens ▸ Nat.zero_lt_one)]
    exact List.mem_take_iff_getElem.mpr ⟨place, by omega, rfl⟩
  · have hindex : numPartial s + (place - partialLen s) / 10 < 6 := by
      rw [numPartial, partialLen]
      split_ifs <;> omega
    refine h.valid _ hindex _ ?_
    rw [chunk, if_neg (by omega), Nat.add_sub_cancel_left, if_neg (Nat.not_lt_zero _)]
    refine List.mem_take_iff_getElem.mpr ⟨(place - partialLen s) % 10, ?_, ?_⟩
    · rw [List.length_drop]
      omega
    · rw [List.getElem_drop]
      congr 1
      omega

/-- How many coefficients there are. -/
def numCoeffs (s : Blob) : ℕ := s.length / 10 + if s.length % 10 ≠ 0 then 1 else 0

/-- The value of a coefficient. -/
def coeffValue (s : Blob) (k : ℕ) : ℕ := value 58 ((chunk s 10 0 k).map digit)

theorem Read.eq_map {coeff : List ℕ} (h : Read coeff (chunk s 10 0)) :
    coeff = (List.range 6).map (coeffValue s) := by
  refine List.ext_getElem? fun k => ?_
  by_cases hk : k < 6
  · rw [h.value k hk, List.getElem?_map, List.getElem?_range hk]
    rfl
  · rw [List.getElem?_eq_none (by rw [h.length]; omega), List.getElem?_eq_none (by simp; omega)]

theorem coeffValue_lt (k : ℕ) : coeffValue s k < 58 ^ (chunk s 10 0 k).length := by
  have hlt : ∀ x ∈ (chunk s 10 0 k).map digit, x < 58 := by
    intro x hx
    obtain ⟨a, -, rfl⟩ := List.mem_map.mp hx
    exact digit_lt a
  have := value_lt (b := 58) (by norm_num) hlt
  rwa [List.length_map] at this

theorem length_chunk_le (k : ℕ) : (chunk s 10 0 k).length ≤ 10 := by
  rw [chunk, if_neg (Nat.not_lt_zero _), partialLen]
  split_ifs
  · rw [List.length_take]
    omega
  · rw [List.length_take]
    omega

theorem coeffValue_lt_kB5810 (k : ℕ) : coeffValue s k < kB5810 :=
  kB5810_eq ▸ (coeffValue_lt k).trans_le (Nat.pow_le_pow_right (by norm_num) (length_chunk_le k))

theorem coeffValue_add (j : ℕ) :
    coeffValue s (numPartial s + j) =
      value 58 ((((s.drop (partialLen s)).map digit).drop (10 * j)).take 10) := by
  rw [coeffValue, chunk, if_neg (by omega), Nat.add_sub_cancel_left, if_neg (Nat.not_lt_zero _),
    List.map_take, List.map_drop, List.map_drop, List.drop_drop, Nat.mul_comm j]

theorem value_coeffs : value kB5810
      (coeffValue s 0 :: ((List.range (numCoeffs s)).map (coeffValue s)).drop 1) =
    value 58 (s.map digit) := by
  have hdvd : 10 ∣ ((s.drop (partialLen s)).map digit).length := by
    rw [List.length_map, List.length_drop, partialLen]
    exact Nat.dvd_sub_mod s.length
  have hcount : ((s.drop (partialLen s)).map digit).length / 10 = s.length / 10 := by
    rw [List.length_map, List.length_drop, partialLen]
    omega
  have hgroups := value_flatten (b := 58) (k := 10) ((s.take (partialLen s)).map digit)
    (Bytes.blocks 10 ((s.drop (partialLen s)).map digit)) (by
      intro g hg
      obtain ⟨i, hi, rfl⟩ := List.mem_map.mp hg
      rw [List.mem_range, hcount] at hi
      rw [List.length_take, List.length_drop, List.length_map, List.length_drop, partialLen]
      omega)
  rw [Bytes.flatten_blocks (by norm_num) hdvd, ← List.map_append, List.take_append_drop,
    ← kB5810_eq] at hgroups
  have hblocks : (Bytes.blocks 10 ((s.drop (partialLen s)).map digit)).map (value 58) =
      (List.range (s.length / 10)).map fun j => coeffValue s (numPartial s + j) := by
    rw [Bytes.blocks, hcount, List.map_map]
    exact List.map_congr_left fun j _ => (coeffValue_add j).symm
  rw [hgroups, hblocks, numCoeffs]
  by_cases htens : s.length % 10 ≠ 0
  · have hone : numPartial s = 1 := if_pos htens
    rw [if_pos htens, hone, List.range_succ_eq_map, List.map_cons, List.drop_one, List.tail_cons,
      List.map_map]
    have hfirst : coeffValue s 0 = value 58 ((s.take (partialLen s)).map digit) := by
      rw [coeffValue, chunk, if_pos (hone ▸ Nat.zero_lt_one)]
    rw [hfirst]
    refine congrArg _ (congrArg _ (List.map_congr_left fun j _ => ?_))
    rw [Function.comp_apply, Nat.add_comm]
  · have hzero : numPartial s = 0 := if_neg htens
    have hnone : partialLen s = 0 := not_not.mp htens
    rw [if_neg htens, add_zero, hnone, hzero, List.take_zero, List.map_nil, value_nil,
      value_cons 0, zero_mul, zero_add]
    simp only [zero_add]
    cases hfull : s.length / 10 with
    | zero =>
      have hempty : s = [] := List.length_eq_zero_iff.mp (by omega)
      subst hempty
      rfl
    | succ n =>
      rw [List.range_succ_eq_map, List.map_cons, List.drop_one, List.tail_cons]

theorem coeffValue_zero_fit (hlen : s.length ≤ 52) :
    (coeffValue s 0 + 1) * kB5810 ^ (numCoeffs s - 1) ≤ 58 ^ 52 := by
  have hchunk : (chunk s 10 0 0).length + 10 * (numCoeffs s - 1) ≤ 52 := by
    rw [chunk, numCoeffs, numPartial, partialLen]
    by_cases htens : s.length % 10 ≠ 0
    · rw [if_pos htens, if_pos Nat.zero_lt_one, List.length_take]
      omega
    · rw [if_neg htens, if_neg (Nat.lt_irrefl 0), if_neg (Nat.not_lt_zero _), List.length_take,
        List.length_drop]
      omega
  calc (coeffValue s 0 + 1) * kB5810 ^ (numCoeffs s - 1)
      ≤ 58 ^ (chunk s 10 0 0).length * (58 ^ 10) ^ (numCoeffs s - 1) := by
        rw [← kB5810_eq]
        exact Nat.mul_le_mul_right _ (coeffValue_lt 0)
    _ = 58 ^ ((chunk s 10 0 0).length + 10 * (numCoeffs s - 1)) := by rw [← pow_mul, ← pow_add]
    _ ≤ 58 ^ 52 := Nat.pow_le_pow_right (by norm_num) hchunk

end Chunks

theorem limb_bytes {result : List ℕ} {curResultSize v : ℕ} (h : Result result curResultSize v) :
    (Bytes.toBE 8 (result.getD (curResultSize - 1) 0)).dropWhile (fun b => b = 0) ++
        (result.take (curResultSize - 1)).reverse.flatMap (Bytes.toBE 8) =
      bytes (numeral 256 v) := by
  have hpos := h.pos
  have hle := h.le
  have hlength := h.length
  have htop : result.take curResultSize =
      result.take (curResultSize - 1) ++ [result.getD (curResultSize - 1) 0] := by
    have hlt : curResultSize - 1 < result.length := by omega
    conv_lhs => rw [← Nat.sub_add_cancel hpos, List.take_add_one]
    rw [List.getElem?_eq_getElem hlt, List.getD_eq_getElem?_getD, List.getElem?_eq_getElem hlt]
    rfl
  have hvalue := h.holds.value
  have hlt := h.holds.lt
  rw [htop] at hvalue hlt
  have hbytes : ∀ x ∈ (result.take (curResultSize - 1) ++
      [result.getD (curResultSize - 1) 0]).reverse, value 256 (digits (Bytes.toBE 8 x)) = x := by
    intro x hx
    rw [value_digits]
    exact Bytes.ofBE_toBE (kWord_eq ▸ hlt x (List.mem_reverse.mp hx))
  have hstrip := strip_flatMap (b := 256) (k := 8) (by norm_num)
    (f := fun x => digits (Bytes.toBE 8 x)) (fun x _ => by rw [length_digits, Bytes.length_toBE])
    (fun x _ => digits_lt _) hbytes
  rw [← kWord_eq, value, List.reverse_reverse, hvalue, List.reverse_append, List.reverse_singleton,
    List.singleton_append, List.flatMap_cons] at hstrip
  have hrest : digits ((result.take (curResultSize - 1)).reverse.flatMap (Bytes.toBE 8)) =
      (result.take (curResultSize - 1)).reverse.flatMap fun x => digits (Bytes.toBE 8 x) := by
    rw [digits, List.map_flatMap]
    rfl
  rw [← bytes_digits (_ ++ _), ← hstrip]
  refine congrArg bytes ?_
  rw [digits, List.map_append]
  refine (congrArg₂ (· ++ ·) (digits_dropWhile _) hrest).trans ?_
  -- the highest limb is zero only if it is the only one
  by_cases hnil : strip (digits (Bytes.toBE 8 (result.getD (curResultSize - 1) 0))) = []
  · have hzero : result.getD (curResultSize - 1) 0 = 0 := by
      have hmem : result.getD (curResultSize - 1) 0 ∈ (result.take (curResultSize - 1) ++
          [result.getD (curResultSize - 1) 0]).reverse := by simp
      rw [← hbytes _ hmem, ← value_strip, hnil, value_nil]
    have hone : curResultSize = 1 := by
      refine h.needed.resolve_right fun hneeded => ?_
      rw [hzero, Nat.ofDigits_append_zero] at hvalue
      have hsmall := Nat.ofDigits_lt_base_pow_length (b := kWord) (by norm_num [kWord])
        fun x hx => hlt x (List.mem_append_left _ hx)
      rw [hvalue, List.length_take, Nat.min_eq_left (by omega)] at hsmall
      omega
    rw [hone, Nat.sub_self, List.take_zero, List.reverse_nil, List.flatMap_nil, List.append_nil,
      List.append_nil]
  · exact (strip_append_of_ne_nil hnil _).symm

theorem b58ToB256Be_eq {s : Blob} (hlen : s.length ≤ 52) :
    b58ToB256Be s 64 = .ok (decoded s) ∧ Valid s ∨
      b58ToB256Be s 64 = .error (.code .invalidEncodingChar) ∧ ¬Valid s := by
  rw [b58ToB256Be, check_of hlen, ok_bind, check_of (by norm_num), ok_bind]
  dsimp only
  rcases b5810Coeffs_spec hlen with ⟨coeff, hcoeff, hread⟩ | ⟨herror, hinvalid⟩
  · refine .inl ⟨?_, hread.valid_string hlen⟩
    rw [hcoeff, ok_bind, hread.eq_map]
    obtain ⟨⟨result, size⟩, hr, hresult⟩ := foldlM_accumulate
      (((List.range (numCoeffs s)).map (coeffValue s)).drop 1)
      (result_head (coeffValue_lt_kB5810 0)) (by
        intro c hc
        obtain ⟨k, -, rfl⟩ := List.mem_map.mp (List.mem_of_mem_drop hc)
        exact coeffValue_lt_kB5810 k) (by
        rw [List.length_drop, List.length_map, List.length_range]
        exact coeffValue_zero_fit hlen)
    have htake : ((List.range 6).map (coeffValue s)).take (numCoeffs s) =
        (List.range (numCoeffs s)).map (coeffValue s) := by
      have hcount : numCoeffs s ≤ 6 := by
        rw [numCoeffs]
        split_ifs <;> omega
      rw [← List.map_take, List.take_range, Nat.min_eq_left hcount]
    have hvalue : coeffValue s 0 * kB5810 ^ (((List.range (numCoeffs s)).map (coeffValue s)).drop
        1).length + value kB5810 (((List.range (numCoeffs s)).map (coeffValue s)).drop 1) =
          value 58 (s.map digit) := (value_cons _ _).symm.trans value_coeffs
    have hbytes := limb_bytes (hvalue ▸ hresult)
    dsimp only at hbytes
    have hbound := length_decoded_le s
    rw [decoded, List.length_append, List.length_replicate, ← hbytes, List.length_append] at hbound
    have hrest : ((result.take (size - 1)).reverse.flatMap (Bytes.toBE 8)).length =
        8 * (size - 1) := by
      have hle := hresult.le
      have hlength := hresult.length
      dsimp only at hle hlength
      have heach : (result.take (size - 1)).reverse.map (List.length ∘ Bytes.toBE 8) =
          List.replicate (size - 1) 8 := by
        rw [List.eq_replicate_iff, List.length_map, List.length_reverse, List.length_take]
        refine ⟨by omega, fun x hx => ?_⟩
        obtain ⟨y, -, rfl⟩ := List.mem_map.mp hx
        exact Bytes.length_toBE 8 y
      rw [List.length_flatMap]
      refine (congrArg List.sum heach).trans ?_
      rw [List.sum_replicate_nat, Nat.mul_comm]
    rw [← htake] at hr
    refine (congrArg (fun r => r >>= _) hr).trans ?_
    rw [ok_bind]
    dsimp only
    have hzeros : write 64 [] (List.replicate (countLeadingZeros (forward 0) s) 0) =
        .ok (List.replicate (countLeadingZeros (forward 0) s) 0) :=
      write_of_le (by rw [List.length_nil, List.length_replicate]; omega)
    rw [hzeros, ok_bind, write_of_le (by rw [List.length_replicate]; omega), ok_bind,
      check_of (by rw [List.length_append, List.length_replicate]; omega), ok_bind,
      write_of_le (by rw [List.length_append, List.length_replicate]; omega), List.append_assoc,
      hbytes, decoded]
  · refine .inr ⟨?_, hinvalid⟩
    rw [herror]
    rfl

end FastCodec

end Base58

end FalconLedger
