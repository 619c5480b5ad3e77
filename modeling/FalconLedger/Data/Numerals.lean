import Mathlib.Data.Nat.Digits.Lemmas

/-!
# Numerals

Numbers as lists of digits, least significant first as in Mathlib, and the schoolbook algorithms:
to multiply and add in place (`mulAdd`), to divide by a single number (`divRem`). `value` and
`numeral` have the most significant digit first: a list without its leading zeros is the numeral of
its value (`strip_eq_numeral`). Digits can be taken together in groups (`value_flatten`).
-/

namespace Numeral

open Nat (ofDigits)

variable {b m d : ℕ}

/-! ### In place -/

/-- Multiply by `m` and add the carry, from the least significant digit on. -/
def mulAdd (b m : ℕ) : ℕ → List ℕ → List ℕ × ℕ
  | carry, [] => ([], carry)
  | carry, x :: xs =>
    let next := mulAdd b m ((m * x + carry) / b) xs
    ((m * x + carry) % b :: next.1, next.2)

theorem length_mulAdd (carry : ℕ) (xs : List ℕ) : (mulAdd b m carry xs).1.length = xs.length := by
  induction xs generalizing carry with
  | nil => rfl
  | cons x xs ih => rw [mulAdd, List.length_cons, List.length_cons, ih]

theorem mulAdd_lt (hb : 0 < b) (carry : ℕ) (xs : List ℕ) : ∀ x ∈ (mulAdd b m carry xs).1, x < b := by
  induction xs generalizing carry with
  | nil => simp [mulAdd]
  | cons x xs ih =>
    intro y hy
    rcases List.mem_cons.mp hy with rfl | hy
    · exact Nat.mod_lt _ hb
    · exact ih _ y hy

theorem ofDigits_mulAdd (carry : ℕ) (xs : List ℕ) :
    ofDigits b (mulAdd b m carry xs).1 + b ^ xs.length * (mulAdd b m carry xs).2 =
      m * ofDigits b xs + carry := by
  induction xs generalizing carry with
  | nil => simp [mulAdd]
  | cons x xs ih =>
    have hrest := ih ((m * x + carry) / b)
    have hfirst := Nat.mod_add_div (m * x + carry) b
    rw [mulAdd, Nat.ofDigits_cons, Nat.ofDigits_cons, List.length_cons, pow_succ]
    dsimp only
    calc (m * x + carry) % b + b * ofDigits b (mulAdd b m ((m * x + carry) / b) xs).1 +
          b ^ xs.length * b * (mulAdd b m ((m * x + carry) / b) xs).2
        = (m * x + carry) % b + b * (ofDigits b (mulAdd b m ((m * x + carry) / b) xs).1 +
          b ^ xs.length * (mulAdd b m ((m * x + carry) / b) xs).2) := by ring
      _ = (m * x + carry) % b + b * ((m * x + carry) / b) + b * m * ofDigits b xs := by
        rw [hrest]
        ring
      _ = m * (x + b * ofDigits b xs) + carry := by
        rw [hfirst]
        ring

theorem mulAdd_of_lt {carry : ℕ} {xs : List ℕ} (h : m * ofDigits b xs + carry < b ^ xs.length) :
    (mulAdd b m carry xs).2 = 0 ∧
      ofDigits b (mulAdd b m carry xs).1 = m * ofDigits b xs + carry := by
  have hsum := ofDigits_mulAdd (b := b) (m := m) carry xs
  have hcarry : (mulAdd b m carry xs).2 = 0 := by
    by_contra hne
    have hle : b ^ xs.length ≤ b ^ xs.length * (mulAdd b m carry xs).2 :=
      Nat.le_mul_of_pos_right _ (Nat.pos_of_ne_zero hne)
    omega
  rw [hcarry] at hsum
  exact ⟨hcarry, hsum⟩

/-- Divide by `d`, from the most significant digit on; the quotient and the remainder. -/
def divRem (b d : ℕ) : List ℕ → List ℕ × ℕ
  | [] => ([], 0)
  | x :: xs =>
    let high := divRem b d xs
    ((high.2 * b + x) / d :: high.1, (high.2 * b + x) % d)

theorem length_divRem (xs : List ℕ) : (divRem b d xs).1.length = xs.length := by
  induction xs with
  | nil => rfl
  | cons x xs ih => rw [divRem, List.length_cons, List.length_cons, ih]

theorem divRem_rem_lt (hd : 0 < d) (xs : List ℕ) : (divRem b d xs).2 < d := by
  cases xs with
  | nil => exact hd
  | cons x xs => exact Nat.mod_lt _ hd

theorem divRem_lt (hd : 0 < d) {xs : List ℕ} (h : ∀ x ∈ xs, x < b) :
    ∀ x ∈ (divRem b d xs).1, x < b := by
  induction xs with
  | nil => simp [divRem]
  | cons x xs ih =>
    intro y hy
    rcases List.mem_cons.mp hy with rfl | hy
    · have hrem := divRem_rem_lt hd xs (b := b)
      have hx := h x List.mem_cons_self
      refine Nat.div_lt_of_lt_mul ?_
      calc (divRem b d xs).2 * b + x < (divRem b d xs).2 * b + b := by omega
        _ = ((divRem b d xs).2 + 1) * b := by ring
        _ ≤ d * b := Nat.mul_le_mul_right b hrem
    · exact ih (fun x hx => h x (List.mem_cons_of_mem _ hx)) y hy

theorem ofDigits_divRem (xs : List ℕ) :
    d * ofDigits b (divRem b d xs).1 + (divRem b d xs).2 = ofDigits b xs := by
  induction xs with
  | nil => simp [divRem]
  | cons x xs ih =>
    have hfirst := Nat.div_add_mod ((divRem b d xs).2 * b + x) d
    rw [divRem, Nat.ofDigits_cons, Nat.ofDigits_cons, ← ih]
    dsimp only
    calc d * (((divRem b d xs).2 * b + x) / d + b * ofDigits b (divRem b d xs).1) +
          ((divRem b d xs).2 * b + x) % d
        = d * (((divRem b d xs).2 * b + x) / d) + ((divRem b d xs).2 * b + x) % d +
          b * (d * ofDigits b (divRem b d xs).1) := by ring
      _ = x + b * (d * ofDigits b (divRem b d xs).1 + (divRem b d xs).2) := by
        rw [hfirst]
        ring

theorem ofDigits_divRem_eq_div (hd : 0 < d) (xs : List ℕ) :
    ofDigits b (divRem b d xs).1 = ofDigits b xs / d := by
  rw [← ofDigits_divRem (d := d) xs, Nat.mul_add_div hd,
    Nat.div_eq_of_lt (divRem_rem_lt hd xs), add_zero]

theorem pow_le_ofDigits {xs : List ℕ} (h : ∀ hne : xs ≠ [], xs.getLast hne ≠ 0) (hne : xs ≠ []) :
    b ^ (xs.length - 1) ≤ ofDigits b xs := by
  obtain ⟨ys, y, rfl⟩ : ∃ ys y, xs = ys ++ [y] :=
    ⟨xs.dropLast, xs.getLast hne, (List.dropLast_append_getLast hne).symm⟩
  have hy : y ≠ 0 := by simpa using h hne
  rw [Nat.ofDigits_append, Nat.ofDigits_singleton, List.length_append, List.length_singleton,
    Nat.add_sub_cancel]
  have : b ^ ys.length ≤ b ^ ys.length * y := Nat.le_mul_of_pos_right _ (Nat.pos_of_ne_zero hy)
  omega

/-! ### Most significant first -/

/-- The number with these digits. -/
def value (b : ℕ) (ds : List ℕ) : ℕ := ofDigits b ds.reverse

/-- The digits of a number, without leading zeros. -/
def numeral (b n : ℕ) : List ℕ := (Nat.digits b n).reverse

/-- Digits without their leading zeros. -/
def strip (ds : List ℕ) : List ℕ := ds.dropWhile fun x => x = 0

@[simp] theorem value_nil : value b [] = 0 := rfl

theorem value_append (ds es : List ℕ) :
    value b (ds ++ es) = value b ds * b ^ es.length + value b es := by
  rw [value, List.reverse_append, Nat.ofDigits_append, List.length_reverse, value, value]
  ring

theorem value_concat (ds : List ℕ) (x : ℕ) : value b (ds ++ [x]) = value b ds * b + x := by
  rw [value_append, List.length_singleton, pow_one]
  simp [value]

theorem value_cons (x : ℕ) (ds : List ℕ) : value b (x :: ds) = x * b ^ ds.length + value b ds := by
  rw [← List.singleton_append, value_append]
  simp [value]

theorem value_eq_foldl (ds : List ℕ) : value b ds = ds.foldl (fun n x => n * b + x) 0 := by
  induction ds using List.reverseRecOn with
  | nil => rfl
  | append_singleton ds x ih => rw [value_concat, ih, List.foldl_append, List.foldl_cons,
      List.foldl_nil]

theorem value_append_of_zero {ds : List ℕ} (h : ∀ x ∈ ds, x = 0) (es : List ℕ) :
    value b (ds ++ es) = value b es := by
  induction ds with
  | nil => rfl
  | cons x ds ih =>
    rw [List.cons_append, value_cons, h x List.mem_cons_self, zero_mul, zero_add]
    exact ih fun y hy => h y (List.mem_cons_of_mem x hy)

theorem value_lt (hb : 1 < b) {ds : List ℕ} (h : ∀ x ∈ ds, x < b) : value b ds < b ^ ds.length := by
  have := Nat.ofDigits_lt_base_pow_length hb fun x hx => h x (List.mem_reverse.mp hx)
  rwa [List.length_reverse] at this

@[simp] theorem value_strip (ds : List ℕ) : value b (strip ds) = value b ds := by
  induction ds with
  | nil => rfl
  | cons x ds ih =>
    rw [strip, List.dropWhile_cons]
    by_cases hx : x = 0
    · rw [if_pos (decide_eq_true hx), value_cons, hx, zero_mul, zero_add]
      exact ih
    · rw [if_neg (by simpa using hx)]

theorem strip_cons_zero (ds : List ℕ) : strip (0 :: ds) = strip ds := by
  rw [strip, List.dropWhile_cons, if_pos (decide_eq_true rfl), strip]

theorem strip_cons_of_ne {x : ℕ} (hx : x ≠ 0) (ds : List ℕ) : strip (x :: ds) = x :: ds := by
  rw [strip, List.dropWhile_cons, if_neg (by simpa using hx)]

theorem strip_append_of_ne_nil {ds : List ℕ} (h : strip ds ≠ []) (es : List ℕ) :
    strip (ds ++ es) = strip ds ++ es := by
  induction ds with
  | nil => exact absurd rfl h
  | cons x ds ih =>
    by_cases hx : x = 0
    · subst hx
      rw [strip_cons_zero] at h ⊢
      rw [List.cons_append, strip_cons_zero, ih h]
    · rw [List.cons_append, strip_cons_of_ne hx, strip_cons_of_ne hx, List.cons_append]

theorem strip_append_of_nil {ds : List ℕ} (h : strip ds = []) (es : List ℕ) :
    strip (ds ++ es) = strip es := by
  induction ds with
  | nil => rfl
  | cons x ds ih =>
    by_cases hx : x = 0
    · subst hx
      rw [strip_cons_zero] at h
      rw [List.cons_append, strip_cons_zero, ih h]
    · rw [strip_cons_of_ne hx] at h
      cases h

theorem mem_of_mem_strip {x : ℕ} {ds : List ℕ} (h : x ∈ strip ds) : x ∈ ds :=
  (List.dropWhile_sublist _).mem h

theorem strip_eq_numeral (hb : 1 < b) {ds : List ℕ} (h : ∀ x ∈ ds, x < b) :
    strip ds = numeral b (value b ds) := by
  have hdigits : Nat.digits b (ofDigits b (strip ds).reverse) = (strip ds).reverse := by
    refine Nat.digits_ofDigits b hb _ (fun x hx => ?_) fun hne => ?_
    · exact h x (mem_of_mem_strip (List.mem_reverse.mp hx))
    · rw [List.getLast_reverse]
      have hhead := List.head_dropWhile_not (fun x => decide (x = 0)) (l := ds)
        (by simpa [strip] using hne)
      simpa [strip] using hhead
  rw [numeral, ← value_strip, value, hdigits, List.reverse_reverse]

theorem length_numeral_le (hb : 1 < b) {k n : ℕ} : (numeral b n).length ≤ k ↔ n < b ^ k := by
  rw [numeral, List.length_reverse, Nat.digits_length_le_iff hb]

theorem numeral_lt (hb : 1 < b) {n x : ℕ} (h : x ∈ numeral b n) : x < b :=
  Nat.digits_lt_base hb (List.mem_reverse.mp h)

@[simp] theorem value_numeral (n : ℕ) : value b (numeral b n) = n := by
  rw [value, numeral, List.reverse_reverse, Nat.ofDigits_digits]

theorem value_flatten {k : ℕ} (first : List ℕ) (groups : List (List ℕ))
    (h : ∀ g ∈ groups, g.length = k) :
    value b (first ++ groups.flatten) =
      value (b ^ k) (value b first :: groups.map (value b)) := by
  induction groups using List.reverseRecOn with
  | nil => simp [value_cons]
  | append_singleton groups g ih =>
    have hg : g.length = k := h g (by simp)
    rw [List.flatten_append, List.flatten_singleton, ← List.append_assoc, value_append, hg,
      ih fun g hg => h g (List.mem_append_left _ hg), List.map_append, List.map_singleton,
      ← List.cons_append, value_concat]

/-- Digits of digits: each digit in base `b ^ k` written with `k` digits in base `b`. -/
theorem strip_flatMap (hb : 1 < b) {k : ℕ} {f : ℕ → List ℕ} {cs : List ℕ}
    (hlength : ∀ c ∈ cs, (f c).length = k) (hlt : ∀ c ∈ cs, ∀ x ∈ f c, x < b)
    (hvalue : ∀ c ∈ cs, value b (f c) = c) :
    strip (cs.flatMap f) = numeral b (value (b ^ k) cs) := by
  have hdigits : ∀ x ∈ cs.flatMap f, x < b := by
    intro x hx
    obtain ⟨c, hc, hx⟩ := List.mem_flatMap.mp hx
    exact hlt c hc x hx
  have hgroups : value b ([] ++ (cs.map f).flatten) =
      value (b ^ k) (value b [] :: (cs.map f).map (value b)) := by
    refine value_flatten [] _ fun g hg => ?_
    obtain ⟨c, hc, rfl⟩ := List.mem_map.mp hg
    exact hlength c hc
  rw [List.nil_append, value_nil, value_cons, zero_mul, zero_add, List.map_map] at hgroups
  rw [strip_eq_numeral hb hdigits, List.flatMap_def, hgroups]
  exact congrArg (fun l => numeral b (value (b ^ k) l))
    ((List.map_congr_left hvalue).trans (List.map_id cs))

end Numeral
