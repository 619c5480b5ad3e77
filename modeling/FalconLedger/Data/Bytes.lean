import Mathlib.Tactic.Positivity
import Mathlib.Tactic.Ring

/-!
# Bytes and parsers

Big-endian numbers of a fixed width, lists packed into blocks of one width, and parsers that consume
a prefix of a list of bytes. A parser *inverts* an encoding at `x` when it reads `x` back from the
encoding of `x` whatever follows, and leaves what follows; this is the form in which round trips
compose.
-/

namespace Bytes

/-- The `w` bytes of `n`, most significant first; what does not fit is dropped. -/
def toBE : ℕ → ℕ → List UInt8
  | 0, _ => []
  | w + 1, n => UInt8.ofNat (n / 256 ^ w) :: toBE w n

/-- The number with these bytes, most significant first. -/
def ofBE (bs : List UInt8) : ℕ := bs.foldl (fun n b => 256 * n + b.toNat) 0

@[simp] theorem length_toBE (w n : ℕ) : (toBE w n).length = w := by
  induction w with
  | zero => rfl
  | succ w ih => simp [toBE, ih]

private theorem foldl_toBE (w n a : ℕ) :
    (toBE w n).foldl (fun n b => 256 * n + b.toNat) a = a * 256 ^ w + n % 256 ^ w := by
  induction w generalizing a with
  | zero => simp [toBE, Nat.mod_one]
  | succ w ih =>
    have hbyte : (UInt8.ofNat (n / 256 ^ w)).toNat = n / 256 ^ w % 256 := UInt8.toNat_ofNat'
    rw [toBE, List.foldl_cons, ih, Nat.mod_pow_succ, hbyte, pow_succ]
    ring

theorem ofBE_toBE {w n : ℕ} (h : n < 256 ^ w) : ofBE (toBE w n) = n := by
  rw [ofBE, foldl_toBE, zero_mul, zero_add, Nat.mod_eq_of_lt h]

theorem toBE_injective {w m n : ℕ} (hm : m < 256 ^ w) (hn : n < 256 ^ w)
    (h : toBE w m = toBE w n) : m = n := by
  rw [← ofBE_toBE hm, ← ofBE_toBE hn, h]

theorem foldl_ofBE (bs : List UInt8) (a : ℕ) :
    bs.foldl (fun n b => 256 * n + b.toNat) a = a * 256 ^ bs.length + ofBE bs := by
  induction bs generalizing a with
  | nil => simp [ofBE]
  | cons b bs ih =>
    rw [ofBE, List.foldl_cons, List.foldl_cons, ih, ih (256 * 0 + b.toNat), List.length_cons,
      pow_succ]
    ring

theorem ofBE_cons (b : UInt8) (bs : List UInt8) :
    ofBE (b :: bs) = b.toNat * 256 ^ bs.length + ofBE bs := by
  rw [ofBE, List.foldl_cons, foldl_ofBE, mul_zero, zero_add]

theorem ofBE_append (bs bs' : List UInt8) :
    ofBE (bs ++ bs') = ofBE bs * 256 ^ bs'.length + ofBE bs' := by
  rw [ofBE, List.foldl_append]
  exact foldl_ofBE bs' (ofBE bs)

theorem ofBE_lt (bs : List UInt8) : ofBE bs < 256 ^ bs.length := by
  induction bs with
  | nil => exact Nat.one_pos
  | cons b bs ih =>
    have hb : b.toNat + 1 ≤ 256 := b.toNat_lt
    rw [ofBE_cons, List.length_cons, pow_succ]
    calc b.toNat * 256 ^ bs.length + ofBE bs
        < b.toNat * 256 ^ bs.length + 256 ^ bs.length := Nat.add_lt_add_left ih _
      _ = (b.toNat + 1) * 256 ^ bs.length := by ring
      _ ≤ 256 * 256 ^ bs.length := Nat.mul_le_mul_right _ hb
      _ = 256 ^ bs.length * 256 := Nat.mul_comm _ _

theorem toBE_mul_add (w a n : ℕ) : toBE w (a * 256 ^ w + n) = toBE w n := by
  induction w generalizing a with
  | zero => rfl
  | succ w ih =>
    have hsplit : a * 256 ^ (w + 1) + n = a * 256 * 256 ^ w + n := by ring
    have hdiv : (a * 256 * 256 ^ w + n) / 256 ^ w = a * 256 + n / 256 ^ w := by
      rw [Nat.add_comm, Nat.add_mul_div_right _ _ (by positivity), Nat.add_comm]
    rw [toBE, toBE, hsplit, ih, hdiv]
    congr 1
    apply UInt8.toNat_inj.mp
    simp only [UInt8.toNat_ofNat', Nat.reducePow]
    omega

theorem toBE_ofBE (bs : List UInt8) : toBE bs.length (ofBE bs) = bs := by
  induction bs with
  | nil => rfl
  | cons b bs ih =>
    have hdiv : ofBE (b :: bs) / 256 ^ bs.length = b.toNat := by
      rw [ofBE_cons, Nat.add_comm, Nat.add_mul_div_right _ _ (by positivity),
        Nat.div_eq_of_lt (ofBE_lt bs), Nat.zero_add]
    rw [List.length_cons, toBE, hdiv, ofBE_cons, toBE_mul_add, ih, UInt8.ofNat_toNat]

/-- The blocks of width `w` that a list consists of. -/
def blocks {α : Type} (w : ℕ) (xs : List α) : List (List α) :=
  (List.range (xs.length / w)).map fun i => (xs.drop (w * i)).take w

theorem blocks_flatten {α : Type} {w : ℕ} (hw : 0 < w) {bs : List (List α)}
    (h : ∀ b ∈ bs, b.length = w) : blocks w bs.flatten = bs := by
  induction bs with
  | nil => simp [blocks]
  | cons b bs ih =>
    have hb : b.length = w := h b List.mem_cons_self
    have hlen : (b ++ bs.flatten).length / w = bs.flatten.length / w + 1 := by
      rw [List.length_append, hb, Nat.add_comm, Nat.add_div_right _ hw]
    have hnext : ∀ i, (b ++ bs.flatten).drop (w * (i + 1)) = bs.flatten.drop (w * i) := fun i => by
      rw [Nat.mul_succ, Nat.add_comm, ← hb, List.drop_append]
      simp
    rw [List.flatten_cons, blocks, hlen, List.range_succ_eq_map, List.map_cons, List.map_map]
    congr 1
    · rw [Nat.mul_zero, List.drop_zero, ← hb, List.take_left]
    · simp only [Function.comp_def, Nat.succ_eq_add_one, hnext]
      exact ih fun b' hb' => h b' (List.mem_cons_of_mem b hb')

theorem flatten_blocks {α : Type} {w : ℕ} (hw : 0 < w) {xs : List α} (h : w ∣ xs.length) :
    (blocks w xs).flatten = xs := by
  obtain ⟨n, hn⟩ := h
  induction n generalizing xs with
  | zero =>
    rw [List.length_eq_zero_iff.mp hn, blocks]
    simp
  | succ n ih =>
    have hrest : (xs.drop w).length = w * n := by
      rw [List.length_drop, hn, Nat.mul_succ, Nat.add_sub_cancel]
    have hcut : blocks w xs = xs.take w :: blocks w (xs.drop w) := by
      rw [blocks, blocks, hn, hrest, Nat.mul_div_cancel_left _ hw, Nat.mul_div_cancel_left _ hw,
        List.range_succ_eq_map, List.map_cons, List.map_map, Nat.mul_zero, List.drop_zero]
      refine congrArg _ (List.map_congr_left fun i _ => ?_)
      rw [Function.comp_apply, List.drop_drop, Nat.mul_succ, Nat.add_comm]
    rw [hcut, List.flatten_cons, ih hrest, List.take_append_drop]

theorem length_flatten_mod {α : Type} {w : ℕ} {bs : List (List α)} (h : ∀ b ∈ bs, b.length = w) :
    bs.flatten.length % w = 0 := by
  induction bs with
  | nil => simp
  | cons b bs ih =>
    rw [List.flatten_cons, List.length_append, h b List.mem_cons_self, Nat.add_mod_left]
    exact ih fun b' hb' => h b' (List.mem_cons_of_mem b hb')

/-- A function that reads a value off the front of a list of bytes. -/
abbrev Parser (α : Type) := List UInt8 → Option (α × List UInt8)

/-- The parser reads `x` back from `bytes`, whatever follows them. -/
def Inverts {α : Type} (p : Parser α) (bytes : List UInt8) (x : α) : Prop :=
  ∀ rest, p (bytes ++ rest) = some (x, rest)

/-- The next `n` bytes. -/
def getRaw (n : ℕ) : Parser (List UInt8) := fun bs =>
  if n ≤ bs.length then some (bs.take n, bs.drop n) else none

theorem getRaw_inverts (bytes : List UInt8) : Inverts (getRaw bytes.length) bytes bytes := by
  intro rest
  simp [getRaw]

/-- The next `w` bytes as a number. -/
def getBE (w : ℕ) : Parser ℕ := fun bs => (getRaw w bs).map fun r => (ofBE r.1, r.2)

theorem getBE_inverts {w n : ℕ} (h : n < 256 ^ w) : Inverts (getBE w) (toBE w n) n := by
  intro rest
  have hraw := getRaw_inverts (toBE w n) rest
  rw [length_toBE] at hraw
  rw [getBE, hraw, Option.map_some, ofBE_toBE h]

theorem getBE_eq_some {w n : ℕ} {bs rest : List UInt8} (h : getBE w bs = some (n, rest)) :
    n < 256 ^ w ∧ bs = toBE w n ++ rest := by
  obtain ⟨r, hraw, heq⟩ := Option.map_eq_some_iff.mp h
  cases heq
  rw [getRaw] at hraw
  split_ifs at hraw with hle
  cases hraw
  have hlength : (bs.take w).length = w := List.length_take_of_le hle
  have hlt := ofBE_lt (bs.take w)
  have hbytes := toBE_ofBE (bs.take w)
  rw [hlength] at hlt hbytes
  exact ⟨hlt, by rw [hbytes, List.take_append_drop]⟩

/-- Read a value and turn it into another, or fail. -/
def Parser.bind {α β : Type} (p : Parser α) (f : α → Parser β) : Parser β := fun bs =>
  (p bs).bind fun r => f r.1 r.2

/-- Turn what is read into something else. -/
def Parser.filterMap {α β : Type} (p : Parser α) (f : α → Option β) : Parser β := fun bs =>
  (p bs).bind fun r => (f r.1).map fun b => (b, r.2)

theorem Inverts.bind {α β : Type} {p : Parser α} {f : α → Parser β} {bs bs' : List UInt8} {x : α}
    {y : β} (h : Inverts p bs x) (h' : Inverts (f x) bs' y) : Inverts (p.bind f) (bs ++ bs') y := by
  intro rest
  rw [Parser.bind, List.append_assoc, h (bs' ++ rest)]
  exact h' rest

theorem Inverts.filterMap {α β : Type} {p : Parser α} {f : α → Option β} {bs : List UInt8} {x : α}
    {y : β} (h : Inverts p bs x) (h' : f x = some y) : Inverts (p.filterMap f) bs y := by
  intro rest
  rw [Parser.filterMap, h rest, Option.bind_some, h']
  rfl

theorem Parser.filterMap_eq_some {α β : Type} {p : Parser α} {f : α → Option β}
    {bs rest : List UInt8} {y : β} (h : p.filterMap f bs = some (y, rest)) : ∃ x, f x = some y := by
  simp only [Parser.filterMap, Option.bind_eq_some_iff, Option.map_eq_some_iff] at h
  obtain ⟨r, -, b, hb, heq⟩ := h
  cases heq
  exact ⟨r.1, hb⟩

end Bytes
