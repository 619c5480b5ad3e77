import FalconLedger.Ledger.TrustLines
import FalconLedger.Data.Run

/-!
# The books of trust lines

Each line is in the owner directories of its two parties, once in each, and counts for a party whose
reserve flag it has. Where the flag is clear the side is plain: no limit, no quality, no freeze.
`Off` says by how much the owner counts differ from that between two updates of one call.
-/

namespace FalconLedger.TrustLines

variable {A C : Type} [LinearOrder A]

theorem bind_ok {α β : Type} {r : Result α} {f : α → Result β} {b : β} (h : r >>= f = .ok b) :
    ∃ a, r = .ok a ∧ f a = .ok b := by
  cases r with
  | error e => cases h
  | ok a => exact ⟨a, rfl, h⟩

theorem ok_bind {α β : Type} (a : α) (f : α → Result β) : ((.ok a : Result α) >>= f) = f a := rfl

theorem check_ok {c : Prop} [Decidable c] {e : Failure} {u : Unit} (h : check c e = .ok u) : c := by
  unfold check at h
  split_ifs at h with hc
  exact hc

/-! ### Sides -/

/-- No limit, no quality, no freeze. -/
structure Side.Plain (s : Side) : Prop where
  limit : s.limit = 0
  qualityIn : s.qualityIn = 0 ∨ s.qualityIn = QUALITY_ONE
  qualityOut : s.qualityOut = 0 ∨ s.qualityOut = QUALITY_ONE
  freeze : s.freeze = false
  deepFreeze : s.deepFreeze = false

structure Side.Sound (s : Side) : Prop where
  plain : s.reserve = false → s.Plain
  frozen : s.deepFreeze = true → s.freeze = true

namespace RippleState

/-- Both sides are sound. -/
def Sound (l : RippleState) : Prop := ∀ high, (l.side high).Sound

/-- The line can be erased: no balance, and no reserve of either party. -/
structure Spent (l : RippleState) : Prop where
  balance : l.balance = 0
  reserve : ∀ high, (l.side high).reserve = false

@[simp] theorem side_setSide_self (l : RippleState) (high : Bool) (s : Side) :
    (l.setSide high s).side high = s := by
  cases high <;> rfl

@[simp] theorem side_setSide_not (l : RippleState) (high : Bool) (s : Side) :
    (l.setSide high s).side (!high) = l.side !high := by
  cases high <;> rfl

@[simp] theorem side_setBalance (l : RippleState) (high high' : Bool) (balance : ℚ) :
    (l.setBalance high balance).side high' = l.side high' := by
  cases high' <;> rfl

variable {l : RippleState} {high : Bool} {s : Side}

theorem Sound.setSide (h : l.Sound) (hs : s.Sound) : (l.setSide high s).Sound := by
  intro high'
  by_cases heq : high' = high
  · subst heq
    rwa [side_setSide_self]
  · obtain rfl : high' = !high := Bool.eq_not_of_ne heq
    rw [side_setSide_not]
    exact h _

theorem Sound.setBalance (h : l.Sound) (balance : ℚ) : (l.setBalance high balance).Sound := by
  intro high'
  rw [side_setBalance]
  exact h high'

end RippleState

/-! ### Keys -/

namespace LineKey

def party (key : LineKey A C) (high : Bool) : A := if high then key.high else key.low

end LineKey

section Keys

variable {a b : A} {c : C}

theorem party_line (hne : a ≠ b) :
    (line a b c).party (decide (b < a)) = a ∧ (line a b c).party (!decide (b < a)) = b := by
  unfold line
  rcases lt_or_gt_of_ne hne with hlt | hlt
  · simp [LineKey.party, hlt, hlt.le]
  · simp [LineKey.party, hlt, not_lt.mpr hlt.le]

theorem low_line : (line a b c).low = if b < a then b else a := by
  unfold line
  rcases lt_trichotomy a b with hlt | rfl | hlt
  · simp [hlt, hlt.le]
  · simp
  · simp [hlt, not_lt.mpr hlt.le]

theorem high_line : (line a b c).high = if b < a then a else b := by
  unfold line
  rcases lt_trichotomy a b with hlt | rfl | hlt
  · simp [hlt, hlt.le]
  · simp
  · simp [hlt, not_lt.mpr hlt.le]

theorem low_lt_high_line (hne : a ≠ b) : (line a b c).low < (line a b c).high := by
  unfold line
  rcases lt_or_gt_of_ne hne with hlt | hlt
  · rwa [if_pos hlt]
  · rwa [if_neg (not_lt.mpr hlt.le)]

end Keys

/-! ### Owner counts -/

/-- What a line counts for an account. -/
def units (a : A) (key : LineKey A C) (l : RippleState) : ℤ :=
  (if key.low = a ∧ l.low.reserve = true then 1 else 0) +
    if key.high = a ∧ l.high.reserve = true then 1 else 0

theorem units_nonneg (a : A) (key : LineKey A C) (l : RippleState) : 0 ≤ units a key l := by
  unfold units
  split_ifs <;> decide

theorem toNat_confineOwnerCount_one {n : UInt32} (h : n < 0xFFFFFFFF) :
    (confineOwnerCount n 1).toNat = n.toNat + 1 := by
  have hlt : n.toNat < 4294967295 := UInt32.lt_iff_toNat_lt.mp h
  have hadd : (n + UInt32.ofInt 1).toNat = n.toNat + 1 := by
    rw [UInt32.toNat_add]
    exact Nat.mod_eq_of_lt (by rw [show (UInt32.ofInt 1).toNat = 1 from rfl]; omega)
  have hle : ¬n + UInt32.ofInt 1 < n := by
    rw [UInt32.lt_iff_toNat_lt, hadd]
    omega
  simp only [confineOwnerCount, if_pos Int.one_pos, if_neg hle, hadd]

theorem toNat_confineOwnerCount_neg_one (n : UInt32) :
    (confineOwnerCount n (-1)).toNat = n.toNat - 1 := by
  have hadd : (n + UInt32.ofInt (-1)).toNat = (n.toNat + 4294967295) % 2 ^ 32 := by
    rw [UInt32.toNat_add]
    rfl
  have hlt := n.toNat_lt
  simp only [confineOwnerCount, if_neg (show ¬(0 : ℤ) < -1 by decide)]
  split_ifs with hover
  · rw [UInt32.lt_iff_toNat_lt, hadd] at hover
    rw [UInt32.toNat_zero]
    omega
  · rw [UInt32.lt_iff_toNat_lt, hadd] at hover
    rw [hadd]
    omega

namespace View

/-- The lines on which an account has a reserve. -/
def reserves (v : View A C) (a : A) : ℤ := Table.sumRows (units a) v.lines

/-- The owner counts are more than the objects that are counted by `x`. -/
def Off (others : A → ℕ) (x : A → ℤ) (v : View A C) : Prop :=
  ∀ a root, v.accounts.lookup a = some root →
    (root.ownerCount.toNat : ℤ) = others a + v.reserves a + x a

/-- An owner count that can still grow. -/
def RoomAt (v : View A C) (a : A) : Prop :=
  ∀ root, v.accounts.lookup a = some root → root.ownerCount < 0xFFFFFFFF

/-- No owner count is the greatest there is. -/
def Room (v : View A C) : Prop :=
  Table.All (fun root : AccountRoot => root.ownerCount < 0xFFFFFFFF) v.accounts

instance (v : View A C) : Decidable v.Room := inferInstanceAs (Decidable (Table.All _ _))

variable {v : View A C} {others : A → ℕ} {x y : A → ℤ} {a : A} {n : ℤ}

theorem Room.at (h : v.Room) (a : A) : v.RoomAt a := h a

/-- An adjustment by one moves the count, unless it is at an end. -/
theorem Off.adjust (h : v.Off others x)
    (ha : n = 1 ∧ v.RoomAt a ∨ n = -1 ∧ 0 < others a + v.reserves a + x a) :
    (v.adjustOwnerCount a n).Off others fun b => x b + if b = a then n else 0 := by
  intro b root hb
  have hreserves : (v.adjustOwnerCount a n).reserves b = v.reserves b := by
    unfold adjustOwnerCount
    split <;> rfl
  rw [hreserves]
  unfold adjustOwnerCount at hb
  cases hroot : v.accounts.lookup a with
  | none =>
    rw [hroot] at hb
    have hne : b ≠ a := by
      rintro rfl
      rw [hroot] at hb
      cases hb
    simp only [if_neg hne, add_zero]
    exact h b root hb
  | some old =>
    rw [hroot] at hb
    dsimp only at hb
    by_cases hba : b = a
    · subst hba
      rw [AList.lookup_insert] at hb
      obtain rfl := Option.some.inj hb
      have hold := h b old hroot
      simp only [if_true]
      change ((confineOwnerCount old.ownerCount n).toNat : ℤ) = _
      rcases ha with ⟨rfl, hroom⟩ | ⟨rfl, hpos⟩
      · rw [toNat_confineOwnerCount_one (hroom old hroot)]
        push_cast
        omega
      · rw [toNat_confineOwnerCount_neg_one]
        omega
    · rw [AList.lookup_insert_ne hba] at hb
      simp only [if_neg hba, add_zero]
      exact h b root hb

theorem Off.congr (h : v.Off others x) (hxy : ∀ a, x a = y a) : v.Off others y :=
  fun a root ha => by rw [← hxy a, h a root ha]

@[simp] theorem adjustOwnerCount_lines : (v.adjustOwnerCount a n).lines = v.lines := by
  unfold adjustOwnerCount
  split <;> rfl

@[simp] theorem adjustOwnerCount_ownerDir : (v.adjustOwnerCount a n).ownerDir = v.ownerDir := by
  unfold adjustOwnerCount
  split <;> rfl

@[simp] theorem adjustOwnerCount_erased : (v.adjustOwnerCount a n).erased = v.erased := by
  unfold adjustOwnerCount
  split <;> rfl

theorem adjustOwnerCount_isSome (b : A) :
    ((v.adjustOwnerCount a n).accounts.lookup b).isSome = (v.accounts.lookup b).isSome := by
  unfold adjustOwnerCount
  cases hroot : v.accounts.lookup a with
  | none => rfl
  | some root =>
    dsimp only
    by_cases hba : b = a
    · subst hba
      rw [AList.lookup_insert, hroot]
      rfl
    · rw [AList.lookup_insert_ne hba]

variable [DecidableEq C]

/-- A line is in the directories of its parties, and in no other. -/
def Listed (v : View A C) : Prop :=
  ∀ a key, (v.ownerDir a).count key =
    if (v.lines.lookup key).isSome ∧ (a = key.low ∨ a = key.high) then 1 else 0

/-- The key of a line names two accounts that are there, in their order. -/
def Keyed (v : View A C) : Prop :=
  ∀ key l, v.lines.lookup key = some l → key.low < key.high ∧
    ∀ high, (v.accounts.lookup (key.party high)).isSome

/-- The books: `others` counts what an account owns beside its lines. -/
structure Sound (others : A → ℕ) (v : View A C) : Prop where
  counts : v.Off others 0
  listed : v.Listed
  keyed : v.Keyed
  lines : Table.All RippleState.Sound v.lines
  erased : ∀ l ∈ v.erased, l.Spent ∧ l.Sound

variable {key : LineKey A C} {l : RippleState}

theorem reserves_putLine (v : View A C) (key : LineKey A C) (l' : RippleState) (a : A) :
    (v.putLine key l').reserves a =
      v.reserves a - (v.lines.lookup key).elim 0 (units a key) + units a key l' :=
  Table.sumRows_insert _ _ _ _

theorem units_le_reserves (h : v.lines.lookup key = some l) (a : A) :
    units a key l ≤ v.reserves a := by
  have hsplit := Table.sumRows_eq_erase_add (units a) v.lines key
  rw [h, Option.elim_some] at hsplit
  have hrest : 0 ≤ Table.sumRows (units a) (v.lines.erase key) :=
    List.sum_nonneg fun n hn => by
      obtain ⟨e, -, rfl⟩ := List.mem_map.mp hn
      exact units_nonneg _ _ _
  rw [reserves, hsplit]
  omega

/-- The views differ in owner counts only. -/
structure Adjusted (v v₁ : View A C) : Prop where
  lines : v₁.lines = v.lines
  ownerDir : v₁.ownerDir = v.ownerDir
  erased : v₁.erased = v.erased
  accounts : ∀ b, (v₁.accounts.lookup b).isSome = (v.accounts.lookup b).isSome

omit [DecidableEq C] in
theorem adjusted_self (v : View A C) : v.Adjusted v := ⟨rfl, rfl, rfl, fun _ => rfl⟩

omit [DecidableEq C] in
theorem Adjusted.trans {v v₁ v₂ : View A C} (h : v.Adjusted v₁) (h' : v₁.Adjusted v₂) :
    v.Adjusted v₂ :=
  ⟨h'.lines.trans h.lines, h'.ownerDir.trans h.ownerDir, h'.erased.trans h.erased,
    fun b => (h'.accounts b).trans (h.accounts b)⟩

omit [DecidableEq C] in
theorem adjusted_adjustOwnerCount (v : View A C) (a : A) (n : ℤ) :
    v.Adjusted (v.adjustOwnerCount a n) :=
  ⟨adjustOwnerCount_lines, adjustOwnerCount_ownerDir, adjustOwnerCount_erased,
    adjustOwnerCount_isSome⟩

end View

/-! ### A line that changes -/

section Change

variable [DecidableEq C] {env : Env A C} {v v' v₁ : View A C} {others : A → ℕ} {a : A}
  {key : LineKey A C} {l l' : RippleState} {u : Unit}

omit [DecidableEq C] in
theorem units_setSide (a : A) (key : LineKey A C) (l : RippleState) (high : Bool) (s : Side) :
    units a key (l.setSide high s) = units a key l +
      if key.party high = a then (if s.reserve = true then 1 else 0) -
        (if (l.side high).reserve = true then 1 else 0) else 0 := by
  cases high <;> simp only [units, RippleState.setSide, RippleState.side, LineKey.party,
    Bool.false_eq_true, if_true, if_false] <;> split_ifs <;> simp_all

omit [DecidableEq C] in
theorem units_setBalance (a : A) (key : LineKey A C) (l : RippleState) (high : Bool) (balance : ℚ) :
    units a key (l.setBalance high balance) = units a key l := rfl

omit [DecidableEq C] in
theorem units_of_spent (h : l.Spent) (a : A) : units a key l = 0 := by
  have hlow : l.low.reserve = false := h.reserve false
  have hhigh : l.high.reserve = false := h.reserve true
  simp [units, hlow, hhigh]

theorem View.Keyed.congr (h : v.Keyed) (hl : ∀ key, (v'.lines.lookup key).isSome →
    (v.lines.lookup key).isSome)
    (ha : ∀ b, (v'.accounts.lookup b).isSome = (v.accounts.lookup b).isSome) :
    v'.Keyed := by
  intro key l hkey
  obtain ⟨l₀, hl₀⟩ := Option.isSome_iff_exists.mp (hl key (by rw [hkey]; rfl))
  obtain ⟨hlt, hparty⟩ := h key l₀ hl₀
  exact ⟨hlt, fun high => by rw [ha]; exact hparty high⟩

theorem View.Sound.putLine (h : v.Sound others) (hold : v.lines.lookup key = some l)
    (hadj : v.Adjusted v₁) (hoff : v₁.Off others fun a => units a key l' - units a key l)
    (hl' : l'.Sound) : (v₁.putLine key l').Sound others := by
  have hsome : ∀ key', ((v₁.putLine key l').lines.lookup key').isSome =
      (v.lines.lookup key').isSome := by
    intro key'
    rw [View.putLine, hadj.lines]
    by_cases heq : key' = key
    · subst heq
      rw [AList.lookup_insert, hold]
      rfl
    · rw [AList.lookup_insert_ne heq]
  refine ⟨?_, ?_, ?_, ?_, ?_⟩
  · intro a root ha
    have hcount := hoff a root ha
    rw [View.reserves_putLine, hadj.lines, hold, Option.elim_some]
    simp only [Pi.zero_apply] at hcount ⊢
    omega
  · intro a key'
    rw [hsome]
    change (v₁.ownerDir a).count key' = _
    rw [hadj.ownerDir]
    exact h.listed a key'
  · exact h.keyed.congr (fun key' hkey' => by rwa [hsome] at hkey') hadj.accounts
  · rw [View.putLine, hadj.lines]
    exact h.lines.insert hl'
  · change ∀ l ∈ v₁.erased, _
    rw [hadj.erased]
    exact h.erased

theorem dirRemove_ok (h : dirRemove v a key = .ok v') :
    v' = v.setDir a ((v.ownerDir a).erase key) := by
  obtain ⟨_, -, h⟩ := bind_ok h
  exact (Except.ok.inj h).symm

omit [DecidableEq C] in
theorem dirInsert_ok (h : dirInsert env v a key = .ok v') :
    v' = v.setDir a (v.ownerDir a ++ [key]) := by
  obtain ⟨_, -, h⟩ := bind_ok h
  exact (Except.ok.inj h).symm

theorem trustDelete_ok {low high : A} (hne : low ≠ high) (h : trustDelete key l' low high v = .ok v') :
    v'.accounts = v.accounts ∧ v'.lines = v.lines.erase key ∧ v'.erased = l' :: v.erased ∧
      ∀ a, v'.ownerDir a = if a = low ∨ a = high then (v.ownerDir a).erase key else v.ownerDir a := by
  obtain ⟨v₁, h₁, h⟩ := bind_ok h
  obtain ⟨v₂, h₂, h⟩ := bind_ok h
  obtain rfl := dirRemove_ok h₁
  obtain rfl := dirRemove_ok h₂
  obtain rfl := (Except.ok.inj h).symm
  refine ⟨rfl, rfl, rfl, fun a => ?_⟩
  by_cases hh : a = high
  · subst hh
    simp [View.setDir, hne.symm]
  · by_cases hl : a = low
    · subst hl
      simp [View.setDir, hh]
    · simp [View.setDir, hh, hl]

theorem View.Sound.trustDelete (h : v.Sound others) (hold : v.lines.lookup key = some l)
    (hadj : v.Adjusted v₁) (hoff : v₁.Off others fun a => units a key l' - units a key l)
    (hl' : l'.Sound) (hspent : l'.Spent)
    (hdel : TrustLines.trustDelete key l' key.low key.high v₁ = .ok v') : v'.Sound others := by
  obtain ⟨hlt, hparty⟩ := h.keyed key l hold
  obtain ⟨haccounts, hlines, herased, hdir⟩ := trustDelete_ok hlt.ne hdel
  refine ⟨?_, ?_, ?_, ?_, ?_⟩
  · intro a root ha
    rw [haccounts] at ha
    have hcount := hoff a root ha
    simp only [units_of_spent hspent] at hcount
    have hreserves : v'.reserves a = v₁.reserves a - units a key l := by
      rw [View.reserves, hlines, Table.sumRows_erase, hadj.lines, hold, Option.elim_some,
        View.reserves, hadj.lines]
    simp only [Pi.zero_apply]
    omega
  · intro a key'
    have hlisted := h.listed a key'
    rw [hdir, hlines, hadj.lines, hadj.ownerDir]
    by_cases heq : key' = key
    · subst heq
      rw [hold] at hlisted
      rw [AList.lookup_erase]
      by_cases hmem : a = key'.low ∨ a = key'.high
      · rw [if_pos hmem, List.count_erase_self, hlisted]
        simp [hmem]
      · rw [if_neg hmem, hlisted]
        simp [hmem]
    · rw [AList.lookup_erase_ne heq, ← hlisted]
      split_ifs
      · rw [List.count_erase_of_ne heq]
      · rfl
  · refine h.keyed.congr (fun key' hkey' => ?_) fun b => by rw [haccounts, hadj.accounts]
    rw [hlines, hadj.lines] at hkey'
    by_cases heq : key' = key
    · subst heq
      rw [AList.lookup_erase] at hkey'
      cases hkey'
    · rwa [AList.lookup_erase_ne heq] at hkey'
  · rw [hlines, hadj.lines]
    exact h.lines.erase key
  · rw [herased, hadj.erased]
    exact List.forall_mem_cons.mpr ⟨⟨hspent, hl'⟩, h.erased⟩

/-- The line is put into the directories of its parties. -/
def View.enlist (v : View A C) (key : LineKey A C) : View A C :=
  { v with
    ownerDir := fun a => if a = key.low ∨ a = key.high then v.ownerDir a ++ [key] else v.ownerDir a }

omit [DecidableEq C] in
theorem enlist_eq (hne : key.low ≠ key.high) :
    (v.setDir key.low (v.ownerDir key.low ++ [key])).setDir key.high
      ((v.setDir key.low (v.ownerDir key.low ++ [key])).ownerDir key.high ++ [key]) = v.enlist key := by
  rw [View.setDir, View.enlist]
  congr 1
  funext a
  by_cases hh : a = key.high
  · subst hh
    simp [View.setDir, hne.symm]
  · by_cases hl : a = key.low
    · subst hl
      simp [View.setDir, hh]
    · simp [View.setDir, hh, hl]

/-- A creation makes a line with one reserve, that of the account that is set. -/
theorem trustCreate_ok {bSrcHigh : Bool} {src dst account : A} {mine : Side} {balance : ℚ}
    (hkey : key.party bSrcHigh = src ∧ key.party (!bSrcHigh) = dst) (hne : key.low ≠ key.high)
    (haccount : account = src ∨ account = dst)
    (h : trustCreate env bSrcHigh src dst key account mine balance v = .ok v') :
    ∃ l high, key.party high = account ∧ (v.accounts.lookup (key.party !high)).isSome ∧
      l.side high = { mine with reserve := true } ∧ (l.side !high).Plain ∧
      (l.side !high).reserve = false ∧
      v' = ((v.enlist key).adjustOwnerCount account 1).putLine key l := by
  obtain ⟨hsrc, hdst⟩ := hkey
  have hlow : (if bSrcHigh = true then dst else src) = key.low := by
    cases bSrcHigh <;> simp_all [LineKey.party]
  have hhigh : (if bSrcHigh = true then src else dst) = key.high := by
    cases bSrcHigh <;> simp_all [LineKey.party]
  have hsd : src ≠ dst := by
    rintro rfl
    exact hne (by rw [← hlow, ← hhigh])
  rw [trustCreate, hlow, hhigh] at h
  obtain ⟨_, -, h⟩ := bind_ok h
  obtain ⟨v₁, h₁, h⟩ := bind_ok h
  obtain rfl := dirInsert_ok h₁
  obtain ⟨v₂, h₂, h⟩ := bind_ok h
  obtain rfl := dirInsert_ok h₂
  rw [enlist_eq hne] at h
  have hset : key.party (bSrcHigh ^^ decide (account = dst)) = account := by
    rcases haccount with rfl | rfl
    · rw [decide_eq_false hsd, Bool.xor_false]
      exact hsrc
    · rw [decide_eq_true rfl, Bool.xor_true]
      exact hdst
  dsimp only at h
  generalize (bSrcHigh ^^ decide (account = dst)) = high at h hset
  have hpeer : (if high = true then key.low else key.high) = key.party !high := by
    cases high <;> rfl
  rw [hpeer] at h
  cases hlook : v.accounts.lookup (key.party !high) with
  | none =>
    rw [View.enlist, hlook] at h
    cases h
  | some peer =>
    rw [show (v.enlist key).accounts = v.accounts from rfl, hlook] at h
    refine ⟨_, high, hset, by rw [hlook]; rfl, ?_, ?_, ?_, (Except.ok.inj h).symm⟩
    · rw [RippleState.side_setBalance, RippleState.side_setSide_self]
    · rw [RippleState.side_setBalance, RippleState.side_setSide_not]
      cases high <;> exact ⟨rfl, .inl rfl, .inl rfl, rfl, rfl⟩
    · rw [RippleState.side_setBalance, RippleState.side_setSide_not]
      cases high <;> rfl

omit [DecidableEq C] in
theorem units_of_sides {high : Bool} (hmine : (l.side high).reserve = true)
    (hother : (l.side !high).reserve = false) (a : A) :
    units a key l = if a = key.party high then 1 else 0 := by
  cases high with
  | false =>
    have hlow : l.low.reserve = true := hmine
    have hhigh : l.high.reserve = false := hother
    simp [units, LineKey.party, hlow, hhigh, eq_comm]
  | true =>
    have hhigh : l.high.reserve = true := hmine
    have hlow : l.low.reserve = false := hother
    simp [units, LineKey.party, hlow, hhigh, eq_comm]

theorem View.Sound.addLine (h : v.Sound others) (hroom : v.RoomAt a) (hnone : v.lines.lookup key = none)
    (hlt : key.low < key.high) (hparty : ∀ high, (v.accounts.lookup (key.party high)).isSome)
    (hunits : ∀ b, units b key l = if b = a then 1 else 0) (hl : l.Sound) :
    (((v.enlist key).adjustOwnerCount a 1).putLine key l).Sound others := by
  have hsome : ∀ b, (((v.enlist key).adjustOwnerCount a 1).accounts.lookup b).isSome =
      (v.accounts.lookup b).isSome := fun b => View.adjustOwnerCount_isSome b
  refine ⟨?_, ?_, ?_, ?_, ?_⟩
  · have hoff : (v.enlist key).Off others 0 := h.counts
    have hadj := hoff.adjust (a := a) (n := 1) (.inl ⟨rfl, hroom⟩)
    intro b root hb
    have hcount := hadj b root hb
    rw [View.reserves_putLine, View.adjustOwnerCount_lines]
    change _ = (others b : ℤ) + (_ - (v.lines.lookup key).elim 0 (units b key) + units b key l) + 0
    rw [hnone, Option.elim_none, hunits]
    simp only [Pi.zero_apply, zero_add] at hcount
    omega
  · intro b key'
    have hlisted := h.listed b key'
    have hdir : (((v.enlist key).adjustOwnerCount a 1).putLine key l).ownerDir b =
        if b = key.low ∨ b = key.high then v.ownerDir b ++ [key] else v.ownerDir b :=
      congrFun View.adjustOwnerCount_ownerDir b
    rw [hdir]
    by_cases heq : key' = key
    · subst heq
      have hnew : ((((v.enlist key').adjustOwnerCount a 1).putLine key' l).lines.lookup key').isSome =
          true := by
        rw [View.putLine, AList.lookup_insert]
        rfl
      rw [hnone] at hlisted
      rw [hnew]
      by_cases hmem : b = key'.low ∨ b = key'.high
      · rw [if_pos hmem, List.count_append, hlisted]
        simp [hmem]
      · rw [if_neg hmem, hlisted]
        simp [hmem]
    · have hold : ((((v.enlist key).adjustOwnerCount a 1).putLine key l).lines.lookup key').isSome =
          (v.lines.lookup key').isSome := by
        rw [View.putLine, AList.lookup_insert_ne heq, View.adjustOwnerCount_lines]
        rfl
      rw [hold, ← hlisted]
      split_ifs
      · rw [List.count_append, List.count_singleton, if_neg (by simpa using Ne.symm heq), add_zero]
      · rfl
  · intro key' l' hl'
    rw [View.putLine, View.adjustOwnerCount_lines] at hl'
    by_cases heq : key' = key
    · subst heq
      exact ⟨hlt, fun high => (hsome _).trans (hparty high)⟩
    · rw [AList.lookup_insert_ne heq] at hl'
      obtain ⟨hlt', hparty'⟩ := h.keyed key' l' hl'
      exact ⟨hlt', fun high => (hsome _).trans (hparty' high)⟩
  · rw [View.putLine, View.adjustOwnerCount_lines]
    exact h.lines.insert hl
  · change ∀ l ∈ ((v.enlist key).adjustOwnerCount a 1).erased, _
    rw [View.adjustOwnerCount_erased]
    exact h.erased

theorem View.Sound.create {src dst account : A} {c : C} {mine : Side} {balance : ℚ}
    (h : v.Sound others) (hroom : v.Room) (hnone : v.lines.lookup (line src dst c) = none)
    (haccount : account = src ∨ account = dst) (hthere : (v.accounts.lookup account).isSome)
    (hmine : mine.deepFreeze = true → mine.freeze = true)
    (hok : trustCreate env (decide (dst < src)) src dst (line src dst c) account mine balance v =
      .ok v') : v'.Sound others := by
  have hsd : src ≠ dst := by
    obtain ⟨_, hne, -⟩ := bind_ok hok
    rintro rfl
    exact check_ok hne (by split_ifs <;> rfl)
  have hlt := low_lt_high_line (c := c) hsd
  obtain ⟨l, high, hset, hpeer, hside, hplain, hreserve, rfl⟩ :=
    trustCreate_ok (party_line hsd) hlt.ne haccount hok
  have hown : (l.side high).reserve = true := by rw [hside]
  refine h.addLine (hroom.at _) hnone hlt (fun high' => ?_) ?_ fun high' => ?_
  · by_cases hh : high' = high
    · rw [hh, hset]
      exact hthere
    · rw [Bool.eq_not_of_ne hh]
      exact hpeer
  · rw [← hset]
    exact units_of_sides hown hreserve
  · by_cases hh : high' = high
    · rw [hh, hside]
      exact ⟨fun hr => (by cases hr), hmine⟩
    · rw [Bool.eq_not_of_ne hh]
      exact ⟨fun _ => hplain, fun hdeep => (by rw [hplain.deepFreeze] at hdeep; cases hdeep)⟩

/-! ### Balances -/

/-- The sender's reserve is cleared: what `directSendNoFeeIOU` and `updateTrustLine` ask for. -/
def Clears (own : Side) (root : AccountRoot) (before after : ℚ) : Prop :=
  0 < before ∧ after ≤ 0 ∧ own.reserve = true ∧ own.noRipple ≠ root.defaultRipple ∧
    own.freeze = false ∧ own.limit = 0 ∧ own.qualityIn = 0 ∧ own.qualityOut = 0

instance (own : Side) (root : AccountRoot) (before after : ℚ) :
    Decidable (Clears own root before after) :=
  inferInstanceAs (Decidable (_ ∧ _))

/-- What a move of a balance over a line leaves. -/
def moved (key : LineKey A C) (l : RippleState) (high : Bool) (balance : ℚ) (clears : Bool)
    (v : View A C) : Result (View A C) :=
  let own := l.side high
  let v' := if clears then v.adjustOwnerCount (key.party high) (-1) else v
  let l' := if clears then l.setSide high { own with reserve := false } else l
  let l' := l'.setBalance high balance
  if clears && decide (balance = 0) && !(l.side !high).reserve then
    trustDelete key l' key.low key.high v'
  else .ok (v'.putLine key l')

section Moves

variable {sender receiver : A} {c : C} {amount balance : ℚ} {root : AccountRoot}

omit [DecidableEq C] in
theorem ends_line (a b : A) (c : C) :
    (line a b c).low = (if decide (b < a) = true then b else a) ∧
      (line a b c).high = if decide (b < a) = true then a else b := by
  simp only [decide_eq_true_eq]
  exact ⟨low_line, high_line⟩

omit [DecidableEq C] in
theorem updateTrustLine_eq {high : Bool} {before after : ℚ}
    (hs : v.accounts.lookup sender = some root) :
    updateTrustLine v l high sender before after =
      if Clears (l.side high) root before after then
        (decide (after = 0) && !(l.side !high).reserve,
          l.setSide high { l.side high with reserve := false }, v.adjustOwnerCount sender (-1))
      else (false, l, v) := by
  rw [updateTrustLine, hs]
  rfl

variable (hne : sender ≠ receiver)
  (hl : v.lines.lookup (line sender receiver c) = some l)
  (hs : v.accounts.lookup sender = some root)
  (hbalance : env.minus (l.balanceOf (decide (receiver < sender))) amount = some balance)

include hne hl hs hbalance

theorem directSendNoFeeIOU_eq :
    directSendNoFeeIOU env sender receiver c amount v =
      moved (line sender receiver c) l (decide (receiver < sender)) balance
        (decide (Clears (l.side (decide (receiver < sender))) root
          (l.balanceOf (decide (receiver < sender))) balance)) v := by
  have hparty := (party_line (c := c) hne).1
  obtain ⟨hlow, hhigh⟩ := ends_line sender receiver c
  rw [directSendNoFeeIOU, hl, moved, hlow, hhigh, hparty]
  dsimp only
  rw [hbalance, hs]
  generalize decide (receiver < sender) = high
  rw [Option.elim_some, ok_bind]
  dsimp only
  by_cases hfirst : 0 < l.balanceOf high ∧ balance ≤ 0 ∧ (l.side high).reserve = true
  · have hrest : decide ((l.side high).noRipple ≠ root.defaultRipple ∧ (l.side high).freeze = false ∧
        (l.side high).limit = 0 ∧ (l.side high).qualityIn = 0 ∧ (l.side high).qualityOut = 0) =
          decide (Clears (l.side high) root (l.balanceOf high) balance) := by
      rw [decide_eq_decide, Clears]
      exact ⟨fun h => ⟨hfirst.1, hfirst.2.1, hfirst.2.2, h⟩, fun h => h.2.2.2⟩
    rw [if_pos hfirst, hrest]
    cases high <;> rfl
  · have hnot : decide (Clears (l.side high) root (l.balanceOf high) balance) = false :=
      decide_eq_false fun h => hfirst ⟨h.1, h.2.1, h.2.2.1⟩
    rw [if_neg hfirst, hnot]
    cases high <;> rfl

theorem issueIOU_eq :
    issueIOU env receiver amount sender c v =
      moved (line sender receiver c) l (decide (receiver < sender)) balance
        (decide (Clears (l.side (decide (receiver < sender))) root
          (l.balanceOf (decide (receiver < sender))) balance)) v := by
  have hparty := (party_line (c := c) hne).1
  obtain ⟨hlow, hhigh⟩ := ends_line sender receiver c
  rw [issueIOU, hl, moved, hlow, hhigh, hparty]
  dsimp only
  rw [hbalance]
  generalize decide (receiver < sender) = high
  rw [Option.elim_some, ok_bind, updateTrustLine_eq hs]
  by_cases hclears : Clears (l.side high) root (l.balanceOf high) balance
  · rw [decide_eq_true hclears, if_pos hclears]
    cases high <;> rfl
  · rw [decide_eq_false hclears, if_neg hclears]
    cases high <;> rfl

theorem redeemIOU_eq :
    redeemIOU env sender amount receiver c v =
      moved (line sender receiver c) l (decide (receiver < sender)) balance
        (decide (Clears (l.side (decide (receiver < sender))) root
          (l.balanceOf (decide (receiver < sender))) balance)) v := by
  have hparty := (party_line (c := c) hne).1
  obtain ⟨hlow, hhigh⟩ := ends_line sender receiver c
  rw [redeemIOU, hl, moved, hlow, hhigh, hparty]
  dsimp only
  rw [hbalance]
  generalize decide (receiver < sender) = high
  rw [Option.elim_some, ok_bind, updateTrustLine_eq hs]
  by_cases hclears : Clears (l.side high) root (l.balanceOf high) balance
  · rw [decide_eq_true hclears, if_pos hclears]
    cases high <;> rfl
  · rw [decide_eq_false hclears, if_neg hclears]
    cases high <;> rfl

omit hne hl hs hbalance

omit [DecidableEq C] in
theorem one_le_units {high : Bool} (h : (l.side high).reserve = true) :
    1 ≤ units (key.party high) key l := by
  cases high with
  | false =>
    have hlow : l.low.reserve = true := h
    simp only [units, LineKey.party, hlow, Bool.false_eq_true, if_false, and_true, if_true]
    split_ifs <;> decide
  | true =>
    have hhigh : l.high.reserve = true := h
    simp only [units, LineKey.party, hhigh, and_true, if_true]
    split_ifs <;> decide

theorem View.Sound.moved {high : Bool} (h : v.Sound others) (hl : v.lines.lookup key = some l)
    (hok : TrustLines.moved key l high balance
      (decide (Clears (l.side high) root (l.balanceOf high) balance)) v = .ok v') :
    v'.Sound others := by
  have hsound := h.lines key l hl
  rw [TrustLines.moved] at hok
  by_cases hclears : Clears (l.side high) root (l.balanceOf high) balance
  · rw [decide_eq_true hclears] at hok
    obtain ⟨-, -, hreserve, -, hfreeze, hlimit, hqin, hqout⟩ := hclears
    have hcleared : (l.side high).Plain := by
      refine ⟨hlimit, .inl hqin, .inl hqout, hfreeze, ?_⟩
      rw [Bool.eq_false_iff]
      intro hdeep
      rw [(hsound high).frozen hdeep] at hfreeze
      cases hfreeze
    have hside : ({ l.side high with reserve := false } : Side).Sound :=
      ⟨fun _ => ⟨hlimit, .inl hqin, .inl hqout, hfreeze, hcleared.deepFreeze⟩, (hsound high).frozen⟩
    have hl' : ((l.setSide high { l.side high with reserve := false }).setBalance high
        balance).Sound := (hsound.setSide hside).setBalance balance
    have hone : 1 ≤ v.reserves (key.party high) :=
      (one_le_units hreserve).trans (View.units_le_reserves hl _)
    have hoff : (v.adjustOwnerCount (key.party high) (-1)).Off others fun a =>
        units a key ((l.setSide high { l.side high with reserve := false }).setBalance high balance) -
          units a key l := by
      refine (h.counts.adjust (a := key.party high) (n := -1) (.inr ⟨rfl, ?_⟩)).congr fun a => ?_
      · simp only [Pi.zero_apply]
        omega
      · rw [units_setBalance, units_setSide, hreserve]
        by_cases ha : a = key.party high
        · subst ha
          simp
        · simp [ha, Ne.symm ha]
    have hadj := View.adjusted_adjustOwnerCount v (key.party high) (-1)
    rw [if_pos rfl, if_pos rfl, Bool.true_and] at hok
    split_ifs at hok with hdelete
    · rw [Bool.and_eq_true, decide_eq_true_eq, Bool.not_eq_true'] at hdelete
      refine h.trustDelete hl hadj hoff hl' ⟨?_, fun high' => ?_⟩ hok
      · rw [RippleState.setBalance, hdelete.1, neg_zero, ite_self]
      · rw [RippleState.side_setBalance]
        by_cases hh : high' = high
        · rw [hh, RippleState.side_setSide_self]
        · rw [Bool.eq_not_of_ne hh, RippleState.side_setSide_not]
          exact hdelete.2
    · obtain rfl := Except.ok.inj hok
      exact h.putLine hl hadj hoff hl'
  · rw [decide_eq_false hclears] at hok
    obtain rfl := Except.ok.inj hok
    refine h.putLine hl (View.adjusted_self v) (h.counts.congr fun a => ?_) (hsound.setBalance balance)
    rw [if_neg (by decide), units_setBalance, sub_self]
    rfl

end Moves

/-! ### TrustSet -/

namespace TrustSet

variable {tx : TrustSet A C}

theorem quality_eq_zero {q : ℕ} (h : quality q = 0) : q = 0 ∨ q = QUALITY_ONE := by
  unfold quality at h
  split_ifs at h with hone
  · exact .inr hone
  · exact .inl h

/-- Without a reserve a side is plain, as long as a deep freeze is a freeze. -/
theorem plain_of_reserveSet {s : Side} {defRipple : Bool} {balance : ℚ}
    (h : reserveSet s defRipple balance = false) (hfrozen : s.deepFreeze = true → s.freeze = true) :
    s.Plain ∧ balance ≤ 0 := by
  simp only [reserveSet, Bool.or_eq_false_iff, decide_eq_false_iff_not, not_not, not_lt] at h
  obtain ⟨⟨⟨⟨⟨hqin, hqout⟩, -⟩, hfreeze⟩, hlimit⟩, hbalance⟩ := h
  refine ⟨⟨hlimit, quality_eq_zero hqin, quality_eq_zero hqout, hfreeze, ?_⟩, hbalance⟩
  rw [Bool.eq_false_iff]
  intro hdeep
  rw [hfrozen hdeep] at hfreeze
  cases hfreeze

theorem preclaim_ok (h : tx.preclaim env v = .ok u) :
    ∃ root, v.accounts.lookup tx.account = some root ∧ tx.account ≠ tx.dst ∧
      ¬(root.noFreeze = true ∧ (tx.setFreeze || tx.setDeepFreeze) = true) ∧
      ¬((tx.setFreeze || tx.setDeepFreeze) = true ∧ (tx.clearFreeze || tx.clearDeepFreeze) = true) ∧
      ((tx.computeFreezeFlags root.noFreeze
        ((v.lines.lookup (line tx.account tx.dst tx.currency)).elim noSide fun l =>
          l.side (decide (tx.dst < tx.account)))).deepFreeze = true →
        (tx.computeFreezeFlags root.noFreeze
          ((v.lines.lookup (line tx.account tx.dst tx.currency)).elim noSide fun l =>
            l.side (decide (tx.dst < tx.account)))).freeze = true) := by
  rw [preclaim] at h
  cases hroot : v.accounts.lookup tx.account with
  | none =>
    rw [hroot] at h
    cases h
  | some root =>
    rw [hroot] at h
    obtain ⟨_, -, h⟩ := bind_ok h
    obtain ⟨_, hne, h⟩ := bind_ok h
    cases hdst : v.accounts.lookup tx.dst with
    | none =>
      rw [hdst] at h
      cases h
    | some dst =>
      rw [hdst] at h
      obtain ⟨_, -, h⟩ := bind_ok h
      obtain ⟨_, -, h⟩ := bind_ok h
      obtain ⟨_, hnoFreeze, h⟩ := bind_ok h
      obtain ⟨_, hboth, h⟩ := bind_ok h
      exact ⟨root, rfl, check_ok hne, check_ok hnoFreeze, check_ok hboth, check_ok h⟩

omit [LinearOrder A] [DecidableEq C] in
theorem newSide_ok {noFreeze bHigh : Bool} {own : Side}
    (h : tx.newSide noFreeze l bHigh = .ok own) :
    own.freeze = (tx.computeFreezeFlags noFreeze (l.side bHigh)).freeze ∧
      own.deepFreeze = (tx.computeFreezeFlags noFreeze (l.side bHigh)).deepFreeze := by
  obtain ⟨_, -, h⟩ := bind_ok h
  obtain rfl := Except.ok.inj h
  exact ⟨rfl, rfl⟩

omit [DecidableEq C] in
theorem adjusted_settle (v : View A C) (a : A) (set reserved : Bool) :
    v.Adjusted (settle a set reserved v) := by
  unfold settle
  split_ifs
  · exact View.adjusted_adjustOwnerCount _ _ _
  · exact View.adjusted_adjustOwnerCount _ _ _
  · exact View.adjusted_self v

omit [DecidableEq C] in
theorem off_settle {x : A → ℤ} (set reserved : Bool) (h : v.Off others x) (hroom : v.RoomAt a)
    (hres : (if reserved = true then 1 else 0) ≤ others a + v.reserves a + x a) :
    (settle a set reserved v).Off others fun b => x b +
      if b = a then (if set = true then 1 else 0) - (if reserved = true then 1 else 0) else 0 := by
  cases set <;> cases reserved <;> simp only [settle, Bool.not_true, Bool.not_false, Bool.and_true,
    Bool.and_false, Bool.false_eq_true, if_true, if_false] at hres ⊢
  · refine h.congr fun b => ?_
    split_ifs <;> omega
  · refine (h.adjust (n := -1) (.inr ⟨rfl, by omega⟩)).congr fun b => ?_
    split_ifs <;> omega
  · refine (h.adjust (n := 1) (.inl ⟨rfl, hroom⟩)).congr fun b => ?_
    split_ifs <;> omega
  · refine h.congr fun b => ?_
    split_ifs <;> omega

omit [DecidableEq C] in
theorem lookup_settle_ne {a b : A} (hba : b ≠ a) (set reserved : Bool) :
    (settle a set reserved v).accounts.lookup b = v.accounts.lookup b := by
  have hadj : ∀ n, (v.adjustOwnerCount a n).accounts.lookup b = v.accounts.lookup b := fun n => by
    unfold View.adjustOwnerCount
    split
    · rfl
    · exact AList.lookup_insert_ne hba
  unfold settle
  split_ifs
  · exact hadj 1
  · exact hadj (-1)
  · rfl

theorem off_settle_both (h : v.Sound others) (hroom : v.Room) (hl : v.lines.lookup key = some l) (low high : Side) :
    (settle key.high high.reserve l.high.reserve
      (settle key.low low.reserve l.low.reserve v)).Off others fun a =>
        units a key ⟨l.balance, low, high⟩ - units a key l := by
  obtain ⟨hlt, -⟩ := h.keyed key l hl
  have hlow : (if l.low.reserve = true then 1 else 0) ≤ v.reserves key.low := by
    refine le_trans ?_ (View.units_le_reserves hl key.low)
    simp only [units, true_and, hlt.ne', false_and, if_false, add_zero, le_refl]
  have hhigh : (if l.high.reserve = true then 1 else 0) ≤ v.reserves key.high := by
    refine le_trans ?_ (View.units_le_reserves hl key.high)
    simp only [units, true_and, hlt.ne, false_and, if_false, zero_add, le_refl]
  have hadj := adjusted_settle v key.low low.reserve l.low.reserve
  have hfirst := off_settle (a := key.low) low.reserve l.low.reserve h.counts (hroom.at _) (by
    simp only [Pi.zero_apply]
    omega)
  have hroomHigh : (settle key.low low.reserve l.low.reserve v).RoomAt key.high := fun root hroot =>
    hroom key.high root (by rwa [lookup_settle_ne hlt.ne'] at hroot)
  refine (off_settle (a := key.high) high.reserve l.high.reserve hfirst hroomHigh ?_).congr
    fun a => ?_
  · simp only [View.reserves, hadj.lines, Pi.zero_apply, hlt.ne', if_false] at hhigh ⊢
    omega
  · simp only [units, Pi.zero_apply]
    by_cases ha : a = key.low
    · subst ha
      simp [hlt.ne, hlt.ne']
    · by_cases hb : a = key.high
      · subst hb
        simp [hlt.ne, hlt.ne']
      · simp [ha, hb, Ne.symm ha, Ne.symm hb]

theorem modify_sound {preFeeBalance reserveCreate : ℕ} {root dst : AccountRoot} (h : v.Sound others)
    (hroom : v.Room) (hl : v.lines.lookup (line tx.account tx.dst tx.currency) = some l)
    (hbad : tx.currency ≠ env.badCurrency)
    (hfrozen : (tx.computeFreezeFlags root.noFreeze
        (l.side (decide (tx.dst < tx.account)))).deepFreeze = true →
      (tx.computeFreezeFlags root.noFreeze (l.side (decide (tx.dst < tx.account)))).freeze = true)
    (hok : tx.modify env preFeeBalance reserveCreate root dst l v = .ok v') : v'.Sound others := by
  obtain ⟨own, hown, hok⟩ := bind_ok hok
  obtain ⟨hfreeze, hdeep⟩ := newSide_ok hown
  rw [← hfreeze, ← hdeep] at hfrozen
  obtain ⟨hlow, hhigh⟩ := ends_line tx.account tx.dst tx.currency
  dsimp only at hok
  rw [← hlow, ← hhigh] at hok
  generalize hkey : line tx.account tx.dst tx.currency = key at *
  generalize decide (tx.dst < tx.account) = bHigh at *
  have hsound := h.lines key l hl
  have hfro : ∀ high, ((l.setSide bHigh own).side high).deepFreeze = true →
      ((l.setSide bHigh own).side high).freeze = true := by
    intro high
    by_cases hh : high = bHigh
    · rw [hh, RippleState.side_setSide_self]
      exact hfrozen
    · rw [Bool.eq_not_of_ne hh, RippleState.side_setSide_not]
      exact (hsound _).frozen
  generalize l.setSide bHigh own = l₁ at hok hfro
  generalize hlowSet : reserveSet l₁.low _ _ = lowSet at hok
  generalize hhighSet : reserveSet l₁.high _ _ = highSet at hok
  have hplainLow : lowSet = false → l₁.low.Plain ∧ l.balance ≤ 0 := fun hset =>
    plain_of_reserveSet (hlowSet.trans hset) (hfro false)
  have hplainHigh : highSet = false → l₁.high.Plain ∧ -l.balance ≤ 0 := fun hset =>
    plain_of_reserveSet (hhighSet.trans hset) (hfro true)
  have hl' : RippleState.Sound ⟨l.balance, { l₁.low with reserve := lowSet },
      { l₁.high with reserve := highSet }⟩ := by
    intro high
    cases high with
    | false =>
      refine ⟨fun hset => ?_, hfro false⟩
      obtain ⟨hlimit, hqin, hqout, hf, hd⟩ := (hplainLow hset).1
      exact ⟨hlimit, hqin, hqout, hf, hd⟩
    | true =>
      refine ⟨fun hset => ?_, hfro true⟩
      obtain ⟨hlimit, hqin, hqout, hf, hd⟩ := (hplainHigh hset).1
      exact ⟨hlimit, hqin, hqout, hf, hd⟩
  have hadj : v.Adjusted (settle key.high highSet l.high.reserve
      (settle key.low lowSet l.low.reserve v)) :=
    (adjusted_settle _ _ _ _).trans (adjusted_settle _ _ _ _)
  have hoff := off_settle_both h hroom hl { l₁.low with reserve := lowSet } { l₁.high with reserve := highSet }
  split_ifs at hok with hdelete
  · rcases hdelete with hdelete | hcurrency
    · rw [Bool.and_eq_true, Bool.not_eq_true', Bool.not_eq_true'] at hdelete
      obtain ⟨hlowOff, hhighOff⟩ := hdelete
      refine h.trustDelete hl hadj hoff hl' ⟨?_, fun high => ?_⟩ hok
      · have hle := (hplainLow hlowOff).2
        have hge := (hplainHigh hhighOff).2
        exact le_antisymm hle (neg_nonpos.mp hge)
      · cases high with
        | false => exact hlowOff
        | true => exact hhighOff
    · exact absurd hcurrency.symm hbad
  · obtain ⟨_, -, hok⟩ := bind_ok hok
    obtain rfl := Except.ok.inj hok
    exact h.putLine hl hadj hoff hl'

theorem freeze_of_deepFreeze : ∀ {noFreeze sf cf sd cd : Bool},
    ¬(noFreeze = true ∧ (sf || sd) = true) → ¬((sf || sd) = true ∧ (cf || cd) = true) →
    (freezeFlag noFreeze sd cd false = true → freezeFlag noFreeze sf cf false = true) →
    sd = true → (sf && !cf) = true := by
  decide

theorem apply_sound {preFeeBalance : ℕ} (h : v.Sound others) (hroom : v.Room)
    (hok : tx.apply env preFeeBalance v = .ok v') : v'.Sound others := by
  obtain ⟨_, hpreflight, hok⟩ := bind_ok hok
  obtain ⟨_, hbad, -⟩ := bind_ok hpreflight
  obtain ⟨_, hpreclaim, hok⟩ := bind_ok hok
  obtain ⟨root, hroot, hne, hnoFreeze, hboth, hfrozen⟩ := preclaim_ok hpreclaim
  rw [doApply, hroot] at hok
  dsimp only at hok
  cases hdst : v.accounts.lookup tx.dst with
  | none =>
    rw [hdst] at hok
    cases hok
  | some dst =>
    rw [hdst] at hok
    dsimp only at hok
    cases hl : v.lines.lookup (line tx.account tx.dst tx.currency) with
    | some l =>
      rw [hl] at hok hfrozen
      exact modify_sound h hroom hl (check_ok hbad) hfrozen hok
    | none =>
      rw [hl] at hok hfrozen
      obtain ⟨_, -, hok⟩ := bind_ok hok
      obtain ⟨_, -, hok⟩ := bind_ok hok
      exact h.create hroom hl (.inl rfl) (by rw [hroot]; rfl)
        (freeze_of_deepFreeze hnoFreeze hboth hfrozen) hok

end TrustSet

/-! ### Runs -/

section Runs

variable {sender receiver : A} {c : C} {amount : ℚ}

theorem View.Keyed.there (h : v.Keyed) (hl : v.lines.lookup (line sender receiver c) = some l) :
    sender ≠ receiver ∧ ∃ root, v.accounts.lookup sender = some root := by
  obtain ⟨hlt, hparty⟩ := h _ _ hl
  have hne : sender ≠ receiver := by
    rintro rfl
    exact absurd hlt (by rw [low_line, high_line, ite_self]; exact lt_irrefl _)
  refine ⟨hne, Option.isSome_iff_exists.mp ?_⟩
  have hsender := hparty (decide (receiver < sender))
  rwa [(party_line hne).1] at hsender

theorem directSend_sound (h : v.Sound others) (hroom : v.Room)
    (hok : directSendNoFeeIOU env sender receiver c amount v = .ok v') : v'.Sound others := by
  cases hl : v.lines.lookup (line sender receiver c) with
  | some l =>
    obtain ⟨hne, root, hroot⟩ := h.keyed.there hl
    cases hbalance : env.minus (l.balanceOf (decide (receiver < sender))) amount with
    | none =>
      rw [directSendNoFeeIOU, hl] at hok
      dsimp only at hok
      rw [hbalance] at hok
      cases hok
    | some balance =>
      rw [directSendNoFeeIOU_eq hne hl hroot hbalance] at hok
      exact h.moved hl hok
  | none =>
    rw [directSendNoFeeIOU, hl] at hok
    dsimp only at hok
    cases hroot : v.accounts.lookup receiver with
    | none =>
      rw [hroot] at hok
      cases hok
    | some root =>
      rw [hroot] at hok
      exact h.create hroom hl (.inr rfl) (by rw [hroot]; rfl) (fun hdeep => by cases hdeep) hok

theorem directSend_eq (h : v.Keyed) (hl : v.lines.lookup (line sender receiver c) = some l) :
    directSendNoFeeIOU env sender receiver c amount v = issueIOU env receiver amount sender c v ∧
      directSendNoFeeIOU env sender receiver c amount v = redeemIOU env sender amount receiver c v := by
  obtain ⟨hne, root, hroot⟩ := h.there hl
  cases hbalance : env.minus (l.balanceOf (decide (receiver < sender))) amount with
  | none =>
    rw [directSendNoFeeIOU, issueIOU, redeemIOU, hl]
    dsimp only
    rw [hbalance]
    exact ⟨rfl, rfl⟩
  | some balance =>
    rw [directSendNoFeeIOU_eq hne hl hroot hbalance, issueIOU_eq hne hl hroot hbalance,
      redeemIOU_eq hne hl hroot hbalance]
    exact ⟨rfl, rfl⟩

theorem issue_sound (h : v.Sound others) (hroom : v.Room)
    (hok : issueIOU env receiver amount sender c v = .ok v') : v'.Sound others := by
  cases hl : v.lines.lookup (line sender receiver c) with
  | some l =>
    rw [← (directSend_eq h.keyed hl).1] at hok
    exact directSend_sound h hroom hok
  | none =>
    have hsend : directSendNoFeeIOU env sender receiver c amount v = .ok v' := by
      rw [issueIOU, hl] at hok
      rw [directSendNoFeeIOU, hl]
      exact hok
    exact directSend_sound h hroom hsend

theorem redeem_sound (h : v.Sound others) (hroom : v.Room)
    (hok : redeemIOU env sender amount receiver c v = .ok v') : v'.Sound others := by
  cases hl : v.lines.lookup (line sender receiver c) with
  | some l =>
    rw [← (directSend_eq h.keyed hl).2] at hok
    exact directSend_sound h hroom hok
  | none =>
    rw [redeemIOU, hl] at hok
    cases hok

theorem accountSet_sound {defaultRipple noFreeze : Bool} (h : v.Sound others)
    (hok : accountSet a defaultRipple noFreeze v = .ok v') : v'.Sound others := by
  rw [accountSet] at hok
  cases hroot : v.accounts.lookup a with
  | none =>
    rw [hroot] at hok
    cases hok
  | some root =>
    rw [hroot] at hok
    obtain rfl := Except.ok.inj hok
    refine ⟨?_, h.listed, h.keyed.congr (fun _ hkey => hkey) fun b => ?_, h.lines, h.erased⟩
    · intro b root' hb
      by_cases hba : b = a
      · subst hba
        rw [AList.lookup_insert] at hb
        obtain rfl := Option.some.inj hb
        exact h.counts b root hroot
      · rw [AList.lookup_insert_ne hba] at hb
        exact h.counts b root' hb
    · by_cases hba : b = a
      · subst hba
        rw [AList.lookup_insert, hroot]
        rfl
      · rw [AList.lookup_insert_ne hba]

theorem step_sound (env : Env A C) (op : Op A C) (h : v.Sound others) (hroom : v.Room) :
    (step env v op).1.Sound others := by
  rw [step]
  cases hok : op.apply env v with
  | error e => exact h
  | ok v' =>
    cases op with
    | trustSet tx preFeeBalance => exact TrustSet.apply_sound h hroom hok
    | directSend sender receiver currency amount => exact directSend_sound h hroom hok
    | issue account amount issuer currency => exact issue_sound h hroom hok
    | redeem account amount issuer currency => exact redeem_sound h hroom hok
    | setFlags account defaultRipple noFreeze => exact accountSet_sound h hok

end Runs

end Change

section Start

variable [DecidableEq C]

/-- Accounts without lines. -/
def start (accounts : Table A AccountRoot) : View A C := ⟨accounts, ∅, fun _ => [], []⟩

theorem start_sound (accounts : Table A AccountRoot) :
    (start accounts : View A C).Sound fun a =>
      (accounts.lookup a).elim 0 fun root => root.ownerCount.toNat := by
  refine ⟨fun a root ha => ?_, fun a key => ?_, fun key l hl => ?_, fun key l hl => ?_,
    List.forall_mem_nil _⟩
  · have hroot : accounts.lookup a = some root := ha
    rw [hroot]
    simp [View.reserves, start, Table.sumRows]
  · simp [start]
  · simp [start] at hl
  · simp [start] at hl

/-- In every run of lines that are set and of balances that are moved, as long as no owner count is the
greatest there is, the books are kept, and over a line that exists the three ways to move a balance do
the same. -/
theorem trust_lines_kept (env : Env A C) (accounts : Table A AccountRoot) (ops : List (Op A C))
    (hroom : Run.Always (step env) (fun v _ => v.Room) (start accounts) ops) :
    ∀ v, v = Run.final (step env) (start accounts) ops →
      (v.Sound fun a => (accounts.lookup a).elim 0 fun root => root.ownerCount.toNat) ∧
      ∀ sender receiver c amount, (v.lines.lookup (line sender receiver c)).isSome →
        directSendNoFeeIOU env sender receiver c amount v = issueIOU env receiver amount sender c v ∧
        directSendNoFeeIOU env sender receiver c amount v =
          redeemIOU env sender amount receiver c v := by
  rintro v rfl
  have hsound := Run.invariant (View.Sound _) (fun v op hv hroom => step_sound env op hv hroom)
    (start_sound accounts) hroom
  refine ⟨hsound, fun sender receiver c amount hl => ?_⟩
  obtain ⟨l, hl⟩ := Option.isSome_iff_exists.mp hl
  exact directSend_eq hsound.keyed hl

namespace Sample

def exactly : Env ℕ ℕ where
  minus a b := some (a - b)
  full _ := false
  accountReserve n := 200 + 50 * n.toNat
  badCurrency := 0
  pseudoRefuses _ _ _ _ := false

def accounts : Table ℕ AccountRoot :=
  (AList.insert 1 ⟨0, false, false, false, false⟩ ∅).insert 2 ⟨3, true, false, false, false⟩

def ops : List (Op ℕ ℕ) :=
  [.trustSet ⟨1, 2, 7, 100, none, none, false, false, false, false, false, false, false⟩ 1000,
    .directSend 2 1 7 10,
    .trustSet ⟨1, 2, 7, 0, none, none, false, false, false, true, false, true, false⟩ 1000,
    .trustSet ⟨2, 1, 8, 50, none, none, false, false, false, false, false, false, false⟩ 1000,
    .trustSet ⟨2, 1, 8, 0, none, none, false, false, false, false, false, false, false⟩ 1000]

/-- An account that owns as much as can be counted. -/
def crowded : Table ℕ AccountRoot := accounts.insert 1 ⟨0xFFFFFFFF, false, false, false, false⟩

end Sample

/-- A line is frozen, and another one is deleted again. -/
theorem trust_lines_kept_frozen :
    ((Run.final (step Sample.exactly) (start Sample.accounts) Sample.ops).lines.lookup
      (line 1 2 7)).map (fun l => (l.balance, l.low.freeze, l.low.deepFreeze)) =
        some (10, true, true) ∧
    (Run.final (step Sample.exactly) (start Sample.accounts) Sample.ops).erased.length = 1 ∧
    (∀ l ∈ (Run.final (step Sample.exactly) (start Sample.accounts) Sample.ops).erased, l.Spent) ∧
    directSendNoFeeIOU Sample.exactly 1 2 7 10
        (Run.final (step Sample.exactly) (start Sample.accounts) Sample.ops) =
      redeemIOU Sample.exactly 1 10 2 7
        (Run.final (step Sample.exactly) (start Sample.accounts) Sample.ops) := by
  obtain ⟨hsound, hsame⟩ := trust_lines_kept Sample.exactly Sample.accounts Sample.ops
    (by decide +kernel) _ rfl
  exact ⟨by decide +kernel, by decide +kernel, fun l hl => (hsound.erased l hl).1,
    (hsame 1 2 7 10 (by decide +kernel)).2⟩

/-- The count of an account that has the greatest one does not grow with the reserve of a new line. -/
theorem reserve_not_counted :
    let v := Run.final (step Sample.exactly) (start Sample.crowded) (Sample.ops.take 1)
    (v.lines.lookup (line 1 2 7)).map (fun l => l.low.reserve) = some true ∧
      (v.accounts.lookup 1).map AccountRoot.ownerCount =
        (Sample.crowded.lookup 1).map AccountRoot.ownerCount := by
  decide +kernel

end Start

end FalconLedger.TrustLines
