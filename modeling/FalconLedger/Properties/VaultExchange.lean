import FalconLedger.Lending.Vaults
import Mathlib.Data.Rat.Floor

/-!
# The exchange of assets and shares

The conversions of `VaultHelpers.cpp` for a vault of drops or tokens, over any arithmetic. With
exact rationals no exchange gives assets for nothing: the assets of a deposit are the ones its
shares give back (`exchanges_free`).
-/

namespace FalconLedger

namespace Exchange

/-- What the conversions compute with. -/
structure Arithmetic (N : Type) where
  ofInt : ℤ → Option N
  /-- `Number(mantissa, exponent)` -/
  ofDecimal : ℕ → ℤ → Option N
  sub : N → N → Option N
  mul : N → N → Option N
  div : N → N → Option N
  truncate : N → Option N
  /-- `operator rep` -/
  toRep : N → Option ℤ
  isZero : N → Bool
  lt : N → N → Bool

/-- A vault of drops or tokens, and its shares. -/
structure Vault (N : Type) where
  assetsTotal : N
  assetsAvailable : N
  lossUnrealized : N
  scale : UInt8
  outstandingAmount : ℕ

variable {N : Type} (A : Arithmetic N) (vault : Vault N)

def shareOf (total amount divisor : N) : Except TER N := do
  caught (A.div (← caught (A.mul total amount)) divisor)

def assetsToSharesDeposit (assets : ℤ) : Except TER ℤ := do
  failIf (assets < 0) .tecInternal
  let shares ←
    if A.isZero vault.assetsTotal then caught (A.ofDecimal assets.natAbs vault.scale.toNat)
    else do
      let shareTotal ← caught (A.ofInt vault.outstandingAmount)
      shareOf A shareTotal (← caught (A.ofInt assets)) vault.assetsTotal
  caught (A.toRep (← caught (A.truncate shares)))

def sharesToAssetsDeposit (shares : ℤ) : Except TER ℤ := do
  failIf (shares < 0) .tecInternal
  let assets ←
    if A.isZero vault.assetsTotal then caught (A.ofDecimal shares.natAbs (-vault.scale.toNat))
    else do
      let shareTotal ← caught (A.ofInt vault.outstandingAmount)
      shareOf A vault.assetsTotal (← caught (A.ofInt shares)) shareTotal
  caught (A.toRep assets)

def assetsToSharesWithdraw (assets : ℤ) (truncate : Bool) : Except TER ℤ := do
  failIf (assets < 0) .tecInternal
  let assetTotal ← caught (A.sub vault.assetsTotal vault.lossUnrealized)
  if A.isZero assetTotal then return 0
  else
    let shareTotal ← caught (A.ofInt vault.outstandingAmount)
    let shares ← shareOf A shareTotal (← caught (A.ofInt assets)) assetTotal
    let shares ← if truncate then caught (A.truncate shares) else pure shares
    caught (A.toRep shares)

def sharesToAssetsWithdraw (shares : ℤ) : Except TER ℤ := do
  failIf (shares < 0) .tecInternal
  let assetTotal ← caught (A.sub vault.assetsTotal vault.lossUnrealized)
  if A.isZero assetTotal then return 0
  else
    let shareTotal ← caught (A.ofInt vault.outstandingAmount)
    let assets ← shareOf A assetTotal (← caught (A.ofInt shares)) shareTotal
    caught (A.toRep assets)

/-- The exchange of `VaultDeposit`: the shares created and the assets taken for them. -/
def deposit (amount : ℤ) : Except TER (ℤ × ℤ) := do
  let sharesCreated ← assetsToSharesDeposit A vault amount
  failIf (sharesCreated = 0) .tecPrecisionLoss
  let assetsDeposited ← sharesToAssetsDeposit A vault sharesCreated
  failIf (amount < assetsDeposited) .tecInternal
  return (sharesCreated, assetsDeposited)

def clampToAvailable (assets shares : ℤ) : Except TER (ℤ × ℕ) := do
  let recovered ← caught (A.ofInt assets)
  if A.lt vault.assetsAvailable recovered then
    let available ← caught (A.toRep vault.assetsAvailable)
    let shares ← assetsToSharesWithdraw A vault available true
    let assets ← sharesToAssetsWithdraw A vault shares
    let recovered ← caught (A.ofInt assets)
    failIf (A.lt vault.assetsAvailable recovered) .tecInternal
    return (assets, shares.toNat)
  else return (assets, shares.toNat)

/-! ### The arithmetic of the code -/

/-- `Number`. -/
def number (env : NumberEnv) : Arithmetic Number where
  ofInt := Number.ofInt env
  ofDecimal := Number.normalize env false
  sub := Number.sub env
  mul := Number.mul env
  div := Number.div env
  truncate := Number.truncate env
  toRep := Number.toRep env
  isZero x := x = 0
  lt := Number.lt

/-- The part of the entries of a vault and its shares that the conversions read. -/
def ofEntries (vault : VaultEntry) (issuance : ShareIssuance) : Vault Number where
  assetsTotal := vault.assetsTotal
  assetsAvailable := vault.assetsAvailable
  lossUnrealized := vault.lossUnrealized
  scale := vault.scale
  outstandingAmount := issuance.outstandingAmount

/-- An amount of drops or tokens. -/
def integral : Asset → ℤ → STAmount
  | .mpt id, n => .mpt id n
  | _, n => .native n

section Number

private theorem map_bind {α β γ : Type} (x : Except TER α) (g : α → Except TER β) (f : β → γ) :
    (x >>= g).map f = x >>= fun a => (g a).map f := by
  cases x <;> rfl

private theorem bind_map {α β γ : Type} (x : Except TER α) (f : α → β) (g : β → Except TER γ) :
    (x.map f >>= g) = x >>= fun a => g (f a) := by
  cases x <;> rfl

private theorem caught_map {α β : Type} (x : Option α) (f : α → β) :
    caught (x.map f) = (caught x).map f := by
  cases x <;> rfl

variable {G : LendingServices} {m : Market} {vault : VaultEntry} {issuance : ShareIssuance}

variable (h : ∀ currency issuer, vault.asset ≠ .issue currency issuer)
include h

theorem amountOf_integral (env : NumberEnv) (value : Number) :
    G.amountOf env vault.asset value = (value.toRep env).map (integral vault.asset) := by
  cases hasset : vault.asset with
  | xrp => rfl
  | issue currency issuer => exact absurd hasset (h currency issuer)
  | mpt id => rfl

theorem integral_spec (env : NumberEnv) (n : ℤ) :
    (integral vault.asset n).asset = vault.asset ∧
      (integral vault.asset n).negative = decide (n < 0) ∧
      (integral vault.asset n).toNumber env = Number.ofInt env n ∧
      ∀ scale, (integral vault.asset n).scaled env scale =
        Number.normalize env false n.natAbs scale.toNat := by
  cases hasset : vault.asset with
  | xrp => exact ⟨rfl, rfl, rfl, fun _ => rfl⟩
  | issue currency issuer => exact absurd hasset (h currency issuer)
  | mpt id => exact ⟨rfl, rfl, rfl, fun _ => rfl⟩

theorem assetsToSharesDeposit_number (assets : ℤ) :
    FalconLedger.assetsToSharesDeposit m vault issuance (integral vault.asset assets) =
      assetsToSharesDeposit (number m.env) (ofEntries vault issuance) assets := by
  obtain ⟨hasset, hnegative, hnumber, hscaled⟩ := integral_spec h m.env assets
  rw [FalconLedger.assetsToSharesDeposit, hasset, hnegative, hnumber, hscaled]
  simp only [ne_eq, not_true_eq_false, or_false, decide_eq_true_eq]
  rw [assetsToSharesDeposit, ofEntries, number]
  dsimp only
  simp only [decide_eq_true_eq]
  rfl

theorem assetsToSharesWithdraw_number (assets : ℤ) (truncate : Bool) :
    FalconLedger.assetsToSharesWithdraw m vault issuance (integral vault.asset assets) truncate =
      assetsToSharesWithdraw (number m.env) (ofEntries vault issuance) assets truncate := by
  obtain ⟨hasset, hnegative, hnumber, _⟩ := integral_spec h m.env assets
  rw [FalconLedger.assetsToSharesWithdraw, hasset, hnegative, hnumber]
  simp only [ne_eq, not_true_eq_false, or_false, decide_eq_true_eq]
  rw [assetsToSharesWithdraw, ofEntries, number]
  dsimp only
  simp only [decide_eq_true_eq]
  rfl

theorem sharesToAssetsDeposit_number (shares : ℤ) :
    FalconLedger.sharesToAssetsDeposit G m vault issuance shares =
      (sharesToAssetsDeposit (number m.env) (ofEntries vault issuance) shares).map
        (integral vault.asset) := by
  rw [FalconLedger.sharesToAssetsDeposit, sharesToAssetsDeposit, ofEntries, number]
  simp only [amountOf_integral h, caught_map, map_bind, decide_eq_true_eq, apply_ite (Except.map _)]
  rfl

theorem sharesToAssetsWithdraw_number (shares : ℤ) :
    FalconLedger.sharesToAssetsWithdraw G m vault issuance shares =
      (sharesToAssetsWithdraw (number m.env) (ofEntries vault issuance) shares).map
        (integral vault.asset) := by
  have hzero : STAmount.zeroOf vault.asset = integral vault.asset 0 := by
    cases hasset : vault.asset with
    | xrp => rfl
    | issue currency issuer => exact absurd hasset (h currency issuer)
    | mpt id => rfl
  rw [FalconLedger.sharesToAssetsWithdraw, sharesToAssetsWithdraw, ofEntries, number, hzero]
  simp only [amountOf_integral h, caught_map, map_bind, decide_eq_true_eq, apply_ite (Except.map _)]
  rfl

theorem clampToAvailable_number (assets shares : ℤ) :
    VaultClawback.clampToAvailable G m vault issuance (integral vault.asset assets) shares =
      (clampToAvailable (number m.env) (ofEntries vault issuance) assets shares).map
        (Prod.map (integral vault.asset) id) := by
  have hnumber : ∀ n, (integral vault.asset n).toNumber m.env = Number.ofInt m.env n := fun n =>
    (integral_spec h m.env n).2.2.1
  rw [VaultClawback.clampToAvailable, clampToAvailable]
  simp only [amountOf_integral h, caught_map, map_bind, bind_map, apply_ite (Except.map _), hnumber,
    assetsToSharesWithdraw_number h, sharesToAssetsWithdraw_number h]
  rfl

end Number

/-! ### Exact rationals -/

/-- The nearest integer, of two the even one. -/
def nearest (q : ℚ) : ℤ :=
  let n := ⌊q⌋
  if q - n < 1 / 2 then n
  else if 1 / 2 < q - n then n + 1
  else if n % 2 = 0 then n else n + 1

/-- Nothing is lost but what the conversions drop themselves: `truncate` and the integer of an amount. -/
def exact : Arithmetic ℚ where
  ofInt n := some n
  ofDecimal mantissa exponent := some (mantissa * 10 ^ exponent)
  sub x y := some (x - y)
  mul x y := some (x * y)
  div x y := if y = 0 then none else some (x / y)
  truncate x := some (if 0 ≤ x then ⌊x⌋ else ⌈x⌉)
  toRep x := some (nearest x)
  isZero x := x = 0
  lt x y := x < y

theorem nearest_spec (q : ℚ) : |q - nearest q| ≤ 1 / 2 := by
  have hle := Int.floor_le q
  have hlt := Int.lt_floor_add_one q
  rw [nearest, abs_le]
  split_ifs <;> push_cast <;> constructor <;> linarith

theorem nearest_eq {q : ℚ} {n : ℤ} (h : |q - n| < 1 / 2) : nearest q = n := by
  have hspec := abs_le.mp (nearest_spec q)
  have hnear := abs_lt.mp h
  have hlt : |((nearest q - n : ℤ) : ℚ)| < 1 := by
    rw [abs_lt]
    push_cast
    constructor <;> linarith
  have habs : |nearest q - n| < 1 := by exact_mod_cast hlt
  have := abs_lt.mp habs
  omega

theorem nearest_intCast (n : ℤ) : nearest n = n := nearest_eq (by norm_num)

theorem nearest_le {q : ℚ} {n : ℤ} (h : q ≤ n) : nearest q ≤ n := by
  have hspec := abs_le.mp (nearest_spec q)
  by_contra hlt
  have hge : (n + 1 : ℚ) ≤ nearest q := by exact_mod_cast Int.add_one_le_iff.mpr (not_le.mp hlt)
  linarith

theorem nearest_nonneg {q : ℚ} (h : 0 ≤ q) : 0 ≤ nearest q := by
  have hspec := abs_le.mp (nearest_spec q)
  by_contra hlt
  have hle : (nearest q : ℚ) ≤ -1 := by exact_mod_cast Int.le_sub_one_of_lt (not_le.mp hlt)
  linarith

theorem nearest_back {total outstanding shares : ℚ} (houtstanding : 0 < outstanding)
    (hshares : 0 < shares) :
    nearest ((total + nearest (total * shares / outstanding)) * shares / (outstanding + shares)) =
      nearest (total * shares / outstanding) := by
  generalize hprice : total * shares / outstanding = price
  have hsum : 0 < outstanding + shares := add_pos houtstanding hshares
  have hback : (total + nearest price) * shares / (outstanding + shares) - nearest price =
      (price - nearest price) * (outstanding / (outstanding + shares)) := by
    rw [← hprice]
    field_simp
    ring
  refine nearest_eq ?_
  -- the shares there were take part in what was lost by rounding
  have hpart : outstanding / (outstanding + shares) < 1 := (div_lt_one hsum).mpr (by linarith)
  have hpos : 0 < outstanding / (outstanding + shares) := div_pos houtstanding hsum
  rw [hback, abs_mul, abs_of_pos hpos]
  calc |price - nearest price| * (outstanding / (outstanding + shares))
      ≤ 1 / 2 * (outstanding / (outstanding + shares)) :=
        mul_le_mul_of_nonneg_right (nearest_spec price) hpos.le
    _ < 1 / 2 * 1 := mul_lt_mul_of_pos_left hpart (by norm_num)
    _ = 1 / 2 := mul_one _

variable {vault : Vault ℚ} {assets shares : ℤ}

theorem sharesToAssetsWithdraw_exact (hloss : vault.lossUnrealized = 0) (hshares : 0 ≤ shares) :
    sharesToAssetsWithdraw exact vault shares =
      if vault.assetsTotal = 0 then .ok 0
      else if vault.outstandingAmount = 0 then .error .tecPathDry
      else .ok (nearest (vault.assetsTotal * shares / vault.outstandingAmount)) := by
  have hzero : (vault.outstandingAmount : ℚ) = 0 ↔ vault.outstandingAmount = 0 := Nat.cast_eq_zero
  rw [sharesToAssetsWithdraw, hloss]
  simp only [exact, caught, orFail, failIf, shareOf, bind, Except.bind, pure, Except.pure, sub_zero,
    if_neg (not_lt.mpr hshares), decide_eq_true_eq, Int.cast_natCast, hzero]
  split_ifs <;> rfl

theorem assetsToSharesWithdraw_exact (hloss : vault.lossUnrealized = 0) (hassets : 0 ≤ assets)
    (htotal : 0 ≤ vault.assetsTotal) :
    assetsToSharesWithdraw exact vault assets true =
      .ok (if vault.assetsTotal = 0 then 0
        else ⌊vault.outstandingAmount * (assets : ℚ) / vault.assetsTotal⌋) := by
  have hle : 0 ≤ vault.outstandingAmount * (assets : ℚ) / vault.assetsTotal :=
    div_nonneg (mul_nonneg (Nat.cast_nonneg _) (by exact_mod_cast hassets)) htotal
  rw [assetsToSharesWithdraw, hloss]
  simp only [exact, caught, orFail, failIf, shareOf, bind, Except.bind, pure, Except.pure, sub_zero,
    if_neg (not_lt.mpr hassets), decide_eq_true_eq, if_true, Int.cast_natCast]
  split_ifs with hzero
  · rfl
  · simp only [if_pos hle, nearest_intCast]

theorem assetsToSharesDeposit_exact (hassets : 0 ≤ assets) (htotal : 0 ≤ vault.assetsTotal) :
    assetsToSharesDeposit exact vault assets =
      .ok (if vault.assetsTotal = 0 then assets * 10 ^ vault.scale.toNat
        else ⌊vault.outstandingAmount * (assets : ℚ) / vault.assetsTotal⌋) := by
  have hle : 0 ≤ vault.outstandingAmount * (assets : ℚ) / vault.assetsTotal :=
    div_nonneg (mul_nonneg (Nat.cast_nonneg _) (by exact_mod_cast hassets)) htotal
  have hfirst : ((assets.natAbs : ℚ) * 10 ^ (vault.scale.toNat : ℤ)) =
      ((assets * 10 ^ vault.scale.toNat : ℤ) : ℚ) := by
    rw [zpow_natCast, Nat.cast_natAbs, abs_of_nonneg hassets]
    push_cast
    rfl
  have hfirst0 : (0 : ℚ) ≤ ((assets * 10 ^ vault.scale.toNat : ℤ) : ℚ) := by
    exact_mod_cast mul_nonneg hassets (by positivity)
  rw [assetsToSharesDeposit]
  simp only [exact, caught, orFail, failIf, shareOf, bind, Except.bind,
    if_neg (not_lt.mpr hassets), decide_eq_true_eq, Int.cast_natCast, hfirst]
  split_ifs with hzero
  · simp only [Int.floor_intCast, nearest_intCast]
  · simp only [if_pos hle, nearest_intCast]

theorem sharesToAssetsDeposit_exact (hshares : 0 ≤ shares) :
    sharesToAssetsDeposit exact vault shares =
      if vault.assetsTotal = 0 then .ok (nearest (shares * 10 ^ (-(vault.scale.toNat : ℤ))))
      else if vault.outstandingAmount = 0 then .error .tecPathDry
      else .ok (nearest (vault.assetsTotal * shares / vault.outstandingAmount)) := by
  have hzero : (vault.outstandingAmount : ℚ) = 0 ↔ vault.outstandingAmount = 0 := Nat.cast_eq_zero
  have hcast : (shares.natAbs : ℚ) = shares := by
    rw [Nat.cast_natAbs, abs_of_nonneg hshares]
  rw [sharesToAssetsDeposit]
  simp only [exact, caught, orFail, failIf, shareOf, bind, Except.bind,
    if_neg (not_lt.mpr hshares), decide_eq_true_eq, Int.cast_natCast, hzero, hcast]
  split_ifs <;> rfl

theorem floor_worth_le {total outstanding : ℚ} (htotal : 0 < total) (houtstanding : 0 < outstanding)
    (assets : ℤ) : total * ⌊outstanding * assets / total⌋ / outstanding ≤ assets := by
  rw [div_le_iff₀ houtstanding]
  calc total * ⌊outstanding * assets / total⌋ ≤ total * (outstanding * assets / total) :=
        mul_le_mul_of_nonneg_left (Int.floor_le _) htotal.le
    _ = assets * outstanding := by
        rw [mul_div_cancel₀ _ htotal.ne', mul_comm]

/-- The vault after a deposit. -/
def Vault.deposited (vault : Vault ℚ) (assets shares : ℤ) : Vault ℚ :=
  { vault with
    assetsTotal := vault.assetsTotal + assets
    assetsAvailable := vault.assetsAvailable + assets
    outstandingAmount := vault.outstandingAmount + shares.toNat }

variable {amount : ℤ}

theorem deposit_back (hloss : vault.lossUnrealized = 0) (htotal : 0 ≤ vault.assetsTotal)
    (hshares : assetsToSharesDeposit exact vault amount = .ok shares) (hne : shares ≠ 0)
    (hassets : sharesToAssetsDeposit exact vault shares = .ok assets) :
    assets ≤ amount ∧ ∃ back,
      sharesToAssetsWithdraw exact (vault.deposited assets shares) shares = .ok back ∧
        back ≤ assets := by
  have hamount : 0 ≤ amount := by
    by_contra hneg
    rw [assetsToSharesDeposit, failIf, if_pos (not_le.mp hneg)] at hshares
    cases hshares
  have hpositive : 0 < shares := by
    refine lt_of_le_of_ne ?_ hne.symm
    by_contra hneg
    rw [sharesToAssetsDeposit, failIf, if_pos (not_le.mp hneg)] at hassets
    cases hassets
  have hpositiveQ : (0 : ℚ) < shares := by exact_mod_cast hpositive
  have hsum : (0 : ℚ) < vault.outstandingAmount + shares :=
    add_pos_of_nonneg_of_pos (Nat.cast_nonneg _) hpositiveQ
  have hsum0 : ¬(vault.deposited assets shares).outstandingAmount = 0 := by
    change ¬vault.outstandingAmount + shares.toNat = 0
    omega
  have hworth : (vault.deposited assets shares).assetsTotal * shares /
      (vault.deposited assets shares).outstandingAmount =
        (vault.assetsTotal + assets) * shares / (vault.outstandingAmount + shares) := by
    have htoNat : ((vault.outstandingAmount + shares.toNat : ℕ) : ℚ) =
        vault.outstandingAmount + shares := by
      rw [Nat.cast_add, ← Int.cast_natCast shares.toNat, Int.toNat_of_nonneg hpositive.le]
    rw [← htoNat]
    rfl
  rw [assetsToSharesDeposit_exact hamount htotal, Except.ok.injEq] at hshares
  rw [sharesToAssetsDeposit_exact hpositive.le] at hassets
  have hloss' : (vault.deposited assets shares).lossUnrealized = 0 := hloss
  rw [sharesToAssetsWithdraw_exact hloss' hpositive.le, if_neg hsum0, hworth]
  have hzero : (vault.deposited assets shares).assetsTotal = vault.assetsTotal + assets := rfl
  by_cases hfirst : vault.assetsTotal = 0
  · -- the first deposit: its shares are worth at most the whole of it
    rw [if_pos hfirst] at hshares hassets
    have hprice : (shares : ℚ) * 10 ^ (-(vault.scale.toNat : ℤ)) = amount := by
      rw [← hshares, zpow_neg, zpow_natCast]
      push_cast
      exact mul_inv_cancel_right₀ (by positivity) _
    rw [hprice, nearest_intCast, Except.ok.injEq] at hassets
    subst hassets
    refine ⟨le_rfl, ?_⟩
    split_ifs
    · exact ⟨0, rfl, hamount⟩
    · refine ⟨_, rfl, nearest_le ?_⟩
      rw [hfirst, zero_add, div_le_iff₀ hsum]
      exact mul_le_mul_of_nonneg_left (by simp) (by exact_mod_cast hamount)
  · -- later ones: the price paid in is rounded once, and does not move by more than that
    have hpos : 0 < vault.assetsTotal := lt_of_le_of_ne htotal (Ne.symm hfirst)
    rw [if_neg hfirst] at hshares hassets
    split_ifs at hassets with houtstanding
    have houtstandingPos : (0 : ℚ) < vault.outstandingAmount := by
      exact_mod_cast Nat.pos_of_ne_zero houtstanding
    have hback := @nearest_back vault.assetsTotal _ _ houtstandingPos hpositiveQ
    rw [Except.ok.inj hassets] at hback
    have hnonneg : 0 ≤ assets := by
      rw [← Except.ok.inj hassets]
      exact nearest_nonneg (by positivity)
    refine ⟨?_, assets, ?_, le_rfl⟩
    · rw [← Except.ok.inj hassets]
      refine nearest_le ?_
      rw [← hshares]
      exact floor_worth_le hpos houtstandingPos amount
    · have hnonnegQ : (0 : ℚ) ≤ assets := by exact_mod_cast hnonneg
      rw [if_neg (by rw [hzero]; positivity), hback]

theorem redeem_le {total : ℕ} (hloss : vault.lossUnrealized = 0) (htotal : vault.assetsTotal = total)
    (hpositive : 0 < shares) (hle : shares ≤ vault.outstandingAmount) :
    ∃ assets, sharesToAssetsWithdraw exact vault shares = .ok assets ∧ assets ≤ total := by
  have hne : vault.outstandingAmount ≠ 0 := by omega
  rw [sharesToAssetsWithdraw_exact hloss hpositive.le, if_neg hne]
  split_ifs
  · exact ⟨0, rfl, Int.natCast_nonneg _⟩
  · refine ⟨_, rfl, nearest_le ?_⟩
    have houtstanding : (0 : ℚ) < vault.outstandingAmount := by
      exact_mod_cast Nat.pos_of_ne_zero hne
    rw [htotal, div_le_iff₀ houtstanding, Int.cast_natCast]
    exact mul_le_mul_of_nonneg_left (by exact_mod_cast hle) (Nat.cast_nonneg _)

theorem truncated_back {n : ℕ} (hloss : vault.lossUnrealized = 0) (htotal : 0 ≤ vault.assetsTotal) :
    ∃ shares, assetsToSharesWithdraw exact vault n true = .ok shares ∧
      (sharesToAssetsWithdraw exact vault shares = .error .tecPathDry ∨
        ∃ assets, sharesToAssetsWithdraw exact vault shares = .ok assets ∧ assets ≤ n) := by
  refine ⟨_, assetsToSharesWithdraw_exact hloss (Int.natCast_nonneg n) htotal, ?_⟩
  by_cases hzero : vault.assetsTotal = 0
  · rw [if_pos hzero, sharesToAssetsWithdraw_exact hloss le_rfl, if_pos hzero]
    exact .inr ⟨0, rfl, Int.natCast_nonneg n⟩
  · have hpos : 0 < vault.assetsTotal := lt_of_le_of_ne htotal (Ne.symm hzero)
    have hshares : 0 ≤ ⌊vault.outstandingAmount * ((n : ℤ) : ℚ) / vault.assetsTotal⌋ :=
      Int.floor_nonneg.mpr (div_nonneg (by positivity) htotal)
    rw [if_neg hzero, sharesToAssetsWithdraw_exact hloss hshares, if_neg hzero]
    split_ifs with houtstanding
    · exact .inl rfl
    · have houtstandingPos : (0 : ℚ) < vault.outstandingAmount := by
        exact_mod_cast Nat.pos_of_ne_zero houtstanding
      exact .inr ⟨_, rfl, nearest_le (floor_worth_le hpos houtstandingPos n)⟩

theorem clamp_le {available : ℕ} (hloss : vault.lossUnrealized = 0) (htotal : 0 ≤ vault.assetsTotal)
    (havailable : vault.assetsAvailable = available) :
    clampToAvailable exact vault assets shares ≠ .error .tecInternal ∧
      ∀ r, clampToAvailable exact vault assets shares = .ok r → r.1 ≤ available := by
  have hnearest : exact.toRep vault.assetsAvailable = some (available : ℤ) := by
    rw [havailable]
    exact congrArg some (nearest_intCast available)
  obtain ⟨shares', hshares, hassets⟩ := truncated_back (n := available) hloss htotal
  have hlt : ∀ n : ℤ, exact.lt vault.assetsAvailable n = decide ((available : ℤ) < n) := fun n => by
    rw [havailable]
    exact decide_eq_decide.mpr (by exact_mod_cast Iff.rfl)
  have hofInt : ∀ n : ℤ, exact.ofInt n = some (n : ℚ) := fun _ => rfl
  rw [clampToAvailable, hofInt, hnearest]
  simp only [caught, orFail, bind, Except.bind, hshares, hlt, decide_eq_true_eq]
  split_ifs with hmore
  · rcases hassets with herror | ⟨assets', hok, hle⟩
    · rw [herror]
      exact ⟨by simp, fun r hr => by cases hr⟩
    · simp only [hok, hofInt, hlt, failIf, decide_eq_true_eq, if_neg (not_lt.mpr hle), pure,
        Except.pure]
      refine ⟨by simp, fun r hr => ?_⟩
      cases hr
      exact hle
  · refine ⟨by simp [pure, Except.pure], fun r hr => ?_⟩
    cases hr
    exact not_lt.mp hmore

/-- A vault without a loss. -/
def Vault.whole (total available outstanding : ℕ) (scale : UInt8) : Vault ℚ :=
  ⟨total, available, 0, scale, outstanding⟩

/-- **Nothing is exchanged for nothing.** A deposit takes no more than is offered, and its shares give
back no more than it took; shares redeem no more than there is; and what is clawed back is no more
than what is available. -/
theorem exchanges_free (total available outstanding : ℕ) (scale : UInt8) :
    let vault := Vault.whole total available outstanding scale
    (∀ amount shares assets, assetsToSharesDeposit exact vault amount = .ok shares → shares ≠ 0 →
      sharesToAssetsDeposit exact vault shares = .ok assets →
        assets ≤ amount ∧ deposit exact vault amount = .ok (shares, assets) ∧
        ∃ back, sharesToAssetsWithdraw exact (vault.deposited assets shares) shares = .ok back ∧
          back ≤ assets) ∧
    (∀ shares : ℤ, 0 < shares → shares ≤ outstanding →
      ∃ assets, sharesToAssetsWithdraw exact vault shares = .ok assets ∧ assets ≤ total) ∧
    (∀ assets shares, clampToAvailable exact vault assets shares ≠ .error .tecInternal ∧
      ∀ r, clampToAvailable exact vault assets shares = .ok r → r.1 ≤ available) := by
  intro vault
  have hloss : vault.lossUnrealized = 0 := rfl
  have htotal : 0 ≤ vault.assetsTotal := Nat.cast_nonneg total
  refine ⟨fun amount shares assets hshares hne hassets => ?_, fun shares hpositive hle =>
    redeem_le hloss rfl hpositive hle, fun assets shares => clamp_le hloss htotal rfl⟩
  obtain ⟨hle, hback⟩ := deposit_back hloss htotal hshares hne hassets
  refine ⟨hle, ?_, hback⟩
  rw [deposit, hshares]
  simp only [bind, Except.bind, failIf, if_neg hne, hassets, if_neg (not_lt.mpr hle)]
  rfl

/-- Of a vault of seven for ten shares, an offer of five buys seven shares for five; and they are
worth five. -/
theorem exchanges_free_five : ∃ back, sharesToAssetsWithdraw exact
    ((Vault.whole 7 3 10 0).deposited 5 7) 7 = .ok back ∧ back ≤ 5 :=
  ((exchanges_free 7 3 10 0).1 5 7 5 (by decide +kernel) (by decide) (by decide +kernel)).2.2

end Exchange

end FalconLedger
