import FalconLedger.Lending.Outcome
import FalconLedger.Protocol.NumberExact

/-!
# The rewards of a liquidation

What the share holders of a vault can claim of forfeited collateral. The numbers are decimal
floating point, so everything here is about values that a mantissa can hold: at a unit `10 ^ u` the
index is `k` and a debt is `c`, and a holder of `n` shares has a claim of `n * k - c`
(`pending_fits`).
-/

namespace FalconLedger

namespace Lending

open Number

variable {m : Market} {vault : VaultEntry} {account : AccountID} {token : ShareToken}
  {u k c q F : ℤ}

theorem getD_unlessDefault {α : Type} [Zero α] [DecidableEq α] (v : α) :
    (unlessDefault v).getD 0 = v := by
  unfold unlessDefault
  split_ifs with h
  · exact h.symm
  · rfl

/-! ### Reading a claim -/

/-- The debt the code reads is `c` units: the one recorded, or without one the whole of
`shares * index`. -/
def DebtReads (token : ShareToken) (u k c : ℤ) : Prop :=
  match token.liquidationDebt with
  | none => c = token.amount * k
  | some debt => Fits .large u c debt

theorem large_min : MantissaScale.large.min = 10 ^ 18 := rfl

theorem product_fits {n : ℤ} {shares index : Number} (hscale : m.env.scale = .large)
    (hshares : Fits .large 0 n shares) (hindex : Fits .large u k index) (hu : InRange .large u)
    (hproduct : (n * k).natAbs ≤ 10 ^ 18) :
    ∃ z, Number.mul m.env shares index = some z ∧ Fits .large u (n * k) z := by
  rw [← hscale] at hshares hindex hu
  obtain ⟨z, hz, hfits⟩ := mul_fits hshares hindex (by rw [hscale]; exact hproduct)
    (by rwa [zero_add])
  rw [zero_add, hscale] at hfits
  exact ⟨z, hz, hfits⟩

theorem debt_fits {shares index : Number} (hscale : m.env.scale = .large)
    (hshares : Fits .large 0 token.amount shares) (hindex : Fits .large u k index) (hk : 0 ≤ k)
    (hu : InRange .large u) (hproduct : token.amount * k ≤ 10 ^ 18)
    (hdebt : DebtReads token u k c) :
    ∃ z, mptLiquidationDebt m token shares index = .ok z ∧ Fits .large u c z := by
  have hnk : 0 ≤ token.amount * k := mul_nonneg (Int.natCast_nonneg _) hk
  unfold DebtReads at hdebt
  unfold mptLiquidationDebt
  cases hrecorded : token.liquidationDebt with
  | none =>
    rw [hrecorded] at hdebt
    obtain ⟨z, hz, hfits⟩ := product_fits hscale hshares hindex hu
      (by omega : ((token.amount : ℤ) * k).natAbs ≤ 10 ^ 18)
    refine ⟨z, number_eq_ok.mpr hz, ?_⟩
    rw [hdebt]
    exact hfits
  | some debt =>
    rw [hrecorded] at hdebt
    exact ⟨debt, rfl, hdebt⟩

theorem clamp_fits {a : ℤ} {z : Number} (h : Fits .large u a z) :
    Fits .large u (max 0 a) (if Number.lt z 0 then 0 else z) := by
  have hlt : Number.lt z 0 = decide (a < 0) := h.lt_zero
  rw [hlt]
  split_ifs with hneg
  · rw [max_eq_left (of_decide_eq_true hneg).le]
    exact fits_zero _ _
  · rw [max_eq_right (not_lt.mp (by simpa using hneg))]
    exact h

private theorem capped_fits {a pool : ℤ} {z : Number} (hscale : m.env.scale = .large)
    (h : Fits .large u a z) (ha : 0 ≤ a) (hpos : 0 < pool) (hpool : pool ≤ 10 ^ 18)
    (hle : (a : ℚ) * 10 ^ u ≤ pool) :
    ∃ poolN, Number.ofInt m.env pool = some poolN ∧ Number.lt poolN z = false := by
  obtain ⟨poolN, hpoolN, hfits⟩ := @ofInt_fits m.env pool (by rw [hscale, large_min]; omega)
  rw [hscale] at hfits
  refine ⟨poolN, hpoolN, ?_⟩
  rw [hfits.lt_of_nonneg h hpos.le ha, hfits.value, h.value]
  simpa using hle

private theorem covered_by_nothing {a pool : ℤ} (h : (a : ℚ) * 10 ^ u ≤ pool) (ha : 0 ≤ a)
    (hpool : pool ≤ 0) : a = 0 := by
  have hten : (0 : ℚ) < 10 ^ u := zpow_pos (by norm_num) u
  have hpoolQ : (pool : ℚ) ≤ 0 := by exact_mod_cast hpool
  have hle : (a : ℚ) ≤ 0 := nonpos_of_mul_nonpos_left (h.trans hpoolQ) hten
  exact le_antisymm (by exact_mod_cast hle) ha

/-- **A claim that is covered by the pool is read as it is.** -/
theorem pending_fits (hscale : m.env.scale = .large)
    (htoken : m.tokens.lookup (vault.shareMPTID, account) = some token)
    (hindex : Fits .large u k (vaultLiquidationIndex vault)) (hk : 0 ≤ k) (hu : InRange .large u)
    (hshares : token.amount ≤ 10 ^ 18) (hproduct : token.amount * k ≤ 10 ^ 18)
    (hdebt : DebtReads token u k c) (hc : 0 ≤ c)
    (hpool : vault.liquidationCollateral.getD 0 ≤ 10 ^ 18)
    (hcovered : ((max 0 (token.amount * k - c) : ℤ) : ℚ) * 10 ^ u ≤
      vault.liquidationCollateral.getD 0) :
    ∃ z, liquidationPendingFalcon m vault account = .ok z ∧
      Fits .large u (max 0 (token.amount * k - c)) z := by
  have hnk : 0 ≤ token.amount * k := mul_nonneg (Int.natCast_nonneg _) hk
  obtain ⟨shares, hsharesEq, hsharesFit⟩ := @ofInt_fits m.env (token.amount : ℤ)
    (by rw [hscale, large_min]; omega)
  rw [hscale] at hsharesFit
  have hbalance : shareBalance m vault.shareMPTID account = token.amount := by
    simp [shareBalance, htoken]
  have hpositive : Number.lt 0 shares = decide ((0 : ℤ) < token.amount) := hsharesFit.zero_lt
  unfold liquidationPendingFalcon shareBalanceNumber
  rw [hbalance, hsharesEq]
  simp only [number, orFail, bind, Except.bind, hpositive]
  by_cases hzero : (token.amount : ℤ) = 0
  · have hclaim : max 0 ((token.amount : ℤ) * k - c) = 0 := by
      rw [hzero, zero_mul]
      omega
    rw [hclaim, hzero]
    exact ⟨0, rfl, fits_zero _ _⟩
  have hpos : (0 : ℤ) < token.amount := by omega
  obtain ⟨product, hproductEq, hproductFit⟩ :=
    product_fits hscale hsharesFit hindex hu (by omega : ((token.amount : ℤ) * k).natAbs ≤ 10 ^ 18)
  obtain ⟨debt, hdebtEq, hdebtFit⟩ := debt_fits hscale hsharesFit hindex hk hu hproduct hdebt
  have hcle := hdebtFit.le
  rw [large_min] at hcle
  obtain ⟨raw, hrawEq, hrawFit⟩ := @sub_fits m.env product debt (token.amount * k) c u
    (by rw [hscale]; exact hproductFit) (by rw [hscale]; exact hdebtFit)
    (by rw [hscale, large_min]; omega) (by rwa [hscale])
  rw [hscale] at hrawFit
  have hclamp := clamp_fits hrawFit
  simp only [htoken, hdebtEq, hproductEq, hrawEq, decide_eq_true hpos, Bool.not_true,
    Bool.false_eq_true, if_false]
  cases hcollateral : vault.liquidationCollateral with
  | none =>
    rw [hcollateral] at hcovered
    rw [covered_by_nothing hcovered (le_max_left _ _) le_rfl]
    exact ⟨0, rfl, fits_zero _ _⟩
  | some pool =>
    rw [hcollateral, Option.getD_some] at hcovered hpool
    by_cases hpoolPos : 0 < pool
    · obtain ⟨poolN, hpoolN, hnot⟩ :=
        capped_fits hscale hclamp (le_max_left _ _) hpoolPos hpool hcovered
      refine ⟨_, ?_, hclamp⟩
      simp only [if_pos hpoolPos, hpoolN, hnot, Bool.false_eq_true, if_false]
      rfl
    · rw [covered_by_nothing hcovered (le_max_left _ _) (not_lt.mp hpoolPos)]
      refine ⟨0, ?_, fits_zero _ _⟩
      simp only [if_neg hpoolPos]
      rfl

/-! ### A default -/

/-- **A credit that comes out even raises the index by its part for each share.** -/
theorem credit_fits (hscale : m.env.scale = .large)
    (hindex : Fits .large u k (vaultLiquidationIndex vault)) (hu : InRange .large u)
    (hF : 0 < F) (hFle : F ≤ 10 ^ 18) (hS : 0 < outstandingShares m vault.shareMPTID)
    (hSle : outstandingShares m vault.shareMPTID ≤ 10 ^ 18)
    (hquotient : (F : ℚ) = q * 10 ^ u * outstandingShares m vault.shareMPTID)
    (hq : q.natAbs ≤ 10 ^ 18) (hsum : (k + q).natAbs ≤ 10 ^ 18) :
    ∃ index, Fits .large u (k + q) index ∧
      creditLiquidationToLPs m vault F =
        .ok { vault with
          liquidationCollateral := unlessDefault (vault.liquidationCollateral.getD 0 + F)
          liquidationIndex := unlessDefault index } := by
  generalize hSeq : outstandingShares m vault.shareMPTID = S at *
  obtain ⟨sharesTotal, hsharesEq, hsharesFit⟩ := @ofInt_fits m.env (S : ℤ)
    (by rw [hscale, large_min]; omega)
  obtain ⟨forfeited, hforfeitedEq, hforfeitedFit⟩ := @ofInt_fits m.env F
    (by rw [hscale, large_min]; omega)
  have hS0 : (S : ℤ) ≠ 0 := by omega
  obtain ⟨quotient, hquotientEq, hquotientFit⟩ := @div_fits m.env forfeited sharesTotal F S 0 0 u q
    hforfeitedFit hsharesFit hS0 (by rw [hquotient]; push_cast; ring)
    (by rw [hscale, large_min]; exact hq) (by rwa [hscale])
  rw [hscale] at hsharesFit hquotientFit
  obtain ⟨index, hindexEq, hindexFit⟩ := @add_fits m.env (vaultLiquidationIndex vault) quotient k q u
    (by rw [hscale]; exact hindex) (by rw [hscale]; exact hquotientFit)
    (by rw [hscale, large_min]; exact hsum) (by rwa [hscale])
  rw [hscale] at hindexFit
  refine ⟨index, hindexFit, ?_⟩
  have hpositive : Number.lt 0 sharesTotal = true := by
    have : Number.lt 0 sharesTotal = decide ((0 : ℤ) < S) := hsharesFit.zero_lt
    rw [this, decide_eq_true (by omega)]
  have hsame : vaultLiquidationIndex
      { vault with
        liquidationCollateral := unlessDefault (vault.liquidationCollateral.getD 0 + F) } =
      vaultLiquidationIndex vault := rfl
  unfold creditLiquidationToLPs outstandingSharesNumber
  rw [if_neg (not_le.mpr hF), hSeq, hsharesEq, hforfeitedEq]
  simp only [number, orFail, bind, Except.bind, hpositive, hsame, hquotientEq, hindexEq, if_true]
  rfl

/-- No number has more than eighteen digits that crediting `F` drops to the vault and reading a
holder's claim compute with: at a unit of `10 ^ u` the index is `k` and grows by `q`, and the debt
recorded is `c`. The claim is covered by the pool. -/
structure Unrounded (m : Market) (vault : VaultEntry) (token : ShareToken) (F u k q c : ℤ) :
    Prop where
  scale : m.env.scale = .large
  inRange : InRange .large u
  index : Fits .large u k (vaultLiquidationIndex vault)
  index_nonneg : 0 ≤ k
  debt : ∀ d, token.liquidationDebt = some d → Fits .large u c d
  debt_nonneg : 0 ≤ c
  quotient : (F : ℚ) = q * 10 ^ u * outstandingShares m vault.shareMPTID
  shares : token.amount ≤ outstandingShares m vault.shareMPTID
  products : outstandingShares m vault.shareMPTID * (k + q) ≤ 10 ^ 18
  pool_nonneg : 0 ≤ vault.liquidationCollateral.getD 0
  pool : vault.liquidationCollateral.getD 0 + F ≤ 10 ^ 18
  covered : ∀ d, token.liquidationDebt = some d →
    token.amount * (vaultLiquidationIndex vault).toRat - d.toRat ≤
      vault.liquidationCollateral.getD 0

/-- The holder's claim has grown by the part of the `F` drops that belongs to the holder's shares. -/
def Grows (m : Market) (vaultID : UInt256) (vault vault' : VaultEntry) (account : AccountID)
    (token : ShareToken) (F : ℤ) : Prop :=
  ∃ before after, liquidationPendingFalcon m vault account = .ok before ∧
    liquidationPendingFalcon (m.setVault vaultID vault') vault' account = .ok after ∧
    after.toRat = before.toRat + token.amount * F / outstandingShares m vault.shareMPTID

namespace Unrounded

variable (h : Unrounded m vault token F u k q c)
include h

theorem quotient_pos (hF : 0 < F) : 0 < q := by
  have hpos : (0 : ℚ) < q * 10 ^ u * outstandingShares m vault.shareMPTID := by
    rw [← h.quotient]
    exact_mod_cast hF
  have hprod := pos_of_mul_pos_left hpos (Nat.cast_nonneg _)
  exact_mod_cast pos_of_mul_pos_left hprod (zpow_nonneg (by norm_num) u)

theorem product_le (hF : 0 < F) : token.amount * (k + q) ≤ 10 ^ 18 := by
  have hsum : 0 ≤ k + q := add_nonneg h.index_nonneg (h.quotient_pos hF).le
  have hshares : (token.amount : ℤ) ≤ outstandingShares m vault.shareMPTID := by
    exact_mod_cast h.shares
  exact (mul_le_mul_of_nonneg_right hshares hsum).trans h.products

theorem outstanding_le (hF : 0 < F) : outstandingShares m vault.shareMPTID ≤ 10 ^ 18 := by
  have hone : 1 ≤ k + q := by
    have := h.quotient_pos hF
    have := h.index_nonneg
    omega
  have hle := le_mul_of_one_le_right
    (Int.natCast_nonneg (outstandingShares m vault.shareMPTID)) hone
  exact_mod_cast hle.trans h.products

theorem sum_le (hF : 0 < F) (hS : 0 < outstandingShares m vault.shareMPTID) :
    k + q ≤ 10 ^ 18 := by
  have hsum : 0 ≤ k + q := add_nonneg h.index_nonneg (h.quotient_pos hF).le
  have hone : (1 : ℤ) ≤ outstandingShares m vault.shareMPTID := by exact_mod_cast hS
  exact (le_mul_of_one_le_left hsum hone).trans h.products

theorem part_eq (hS : 0 < outstandingShares m vault.shareMPTID) :
    (token.amount : ℚ) * F / outstandingShares m vault.shareMPTID =
      (token.amount * q : ℤ) * 10 ^ u := by
  have hS0 : (outstandingShares m vault.shareMPTID : ℚ) ≠ 0 := by exact_mod_cast hS.ne'
  rw [h.quotient, div_eq_iff hS0]
  push_cast
  ring

end Unrounded

theorem Unrounded.part_le (h : Unrounded m vault token F u k q c) (hF : 0 < F) :
    ((token.amount * q : ℤ) : ℚ) * 10 ^ u ≤ F := by
  have hshares : (token.amount : ℚ) ≤ outstandingShares m vault.shareMPTID := by
    exact_mod_cast h.shares
  have hunit : (0 : ℚ) ≤ q * 10 ^ u :=
    mul_nonneg (by exact_mod_cast (h.quotient_pos hF).le) (zpow_nonneg (by norm_num) u)
  calc ((token.amount * q : ℤ) : ℚ) * 10 ^ u = token.amount * (q * 10 ^ u) := by
        push_cast
        ring
    _ ≤ outstandingShares m vault.shareMPTID * (q * 10 ^ u) :=
        mul_le_mul_of_nonneg_right hshares hunit
    _ = F := by rw [h.quotient, mul_comm]

/-- The two readings of a claim, in units: `c₀` is the debt read before a default, `c₁` after it. -/
private theorem grows_iff_units (vaultID : UInt256) {vault' : VaultEntry} {c₀ c₁ : ℤ} (hF : 0 < F)
    (hS : 0 < outstandingShares m vault.shareMPTID)
    (htoken : m.tokens.lookup (vault.shareMPTID, account) = some token)
    (h : Unrounded m vault token F u k q c) (hsame : vault'.shareMPTID = vault.shareMPTID)
    (hindex : Fits .large u (k + q) (vaultLiquidationIndex vault'))
    (hpool' : vault'.liquidationCollateral.getD 0 = vault.liquidationCollateral.getD 0 + F)
    (hread₀ : DebtReads token u k c₀) (hread₁ : DebtReads token u (k + q) c₁) (hc₀ : 0 ≤ c₀)
    (hc₁ : 0 ≤ c₁)
    (hcovered : ((max 0 (token.amount * k - c₀) : ℤ) : ℚ) * 10 ^ u ≤
      vault.liquidationCollateral.getD 0)
    (hless : token.amount * (k + q) - c₁ ≤ token.amount * k - c₀ + token.amount * q) :
    Grows m vaultID vault vault' account token F ↔
      max 0 (token.amount * (k + q) - c₁) =
        max 0 (token.amount * k - c₀) + token.amount * q := by
  have hk := h.index_nonneg
  have hq := h.quotient_pos hF
  have hn : (0 : ℤ) ≤ token.amount := Int.natCast_nonneg _
  have hten : (0 : ℚ) < 10 ^ u := zpow_pos (by norm_num) u
  have hproduct := h.product_le hF
  have hproduct₀ : token.amount * k ≤ 10 ^ 18 :=
    (mul_le_mul_of_nonneg_left (by omega : k ≤ k + q) hn).trans hproduct
  have hshares : token.amount ≤ 10 ^ 18 := h.shares.trans (h.outstanding_le hF)
  have hpool := h.pool
  have hcovered₁ : ((max 0 (token.amount * (k + q) - c₁) : ℤ) : ℚ) * 10 ^ u ≤
      (vault.liquidationCollateral.getD 0 + F : ℤ) := by
    have hnq : 0 ≤ token.amount * q := mul_nonneg hn hq.le
    have hle : max 0 (token.amount * (k + q) - c₁) ≤
        max 0 (token.amount * k - c₀) + token.amount * q := by omega
    calc ((max 0 (token.amount * (k + q) - c₁) : ℤ) : ℚ) * 10 ^ u
        ≤ ((max 0 (token.amount * k - c₀) + token.amount * q : ℤ) : ℚ) * 10 ^ u :=
          mul_le_mul_of_nonneg_right (by exact_mod_cast hle) hten.le
      _ = ((max 0 (token.amount * k - c₀) : ℤ) : ℚ) * 10 ^ u +
            ((token.amount * q : ℤ) : ℚ) * 10 ^ u := by
          rw [Int.cast_add, add_mul]
      _ ≤ (vault.liquidationCollateral.getD 0 + F : ℤ) := by
          rw [Int.cast_add]
          exact add_le_add hcovered (h.part_le hF)
  obtain ⟨before, hbefore, hbeforeFit⟩ := pending_fits h.scale htoken h.index hk h.inRange hshares
    hproduct₀ hread₀ hc₀ (by omega) hcovered
  obtain ⟨after, hafter, hafterFit⟩ := @pending_fits (m.setVault vaultID vault') vault' account token
    u (k + q) c₁ h.scale (by rw [hsame]; exact htoken) hindex (by omega) h.inRange hshares hproduct
    hread₁ hc₁ (by rw [hpool']; exact hpool) (by rw [hpool']; exact hcovered₁)
  have hgrows : Grows m vaultID vault vault' account token F ↔
      after.toRat = before.toRat +
        token.amount * F / outstandingShares m vault.shareMPTID := by
    refine ⟨?_, fun heq => ⟨before, after, hbefore, hafter, heq⟩⟩
    rintro ⟨before', after', hbefore', hafter', heq⟩
    rw [hbefore] at hbefore'
    rw [hafter] at hafter'
    cases hbefore'
    cases hafter'
    exact heq
  rw [hgrows, hbeforeFit.value, hafterFit.value, h.part_eq hS, ← add_mul,
    mul_left_inj' hten.ne', ← Int.cast_add, Int.cast_inj]

/-- **A liquidity provider gets a part of the collateral a default forfeits exactly when a debt is on
record that the provider's shares make up for.** A provider who came while the index was zero has a
debt of zero, which is not stored, and a debt that is not stored is read as if the provider had come
after the default. -/
theorem pending_grows_iff (vaultID : UInt256) (hF : 0 < F)
    (hS : 0 < outstandingShares m vault.shareMPTID)
    (htoken : m.tokens.lookup (vault.shareMPTID, account) = some token)
    (h : Unrounded m vault token F u k q c) :
    ∃ vault', creditLiquidationToLPs m vault F = .ok vault' ∧
      (Grows m vaultID vault vault' account token F ↔
        token.amount = 0 ∨ ∃ d, token.liquidationDebt = some d ∧
          d.toRat ≤ token.amount * (vaultLiquidationIndex vault).toRat) := by
  have hk := h.index_nonneg
  have hq := h.quotient_pos hF
  have hn : (0 : ℤ) ≤ token.amount := Int.natCast_nonneg _
  have hten : (0 : ℚ) < 10 ^ u := zpow_pos (by norm_num) u
  have hsum := h.sum_le hF hS
  have hpool := h.pool
  have hpool₀ := h.pool_nonneg
  obtain ⟨vault', hcredit, hsame, hindex, hpool'⟩ : ∃ vault',
      creditLiquidationToLPs m vault F = .ok vault' ∧ vault'.shareMPTID = vault.shareMPTID ∧
      Fits .large u (k + q) (vaultLiquidationIndex vault') ∧
      vault'.liquidationCollateral.getD 0 = vault.liquidationCollateral.getD 0 + F := by
    obtain ⟨index, hindex, hcredit⟩ := credit_fits h.scale h.index h.inRange hF (by omega) hS
      (h.outstanding_le hF) h.quotient (by omega) (by omega)
    refine ⟨_, hcredit, rfl, ?_, getD_unlessDefault _⟩
    rw [vaultLiquidationIndex, getD_unlessDefault]
    exact hindex
  refine ⟨vault', hcredit, ?_⟩
  cases hrecorded : token.liquidationDebt with
  | none =>
    -- nothing is claimed before or after: the debt is read as the whole of `shares * index`
    have hread : ∀ k', DebtReads token u k' (token.amount * k') := fun k' => by
      rw [DebtReads, hrecorded]
    have hnk := mul_nonneg hn hk
    have hnkq : 0 ≤ token.amount * (k + q) := mul_nonneg hn (by omega)
    rw [grows_iff_units vaultID hF hS htoken h hsame hindex hpool' (hread k)
      (hread (k + q)) hnk hnkq (by simpa using hpool₀) (by linarith [mul_nonneg hn hq.le])]
    simp [hq.ne']
  | some d =>
    have hfits := h.debt d hrecorded
    have hread : ∀ k', DebtReads token u k' c := fun k' => by
      rw [DebtReads, hrecorded]
      exact hfits
    have hclaim : (token.amount * (vaultLiquidationIndex vault).toRat - d.toRat : ℚ) =
        ((token.amount * k - c : ℤ) : ℚ) * 10 ^ u := by
      rw [h.index.value, hfits.value]
      push_cast
      ring
    have hcovered : ((max 0 (token.amount * k - c) : ℤ) : ℚ) * 10 ^ u ≤
        vault.liquidationCollateral.getD 0 := by
      have hle := h.covered d hrecorded
      rw [hclaim] at hle
      rcases le_total 0 (token.amount * k - c) with hpos | hneg
      · rwa [max_eq_right hpos]
      · rw [max_eq_left hneg]
        simpa using hpool₀
    have hmade : d.toRat ≤ token.amount * (vaultLiquidationIndex vault).toRat ↔
        c ≤ token.amount * k := by
      rw [← sub_nonneg, hclaim, mul_nonneg_iff_of_pos_right hten, Int.cast_nonneg_iff, sub_nonneg]
    rw [grows_iff_units vaultID hF hS htoken h hsame hindex hpool' (hread k)
      (hread (k + q)) h.debt_nonneg h.debt_nonneg hcovered (by linarith), mul_add]
    simp only [Option.some.injEq, exists_eq_left', hmade]
    have hnq : 0 < token.amount * q ∨ token.amount = 0 := by
      rcases Nat.eq_zero_or_pos token.amount with hzero | hpos
      · exact .inr hzero
      · exact .inl (mul_pos (by exact_mod_cast hpos) hq)
    have hc := h.debt_nonneg
    rcases hnq with hpos | hzero
    · have : token.amount ≠ 0 := by
        rintro hzero
        simp [hzero] at hpos
      simp only [this, false_or]
      omega
    · simp only [hzero, Nat.cast_zero, zero_mul, true_or, iff_true]
      omega

/-- A power of ten as the code writes it. -/
def decimal (e : ℤ) : Number := ⟨false, 1000000000000000000, e⟩

private theorem decimal_fits {a : ℤ} {e : ℤ} (hvalue : (decimal e).toRat = a * 10 ^ (0 : ℤ))
    (hle : a.natAbs ≤ 10 ^ 18) (hmin : kMinExponent ≤ e) (hmax : e ≤ kMaxExponent) :
    Fits .large 0 a (decimal e) :=
  ⟨.inr ⟨(by decide : MantissaScale.large.min ≤ 1000000000000000000),
    (by decide : 1000000000000000000 ≤ MantissaScale.large.max),
    .inl (by decide : 1000000000000000000 ≤ kMaxRep), hmin, hmax⟩, hvalue, hle⟩

theorem one_fits : Fits .large 0 1 (decimal (-18)) :=
  decimal_fits (by norm_num [decimal, toRat]) (by decide) (by decide) (by decide)

theorem hundred_fits : Fits .large 0 100 (decimal (-16)) :=
  decimal_fits (by norm_num [decimal, toRat]) (by decide) (by decide) (by decide)

/-- The small market at an index of one drop a share, after a deposit of a hundred. -/
def indexedMarket : Market :=
  (Market.step Sample.lending
    { Sample.market with
      vaults := AList.insert 1 { Sample.vault with liquidationIndex := some (decimal (-18)) } ∅ }
    (Sample.deposit Sample.alice 1 100)).1

/-- The vault and the token after it. -/
def indexedVault : VaultEntry :=
  { Sample.vault with
    assetsTotal := decimal (-16)
    assetsAvailable := decimal (-16)
    liquidationIndex := some (decimal (-18)) }

def indexedToken : ShareToken := ⟨100, 0, false, 0, some (decimal (-16))⟩

private theorem indexed_unrounded :
    Unrounded indexedMarket indexedVault indexedToken 100 0 1 1 100 where
  scale := by decide +kernel
  inRange := by decide
  index := one_fits
  index_nonneg := by decide
  debt d hd := by
    cases hd
    exact hundred_fits
  debt_nonneg := by decide
  quotient := by
    have : outstandingShares indexedMarket indexedVault.shareMPTID = 100 := by decide +kernel
    rw [this]
    norm_num
  shares := by decide +kernel
  products := by decide +kernel
  pool_nonneg := by decide
  pool := by decide
  covered d hd := by
    cases hd
    rw [show vaultLiquidationIndex indexedVault = decimal (-18) from rfl, one_fits.value,
      hundred_fits.value]
    norm_num [indexedToken, indexedVault, Sample.vault]

theorem pending_grows_recorded :
    indexedMarket.vaults.lookup 1 = some indexedVault ∧
    ∃ vault', creditLiquidationToLPs indexedMarket indexedVault 100 = .ok vault' ∧
      Grows indexedMarket 1 indexedVault vault' Sample.alice indexedToken 100 := by
  refine ⟨by decide +kernel, ?_⟩
  obtain ⟨vault', hcredit, hiff⟩ := pending_grows_iff 1 (by decide) (by decide +kernel)
    (by decide +kernel :
      indexedMarket.tokens.lookup (indexedVault.shareMPTID, Sample.alice) = some indexedToken)
    indexed_unrounded
  refine ⟨vault', hcredit, hiff.mpr (.inr ⟨_, rfl, ?_⟩)⟩
  rw [show vaultLiquidationIndex indexedVault = decimal (-18) from rfl, one_fits.value,
    hundred_fits.value]
  norm_num [indexedToken]

/-- The small market after the first deposit: a hundred shares, of which the depositor holds all. -/
def depositedMarket : Market :=
  (Market.step Sample.lending Sample.market (Sample.deposit Sample.alice 1 100)).1

/-- The depositor's claim is zero after the first default, of a hundred drops. -/
theorem first_provider_gets_nothing :
    ∃ vault token vault', depositedMarket.vaults.lookup 1 = some vault ∧
      depositedMarket.tokens.lookup (vault.shareMPTID, Sample.alice) = some token ∧
      token.amount = 100 ∧ outstandingShares depositedMarket vault.shareMPTID = 100 ∧
      creditLiquidationToLPs depositedMarket vault 100 = .ok vault' ∧
      ¬Grows depositedMarket 1 vault vault' Sample.alice token 100 := by
  refine ⟨{ Sample.vault with assetsTotal := decimal (-16), assetsAvailable := decimal (-16) },
    ⟨100, 0, false, 0, none⟩,
    { Sample.vault with
      assetsTotal := decimal (-16)
      assetsAvailable := decimal (-16)
      liquidationCollateral := some 100
      liquidationIndex := some (decimal (-18)) },
    by decide +kernel, by decide +kernel, rfl, by decide +kernel, by rfl, ?_⟩
  rintro ⟨before, after, hbefore, hafter, heq⟩
  have hbefore' : Except.ok 0 = Except.ok before := hbefore
  have hafter' : Except.ok 0 = Except.ok after := hafter
  cases hbefore'
  cases hafter'
  have hS : outstandingShares depositedMarket Sample.shares = 100 := by decide +kernel
  change (0 : Number).toRat = (0 : Number).toRat +
    ((100 : ℕ) : ℚ) * ((100 : ℤ) : ℚ) / (outstandingShares depositedMarket Sample.shares : ℚ) at heq
  rw [hS] at heq
  norm_num at heq

end Lending

end FalconLedger
