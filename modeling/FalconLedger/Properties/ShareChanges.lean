import FalconLedger.Properties.LiquidationRewards

/-!
# The claim of a holder whose shares change

A holder of `n` shares with a debt of `c` units has a claim of `n * k - c` at an index of `k`. When
`n` becomes `n'` the debt is moved to `c + (n' - n) * k`, which would keep the claim. It is stopped at
zero, and a debt of zero is not stored: then the whole claim is lost (`claim_kept_iff`).
-/

namespace FalconLedger

namespace Lending

open Number

variable {m : Market} {vault : VaultEntry} {account : AccountID} {token : ShareToken}
  {n' : ℕ} {u k c : ℤ} {delta : Number}

/-- What a holder can claim before it is cut: `shares * index` less the debt. -/
def uncappedClaim (m : Market) (vault : VaultEntry) (token : ShareToken) : Except TER Number := do
  let shares ← number (Number.ofInt m.env token.amount)
  let index := vaultLiquidationIndex vault
  let debt ← mptLiquidationDebt m token shares index
  number (Number.sub m.env (← number (Number.mul m.env shares index)) debt)

/-- The debt of a token, as it is read. -/
def debtRead (vault : VaultEntry) (token : ShareToken) : ℚ :=
  (token.liquidationDebt.map Number.toRat).getD
    (token.amount * (vaultLiquidationIndex vault).toRat)

theorem uncappedClaim_fits (hscale : m.env.scale = .large)
    (hindex : Fits .large u k (vaultLiquidationIndex vault)) (hk : 0 ≤ k) (hu : InRange .large u)
    (hshares : token.amount ≤ 10 ^ 18) (hproduct : token.amount * k ≤ 10 ^ 18)
    (hdebt : DebtReads token u k c) (hle : (token.amount * k - c).natAbs ≤ 10 ^ 18) :
    ∃ z, uncappedClaim m vault token = .ok z ∧ Fits .large u (token.amount * k - c) z := by
  have hnk : 0 ≤ token.amount * k := mul_nonneg (Int.natCast_nonneg _) hk
  obtain ⟨shares, hsharesEq, hsharesFit⟩ := @ofInt_fits m.env (token.amount : ℤ)
    (by rw [hscale, large_min]; omega)
  rw [hscale] at hsharesFit
  obtain ⟨debt, hdebtEq, hdebtFit⟩ := debt_fits hscale hsharesFit hindex hk hu hproduct hdebt
  obtain ⟨product, hproductEq, hproductFit⟩ := product_fits hscale hsharesFit hindex hu
    (by omega : ((token.amount : ℤ) * k).natAbs ≤ 10 ^ 18)
  obtain ⟨z, hz, hfits⟩ := @sub_fits m.env product debt (token.amount * k) c u
    (by rw [hscale]; exact hproductFit) (by rw [hscale]; exact hdebtFit)
    (by rw [hscale, large_min]; exact hle) (by rwa [hscale])
  rw [hscale] at hfits
  refine ⟨z, ?_, hfits⟩
  unfold uncappedClaim
  simp only [hsharesEq, hdebtEq, hproductEq, hz, number, orFail, bind, Except.bind]

theorem positive_part_fits {scale : MantissaScale} {a : ℤ} {z : Number} (h : Fits scale u a z)
    (ha : 0 ≤ a) : Fits scale u a (if Number.lt 0 z then z else 0) := by
  have hlt : Number.lt 0 z = decide (0 < a) := h.zero_lt
  rw [hlt]
  split_ifs with hpos
  · exact h
  · have hzero : a = 0 := le_antisymm (not_lt.mp fun h => hpos (decide_eq_true h)) ha
    rw [hzero]
    exact fits_zero _ _

theorem adjust_fits (hscale : m.env.scale = .large) (hne : n' ≠ token.amount)
    (htoken : m.tokens.lookup (vault.shareMPTID, account) = some { token with amount := n' })
    (hdelta : Number.ofInt m.env ((n' : ℤ) - token.amount) = some delta)
    (hindex : Fits .large u k (vaultLiquidationIndex vault)) (hk : 0 ≤ k) (hu : InRange .large u)
    (hshares : token.amount ≤ 10 ^ 18) (hshares' : n' ≤ 10 ^ 18)
    (hproduct : token.amount * k ≤ 10 ^ 18) (hproduct' : n' * k ≤ 10 ^ 18)
    (hdebt : DebtReads token u k c) (hsum : (c + ((n' : ℤ) - token.amount) * k).natAbs ≤ 10 ^ 18) :
    ∃ debt, Fits .large u (max 0 (c + ((n' : ℤ) - token.amount) * k)) debt ∧
      adjustLiquidationDebtForShareDelta m vault account delta =
        .ok (m.setToken vault.shareMPTID account
          { token with amount := n', liquidationDebt := unlessDefault debt }) := by
  have hnk : 0 ≤ token.amount * k := mul_nonneg (Int.natCast_nonneg _) hk
  have hnk' : 0 ≤ n' * k := mul_nonneg (Int.natCast_nonneg _) hk
  have hdeltaFit : Fits .large 0 ((n' : ℤ) - token.amount) delta := by
    obtain ⟨z, hz, hfits⟩ := @ofInt_fits m.env ((n' : ℤ) - token.amount)
      (by rw [hscale, large_min]; omega)
    rw [hscale] at hfits
    exact Option.some_inj.mp (hz.symm.trans hdelta) ▸ hfits
  obtain ⟨sharesNow, hnowEq, hnowFit⟩ := @ofInt_fits m.env (n' : ℤ)
    (by rw [hscale, large_min]; omega)
  obtain ⟨sharesBefore, hbeforeEq, hbeforeFit⟩ := @sub_fits m.env sharesNow delta n'
    ((n' : ℤ) - token.amount) 0 hnowFit (by rwa [hscale]) (by rw [hscale, large_min]; omega)
    (by rw [hscale]; decide)
  rw [hscale, sub_sub_cancel] at hbeforeFit
  -- an absent debt is read at the shares before the change
  have hpositive := positive_part_fits hbeforeFit (Int.natCast_nonneg _)
  obtain ⟨debt, hdebtEq, hdebtFit⟩ := debt_fits hscale hpositive hindex hk hu hproduct hdebt
  have hdiff : (((n' : ℤ) - token.amount) * k).natAbs ≤ 10 ^ 18 := by
    rw [sub_mul]
    omega
  obtain ⟨change, hchangeEq, hchangeFit⟩ := product_fits hscale hdeltaFit hindex hu hdiff
  obtain ⟨moved, hmovedEq, hmovedFit⟩ := @add_fits m.env debt change c
    (((n' : ℤ) - token.amount) * k) u (by rwa [hscale]) (by rwa [hscale])
    (by rw [hscale, large_min]; exact hsum) (by rwa [hscale])
  rw [hscale] at hmovedFit
  refine ⟨_, clamp_fits hmovedFit, ?_⟩
  have hdelta0 : delta ≠ 0 := by
    intro hzero
    have := hdeltaFit.eq_zero_iff.mp hzero
    omega
  have hdebtEq' : mptLiquidationDebt m { token with amount := n' }
      (if Number.lt 0 sharesBefore then sharesBefore else 0) (vaultLiquidationIndex vault) =
        .ok debt := hdebtEq
  unfold adjustLiquidationDebtForShareDelta
  rw [if_neg hdelta0, htoken]
  simp only [hnowEq, hbeforeEq, hdebtEq', hchangeEq, hmovedEq, number, orFail, bind, Except.bind]
  rfl

/-- A debt that comes out at zero is not stored, and is read as the whole of `shares * index`. -/
theorem reads_moved {debt : Number}
    (hdebt : Fits .large u (max 0 (c + ((n' : ℤ) - token.amount) * k)) debt) :
    DebtReads { token with amount := n', liquidationDebt := unlessDefault debt } u k
      (if 0 < c + ((n' : ℤ) - token.amount) * k then c + ((n' : ℤ) - token.amount) * k
        else n' * k) := by
  unfold DebtReads unlessDefault
  by_cases hpos : 0 < c + ((n' : ℤ) - token.amount) * k
  · rw [max_eq_right hpos.le] at hdebt
    have hne : debt ≠ 0 := fun hzero => hpos.ne' (hdebt.eq_zero_iff.mp hzero)
    rw [if_pos hpos, if_neg hne]
    exact hdebt
  · rw [max_eq_left (not_lt.mp hpos)] at hdebt
    have hzero : debt = 0 := hdebt.eq_zero_iff.mpr rfl
    rw [if_neg hpos, if_pos hzero]

/-- No number has more than eighteen digits that moving a holder's debt and reading the claim compute
with: at a unit of `10 ^ u` the index is `k` and the debt is `c`. -/
structure DigitsSuffice (m : Market) (vault : VaultEntry) (token : ShareToken) (n' : ℕ) (u k c : ℤ) :
    Prop where
  scale : m.env.scale = .large
  inRange : InRange .large u
  index : Fits .large u k (vaultLiquidationIndex vault)
  index_nonneg : 0 ≤ k
  debt : DebtReads token u k c
  debt_nonneg : 0 ≤ c
  shares : token.amount ≤ 10 ^ 18 ∧ n' ≤ 10 ^ 18
  products : token.amount * k ≤ 10 ^ 18 ∧ n' * k ≤ 10 ^ 18
  sum : (c + ((n' : ℤ) - token.amount) * k).natAbs ≤ 10 ^ 18

/-- What a holder can claim is the same as before. -/
def KeepsClaim (m m' : Market) (vault : VaultEntry) (token token' : ShareToken) : Prop :=
  ∃ before after, uncappedClaim m vault token = .ok before ∧
    uncappedClaim m' vault token' = .ok after ∧ after.toRat = before.toRat

namespace DigitsSuffice

variable (h : DigitsSuffice m vault token n' u k c)
include h

theorem debt_le : c ≤ 10 ^ 18 := by
  have hdebt := h.debt
  unfold DebtReads at hdebt
  cases hrecorded : token.liquidationDebt with
  | none =>
    rw [hrecorded] at hdebt
    rw [hdebt]
    exact h.products.1
  | some d =>
    rw [hrecorded] at hdebt
    have hle := Fits.le hdebt
    rw [large_min] at hle
    omega

theorem debtRead_eq : debtRead vault token = c * 10 ^ u := by
  have hdebt := h.debt
  unfold DebtReads at hdebt
  rw [debtRead]
  cases hrecorded : token.liquidationDebt with
  | none =>
    rw [hrecorded] at hdebt
    rw [Option.map_none, Option.getD_none, h.index.value, hdebt]
    push_cast
    ring
  | some d =>
    rw [hrecorded] at hdebt
    exact hdebt.value

end DigitsSuffice

/-- **A holder keeps the claim through a change of shares exactly when the moved debt is positive, or
there was nothing to claim.** -/
theorem claim_kept_iff (hne : n' ≠ token.amount)
    (htoken : m.tokens.lookup (vault.shareMPTID, account) = some { token with amount := n' })
    (hdelta : Number.ofInt m.env ((n' : ℤ) - token.amount) = some delta)
    (h : DigitsSuffice m vault token n' u k c) :
    ∃ token', token'.amount = n' ∧ adjustLiquidationDebtForShareDelta m vault account delta =
        .ok (m.setToken vault.shareMPTID account token') ∧
      (KeepsClaim m (m.setToken vault.shareMPTID account token') vault token token' ↔
        0 < debtRead vault token +
            ((n' : ℚ) - token.amount) * (vaultLiquidationIndex vault).toRat ∨
          debtRead vault token = token.amount * (vaultLiquidationIndex vault).toRat) := by
  have hten : (0 : ℚ) < 10 ^ u := zpow_pos (by norm_num) u
  have hk := h.index_nonneg
  have hc := h.debt_nonneg
  have hcle := h.debt_le
  obtain ⟨hshares, hshares'⟩ := h.shares
  obtain ⟨hproduct, hproduct'⟩ := h.products
  have hsum := h.sum
  have hnk : 0 ≤ token.amount * k := mul_nonneg (Int.natCast_nonneg _) hk
  have hnk' : 0 ≤ n' * k := mul_nonneg (Int.natCast_nonneg _) hk
  obtain ⟨debt, hdebtFit, hadjust⟩ := adjust_fits h.scale hne htoken hdelta h.index hk h.inRange
    hshares hshares' hproduct hproduct' h.debt hsum
  refine ⟨_, rfl, hadjust, ?_⟩
  obtain ⟨before, hbefore, hbeforeFit⟩ := uncappedClaim_fits h.scale h.index hk h.inRange hshares
    hproduct h.debt (by omega)
  have hreads := @reads_moved token _ _ _ _ _ hdebtFit
  generalize hs : c + ((n' : ℤ) - token.amount) * k = sum at hreads hsum
  obtain ⟨after, hafter, hafterFit⟩ := @uncappedClaim_fits
    (m.setToken vault.shareMPTID account
      { token with amount := n', liquidationDebt := unlessDefault debt }) vault _ u k _
    h.scale h.index hk h.inRange hshares' hproduct' hreads (by dsimp only; split_ifs <;> omega)
  have hkeeps : KeepsClaim m (m.setToken vault.shareMPTID account
      { token with amount := n', liquidationDebt := unlessDefault debt }) vault token
        { token with amount := n', liquidationDebt := unlessDefault debt } ↔
      after.toRat = before.toRat := by
    refine ⟨?_, fun heq => ⟨before, after, hbefore, hafter, heq⟩⟩
    rintro ⟨before', after', hbefore', hafter', heq⟩
    cases hbefore.symm.trans hbefore'
    cases hafter.symm.trans hafter'
    exact heq
  have hmoved : debtRead vault token + ((n' : ℚ) - token.amount) *
      (vaultLiquidationIndex vault).toRat = (sum : ℚ) * 10 ^ u := by
    rw [h.debtRead_eq, h.index.value, ← hs]
    push_cast
    ring
  have hnothing : debtRead vault token = token.amount * (vaultLiquidationIndex vault).toRat ↔
      c = token.amount * k := by
    rw [h.debtRead_eq, h.index.value, ← mul_assoc, mul_left_inj' hten.ne']
    exact_mod_cast Iff.rfl
  rw [hkeeps, hbeforeFit.value, hafterFit.value, mul_left_inj' hten.ne', Int.cast_inj, hmoved,
    mul_pos_iff_of_pos_right hten, Int.cast_pos, hnothing]
  have hexpand : sum = c + n' * k - token.amount * k := by
    rw [← hs, sub_mul]
    ring
  dsimp only
  -- a moved debt that is not positive is read back as all of the new shares times the index
  split_ifs with hpos
  · simp only [hpos, true_or, iff_true]
    omega
  · simp only [hpos, false_or]
    omega

/-- The small market when half of the hundred shares have gone. -/
def halvedMarket : Market :=
  indexedMarket.setToken indexedVault.shareMPTID Sample.alice { indexedToken with amount := 50 }

theorem claim_kept_halved : ∃ token', token'.amount = 50 ∧
    adjustLiquidationDebtForShareDelta halvedMarket indexedVault Sample.alice
      ⟨true, 5000000000000000000, -17⟩ =
        .ok (halvedMarket.setToken indexedVault.shareMPTID Sample.alice token') ∧
    KeepsClaim halvedMarket (halvedMarket.setToken indexedVault.shareMPTID Sample.alice token')
      indexedVault indexedToken token' := by
  have hdigits : DigitsSuffice halvedMarket indexedVault indexedToken 50 0 1 100 :=
    { scale := by decide +kernel
      inRange := by decide
      index := one_fits
      index_nonneg := by decide
      debt := hundred_fits
      debt_nonneg := by decide
      shares := by decide
      products := by decide
      sum := by decide }
  obtain ⟨token', hamount, hadjust, hiff⟩ := claim_kept_iff (by decide) (AList.lookup_insert _)
    (by decide +kernel : Number.ofInt halvedMarket.env (((50 : ℕ) : ℤ) - indexedToken.amount) =
      some ⟨true, 5000000000000000000, -17⟩) hdigits
  refine ⟨token', hamount, hadjust, hiff.mpr (.inl ?_)⟩
  rw [hdigits.debtRead_eq, show vaultLiquidationIndex indexedVault = decimal (-18) from rfl,
    one_fits.value]
  norm_num [indexedToken]

/-- The vault after a default of two hundred drops: the index is at three. -/
def tripledVault : VaultEntry :=
  { indexedVault with
    liquidationCollateral := some 200
    liquidationIndex := some ⟨false, 3000000000000000000, -18⟩ }

/-- The holder of the hundred shares then has a claim of two hundred, and none when half of the shares
have gone. -/
theorem claim_lost : creditLiquidationToLPs indexedMarket indexedVault 200 = .ok tripledVault ∧
    ∃ token', adjustLiquidationDebtForShareDelta halvedMarket tripledVault Sample.alice
        ⟨true, 5000000000000000000, -17⟩ =
          .ok (halvedMarket.setToken tripledVault.shareMPTID Sample.alice token') ∧
      uncappedClaim halvedMarket tripledVault indexedToken =
        .ok ⟨false, 2000000000000000000, -16⟩ ∧
      ¬KeepsClaim halvedMarket (halvedMarket.setToken tripledVault.shareMPTID Sample.alice token')
        tripledVault indexedToken token' := by
  have hbefore : uncappedClaim halvedMarket tripledVault indexedToken =
      .ok ⟨false, 2000000000000000000, -16⟩ := by
    rfl
  refine ⟨rfl, { indexedToken with amount := 50, liquidationDebt := none }, rfl, hbefore, ?_⟩
  rintro ⟨before, after, hbefore', hafter, heq⟩
  cases hbefore.symm.trans hbefore'
  have hafter' : Except.ok 0 = Except.ok after := hafter
  cases hafter'
  rw [show (0 : Number).toRat = 0 from toRat_zero] at heq
  norm_num [toRat] at heq

end Lending

end FalconLedger
