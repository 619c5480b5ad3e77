import FalconLedger.Properties.BondLife

/-!
# What can still be claimed by scores

A claim of the validator basket is measured by the bond's score, against the sum of scores in the
epoch object. After a write-back the scores that can still be claimed by add up to at most the sum.
Every step up to the next one keeps that, and a paid claim takes out its score (`sum_paid_mul_le`).
-/

namespace Table

variable {K V : Type} [DecidableEq K] {w : V → ℤ} {t t' : Table K V}

theorem total_le_of_weightAt_le (h : ∀ k, weightAt w t' k ≤ weightAt w t k) :
    total w t' ≤ total w t := by
  have hnet : 0 ≤ netChange w t' t := List.sum_nonneg fun x hx => by
    obtain ⟨k, -, rfl⟩ := List.mem_map.mp hx
    exact sub_nonneg.mpr (h k)
  rw [netChange_eq] at hnet
  omega

theorem total_add_le {k : K} {d : ℤ} (hk : weightAt w t' k + d ≤ weightAt w t k)
    (h : ∀ k', k' ≠ k → weightAt w t' k' ≤ weightAt w t k') : total w t' + d ≤ total w t := by
  have hrest : total w (t'.erase k) ≤ total w (t.erase k) := total_le_of_weightAt_le fun k' => by
    by_cases heq : k' = k
    · rw [heq, weightAt_of_none (AList.lookup_erase _ _), weightAt_of_none (AList.lookup_erase _ _)]
    · rw [weightAt, weightAt, AList.lookup_erase_ne heq, AList.lookup_erase_ne heq]
      exact h k' heq
  rw [total_eq_erase_add w t k, total_eq_erase_add w t' k]
  omega

private theorem sum_filter_ne_zero {α : Type} (f : α → ℤ) (l : List α) :
    ((l.filter fun a => decide (f a ≠ 0)).map f).sum = (l.map f).sum := by
  induction l with
  | nil => rfl
  | cons a l ih =>
    by_cases h : f a = 0
    · simpa [h] using ih
    · simpa [h] using ih

/-- A table weighs no more than a list that has all of its rows with a weight. -/
theorem total_le_sum (hw : ∀ v, 0 ≤ w v) {l : List (K × V)}
    (h : ∀ k v, t.lookup k = some v → w v = 0 ∨ (k, v) ∈ l) :
    total w t ≤ (l.map fun e => w e.2).sum := by
  let rows : List (K × V) := t.entries.map fun e => (e.1, e.2)
  have hrows : total w t = (rows.map fun e => w e.2).sum := by
    simp only [total, rows, List.map_map]
    rfl
  have hnodup : rows.Nodup := by
    refine List.Nodup.of_map Prod.fst ?_
    simp only [rows, List.map_map]
    exact t.keys_nodup
  have hsub : (rows.filter fun e => decide (w e.2 ≠ 0)) ⊆ l := fun e he => by
    obtain ⟨he, hne⟩ := List.mem_filter.mp he
    obtain ⟨⟨k, v⟩, hmem, rfl⟩ := List.mem_map.mp he
    exact (h k v (AList.mem_lookup_iff.mpr hmem)).resolve_left (of_decide_eq_true hne)
  obtain ⟨l', hperm, hsublist⟩ := List.subperm_of_subset (hnodup.filter _) hsub
  rw [hrows, ← sum_filter_ne_zero, ← (hperm.map _).sum_eq]
  exact (hsublist.map _).sum_le_sum fun x hx => by
    obtain ⟨e, -, rfl⟩ := List.mem_map.mp hx
    exact hw e.2

end Table

namespace FalconLedger

open Transactor Ledger BuildLedger ValidatorScoring

variable {H : Services} {s : Ledger} {tx : STTx} {a : Applied} {e : UInt32}

/-- The score that a bond can still claim by in epoch `e`: none when it is leaving or marked. -/
def ValidatorBond.unclaimed (e : UInt32) (bond : ValidatorBond) : ℤ :=
  if bond.bondStatus ≠ .unbonding ∧ bond.lastClaimedEpoch.getD 0 < e then
    (bond.compositeScore.getD 0).toNat
  else 0

/-- A bond that scoring never walks has no score. -/
def ValidatorBond.ScoredOnly (bond : ValidatorBond) : Prop :=
  bond.bondStatus = .registered ∨ isValidNodeKey bond.consensusKey = false →
    bond.compositeScore.getD 0 = 0

instance : DecidablePred ValidatorBond.ScoredOnly := fun _ => inferInstanceAs (Decidable (_ → _))

/-- The scores that can still be claimed by in epoch `e`. -/
def Ledger.unclaimed (s : Ledger) (e : UInt32) : ℤ := Table.total (ValidatorBond.unclaimed e) s.bonds

/-- The sum of scores that claims are measured against. -/
def Ledger.aggregate (s : Ledger) : Option UInt32 :=
  s.epoch.map fun epoch => epoch.aggregateCompositeScore.getD 0

theorem ValidatorBond.unclaimed_nonneg (e : UInt32) (bond : ValidatorBond) :
    0 ≤ bond.unclaimed e := by
  unfold unclaimed
  split_ifs
  · exact Int.natCast_nonneg _
  · exact le_rfl

theorem ValidatorBond.unclaimed_le (e : UInt32) (bond : ValidatorBond) :
    bond.unclaimed e ≤ (bond.compositeScore.getD 0).toNat := by
  unfold unclaimed
  split_ifs
  · exact le_rfl
  · exact Int.natCast_nonneg _

theorem ValidatorBond.ScoredOnly.of_eq {bond bond' : ValidatorBond} (h : bond.ScoredOnly)
    (hkey : bond'.consensusKey = bond.consensusKey)
    (hscore : bond'.compositeScore = bond.compositeScore)
    (hstatus : bond'.bondStatus = .registered → bond.bondStatus = .registered) :
    bond'.ScoredOnly := by
  rintro (hregistered | hinvalid)
  · rw [hscore]
    exact h (.inl (hstatus hregistered))
  · rw [hscore]
    exact h (.inr (hkey ▸ hinvalid))

private theorem weightAt_nonneg (id : AccountID) :
    0 ≤ Table.weightAt (ValidatorBond.unclaimed e) s.bonds id := by
  unfold Table.weightAt
  cases s.bonds.lookup id with
  | none => exact le_rfl
  | some bond => exact bond.unclaimed_nonneg e

/-! ### Transactions -/

namespace BondMove

variable {id : AccountID} {o : Option ValidatorBond}

/-- No move adds to what can be claimed. -/
theorem unclaimed_le (h : BondMove H s tx id o) :
    o.elim 0 (ValidatorBond.unclaimed e) ≤
      Table.weightAt (ValidatorBond.unclaimed e) s.bonds id := by
  cases h with
  | same => exact le_rfl
  | register =>
    refine le_trans (le_of_eq ?_) (weightAt_nonneg id)
    simp [ValidatorBond.unclaimed, ValidatorRegister.newBond]
  | bond hbody hid hbond howner hstatus =>
    rw [Table.weightAt_of_lookup hbond]
    simp [ValidatorBond.unclaimed, hstatus]
  | unbond =>
    refine le_trans (le_of_eq ?_) (weightAt_nonneg id)
    simp [ValidatorBond.unclaimed]
  | slash =>
    refine le_trans (le_of_eq ?_) (weightAt_nonneg id)
    simp [ValidatorBond.unclaimed, ValidatorSlash.slashedBond]
  | release => exact weightAt_nonneg id
  | @claim consensusKey bond epoch hbody hid hbond hstatus hepoch hmark =>
    rw [Table.weightAt_of_lookup hbond]
    simp only [Option.elim_some, ValidatorBond.unclaimed, ClaimReward.markClaimed,
      Option.getD_some]
    split_ifs with hafter hbefore
    · exact le_rfl
    · exact absurd ⟨hafter.1, UInt32.lt_trans hmark hafter.2⟩ hbefore
    · exact Int.natCast_nonneg _
    · exact le_rfl

theorem scoredOnly (h : BondMove H s tx id o) (hs : Table.All ValidatorBond.ScoredOnly s.bonds) :
    ∀ bond, o = some bond → bond.ScoredOnly := by
  cases h with
  | same => exact fun bond hbond => hs id bond hbond
  | register =>
    rintro _ ⟨⟩ -
    rfl
  | bond hbody hid hbond howner hstatus =>
    rintro _ ⟨⟩ -
    have hold := hs id _ hbond (.inl hstatus)
    exact hold
  | unbond hbody hid hbond howner hstatus =>
    rintro _ ⟨⟩
    exact (hs id _ hbond).of_eq rfl rfl nofun
  | slash hbody hbond =>
    rintro _ ⟨⟩
    exact (hs id _ hbond).of_eq rfl rfl nofun
  | release => rintro _ ⟨⟩
  | claim hbody hid hbond =>
    rintro _ ⟨⟩
    exact (hs id _ hbond).of_eq rfl rfl fun h => h

end BondMove

namespace Transactor.Outcome

variable {r : Ledger × Receipt}

theorem unclaimed_le (h : Outcome H s tx r) (e : UInt32) : r.1.unclaimed e ≤ s.unclaimed e :=
  Table.total_le_of_weightAt_le fun id => (h.bondMove id).unclaimed_le

theorem scoredOnly (h : Outcome H s tx r) (hs : Table.All ValidatorBond.ScoredOnly s.bonds) :
    Table.All ValidatorBond.ScoredOnly r.1.bonds := fun id bond hbond =>
  (h.bondMove id).scoredOnly hs bond hbond

private theorem doApply_aggregate (h : doApply H s tx = .ok a) :
    a.view.aggregate = s.aggregate := by
  cases doApply_effect h with
  | registry hview => rw [aggregate, hview, aggregate]
  | slash => rfl
  | nothing => rfl
  | @claim epoch share pay s₁ bonds lpStates hclaim hepoch hshare hpay =>
    obtain ⟨treasury, root, -, -, -, -, -, rfl⟩ := payClaim_ok hpay
    simp [aggregate, payOut, hepoch]
  | proposal hsame =>
    simp only [aggregate, Option.map_map]
    rfl
  | vote => rfl

/-- No transaction writes the sum of scores. -/
theorem aggregate_eq (h : Outcome H s tx r) : r.1.aggregate = s.aggregate := by
  cases h with
  | unapplied => rfl
  | feeOnly hreset =>
    rw [ApplyContext.destroyXRP_eq]
    simp only [aggregate]
    rw [(reset_ok hreset).same]
  | success hflight hclaim hcharge happly =>
    have hcharged := charge_ok hcharge (account_ne_none_of_preclaim hclaim)
    rw [ApplyContext.destroyXRP_eq]
    refine (doApply_aggregate happly).trans ?_
    simp only [aggregate]
    rw [hcharged.same]

end Transactor.Outcome

/-- The validator basket as the code computes it. -/
def ClaimReward.validatorPoolDrops (epoch : RewardEpoch) : Int :=
  muldiv64 epoch.emissionRate (validatorBps epoch) kBpsDenom

def STTx.isClaimReward (tx : STTx) : Bool :=
  match tx.body with
  | .claimReward .. => true
  | _ => false

private theorem doApply_paid_mul_le (hkind : tx.isClaimReward = true) (h : doApply H s tx = .ok a)
    {epoch : RewardEpoch} (hepoch : s.epoch = some epoch)
    (hB : 0 ≤ ClaimReward.validatorPoolDrops epoch) (hpaid : 0 < a.paid) :
    ∃ consensusKey bond, tx.body = .claimReward consensusKey ∧
      s.bonds.lookup (H.calcValidatorBondID consensusKey) = some bond ∧
      a.paid * (epoch.aggregateCompositeScore.getD 0).toNat ≤
        ClaimReward.validatorPoolDrops epoch * (bond.compositeScore.getD 0).toNat ∧
      epoch.aggregateCompositeScore.getD 0 ≠ 0 := by
  cases hbody : tx.body <;> simp only [STTx.isClaimReward, hbody, Bool.false_eq_true] at hkind
  rename_i consensusKey
  simp only [doApply, hbody] at h
  obtain ⟨bond, epoch', hbond, hepoch', -, hagg, h⟩ := ClaimReward.doApply_ok h
  obtain rfl := Option.some.inj (hepoch.symm.trans hepoch')
  refine ⟨consensusKey, bond, rfl, hbond, ?_, hagg⟩
  rcases h with ⟨hzero, rfl⟩ | ⟨hpos, s₁, pay, hpay, rfl⟩
  · exact absurd hpaid (lt_irrefl 0)
  · obtain ⟨-, -, -, -, -, hmin, -⟩ := payClaim_ok hpay
    have hden : 0 < (epoch.aggregateCompositeScore.getD 0).toNat :=
      Nat.pos_of_ne_zero fun hz => hagg (UInt32.toNat_inj.mp hz)
    have hshare : pay ≤ ClaimReward.validatorPoolDrops epoch *
        (bond.compositeScore.getD 0).toNat / (epoch.aggregateCompositeScore.getD 0).toNat := by
      rw [← muldiv64_eq_ediv hB hden, hmin]
      exact min_le_left _ _
    exact (mul_le_mul_of_nonneg_right hshare (Int.natCast_nonneg _)).trans
      (Int.ediv_mul_le _ (by omega))

/-- A claim that is paid takes the score it was paid for out of what can be claimed. -/
theorem Transactor.Outcome.paid_mul_le {r : Ledger × Receipt} (h : Outcome H s tx r)
    (hkind : tx.isClaimReward = true) {epoch : RewardEpoch} (hepoch : s.epoch = some epoch)
    (hB : 0 ≤ ClaimReward.validatorPoolDrops epoch) (hpaid : 0 < r.2.paid) :
    epoch.aggregateCompositeScore.getD 0 ≠ 0 ∧
      r.2.paid * (epoch.aggregateCompositeScore.getD 0).toNat +
          ClaimReward.validatorPoolDrops epoch * r.1.unclaimed epoch.epochNumber ≤
        ClaimReward.validatorPoolDrops epoch * s.unclaimed epoch.epochNumber := by
  obtain ⟨consensusKey, bond, hbody, hbond, hle, hagg⟩ : ∃ consensusKey bond,
      tx.body = .claimReward consensusKey ∧
      s.bonds.lookup (H.calcValidatorBondID consensusKey) = some bond ∧
      r.2.paid * (epoch.aggregateCompositeScore.getD 0).toNat ≤
        ClaimReward.validatorPoolDrops epoch * (bond.compositeScore.getD 0).toNat ∧
      epoch.aggregateCompositeScore.getD 0 ≠ 0 := by
    cases h with
    | unapplied => exact absurd hpaid (lt_irrefl 0)
    | feeOnly => exact absurd hpaid (lt_irrefl 0)
    | @success s₁ a hflight hclaim hcharge happly =>
      have hsame := (charge_ok hcharge (account_ne_none_of_preclaim hclaim)).same
      have hbonds : s₁.bonds = s.bonds := by rw [hsame]
      have hepochs : s₁.epoch = s.epoch := by rw [hsame]
      obtain ⟨consensusKey, bond, hbody, hbond, hle, hagg⟩ :=
        doApply_paid_mul_le hkind happly (hepochs.trans hepoch) hB hpaid
      exact ⟨consensusKey, bond, hbody, hbonds ▸ hbond, hle, hagg⟩
  obtain ⟨bond', epoch', hbond', hstatus, hepoch', hmark, hafter⟩ := h.marks hbody hpaid
  obtain rfl := Option.some.inj (hbond.symm.trans hbond')
  obtain rfl := Option.some.inj (hepoch.symm.trans hepoch')
  refine ⟨hagg, ?_⟩
  have hdrop : r.1.unclaimed epoch.epochNumber + (bond.compositeScore.getD 0).toNat ≤
      s.unclaimed epoch.epochNumber := by
    refine Table.total_add_le (k := H.calcValidatorBondID consensusKey) ?_ fun id _ =>
      (h.bondMove id).unclaimed_le
    rw [Table.weightAt_of_lookup hafter, Table.weightAt_of_lookup hbond]
    simp [ValidatorBond.unclaimed, ClaimReward.markClaimed, hstatus, hmark]
  calc r.2.paid * (epoch.aggregateCompositeScore.getD 0).toNat +
        ClaimReward.validatorPoolDrops epoch * r.1.unclaimed epoch.epochNumber
      ≤ ClaimReward.validatorPoolDrops epoch * (bond.compositeScore.getD 0).toNat +
        ClaimReward.validatorPoolDrops epoch * r.1.unclaimed epoch.epochNumber :=
        add_le_add_left hle _
    _ = ClaimReward.validatorPoolDrops epoch *
        (r.1.unclaimed epoch.epochNumber + (bond.compositeScore.getD 0).toNat) := by ring
    _ ≤ _ := mul_le_mul_of_nonneg_left hdrop hB

/-! ### Closing a ledger -/

/-- The close writes scores back. -/
def WritesScores (c : Chain) : Step → Prop
  | .close _ => (windowOf c.parent c.view.seq c.view.rules).isSome = true
  | _ => False

instance (c : Chain) : ∀ st, Decidable (WritesScores c st)
  | .close _ => inferInstanceAs (Decidable (_ = true))
  | .tx .. | .outside .. => inferInstanceAs (Decidable False)

/-- The scores that can be claimed by add up to no more than they are measured against, unless the
sum has been stopped at the largest value. -/
structure Ledger.Measured (s : Ledger) : Prop where
  scoredOnly : Table.All ValidatorBond.ScoredOnly s.bonds
  unclaimed_le : ∀ n e, s.aggregate = some n → s.epochNumber = some e →
    n = 0 ∨ n = 0xFFFFFFFF ∨ s.unclaimed e ≤ n.toNat

theorem Ledger.Measured.of_zero (hs : Table.All ValidatorBond.ScoredOnly s.bonds)
    (hzero : ∀ n, s.aggregate = some n → n = 0) : s.Measured :=
  ⟨hs, fun n _ hn _ => .inl (hzero n hn)⟩

private theorem foldl_aggregate (bonds : List ValidatorBond) (start : UInt32) :
    let r := bonds.foldl (fun aggregate bond =>
      let c := bond.compositeScore.getD 0
      if c ≤ 0xFFFFFFFF - aggregate then aggregate + c else 0xFFFFFFFF) start
    r = 0xFFFFFFFF ∨
      (bonds.map fun bond => ((bond.compositeScore.getD 0).toNat : ℤ)).sum + start.toNat ≤
        r.toNat := by
  induction bonds generalizing start with
  | nil => exact .inr (by simp)
  | cons bond bonds ih =>
    simp only [List.foldl_cons, List.map_cons, List.sum_cons]
    generalize bond.compositeScore.getD 0 = score
    have hstart := start.toNat_lt
    split_ifs with hfits
    · have hadd : (start + score).toNat = start.toNat + score.toNat := by
        rw [UInt32.le_iff_toNat_le, UInt32.toNat_sub] at hfits
        rw [UInt32.toNat_add]
        change _ ≤ (2 ^ 32 - start.toNat + 4294967295) % 2 ^ 32 at hfits
        omega
      refine (ih (start + score)).imp id fun hle => ?_
      rw [hadd] at hle
      push_cast at hle
      omega
    · -- once stopped, the sum stays where it is
      refine .inl ((ih 0xFFFFFFFF).elim id fun hle => UInt32.toNat_inj.mp ?_)
      have hsum : 0 ≤ (bonds.map fun bond => ((bond.compositeScore.getD 0).toNat : ℤ)).sum :=
        List.sum_nonneg fun x hx => by
          obtain ⟨b, -, rfl⟩ := List.mem_map.mp hx
          exact Int.natCast_nonneg _
      have hmax : (0xFFFFFFFF : UInt32).toNat = 4294967295 := rfl
      rw [hmax] at hle ⊢
      generalize List.foldl _ _ bonds = r at hle ⊢
      have hlt := r.toNat_lt
      omega

section WriteBack

variable {f : ValidatorBond → ValidatorBond}
  (hkey : ∀ bond, (f bond).consensusKey = bond.consensusKey)
  (hstatus : ∀ bond, (f bond).bondStatus = bond.bondStatus)

/-- A bond after a write-back is one that has been scored, or one that scoring has left out. -/
private theorem writeBonds_cases {id : AccountID} {bond : ValidatorBond}
    (h : (writeBonds s ((targets s).map fun t => (t.1, f t.2))).bonds.lookup id = some bond) :
    (∃ old, isTarget old = true ∧ bond = f old ∧
      (id, bond) ∈ (targets s).map fun t => (t.1, f t.2)) ∨
      isTarget bond = false ∧ s.bonds.lookup id = some bond := by
  have hkeys : ((targets s).map fun t => (t.1, f t.2)).map Prod.fst = (targets s).map Prod.fst := by
    rw [List.map_map]
    rfl
  by_cases hid : id ∈ (targets s).map Prod.fst
  · obtain ⟨⟨id', old⟩, hmem, hid'⟩ := List.mem_map.mp hid
    obtain rfl : id' = id := hid'
    have hscored : (id', f old) ∈ (targets s).map fun t => (t.1, f t.2) :=
      List.mem_map.mpr ⟨(id', old), hmem, rfl⟩
    rw [lookup_writeBonds s (hkeys ▸ targets_nodup s) hscored] at h
    obtain rfl := Option.some.inj h
    obtain ⟨e, he, heq⟩ := List.mem_map.mp hmem
    have hold : e.2 = old := congrArg Prod.snd heq
    exact .inl ⟨old, hold ▸ (List.mem_filter.mp he).2, rfl, hscored⟩
  · rw [lookup_writeBonds_of_notMem s (hkeys ▸ hid)] at h
    refine .inr ⟨?_, h⟩
    by_contra htarget
    exact hid (List.mem_map.mpr ⟨(id, bond), List.mem_map.mpr ⟨⟨id, bond⟩, List.mem_filter.mpr
      ⟨AList.mem_lookup_iff.mp h, Bool.eq_true_of_not_eq_false htarget⟩, rfl⟩, rfl⟩)

include hkey hstatus

private theorem scoredOnly_writeBonds (hs : Table.All ValidatorBond.ScoredOnly s.bonds) :
    Table.All ValidatorBond.ScoredOnly
      (writeBonds s ((targets s).map fun t => (t.1, f t.2))).bonds := by
  intro id bond hbond
  rcases writeBonds_cases hbond with ⟨old, htarget, rfl, -⟩ | ⟨-, hold⟩
  · simp only [isTarget, Bool.and_eq_true, decide_eq_true_eq] at htarget
    rintro (hregistered | hinvalid)
    · rw [hstatus, htarget.1] at hregistered
      cases hregistered
    · rw [hkey, htarget.2] at hinvalid
      cases hinvalid
  · exact hs id bond hold

omit hkey hstatus in
private theorem unclaimed_writeBonds_le (hs : Table.All ValidatorBond.ScoredOnly s.bonds)
    (e : UInt32) :
    (writeBonds s ((targets s).map fun t => (t.1, f t.2))).unclaimed e ≤
      (((targets s).map fun t => f t.2).map fun bond =>
        ((bond.compositeScore.getD 0).toNat : ℤ)).sum := by
  have hsum := Table.total_le_sum (ValidatorBond.unclaimed_nonneg e)
    (t := (writeBonds s ((targets s).map fun t => (t.1, f t.2))).bonds)
    (l := (targets s).map fun t => (t.1, f t.2)) fun id bond hbond => by
      rcases writeBonds_cases hbond with ⟨-, -, -, hmem⟩ | ⟨hno, hold⟩
      · exact .inr hmem
      · refine .inl ?_
        have hzero := hs id bond hold
        rw [ValidatorBond.unclaimed]
        split_ifs with hlive
        · rw [hzero ?_]
          · rfl
          · simp only [isTarget, Bool.and_eq_false_iff, decide_eq_false_iff_not] at hno
            refine hno.imp (fun hbonded => ?_) fun h => h
            cases hstatus : bond.bondStatus with
            | registered => rfl
            | bonded => exact absurd hstatus hbonded
            | unbonding => exact absurd hstatus hlive.1
        · rfl
  refine hsum.trans ?_
  simp only [List.map_map]
  exact List.sum_le_sum fun t _ => ValidatorBond.unclaimed_le e (f t.2)

end WriteBack

/-- A write-back leaves a ledger measured. -/
private theorem measured_applyValidatorScoring {store : Validations} {parent : Ledger}
    {seq : UInt32} {rules : Rules} (hs : Table.All ValidatorBond.ScoredOnly s.bonds)
    (hwrites : (windowOf parent seq rules).isSome = true) :
    (applyValidatorScoring H.toHashes store s parent seq rules).Measured := by
  obtain ⟨ledgerAncestors, hwindow⟩ := Option.isSome_iff_exists.mp hwrites
  unfold applyValidatorScoring
  rw [hwindow]
  let score := fun bond =>
    scoreBond (statsFor H.toHashes (windowStats H.toHashes store seq ledgerAncestors (targets s)) bond)
      seq bond
  refine ⟨scoredOnly_writeBonds (f := score) (fun _ => rfl) (fun _ => rfl) hs, fun n e hn he => ?_⟩
  simp only [aggregate, Option.map_map, Option.map_eq_some_iff, Function.comp_apply,
    getD_unlessZero] at hn
  obtain ⟨epoch, -, rfl⟩ := hn
  refine (foldl_aggregate _ 0).imp_right ?_ |> .inr
  intro hle
  refine le_trans (unclaimed_writeBonds_le (f := score) hs e) ?_
  simpa [List.map_map, Function.comp_def, sumAggregateComposites] using hle

/-- Scoring alone writes bonds and the sum of scores when a ledger closes. -/
theorem Chain.scores_close (H : Services) (c : Chain) (store : Validations) :
    let s₁ := applyRewardEpoch H.toHashes c.view c.view.seq c.view.rules
    let s₂ := applyValidatorScoring H.toHashes store s₁ c.parent c.view.seq c.view.rules
    (c.step H (.close store)).1.view.bonds = s₂.bonds ∧
      (c.step H (.close store)).1.view.aggregate = s₂.aggregate ∧
      (c.step H (.close store)).1.view.epochNumber = s₂.epochNumber := by
  intro s₁ s₂
  let s₃ := applyGovernanceTally s₂ c.view.seq c.view.rules (proposalKeys s₂)
  have hbonds : s₃.bonds = s₂.bonds ∧ s₃.epoch = s₂.epoch := by
    simp only [s₃]
    rw [applyGovernanceTally_eq]
    exact ⟨rfl, rfl⟩
  have hprune : (pruneProposals s₃ (proposalKeys s₂)).bonds = s₃.bonds ∧
      (pruneProposals s₃ (proposalKeys s₂)).aggregate = s₃.aggregate ∧
      (pruneProposals s₃ (proposalKeys s₂)).epochNumber = s₃.epochNumber := by
    simp only [pruneProposals]
    split_ifs
    · exact ⟨rfl, rfl, rfl⟩
    · refine ⟨rfl, ?_, ?_⟩
      · simp only [aggregate, Option.map_map]
        rfl
      · simp only [epochNumber, Option.map_map]
        rfl
  refine ⟨hprune.1.trans hbonds.1, hprune.2.1.trans ?_, hprune.2.2.trans ?_⟩
  · simp only [aggregate, hbonds.2]
  · simp only [epochNumber, hbonds.2]

theorem Ledger.Measured.of_eq {s s' : Ledger} (h : s.Measured) (hbonds : s'.bonds = s.bonds)
    (haggregate : s'.aggregate = s.aggregate) (hepoch : s'.epochNumber = s.epochNumber) :
    s'.Measured := by
  refine ⟨hbonds ▸ h.scoredOnly, fun n e hn he => ?_⟩
  rw [Ledger.unclaimed, hbonds]
  exact h.unclaimed_le n e (haggregate ▸ hn) (hepoch ▸ he)

private theorem bonds_applyRewardEpoch (s : Ledger) (seq : UInt32) (rules : Rules) :
    (applyRewardEpoch H.toHashes s seq rules).bonds = s.bonds := by
  unfold applyRewardEpoch
  split_ifs <;> rfl

/-- The close that starts an epoch leaves the ledger measured. -/
theorem Chain.measured_rolledOver {c : Chain} (hroll : c.rollsOver H = true) (store : Validations)
    (hs : Table.All ValidatorBond.ScoredOnly c.view.bonds) : (c.rolledOver H store).view.Measured := by
  obtain ⟨hbonds, haggregate, hepoch⟩ := Chain.scores_close H c store
  have hs₁ := bonds_applyRewardEpoch (H := H) c.view c.view.seq c.view.rules ▸ hs
  refine Ledger.Measured.of_eq ?_ hbonds haggregate hepoch
  by_cases hwrites : (windowOf c.parent c.view.seq c.view.rules).isSome = true
  · exact measured_applyValidatorScoring hs₁ hwrites
  · rw [Option.not_isSome_iff_eq_none] at hwrites
    rw [applyValidatorScoring, hwrites, applyRewardEpoch_of_rollsOver hroll]
    refine .of_zero hs fun n hn => ?_
    simpa [aggregate, RewardEpoch.newEpoch] using hn.symm

/-- Every step within the epoch leaves a measured ledger measured. -/
theorem Chain.measured_step {c : Chain} {st : Step} (hstay : StaysInEpoch H c st)
    (h : c.view.Measured) : (c.step H st).1.view.Measured := by
  have hnumber : (c.step H st).1.view.epochNumber = c.view.epochNumber :=
    map_epoch_of_fixedTerms RewardEpoch.epochNumber (fun _ => rfl) (c.poolStep st hstay).terms
  cases st with
  | tx flags tx =>
    have hout := applyTransaction_outcome H flags c.view tx
    refine ⟨hout.scoredOnly h.scoredOnly, fun n e hn he => ?_⟩
    refine (h.unclaimed_le n e (hout.aggregate_eq ▸ hn) (hnumber ▸ he)).imp_right ?_
    exact Or.imp_right (hout.unclaimed_le e).trans
  | outside accounts holdings => exact h.of_eq rfl rfl rfl
  | close store =>
    obtain ⟨hbonds, haggregate, hepoch⟩ := Chain.scores_close H c store
    rw [applyRewardEpoch_of_not hstay] at hbonds haggregate hepoch
    refine Ledger.Measured.of_eq ?_ hbonds haggregate hepoch
    by_cases hwrites : (windowOf c.parent c.view.seq c.view.rules).isSome = true
    · exact measured_applyValidatorScoring h.scoredOnly hwrites
    · rw [Option.not_isSome_iff_eq_none] at hwrites
      rw [applyValidatorScoring, hwrites]
      exact h

/-! ### Runs -/

/-- The scores that can be claimed by fit 32 bits. -/
def ScoresFit (c : Chain) (_ : Step) : Prop :=
  c.view.epochNumber.elim 0 c.view.unclaimed < 2 ^ 32

/-- The step pays a validator. -/
def PaysValidator (H : Services) (c : Chain) (st : Step) : Prop :=
  0 < Event.paidBy STTx.isClaimReward (c.step H st).2

instance (c : Chain) (st : Step) : Decidable (ScoresFit c st) := inferInstanceAs (Decidable (_ < _))

instance (H : Services) (c : Chain) (st : Step) : Decidable (PaysValidator H c st) :=
  inferInstanceAs (Decidable (_ < _))

theorem paidBy_nonneg (c : Chain) (st : Step) :
    0 ≤ Event.paidBy STTx.isClaimReward (c.step H st).2 := by
  cases st with
  | tx flags tx =>
    have hpaid := (applyTransaction_outcome H flags c.view tx).poolStep.paid_nonneg
    simp only [Chain.step, Event.paidBy]
    split_ifs
    · exact hpaid
    · exact le_rfl
  | close store => exact le_rfl
  | outside accounts holdings => exact le_rfl

/-- What a step pays by the present sum of scores, it takes out of what can be claimed. -/
theorem Chain.paid_mul_le {c : Chain} {st : Step} (hstay : StaysInEpoch H c st)
    (hkeep : ¬WritesScores c st) {epoch : RewardEpoch} (hepoch : c.view.epoch = some epoch)
    (hB : 0 ≤ ClaimReward.validatorPoolDrops epoch) :
    Event.paidBy STTx.isClaimReward (c.step H st).2 *
          (epoch.aggregateCompositeScore.getD 0).toNat +
        ClaimReward.validatorPoolDrops epoch * (c.step H st).1.view.unclaimed epoch.epochNumber ≤
      ClaimReward.validatorPoolDrops epoch * c.view.unclaimed epoch.epochNumber := by
  have hsame : ∀ s' : Ledger, s'.bonds = c.view.bonds →
      0 * ((epoch.aggregateCompositeScore.getD 0).toNat : ℤ) +
          ClaimReward.validatorPoolDrops epoch * s'.unclaimed epoch.epochNumber ≤
        ClaimReward.validatorPoolDrops epoch * c.view.unclaimed epoch.epochNumber :=
    fun s' hbonds => by
      rw [Ledger.unclaimed, hbonds, zero_mul, zero_add]
      exact le_rfl
  cases st with
  | tx flags tx =>
    have hout := applyTransaction_outcome H flags c.view tx
    rcases (paidBy_nonneg (H := H) c (.tx flags tx)).eq_or_lt with hzero | hpos
    · rw [← hzero, zero_mul, zero_add]
      exact mul_le_mul_of_nonneg_left (hout.unclaimed_le _) hB
    · have hkind : tx.isClaimReward = true := by
        by_contra hno
        simp [Chain.step, Event.paidBy, hno] at hpos
      simp only [Chain.step, Event.paidBy, hkind, if_true] at hpos ⊢
      exact (hout.paid_mul_le hkind hepoch hB hpos).2
  | outside accounts holdings => exact hsame _ rfl
  | close store =>
    refine hsame _ ?_
    obtain ⟨hbonds, -, -⟩ := Chain.scores_close H c store
    rw [applyRewardEpoch_of_not hstay] at hbonds
    have hnone := Option.not_isSome_iff_eq_none.mp hkeep
    rw [applyValidatorScoring, hnone] at hbonds
    exact hbonds

theorem Chain.aggregate_step {c : Chain} {st : Step} (hstay : StaysInEpoch H c st)
    (hkeep : ¬WritesScores c st) : (c.step H st).1.view.aggregate = c.view.aggregate := by
  cases st with
  | tx flags tx => exact (applyTransaction_outcome H flags c.view tx).aggregate_eq
  | outside accounts holdings => rfl
  | close store =>
    obtain ⟨-, haggregate, -⟩ := Chain.scores_close H c store
    rw [applyRewardEpoch_of_not hstay] at haggregate
    rw [applyValidatorScoring, Option.not_isSome_iff_eq_none.mp hkeep] at haggregate
    exact haggregate

/-- **What validators are paid under one sum of scores** is at most the basket's part for the scores
that could be claimed by. -/
theorem sum_paid_mul_le {c : Chain} {steps : List Step} {epoch : RewardEpoch}
    (hepoch : c.view.epoch = some epoch) (hB : 0 ≤ ClaimReward.validatorPoolDrops epoch)
    (hstay : Run.Always (Chain.step H) (StaysInEpoch H) c steps)
    (hkeep : Run.Always (Chain.step H) (fun c st => ¬WritesScores c st) c steps) :
    ((Run.outputs (Chain.step H) c steps).map (Event.paidBy STTx.isClaimReward)).sum *
        (epoch.aggregateCompositeScore.getD 0).toNat ≤
      ClaimReward.validatorPoolDrops epoch * c.view.unclaimed epoch.epochNumber := by
  induction steps generalizing c epoch with
  | nil =>
    rw [Run.outputs_nil, List.map_nil, List.sum_nil, zero_mul]
    exact mul_nonneg hB (Table.total_nonneg (ValidatorBond.unclaimed_nonneg _))
  | cons st steps ih =>
    have hhead := c.paid_mul_le hstay.1 hkeep.1 hepoch hB
    -- the epoch object keeps its number, its basket and its sum of scores
    have hterms := (c.poolStep st hstay.1).terms
    have hbasket := map_epoch_of_fixedTerms ClaimReward.validatorPoolDrops (fun _ => rfl) hterms
    have hnumber := map_epoch_of_fixedTerms RewardEpoch.epochNumber (fun _ => rfl) hterms
    have haggregate := Chain.aggregate_step hstay.1 hkeep.1
    rw [hepoch, Option.map_some, Option.map_eq_some_iff] at hbasket hnumber
    obtain ⟨epoch', hepoch', hbasket⟩ := hbasket
    obtain ⟨_, heq, hnumber⟩ := hnumber
    obtain rfl := Option.some.inj (hepoch'.symm.trans heq)
    rw [Ledger.aggregate, Ledger.aggregate, hepoch, hepoch', Option.map_some, Option.map_some] at haggregate
    have htail := ih hepoch' (hbasket ▸ hB) hstay.2 hkeep.2
    rw [hbasket, hnumber, Option.some.inj haggregate] at htail
    rw [Run.outputs_cons, List.map_cons, List.sum_cons, add_mul]
    linarith

/-- **Validators are paid at most their basket** when no scores are written back after the first of
them has been paid. -/
theorem sum_paid_le {c : Chain} {steps : List Step} {epoch : RewardEpoch}
    (hepoch : c.view.epoch = some epoch) (hB : 0 ≤ ClaimReward.validatorPoolDrops epoch)
    (hmeasured : c.view.Measured) (hstay : Run.Always (Chain.step H) (StaysInEpoch H) c steps)
    (hfit : Run.Always (Chain.step H) ScoresFit c steps)
    (hkeep : Run.Since (Chain.step H) (PaysValidator H) (fun c st => ¬WritesScores c st) c steps) :
    ((Run.outputs (Chain.step H) c steps).map (Event.paidBy STTx.isClaimReward)).sum ≤
      ClaimReward.validatorPoolDrops epoch := by
  induction steps generalizing c epoch with
  | nil => exact hB
  | cons st steps ih =>
    by_cases hpays : PaysValidator H c st
    · -- from here on one sum of scores is in force
      obtain ⟨flags, tx, rfl⟩ : ∃ flags tx, st = .tx flags tx := by
        cases st with
        | tx flags tx => exact ⟨flags, tx, rfl⟩
        | close store => exact absurd hpays (lt_irrefl 0)
        | outside accounts holdings => exact absurd hpays (lt_irrefl 0)
      have hsum := sum_paid_mul_le hepoch hB hstay ⟨id, hkeep.1 hpays⟩
      have hnonzero : epoch.aggregateCompositeScore.getD 0 ≠ 0 := by
        have hkind : tx.isClaimReward = true := by
          by_contra hno
          simp [PaysValidator, Chain.step, Event.paidBy, hno] at hpays
        simp only [PaysValidator, Chain.step, Event.paidBy, hkind, if_true] at hpays
        exact ((applyTransaction_outcome H flags c.view tx).paid_mul_le hkind hepoch hB hpays).1
      have hle : c.view.unclaimed epoch.epochNumber ≤
          (epoch.aggregateCompositeScore.getD 0).toNat := by
        have hnow := hfit.1
        rw [ScoresFit, Ledger.epochNumber, hepoch, Option.map_some, Option.elim_some] at hnow
        have hcases := hmeasured.unclaimed_le _ _ (congrArg (Option.map _) hepoch)
          (congrArg (Option.map _) hepoch)
        rcases hcases with hzero | hmax | hle
        · exact absurd hzero hnonzero
        · rw [show epoch.aggregateCompositeScore.getD 0 = 0xFFFFFFFF from hmax]
          exact Int.le_of_lt_add_one hnow
        · exact hle
      have hpos : (0 : ℤ) < (epoch.aggregateCompositeScore.getD 0).toNat := by
        have : (epoch.aggregateCompositeScore.getD 0).toNat ≠ 0 := fun hz =>
          hnonzero (UInt32.toNat_inj.mp hz)
        omega
      exact le_of_mul_le_mul_right (hsum.trans (mul_le_mul_of_nonneg_left hle hB)) hpos
    · have hzero : Event.paidBy STTx.isClaimReward (c.step H st).2 = 0 :=
        le_antisymm (not_lt.mp hpays) (paidBy_nonneg c st)
      have hbasket := map_epoch_of_fixedTerms ClaimReward.validatorPoolDrops (fun _ => rfl)
        (c.poolStep st hstay.1).terms
      rw [hepoch, Option.map_some, Option.map_eq_some_iff] at hbasket
      obtain ⟨epoch', hepoch', hbasket⟩ := hbasket
      have htail := ih hepoch' (hbasket ▸ hB) (Chain.measured_step hstay.1 hmeasured) hstay.2
        hfit.2 hkeep.2
      rw [Run.outputs_cons, List.map_cons, List.sum_cons, hzero, zero_add, ← hbasket]
      exact htail

end FalconLedger
