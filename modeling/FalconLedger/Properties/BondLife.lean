import FalconLedger.Properties.EpochPool

/-!
# The life of a bond

What a step of a chain can do to the table of bonds: a transaction makes one of the moves listed in
`BondMove`, and a close rewrites scores only (`ValidatorBond.standing`). The mark that stops a
second claim in an epoch is lost when a key is registered again; no key is paid twice all the same,
as releasing takes longer than an epoch (`claimReward_once_run`).
-/

namespace FalconLedger

open Transactor Ledger BuildLedger ValidatorScoring

/-- A bond without its scores. -/
def ValidatorBond.standing (bond : ValidatorBond) : ValidatorBond :=
  { bond with
    uptimeBps := none
    voteAccuracyBps := none
    latencyScoreBps := none
    consistencyBps := none
    compositeScore := none
    previousTxnLgrSeq := 0 }

/-- The bond under an id, without its scores. -/
def Ledger.standing (s : Ledger) (id : AccountID) : Option ValidatorBond :=
  (s.bonds.lookup id).map ValidatorBond.standing

variable {H : Services} {s s' : Ledger} {tx : STTx} {a : Applied}

theorem Ledger.standing_of_lookup {id : AccountID} {bond : ValidatorBond}
    (h : s.bonds.lookup id = some bond) : s.standing id = some bond.standing := by
  rw [Ledger.standing, h, Option.map_some]

/-! ### Transactions -/

/-- What a transaction can do to the bond under `id`: the bond there is afterwards. -/
inductive BondMove (H : Services) (s : Ledger) (tx : STTx) (id : AccountID) :
    Option ValidatorBond → Prop
  | same : BondMove H s tx id (s.bonds.lookup id)
  | register {publicKey consensusKey : Blob} {page : UInt64}
      (hbody : tx.body = .validatorRegister publicKey consensusKey)
      (hid : H.calcValidatorBondID consensusKey = id) (hnew : s.bonds.lookup id = none) :
      BondMove H s tx id
        (some (ValidatorRegister.newBond s.seq tx publicKey consensusKey page))
  | bond {consensusKey : Blob} {bondedAmount : Int} {bond : ValidatorBond}
      (hbody : tx.body = .validatorBond consensusKey bondedAmount)
      (hid : H.calcValidatorBondID consensusKey = id) (hbond : s.bonds.lookup id = some bond)
      (howner : bond.account = tx.account) (hstatus : bond.bondStatus = .registered)
      (hamount : kQxrpMinBondDrops ≤ bondedAmount) :
      BondMove H s tx id
        (some
          { bond with
            bondedAmount
            bondStatus := .bonded
            previousTxnID := tx.transactionID
            previousTxnLgrSeq := s.seq })
  | unbond {consensusKey : Blob} {bond : ValidatorBond}
      (hbody : tx.body = .validatorUnbond consensusKey)
      (hid : H.calcValidatorBondID consensusKey = id) (hbond : s.bonds.lookup id = some bond)
      (howner : bond.account = tx.account) (hstatus : bond.bondStatus = .bonded) :
      BondMove H s tx id
        (some
          { bond with
            bondStatus := .unbonding
            unbondingStartLedger := some s.seq
            previousTxnID := tx.transactionID
            previousTxnLgrSeq := s.seq })
  | slash {offense : UInt32} {e1 e2 : Option Blob} {bond : ValidatorBond}
      (hbody : tx.body = .validatorSlash id offense e1 e2) (hbond : s.bonds.lookup id = some bond)
      (hstatus : bond.bondStatus ≠ .unbonding)
      (hevidence : ValidatorSlash.verifyDoubleSignEvidence H (e1.getD []) (e2.getD []) id bond =
        true) :
      BondMove H s tx id (some (ValidatorSlash.slashedBond s.seq tx bond))
  | release {bond : ValidatorBond} (hbody : tx.body = .releaseBond id)
      (hbond : s.bonds.lookup id = some bond) (hstatus : bond.bondStatus = .unbonding)
      (hdue : bond.unbondingStartLedger.getD 0 + kUnbondingLockLedgers ≤ s.seq) :
      BondMove H s tx id none
  | claim {consensusKey : Blob} {bond : ValidatorBond} {epoch : RewardEpoch}
      (hbody : tx.body = .claimReward consensusKey)
      (hid : H.calcValidatorBondID consensusKey = id) (hbond : s.bonds.lookup id = some bond)
      (hstatus : bond.bondStatus = .bonded) (hepoch : s.epoch = some epoch)
      (hmark : bond.lastClaimedEpoch.getD 0 < epoch.epochNumber) :
      BondMove H s tx id (some (ClaimReward.markClaimed s.seq tx epoch bond))

private theorem settleLpClaim_bonds {epoch : RewardEpoch} {key : UInt256} {share : ℕ}
    (h : settleLpClaim H s tx epoch key share = .ok a) : a.view.bonds = s.bonds := by
  rcases settleLpClaim_ok h with ⟨-, rfl⟩ | ⟨-, s₁, pay, hpay, rfl⟩
  · rfl
  · obtain ⟨_, _, -, -, -, -, -, rfl⟩ := payClaim_ok hpay
    rfl

/-- Every successful `doApply` that follows its checks makes one of the moves. -/
theorem doApply_bondMove {s₁ : Ledger} (hflight : preflight s.rules tx.body = .ok ())
    (hclaim : preclaim H s tx = .ok ()) (hsame : SameButAccounts s s₁)
    (h : doApply H s₁ tx = .ok a) (id : AccountID) :
    BondMove H s tx id (a.view.bonds.lookup id) := by
  have hbonds : s₁.bonds = s.bonds := by rw [hsame]
  have hseq : s₁.seq = s.seq := by rw [hsame]
  have hepochs : s₁.epoch = s.epoch := by rw [hsame]
  have hkeep : a.view.bonds = s₁.bonds → BondMove H s tx id (a.view.bonds.lookup id) :=
    fun heq => by
      rw [heq, hbonds]
      exact .same
  -- of the bonds other than the one that is written nothing changes
  have hwrite : ∀ {id' bond}, BondMove H s tx id' (some bond) →
      BondMove H s tx id ((s.bonds.insert id' bond).lookup id) := fun {id' bond} hmove => by
    by_cases hid : id = id'
    · rw [hid, AList.lookup_insert]
      exact hmove
    · rw [AList.lookup_insert_ne hid]
      exact .same
  unfold doApply at h
  split at h <;> rename_i hbody <;>
    simp only [preclaim, preflight, hbody] at hclaim hflight
  · obtain ⟨page, s₂, root, hadded, -, hnew, rfl⟩ := ValidatorRegister.doApply_ok h
    have hbonds₂ : s₂.bonds = s.bonds := by rw [hadded.same, hbonds]
    simp only [setAccount, setBond, hbonds₂, hseq]
    exact hwrite (.register hbody rfl (hbonds ▸ hnew))
  · obtain ⟨root, bond, -, hbond, -, rfl⟩ := ValidatorBond.doApply_ok h
    rw [hbonds] at hbond
    simp only [ValidatorBond.preclaim, ValidatorBond.preflight, Except.bind_eq_ok, orFail_eq_ok,
      failIf_eq_ok, not_not, not_lt, hbond, Option.some.injEq] at hclaim hflight
    obtain ⟨_, rfl, -, howner, hstatus⟩ := hclaim
    obtain ⟨-, -, -, -, -, -, hamount⟩ := hflight
    simp only [setAccount, setBond, hbonds, hseq]
    exact hwrite (.bond hbody rfl hbond howner hstatus hamount)
  · obtain ⟨bond, hbond, rfl⟩ := ValidatorUnbond.doApply_ok h
    rw [hbonds] at hbond
    simp only [ValidatorUnbond.preclaim, Except.bind_eq_ok, orFail_eq_ok, failIf_eq_ok, not_not,
      hbond, Option.some.injEq] at hclaim
    obtain ⟨_, rfl, -, howner, hstatus⟩ := hclaim
    simp only [setBond, hbonds, hseq]
    exact hwrite (.unbond hbody rfl hbond howner hstatus)
  · obtain ⟨bond, hbond, rfl⟩ := ValidatorSlash.doApply_ok h
    rw [hbonds] at hbond
    simp only [ValidatorSlash.preclaim, Except.bind_eq_ok, orFail_eq_ok, failIf_eq_ok, hbond,
      Option.some.injEq] at hclaim
    obtain ⟨_, rfl, -, hstatus, -, -, hevidence⟩ := hclaim
    simp only [setBond, rawDestroyXRP, hbonds, hseq]
    exact hwrite (.slash hbody hbond hstatus (by simpa using hevidence))
  · rename_i target
    obtain ⟨bond, root, s₂, hremoved, hbond, -, rfl⟩ := ReleaseBond.doApply_ok h
    rw [hbonds] at hbond
    simp only [ReleaseBond.preclaim, Except.bind_eq_ok, orFail_eq_ok, failIf_eq_ok, not_not, hbond,
      Option.some.injEq] at hclaim
    obtain ⟨_, rfl, -, hstatus, hdue⟩ := hclaim
    simp only [hbonds]
    by_cases hid : id = target
    · subst hid
      rw [AList.lookup_erase]
      exact .release hbody hbond hstatus (UInt32.not_lt.mp hdue)
    · rw [AList.lookup_erase_ne hid]
      exact .same
  · obtain ⟨bond, epoch, hbond, hepoch, hmark, -, ⟨-, rfl⟩ | ⟨-, s₂, pay, hpay, rfl⟩⟩ :=
      ClaimReward.doApply_ok h
    · exact hkeep rfl
    · rw [hbonds] at hbond
      rw [hepochs] at hepoch
      simp only [ClaimReward.preclaim, Except.bind_eq_ok, orFail_eq_ok, failIf_eq_ok, not_not,
        hbond, Option.some.injEq] at hclaim
      obtain ⟨_, rfl, -, -, -, hstatus, -⟩ := hclaim
      obtain ⟨_, _, -, -, -, -, -, rfl⟩ := payClaim_ok hpay
      simp only [setBond, payOut, setAccount, hbonds, hseq]
      exact hwrite (.claim hbody rfl hbond hstatus hepoch hmark)
  · obtain ⟨_, epoch, _, -, -, -, -, hset⟩ := ClaimLPReward.doApply_ok h
    exact hkeep (settleLpClaim_bonds hset)
  · obtain ⟨_, epoch, -, -, -, -, hset⟩ := ClaimAmmLpReward.doApply_ok h
    exact hkeep (settleLpClaim_bonds hset)
  · obtain ⟨_, _, s₂, _, -, hadded, -, -, -, rfl⟩ := NameSet.doApply_ok h
    exact hkeep hadded.same.bonds
  · obtain ⟨_, _, -, -, rfl⟩ := NameUnbond.doApply_ok h
    exact hkeep rfl
  · obtain ⟨_, _, _, s₂, -, hremoved, -, -, rfl⟩ := NameRelease.doApply_ok h
    exact hkeep hremoved.same.bonds
  · obtain ⟨_, s₂, _, hadded, -, -, rfl⟩ := GovernanceProposal.doApply_ok h
    exact hkeep hadded.same.bonds
  · obtain ⟨_, _, -, -, rfl⟩ := GovernanceVote.doApply_ok h
    exact hkeep rfl

/-- **Every transaction makes one of the moves.** -/
theorem Transactor.Outcome.bondMove {r : Ledger × Receipt} (h : Outcome H s tx r)
    (id : AccountID) : BondMove H s tx id (r.1.bonds.lookup id) := by
  cases h with
  | unapplied => exact .same
  | @feeOnly view feeIn fee ter hreset =>
    have hbonds : (ApplyContext.destroyXRP H.toHashes view fee).bonds = s.bonds := by
      rw [ApplyContext.destroyXRP_eq, (reset_ok hreset).same]
    rw [hbonds]
    exact .same
  | @success s₁ a hflight hclaim hcharge happly =>
    have hcharged := charge_ok hcharge (account_ne_none_of_preclaim hclaim)
    rw [ApplyContext.destroyXRP_eq]
    exact doApply_bondMove (preflight_of_invokePreflight hflight)
      (preclaim_of_invokePreclaim hclaim) hcharged.same happly id

/-! ### Closing a ledger -/

private theorem standing_writeBonds {scored : List (AccountID × ValidatorBond)} (s : Ledger)
    (hkeep : ∀ t ∈ scored, s.standing t.1 = some t.2.standing)
    (hnodup : (scored.map Prod.fst).Nodup) (id : AccountID) :
    (writeBonds s scored).standing id = s.standing id := by
  by_cases hid : id ∈ scored.map Prod.fst
  · obtain ⟨t, ht, rfl⟩ := List.mem_map.mp hid
    rw [hkeep t ht, Ledger.standing, lookup_writeBonds s hnodup ht, Option.map_some]
  · rw [Ledger.standing, lookup_writeBonds_of_notMem s hid, Ledger.standing]

theorem standing_applyValidatorScoring (H : Hashes) (store : Validations) (s parent : Ledger)
    (seq : UInt32) (rules : Rules) (id : AccountID) :
    (applyValidatorScoring H store s parent seq rules).standing id = s.standing id := by
  unfold applyValidatorScoring
  split
  · rfl
  · refine standing_writeBonds s (fun t ht => ?_) ?_ id
    · obtain ⟨⟨id, bond⟩, hmem, rfl⟩ := List.mem_map.mp ht
      rw [Ledger.standing, lookup_of_mem_targets hmem]
      rfl
    · rw [List.map_map]
      exact targets_nodup s

theorem Chain.standing_close (H : Services) (c : Chain) (store : Validations) (id : AccountID) :
    (c.step H (.close store)).1.view.standing id = c.view.standing id := by
  let s₁ := applyRewardEpoch H.toHashes c.view c.view.seq c.view.rules
  let s₂ := applyValidatorScoring H.toHashes store s₁ c.parent c.view.seq c.view.rules
  let s₃ := applyGovernanceTally s₂ c.view.seq c.view.rules (proposalKeys s₂)
  have hroll : s₁.bonds = c.view.bonds := by
    simp only [s₁, applyRewardEpoch]
    split_ifs <;> rfl
  have htally : s₃.bonds = s₂.bonds := by
    simp only [s₃]
    rw [applyGovernanceTally_eq]
  have hprune : (pruneProposals s₃ (proposalKeys s₂)).bonds = s₃.bonds := by
    simp only [pruneProposals]
    split_ifs <;> rfl
  have hafter : (c.step H (.close store)).1.view.bonds = s₂.bonds := hprune.trans htally
  have hscored := standing_applyValidatorScoring H.toHashes store s₁ c.parent c.view.seq
    c.view.rules id
  simp only [Ledger.standing, hafter, ← hroll] at hscored ⊢
  exact hscored

/-! ### One payout for a key and an epoch -/

/-- The number of the current epoch. -/
def Ledger.epochNumber (s : Ledger) : Option UInt32 := s.epoch.map RewardEpoch.epochNumber

/-- The step pays a reward of epoch `e` to a consensus key. -/
def PaysReward (H : Services) (consensusKey : Blob) (e : UInt32) (c : Chain) : Step → Prop
  | .tx flags tx => tx.body = .claimReward consensusKey ∧ c.view.epochNumber = some e ∧
      0 < (applyTransaction H flags c.view tx).2.paid
  | _ => False

instance (H : Services) (consensusKey : Blob) (e : UInt32) (c : Chain) :
    ∀ st, Decidable (PaysReward H consensusKey e c st)
  | .tx .. => inferInstanceAs (Decidable (_ ∧ _))
  | .close _ | .outside .. => inferInstanceAs (Decidable False)

/-- The open ledger is one of the epoch object's epoch. -/
def Ledger.InEpoch (s : Ledger) : Prop :=
  ∀ n, s.epochNumber = some n → n.toNat * kQxrpLedgersPerEpoch.toNat < s.seq.toNat ∧
    s.seq.toNat ≤ (n.toNat + 1) * kQxrpLedgersPerEpoch.toNat

/-- The sequence number is below `2 ^ 32` by more than the unbonding lock, and the close of the
last ledger of an epoch starts the next one. -/
def OnSchedule (H : Services) (c : Chain) (st : Step) : Prop :=
  c.view.seq.toNat + kUnbondingLockLedgers.toNat < 2 ^ 32 ∧
    (st.isClose = true → c.view.seq ≠ 0 → c.view.seq % kQxrpLedgersPerEpoch = 0 →
      c.rollsOver H = true)

instance (H : Services) (c : Chain) (st : Step) : Decidable (OnSchedule H c st) :=
  inferInstanceAs (Decidable (_ ∧ _))

/-- The bond is marked with the epoch, or a later one; and if it is unbonding, that has begun
after the start of the epoch and not later than now. -/
structure ValidatorBond.ClaimedIn (e now : UInt32) (bond : ValidatorBond) : Prop where
  mark : e ≤ bond.lastClaimedEpoch.getD 0
  leaving : bond.bondStatus = .unbonding →
    e.toNat * kQxrpLedgersPerEpoch.toNat < (bond.unbondingStartLedger.getD 0).toNat ∧
      (bond.unbondingStartLedger.getD 0).toNat ≤ now.toNat

/-- Epoch `e` is over for the bond under `id`: it is a later epoch, or the bond is marked. -/
def Ledger.ClaimOver (s : Ledger) (id : AccountID) (e : UInt32) : Prop :=
  ∃ n, s.epochNumber = some n ∧
    (e < n ∨ n = e ∧ ∃ bond, s.standing id = some bond ∧ bond.ClaimedIn e s.seq)

private theorem epochNumber_of_fixedTerms (h : s'.fixedTerms = s.fixedTerms) :
    s'.epochNumber = s.epochNumber :=
  map_epoch_of_fixedTerms RewardEpoch.epochNumber (fun _ => rfl) h

private theorem Chain.epochNumber_step {c : Chain} {st : Step} (h : StaysInEpoch H c st) :
    (c.step H st).1.view.epochNumber = c.view.epochNumber :=
  epochNumber_of_fixedTerms (c.poolStep st h).terms

theorem Chain.seq_close (H : Services) (c : Chain) (store : Validations) :
    (c.step H (.close store)).1.view.seq = c.view.seq + 1 := by
  have hroll : (applyRewardEpoch H.toHashes c.view c.view.seq c.view.rules).seq = c.view.seq := by
    unfold applyRewardEpoch
    split_ifs <;> rfl
  have hsame := (closeHooks_sameButScores H.toHashes store c.parent c.view c.view.seq
    c.view.rules).same
  rw [view_close, openNext, closed, updateSkipList, hsame]
  exact congrArg (· + 1) hroll

theorem Chain.toNat_seq_close {c : Chain} (h : c.view.seq.toNat + 1 < 2 ^ 32)
    (store : Validations) :
    (c.step H (.close store)).1.view.seq.toNat = c.view.seq.toNat + 1 := by
  rw [Chain.seq_close, UInt32.toNat_add]
  exact Nat.mod_eq_of_lt h

/-- No step turns the sequence number back before it wraps around. -/
theorem Chain.seq_le_step {c : Chain} {st : Step}
    (h : st.isClose = true → c.view.seq.toNat + 1 < 2 ^ 32) :
    c.view.seq.toNat ≤ (c.step H st).1.view.seq.toNat := by
  cases st with
  | tx flags tx =>
    have hheader := (applyTransaction_outcome H flags c.view tx).header
    exact le_of_eq (congrArg UInt32.toNat hheader.1.symm)
  | outside accounts holdings => exact le_rfl
  | close store =>
    rw [Chain.toNat_seq_close (h rfl)]
    exact Nat.le_succ _

private theorem Chain.epochNumber_close {c : Chain} {store : Validations}
    (h : OnSchedule H c (.close store)) :
    (c.view.seq.toNat ≠ 0 ∧ c.view.seq.toNat % kQxrpLedgersPerEpoch.toNat = 0 ∧
      (c.step H (.close store)).1.view.epochNumber = some (c.view.seq / kQxrpLedgersPerEpoch)) ∨
    ((c.view.seq.toNat = 0 ∨ c.view.seq.toNat % kQxrpLedgersPerEpoch.toNat ≠ 0) ∧
      (c.step H (.close store)).1.view.epochNumber = c.view.epochNumber) := by
  rcases hroll : c.rollsOver H with _ | _
  · refine .inr ⟨?_, Chain.epochNumber_step hroll⟩
    by_contra hcon
    rw [not_or, not_not] at hcon
    have hzero : c.view.seq ≠ 0 := fun h0 => hcon.1 (by rw [h0]; rfl)
    have hmod : c.view.seq % kQxrpLedgersPerEpoch = 0 := UInt32.toNat_inj.mp hcon.2
    rw [h.2 rfl hzero hmod] at hroll
    cases hroll
  · have hfresh := hroll
    simp only [Chain.rollsOver, RewardEpoch.rollsOver, Bool.and_eq_true, decide_eq_true_eq] at hfresh
    obtain ⟨⟨⟨-, hzero⟩, hmod⟩, -⟩ := hfresh
    refine .inl ⟨fun h0 => hzero (UInt32.toNat_inj.mp h0), congrArg UInt32.toNat hmod, ?_⟩
    obtain ⟨epoch, hepoch, heq⟩ := Option.map_eq_some_iff.mp (Chain.terms_rolledOver hroll store)
    have hnumber := congrArg RewardEpoch.epochNumber heq
    rw [Chain.rolledOver] at hepoch
    rw [Ledger.epochNumber, hepoch, Option.map_some]
    exact congrArg some hnumber

private theorem Ledger.InEpoch.step {c : Chain} {st : Step} (h : c.view.InEpoch)
    (hst : OnSchedule H c st) : (c.step H st).1.view.InEpoch := by
  cases st with
  | tx flags tx =>
    have hheader := (applyTransaction_outcome H flags c.view tx).header
    intro n hn
    have hstay : StaysInEpoch H c (.tx flags tx) := trivial
    rw [Chain.epochNumber_step hstay] at hn
    have hseq : (c.step H (.tx flags tx)).1.view.seq = c.view.seq := hheader.1
    rw [hseq]
    exact h n hn
  | outside accounts holdings => exact h
  | close store =>
    have hlt : c.view.seq.toNat + 1 < 2 ^ 32 := by
      have := hst.1
      have hlock : kUnbondingLockLedgers.toNat = 262800 := rfl
      omega
    have hlen : kQxrpLedgersPerEpoch.toNat = 172800 := rfl
    intro n hn
    rw [Chain.toNat_seq_close hlt]
    rcases Chain.epochNumber_close hst with ⟨hzero, hmod, hnumber⟩ | ⟨hmod, hnumber⟩
    · rw [hnumber] at hn
      obtain rfl := Option.some.inj hn
      rw [UInt32.toNat_div]
      rw [hlen] at hmod ⊢
      omega
    · rw [hnumber] at hn
      have hn := h n hn
      rw [hlen] at hmod hn ⊢
      omega

theorem Transactor.Outcome.marks {r : Ledger × Receipt} {consensusKey : Blob}
    (h : Outcome H s tx r) (hbody : tx.body = .claimReward consensusKey) (hpaid : 0 < r.2.paid) :
    ∃ bond epoch, s.bonds.lookup (H.calcValidatorBondID consensusKey) = some bond ∧
      bond.bondStatus = .bonded ∧ s.epoch = some epoch ∧
      bond.lastClaimedEpoch.getD 0 < epoch.epochNumber ∧
      r.1.bonds.lookup (H.calcValidatorBondID consensusKey) =
        some (ClaimReward.markClaimed s.seq tx epoch bond) := by
  cases h with
  | unapplied => simp at hpaid
  | feeOnly => simp [receipt] at hpaid
  | @success s₁ a hflight hclaim hcharge happly =>
    have hcharged := charge_ok hcharge (account_ne_none_of_preclaim hclaim)
    have hbonds : s₁.bonds = s.bonds := by rw [hcharged.same]
    have hepochs : s₁.epoch = s.epoch := by rw [hcharged.same]
    have hseq : s₁.seq = s.seq := by rw [hcharged.same]
    have hpre := preclaim_of_invokePreclaim hclaim
    simp only [doApply, preclaim, hbody] at happly hpre
    obtain ⟨bond, epoch, hbond, hepoch, hmark, -, ⟨-, rfl⟩ | ⟨-, s₂, pay, hpay, rfl⟩⟩ :=
      ClaimReward.doApply_ok happly
    · simp [receipt] at hpaid
    · rw [hbonds] at hbond
      simp only [ClaimReward.preclaim, Except.bind_eq_ok, orFail_eq_ok, failIf_eq_ok, not_not,
        hbond, Option.some.injEq] at hpre
      obtain ⟨_, rfl, -, -, -, hstatus, -⟩ := hpre
      obtain ⟨_, _, -, -, -, -, -, rfl⟩ := payClaim_ok hpay
      refine ⟨bond, epoch, hbond, hstatus, hepochs ▸ hepoch, hmark, ?_⟩
      rw [ApplyContext.destroyXRP_eq]
      simp only [setBond, payOut, setAccount, hseq, AList.lookup_insert]

private theorem PaysReward.marks {c : Chain} {st : Step} {consensusKey : Blob} {e : UInt32}
    (h : PaysReward H consensusKey e c st) :
    ∃ bond, c.view.bonds.lookup (H.calcValidatorBondID consensusKey) = some bond ∧
      bond.lastClaimedEpoch.getD 0 < e ∧
      (c.step H st).1.view.ClaimOver (H.calcValidatorBondID consensusKey) e := by
  cases st with
  | close => cases h
  | outside => cases h
  | tx flags tx =>
    obtain ⟨hbody, hnumber, hpaid⟩ := h
    have hstay : StaysInEpoch H c (.tx flags tx) := trivial
    obtain ⟨bond, epoch, hbond, hstatus, hepoch, hmark, hafter⟩ :=
      (applyTransaction_outcome H flags c.view tx).marks hbody hpaid
    have he : epoch.epochNumber = e := by
      rw [Ledger.epochNumber, hepoch] at hnumber
      exact Option.some.inj hnumber
    refine ⟨bond, hbond, he ▸ hmark, e, (Chain.epochNumber_step hstay).trans hnumber,
      .inr ⟨rfl, _, congrArg (Option.map _) hafter, ?_, fun hleft => ?_⟩⟩
    · exact UInt32.le_of_eq he.symm
    · cases hstatus.symm.trans hleft

private theorem not_pays_of_claimOver {c : Chain} {st : Step} {consensusKey : Blob} {e : UInt32}
    (hover : c.view.ClaimOver (H.calcValidatorBondID consensusKey) e) :
    ¬PaysReward H consensusKey e c st := by
  intro hpays
  obtain ⟨bond, hbond, hmark, -⟩ := hpays.marks
  have hnumber : c.view.epochNumber = some e := by
    cases st with
    | tx => exact hpays.2.1
    | close => cases hpays
    | outside => cases hpays
  obtain ⟨n, hn, hover⟩ := hover
  obtain rfl := Option.some.inj (hnumber.symm.trans hn)
  rcases hover with hlater | ⟨-, bond', hbond', hclaimed⟩
  · exact UInt32.lt_irrefl _ hlater
  · rw [Ledger.standing, hbond] at hbond'
    obtain rfl := Option.some.inj hbond'
    exact absurd hmark (UInt32.not_lt.mpr hclaimed.mark)

private theorem not_due_of_leaving {e start now : UInt32}
    (hnow : now.toNat + kUnbondingLockLedgers.toNat < 2 ^ 32)
    (hin : now.toNat ≤ (e.toNat + 1) * kQxrpLedgersPerEpoch.toNat)
    (hafter : e.toNat * kQxrpLedgersPerEpoch.toNat < start.toNat)
    (hpast : start.toNat ≤ now.toNat) : ¬start + kUnbondingLockLedgers ≤ now := by
  have hlock : kUnbondingLockLedgers.toNat = 262800 := rfl
  have hlen : kQxrpLedgersPerEpoch.toNat = 172800 := rfl
  rw [UInt32.le_iff_toNat_le, UInt32.toNat_add]
  rw [hlock] at hnow ⊢
  rw [hlen] at hin hafter
  omega

private theorem claimOver_tx {c : Chain} {flags : ApplyFlags} {id : AccountID} {e : UInt32}
    (hin : c.view.InEpoch) (hst : OnSchedule H c (.tx flags tx)) (h : c.view.ClaimOver id e) :
    (c.step H (.tx flags tx)).1.view.ClaimOver id e := by
  have hout := applyTransaction_outcome H flags c.view tx
  have hstay : StaysInEpoch H c (.tx flags tx) := trivial
  have hseq : (c.step H (.tx flags tx)).1.view.seq = c.view.seq := hout.header.1
  obtain ⟨n, hn, hover⟩ := h
  refine ⟨n, (Chain.epochNumber_step hstay).trans hn, ?_⟩
  rcases hover with hlater | ⟨rfl, bond, hbond, hclaimed⟩
  · exact .inl hlater
  refine .inr ⟨rfl, ?_⟩
  obtain ⟨hlo, hhi⟩ := hin n hn
  obtain ⟨bond, hlookup, rfl⟩ := Option.map_eq_some_iff.mp hbond
  have hmove := hout.bondMove id
  rw [hseq, Ledger.standing]
  change ∃ bond, ((applyTransaction H flags c.view tx).1.bonds.lookup id).map _ = _ ∧ _
  generalize (applyTransaction H flags c.view tx).1.bonds.lookup id = after at hmove ⊢
  cases hmove with
  | same => exact ⟨_, hbond, hclaimed⟩
  | register hbody hid hnew =>
    rw [hlookup] at hnew
    cases hnew
  | bond hbody hid hold =>
    obtain rfl := Option.some.inj (hlookup.symm.trans hold)
    exact ⟨_, rfl, hclaimed.mark, fun h => by cases h⟩
  | unbond hbody hid hold =>
    obtain rfl := Option.some.inj (hlookup.symm.trans hold)
    exact ⟨_, rfl, hclaimed.mark, fun _ => ⟨hlo, le_rfl⟩⟩
  | slash hbody hold =>
    obtain rfl := Option.some.inj (hlookup.symm.trans hold)
    exact ⟨_, rfl, hclaimed.mark, fun _ => ⟨hlo, le_rfl⟩⟩
  | release hbody hold hstatus hdue =>
    -- the lock is longer than what is left of the epoch
    obtain rfl := Option.some.inj (hlookup.symm.trans hold)
    obtain ⟨hstart, hnow⟩ := hclaimed.leaving hstatus
    exact absurd hdue (not_due_of_leaving hst.1 hhi hstart hnow)
  | claim hbody hid hold hstatus hepoch hmark =>
    obtain rfl := Option.some.inj (hlookup.symm.trans hold)
    rw [Ledger.epochNumber, hepoch] at hn
    obtain rfl := Option.some.inj hn
    exact absurd hmark (UInt32.not_lt.mpr hclaimed.mark)

private theorem claimOver_step {c : Chain} {st : Step} {id : AccountID} {e : UInt32}
    (hin : c.view.InEpoch) (hst : OnSchedule H c st) (h : c.view.ClaimOver id e) :
    (c.step H st).1.view.ClaimOver id e := by
  cases st with
  | tx flags tx => exact claimOver_tx hin hst h
  | outside accounts holdings => exact h
  | close store =>
    obtain ⟨n, hn, hover⟩ := h
    have hlast := hin n hn
    rcases Chain.epochNumber_close hst with ⟨hzero, hmod, hnumber⟩ | ⟨hmod, hnumber⟩
    · -- a new epoch has begun, so `e` is a past one
      refine ⟨_, hnumber, .inl ?_⟩
      have hle : e.toNat ≤ n.toNat := by
        rcases hover with hlater | ⟨rfl, -⟩
        · exact (UInt32.lt_iff_toNat_lt.mp hlater).le
        · exact le_rfl
      have hlen : kQxrpLedgersPerEpoch.toNat = 172800 := rfl
      rw [UInt32.lt_iff_toNat_lt, UInt32.toNat_div]
      rw [hlen] at hmod hlast ⊢
      omega
    · refine ⟨n, hnumber.trans hn, hover.imp_right fun hclaimed => ?_⟩
      obtain ⟨rfl, bond, hbond, hclaimed⟩ := hclaimed
      refine ⟨rfl, bond, ?_, hclaimed.mark, fun hstatus => ?_⟩
      · rw [Chain.standing_close]
        exact hbond
      · obtain ⟨hstart, hnow⟩ := hclaimed.leaving hstatus
        have hlock : kUnbondingLockLedgers.toNat = 262800 := rfl
        have hlt := hst.1
        refine ⟨hstart, hnow.trans ?_⟩
        rw [Chain.toNat_seq_close (by omega)]
        exact Nat.le_succ _

/-- **At most one payout for a key and an epoch.** Along every chain that keeps its schedule, no
consensus key is paid twice in an epoch, also if its bond is released and the key is registered
again. -/
theorem claimReward_once_run (consensusKey : Blob) (e : UInt32) {c : Chain} {steps : List Step}
    (hstart : c.view.InEpoch) (hrun : Run.Always (Chain.step H) (OnSchedule H) c steps) :
    Run.AtMostOnce (Chain.step H) (PaysReward H consensusKey e) c steps := by
  refine Run.since_of_guard (R := fun _ _ => True) (fun c : Chain => c.view.InEpoch)
    (fun c : Chain => c.view.ClaimOver (H.calcValidatorBondID consensusKey) e)
    (fun c st hin hst => hin.step hst) (fun c st _ _ hpays => ?_)
    (fun c st hin hover hst _ => ?_) hstart hrun
    (Run.since_of_always (Run.always_of_forall fun _ _ => trivial))
  · obtain ⟨_, -, -, hover⟩ := hpays.marks
    exact hover
  · exact ⟨not_pays_of_claimOver hover, claimOver_step hin hst hover⟩

theorem claimReward_once_two_claims :
    PaysReward Sample.services Sample.aliceKey 8
        (Sample.chain.rolledOver Sample.services .empty)
        (Sample.send Sample.alice 1 (.claimReward Sample.aliceKey)) ∧
      Run.AtMostOnce (Chain.step Sample.services) (PaysReward Sample.services Sample.aliceKey 8)
        Sample.chain
        [.close .empty, Sample.send Sample.alice 1 (.claimReward Sample.aliceKey),
          Sample.send Sample.alice 2 (.claimReward Sample.aliceKey)] := by
  refine ⟨by decide +kernel, claimReward_once_run _ _ (fun n hn => ?_) (by decide +kernel)⟩
  cases hn

end FalconLedger
