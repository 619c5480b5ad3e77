import FalconLedger.Properties.Governance
import FalconLedger.Properties.Ownership
import FalconLedger.Properties.Slashing

/-!
# Bonded capital

Drops get into a bond when its owner bonds, and leave it in two ways: a slash burns them, and a
release after the unbonding lock pays them back. No step of a run does anything else (`BondLaw`).

The law rests on `Ledger.BondBooks`: owner counts cover the objects they count, a directory lists a
bond where the bond says it is filed, and a bond that is only registered holds nothing.
-/

namespace FalconLedger

open Transactor Ledger BuildLedger ApplyContext

variable {H : Services} {s s' s₁ : Ledger} {tx : STTx} {a : Applied} {id : AccountID}

/-! ### The books -/

/-- No page lists a key twice, and the key of a bond is listed only where the bond is filed. -/
structure Ledger.BondsFiled (H : Hashes) (s : Ledger) : Prop where
  nodup : ∀ o p, (s.listed o p).Nodup
  filed : ∀ id o p, H.validatorBondKey id ∈ s.listed o p →
    ∃ bond, s.bonds.lookup id = some bond ∧ bond.account = o ∧ bond.ownerNode = p

/-- A bond holds no debt, and nothing at all before it is bonded. -/
structure ValidatorBond.AmountOk (bond : ValidatorBond) : Prop where
  nonneg : 0 ≤ bond.bondedAmount
  registered : bond.bondStatus = .registered → bond.bondedAmount = 0

/-- Unbonding has begun in this ledger or an earlier one. -/
def ValidatorBond.BegunBy (now : UInt32) (bond : ValidatorBond) : Prop :=
  bond.bondStatus = .unbonding → (bond.unbondingStartLedger.getD 0).toNat ≤ now.toNat

/-- The invariants of the bonds. -/
structure Ledger.BondBooks (H : Hashes) (s : Ledger) : Prop where
  covered : s.OwnersCovered
  filed : s.BondsFiled H
  amounts : Table.All ValidatorBond.AmountOk s.bonds
  begun : Table.All (ValidatorBond.BegunBy s.seq) s.bonds

private theorem sublist_of_pageLost {owner : AccountID} {key : UInt256} {page : UInt64}
    (h : s.PageLost owner page key s') (o : AccountID) (p : UInt64) :
    (s'.listed o p).Sublist (s.listed o p) := by
  by_cases hop : (o, p) = (owner, page)
  · obtain ⟨rfl, rfl⟩ := Prod.mk.inj hop
    rw [h.listed]
    exact List.erase_sublist
  · rw [h.others o p hop]

private theorem sublist_of_settled (h : Settled H.toHashes tx s s') (o : AccountID) (p : UInt64) :
    (s'.listed o p).Sublist (s.listed o p) := by
  rcases h.pages with hsame | ⟨page, n, hlost⟩
  · rw [hsame]
  · exact sublist_of_pageLost hlost o p

private theorem Ledger.BondsFiled.of_sublist (h : s.BondsFiled H.toHashes)
    (hpages : ∀ o p, (s'.listed o p).Sublist (s.listed o p))
    (hkept : ∀ id bond, s.bonds.lookup id = some bond →
      H.validatorBondKey id ∈ s'.listed bond.account bond.ownerNode → ∃ bond',
      s'.bonds.lookup id = some bond' ∧ bond'.account = bond.account ∧
        bond'.ownerNode = bond.ownerNode) : s'.BondsFiled H.toHashes := by
  refine ⟨fun o p => (h.nodup o p).sublist (hpages o p), fun id o p hmem => ?_⟩
  obtain ⟨bond, hbond, rfl, rfl⟩ := h.filed id o p ((hpages o p).subset hmem)
  exact hkept id bond hbond hmem

private theorem BondMove.place {after : Option ValidatorBond} {bond : ValidatorBond}
    (h : BondMove H s tx id after) (hbond : s.bonds.lookup id = some bond)
    (hkeep : tx.body ≠ .releaseBond id) :
    ∃ bond', after = some bond' ∧ bond'.account = bond.account ∧
      bond'.ownerNode = bond.ownerNode := by
  cases h with
  | same => exact ⟨bond, hbond, rfl, rfl⟩
  | register _ _ hnew =>
    rw [hbond] at hnew
    cases hnew
  | bond _ _ hold =>
    obtain rfl := Option.some.inj (hbond.symm.trans hold)
    exact ⟨_, rfl, rfl, rfl⟩
  | unbond _ _ hold =>
    obtain rfl := Option.some.inj (hbond.symm.trans hold)
    exact ⟨_, rfl, rfl, rfl⟩
  | slash _ hold =>
    obtain rfl := Option.some.inj (hbond.symm.trans hold)
    exact ⟨_, rfl, rfl, rfl⟩
  | release hbody => exact absurd hbody hkeep
  | claim _ _ hold =>
    obtain rfl := Option.some.inj (hbond.symm.trans hold)
    exact ⟨_, rfl, rfl, rfl⟩

private theorem Ledger.BondsFiled.gain {owner : AccountID} {key : UInt256} {page : UInt64}
    (h : s.BondsFiled H.toHashes) (hpage : s.PageGained owner key page s')
    (hkept : ∀ id bond, s.bonds.lookup id = some bond → ∃ bond',
      s'.bonds.lookup id = some bond' ∧ bond'.account = bond.account ∧
        bond'.ownerNode = bond.ownerNode)
    (hkey : ∀ id, H.validatorBondKey id = key → ∃ bond, s'.bonds.lookup id = some bond ∧
      bond.account = owner ∧ bond.ownerNode = page) : s'.BondsFiled H.toHashes := by
  have hold : ∀ id o p, H.validatorBondKey id ∈ s.listed o p → ∃ bond,
      s'.bonds.lookup id = some bond ∧ bond.account = o ∧ bond.ownerNode = p := by
    intro id o p hmem
    obtain ⟨bond, hbond, rfl, rfl⟩ := h.filed id o p hmem
    exact hkept id bond hbond
  refine ⟨fun o p => ?_, fun id o p hmem => ?_⟩
  · by_cases hop : (o, p) = (owner, page)
    · obtain ⟨rfl, rfl⟩ := Prod.mk.inj hop
      exact hpage.listed.nodup_iff.mpr (List.nodup_cons.mpr ⟨hpage.fresh, h.nodup o p⟩)
    · rw [hpage.others o p hop]
      exact h.nodup o p
  · by_cases hop : (o, p) = (owner, page)
    · obtain ⟨rfl, rfl⟩ := Prod.mk.inj hop
      rcases List.mem_cons.mp (hpage.listed.mem_iff.mp hmem) with heq | hmem
      · exact hkey id heq
      · exact hold id o p hmem
    · rw [hpage.others o p hop] at hmem
      exact hold id o p hmem

private theorem Ledger.BondsFiled.lost {bond : ValidatorBond} {target : AccountID}
    (h : s.BondsFiled H.toHashes) (hbond : s.bonds.lookup target = some bond)
    (hpage : s.PageLost bond.account bond.ownerNode (H.validatorBondKey target) s')
    (o : AccountID) (p : UInt64) : H.validatorBondKey target ∉ s'.listed o p := by
  intro hmem
  by_cases hop : (o, p) = (bond.account, bond.ownerNode)
  · obtain ⟨rfl, rfl⟩ := Prod.mk.inj hop
    rw [hpage.listed] at hmem
    exact (h.nodup _ _).not_mem_erase hmem
  · rw [hpage.others o p hop] at hmem
    obtain ⟨bond', hbond', rfl, rfl⟩ := h.filed target o p hmem
    obtain rfl := Option.some.inj (hbond.symm.trans hbond')
    exact hop rfl

private theorem Transactor.Outcome.bondsFiled {r : Ledger × Receipt} (hsep : H.toHashes.Separate)
    (h : Outcome H s tx r) (hs : s.BondsFiled H.toHashes) : r.1.BondsFiled H.toHashes := by
  refine h.preserves (BondsFiled H.toHashes) hs (fun s' hsame hsettled => ?_)
    (fun s₁ a hsame _ hflight hclaim happly hs₁ => ?_) (fun v fee hv => ?_)
  · refine hs.of_sublist (sublist_of_settled hsettled) fun id bond hbond _ => ⟨bond, ?_, rfl, rfl⟩
    rw [hsame]
    exact hbond
  · have hbonds : s₁.bonds = s.bonds := by rw [hsame]
    have hkept : ∀ id bond, tx.body ≠ .releaseBond id → s₁.bonds.lookup id = some bond →
        ∃ bond', a.view.bonds.lookup id = some bond' ∧ bond'.account = bond.account ∧
          bond'.ownerNode = bond.ownerNode := fun id bond hne hbond =>
      (doApply_bondMove hflight hclaim hsame happly id).place (hbonds ▸ hbond) hne
    cases doApply_pageMove happly with
    | same hpages hnames hbody =>
      refine hs₁.of_sublist (fun o p => ?_) fun id bond hbond _ => hkept id bond (hbody id) hbond
      rw [hpages]
    | unbondName hbody hpages =>
      refine hs₁.of_sublist (fun o p => ?_) fun id bond hbond _ =>
        hkept id bond (by simp [hbody]) hbond
      rw [hpages]
    | register hbody hpage hbond haccount hnode =>
      refine hs₁.gain hpage (fun id bond => hkept id bond (by simp [hbody])) fun id heq => ?_
      obtain rfl := hsep.bond_injective heq
      exact ⟨_, hbond, haccount, hnode⟩
    | @release target bond hbody hbond hpage =>
      refine hs₁.of_sublist (sublist_of_pageLost hpage) fun id bond' hbond' hmem => ?_
      refine hkept id bond' (fun heq => ?_) hbond'
      obtain rfl := TxBody.releaseBond.inj (hbody.symm.trans heq)
      exact hs₁.lost hbond hpage _ _ hmem
    | setName hbody hpage =>
      exact hs₁.gain hpage (fun id bond => hkept id bond (by simp [hbody])) fun id heq =>
        absurd heq (hsep.bond_ne_name id _)
    | releaseName hbody hname hentry hpage =>
      exact hs₁.of_sublist (sublist_of_pageLost hpage) fun id bond hbond _ =>
        hkept id bond (by simp [hbody]) hbond
    | propose hbody hpage =>
      exact hs₁.gain hpage (fun id bond => hkept id bond (by simp [hbody])) fun id heq =>
        absurd heq (hsep.bond_ne_proposal id _ _)
  · rw [destroyXRP_eq]
    exact ⟨hv.nodup, hv.filed⟩

private theorem BondMove.amountOk {bond : ValidatorBond} (h : BondMove H s tx id (some bond))
    (hs : Table.All ValidatorBond.AmountOk s.bonds) : bond.AmountOk := by
  generalize hafter : some bond = after at h
  cases h with
  | same => exact hs id bond hafter.symm
  | register =>
    obtain rfl := Option.some.inj hafter
    exact ⟨le_rfl, fun _ => rfl⟩
  | bond _ _ _ _ _ hamount =>
    obtain rfl := Option.some.inj hafter
    exact ⟨le_trans (by decide) hamount, fun hstatus => by cases hstatus⟩
  | unbond _ _ hold =>
    obtain rfl := Option.some.inj hafter
    exact ⟨(hs id _ hold).nonneg, fun hstatus => by cases hstatus⟩
  | slash _ hold =>
    obtain rfl := Option.some.inj hafter
    exact ⟨le_rfl, fun _ => rfl⟩
  | release => cases hafter
  | claim _ _ hold hstatus =>
    obtain rfl := Option.some.inj hafter
    exact ⟨(hs id _ hold).nonneg, fun hreg => by cases hstatus.symm.trans hreg⟩

private theorem BondMove.begunBy {bond : ValidatorBond} (h : BondMove H s tx id (some bond))
    (hs : Table.All (ValidatorBond.BegunBy s.seq) s.bonds) : bond.BegunBy s.seq := by
  generalize hafter : some bond = after at h
  cases h with
  | same => exact hs id bond hafter.symm
  | register =>
    obtain rfl := Option.some.inj hafter
    exact fun hstatus => by cases hstatus
  | bond =>
    obtain rfl := Option.some.inj hafter
    exact fun hstatus => by cases hstatus
  | unbond =>
    obtain rfl := Option.some.inj hafter
    exact fun _ => le_rfl
  | slash =>
    obtain rfl := Option.some.inj hafter
    exact fun _ => le_rfl
  | release => cases hafter
  | claim _ _ hold =>
    have hbegun := hs id _ hold
    obtain rfl := Option.some.inj hafter
    exact hbegun

theorem Transactor.Outcome.bondBooks {r : Ledger × Receipt} (hsep : H.toHashes.Separate)
    (h : Outcome H s tx r) (hs : s.BondBooks H.toHashes) (hfits : CountFits s tx) :
    r.1.BondBooks H.toHashes := by
  have hmove : ∀ id bond, r.1.bonds.lookup id = some bond → BondMove H s tx id (some bond) :=
    fun id bond hbond => hbond ▸ h.bondMove id
  have hcovered : r.1.OwnersCovered := hs.covered.imp fun others hcounted =>
    h.counted hcounted hfits
  refine ⟨hcovered, h.bondsFiled hsep hs.filed, fun id bond hbond => ?_,
    fun id bond hbond => ?_⟩
  · exact (hmove id bond hbond).amountOk hs.amounts
  · rw [h.header.1]
    exact (hmove id bond hbond).begunBy hs.begun

/-! ### Closing a ledger -/

theorem Chain.registry_close (H : Services) (c : Chain) (store : Validations) :
    (c.step H (.close store)).1.view.names = c.view.names ∧
      (c.step H (.close store)).1.view.dirs = c.view.dirs := by
  have hroll : applyRewardEpoch H.toHashes c.view c.view.seq c.view.rules =
      { c.view with
        epoch := (applyRewardEpoch H.toHashes c.view c.view.seq c.view.rules).epoch } := by
    unfold applyRewardEpoch
    split_ifs <;> rfl
  have hsame := (closeHooks_sameButScores H.toHashes store c.parent c.view c.view.seq
    c.view.rules).same
  rw [view_close, openNext, closed, updateSkipList, hsame, hroll]
  exact ⟨rfl, rfl⟩

private theorem Chain.proposalOwner_close (c : Chain) (store : Validations) (k : UInt256) :
    ((c.step H (.close store)).1.view.proposals.lookup k).map GovernanceProposal.account =
      (c.view.proposals.lookup k).map GovernanceProposal.account := by
  rcases c.lookup_proposals_close H store k with heq | heq <;> rw [heq]
  rw [Option.map_map]
  congr 1
  funext proposal
  simp only [Function.comp, GovernanceTally.tallied]
  split_ifs <;> rfl

theorem Chain.ownedBy_close (c : Chain) (store : Validations) (id : AccountID) :
    (c.step H (.close store)).1.view.ownedBy id = c.view.ownedBy id := by
  have hbonds : ∀ s : Ledger, ∀ k, (s.bonds.lookup k).map (fun bond => unitOf id bond.account) =
      (s.standing k).map fun bond => unitOf id bond.account := fun s k => by
    rw [Ledger.standing, Option.map_map]
    rfl
  have hproposals : ∀ o : Option GovernanceProposal,
      o.map (fun proposal => unitOf id proposal.account) =
        (o.map GovernanceProposal.account).map (unitOf id) := fun o => by
    rw [Option.map_map]
    rfl
  have htotal : Table.total (fun bond => unitOf id bond.account)
      (c.step H (.close store)).1.view.bonds =
        Table.total (fun bond => unitOf id bond.account) c.view.bonds :=
    Table.total_congr fun k => by rw [hbonds, hbonds, Chain.standing_close]
  have htotal' : Table.total (fun proposal => unitOf id proposal.account)
      (c.step H (.close store)).1.view.proposals =
        Table.total (fun proposal => unitOf id proposal.account) c.view.proposals :=
    Table.total_congr fun k => by rw [hproposals, hproposals, Chain.proposalOwner_close]
  rw [Ledger.ownedBy, htotal, htotal', (c.registry_close H store).1, Ledger.ownedBy]

private theorem Ledger.BondBooks.close {c : Chain} (h : c.view.BondBooks H.toHashes)
    (hseq : c.view.seq.toNat + 1 < 2 ^ 32) (store : Validations) :
    (c.step H (.close store)).1.view.BondBooks H.toHashes := by
  have hpages : (c.step H (.close store)).1.view.listed = c.view.listed :=
    listed_congr (c.registry_close H store).2
  -- scores apart, every bond is what it was
  have hback : ∀ id, ∀ bond, (c.step H (.close store)).1.view.bonds.lookup id = some bond →
      ∃ bond', c.view.bonds.lookup id = some bond' ∧ bond'.standing = bond.standing :=
    fun id bond hbond => by
      have hstanding := Chain.standing_close H c store id
      rw [standing_of_lookup hbond] at hstanding
      exact Option.map_eq_some_iff.mp hstanding.symm
  refine ⟨?_, ⟨fun o p => ?_, fun id o p hmem => ?_⟩, fun id bond hbond => ?_,
    fun id bond hbond hleaving => ?_⟩
  · exact h.covered.imp fun others hcounted => hcounted.of_sameOwners
      (sameOwners_of_eq (Chain.accounts_close H c store) (c.registry_close H store).2)
      (c.ownedBy_close store)
  · rw [hpages]
    exact h.filed.nodup o p
  · rw [hpages] at hmem
    obtain ⟨bond, hbond, rfl, rfl⟩ := h.filed.filed id o p hmem
    have hstanding := Chain.standing_close H c store id
    rw [standing_of_lookup hbond] at hstanding
    obtain ⟨bond', hbond', heq⟩ := Option.map_eq_some_iff.mp hstanding
    have haccount := congrArg ValidatorBond.account heq
    have hnode := congrArg ValidatorBond.ownerNode heq
    exact ⟨bond', hbond', haccount, hnode⟩
  · obtain ⟨bond', hbond', heq⟩ := hback id bond hbond
    have hamount := congrArg ValidatorBond.bondedAmount heq
    have hstatus := congrArg ValidatorBond.bondStatus heq
    have hok := h.amounts id bond' hbond'
    exact ⟨hamount ▸ hok.nonneg, fun hreg => hamount ▸ hok.registered (hstatus.trans hreg)⟩
  · obtain ⟨bond', hbond', heq⟩ := hback id bond hbond
    have hstart := congrArg ValidatorBond.unbondingStartLedger heq
    have hstatus := congrArg ValidatorBond.bondStatus heq
    have hbegun := h.begun id bond' hbond' (hstatus.trans hleaving)
    change bond'.unbondingStartLedger = bond.unbondingStartLedger at hstart
    rw [hstart] at hbegun
    rw [Chain.toNat_seq_close hseq]
    exact hbegun.trans (Nat.le_succ _)

/-! ### What a release does -/

private theorem Transactor.Outcome.success_of_ne {r : Ledger × Receipt} (h : Outcome H s tx r)
    (hne : r.1.bonds.lookup id ≠ s.bonds.lookup id) :
    ∃ s₁ a, invokePreclaim H s tx = .ok () ∧ charge H s tx = .ok s₁ ∧ doApply H s₁ tx = .ok a ∧
      0 ≤ tx.fee ∧
      r = (destroyXRP H.toHashes a.view tx.fee, receipt H a .tesSuccess tx.fee) := by
  cases h with
  | unapplied => exact absurd rfl hne
  | feeOnly hreset =>
    refine absurd ?_ hne
    rw [destroyXRP_eq, (reset_ok hreset).same]
  | success _ hclaim hcharge happly hpass =>
    exact ⟨_, _, hclaim, hcharge, happly, hpass.fee_nonneg, rfl⟩

/-- A release pays the whole amount to the account of the bond, no other balance moves but for the
fee, the key of the bond is on no page of any directory, and its unit of the owner count is
gone, as is that of a ticket if the account used one. -/
structure Released (H : Services) (s : Ledger) (tx : STTx) (id : AccountID) (bond : ValidatorBond)
    (r : Ledger × Receipt) : Prop where
  balances : ∀ account, r.1.balanceOf account =
    s.balanceOf account - (if account = tx.getFeePayer then r.2.fee else 0) +
        (if account = bond.account then bond.bondedAmount else 0) +
      (if account = H.getTreasuryAccountID then r.2.fee - r.2.burned else 0)
  unlisted : ∀ owner page, H.validatorBondKey id ∉ r.1.listed owner page
  ownerCount : ∃ root root', s.accounts.lookup bond.account = some root ∧
    r.1.accounts.lookup bond.account = some root' ∧
    root'.ownerCount.toNat + 1 + (if tx.usesTicket bond.account then 1 else 0) =
      root.ownerCount.toNat

private theorem ownerCount_of_settled {others : AccountID → ℕ} (hs : s.OwnersCounted others) (h : Settled H.toHashes tx s s')
    {root' : AccountRoot} (hroot' : s'.accounts.lookup id = some root') :
    ∃ root, s.accounts.lookup id = some root ∧
      root'.ownerCount.toNat + (if tx.usesTicket id then 1 else 0) = root.ownerCount.toNat := by
  obtain ⟨root, hroot, hset⟩ := h.before hroot'
  refine ⟨root, hroot, ?_⟩
  rw [hset.ownerCount]
  split_ifs with huse
  · obtain ⟨count, hcount⟩ := Option.ne_none_iff_exists'.mp (hset.hasTicket huse)
    exact ((hs id root hroot).dropTicket_count (ownedBy_nonneg s id) hcount).2
  · rfl

private theorem one_le_ownedBy {bond : ValidatorBond} (h : s.bonds.lookup id = some bond) :
    1 ≤ s.ownedBy bond.account := by
  have hone : Table.weightAt (fun b => unitOf bond.account b.account) s.bonds id = 1 := by
    rw [Table.weightAt_of_lookup h, unitOf, if_pos rfl]
  have hbonds := Table.weightAt_le_total (fun b => unitOf_nonneg bond.account b.account) s.bonds id
  have hnames : 0 ≤ Table.total (fun entry => unitOf bond.account entry.account) s.names :=
    Table.total_nonneg fun _ => unitOf_nonneg bond.account _
  have hproposals :
      0 ≤ Table.total (fun proposal => unitOf bond.account proposal.account) s.proposals :=
    Table.total_nonneg fun _ => unitOf_nonneg bond.account _
  rw [hone] at hbonds
  unfold Ledger.ownedBy
  omega

private theorem Transactor.Outcome.released {r : Ledger × Receipt} {bond : ValidatorBond}
    (h : Outcome H s tx r) (hs : s.BondBooks H.toHashes) (hbody : tx.body = .releaseBond id)
    (hbond : s.bonds.lookup id = some bond) (hgone : r.1.bonds.lookup id = none) :
    Released H s tx id bond r := by
  have hne : r.1.bonds.lookup id ≠ s.bonds.lookup id := by
    rw [hgone, hbond]
    exact Option.some_ne_none _ ∘ Eq.symm
  obtain ⟨s₁, a, hclaim, hcharge, happly, hfee, rfl⟩ := h.success_of_ne hne
  have hexists := account_ne_none_of_preclaim hclaim
  have hcharged := charge_ok hcharge hexists
  have hsettled := charge_settled hcharge hexists
  have hbonds : s₁.bonds = s.bonds := by rw [hcharged.same]
  obtain ⟨others, hcounted⟩ := hs.covered
  have hcounted₁ := hcounted.of_settled hcharged.same hsettled
  have hfiled : s₁.BondsFiled H.toHashes :=
    hs.filed.of_sublist (sublist_of_settled hsettled) fun id bond hbond _ =>
      ⟨bond, hbonds ▸ hbond, rfl, rfl⟩
  simp only [doApply, hbody] at happly
  obtain ⟨bond', root, s₂, hremoved, hbond', hroot, rfl⟩ := ReleaseBond.doApply_ok happly
  have hbond₁ : s₁.bonds.lookup id = some bond := hbonds ▸ hbond
  obtain rfl := Option.some.inj (hbond₁.symm.trans hbond')
  refine ⟨fun account => ?_, fun owner page => ?_, ?_⟩
  · -- the amount is not negative, so it is what is paid
    have hpaid : (root.release bond.bondedAmount).balance = root.balance + bond.bondedAmount := by
      have := (hs.amounts id bond hbond).nonneg
      simp only [AccountRoot.release]
      split_ifs <;> omega
    have hview : Ledger.balanceOf
        { s₂.setAccount bond.account (root.release bond.bondedAmount) with
          bonds := s₁.bonds.erase id } account =
          s₁.balanceOf account + if account = bond.account then bond.bondedAmount else 0 := by
      change (s₂.setAccount bond.account (root.release bond.bondedAmount)).balanceOf account = _
      split_ifs with hacc
      · subst hacc
        rw [balanceOf_setAccount_self, hpaid, balanceOf_of_lookup hroot]
      · rw [balanceOf_setAccount_of_ne hacc, balanceOf, hremoved.same.accounts, ← balanceOf,
          add_zero]
    rw [balanceOf_destroyXRP hfee, hview, hcharged.balanceOf]
    simp only [receipt]
    split_ifs <;> ring
  · rw [destroyXRP_eq]
    exact hfiled.lost hbond₁ (hremoved.page.congr rfl rfl) owner page
  · have hunit := (hcounted₁ bond.account root hroot).release (one_le_ownedBy hbond₁)
      (rfl : (root.release bond.bondedAmount).ownerCount = _)
    obtain ⟨root₀, hroot₀, hcount⟩ := ownerCount_of_settled hcounted hsettled hroot
    have hroot₂ : AList.lookup bond.account (Ledger.accounts
        { s₂.setAccount bond.account (root.release bond.bondedAmount) with
          bonds := s₁.bonds.erase id }) = some (root.release bond.bondedAmount) :=
      AList.lookup_insert _
    obtain ⟨root', hroot', -, -, hsame⟩ :=
      (destroyXRP_sameOwners H.toHashes _ tx.fee).after hroot₂
    refine ⟨root₀, root', hroot₀, hroot', ?_⟩
    rw [hsame]
    omega

/-! ### The law -/

/-- Whose drops a bond holds, how many, in which state, and since when it is unbonding. -/
structure Capital where
  owner : AccountID
  status : BondStatus
  amount : Int
  start : Option UInt32
  deriving DecidableEq

def ValidatorBond.capital (bond : ValidatorBond) : Capital :=
  ⟨bond.account, bond.bondStatus, bond.bondedAmount, bond.unbondingStartLedger⟩

/-- The capital of the bond under an id. -/
def Ledger.capital (s : Ledger) (id : AccountID) : Option Capital :=
  (s.bonds.lookup id).map ValidatorBond.capital

/-- What a transaction may do to the capital under `id`. Every change is the work of a successful
transaction of one of five types. -/
inductive CapitalMove (H : Services) (s : Ledger) (tx : STTx) (id : AccountID)
    (r : Ledger × Receipt) : Option Capital → Option Capital → Prop
  | keep (capital : Option Capital) : CapitalMove H s tx id r capital capital
  | register {publicKey consensusKey : Blob} (hok : r.2.succeeded = true)
      (hbody : tx.body = .validatorRegister publicKey consensusKey)
      (hid : H.calcValidatorBondID consensusKey = id) :
      CapitalMove H s tx id r none (some ⟨tx.account, .registered, 0, none⟩)
  | bond {consensusKey : Blob} {amount : Int} {start : Option UInt32} (hok : r.2.succeeded = true)
      (hbody : tx.body = .validatorBond consensusKey amount)
      (hid : H.calcValidatorBondID consensusKey = id) (hamount : kQxrpMinBondDrops ≤ amount) :
      CapitalMove H s tx id r (some ⟨tx.account, .registered, 0, start⟩)
        (some ⟨tx.account, .bonded, amount, start⟩)
  | unbond {consensusKey : Blob} {amount : Int} {start : Option UInt32}
      (hok : r.2.succeeded = true) (hbody : tx.body = .validatorUnbond consensusKey)
      (hid : H.calcValidatorBondID consensusKey = id) :
      CapitalMove H s tx id r (some ⟨tx.account, .bonded, amount, start⟩)
        (some ⟨tx.account, .unbonding, amount, some s.seq⟩)
  /-- All of it is burned, from a bond that is bonded or only registered. -/
  | slash {owner : AccountID} {status : BondStatus} {amount : Int} {start : Option UInt32}
      {offense : UInt32} {e1 e2 : Option Blob} (hok : r.2.succeeded = true)
      (hbody : tx.body = .validatorSlash id offense e1 e2) (hstatus : status ≠ .unbonding)
      (hslashed : r.2.slashed = amount)
      (hdrops : r.1.drops = s.drops - r.2.burned - r.2.slashed) :
      CapitalMove H s tx id r (some ⟨owner, status, amount, start⟩)
        (some ⟨owner, .unbonding, 0, some s.seq⟩)
  /-- All of it is paid out, when the lock has run out. -/
  | release {bond : ValidatorBond} (hok : r.2.succeeded = true)
      (hbody : tx.body = .releaseBond id) (hstatus : bond.bondStatus = .unbonding)
      (hdue : (bond.unbondingStartLedger.getD 0).toNat + kUnbondingLockLedgers.toNat ≤ s.seq.toNat)
      (hpaid : Released H s tx id bond r) : CapitalMove H s tx id r (some bond.capital) none

/-- What a step may do to the capital under `id`: closes and other transactions do nothing. -/
def BondLaw (H : Services) (id : AccountID) (c : Chain) : Step → Prop
  | .tx flags tx => CapitalMove H c.view tx id (applyTransaction H flags c.view tx)
      (c.view.capital id) ((applyTransaction H flags c.view tx).1.capital id)
  | st => (c.step H st).1.view.capital id = c.view.capital id

/-- The sequence number is below `2 ^ 32` by more than the unbonding lock, no owner count is at its
largest value when an object is created, and other transactions leave owner counts that cover
what they count. -/
def InRange (c : Chain) : Step → Prop
  | .tx _ tx => c.view.seq.toNat + kUnbondingLockLedgers.toNat < 2 ^ 32 ∧ CountFits c.view tx
  | .close _ => c.view.seq.toNat + kUnbondingLockLedgers.toNat < 2 ^ 32
  | .outside accounts holdings => Ledger.OwnersCovered { c.view with accounts, holdings }

private theorem succeeded_of_ne {r : Ledger × Receipt} (h : Outcome H s tx r)
    (hne : r.1.bonds.lookup id ≠ s.bonds.lookup id) : r.2.succeeded = true := by
  obtain ⟨s₁, a, -, -, -, -, rfl⟩ := h.success_of_ne hne
  rfl

private theorem slashed_of_ne {r : Ledger × Receipt} {bond : ValidatorBond} {offense : UInt32}
    {e1 e2 : Option Blob} (h : Outcome H s tx r) (hs : s.BondBooks H.toHashes)
    (hbody : tx.body = .validatorSlash id offense e1 e2) (hbond : s.bonds.lookup id = some bond)
    (hne : r.1.bonds.lookup id ≠ s.bonds.lookup id) : r.2.slashed = bond.bondedAmount := by
  obtain ⟨s₁, a, hclaim, hcharge, happly, -, rfl⟩ := h.success_of_ne hne
  have hbonds : s₁.bonds = s.bonds := by
    rw [(charge_ok hcharge (account_ne_none_of_preclaim hclaim)).same]
  simp only [doApply, hbody] at happly
  obtain ⟨bond', hbond', rfl⟩ := ValidatorSlash.doApply_ok happly
  obtain rfl := Option.some.inj (hbond.symm.trans (hbonds ▸ hbond'))
  exact max_eq_left (hs.amounts id bond hbond).nonneg

private theorem Transactor.Outcome.capitalMove {r : Ledger × Receipt} (h : Outcome H s tx r)
    (hs : s.BondBooks H.toHashes) (hseq : s.seq.toNat + kUnbondingLockLedgers.toNat < 2 ^ 32)
    (id : AccountID) : CapitalMove H s tx id r (s.capital id) (r.1.capital id) := by
  have hmove := h.bondMove id
  have hok : r.1.bonds.lookup id ≠ s.bonds.lookup id → r.2.succeeded = true := succeeded_of_ne h
  have hbefore : ∀ {bond}, s.bonds.lookup id = some bond → s.capital id = some bond.capital :=
    fun hbond => by rw [Ledger.capital, hbond, Option.map_some]
  change CapitalMove H s tx id r (s.capital id) ((r.1.bonds.lookup id).map ValidatorBond.capital)
  generalize hafter : r.1.bonds.lookup id = after at hmove hok ⊢
  cases hmove with
  | same => exact .keep _
  | register hbody hid hnew =>
    rw [Ledger.capital, hnew]
    exact .register (hok (by rw [hnew]; exact Option.some_ne_none _)) hbody hid
  | @bond _ _ bond hbody hid hbond howner hstatus hamount =>
    rw [hbefore hbond]
    simp only [Option.map_some, ValidatorBond.capital, howner, hstatus,
      (hs.amounts id bond hbond).registered hstatus]
    refine .bond (hok fun heq => ?_) hbody hid hamount
    rw [hbond] at heq
    cases (congrArg ValidatorBond.bondStatus (Option.some.inj heq)).trans hstatus
  | @unbond _ bond hbody hid hbond howner hstatus =>
    rw [hbefore hbond]
    simp only [Option.map_some, ValidatorBond.capital, howner, hstatus]
    refine .unbond (hok fun heq => ?_) hbody hid
    rw [hbond] at heq
    cases (congrArg ValidatorBond.bondStatus (Option.some.inj heq)).trans hstatus
  | @slash _ _ _ bond hbody hbond hstatus =>
    have hne : some (ValidatorSlash.slashedBond s.seq tx bond) ≠ s.bonds.lookup id := fun heq => by
      rw [hbond] at heq
      exact hstatus (congrArg ValidatorBond.bondStatus (Option.some.inj heq)).symm
    have hconserved := h.conserves.2
    rw [hbefore hbond]
    exact .slash (hok hne) hbody hstatus (slashed_of_ne h hs hbody hbond (hafter ▸ hne)) (by omega)
  | @release bond hbody hbond hstatus hdue =>
    have hstart := hs.begun id bond hbond hstatus
    rw [UInt32.le_iff_toNat_le, UInt32.toNat_add, Nat.mod_eq_of_lt (by omega)] at hdue
    rw [hbefore hbond]
    exact .release (hok (by rw [hbond]; exact Option.some_ne_none _ ∘ Eq.symm)) hbody hstatus hdue
      (h.released hs hbody hbond hafter)
  | @claim _ bond _ hbody hid hbond =>
    rw [hbefore hbond]
    exact .keep _

private theorem bondLaw_step {c : Chain} {st : Step} (hs : c.view.BondBooks H.toHashes)
    (hst : InRange c st) (id : AccountID) : BondLaw H id c st := by
  cases st with
  | tx flags tx => exact (applyTransaction_outcome H flags c.view tx).capitalMove hs hst.1 id
  | outside accounts holdings => exact rfl
  | close store =>
    have hcapital : ∀ s : Ledger, s.capital id = (s.standing id).map ValidatorBond.capital :=
      fun s => by
        rw [Ledger.capital, Ledger.standing, Option.map_map]
        rfl
    change (c.step H (.close store)).1.view.capital id = c.view.capital id
    rw [hcapital, hcapital, Chain.standing_close]

private theorem InRange.close_lt {c : Chain} {st : Step} (h : InRange c st)
    (hclose : st.isClose = true) : c.view.seq.toNat + 1 < 2 ^ 32 := by
  cases st with
  | tx => cases hclose
  | outside => cases hclose
  | close store =>
    have hlock : kUnbondingLockLedgers.toNat = 262800 := rfl
    have hlt : c.view.seq.toNat + kUnbondingLockLedgers.toNat < 2 ^ 32 := h
    omega

private theorem Ledger.BondBooks.step (hsep : H.toHashes.Separate) {c : Chain} {st : Step}
    (hs : c.view.BondBooks H.toHashes) (hst : InRange c st) :
    (c.step H st).1.view.BondBooks H.toHashes := by
  cases st with
  | tx flags tx => exact (applyTransaction_outcome H flags c.view tx).bondBooks hsep hs hst.2
  | outside accounts holdings => exact ⟨hst, ⟨hs.filed.nodup, hs.filed.filed⟩, hs.amounts, hs.begun⟩
  | close store => exact hs.close (hst.close_lt rfl) store

/-! ### Whole runs -/

/-- The state of the bond under an id. -/
def Ledger.bondStatus (s : Ledger) (id : AccountID) : Option BondStatus :=
  (s.capital id).map Capital.status

/-- The step begins the unbonding of the bond under `id`, in ledger `n`. -/
def BeginsUnbonding (H : Services) (id : AccountID) (n : ℕ) (c : Chain) (st : Step) : Prop :=
  c.view.seq.toNat = n ∧ c.view.bondStatus id ≠ some .unbonding ∧
    (c.step H st).1.view.bondStatus id = some .unbonding

/-- The step erases the bond under `id`. -/
def ErasesBond (H : Services) (id : AccountID) (c : Chain) (st : Step) : Prop :=
  c.view.capital id ≠ none ∧ (c.step H st).1.view.capital id = none

/-- The ledger in which the bond under `id` began to unbond, while it does. -/
def Ledger.unbondingSince (s : Ledger) (id : AccountID) : Option ℕ :=
  (s.capital id).bind fun capital =>
    if capital.status = .unbonding then some (capital.start.getD 0).toNat else none

private theorem unbondingSince_step {c : Chain} {st : Step} (hlaw : BondLaw H id c st) :
    (c.step H st).1.view.unbondingSince id = c.view.unbondingSince id ∨
      (c.step H st).1.view.unbondingSince id = none ∨
      (c.step H st).1.view.unbondingSince id = some c.view.seq.toNat := by
  have hkeep : (c.step H st).1.view.capital id = c.view.capital id →
      (c.step H st).1.view.unbondingSince id = c.view.unbondingSince id := fun heq => by
    rw [Ledger.unbondingSince, heq, Ledger.unbondingSince]
  cases st with
  | outside accounts holdings => exact .inl (hkeep rfl)
  | close store => exact .inl (hkeep hlaw)
  | tx flags tx =>
    unfold Ledger.unbondingSince
    change CapitalMove H c.view tx id _ (c.view.capital id)
      ((c.step H (.tx flags tx)).1.view.capital id) at hlaw
    generalize (c.step H (.tx flags tx)).1.view.capital id = after at hlaw ⊢
    generalize c.view.capital id = before at hlaw ⊢
    cases hlaw with
    | keep => exact .inl rfl
    | register => exact .inr (.inl rfl)
    | bond => exact .inr (.inl rfl)
    | unbond => exact .inr (.inr rfl)
    | slash => exact .inr (.inr rfl)
    | release => exact .inr (.inl rfl)

private theorem due_of_erases {c : Chain} {st : Step} (hlaw : BondLaw H id c st)
    (h : ErasesBond H id c st) : ∃ n, c.view.unbondingSince id = some n ∧
      n + kUnbondingLockLedgers.toNat ≤ c.view.seq.toNat := by
  obtain ⟨hbefore, hafter⟩ := h
  cases st with
  | outside accounts holdings => exact absurd hafter hbefore
  | close store => exact absurd (hlaw.symm.trans hafter) hbefore
  | tx flags tx =>
    unfold Ledger.unbondingSince
    change CapitalMove H c.view tx id _ (c.view.capital id)
      ((c.step H (.tx flags tx)).1.view.capital id) at hlaw
    rw [hafter] at hlaw
    generalize c.view.capital id = before at hlaw hbefore ⊢
    cases hlaw with
    | keep => exact absurd rfl hbefore
    | release _ _ hstatus hdue =>
      exact ⟨_, by rw [Option.bind_some]; exact if_pos hstatus, hdue⟩

/-- **Bonded capital is locked.** From every ledger whose books are in order and along every run
that stays in range, the capital of a bond moves by the law only: it is burned by a slash, or paid
to the account that registered by a release, which erases the bond. And no bond is erased before the
unbonding lock has run out since it was unbonded or slashed. -/
theorem bonded_capital_locked_run (hsep : H.toHashes.Separate) {c : Chain} {steps : List Step}
    (hstart : c.view.BondBooks H.toHashes) (hrun : Run.Always (Chain.step H) InRange c steps) :
    Run.Always (Chain.step H) (fun c st => ∀ id, BondLaw H id c st) c steps ∧
      ∀ id n, Run.Since (Chain.step H) (BeginsUnbonding H id n)
        (fun c st => ErasesBond H id c st → n + kUnbondingLockLedgers.toNat ≤ c.view.seq.toNat)
        c steps := by
  have hinv : ∀ (c : Chain) st, c.view.BondBooks H.toHashes → InRange c st →
      (c.step H st).1.view.BondBooks H.toHashes := fun c st hs hst => hs.step hsep hst
  refine ⟨Run.always_of_invariant (fun c : Chain => c.view.BondBooks H.toHashes) hinv
    (fun c st hs hst id => bondLaw_step hs hst id) hstart hrun, fun id n => ?_⟩
  refine Run.since_lock (fun c : Chain => c.view.BondBooks H.toHashes) hinv
    (fun c st _ hst => Chain.seq_le_step hst.close_lt)
    (fun c st hs hst => unbondingSince_step (bondLaw_step hs hst id))
    (fun c st hs hst => due_of_erases (bondLaw_step hs hst id)) (fun c st hbegins => ?_) hstart hrun
  obtain ⟨rfl, hbefore, -⟩ := hbegins
  refine ⟨rfl, ?_⟩
  rw [Ledger.bondStatus] at hbefore
  rw [Ledger.unbondingSince]
  cases hcapital : c.view.capital id with
  | none => rfl
  | some capital =>
    rw [hcapital] at hbefore
    exact if_neg fun hstatus => hbefore (congrArg some hstatus)

theorem bondBooks_of_empty {H : Hashes} (hbonds : s.bonds = ∅) (hnames : s.names = ∅)
    (hproposals : s.proposals = ∅) (hdirs : s.dirs = ∅)
    (htickets : Table.All (fun root => root.ticketCount ≠ some 0 ∧
      (root.ticketCount.getD 0).toNat ≤ root.ownerCount.toNat) s.accounts) : s.BondBooks H := by
  have hlisted : ∀ o p, s.listed o p = [] := fun o p => listed_of_none (by rw [hdirs]; rfl)
  refine ⟨ownersCovered_of_le fun id root hroot => ?_, ⟨fun o p => ?_, fun id o p hmem => ?_⟩,
    fun id bond hbond => ?_, fun id bond hbond => ?_⟩
  · have hzero : s.ownedBy id = 0 := by
      rw [Ledger.ownedBy, hbonds, hnames, hproposals]
      rfl
    obtain ⟨hsome, hle⟩ := htickets id root hroot
    rw [hzero]
    exact ⟨hsome, by omega⟩
  · rw [hlisted]
    exact List.nodup_nil
  · rw [hlisted] at hmem
    cases hmem
  · rw [hbonds] at hbond
    cases hbond
  · rw [hbonds] at hbond
    cases hbond

namespace Sample

def taggedServices : Services :=
  { evidenceServices with
    accountNameKey := fun name => BitVec.ofNat 256 (2 ^ 250 + number name % 2 ^ 200) }

private theorem key_toNat {n : ℕ} (h : n < 2 ^ 256) : (BitVec.ofNat 256 n).toNat = n := by
  rw [BitVec.toNat_ofNat, Nat.mod_eq_of_lt h]

theorem accountNameKey_toNat (name : Blob) :
    (taggedServices.accountNameKey name).toNat = 2 ^ 250 + number name % 2 ^ 200 :=
  key_toNat (by omega)

theorem proposalKey_toNat (account : AccountID) (n : UInt32) :
    (taggedServices.governanceProposalKey account n).toNat =
      2 ^ 200 + 2 ^ 32 * account.toNat + n.toNat :=
  key_toNat (by have := account.isLt; have := n.toNat_lt; omega)

theorem taggedServices_separate : taggedServices.toHashes.Separate := by
  have hbond : ∀ id : AccountID,
      (taggedServices.validatorBondKey id).toNat = 2 ^ 160 + id.toNat := fun id =>
    key_toNat (by have := id.isLt; omega)
  have hticket : ∀ (account : AccountID) (n : UInt32),
      (taggedServices.ticketKey account n).toNat =
        2 ^ 201 + 2 ^ 32 * account.toNat + n.toNat := fun account n =>
    key_toNat (by have := account.isLt; have := n.toNat_lt; omega)
  refine ⟨fun id id' heq => ?_, fun id name heq => ?_, fun id account n heq => ?_,
    fun name account n heq => ?_⟩ <;> replace heq := congrArg BitVec.toNat heq
  · rw [hbond, hbond] at heq
    exact BitVec.eq_of_toNat_eq (by omega)
  · have := id.isLt
    rw [hbond, accountNameKey_toNat] at heq
    omega
  · have := id.isLt
    rw [hbond, proposalKey_toNat] at heq
    omega
  · have := account.isLt
    have := n.toNat_lt
    rw [accountNameKey_toNat, hticket] at heq
    omega

def emptyChain : Chain :=
  .start
    { ledger with
      seq := 1000
      accounts := (AList.insert alice (account 3000000000) ∅).insert bob (account 1000000)
      bonds := ∅ }

theorem emptyChain_bondBooks : emptyChain.view.BondBooks taggedServices.toHashes := by
  refine bondBooks_of_empty rfl rfl rfl rfl (Table.all_of_entries ?_)
  decide +kernel

/-- A bond is registered, bonded and unbonded, and its release is asked for at once. -/
def hastyRelease : List Step :=
  [send alice 1 (.validatorRegister aliceKey aliceKey),
    send alice 2 (.validatorBond aliceKey kQxrpMinBondDrops), .close .empty,
    send alice 3 (.validatorUnbond aliceKey),
    send bob 1 (.releaseBond (services.calcValidatorBondID aliceKey))]

end Sample

theorem bonded_capital_locked_hasty :
    (Run.Always (Chain.step Sample.taggedServices)
        (fun c st => ∀ id, BondLaw Sample.taggedServices id c st) Sample.emptyChain
        Sample.hastyRelease ∧
      ∀ id n, Run.Since (Chain.step Sample.taggedServices)
        (BeginsUnbonding Sample.taggedServices id n)
        (fun c st => ErasesBond Sample.taggedServices id c st →
          n + kUnbondingLockLedgers.toNat ≤ c.view.seq.toNat)
        Sample.emptyChain Sample.hastyRelease) ∧
      (Run.final (Chain.step Sample.taggedServices) Sample.emptyChain
          Sample.hastyRelease).view.capital (Sample.services.calcValidatorBondID Sample.aliceKey) =
        some ⟨Sample.alice, .unbonding, kQxrpMinBondDrops, some 1002⟩ := by
  have hrange : Run.Always (Chain.step Sample.taggedServices) InRange Sample.emptyChain
      Sample.hastyRelease := by
    refine ⟨⟨by decide +kernel, fun _ root hroot => ?_⟩, ⟨by decide +kernel, ?_⟩, ?_,
      ⟨by decide +kernel, ?_⟩, ⟨by decide +kernel, ?_⟩, trivial⟩
    · obtain rfl : Sample.account 3000000000 = root := Option.some.inj hroot
      decide
    · exact fun h => by cases h
    · simp only [InRange]
      decide +kernel
    · exact fun h => by cases h
    · exact fun h => by cases h
  exact ⟨bonded_capital_locked_run Sample.taggedServices_separate Sample.emptyChain_bondBooks
    hrange, by decide +kernel⟩

/-- A key that is registered but not bonded is slashed, and its bond is unbonding. -/
theorem slash_registered :
    (Run.final (Chain.step Sample.taggedServices) Sample.emptyChain
        [Sample.send Sample.alice 1 (.validatorRegister Sample.aliceKey Sample.aliceKey)]
      ).view.capital (Sample.services.calcValidatorBondID Sample.aliceKey) =
        some ⟨Sample.alice, .registered, 0, none⟩ ∧
      (Run.final (Chain.step Sample.taggedServices) Sample.emptyChain
        [Sample.send Sample.alice 1 (.validatorRegister Sample.aliceKey Sample.aliceKey),
          Sample.report 1 1 2]).view.capital
          (Sample.services.calcValidatorBondID Sample.aliceKey) =
        some ⟨Sample.alice, .unbonding, 0, some 1001⟩ := by
  decide +kernel

end FalconLedger
