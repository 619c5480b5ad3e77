import FalconLedger.Close.BuildLedger
import FalconLedger.Tx.Effects
import FalconLedger.Tx.OwnerCounts

/-!
# Owned objects and their counts

Bonds, names, proposals and tickets are counted in `sfOwnerCount` of their owner, in 32-bit
arithmetic. `Ledger.OwnersCounted` says that every count is the number of the account's objects,
tickets and other things. Every transaction that does not wrap a count around keeps it, and it makes
erasing an object take exactly its own unit off.
-/

namespace FalconLedger

open Transactor Ledger

variable {H : Services} {s s' s₁ : Ledger} {tx : STTx} {a : Applied} {id : AccountID}
  {others : AccountID → ℕ}

/-- A rule for invariants: what charging a transaction keeps, what the transactor keeps after its
checks, and what splitting the fee keeps, the transaction keeps. -/
theorem Transactor.Outcome.preserves (Inv : Ledger → Prop) {r : Ledger × Receipt}
    (h : Outcome H s tx r) (hs : Inv s)
    (hcharge : ∀ s', SameButAccounts s s' → Settled H.toHashes tx s s' → Inv s')
    (happly : ∀ s₁ a, SameButAccounts s s₁ → Settled H.toHashes tx s s₁ →
      preflight s.rules tx.body = .ok () → preclaim H s tx = .ok () →
      doApply H s₁ tx = .ok a → Inv s₁ → Inv a.view)
    (hsplit : ∀ v fee, Inv v → Inv (ApplyContext.destroyXRP H.toHashes v fee)) : Inv r.1 := by
  cases h with
  | unapplied => exact hs
  | feeOnly hreset => exact hsplit _ _ (hcharge _ (reset_ok hreset).same (reset_settled hreset))
  | success hflight hclaim hcharged hdone =>
    have hexists := account_ne_none_of_preclaim hclaim
    have hsame := (charge_ok hcharged hexists).same
    have hsettled := charge_settled hcharged hexists
    exact hsplit _ _ (happly _ _ hsame hsettled (preflight_of_invokePreflight hflight)
      (preclaim_of_invokePreclaim hclaim) hdone (hcharge _ hsame hsettled))

/-! ### Counting -/

/-- One for an object of the account, else zero. -/
def unitOf (id owner : AccountID) : ℤ := if owner = id then 1 else 0

/-- The bonds, names and proposals an account owns. -/
def Ledger.ownedBy (s : Ledger) (id : AccountID) : ℤ :=
  Table.total (fun bond => unitOf id bond.account) s.bonds +
      Table.total (fun entry => unitOf id entry.account) s.names +
    Table.total (fun proposal => unitOf id proposal.account) s.proposals

/-- A root whose owner count is that of `n` objects, its tickets and `m` other things. -/
structure AccountRoot.Counts (root : AccountRoot) (n : ℤ) (m : ℕ) : Prop where
  tickets : root.ticketCount ≠ some 0
  count : (root.ownerCount.toNat : ℤ) = n + (root.ticketCount.getD 0).toNat + m

/-- Every owner count is that of the account's objects, tickets and so many other things. -/
def Ledger.OwnersCounted (s : Ledger) (others : AccountID → ℕ) : Prop :=
  ∀ id root, s.accounts.lookup id = some root → root.Counts (s.ownedBy id) (others id)

/-- Every owner count covers the objects of its account. -/
def Ledger.OwnersCovered (s : Ledger) : Prop := ∃ others, s.OwnersCounted others

theorem Ledger.ownersCovered_of_le (h : ∀ id root, s.accounts.lookup id = some root →
    root.ticketCount ≠ some 0 ∧
      s.ownedBy id + (root.ticketCount.getD 0).toNat ≤ root.ownerCount.toNat) :
    s.OwnersCovered := by
  refine ⟨fun id => (s.accounts.lookup id).elim 0 fun root =>
    (root.ownerCount.toNat - (s.ownedBy id + (root.ticketCount.getD 0).toNat)).toNat,
    fun id root hroot => ?_⟩
  obtain ⟨htickets, hle⟩ := h id root hroot
  refine ⟨htickets, ?_⟩
  simp only [hroot, Option.elim_some]
  omega

theorem ownedBy_congr (hbonds : s'.bonds = s.bonds) (hnames : s'.names = s.names)
    (hproposals : s'.proposals = s.proposals) : s'.ownedBy id = s.ownedBy id := by
  simp only [ownedBy, hbonds, hnames, hproposals]

theorem Ledger.OwnersCounted.of_sameOwners (h : s.OwnersCounted others) (hsame : SameOwners s s')
    (howned : ∀ id, s'.ownedBy id = s.ownedBy id) : s'.OwnersCounted others := by
  intro id root' hroot'
  obtain ⟨root, hroot, -, htickets, howner⟩ := hsame.before hroot'
  have hcovers := h id root hroot
  refine ⟨by rw [htickets]; exact hcovers.tickets, ?_⟩
  rw [htickets, howner, howned]
  exact hcovers.count

theorem AccountRoot.Counts.dropTicket_count {root : AccountRoot} {n : ℤ} {m : ℕ} (h : root.Counts n m)
    (hn : 0 ≤ n) {count : UInt32} (hcount : root.ticketCount = some count) :
    1 ≤ count.toNat ∧ root.dropTicket.ownerCount.toNat + 1 = root.ownerCount.toNat := by
  have hpos : 1 ≤ count.toNat := Nat.one_le_iff_ne_zero.mpr fun h0 => by
    have hzero : count = 0 := UInt32.toNat_inj.mp h0
    exact h.tickets (by rw [hcount, hzero])
  have hcov := h.count
  rw [hcount, Option.getD_some] at hcov
  have hone : 1 ≤ root.ownerCount.toNat := by omega
  have howner : root.ownerCount ≠ 0 := fun h0 => by
    rw [h0] at hone
    exact absurd hone (by decide)
  have hsub : (root.ownerCount - 1).toNat = root.ownerCount.toNat - 1 :=
    UInt32.toNat_sub_of_le _ _ (UInt32.le_iff_toNat_le.mpr hone)
  refine ⟨hpos, ?_⟩
  simp only [AccountRoot.dropTicket, if_neg howner, hsub]
  exact Nat.sub_add_cancel hone

private theorem AccountRoot.Counts.dropTicket {root : AccountRoot} {n : ℤ} {m : ℕ} (h : root.Counts n m)
    (hn : 0 ≤ n) (hticket : root.ticketCount ≠ none) : root.dropTicket.Counts n m := by
  obtain ⟨count, hcount⟩ := Option.ne_none_iff_exists'.mp hticket
  obtain ⟨hpos, hunit⟩ := h.dropTicket_count hn hcount
  have hcov := h.count
  rw [hcount, Option.getD_some] at hcov
  have hsub : (count - 1).toNat = count.toNat - 1 :=
    UInt32.toNat_sub_of_le _ _ (UInt32.le_iff_toNat_le.mpr hpos)
  have hcount' : root.dropTicket.ticketCount = if count = 1 then none else some (count - 1) := by
    rw [AccountRoot.dropTicket, hcount, Option.bind_some]
  refine ⟨?_, ?_⟩ <;> rw [hcount'] <;> split_ifs with hone
  · exact fun h => by cases h
  · intro h0
    have hzero := congrArg UInt32.toNat (Option.some.inj h0)
    rw [hsub] at hzero
    exact hone (UInt32.toNat_inj.mp (by change _ = 1; change _ = 0 at hzero; omega))
  · rw [Option.getD_none]
    have hzero : (0 : UInt32).toNat = 0 := rfl
    have hcount₁ : count.toNat = 1 := congrArg UInt32.toNat hone
    omega
  · rw [Option.getD_some, hsub]
    omega

theorem unitOf_nonneg (id owner : AccountID) : 0 ≤ unitOf id owner := by
  unfold unitOf
  split_ifs <;> decide

theorem ownedBy_nonneg (s : Ledger) (id : AccountID) : 0 ≤ s.ownedBy id := by
  refine add_nonneg (add_nonneg ?_ ?_) ?_ <;>
    exact Table.total_nonneg fun _ => unitOf_nonneg id _

theorem Ledger.OwnersCounted.of_settled (h : s.OwnersCounted others) (hsame : SameButAccounts s s')
    (hsettled : Settled H.toHashes tx s s') : s'.OwnersCounted others := by
  intro id root' hroot'
  have howned : s'.ownedBy id = s.ownedBy id :=
    ownedBy_congr (by rw [hsame]) (by rw [hsame]) (by rw [hsame])
  obtain ⟨root, hroot, hset⟩ := hsettled.before hroot'
  have hcovers := h id root hroot
  have hafter : (if tx.usesTicket id then root.dropTicket else root).Counts (s.ownedBy id) (others id) := by
    split_ifs with huse
    · exact hcovers.dropTicket (ownedBy_nonneg s id) (hset.hasTicket huse)
    · exact hcovers
  refine ⟨by rw [hset.ticketCount]; exact hafter.tickets, ?_⟩
  rw [hset.ticketCount, hset.ownerCount, howned]
  exact hafter.count

/-! ### Creating and erasing -/

theorem Ledger.OwnersCounted.add (h : s.OwnersCounted others) {owner : AccountID}
    {root root' : AccountRoot} (hroot : s.accounts.lookup owner = some root)
    (haccounts : s'.accounts = s.accounts.insert owner root')
    (htickets : root'.ticketCount = root.ticketCount)
    (hcount : root'.ownerCount = root.ownerCount + 1) (hfits : root.ownerCount.toNat + 1 < 2 ^ 32)
    (howned : ∀ id, s'.ownedBy id = s.ownedBy id + unitOf id owner) : s'.OwnersCounted others := by
  intro id r hr
  rw [haccounts] at hr
  by_cases hid : id = owner
  · subst hid
    rw [AList.lookup_insert] at hr
    obtain rfl := Option.some.inj hr
    have hcovers := h id root hroot
    have hadd : (root.ownerCount + 1).toNat = root.ownerCount.toNat + 1 := by
      rw [UInt32.toNat_add]
      exact Nat.mod_eq_of_lt hfits
    refine ⟨by rw [htickets]; exact hcovers.tickets, ?_⟩
    have := hcovers.count
    rw [htickets, hcount, hadd, howned, unitOf, if_pos rfl]
    push_cast
    omega
  · rw [AList.lookup_insert_ne hid] at hr
    have hcovers := h id r hr
    rw [howned, unitOf, if_neg (Ne.symm hid), add_zero]
    exact hcovers

theorem AccountRoot.Counts.release {root root' : AccountRoot} {n : ℤ} {m : ℕ} (h : root.Counts n m)
    (hn : 1 ≤ n) (hcount : root'.ownerCount =
      if 0 < root.ownerCount then root.ownerCount - 1 else root.ownerCount) :
    root'.ownerCount.toNat + 1 = root.ownerCount.toNat := by
  have hcov := h.count
  have hpos : 1 ≤ root.ownerCount.toNat := by omega
  have hlt : (0 : UInt32) < root.ownerCount := UInt32.lt_iff_toNat_lt.mpr hpos
  have hle : (1 : UInt32) ≤ root.ownerCount := UInt32.le_iff_toNat_le.mpr hpos
  rw [hcount, if_pos hlt, UInt32.toNat_sub_of_le _ _ hle]
  exact Nat.sub_add_cancel hpos

theorem Ledger.OwnersCounted.remove (h : s.OwnersCounted others) {owner : AccountID}
    {root root' : AccountRoot} (hroot : s.accounts.lookup owner = some root)
    (haccounts : s'.accounts = s.accounts.insert owner root')
    (htickets : root'.ticketCount = root.ticketCount)
    (hcount : root'.ownerCount =
      if 0 < root.ownerCount then root.ownerCount - 1 else root.ownerCount)
    (howned : ∀ id, s'.ownedBy id + unitOf id owner = s.ownedBy id) : s'.OwnersCounted others := by
  have hcovers := h owner root hroot
  have hone := howned owner
  rw [unitOf, if_pos rfl] at hone
  have hnonneg := ownedBy_nonneg s' owner
  have htaken := hcovers.release (by omega) hcount
  have hcov := hcovers.count
  intro id r hr
  rw [haccounts] at hr
  by_cases hid : id = owner
  · subst hid
    rw [AList.lookup_insert] at hr
    obtain rfl := Option.some.inj hr
    refine ⟨by rw [htickets]; exact hcovers.tickets, ?_⟩
    rw [htickets]
    omega
  · rw [AList.lookup_insert_ne hid] at hr
    have := howned id
    rw [unitOf, if_neg (Ne.symm hid), add_zero] at this
    rw [this]
    exact h id r hr

/-- The transaction types that create an object. -/
def STTx.creates (tx : STTx) : Bool :=
  match tx.body with
  | .validatorRegister .. | .nameSet .. | .governanceProposal .. => true
  | _ => false

/-- There is room in the sender's owner count for the object the transaction creates. -/
def CountFits (s : Ledger) (tx : STTx) : Prop :=
  tx.creates = true → ∀ root, s.accounts.lookup tx.account = some root →
    root.ownerCount.toNat + 1 < 2 ^ 32

theorem CountFits.of_settled (h : CountFits s tx) (hsettled : Settled H.toHashes tx s s₁) :
    CountFits s₁ tx := by
  intro hcreates root₁ hroot₁
  obtain ⟨root, hroot, hset⟩ := hsettled.before hroot₁
  have hle : root₁.ownerCount.toNat ≤ root.ownerCount.toNat := by
    rw [hset.ownerCount]
    split_ifs with huse
    · simp only [AccountRoot.dropTicket]
      split_ifs with hzero
      · exact Nat.zero_le _
      · have hone : (1 : UInt32) ≤ root.ownerCount := UInt32.le_iff_toNat_le.mpr
          (Nat.one_le_iff_ne_zero.mpr fun h0 => hzero (UInt32.toNat_inj.mp h0))
        rw [UInt32.toNat_sub_of_le _ _ hone]
        exact Nat.sub_le _ _
    · exact le_rfl
  have := h hcreates root hroot
  omega

theorem ownedBy_setBond {bond bond' : ValidatorBond} {target : AccountID}
    (hbond : s.bonds.lookup target = some bond)
    (hbonds : s'.bonds = s.bonds.insert target bond') (howner : bond'.account = bond.account)
    (hnames : s'.names = s.names)
    (hproposals : s'.proposals = s.proposals) (id : AccountID) : s'.ownedBy id = s.ownedBy id := by
  have htotal : Table.total (fun bond => unitOf id bond.account) (s.bonds.insert target bond') =
      Table.total (fun bond => unitOf id bond.account) s.bonds :=
    Table.total_insert_of_eq hbond (by rw [howner])
  simp only [ownedBy, hbonds, hnames, hproposals, htotal]

private theorem payOut_sameOwners {epoch : RewardEpoch} {share pay : Int}
    (h : payClaim H s tx epoch share = .ok (s', pay)) :
    SameOwners s s' ∧ s'.bonds = s.bonds ∧ s'.names = s.names ∧ s'.proposals = s.proposals := by
  obtain ⟨treasury, root, ht, hroot, -, -, -, rfl⟩ := payClaim_ok h
  have hdebit : SameOwners s (s.setAccount H.getTreasuryAccountID
      { treasury with balance := treasury.balance - pay }) :=
    sameOwners_setAccount ht ⟨rfl, rfl, rfl⟩
  refine ⟨(hdebit.trans (sameOwners_setAccount hroot ?_)).trans (sameOwners_of_eq rfl rfl),
    rfl, rfl, rfl⟩
  exact ⟨rfl, rfl, rfl⟩

private theorem settleLpClaim_counted {epoch : RewardEpoch} {key : UInt256} {share : ℕ}
    (h : settleLpClaim H s tx epoch key share = .ok a) (hs : s.OwnersCounted others) :
    a.view.OwnersCounted others := by
  rcases settleLpClaim_ok h with ⟨-, rfl⟩ | ⟨-, s₁, pay, hpay, rfl⟩
  · exact hs
  · obtain ⟨hsame, hbonds, hnames, hproposals⟩ := payOut_sameOwners hpay
    exact (hs.of_sameOwners hsame fun id => ownedBy_congr hbonds hnames hproposals).of_sameOwners
      (sameOwners_of_eq rfl rfl) fun id => ownedBy_congr rfl rfl rfl

theorem doApply_counted (h : doApply H s tx = .ok a) (hs : s.OwnersCounted others)
    (hfits : CountFits s tx) : a.view.OwnersCounted others := by
  unfold doApply at h
  split at h <;> rename_i hbody
  · obtain ⟨page, s₁, root, hadded, hroot, hnew, rfl⟩ := ValidatorRegister.doApply_ok h
    refine hs.add hroot (congrArg (AList.insert _ _) hadded.same.accounts) rfl rfl
      (hfits (by simp [STTx.creates, hbody]) root hroot) fun id => ?_
    simp only [ownedBy, setAccount, setBond, hadded.same.bonds, hadded.same.names,
      hadded.same.proposals, Table.total_insert_of_none hnew]
    simp only [ValidatorRegister.newBond]
    ring
  · rename_i amount
    obtain ⟨root, bond, hroot, hbond, -, rfl⟩ := ValidatorBond.doApply_ok h
    have hpaid : SameOwners s
        (s.setAccount tx.account { root with balance := root.balance - amount }) :=
      sameOwners_setAccount hroot ⟨rfl, rfl, rfl⟩
    exact hs.of_sameOwners (hpaid.trans (sameOwners_of_eq rfl rfl))
      (ownedBy_setBond hbond rfl rfl rfl rfl)
  · obtain ⟨bond, hbond, rfl⟩ := ValidatorUnbond.doApply_ok h
    exact hs.of_sameOwners (sameOwners_of_eq rfl rfl) (ownedBy_setBond hbond rfl rfl rfl rfl)
  · obtain ⟨bond, hbond, rfl⟩ := ValidatorSlash.doApply_ok h
    exact hs.of_sameOwners (sameOwners_of_eq rfl rfl) (ownedBy_setBond hbond rfl rfl rfl rfl)
  · obtain ⟨bond, root, s₁, hremoved, hbond, hroot, rfl⟩ := ReleaseBond.doApply_ok h
    have haccounts : (s₁.setAccount bond.account (root.release bond.bondedAmount)).accounts =
        s.accounts.insert bond.account (root.release bond.bondedAmount) :=
      congrArg (AList.insert _ _) hremoved.same.accounts
    refine hs.remove hroot haccounts rfl rfl fun id => ?_
    simp only [ownedBy, setAccount, hremoved.same.names, hremoved.same.proposals,
      Table.total_erase, Table.weightAt_of_lookup hbond]
    ring
  · obtain ⟨bond, epoch, hbond, -, -, -, ⟨-, rfl⟩ | ⟨-, s₁, pay, hpay, rfl⟩⟩ :=
      ClaimReward.doApply_ok h
    · exact hs
    · obtain ⟨hsame, hbonds, hnames, hproposals⟩ := payOut_sameOwners hpay
      rw [← hbonds] at hbond
      exact (hs.of_sameOwners hsame fun id => ownedBy_congr hbonds hnames hproposals).of_sameOwners
        (sameOwners_of_eq rfl rfl) (ownedBy_setBond hbond rfl rfl rfl rfl)
  · obtain ⟨_, epoch, _, -, -, -, -, hset⟩ := ClaimLPReward.doApply_ok h
    exact settleLpClaim_counted hset hs
  · obtain ⟨_, epoch, -, -, -, -, hset⟩ := ClaimAmmLpReward.doApply_ok h
    exact settleLpClaim_counted hset hs
  · obtain ⟨name, page, s₁, root, -, hadded, hroot, -, hnew, rfl⟩ := NameSet.doApply_ok h
    refine hs.add hroot (congrArg (AList.insert _ _) hadded.same.accounts) rfl rfl
      (hfits (by simp [STTx.creates, hbody]) root hroot) fun id => ?_
    simp only [ownedBy, setAccount, hadded.same.bonds, hadded.same.proposals,
      Table.total_insert_of_none hnew]
    simp only [NameSet.newName]
    ring
  · obtain ⟨key, entry, -, hentry, rfl⟩ := NameUnbond.doApply_ok h
    refine hs.of_sameOwners (sameOwners_of_eq rfl rfl) fun id => ?_
    simp only [ownedBy, Table.total_insert, Table.weightAt_of_lookup hentry]
    ring
  · obtain ⟨name, entry, root, s₁, -, hremoved, hentry, hroot, rfl⟩ := NameRelease.doApply_ok h
    have haccounts : (s₁.setAccount entry.account
        (NameRelease.releaseName root (H.accountNameKey name) entry.bondedAmount)).accounts =
        s.accounts.insert entry.account
          (NameRelease.releaseName root (H.accountNameKey name) entry.bondedAmount) :=
      congrArg (AList.insert _ _) hremoved.same.accounts
    refine hs.remove hroot haccounts rfl rfl fun id => ?_
    simp only [ownedBy, setAccount, hremoved.same.bonds, hremoved.same.proposals,
      Table.total_erase, Table.weightAt_of_lookup hentry]
    ring
  · obtain ⟨page, s₁, root, hadded, hroot, hnew, rfl⟩ := GovernanceProposal.doApply_ok h
    refine hs.add hroot (congrArg (AList.insert _ _) hadded.same.accounts) rfl rfl
      (hfits (by simp [STTx.creates, hbody]) root hroot) fun id => ?_
    simp only [ownedBy, setAccount, hadded.same.bonds, hadded.same.names,
      Table.total_insert_of_none hnew]
    simp only [GovernanceProposal.newProposal]
    ring
  · obtain ⟨proposal, bond, hproposal, -, rfl⟩ := GovernanceVote.doApply_ok h
    refine hs.of_sameOwners (sameOwners_of_eq rfl rfl) fun id => ?_
    simp only [ownedBy, Table.total_insert, Table.weightAt_of_lookup hproposal]
    simp only [GovernanceVote.castVote]
    ring

theorem Transactor.Outcome.counted {r : Ledger × Receipt} (h : Outcome H s tx r)
    (hs : s.OwnersCounted others) (hfits : CountFits s tx) : r.1.OwnersCounted others := by
  refine h.preserves (OwnersCounted · others) hs (fun s' hsame hsettled => hs.of_settled hsame hsettled)
    (fun s₁ a _ hsettled _ _ happly hs₁ => ?_) (fun v fee hv => ?_)
  · exact doApply_counted happly hs₁ (hfits.of_settled hsettled)
  · refine hv.of_sameOwners (ApplyContext.destroyXRP_sameOwners H.toHashes v fee) fun id => ?_
    rw [ApplyContext.destroyXRP_eq]
    exact ownedBy_congr rfl rfl rfl

/-! ### Directories -/

/-- Keys are hashes tagged with the type of the object: those of different types differ, and so do
those of different bonds. -/
structure Hashes.Separate (H : Hashes) : Prop where
  bond_injective : Function.Injective H.validatorBondKey
  bond_ne_name : ∀ id name, H.validatorBondKey id ≠ H.accountNameKey name
  bond_ne_proposal : ∀ id account n, H.validatorBondKey id ≠ H.governanceProposalKey account n
  name_ne_ticket : ∀ name account n, H.accountNameKey name ≠ H.ticketKey account n

/-- The accounts there are, each with the key of its name. -/
def Ledger.nameOf (s : Ledger) (id : AccountID) : Option (Option UInt256) :=
  (s.accounts.lookup id).map AccountRoot.accountName

theorem nameOf_congr (h : s'.accounts = s.accounts) : s'.nameOf = s.nameOf := by
  funext id
  rw [Ledger.nameOf, h, Ledger.nameOf]

theorem nameOf_insert {root' : AccountRoot} {name : Option UInt256}
    (h : s'.accounts = s.accounts.insert id root') (hname : root'.accountName = name) :
    s'.nameOf = Function.update s.nameOf id (some name) := by
  subst hname
  funext id'
  rw [Ledger.nameOf, h]
  by_cases hid : id' = id
  · subst hid
    rw [AList.lookup_insert, Function.update_self]
    rfl
  · rw [AList.lookup_insert_ne hid, Function.update_of_ne hid, Ledger.nameOf]

theorem nameOf_insert_same {root root' : AccountRoot} (h : s'.accounts = s.accounts.insert id root')
    (hroot : s.accounts.lookup id = some root) (hname : root'.accountName = root.accountName) :
    s'.nameOf = s.nameOf := by
  rw [nameOf_insert h hname]
  refine Function.update_eq_self_iff.mpr ?_
  rw [Ledger.nameOf, hroot]
  rfl

/-- What a transactor can do to the pages of the owner directories, to the objects filed in them
and to the names of accounts. -/
inductive PageMove (H : Services) (s : Ledger) (tx : STTx) (s' : Ledger) : Prop
  | same (hpages : s'.listed = s.listed) (hnames : s'.names = s.names)
      (hbody : ∀ target, tx.body ≠ .releaseBond target) (hroots : s'.nameOf = s.nameOf)
  | unbondName {raw : Option Blob} {key : UInt256} {entry : AccountName}
      (hbody : tx.body = .nameUnbond raw) (hpages : s'.listed = s.listed)
      (hkey : NameUnbond.resolveNameKeylet H s tx raw = some key)
      (hentry : s.names.lookup key = some entry)
      (hnames : s'.names = s.names.insert key
        { entry with
          nameStatus := .releasing
          unbondingStartLedger := some s.seq
          previousTxnID := tx.transactionID
          previousTxnLgrSeq := s.seq })
      (hroots : s'.nameOf = s.nameOf)
  | register {publicKey consensusKey : Blob} {page : UInt64} {bond : ValidatorBond}
      (hbody : tx.body = .validatorRegister publicKey consensusKey)
      (hpage : s.PageGained tx.account
        (H.validatorBondKey (H.calcValidatorBondID consensusKey)) page s')
      (hbond : s'.bonds.lookup (H.calcValidatorBondID consensusKey) = some bond)
      (haccount : bond.account = tx.account) (hnode : bond.ownerNode = page)
      (hnames : s'.names = s.names) (hroots : s'.nameOf = s.nameOf)
  | release {target : AccountID} {bond : ValidatorBond} (hbody : tx.body = .releaseBond target)
      (hbond : s.bonds.lookup target = some bond)
      (hpage : s.PageLost bond.account bond.ownerNode (H.validatorBondKey target) s')
      (hnames : s'.names = s.names) (hroots : s'.nameOf = s.nameOf)
  | setName {raw : Option Blob} {name : Blob} {page : UInt64} (hbody : tx.body = .nameSet raw)
      (hpage : s.PageGained tx.account (H.accountNameKey name) page s')
      (hname : AccountNames.normalizeName (raw.getD []) = some name)
      (hnew : s.names.lookup (H.accountNameKey name) = none)
      (hnames : s'.names =
        s.names.insert (H.accountNameKey name) (NameSet.newName s.seq tx name page))
      (hroots : s'.nameOf =
        Function.update s.nameOf tx.account (some (some (H.accountNameKey name))))
  | releaseName {raw : Option Blob} {name : Blob} {entry : AccountName} {root : AccountRoot}
      (hbody : tx.body = .nameRelease raw)
      (hname : AccountNames.normalizeName (raw.getD []) = some name)
      (hentry : s.names.lookup (H.accountNameKey name) = some entry)
      (hpage : s.PageLost entry.account entry.ownerNode (H.accountNameKey name) s')
      (hnames : s'.names = s.names.erase (H.accountNameKey name))
      (hroot : s.accounts.lookup entry.account = some root)
      (hroots : s'.nameOf = Function.update s.nameOf entry.account
        (some (if root.accountName = some (H.accountNameKey name) then none
          else root.accountName)))
  | propose {type value : UInt32} {consensusKey : Blob} {page : UInt64}
      (hbody : tx.body = .governanceProposal consensusKey type value)
      (hpage : s.PageGained tx.account (GovernanceProposal.proposalKey H.toHashes tx) page s')
      (hnames : s'.names = s.names) (hroots : s'.nameOf = s.nameOf)

private theorem payClaim_registry {epoch : RewardEpoch} {share pay : Int}
    (h : payClaim H s tx epoch share = .ok (s', pay)) :
    s'.listed = s.listed ∧ s'.names = s.names ∧ s'.nameOf = s.nameOf := by
  obtain ⟨treasury, root, ht, hroot, -, -, -, rfl⟩ := payClaim_ok h
  refine ⟨rfl, rfl, ?_⟩
  have hdebit : (s.setAccount H.getTreasuryAccountID
      { treasury with balance := treasury.balance - pay }).nameOf = s.nameOf :=
    nameOf_insert_same rfl ht rfl
  rw [← hdebit]
  exact nameOf_insert_same rfl hroot rfl

private theorem settleLpClaim_registry {epoch : RewardEpoch} {key : UInt256} {share : ℕ}
    (h : settleLpClaim H s tx epoch key share = .ok a) :
    a.view.listed = s.listed ∧ a.view.names = s.names ∧ a.view.nameOf = s.nameOf := by
  rcases settleLpClaim_ok h with ⟨-, rfl⟩ | ⟨-, s₁, pay, hpay, rfl⟩
  · exact ⟨rfl, rfl, rfl⟩
  · obtain ⟨hpages, hnames, hroots⟩ := payClaim_registry hpay
    exact ⟨hpages, hnames, hroots⟩

theorem doApply_pageMove (h : doApply H s tx = .ok a) : PageMove H s tx a.view := by
  unfold doApply at h
  split at h <;> rename_i hbody
  · obtain ⟨page, s₁, root, hadded, hroot, -, rfl⟩ := ValidatorRegister.doApply_ok h
    exact .register hbody (hadded.page.congr rfl rfl) (AList.lookup_insert _) rfl rfl
      hadded.same.names
      (nameOf_insert_same (congrArg (AList.insert _ _) hadded.same.accounts) hroot rfl)
  · obtain ⟨root, bond, hroot, -, -, rfl⟩ := ValidatorBond.doApply_ok h
    exact .same rfl rfl (by simp [hbody]) (nameOf_insert_same rfl hroot rfl)
  · obtain ⟨bond, -, rfl⟩ := ValidatorUnbond.doApply_ok h
    exact .same rfl rfl (by simp [hbody]) rfl
  · obtain ⟨bond, -, rfl⟩ := ValidatorSlash.doApply_ok h
    exact .same rfl rfl (by simp [hbody]) rfl
  · obtain ⟨bond, root, s₁, hremoved, hbond, hroot, rfl⟩ := ReleaseBond.doApply_ok h
    exact .release hbody hbond (hremoved.page.congr rfl rfl) hremoved.same.names
      (nameOf_insert_same (congrArg (AList.insert _ _) hremoved.same.accounts) hroot rfl)
  · obtain ⟨bond, epoch, -, -, -, -, ⟨-, rfl⟩ | ⟨-, s₁, pay, hpay, rfl⟩⟩ :=
      ClaimReward.doApply_ok h
    · exact .same rfl rfl (by simp [hbody]) rfl
    · obtain ⟨hpages, hnames, hroots⟩ := payClaim_registry hpay
      exact .same hpages hnames (by simp [hbody]) hroots
  · obtain ⟨_, epoch, _, -, -, -, -, hset⟩ := ClaimLPReward.doApply_ok h
    obtain ⟨hpages, hnames, hroots⟩ := settleLpClaim_registry hset
    exact .same hpages hnames (by simp [hbody]) hroots
  · obtain ⟨_, epoch, -, -, -, -, hset⟩ := ClaimAmmLpReward.doApply_ok h
    obtain ⟨hpages, hnames, hroots⟩ := settleLpClaim_registry hset
    exact .same hpages hnames (by simp [hbody]) hroots
  · obtain ⟨name, page, s₁, root, hname, hadded, hroot, -, hnew, rfl⟩ := NameSet.doApply_ok h
    exact .setName hbody (hadded.page.congr rfl rfl) hname hnew rfl
      (nameOf_insert (congrArg (AList.insert _ _) hadded.same.accounts) rfl)
  · obtain ⟨key, entry, hkey, hentry, rfl⟩ := NameUnbond.doApply_ok h
    exact .unbondName hbody rfl hkey hentry rfl rfl
  · obtain ⟨name, entry, root, s₁, hname, hremoved, hentry, hroot, rfl⟩ := NameRelease.doApply_ok h
    exact .releaseName hbody hname hentry (hremoved.page.congr rfl rfl) rfl hroot
      (nameOf_insert (congrArg (AList.insert _ _) hremoved.same.accounts) rfl)
  · obtain ⟨page, s₁, root, hadded, hroot, -, rfl⟩ := GovernanceProposal.doApply_ok h
    exact .propose hbody (hadded.page.congr rfl rfl) hadded.same.names
      (nameOf_insert_same (congrArg (AList.insert _ _) hadded.same.accounts) hroot rfl)
  · obtain ⟨proposal, bond, -, -, rfl⟩ := GovernanceVote.doApply_ok h
    exact .same rfl rfl (by simp [hbody]) rfl

end FalconLedger
