import FalconLedger.Properties.BondCapital

/-!
# The registry of names

A name is kept in three places: the name object, the field of its owner's account, and the owner's
directory with its count. `Ledger.NameRegistry` says that the three agree.

The end of a name's cooldown is computed in 32 bits, and can wrap around (`name_released_at_once`).
Apart from this, and from owner counts that do, every run keeps the registry and the cooldown
(`name_registry_run`).
-/

namespace FalconLedger

open Transactor Ledger BuildLedger ApplyContext AccountNames

variable {H : Services} {s s' s₁ : Ledger} {tx : STTx} {a : Applied} {key : UInt256} {c : Chain}
  {st : Step}

/-! ### The registry -/

/-- A name object and what the rest of the ledger says of it. It is filed under the key of its
name, which is in normal form; it holds the name bond; and its owner is an account that points at
it and has it in its directory. -/
structure Ledger.NameHeld (H : Hashes) (s : Ledger) (key : UInt256) (entry : AccountName) :
    Prop where
  filed : key = H.accountNameKey entry.name
  normal : isNormalized entry.name = true
  amount : entry.bondedAmount = kNameBondDrops
  owner : s.nameOf entry.account = some (some key)
  listed : key ∈ s.listed entry.account entry.ownerNode

/-- Every name object is held by its owner, and every account that points at a name is the owner of
that name. -/
structure Ledger.NameRegistry (H : Hashes) (s : Ledger) : Prop where
  objects : ∀ key entry, s.names.lookup key = some entry → s.NameHeld H key entry
  accounts : ∀ id key, s.nameOf id = some (some key) →
    ∃ entry, s.names.lookup key = some entry ∧ entry.account = id

/-- A name object without what unbonding changes of it. -/
def AccountName.fixed (entry : AccountName) : AccountName :=
  { entry with
    nameStatus := .active
    unbondingStartLedger := none
    previousTxnID := 0
    previousTxnLgrSeq := 0 }

private theorem fields_of_fixed {entry entry' : AccountName} (h : entry.fixed = entry'.fixed) :
    entry.name = entry'.name ∧ entry.account = entry'.account ∧
      entry.bondedAmount = entry'.bondedAmount ∧ entry.ownerNode = entry'.ownerNode := by
  simp only [AccountName.fixed, AccountName.mk.injEq] at h
  exact ⟨h.1, h.2.1, h.2.2.1, h.2.2.2.2.2.1⟩

private theorem Ledger.NameRegistry.of_same {H : Hashes} (h : s.NameRegistry H)
    (hnames : ∀ key, (s'.names.lookup key).map AccountName.fixed =
      (s.names.lookup key).map AccountName.fixed) (hroots : s'.nameOf = s.nameOf)
    (hpages : ∀ key entry, s.names.lookup key = some entry →
      key ∈ s.listed entry.account entry.ownerNode →
      key ∈ s'.listed entry.account entry.ownerNode) : s'.NameRegistry H := by
  refine ⟨fun key entry' hentry' => ?_, fun id key hid => ?_⟩
  · have hfixed := hnames key
    rw [hentry'] at hfixed
    obtain ⟨entry, hentry, heq⟩ := Option.map_eq_some_iff.mp hfixed.symm
    have hheld := h.objects key entry hentry
    obtain ⟨hname, haccount, hamount, hnode⟩ := fields_of_fixed heq
    refine ⟨hname ▸ hheld.filed, hname ▸ hheld.normal, hamount ▸ hheld.amount, ?_, ?_⟩
    · rw [hroots, ← haccount]
      exact hheld.owner
    · rw [← haccount, ← hnode]
      exact hpages key entry hentry hheld.listed
  · rw [hroots] at hid
    obtain ⟨entry, hentry, rfl⟩ := h.accounts id key hid
    have hfixed := hnames key
    rw [hentry] at hfixed
    obtain ⟨entry', hentry', heq⟩ := Option.map_eq_some_iff.mp hfixed
    exact ⟨entry', hentry', (fields_of_fixed heq).2.1⟩

/-! ### Transactions -/

private theorem mem_of_gained {owner o : AccountID} {page p : UInt64} {k k' : UInt256}
    (h : s.PageGained owner k page s') (hmem : k' ∈ s.listed o p) : k' ∈ s'.listed o p := by
  by_cases hop : (o, p) = (owner, page)
  · obtain ⟨rfl, rfl⟩ := Prod.mk.inj hop
    exact h.listed.mem_iff.mpr (List.mem_cons_of_mem k hmem)
  · rw [h.others o p hop]
    exact hmem

private theorem mem_of_lost {owner o : AccountID} {page p : UInt64} {k k' : UInt256}
    (h : s.PageLost owner page k s') (hne : k' ≠ k) (hmem : k' ∈ s.listed o p) :
    k' ∈ s'.listed o p := by
  by_cases hop : (o, p) = (owner, page)
  · obtain ⟨rfl, rfl⟩ := Prod.mk.inj hop
    rw [h.listed]
    exact (List.mem_erase_of_ne hne).mpr hmem
  · rw [h.others o p hop]
    exact hmem

private theorem nameOf_of_settled (h : Settled H.toHashes tx s s') : s'.nameOf = s.nameOf := by
  funext id
  have hrel := h.roots id
  rw [Ledger.nameOf, Ledger.nameOf]
  generalize s.accounts.lookup id = o at hrel ⊢
  generalize s'.accounts.lookup id = o' at hrel ⊢
  cases hrel with
  | none => rfl
  | some hset => exact congrArg some hset.accountName

private theorem nameOf_of_sameOwners (h : SameOwners s s') : s'.nameOf = s.nameOf := by
  funext id
  have hrel := h.roots id
  rw [Ledger.nameOf, Ledger.nameOf]
  generalize s.accounts.lookup id = o at hrel ⊢
  generalize s'.accounts.lookup id = o' at hrel ⊢
  cases hrel with
  | none => rfl
  | some hsame => exact congrArg some hsame.1

private theorem Ledger.NameRegistry.set {name : Blob} {page : UInt64} {seq : UInt32}
    (h : s.NameRegistry H.toHashes) (hnormal : isNormalized name = true)
    (hnone : s.nameOf tx.account = some none)
    (hpage : s.PageGained tx.account (H.accountNameKey name) page s')
    (hnew : s.names.lookup (H.accountNameKey name) = none)
    (hnames : s'.names = s.names.insert (H.accountNameKey name) (NameSet.newName seq tx name page))
    (hroots : s'.nameOf =
      Function.update s.nameOf tx.account (some (some (H.accountNameKey name)))) :
    s'.NameRegistry H.toHashes := by
  refine ⟨fun key entry hentry => ?_, fun id key hid => ?_⟩
  · rw [hnames] at hentry
    by_cases hkey : key = H.accountNameKey name
    · subst hkey
      rw [AList.lookup_insert] at hentry
      obtain rfl := Option.some.inj hentry
      refine ⟨rfl, hnormal, rfl, ?_, ?_⟩
      · rw [hroots]
        exact Function.update_self ..
      · exact hpage.listed.mem_iff.mpr List.mem_cons_self
    · rw [AList.lookup_insert_ne hkey] at hentry
      have hheld := h.objects key entry hentry
      -- the sender had no name, so the owner of this one is somebody else
      have hother : entry.account ≠ tx.account := fun heq => by
        have := hheld.owner
        rw [heq, hnone] at this
        cases this
      refine ⟨hheld.filed, hheld.normal, hheld.amount, ?_, mem_of_gained hpage hheld.listed⟩
      rw [hroots, Function.update_of_ne hother]
      exact hheld.owner
  · rw [hroots] at hid
    rw [hnames]
    by_cases hacc : id = tx.account
    · subst hacc
      rw [Function.update_self] at hid
      obtain rfl := Option.some.inj (Option.some.inj hid)
      exact ⟨_, AList.lookup_insert _, rfl⟩
    · rw [Function.update_of_ne hacc] at hid
      obtain ⟨entry, hentry, howner⟩ := h.accounts id key hid
      have hkey : key ≠ H.accountNameKey name := fun heq => by
        rw [heq, hnew] at hentry
        cases hentry
      exact ⟨entry, (AList.lookup_insert_ne hkey).trans hentry, howner⟩

private theorem Ledger.NameRegistry.release {entry : AccountName}
    (h : s.NameRegistry H.toHashes) (hentry : s.names.lookup key = some entry)
    (hpage : s.PageLost entry.account entry.ownerNode key s')
    (hnames : s'.names = s.names.erase key)
    (hroots : s'.nameOf = Function.update s.nameOf entry.account (some none)) :
    s'.NameRegistry H.toHashes := by
  have hheld := h.objects key entry hentry
  refine ⟨fun key' entry' hentry' => ?_, fun id key' hid => ?_⟩
  · rw [hnames] at hentry'
    have hkey : key' ≠ key := fun heq => by
      rw [heq, AList.lookup_erase] at hentry'
      cases hentry'
    rw [AList.lookup_erase_ne hkey] at hentry'
    have hheld' := h.objects key' entry' hentry'
    have hother : entry'.account ≠ entry.account := fun heq => by
      have := hheld'.owner
      rw [heq, hheld.owner] at this
      exact hkey (Option.some.inj (Option.some.inj this)).symm
    refine ⟨hheld'.filed, hheld'.normal, hheld'.amount, ?_, mem_of_lost hpage hkey hheld'.listed⟩
    rw [hroots, Function.update_of_ne hother]
    exact hheld'.owner
  · rw [hroots] at hid
    have hother : id ≠ entry.account := fun heq => by
      rw [heq, Function.update_self] at hid
      cases hid
    rw [Function.update_of_ne hother] at hid
    obtain ⟨entry', hentry', rfl⟩ := h.accounts id key' hid
    have hkey : key' ≠ key := fun heq => by
      rw [heq, hentry] at hentry'
      exact hother (congrArg AccountName.account (Option.some.inj hentry')).symm
    refine ⟨entry', ?_, rfl⟩
    rw [hnames, AList.lookup_erase_ne hkey]
    exact hentry'

private theorem nameOf_of_preclaim {raw : Option Blob}
    (h : NameSet.preclaim H s tx raw = .ok ()) : s.nameOf tx.account = some none := by
  simp only [NameSet.preclaim, Except.bind_eq_ok, orFail_eq_ok, failIf_eq_ok,
    Option.not_isSome_iff_eq_none] at h
  obtain ⟨_, -, -, -, root, hroot, -, hnone, -⟩ := h
  rw [Ledger.nameOf, hroot, Option.map_some, hnone]

private theorem normal_of_preflight {rules : Rules} {raw : Option Blob} {name : Blob}
    (h : NameSet.preflight rules raw = .ok ())
    (hname : normalizeName (raw.getD []) = some name) : isNormalized name = true := by
  simp only [NameSet.preflight, Except.bind_eq_ok, orFail_eq_ok, failIf_eq_ok, Bool.not_eq_true',
    Bool.not_eq_false] at h
  obtain ⟨-, -, raw, rfl, hnormal⟩ := h
  have heq : normalizeName raw = some raw := of_decide_eq_true hnormal
  rw [Option.getD_some, heq] at hname
  exact Option.some.inj hname ▸ hnormal

private theorem Transactor.Outcome.nameRegistry {r : Ledger × Receipt} (hsep : H.toHashes.Separate)
    (h : Outcome H s tx r) (hs : s.NameRegistry H.toHashes) : r.1.NameRegistry H.toHashes := by
  refine h.preserves (NameRegistry H.toHashes) hs (fun s' hsame hsettled => ?_)
    (fun s₁ a hsame hsettled hflight hclaim happly hs₁ => ?_) (fun v fee hv => ?_)
  · refine hs.of_same (fun key => by rw [hsame]) (nameOf_of_settled hsettled) ?_
    intro key entry hentry hmem
    rcases hsettled.pages with hpages | ⟨page, n, hlost⟩
    · rw [hpages]
      exact hmem
    · refine mem_of_lost hlost ?_ hmem
      rw [(hs.objects key entry hentry).filed]
      exact hsep.name_ne_ticket _ _ _
  · cases doApply_pageMove happly with
    | same hpages hnames hbody hroots =>
      refine hs₁.of_same (fun key => by rw [hnames]) hroots fun key entry _ hmem => ?_
      rw [hpages]
      exact hmem
    | @unbondName raw key' entry' hbody hpages hkey hentry hnames hroots =>
      refine hs₁.of_same (fun key => ?_) hroots fun key entry _ hmem => ?_
      · rw [hnames]
        by_cases hkey' : key = key'
        · subst hkey'
          rw [AList.lookup_insert, hentry]
          rfl
        · rw [AList.lookup_insert_ne hkey']
      · rw [hpages]
        exact hmem
    | register hbody hpage _ _ _ hnames hroots =>
      exact hs₁.of_same (fun key => by rw [hnames]) hroots fun key entry _ => mem_of_gained hpage
    | release hbody hbond hpage hnames hroots =>
      refine hs₁.of_same (fun key => by rw [hnames]) hroots fun key entry hentry => ?_
      refine mem_of_lost hpage ?_
      rw [(hs₁.objects key entry hentry).filed]
      exact (hsep.bond_ne_name _ _).symm
    | setName hbody hpage hname hnew hnames hroots =>
      simp only [preflight, preclaim, hbody] at hflight hclaim
      refine hs₁.set (normal_of_preflight hflight hname) ?_ hpage hnew hnames hroots
      rw [nameOf_of_settled hsettled]
      exact nameOf_of_preclaim hclaim
    | @releaseName raw name entry root hbody hname hentry hpage hnames hroot hroots =>
      refine hs₁.release hentry hpage hnames ?_
      have howner := (hs₁.objects _ entry hentry).owner
      rw [Ledger.nameOf, hroot] at howner
      rw [hroots, if_pos (Option.some.inj howner)]
    | propose hbody hpage hnames hroots =>
      exact hs₁.of_same (fun key => by rw [hnames]) hroots fun key entry _ => mem_of_gained hpage
  · have hsame := destroyXRP_sameOwners H.toHashes v fee
    refine hv.of_same (fun key => by rw [destroyXRP_eq]) (nameOf_of_sameOwners hsame)
      fun key entry _ hmem => ?_
    rw [hsame.pages]
    exact hmem

/-! ### The cooldown -/

/-- What a transaction can do to the name object under `key`: the object there is afterwards. -/
inductive NameMove (H : Services) (s : Ledger) (tx : STTx) (key : UInt256) :
    Option AccountName → Prop
  | same : NameMove H s tx key (s.names.lookup key)
  | set {raw : Option Blob} {name : Blob} {page : UInt64} (hbody : tx.body = .nameSet raw)
      (hnew : s.names.lookup key = none) :
      NameMove H s tx key (some (NameSet.newName s.seq tx name page))
  | unbond {raw : Option Blob} {entry : AccountName} (hbody : tx.body = .nameUnbond raw)
      (hentry : s.names.lookup key = some entry) :
      NameMove H s tx key
        (some
          { entry with
            nameStatus := .releasing
            unbondingStartLedger := some s.seq
            previousTxnID := tx.transactionID
            previousTxnLgrSeq := s.seq })
  | release {raw : Option Blob} {entry : AccountName} (hbody : tx.body = .nameRelease raw)
      (hentry : s.names.lookup key = some entry) (hstatus : entry.nameStatus = .releasing)
      (hdue : entry.unbondingStartLedger.getD 0 + kNameUnbondLedgers ≤ s.seq) :
      NameMove H s tx key none

/-- Every successful `doApply` that follows its checks makes one of the moves. -/
private theorem doApply_nameMove (hclaim : preclaim H s tx = .ok ())
    (hsame : SameButAccounts s s₁) (h : doApply H s₁ tx = .ok a) (key : UInt256) :
    NameMove H s tx key (a.view.names.lookup key) := by
  have hnames₁ : s₁.names = s.names := by rw [hsame]
  have hseq : s₁.seq = s.seq := by rw [hsame]
  have hkeep : a.view.names = s₁.names → NameMove H s tx key (a.view.names.lookup key) :=
    fun heq => by
      rw [heq, hnames₁]
      exact .same
  -- of the names other than the one that is written nothing changes
  have hwrite : ∀ {key' entry}, NameMove H s tx key' (some entry) →
      NameMove H s tx key ((s.names.insert key' entry).lookup key) := fun {key' entry} hmove => by
    by_cases hkey : key = key'
    · rw [hkey, AList.lookup_insert]
      exact hmove
    · rw [AList.lookup_insert_ne hkey]
      exact .same
  cases doApply_pageMove h with
  | same _ hnames => exact hkeep hnames
  | register _ _ _ _ _ hnames => exact hkeep hnames
  | release _ _ _ hnames => exact hkeep hnames
  | propose _ _ hnames => exact hkeep hnames
  | unbondName hbody _ _ hentry hnames =>
    rw [hnames, hnames₁, hseq]
    exact hwrite (.unbond hbody (hnames₁ ▸ hentry))
  | setName hbody _ _ hnew hnames =>
    rw [hnames, hnames₁, hseq]
    exact hwrite (.set hbody (hnames₁ ▸ hnew))
  | @releaseName raw name entry root hbody hname hentry _ hnames =>
    simp only [preclaim, hbody, NameRelease.preclaim, hname, Except.bind_eq_ok, orFail_eq_ok,
      failIf_eq_ok, Option.some.injEq, not_not] at hclaim
    obtain ⟨_, rfl, entry', hentry', -, hstatus, hdue⟩ := hclaim
    rw [hnames₁] at hentry
    obtain rfl := Option.some.inj (hentry.symm.trans hentry')
    rw [hnames, hnames₁]
    by_cases hkey : key = H.accountNameKey name
    · subst hkey
      rw [AList.lookup_erase]
      exact .release hbody hentry hstatus (UInt32.not_lt.mp hdue)
    · rw [AList.lookup_erase_ne hkey]
      exact .same

/-- **Every transaction makes one of the moves.** -/
theorem Transactor.Outcome.nameMove {r : Ledger × Receipt} (h : Outcome H s tx r)
    (key : UInt256) : NameMove H s tx key (r.1.names.lookup key) := by
  cases h with
  | unapplied => exact .same
  | @feeOnly view feeIn fee ter hreset =>
    have hnames : (destroyXRP H.toHashes view fee).names = s.names := by
      rw [destroyXRP_eq, (reset_ok hreset).same]
    rw [hnames]
    exact .same
  | @success s₁ a hflight hclaim hcharge happly =>
    have hcharged := charge_ok hcharge (account_ne_none_of_preclaim hclaim)
    rw [destroyXRP_eq]
    exact doApply_nameMove (preclaim_of_invokePreclaim hclaim) hcharged.same happly key

/-- The end of the cooldown is a 32-bit number. -/
def AccountName.CoolingOk (entry : AccountName) : Prop :=
  entry.nameStatus = .releasing →
    (entry.unbondingStartLedger.getD 0).toNat + kNameUnbondLedgers.toNat < 2 ^ 32

/-- The invariants of names. -/
structure Ledger.NameBooks (H : Hashes) (s : Ledger) : Prop where
  registry : s.NameRegistry H
  covered : s.OwnersCovered
  cooling : Table.All AccountName.CoolingOk s.names

/-- No cooldown begins so late that it would end after ledger `2 ^ 32`, the sequence number does
not wrap around, no owner count is at its largest value when an object is created, and other
transactions leave the registry and the owner counts in order. -/
def NamesInRange (H : Services) (c : Chain) : Step → Prop
  | .tx _ tx => CountFits c.view tx ∧ ∀ raw, tx.body = .nameUnbond raw →
      c.view.seq.toNat + kNameUnbondLedgers.toNat < 2 ^ 32
  | .close _ => c.view.seq.toNat + 1 < 2 ^ 32
  | .outside accounts holdings =>
    Ledger.NameRegistry H.toHashes { c.view with accounts, holdings } ∧
      Ledger.OwnersCovered { c.view with accounts, holdings }

private theorem NameMove.coolingOk {entry : AccountName} (h : NameMove H s tx key (some entry))
    (hs : Table.All AccountName.CoolingOk s.names)
    (hlate : ∀ raw, tx.body = .nameUnbond raw → s.seq.toNat + kNameUnbondLedgers.toNat < 2 ^ 32) :
    entry.CoolingOk := by
  generalize hafter : some entry = after at h
  cases h with
  | same => exact hs key entry hafter.symm
  | set =>
    obtain rfl := Option.some.inj hafter
    exact fun hstatus => by cases hstatus
  | unbond hbody =>
    obtain rfl := Option.some.inj hafter
    exact fun _ => hlate _ hbody
  | release => cases hafter

private theorem Ledger.NameBooks.step (hsep : H.toHashes.Separate)
    (hs : c.view.NameBooks H.toHashes) (hst : NamesInRange H c st) :
    (c.step H st).1.view.NameBooks H.toHashes := by
  cases st with
  | tx flags tx =>
    have hout := applyTransaction_outcome H flags c.view tx
    refine ⟨hout.nameRegistry hsep hs.registry, ?_, fun key entry hentry => ?_⟩
    · exact hs.covered.imp fun others hcounted => hout.counted hcounted hst.1
    · have hmove := hout.nameMove key
      rw [show (applyTransaction H flags c.view tx).1.names.lookup key = some entry from hentry]
        at hmove
      exact hmove.coolingOk hs.cooling hst.2
  | outside accounts holdings => exact ⟨hst.1, hst.2, hs.cooling⟩
  | close store =>
    obtain ⟨hnames, hdirs⟩ := c.registry_close H store
    have haccounts := Chain.accounts_close H c store
    refine ⟨hs.registry.of_same (fun key => by rw [hnames]) (nameOf_congr haccounts) ?_, ?_, ?_⟩
    · intro key entry _ hmem
      rw [listed_congr hdirs]
      exact hmem
    · exact hs.covered.imp fun others hcounted => hcounted.of_sameOwners
        (sameOwners_of_eq haccounts hdirs) (c.ownedBy_close store)
    · rw [hnames]
      exact hs.cooling

/-- The ledger in which the cooldown of a name began, while it lasts. -/
def Ledger.releasingSince (s : Ledger) (key : UInt256) : Option ℕ :=
  (s.names.lookup key).bind fun entry =>
    if entry.nameStatus = .releasing then some (entry.unbondingStartLedger.getD 0).toNat else none

/-- The step begins the release of the name under `key`, in ledger `n`. -/
def BeginsRelease (H : Services) (key : UInt256) (n : ℕ) (c : Chain) (st : Step) : Prop :=
  c.view.seq.toNat = n ∧ c.view.releasingSince key = none ∧
    (c.step H st).1.view.releasingSince key ≠ none

/-- The step erases the name under `key`, which is when its bond is returned. -/
def ErasesName (H : Services) (key : UInt256) (c : Chain) (st : Step) : Prop :=
  c.view.names.lookup key ≠ none ∧ (c.step H st).1.view.names.lookup key = none

instance (H : Services) (key : UInt256) (n : ℕ) (c : Chain) (st : Step) :
    Decidable (BeginsRelease H key n c st) :=
  inferInstanceAs (Decidable (_ ∧ _ ∧ _))

instance (H : Services) (key : UInt256) (c : Chain) (st : Step) :
    Decidable (ErasesName H key c st) :=
  inferInstanceAs (Decidable (_ ∧ _))

private theorem releasingSince_step (c : Chain) (st : Step) (key : UInt256) :
    (c.step H st).1.view.releasingSince key = c.view.releasingSince key ∨
      (c.step H st).1.view.releasingSince key = none ∨
      (c.step H st).1.view.releasingSince key = some c.view.seq.toNat := by
  unfold Ledger.releasingSince
  cases st with
  | outside accounts holdings => exact .inl rfl
  | close store =>
    rw [(c.registry_close H store).1]
    exact .inl rfl
  | tx flags tx =>
    have hmove := (applyTransaction_outcome H flags c.view tx).nameMove key
    change (((applyTransaction H flags c.view tx).1.names.lookup key).bind _ = _) ∨
      (((applyTransaction H flags c.view tx).1.names.lookup key).bind _ = _) ∨
      (((applyTransaction H flags c.view tx).1.names.lookup key).bind _ = _)
    generalize (applyTransaction H flags c.view tx).1.names.lookup key = after at hmove ⊢
    cases hmove with
    | same => exact .inl rfl
    | set => exact .inr (.inl rfl)
    | unbond => exact .inr (.inr rfl)
    | release => exact .inr (.inl rfl)

private theorem cooled_of_erases (hs : c.view.NameBooks H.toHashes)
    (h : ErasesName H key c st) : ∃ n, c.view.releasingSince key = some n ∧
      n + kNameUnbondLedgers.toNat ≤ c.view.seq.toNat := by
  obtain ⟨hbefore, hafter⟩ := h
  cases st with
  | outside accounts holdings => exact absurd hafter hbefore
  | close store => exact absurd ((c.registry_close H store).1 ▸ hafter) hbefore
  | tx flags tx =>
    have hmove := (applyTransaction_outcome H flags c.view tx).nameMove key
    rw [show (applyTransaction H flags c.view tx).1.names.lookup key = none from hafter] at hmove
    generalize hnone : (none : Option AccountName) = after at hmove
    cases hmove with
    | same => exact absurd hnone.symm hbefore
    | set => cases hnone
    | unbond => cases hnone
    | @release _ entry hbody hentry hstatus hdue =>
      have hcooling := hs.cooling key entry hentry hstatus
      rw [UInt32.le_iff_toNat_le, UInt32.toNat_add, Nat.mod_eq_of_lt hcooling] at hdue
      refine ⟨_, ?_, hdue⟩
      rw [Ledger.releasingSince, hentry, Option.bind_some]
      exact if_pos hstatus

/-- Transactions and closes keep the number of other things an owner count counts: every object
that comes or goes comes or goes with its unit. -/
def UnitsKept (H : Services) (c : Chain) : Step → Prop
  | .outside .. => True
  | st => ∀ others, c.view.OwnersCounted others → (c.step H st).1.view.OwnersCounted others

private theorem unitsKept (hst : NamesInRange H c st) : UnitsKept H c st := by
  cases st with
  | tx flags tx =>
    exact fun others hcounted =>
      (applyTransaction_outcome H flags c.view tx).counted hcounted hst.1
  | outside accounts holdings => trivial
  | close store =>
    exact fun others hcounted => hcounted.of_sameOwners
      (sameOwners_of_eq (Chain.accounts_close H c store) (c.registry_close H store).2)
      (c.ownedBy_close store)

private theorem NamesInRange.close_lt (h : NamesInRange H c st) (hclose : st.isClose = true) :
    c.view.seq.toNat + 1 < 2 ^ 32 := by
  cases st with
  | tx => cases hclose
  | outside => cases hclose
  | close store => exact h

/-- **The registry of names.** From every ledger whose names are in order, along every run in which
no cooldown and no count wraps around: names and the accounts that have one correspond one to one,
every name holds its bond, is listed and counted at its owner, and is not released before the cooldown
has run out since its owner asked for it. -/
theorem name_registry_run (hsep : H.toHashes.Separate) {steps : List Step}
    (hstart : c.view.NameBooks H.toHashes)
    (hrun : Run.Always (Chain.step H) (NamesInRange H) c steps) :
    (Run.final (Chain.step H) c steps).view.NameRegistry H.toHashes ∧
      (Run.final (Chain.step H) c steps).view.OwnersCovered ∧
      Run.Always (Chain.step H) (UnitsKept H) c steps ∧
      ∀ key n, Run.Since (Chain.step H) (BeginsRelease H key n)
        (fun c st => ErasesName H key c st → n + kNameUnbondLedgers.toNat ≤ c.view.seq.toNat)
        c steps := by
  have hinv : ∀ (c : Chain) st, c.view.NameBooks H.toHashes → NamesInRange H c st →
      (c.step H st).1.view.NameBooks H.toHashes := fun c st hs hst => hs.step hsep hst
  have hlast := Run.invariant (fun c : Chain => c.view.NameBooks H.toHashes) hinv hstart hrun
  refine ⟨hlast.registry, hlast.covered, ?_, fun key n => ?_⟩
  · exact Run.always_of_invariant (fun _ => True) (fun _ _ _ _ => trivial)
      (fun c st _ hst => unitsKept hst) trivial hrun
  · exact Run.since_lock (fun c : Chain => c.view.NameBooks H.toHashes) hinv
      (fun c st _ hst => Chain.seq_le_step hst.close_lt)
      (fun c st _ _ => releasingSince_step c st key) (fun c st hs _ => cooled_of_erases hs)
      (fun c st hbegins => ⟨hbegins.1, hbegins.2.1⟩) hstart hrun

theorem nameBooks_of_empty {H : Hashes} (hnames : s.names = ∅)
    (haccounts : Table.All (fun root => root.accountName = none) s.accounts)
    (hcovered : s.OwnersCovered) : s.NameBooks H := by
  refine ⟨⟨fun key entry hentry => ?_, fun id key hid => ?_⟩, hcovered, fun key entry hentry => ?_⟩
  · rw [hnames] at hentry
    cases hentry
  · obtain ⟨root, hroot, hname⟩ := Option.map_eq_some_iff.mp hid
    rw [haccounts id root hroot] at hname
    cases hname
  · rw [hnames] at hentry
    cases hentry

namespace Sample

def aliceName : Blob := [97, 108, 105, 99, 101]

def hastyNameRelease : List Step :=
  [send alice 1 (.nameSet (some aliceName)), send alice 2 (.nameUnbond none), .close .empty,
    send bob 1 (.nameRelease (some aliceName))]

theorem emptyChain_nameBooks : emptyChain.view.NameBooks taggedServices.toHashes :=
  nameBooks_of_empty rfl (Table.all_of_entries (by decide +kernel)) emptyChain_bondBooks.covered

def lateChain : Chain := .start { emptyChain.parent with seq := 4294967280 }

end Sample

theorem name_registry_hasty :
    ((Run.final (Chain.step Sample.taggedServices) Sample.emptyChain
        Sample.hastyNameRelease).view.NameRegistry Sample.taggedServices.toHashes ∧
      (Run.final (Chain.step Sample.taggedServices) Sample.emptyChain
        Sample.hastyNameRelease).view.OwnersCovered ∧
      Run.Always (Chain.step Sample.taggedServices) (UnitsKept Sample.taggedServices)
        Sample.emptyChain Sample.hastyNameRelease ∧
      ∀ key n, Run.Since (Chain.step Sample.taggedServices)
        (BeginsRelease Sample.taggedServices key n)
        (fun c st => ErasesName Sample.taggedServices key c st →
          n + kNameUnbondLedgers.toNat ≤ c.view.seq.toNat)
        Sample.emptyChain Sample.hastyNameRelease) ∧
      (Run.final (Chain.step Sample.taggedServices) Sample.emptyChain
          Sample.hastyNameRelease).view.releasingSince
          (Sample.taggedServices.accountNameKey Sample.aliceName) = some 1001 := by
  have hrange : Run.Always (Chain.step Sample.taggedServices) (NamesInRange Sample.taggedServices)
      Sample.emptyChain Sample.hastyNameRelease := by
    refine ⟨⟨fun _ root hroot => ?_, fun raw hbody => ?_⟩, ⟨fun hcreates => ?_, fun raw _ => ?_⟩,
      ?_, ⟨fun hcreates => ?_, fun raw hbody => ?_⟩, trivial⟩
    · obtain rfl : Sample.account 3000000000 = root := Option.some.inj hroot
      decide
    · cases hbody
    · cases hcreates
    · decide +kernel
    · simp only [NamesInRange]
      decide +kernel
    · cases hcreates
    · cases hbody
  exact ⟨name_registry_run Sample.taggedServices_separate Sample.emptyChain_nameBooks hrange,
    by decide +kernel⟩

/-- Shortly before the last ledger, the bond of a name comes back in the ledger after the one in
which it was asked for. -/
theorem name_released_at_once :
    ¬Run.Since (Chain.step Sample.taggedServices)
      (BeginsRelease Sample.taggedServices
        (Sample.taggedServices.accountNameKey Sample.aliceName) 4294967281)
      (fun c st => ErasesName Sample.taggedServices
          (Sample.taggedServices.accountNameKey Sample.aliceName) c st →
        4294967281 + kNameUnbondLedgers.toNat ≤ c.view.seq.toNat)
      Sample.lateChain Sample.hastyNameRelease := by
  decide +kernel

end FalconLedger
