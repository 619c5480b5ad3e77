import FalconLedger.Tx.Accounts

/-!
# Identifiers of transactions

An account uses up a number with each of its transactions: its sequence number, or that of a ticket.
`IdentifiersSound` says where the numbers used so far lie, below the account's sequence number and
off its tickets, or below the ledger's where the account is gone.
-/

namespace FalconLedger

variable {H : Services} {s s' : Ledger} {id : AccountID} {v : UInt32} {root root' : AccountRoot}
  {used : List (AccountID × UInt32)}

/-- The tickets of an account. -/
def Ledger.ticketsOf (s : Ledger) (id : AccountID) : ℕ := s.tickets.keys.countP fun k => k.1 = id

/-- The account's sequence number is past the number; without the account, the ledger's is. -/
structure Ledger.Behind (s : Ledger) (k : AccountID × UInt32) : Prop where
  root : ∀ root, s.accounts.lookup k.1 = some root → k.2.toNat < root.sequence.toNat
  gone : s.accounts.lookup k.1 = none → k.2.toNat < s.seq.toNat

/-- The tickets are in their owners' directories and below their sequence numbers, and are
counted. -/
structure TicketsSound (H : Services) (s : Ledger) : Prop where
  listed : ∀ id v ticket, s.tickets.lookup (id, v) = some ticket →
    H.ticketKey id v ∈ s.listed id ticket.ownerNode
  below : ∀ id v ticket, s.tickets.lookup (id, v) = some ticket →
    ∃ root, s.accounts.lookup id = some root ∧ v.toNat < root.sequence.toNat
  counted : ∀ id root, s.accounts.lookup id = some root →
    (root.ticketCount.getD 0).toNat = s.ticketsOf id
  few : ∀ id root, s.accounts.lookup id = some root → (root.ticketCount.getD 0).toNat ≤ 250

/-- No number has been used twice, and none that was used can be used again. -/
structure IdentifiersSound (H : Services) (s : Ledger) (used : List (AccountID × UInt32)) : Prop
    extends TicketsSound H s where
  nodup : used.Nodup
  spent : ∀ k ∈ used, s.tickets.lookup k = none ∧ s.Behind k

/-! ### What leaves them alone -/

/-- The ledger's sequence number, those of the accounts, the tickets and their places are the
same. -/
structure SameIdentifiers (H : Services) (s s' : Ledger) : Prop where
  seq : s'.seq = s.seq
  tickets : s'.tickets = s.tickets
  roots : ∀ id, (s'.accounts.lookup id).map (fun r => (r.sequence, r.ticketCount)) =
    (s.accounts.lookup id).map fun r => (r.sequence, r.ticketCount)
  listed : ∀ id v ticket, s.tickets.lookup (id, v) = some ticket →
    H.ticketKey id v ∈ s.listed id ticket.ownerNode →
      H.ticketKey id v ∈ s'.listed id ticket.ownerNode

namespace SameIdentifiers

theorem refl (s : Ledger) : SameIdentifiers H s s := ⟨rfl, rfl, fun _ => rfl, fun _ _ _ _ h => h⟩

theorem trans {s'' : Ledger} (h : SameIdentifiers H s s') (h' : SameIdentifiers H s' s'') :
    SameIdentifiers H s s'' where
  seq := h'.seq.trans h.seq
  tickets := h'.tickets.trans h.tickets
  roots id := (h'.roots id).trans (h.roots id)
  listed id v ticket hticket hlisted :=
    h'.listed id v ticket (h.tickets ▸ hticket) (h.listed id v ticket hticket hlisted)

theorem before (h : SameIdentifiers H s s') (hroot' : s'.accounts.lookup id = some root') :
    ∃ root, s.accounts.lookup id = some root ∧ root'.sequence = root.sequence ∧
      root'.ticketCount = root.ticketCount := by
  have hroots := h.roots id
  rw [hroot', Option.map_some] at hroots
  obtain ⟨root, hroot, heq⟩ := Option.map_eq_some_iff.mp hroots.symm
  obtain ⟨hsequence, hcount⟩ := Prod.mk.inj heq
  exact ⟨root, hroot, hsequence.symm, hcount.symm⟩

theorem lookup_eq_none (h : SameIdentifiers H s s') :
    s'.accounts.lookup id = none ↔ s.accounts.lookup id = none := by
  rw [← Option.map_eq_none_iff, h.roots id, Option.map_eq_none_iff]

theorem after (h : SameIdentifiers H s s') (hroot : s.accounts.lookup id = some root) :
    ∃ root', s'.accounts.lookup id = some root' ∧ root'.sequence = root.sequence ∧
      root'.ticketCount = root.ticketCount := by
  cases hroot' : s'.accounts.lookup id with
  | none =>
    rw [h.lookup_eq_none.mp hroot'] at hroot
    cases hroot
  | some root' =>
    obtain ⟨root₀, hroot₀, hsequence, hcount⟩ := h.before hroot'
    obtain rfl := Option.some.inj (hroot.symm.trans hroot₀)
    exact ⟨root', rfl, hsequence, hcount⟩

theorem behind (h : SameIdentifiers H s s') {k : AccountID × UInt32} (hk : s.Behind k) :
    s'.Behind k where
  root root' hroot' := by
    obtain ⟨root, hroot, hsequence, -⟩ := h.before hroot'
    exact hsequence ▸ hk.root root hroot
  gone hnone := h.seq ▸ hk.gone (h.lookup_eq_none.mp hnone)

theorem ticketsSound (h : SameIdentifiers H s s') (hs : TicketsSound H s) : TicketsSound H s' where
  listed id v ticket hticket := by
    rw [h.tickets] at hticket
    exact h.listed id v ticket hticket (hs.listed id v ticket hticket)
  below id v ticket hticket := by
    rw [h.tickets] at hticket
    obtain ⟨root, hroot, hlt⟩ := hs.below id v ticket hticket
    obtain ⟨root', hroot', hsequence, -⟩ := h.after hroot
    exact ⟨root', hroot', hsequence ▸ hlt⟩
  counted id root' hroot' := by
    obtain ⟨root, hroot, -, hcount⟩ := h.before hroot'
    rw [hcount, hs.counted id root hroot, Ledger.ticketsOf, Ledger.ticketsOf, h.tickets]
  few id root' hroot' := by
    obtain ⟨root, hroot, -, hcount⟩ := h.before hroot'
    exact hcount ▸ hs.few id root hroot

theorem sound (h : SameIdentifiers H s s') (hs : IdentifiersSound H s used) :
    IdentifiersSound H s' used where
  toTicketsSound := h.ticketsSound hs.toTicketsSound
  nodup := hs.nodup
  spent k hk := ⟨h.tickets ▸ (hs.spent k hk).1, h.behind (hs.spent k hk).2⟩

theorem setAccount {root' : AccountRoot} (hroot : s.accounts.lookup id = some root)
    (hsequence : root'.sequence = root.sequence) (hcount : root'.ticketCount = root.ticketCount) :
    SameIdentifiers H s (s.setAccount id root') where
  seq := rfl
  tickets := rfl
  roots id' := by
    by_cases hid : id' = id
    · subst hid
      simp [Ledger.setAccount, hroot, hsequence, hcount]
    · simp [Ledger.setAccount, AList.lookup_insert_ne hid]
  listed _ _ _ _ h := h

theorem payFee {tx : STTx} (h : Transactor.payFee s tx = .ok s') : SameIdentifiers H s s' := by
  simp only [Transactor.payFee, Except.bind_eq_ok, orFail_eq_ok, Except.pure_eq_ok] at h
  obtain ⟨payer, hpayer, rfl⟩ := h
  exact setAccount hpayer rfl rfl

theorem setAccountTxnID (tx : STTx) : SameIdentifiers H s (Transactor.setAccountTxnID s tx) := by
  rw [Transactor.setAccountTxnID]
  cases hroot : s.accounts.lookup tx.account with
  | none => exact refl s
  | some root =>
    dsimp only
    split_ifs
    · exact setAccount hroot rfl rfl
    · exact refl s

theorem destroyXRP (s : Ledger) (fee : Int) :
    SameIdentifiers H s (ApplyContext.destroyXRP H.toHashes s fee) := by
  rcases ApplyContext.destroyXRP_cases H.toHashes s fee with
    ⟨-, -, heq⟩ | ⟨-, -, heq⟩ | ⟨-, treasury, htreasury, -, -, heq⟩
  · rw [heq]
    exact refl s
  · rw [heq]
    exact ⟨rfl, rfl, fun _ => rfl, fun _ _ _ _ h => h⟩
  · rw [heq]
    have hheader : SameIdentifiers H s (s.rawDestroyXRP (ApplyContext.feeBurned H.toHashes s fee)) :=
      ⟨rfl, rfl, fun _ => rfl, fun _ _ _ _ h => h⟩
    exact hheader.trans (setAccount htreasury rfl rfl)

end SameIdentifiers

/-! ### Using up a ticket -/

section Consume

variable (hkeys : Function.Injective2 H.ticketKey) {account : AccountID} {k : AccountID × UInt32}

/-- A ticket of the account has been deleted. -/
structure TicketGone (H : Services) (s : Ledger) (account : AccountID) (v : UInt32) (s' : Ledger) :
    Prop where
  seq : s'.seq = s.seq
  found : ∃ ticket, s.tickets.lookup (account, v) = some ticket
  tickets : s'.tickets = s.tickets.erase (account, v)
  others : ∀ id, id ≠ account → s'.accounts.lookup id = s.accounts.lookup id
  root : ∃ root root', s.accounts.lookup account = some root ∧
    s'.accounts.lookup account = some root' ∧ root'.sequence = root.sequence ∧
      (root'.ticketCount.getD 0).toNat + 1 = (root.ticketCount.getD 0).toNat
  listed : ∀ id v' ticket, (id, v') ≠ (account, v) → s.tickets.lookup (id, v') = some ticket →
    H.ticketKey id v' ∈ s.listed id ticket.ownerNode →
      H.ticketKey id v' ∈ s'.listed id ticket.ownerNode

theorem TicketsSound.ticketsOf_pos {ticket : Ticket}
    (h : s.tickets.lookup (id, v) = some ticket) : 0 < s.ticketsOf id :=
  List.countP_pos_iff.mpr ⟨(id, v), Table.mem_keys_of_lookup h, by simp⟩

include hkeys in
theorem ticketDelete_spec (hs : TicketsSound H s)
    (h : Transactor.ticketDelete H s account v = .ok s') : TicketGone H s account v s' := by
  simp only [Transactor.ticketDelete, Except.bind_eq_ok, orFail_eq_ok, Except.pure_eq_ok] at h
  obtain ⟨entry, hentry, _, hremove, s₁, rfl, root, hroot, count, hcount, rfl⟩ := h
  have hgone := Ledger.dirRemove_ok hremove
  have hsame : s₁.accounts = s.accounts := hgone.same.accounts
  have hseq : s₁.seq = s.seq := by rw [hgone.same]
  have htickets : s₁.tickets = s.tickets := by rw [hgone.same]
  rw [hsame] at hroot
  refine ⟨hseq, ⟨entry, hentry⟩, by rw [← htickets]; rfl, fun id hid => ?_, ?_, ?_⟩
  · rw [← hsame]
    exact AList.lookup_insert_ne hid
  · refine ⟨root, _, hroot, AList.lookup_insert _, rfl, ?_⟩
    have hpos := TicketsSound.ticketsOf_pos hentry
    rw [← hs.counted account root hroot, hcount, Option.getD_some] at hpos
    rw [hcount, Option.getD_some]
    dsimp only
    split_ifs with hone
    · rw [hone]
      rfl
    · have hsub := UInt32.toNat_sub_of_le count 1 (UInt32.le_iff_toNat_le.mpr hpos)
      rw [Option.getD_some, hsub, UInt32.toNat_one]
      omega
  · intro id v' ticket hne hticket hlisted
    have hkept : H.ticketKey id v' ∈ s₁.listed id ticket.ownerNode := by
      by_cases hpage : (id, ticket.ownerNode) = (account, entry.ownerNode)
      · obtain ⟨rfl, hnode⟩ := Prod.mk.inj hpage
        rw [hnode] at hlisted ⊢
        rw [hgone.page.listed]
        refine (List.mem_erase_of_ne fun heq => ?_).mpr hlisted
        exact hne (by rw [(hkeys heq).2])
      · rw [hgone.page.others id _ hpage]
        exact hlisted
    exact hkept

theorem TicketGone.lookup_of_some (h : TicketGone H s account v s') {ticket : Ticket}
    (hticket : s'.tickets.lookup k = some ticket) :
    k ≠ (account, v) ∧ s.tickets.lookup k = some ticket := by
  rw [h.tickets] at hticket
  by_cases hk : k = (account, v)
  · rw [hk, AList.lookup_erase] at hticket
    cases hticket
  · rw [AList.lookup_erase_ne hk] at hticket
    exact ⟨hk, hticket⟩

theorem TicketGone.lookup_of_none (h : TicketGone H s account v s')
    (hk : s.tickets.lookup k = none) : s'.tickets.lookup k = none := by
  cases hticket : s'.tickets.lookup k with
  | none => rfl
  | some ticket =>
    rw [(h.lookup_of_some hticket).2] at hk
    cases hk

theorem TicketGone.before (h : TicketGone H s account v s')
    (hroot' : s'.accounts.lookup id = some root') :
    ∃ root, s.accounts.lookup id = some root ∧ root'.sequence = root.sequence ∧
      (root'.ticketCount.getD 0).toNat + (if account = id then 1 else 0) =
        (root.ticketCount.getD 0).toNat := by
  by_cases hid : id = account
  · obtain ⟨root, root'', hroot, hroot'', hsequence, hcount⟩ := h.root
    rw [hid, hroot''] at hroot'
    obtain rfl := Option.some.inj hroot'
    exact ⟨root, hid ▸ hroot, hsequence, by rw [if_pos hid.symm]; exact hcount⟩
  · rw [h.others id hid] at hroot'
    exact ⟨root', hroot', rfl, by rw [if_neg (Ne.symm hid), add_zero]⟩

theorem TicketGone.after (h : TicketGone H s account v s')
    (hroot : s.accounts.lookup id = some root) :
    ∃ root', s'.accounts.lookup id = some root' ∧ root'.sequence = root.sequence := by
  by_cases hid : id = account
  · obtain ⟨root₀, root', hroot₀, hroot', hsequence, -⟩ := h.root
    rw [hid, hroot₀] at hroot
    obtain rfl := Option.some.inj hroot
    exact ⟨root', hid ▸ hroot', hsequence⟩
  · exact ⟨root, (h.others id hid).trans hroot, rfl⟩

theorem TicketGone.behind (h : TicketGone H s account v s') (hk : s.Behind k) : s'.Behind k where
  root root' hroot' := by
    obtain ⟨root, hroot, hsequence, -⟩ := h.before hroot'
    exact hsequence ▸ hk.root root hroot
  gone hnone := by
    refine h.seq ▸ hk.gone ?_
    cases hroot : s.accounts.lookup k.1 with
    | none => rfl
    | some root =>
      obtain ⟨root', hroot', -⟩ := h.after hroot
      rw [hroot'] at hnone
      cases hnone

theorem TicketGone.ticketsSound (h : TicketGone H s account v s') (hs : TicketsSound H s) :
    TicketsSound H s' where
  listed id v' ticket hticket := by
    obtain ⟨hne, hticket⟩ := h.lookup_of_some hticket
    exact h.listed id v' ticket hne hticket (hs.listed id v' ticket hticket)
  below id v' ticket hticket := by
    obtain ⟨-, hticket⟩ := h.lookup_of_some hticket
    obtain ⟨root, hroot, hlt⟩ := hs.below id v' ticket hticket
    obtain ⟨root', hroot', hsequence⟩ := h.after hroot
    exact ⟨root', hroot', hsequence ▸ hlt⟩
  counted id root' hroot' := by
    obtain ⟨root, hroot, -, hcount⟩ := h.before hroot'
    obtain ⟨ticket, hticket⟩ := h.found
    have herase := Table.countP_keys_erase (fun k : AccountID × UInt32 => decide (k.1 = id)) hticket
    have hcounted := hs.counted id root hroot
    simp only [Ledger.ticketsOf, h.tickets, decide_eq_true_eq] at herase hcounted ⊢
    omega
  few id root' hroot' := by
    obtain ⟨root, hroot, -, hcount⟩ := h.before hroot'
    have := hs.few id root hroot
    omega

theorem TicketGone.sound (h : TicketGone H s account v s') (hs : IdentifiersSound H s used) :
    IdentifiersSound H s' used where
  toTicketsSound := h.ticketsSound hs.toTicketsSound
  nodup := hs.nodup
  spent k hk := ⟨h.lookup_of_none (hs.spent k hk).1, h.behind (hs.spent k hk).2⟩

/-! ### Charging -/

variable {tx : STTx}

/-- The number the transaction uses up. -/
def STTx.identifier (tx : STTx) : AccountID × UInt32 := (tx.account, tx.seqProxy.value)

/-- A sequence number is the account's. -/
def Ledger.InTurn (s : Ledger) (tx : STTx) : Prop :=
  ∀ n, tx.seqProxy = .seq n → ∀ root, s.accounts.lookup tx.account = some root → root.sequence = n

/-- The transaction has used up its number. -/
structure Consumed (H : Services) (s : Ledger) (tx : STTx) (used : List (AccountID × UInt32))
    (s' : Ledger) : Prop where
  seq : s'.seq = s.seq
  sound : IdentifiersSound H s' (used ++ [tx.identifier])
  before : ∀ id root', s'.accounts.lookup id = some root' →
    ∃ root, s.accounts.lookup id = some root ∧
      root'.sequence.toNat ≤ root.sequence.toNat + 1 ∧
      (root'.ticketCount.getD 0).toNat +
          (if tx.account = id ∧ tx.seqProxy.isTicket = true then 1 else 0) =
        (root.ticketCount.getD 0).toNat

theorem Consumed.after_same {s₁ : Ledger} (h : Consumed H s tx used s₁)
    (hsame : SameIdentifiers H s₁ s') : Consumed H s tx used s' where
  seq := hsame.seq.trans h.seq
  sound := hsame.sound h.sound
  before id root' hroot' := by
    obtain ⟨root₁, hroot₁, hsequence, hcount⟩ := hsame.before hroot'
    rw [hsequence, hcount]
    exact h.before id root₁ hroot₁

theorem Consumed.same_before {s₁ : Ledger} (hsame : SameIdentifiers H s s₁)
    (h : Consumed H s₁ tx used s') : Consumed H s tx used s' where
  seq := h.seq.trans hsame.seq
  sound := h.sound
  before id root' hroot' := by
    obtain ⟨root₁, hroot₁, hle⟩ := h.before id root' hroot'
    obtain ⟨root, hroot, hsequence, hcount⟩ := hsame.before hroot₁
    rw [hsequence, hcount] at hle
    exact ⟨root, hroot, hle⟩

theorem nodup_concat {k : AccountID × UInt32} (h : used.Nodup) (hk : k ∉ used) :
    (used ++ [k]).Nodup := by
  rw [← List.concat_eq_append]
  exact List.Nodup.concat hk h

theorem consume_sequence {n : UInt32} (hs : IdentifiersSound H s used)
    (hseq : tx.seqProxy = .seq n) (hroot : s.accounts.lookup tx.account = some root)
    (hturn : root.sequence = n) (hlow : root.sequence.toNat + 1 < 4294967296) :
    Consumed H s tx used (s.setAccount tx.account { root with sequence := n + 1 }) := by
  have hnext : (n + 1).toNat = n.toNat + 1 := by
    have hadd : (n + 1).toNat = (n.toNat + 1) % 4294967296 := UInt32.toNat_add n 1
    rw [hturn] at hlow
    omega
  have hself : (s.setAccount tx.account { root with sequence := n + 1 }).accounts.lookup
      tx.account = some { root with sequence := n + 1 } := AList.lookup_insert _
  have hother : ∀ id, id ≠ tx.account → (s.setAccount tx.account
      { root with sequence := n + 1 }).accounts.lookup id = s.accounts.lookup id :=
    fun id hid => AList.lookup_insert_ne hid
  have hbefore : ∀ id root', (s.setAccount tx.account
      { root with sequence := n + 1 }).accounts.lookup id = some root' →
      ∃ root, s.accounts.lookup id = some root ∧ root.sequence.toNat ≤ root'.sequence.toNat ∧
        root'.sequence.toNat ≤ root.sequence.toNat + 1 ∧
        root'.ticketCount = root.ticketCount := fun id root' hroot' => by
    by_cases hid : id = tx.account
    · rw [hid, hself] at hroot'
      obtain rfl := Option.some.inj hroot'
      refine ⟨root, hid ▸ hroot, ?_, ?_, rfl⟩ <;> rw [hturn] <;> simp only [hnext] <;> omega
    · rw [hother id hid] at hroot'
      exact ⟨root', hroot', le_rfl, by omega, rfl⟩
  have hfresh : tx.identifier ∉ used := fun hmem => by
    have hlt := (hs.spent _ hmem).2.root root hroot
    rw [STTx.identifier, hseq, hturn] at hlt
    exact absurd hlt (lt_irrefl _)
  refine ⟨rfl, ⟨⟨hs.listed, fun id v ticket hticket => ?_, fun id root' hroot' => ?_,
    fun id root' hroot' => ?_⟩, nodup_concat hs.nodup hfresh, fun k hk => ?_⟩,
    fun id root' hroot' => ?_⟩
  · obtain ⟨root₀, hroot₀, hlt⟩ := hs.below id v ticket hticket
    by_cases hid : id = tx.account
    · rw [hid, hroot] at hroot₀
      obtain rfl := Option.some.inj hroot₀
      refine ⟨{ root with sequence := n + 1 }, by rw [hid]; exact hself, ?_⟩
      rw [hturn] at hlt
      simp only [hnext]
      omega
    · exact ⟨root₀, (hother id hid).trans hroot₀, hlt⟩
  · obtain ⟨root₀, hroot₀, -, -, hcount⟩ := hbefore id root' hroot'
    rw [hcount]
    exact hs.counted id root₀ hroot₀
  · obtain ⟨root₀, hroot₀, -, -, hcount⟩ := hbefore id root' hroot'
    rw [hcount]
    exact hs.few id root₀ hroot₀
  · rcases List.mem_append.mp hk with hk | hk
    · obtain ⟨hnone, hbehind⟩ := hs.spent k hk
      refine ⟨hnone, fun root' hroot' => ?_, fun hgone => ?_⟩
      · obtain ⟨root₀, hroot₀, hle, -⟩ := hbefore k.1 root' hroot'
        exact (hbehind.root root₀ hroot₀).trans_le hle
      · by_cases hid : k.1 = tx.account
        · rw [hid, hself] at hgone
          cases hgone
        · exact hbehind.gone ((hother k.1 hid).symm.trans hgone)
    · obtain rfl := List.mem_singleton.mp hk
      have hidentifier : tx.identifier = (tx.account, n) := by
        rw [STTx.identifier, hseq]
        rfl
      rw [hidentifier]
      refine ⟨?_, fun root' hroot' => ?_, fun hgone => ?_⟩
      · cases hticket : s.tickets.lookup (tx.account, n) with
        | none => exact hticket
        | some ticket =>
          obtain ⟨root₀, hroot₀, hlt⟩ := hs.below _ _ ticket hticket
          rw [hroot] at hroot₀
          obtain rfl := Option.some.inj hroot₀
          rw [hturn] at hlt
          exact absurd hlt (lt_irrefl _)
      · rw [hself] at hroot'
        obtain rfl := Option.some.inj hroot'
        simp only [hnext]
        omega
      · rw [hself] at hgone
        cases hgone
  · obtain ⟨root₀, hroot₀, -, hle, hcount⟩ := hbefore id root' hroot'
    refine ⟨root₀, hroot₀, hle, ?_⟩
    rw [hcount, hseq, if_neg (by simp [SeqProxy.isTicket]), add_zero]

theorem TicketGone.consumed (hticket : tx.seqProxy = .ticket v)
    (h : TicketGone H s tx.account v s') (hs : IdentifiersSound H s used) :
    Consumed H s tx used s' := by
  have hidentifier : tx.identifier = (tx.account, v) := by
    rw [STTx.identifier, hticket]
    rfl
  obtain ⟨ticket, hfound⟩ := h.found
  have hfresh : tx.identifier ∉ used := fun hmem => by
    have hnone := (hs.spent _ hmem).1
    rw [hidentifier, hfound] at hnone
    cases hnone
  have hsound := h.sound hs
  refine ⟨h.seq, ⟨hsound.toTicketsSound, nodup_concat hs.nodup hfresh, fun k hk => ?_⟩,
    fun id root' hroot' => ?_⟩
  · rcases List.mem_append.mp hk with hk | hk
    · exact hsound.spent k hk
    · obtain rfl := List.mem_singleton.mp hk
      rw [hidentifier]
      refine ⟨by rw [h.tickets, AList.lookup_erase], fun root' hroot' => ?_, fun hgone => ?_⟩
      · obtain ⟨root, hroot, hsequence, -⟩ := h.before hroot'
        obtain ⟨root₀, hroot₀, hlt⟩ := hs.below _ _ ticket hfound
        rw [hroot] at hroot₀
        obtain rfl := Option.some.inj hroot₀
        exact hsequence ▸ hlt
      · obtain ⟨-, root', -, hroot', -⟩ := h.root
        rw [hroot'] at hgone
        cases hgone
  · obtain ⟨root, hroot, hsequence, hcount⟩ := h.before hroot'
    refine ⟨root, hroot, by rw [hsequence]; omega, ?_⟩
    rw [hticket, ← hcount]
    simp [SeqProxy.isTicket]

include hkeys in
theorem IdentifiersSound.consume (hs : IdentifiersSound H s used) (hturn : s.InTurn tx)
    (hlow : ∀ root, s.accounts.lookup tx.account = some root →
      root.sequence.toNat + 1 < 4294967296)
    (h : Transactor.consumeSeqProxy H s tx = .ok s') : Consumed H s tx used s' := by
  rw [Transactor.consumeSeqProxy] at h
  cases hcase : tx.seqProxy with
  | seq n =>
    simp only [hcase, Except.bind_eq_ok, orFail_eq_ok, Except.pure_eq_ok] at h
    obtain ⟨root, hroot, rfl⟩ := h
    exact consume_sequence hs hcase hroot (hturn n hcase root hroot) (hlow root hroot)
  | ticket v =>
    simp only [hcase] at h
    exact (ticketDelete_spec hkeys hs.toTicketsSound h).consumed hcase hs

include hkeys in
theorem IdentifiersSound.charge (hs : IdentifiersSound H s used) (hturn : s.InTurn tx)
    (hlow : ∀ root, s.accounts.lookup tx.account = some root →
      root.sequence.toNat + 1 < 4294967296)
    (hfound : s.accounts.lookup tx.account ≠ none)
    (h : Transactor.charge H s tx = .ok s') : Consumed H s tx used s' := by
  rw [Transactor.charge, if_neg hfound] at h
  simp only [Except.bind_eq_ok, Except.pure_eq_ok] at h
  obtain ⟨s₁, hconsume, s₂, hpay, rfl⟩ := h
  have hconsumed := hs.consume hkeys hturn hlow hconsume
  exact (hconsumed.after_same (.payFee hpay)).after_same (.setAccountTxnID tx)

include hkeys in
theorem IdentifiersSound.reset {fee fee' : Int} (hs : IdentifiersSound H s used)
    (hturn : s.InTurn tx) (hlow : ∀ root, s.accounts.lookup tx.account = some root →
      root.sequence.toNat + 1 < 4294967296)
    (h : Transactor.reset H s tx fee = .ok (s', fee')) : Consumed H s tx used s' := by
  simp only [Transactor.reset, Except.bind_eq_ok, orFail_eq_ok, Except.pure_eq_ok] at h
  obtain ⟨_, -, payer, hpayer, s₁, hconsume, heq⟩ := h
  obtain ⟨rfl, -⟩ := Prod.mk.inj heq
  have hsame : SameIdentifiers H s (s.setAccount tx.getFeePayer
      { payer with balance := payer.balance - if payer.balance < fee then payer.balance else fee }) :=
    .setAccount hpayer rfl rfl
  refine Consumed.same_before hsame ((hsame.sound hs).consume hkeys (fun n hn root' hroot' => ?_)
    (fun root' hroot' => ?_) hconsume)
  · obtain ⟨root, hroot, hsequence, -⟩ := hsame.before hroot'
    exact hsequence.trans (hturn n hn root hroot)
  · obtain ⟨root, hroot, hsequence, -⟩ := hsame.before hroot'
    exact hsequence ▸ hlow root hroot

end Consume

end FalconLedger
