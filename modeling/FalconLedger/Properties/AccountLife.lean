import FalconLedger.Properties.Identifiers

/-!
# What the transactors do to identifiers

`TicketCreate` moves the sequence number past the tickets it makes; a deleted account leaves no ticket
behind, and the ledger's sequence number is past all it has used; and an account a payment makes
starts from there. Each keeps `IdentifiersSound`.
-/

namespace FalconLedger

variable {H : Services} {s s' : Ledger} {account id : AccountID} {v : UInt32}
  {root root' : AccountRoot} {used : List (AccountID × UInt32)} {tx : AccountTx}

/-! ### `TicketCreate` -/

/-- `n` tickets have been made, from `v` on. -/
structure TicketsMade (H : Services) (account : AccountID) (n : ℕ) (v : UInt32) (s s' : Ledger) :
    Prop where
  seq : s'.seq = s.seq
  accounts : s'.accounts = s.accounts
  lookup : ∀ k ticket, s'.tickets.lookup k = some ticket → s.tickets.lookup k = some ticket ∨
    k.1 = account ∧ v.toNat ≤ k.2.toNat ∧ k.2.toNat < v.toNat + n ∧
      H.ticketKey k.1 k.2 ∈ s'.listed k.1 ticket.ownerNode
  count : ∀ id, s'.ticketsOf id = s.ticketsOf id + if account = id then n else 0
  listed : ∀ key o p, key ∈ s.listed o p → key ∈ s'.listed o p

theorem TicketCreate.createTickets_spec {n : ℕ} (hroom : v.toNat + n < 4294967296)
    (h : createTickets H account n v s = .ok s') : TicketsMade H account n v s s' := by
  induction n generalizing v s with
  | zero =>
    cases h
    exact ⟨rfl, rfl, fun _ _ hk => .inl hk, fun _ => by simp, fun _ _ _ hk => hk⟩
  | succ n ih =>
    simp only [createTickets, Except.bind_eq_ok, failIf_eq_ok, orFail_eq_ok] at h
    obtain ⟨_, hfresh, _, hinsert, ⟨page, s₁⟩, rfl, h⟩ := h
    have hadded := Ledger.dirInsert_ok hinsert
    have hsame : s₁ = { s with dirs := s₁.dirs } := hadded.same
    have hnext : (v + 1).toNat = v.toNat + 1 := by
      have hadd : (v + 1).toNat = (v.toNat + 1) % 4294967296 := UInt32.toNat_add v 1
      omega
    have hmade := ih (by omega) h
    have hfree : s.tickets.lookup (account, v) = none := by simpa using hfresh
    have htickets : s₁.tickets = s.tickets := by rw [hsame]
    have hgrown : ∀ key o p, key ∈ s.listed o p → key ∈ s₁.listed o p := fun key o p hkey => by
      by_cases hop : (o, p) = (account, page)
      · obtain ⟨rfl, rfl⟩ := Prod.mk.inj hop
        exact hadded.page.listed.mem_iff.mpr (List.mem_cons_of_mem _ hkey)
      · rw [hadded.page.others o p hop]
        exact hkey
    refine ⟨hmade.seq.trans (by rw [hsame]), hmade.accounts.trans (by rw [hsame]),
      fun k ticket hticket => ?_, fun id => ?_, fun key o p hkey =>
        hmade.listed key o p (hgrown key o p hkey)⟩
    · rcases hmade.lookup k ticket hticket with hold | ⟨haccount, hle, hlt, hlisted⟩
      · by_cases hk : k = (account, v)
        · subst hk
          obtain rfl := Option.some.inj ((AList.lookup_insert _).symm.trans hold)
          refine .inr ⟨rfl, le_rfl, Nat.lt_add_of_pos_right n.succ_pos, hmade.listed _ _ _ ?_⟩
          exact hadded.page.listed.mem_iff.mpr List.mem_cons_self
        · refine .inl ?_
          rw [← htickets]
          exact (AList.lookup_insert_ne hk).symm.trans hold
      · exact .inr ⟨haccount, by omega, by omega, hlisted⟩
    · have hinserted := Table.countP_keys_insert (v := (⟨page⟩ : Ticket))
        (fun k : AccountID × UInt32 => decide (k.1 = id)) hfree
      have hcount := hmade.count id
      simp only [Ledger.ticketsOf, htickets, decide_eq_true_eq] at hcount hinserted ⊢
      rw [hcount, hinserted]
      split_ifs <;> omega

theorem TicketCreate.doApply_sound {fees : Reserves} {preFeeBalance : Int} {ticketCount : UInt32}
    (hs : IdentifiersSound H s used)
    (hroom : ∀ root, s.accounts.lookup tx.account = some root →
      root.sequence.toNat + ticketCount.toNat < 4294967296 ∧
        (root.ticketCount.getD 0).toNat + ticketCount.toNat ≤ 250)
    (h : TicketCreate.doApply H fees s preFeeBalance tx ticketCount = .ok s') :
    IdentifiersSound H s' used := by
  simp only [TicketCreate.doApply, Except.bind_eq_ok, orFail_eq_ok, failIf_eq_ok,
    Except.pure_eq_ok] at h
  obtain ⟨root, hroot, _, -, _, -, s₁, hcreate, rfl⟩ := h
  obtain ⟨hsequence, hcount⟩ := hroom root hroot
  have hmade := createTickets_spec hsequence hcreate
  have hmoved : (root.sequence + ticketCount).toNat = root.sequence.toNat + ticketCount.toNat := by
    rw [UInt32.toNat_add]
    exact Nat.mod_eq_of_lt hsequence
  have hmore : (root.ticketCount.getD 0 + ticketCount).toNat =
      (root.ticketCount.getD 0).toNat + ticketCount.toNat := by
    rw [UInt32.toNat_add]
    exact Nat.mod_eq_of_lt (by omega)
  set new : AccountRoot := { root with
    ticketCount := some (root.ticketCount.getD 0 + ticketCount)
    ownerCount := confineOwnerCount root.ownerCount ticketCount
    sequence := root.sequence + ticketCount } with hnew
  have hself : (s₁.setAccount tx.account new).accounts.lookup tx.account = some new :=
    AList.lookup_insert _
  have hother : ∀ id, id ≠ tx.account →
      (s₁.setAccount tx.account new).accounts.lookup id = s.accounts.lookup id := fun id hid => by
    rw [← hmade.accounts]
    exact AList.lookup_insert_ne hid
  have hnewseq : new.sequence.toNat = root.sequence.toNat + ticketCount.toNat := hmoved
  refine ⟨⟨fun id v ticket hticket => ?_, fun id v ticket hticket => ?_, fun id root' hroot' => ?_,
    fun id root' hroot' => ?_⟩, hs.nodup, fun k hk => ?_⟩
  · rcases hmade.lookup (id, v) ticket hticket with hold | ⟨-, -, -, hlisted⟩
    · exact hmade.listed _ _ _ (hs.listed id v ticket hold)
    · exact hlisted
  · rcases hmade.lookup (id, v) ticket hticket with hold | ⟨hid, -, hlt, -⟩
    · obtain ⟨root₀, hroot₀, hlt⟩ := hs.below id v ticket hold
      by_cases hid : id = tx.account
      · rw [hid, hroot] at hroot₀
        obtain rfl := Option.some.inj hroot₀
        exact ⟨new, by rw [hid]; exact hself, by omega⟩
      · exact ⟨root₀, (hother id hid).trans hroot₀, hlt⟩
    · exact ⟨new, by rw [show id = tx.account from hid]; exact hself, by rw [hnewseq]; exact hlt⟩
  · have hmadeCount : (s₁.setAccount tx.account new).ticketsOf id = _ := hmade.count id
    rw [hmadeCount]
    by_cases hid : id = tx.account
    · rw [hid, hself] at hroot'
      obtain rfl := Option.some.inj hroot'
      rw [if_pos hid.symm, hid, ← hs.counted _ root hroot]
      exact hmore
    · rw [hother id hid] at hroot'
      rw [if_neg (Ne.symm hid), add_zero]
      exact hs.counted id root' hroot'
  · by_cases hid : id = tx.account
    · rw [hid, hself] at hroot'
      obtain rfl := Option.some.inj hroot'
      exact hmore.trans_le hcount
    · rw [hother id hid] at hroot'
      exact hs.few id root' hroot'
  · obtain ⟨hnone, hbehind⟩ := hs.spent k hk
    refine ⟨?_, fun root' hroot' => ?_, fun hgone => ?_⟩
    · cases hticket : (s₁.setAccount tx.account new).tickets.lookup k with
      | none => rfl
      | some ticket =>
        rcases hmade.lookup k ticket hticket with hold | ⟨hid, hle, -, -⟩
        · rw [hnone] at hold
          cases hold
        · have hlt := hbehind.root root (hid ▸ hroot)
          omega
    · by_cases hid : k.1 = tx.account
      · rw [hid, hself] at hroot'
        obtain rfl := Option.some.inj hroot'
        have hlt := hbehind.root root (hid ▸ hroot)
        omega
      · rw [hother k.1 hid] at hroot'
        exact hbehind.root root' hroot'
    · by_cases hid : k.1 = tx.account
      · rw [hid, hself] at hgone
        cases hgone
      · rw [hother k.1 hid] at hgone
        exact hmade.seq.symm ▸ hbehind.gone hgone

/-! ### `AccountDelete` -/

section AccountDelete

variable {G : AccountServices} (hkeys : Function.Injective2 G.ticketKey)

/-- What the code that is not modelled does leaves the identifiers alone: no other transactor makes or
deletes an account, moves a sequence number or touches a ticket. -/
structure AccountServices.Sound (G : AccountServices) : Prop where
  pay : ∀ s tx s', G.pay s tx = .ok s' → SameIdentifiers G.toServices s s'
  deleteObject : ∀ s id entry s', G.deleteObject s id entry = .ok s' →
    SameIdentifiers G.toServices s s'
  removeExpired : ∀ s tx ter, SameIdentifiers G.toServices s (G.removeExpired s tx ter)
  otherDoApply : ∀ s tx s', G.otherDoApply s tx = .ok s' → SameIdentifiers G.toServices s s'

variable (hG : G.Sound)

/-- Part of a directory has been cleaned up. -/
structure CleanedUp (G : AccountServices) (account : AccountID) (l : List UInt256) (s s' : Ledger) :
    Prop where
  seq : s'.seq = s.seq
  sound : ∀ used, IdentifiersSound G.toServices s used → IdentifiersSound G.toServices s' used
  roots : ∀ id root', s'.accounts.lookup id = some root' →
    ∃ root, s.accounts.lookup id = some root ∧ root'.sequence = root.sequence
  tickets : ∀ k ticket, s'.tickets.lookup k = some ticket → s.tickets.lookup k = some ticket
  gone : ∀ v ticket, s'.tickets.lookup (account, v) = some ticket → G.ticketKey account v ∉ l

include hkeys hG in
theorem AccountDelete.deleteEntry_spec {entry : UInt256}
    (hs : TicketsSound G.toServices s)
    (h : deleteEntry G s account entry = .ok s') : CleanedUp G account [entry] s s' := by
  rw [deleteEntry] at h
  cases hat : ticketAt G s account entry with
  | some w =>
    simp only [hat] at h
    have hgone := ticketDelete_spec hkeys hs h
    obtain ⟨k, hfind, rfl⟩ := Option.map_eq_some_iff.mp hat
    have hprop := List.find?_some hfind
    simp only [Bool.and_eq_true, decide_eq_true_eq, beq_iff_eq] at hprop
    refine ⟨hgone.seq, fun used => hgone.sound, fun id root' hroot' => ?_,
      fun k ticket hticket => (hgone.lookup_of_some hticket).2, fun v ticket hticket => ?_⟩
    · obtain ⟨root, hroot, hsequence, -⟩ := hgone.before hroot'
      exact ⟨root, hroot, hsequence⟩
    · intro hmem
      have heq : G.ticketKey account v = G.ticketKey k.1 k.2 :=
        (List.mem_singleton.mp hmem).trans hprop.2.symm
      exact (hgone.lookup_of_some hticket).1 (by rw [(hkeys heq).2])
  | none =>
    simp only [hat] at h
    have hsame := hG.deleteObject s account entry s' h
    refine ⟨hsame.seq, fun used => hsame.sound, fun id root' hroot' => ?_,
      fun k ticket hticket => hsame.tickets ▸ hticket, fun v ticket hticket hmem => ?_⟩
    · obtain ⟨root, hroot, hsequence, -⟩ := hsame.before hroot'
      exact ⟨root, hroot, hsequence⟩
    · rw [hsame.tickets] at hticket
      have hkey : (account, v) ∈ s.tickets.keys := Table.mem_keys_of_lookup hticket
      rw [ticketAt, Option.map_eq_none_iff, List.find?_eq_none] at hat
      exact hat (account, v) hkey (by simpa using List.mem_singleton.mp hmem)

include hkeys hG in
theorem AccountDelete.cleanup_spec {l : List UInt256} (hs : IdentifiersSound G.toServices s used)
    (h : cleanup G account l s = .ok s') : CleanedUp G account l s s' := by
  induction l generalizing s with
  | nil =>
    cases h
    exact ⟨rfl, fun _ => id, fun _ root' h => ⟨root', h, rfl⟩, fun _ _ => id,
      fun _ _ _ => List.not_mem_nil⟩
  | cons entry rest ih =>
    simp only [cleanup, Except.bind_eq_ok] at h
    obtain ⟨s₁, hdelete, h⟩ := h
    have hfirst := deleteEntry_spec hkeys hG hs.toTicketsSound hdelete
    have hrest := ih (hfirst.sound used hs) h
    refine ⟨hrest.seq.trans hfirst.seq, fun used hs => hrest.sound used (hfirst.sound used hs),
      fun id root' hroot' => ?_, fun k ticket hticket =>
        hfirst.tickets k ticket (hrest.tickets k ticket hticket), fun v ticket hticket hmem => ?_⟩
    · obtain ⟨root₁, hroot₁, heq₁⟩ := hrest.roots id root' hroot'
      obtain ⟨root, hroot, heq⟩ := hfirst.roots id root₁ hroot₁
      exact ⟨root, hroot, heq₁.trans heq⟩
    · rcases List.mem_cons.mp hmem with heq | hmem
      · exact hfirst.gone v ticket (hrest.tickets _ ticket hticket) (List.mem_singleton.mpr heq)
      · exact hrest.gone v ticket hticket hmem

theorem TicketsSound.mem_ownedEntries (hs : TicketsSound H s) {ticket : Ticket}
    (h : s.tickets.lookup (account, v) = some ticket) :
    H.ticketKey account v ∈ s.ownedEntries account := by
  have hlisted := hs.listed account v ticket h
  rw [Ledger.listed] at hlisted
  cases hnode : s.dirs.lookup (account, ticket.ownerNode) with
  | none =>
    rw [hnode] at hlisted
    exact absurd hlisted List.not_mem_nil
  | some node =>
    rw [hnode] at hlisted
    refine List.mem_flatMap.mpr ⟨⟨(account, ticket.ownerNode), node⟩,
      AList.mem_lookup_iff.mp hnode, ?_⟩
    rw [if_pos rfl]
    exact hlisted

theorem AccountDelete.transferRest_same {destination : AccountID}
    (h : transferRest s account destination = .ok s') : SameIdentifiers H s s' := by
  simp only [transferRest, Except.bind_eq_ok, orFail_eq_ok, Except.pure_eq_ok] at h
  obtain ⟨src, hsrc, dst, hdst, rfl⟩ := h
  have hfirst : SameIdentifiers H s
      (s.setAccount destination { dst with balance := dst.balance + src.balance }) :=
    .setAccount hdst rfl rfl
  obtain ⟨src', hsrc', hsequence, hcount⟩ := hfirst.after hsrc
  exact hfirst.trans (.setAccount hsrc' hsequence.symm hcount.symm)

theorem Ledger.emptyDirDelete_spec {b : Bool} (h : s.emptyDirDelete account = .ok (b, s')) :
    s'.seq = s.seq ∧ s'.accounts = s.accounts ∧ s'.tickets = s.tickets ∧
      ∀ o p, o ≠ account → s'.listed o p = s.listed o p := by
  have hdrop : ∀ {t : Ledger} {node node' : DirNode},
      s.dirDropOnlyPage account node = .ok (t, node') →
      t.seq = s.seq ∧ t.accounts = s.accounts ∧ t.tickets = s.tickets ∧
        ∀ o p, o ≠ account → t.listed o p = s.listed o p := fun {t node node'} h => by
    rw [dirDropOnlyPage] at h
    split_ifs at h
    · simp only [Except.bind_eq_ok, orFail_eq_ok, Except.pure_eq_ok] at h
      obtain ⟨last, -, h⟩ := h
      split_ifs at h <;> obtain ⟨rfl, -⟩ := Prod.mk.inj h
      · refine ⟨rfl, rfl, rfl, fun o p ho => ?_⟩
        have hne : ∀ q, (o, p) ≠ (account, q) := fun q heq => ho (Prod.mk.inj heq).1
        simp only [listed, erasePage, setPage, AList.lookup_erase_ne (hne _),
          AList.lookup_insert_ne (hne _)]
      · exact ⟨rfl, rfl, rfl, fun _ _ _ => rfl⟩
    · obtain ⟨rfl, -⟩ := Prod.mk.inj (Except.ok.inj h)
      exact ⟨rfl, rfl, rfl, fun _ _ _ => rfl⟩
  rw [emptyDirDelete] at h
  cases hroot : s.dirs.lookup (account, 0) with
  | none =>
    simp only [hroot] at h
    obtain ⟨-, rfl⟩ := Prod.mk.inj (Except.ok.inj h)
    exact ⟨rfl, rfl, rfl, fun _ _ _ => rfl⟩
  | some root =>
    simp only [hroot] at h
    split_ifs at h
    · obtain ⟨-, rfl⟩ := Prod.mk.inj (Except.ok.inj h)
      exact ⟨rfl, rfl, rfl, fun _ _ _ => rfl⟩
    · simp only [Except.bind_eq_ok] at h
      obtain ⟨_, -, _, -, ⟨t, node⟩, ht, h⟩ := h
      obtain ⟨hseq, haccounts, htickets, hlisted⟩ := hdrop ht
      split_ifs at h <;> simp only [Except.pure_eq_ok] at h <;> obtain ⟨-, rfl⟩ := Prod.mk.inj h
      · exact ⟨hseq, haccounts, htickets, hlisted⟩
      · refine ⟨hseq, haccounts, htickets, fun o p ho => ?_⟩
        have hne : (o, p) ≠ (account, 0) := fun heq => ho (Prod.mk.inj heq).1
        rw [← hlisted o p ho]
        simp only [listed, erasePage, AList.lookup_erase_ne hne]
      · exact ⟨hseq, haccounts, htickets, hlisted⟩

include hkeys hG in
theorem AccountDelete.doApply_sound {destination : AccountID}
    (hs : IdentifiersSound G.toServices s used)
    (hpast : ∀ root, s.accounts.lookup tx.account = some root →
      root.sequence.toNat ≤ s.seq.toNat)
    (h : AccountDelete.doApply G s tx destination = .ok s') :
    IdentifiersSound G.toServices s' used := by
  simp only [AccountDelete.doApply, Except.bind_eq_ok, orFail_eq_ok, failIf_eq_ok,
    Except.pure_eq_ok] at h
  obtain ⟨src, hsrc, _, -, _, -, s₁, hclean, s₂, hrest, ⟨_, s₃⟩, hempty, _, -, rfl⟩ := h
  have hcleaned := cleanup_spec hkeys hG hs hclean
  have hsame : SameIdentifiers G.toServices s₁ s₂ := transferRest_same hrest
  have hs₂ := hsame.sound (hcleaned.sound used hs)
  obtain ⟨hseq, haccounts, htickets, hlisted⟩ := Ledger.emptyDirDelete_spec hempty
  have hnoTicket : ∀ v, s₂.tickets.lookup (tx.account, v) = none := fun v => by
    rw [hsame.tickets]
    cases hticket : s₁.tickets.lookup (tx.account, v) with
    | none => rfl
    | some ticket =>
      have hmem := hs.toTicketsSound.mem_ownedEntries (hcleaned.tickets _ ticket hticket)
      exact absurd hmem (hcleaned.gone v ticket hticket)
  have hother : ∀ id, id ≠ tx.account →
      (s₃.accounts.erase tx.account).lookup id = s₂.accounts.lookup id := fun id hid => by
    rw [AList.lookup_erase_ne hid, haccounts]
  have hticketOf : ∀ id v ticket, s₃.tickets.lookup (id, v) = some ticket →
      id ≠ tx.account ∧ s₂.tickets.lookup (id, v) = some ticket := fun id v ticket hticket => by
    rw [htickets] at hticket
    refine ⟨fun hid => ?_, hticket⟩
    rw [hid, hnoTicket v] at hticket
    cases hticket
  have hroot : ∀ id root, (s₃.accounts.erase tx.account).lookup id = some root →
      id ≠ tx.account ∧ s₂.accounts.lookup id = some root := fun id root hroot => by
    have hid : id ≠ tx.account := fun hid => by
      rw [hid, AList.lookup_erase] at hroot
      cases hroot
    exact ⟨hid, (hother id hid).symm.trans hroot⟩
  refine ⟨⟨fun id v ticket hticket => ?_, fun id v ticket hticket => ?_, fun id root' hroot' => ?_,
    fun id root' hroot' => ?_⟩, hs.nodup, fun k hk => ⟨?_, fun root' hroot' => ?_, fun hgone => ?_⟩⟩
  · obtain ⟨hid, hticket⟩ := hticketOf id v ticket hticket
    have hkept := hs₂.listed id v ticket hticket
    rw [← hlisted id ticket.ownerNode hid] at hkept
    exact hkept
  · obtain ⟨hid, hticket⟩ := hticketOf id v ticket hticket
    obtain ⟨root, hroot, hlt⟩ := hs₂.below id v ticket hticket
    exact ⟨root, (hother id hid).trans hroot, hlt⟩
  · obtain ⟨-, hroot'⟩ := hroot id root' hroot'
    rw [hs₂.counted id root' hroot', Ledger.ticketsOf, Ledger.ticketsOf]
    exact congrArg (fun t : Table (AccountID × UInt32) Ticket =>
      t.keys.countP fun k => k.1 = id) htickets.symm
  · exact hs₂.few id root' (hroot id root' hroot').2
  · rw [← (hs₂.spent k hk).1]
    exact congrArg (fun t : Table (AccountID × UInt32) Ticket => t.lookup k) htickets
  · exact (hs₂.spent k hk).2.root root' (hroot k.1 root' hroot').2
  · have hclock : s₃.seq = s.seq := (hseq.trans hsame.seq).trans hcleaned.seq
    by_cases hid : k.1 = tx.account
    · have hlt := (hs.spent k hk).2.root src (hid ▸ hsrc)
      have hle := hpast src hsrc
      have hgoal : k.2.toNat < s₃.seq.toNat := by
        rw [hclock]
        omega
      exact hgoal
    · rw [hother k.1 hid] at hgone
      have hlt := (hs₂.spent k hk).2.gone hgone
      rw [← hseq] at hlt
      exact hlt

end AccountDelete

/-! ### `Payment` -/

theorem Payment.createDestination_sound {destination : AccountID} (hs : IdentifiersSound H s used) :
    IdentifiersSound H (createDestination s destination) used := by
  rw [createDestination]
  cases hnone : s.accounts.lookup destination with
  | some root => exact hs
  | none =>
    dsimp only
    have hself : (s.setAccount destination (newAccount s)).accounts.lookup destination =
        some (newAccount s) := AList.lookup_insert _
    have hother : ∀ id, id ≠ destination → (s.setAccount destination
        (newAccount s)).accounts.lookup id = s.accounts.lookup id :=
      fun id hid => AList.lookup_insert_ne hid
    have hnoTicket : s.ticketsOf destination = 0 := by
      refine List.countP_eq_zero.mpr fun k hk => ?_
      have hisSome := AList.lookup_isSome.mpr (AList.mem_keys.mpr hk)
      obtain ⟨ticket, hticket⟩ := Option.isSome_iff_exists.mp hisSome
      obtain ⟨root, hroot, -⟩ := hs.below k.1 k.2 ticket hticket
      intro hk
      rw [of_decide_eq_true hk, hnone] at hroot
      cases hroot
    refine ⟨⟨hs.listed, fun id v ticket hticket => ?_, fun id root' hroot' => ?_,
      fun id root' hroot' => ?_⟩, hs.nodup, fun k hk => ⟨(hs.spent k hk).1, fun root' hroot' => ?_,
        fun hgone => ?_⟩⟩
    · obtain ⟨root, hroot, hlt⟩ := hs.below id v ticket hticket
      have hid : id ≠ destination := fun hid => by
        rw [hid, hnone] at hroot
        cases hroot
      exact ⟨root, (hother id hid).trans hroot, hlt⟩
    · by_cases hid : id = destination
      · rw [hid, hself] at hroot'
        obtain rfl := Option.some.inj hroot'
        rw [hid]
        exact hnoTicket.symm
      · rw [hother id hid] at hroot'
        exact hs.counted id root' hroot'
    · by_cases hid : id = destination
      · rw [hid, hself] at hroot'
        obtain rfl := Option.some.inj hroot'
        exact Nat.zero_le _
      · rw [hother id hid] at hroot'
        exact hs.few id root' hroot'
    · by_cases hid : k.1 = destination
      · rw [hid, hself] at hroot'
        obtain rfl := Option.some.inj hroot'
        exact (hs.spent k hk).2.gone (hid ▸ hnone)
      · rw [hother k.1 hid] at hroot'
        exact (hs.spent k hk).2.root root' hroot'
    · by_cases hid : k.1 = destination
      · rw [hid, hself] at hgone
        cases hgone
      · rw [hother k.1 hid] at hgone
        exact (hs.spent k hk).2.gone hgone

end FalconLedger
