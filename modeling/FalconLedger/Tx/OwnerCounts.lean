import FalconLedger.Tx.Outcome

/-!
# Owner counts and directories under a charge

Charging a transaction, starting it over and splitting its fee touch account roots and, if a
ticket is used, a directory. `Settled` says what that leaves of the things an owned object is
counted by: no account comes or goes, names stay, and owner counts and pages change only by the
ticket.
-/

namespace FalconLedger

/-- The transaction uses a ticket of this account. -/
def STTx.usesTicket (tx : STTx) (id : AccountID) : Bool :=
  decide (id = tx.account) && match tx.seqProxy with
    | .seq _ => false
    | .ticket _ => true

/-- The counters of an account with one ticket less. -/
def AccountRoot.dropTicket (root : AccountRoot) : AccountRoot :=
  { root with
    ticketCount := root.ticketCount.bind fun count => if count = 1 then none else some (count - 1)
    ownerCount := if root.ownerCount = 0 then 0 else root.ownerCount - 1 }

/-- An account before and after a charge. -/
structure RootSettled (tx : STTx) (id : AccountID) (root root' : AccountRoot) : Prop where
  accountName : root'.accountName = root.accountName
  ticketCount : root'.ticketCount =
    (if tx.usesTicket id then root.dropTicket else root).ticketCount
  ownerCount : root'.ownerCount = (if tx.usesTicket id then root.dropTicket else root).ownerCount
  hasTicket : tx.usesTicket id = true → root.ticketCount ≠ none

/-- The two account roots differ in what no owned object is counted by. -/
def AccountRoot.SameCounts (root root' : AccountRoot) : Prop :=
  root'.accountName = root.accountName ∧ root'.ticketCount = root.ticketCount ∧
    root'.ownerCount = root.ownerCount

/-- A ledger before and after a charge. -/
structure Settled (H : Hashes) (tx : STTx) (s s' : Ledger) : Prop where
  roots : ∀ id, Option.Rel (RootSettled tx id) (s.accounts.lookup id) (s'.accounts.lookup id)
  pages : s'.listed = s.listed ∨
    ∃ page n, s.PageLost tx.account page (H.ticketKey tx.account n) s'

/-- A change of account roots that leaves the counts and the pages alone. -/
structure Ledger.SameOwners (s s' : Ledger) : Prop where
  roots : ∀ id, Option.Rel AccountRoot.SameCounts (s.accounts.lookup id) (s'.accounts.lookup id)
  pages : s'.listed = s.listed

variable {H : Services} {s s' s'' : Ledger} {tx : STTx} {fee fee' : Int}

open Ledger

private theorem rel_comp {α : Type} {Q R T : α → α → Prop} {x y z : Option α}
    (hxy : Option.Rel Q x y) (hyz : Option.Rel R y z) (h : ∀ a b c, Q a b → R b c → T a c) :
    Option.Rel T x z := by
  cases hxy with
  | none =>
    cases hyz
    exact .none
  | some hab =>
    cases hyz with
    | some hbc => exact .some (h _ _ _ hab hbc)

private theorem rel_mono {α : Type} {Q R : α → α → Prop} {x y : Option α} (h : Option.Rel Q x y)
    (hQR : ∀ a b, Q a b → R a b) : Option.Rel R x y := by
  cases h with
  | none => exact .none
  | some hab => exact .some (hQR _ _ hab)

private theorem rel_some_right {α : Type} {Q : α → α → Prop} {x y : Option α} {b : α}
    (h : Option.Rel Q x y) (hy : y = some b) : ∃ a, x = some a ∧ Q a b := by
  subst hy
  cases h with
  | some hab => exact ⟨_, rfl, hab⟩

private theorem rel_some_left {α : Type} {Q : α → α → Prop} {x y : Option α} {a : α}
    (h : Option.Rel Q x y) (hx : x = some a) : ∃ b, y = some b ∧ Q a b := by
  subst hx
  cases h with
  | some hab => exact ⟨_, rfl, hab⟩

theorem Settled.before {H : Hashes} {id : AccountID} {root' : AccountRoot} (h : Settled H tx s s')
    (hroot' : s'.accounts.lookup id = some root') :
    ∃ root, s.accounts.lookup id = some root ∧ RootSettled tx id root root' :=
  rel_some_right (h.roots id) hroot'

theorem Ledger.SameOwners.before {id : AccountID} {root' : AccountRoot} (h : SameOwners s s')
    (hroot' : s'.accounts.lookup id = some root') :
    ∃ root, s.accounts.lookup id = some root ∧ root.SameCounts root' :=
  rel_some_right (h.roots id) hroot'

theorem Ledger.SameOwners.after {id : AccountID} {root : AccountRoot} (h : SameOwners s s')
    (hroot : s.accounts.lookup id = some root) :
    ∃ root', s'.accounts.lookup id = some root' ∧ root.SameCounts root' :=
  rel_some_left (h.roots id) hroot

theorem AccountRoot.SameCounts.trans {r₁ r₂ r₃ : AccountRoot} (h : r₁.SameCounts r₂)
    (h' : r₂.SameCounts r₃) : r₁.SameCounts r₃ :=
  ⟨h'.1.trans h.1, h'.2.1.trans h.2.1, h'.2.2.trans h.2.2⟩

theorem Ledger.sameOwners_of_eq (haccounts : s'.accounts = s.accounts) (hdirs : s'.dirs = s.dirs) :
    SameOwners s s' := by
  refine ⟨fun id => ?_, listed_congr hdirs⟩
  rw [haccounts]
  cases s.accounts.lookup id with
  | none => exact .none
  | some root => exact .some ⟨rfl, rfl, rfl⟩

theorem Ledger.SameOwners.trans (h : SameOwners s s') (h' : SameOwners s' s'') :
    SameOwners s s'' :=
  ⟨fun id => rel_comp (h.roots id) (h'.roots id) fun _ _ _ => AccountRoot.SameCounts.trans,
    h'.pages.trans h.pages⟩

theorem Ledger.sameOwners_setAccount {id : AccountID} {root root' : AccountRoot}
    (h : s.accounts.lookup id = some root) (hsame : root.SameCounts root') :
    SameOwners s (s.setAccount id root') := by
  refine ⟨fun id' => ?_, rfl⟩
  by_cases hid : id' = id
  · subst hid
    rw [h, setAccount, AList.lookup_insert]
    exact .some hsame
  · rw [setAccount, AList.lookup_insert_ne hid]
    exact (sameOwners_of_eq rfl rfl).roots id'

theorem ApplyContext.destroyXRP_sameOwners (H : Hashes) (s : Ledger) (fee : Int) :
    SameOwners s (destroyXRP H s fee) := by
  rcases destroyXRP_cases H s fee with ⟨-, -, hd⟩ | ⟨-, -, hd⟩ | ⟨-, treasury, ht, -, -, hd⟩ <;>
    rw [hd]
  · exact sameOwners_of_eq rfl rfl
  · exact sameOwners_of_eq rfl rfl
  · have hraw : SameOwners s (s.rawDestroyXRP (feeBurned H s fee)) := sameOwners_of_eq rfl rfl
    refine hraw.trans (sameOwners_setAccount (s := s.rawDestroyXRP _) ht ?_)
    exact ⟨rfl, rfl, rfl⟩

/-! ### Charging -/

namespace Transactor

theorem settled_of_sameOwners (h : Settled H.toHashes tx s s') (h' : SameOwners s' s'') :
    Settled H.toHashes tx s s'' := by
  refine ⟨fun id => rel_comp (h.roots id) (h'.roots id) ?_, h.pages.imp h'.pages.trans ?_⟩
  swap
  · rintro ⟨page, n, hlost⟩
    exact ⟨page, n, hlost.congr rfl h'.pages⟩
  rintro root root' root'' hset ⟨hname, htickets, howned⟩
  exact ⟨hname.trans hset.accountName, htickets.trans hset.ticketCount,
    howned.trans hset.ownerCount, hset.hasTicket⟩

private theorem settled_after_sameOwners (h : SameOwners s s') (h' : Settled H.toHashes tx s' s'') :
    Settled H.toHashes tx s s'' := by
  refine ⟨fun id => rel_comp (h.roots id) (h'.roots id) ?_,
    h'.pages.imp (fun heq => heq.trans h.pages) ?_⟩
  swap
  · rintro ⟨page, n, hlost⟩
    exact ⟨page, n, hlost.congr h.pages.symm rfl⟩
  rintro root root' root'' ⟨hname, htickets, howned⟩ hset
  refine ⟨hset.accountName.trans hname, hset.ticketCount.trans ?_, hset.ownerCount.trans ?_,
    htickets ▸ hset.hasTicket⟩
  · split_ifs <;> simp [AccountRoot.dropTicket, htickets]
  · split_ifs <;> simp [AccountRoot.dropTicket, howned]

private theorem rootSettled_of_sameCounts {id : AccountID} {root root' : AccountRoot}
    (hticket : tx.usesTicket id = false) (h : root.SameCounts root') :
    RootSettled tx id root root' := by
  obtain ⟨hname, htickets, howned⟩ := h
  refine ⟨hname, ?_, ?_, fun huse => absurd (hticket.symm.trans huse) Bool.false_ne_true⟩ <;>
    rw [hticket]
  · exact htickets
  · exact howned

private theorem consumeSeqProxy_settled (h : consumeSeqProxy H s tx = .ok s') :
    Settled H.toHashes tx s s' := by
  unfold consumeSeqProxy at h
  split at h
  · rename_i n hseq
    have hticket : ∀ id, tx.usesTicket id = false := fun id => by simp [STTx.usesTicket, hseq]
    simp only [Except.bind_eq_ok, orFail_eq_ok, Except.pure_eq_ok] at h
    obtain ⟨root, hroot, rfl⟩ := h
    have hsame : SameOwners s (s.setAccount tx.account { root with sequence := n + 1 }) :=
      sameOwners_setAccount hroot ⟨rfl, rfl, rfl⟩
    exact ⟨fun id => rel_mono (hsame.roots id) fun r r' => rootSettled_of_sameCounts (hticket id),
      .inl hsame.pages⟩
  · rename_i n hseq
    simp only [ticketDelete, Except.bind_eq_ok, orFail_eq_ok, Except.pure_eq_ok] at h
    obtain ⟨entry, -, _, hdir, s₁, rfl, root, hroot, count, hcount, rfl⟩ := h
    have hremoved := dirRemove_ok hdir
    refine ⟨fun id => ?_, .inr ⟨entry.ownerNode, n, hremoved.page.congr rfl rfl⟩⟩
    rw [hremoved.same.accounts] at hroot
    simp only [setAccount, hremoved.same.accounts]
    by_cases hid : id = tx.account
    · subst hid
      rw [hroot, AList.lookup_insert]
      have hticket : tx.usesTicket tx.account = true := by simp [STTx.usesTicket, hseq]
      refine .some ⟨rfl, ?_, ?_, fun _ => by simp [hcount]⟩ <;> rw [hticket]
      · simp [AccountRoot.dropTicket, hcount]
      · rfl
    · have hticket : tx.usesTicket id = false := by simp [STTx.usesTicket, hid]
      rw [AList.lookup_insert_ne hid]
      exact rel_mono ((sameOwners_of_eq rfl rfl).roots id) fun r r' =>
        rootSettled_of_sameCounts hticket

private theorem setAccountTxnID_sameOwners (s : Ledger) (tx : STTx) :
    SameOwners s (setAccountTxnID s tx) := by
  unfold setAccountTxnID
  split
  · rename_i root hroot
    split_ifs
    · exact sameOwners_setAccount hroot ⟨rfl, rfl, rfl⟩
    · exact sameOwners_of_eq rfl rfl
  · exact sameOwners_of_eq rfl rfl

theorem charge_settled (h : charge H s tx = .ok s') (hacc : s.accounts.lookup tx.account ≠ none) :
    Settled H.toHashes tx s s' := by
  unfold charge at h
  rw [if_neg hacc] at h
  simp only [Except.bind_eq_ok, payFee, orFail_eq_ok, Except.pure_eq_ok] at h
  obtain ⟨s₁, hseq, _, ⟨payer, hpayer, rfl⟩, rfl⟩ := h
  refine settled_of_sameOwners (consumeSeqProxy_settled hseq) (SameOwners.trans ?_
    (setAccountTxnID_sameOwners _ tx))
  exact sameOwners_setAccount hpayer ⟨rfl, rfl, rfl⟩

theorem reset_settled (h : reset H s tx fee = .ok (s', fee')) : Settled H.toHashes tx s s' := by
  simp only [reset, Except.bind_eq_ok, failIf_eq_ok, orFail_eq_ok, Except.pure_eq_ok,
    Prod.mk.injEq] at h
  obtain ⟨-, -, payer, hpayer, s₁, hseq, rfl, rfl⟩ := h
  refine settled_after_sameOwners (sameOwners_setAccount hpayer ?_) (consumeSeqProxy_settled hseq)
  exact ⟨rfl, rfl, rfl⟩

end Transactor

theorem Settled.lookup_ne_none {H : Hashes} (h : Settled H tx s s') {id : AccountID} :
    s'.accounts.lookup id ≠ none ↔ s.accounts.lookup id ≠ none := by
  have hroot := h.roots id
  generalize s.accounts.lookup id = o at hroot
  generalize s'.accounts.lookup id = o' at hroot
  cases hroot <;> simp

end FalconLedger
