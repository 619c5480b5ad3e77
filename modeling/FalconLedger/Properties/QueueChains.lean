import FalconLedger.Queue.TxQAccount

/-!
# Chains of queued transactions

The queue takes a transaction for the next of its account by what it expects of those before it. It
is right about every transaction but `TicketCreate`: that leaves the account's sequence number one
higher than `TxConsequences::followingSeq` says (`followingSeq_iff`).
-/

namespace FalconLedger

open TxQ

variable {H : Services} {fees : Reserves} {s s' s₁ : Ledger} {tx : AccountTx} {n : UInt32}
  {root root' : AccountRoot}

def AccountTx.isTicketCreate (tx : AccountTx) : Bool :=
  match tx.body with
  | .ticketCreate _ => true
  | _ => false

/-- What the transactor does to the charged ledger. Only `TicketCreate` moves the sequence number. -/
def AccountTx.Effect (H : Services) (fees : Reserves) (preFeeBalance : Int) (tx : AccountTx)
    (s s' : Ledger) : Prop :=
  match tx.body with
  | .ticketCreate ticketCount =>
    TicketCreate.doApply H fees s preFeeBalance tx ticketCount = .ok s'
  | _ => ∀ root', s'.accounts.lookup tx.account = some root' →
    ∃ root, s.accounts.lookup tx.account = some root ∧ root'.sequence = root.sequence

/-- The transaction is applied, with `tesSUCCESS`. -/
structure Succeeds (H : Services) (fees : Reserves) (s : Ledger) (tx : AccountTx) (s' : Ledger) :
    Prop where
  inOrder : Transactor.checkSeqProxy s tx.common = .ok ()
  applied : ∃ s₁, Transactor.charge H s tx.common = .ok s₁ ∧
    tx.Effect H fees (s.balanceOf tx.account) s₁ s'

/-! ### What a transaction does to the sequence number -/

private theorem setAccountTxnID_sequence {t : STTx}
    (h : ∃ root, s.accounts.lookup t.account = some root ∧ root.sequence = n) :
    ∃ root, (Transactor.setAccountTxnID s t).accounts.lookup t.account = some root ∧
      root.sequence = n := by
  obtain ⟨root, hroot, hsequence⟩ := h
  rw [Transactor.setAccountTxnID, hroot]
  dsimp only
  split_ifs
  · exact ⟨_, AList.lookup_insert _, hsequence⟩
  · exact ⟨_, hroot, hsequence⟩

theorem charge_sequence (hseq : tx.seqProxy = .seq n)
    (hfound : s.accounts.lookup tx.account = some root)
    (h : Transactor.charge H s tx.common = .ok s₁) :
    ∃ root₁, s₁.accounts.lookup tx.account = some root₁ ∧ root₁.sequence = n + 1 := by
  have hcommon : tx.common.seqProxy = .seq n := hseq
  have haccount : tx.common.account = tx.account := rfl
  rw [Transactor.charge, if_neg (by rw [haccount, hfound]; simp)] at h
  simp only [Transactor.consumeSeqProxy, hcommon, Transactor.payFee, haccount,
    Except.bind_eq_ok, orFail_eq_ok, Except.pure_eq_ok] at h
  obtain ⟨_, ⟨old, -, rfl⟩, _, ⟨payer, hpaid, rfl⟩, rfl⟩ := h
  refine setAccountTxnID_sequence (t := tx.common) ?_
  by_cases hpayer : tx.common.account = tx.common.getFeePayer
  · rw [← hpayer] at hpaid ⊢
    obtain rfl := Option.some.inj ((AList.lookup_insert _).symm.trans hpaid)
    exact ⟨_, AList.lookup_insert _, rfl⟩
  · exact ⟨_, (AList.lookup_insert_ne hpayer).trans (AList.lookup_insert _), rfl⟩

theorem TicketCreate.doApply_sequence {preFeeBalance : Int} {ticketCount : UInt32}
    (hfound : s.accounts.lookup tx.account = some root)
    (h : TicketCreate.doApply H fees s preFeeBalance tx ticketCount = .ok s') :
    ∃ root', s'.accounts.lookup tx.account = some root' ∧
      root'.sequence = root.sequence + ticketCount := by
  simp only [TicketCreate.doApply, hfound, orFail, Except.bind_eq_ok, Except.pure_eq_ok] at h
  obtain ⟨_, hroot, _, -, _, -, _, -, rfl⟩ := h
  cases hroot
  exact ⟨_, AList.lookup_insert _, rfl⟩

theorem Succeeds.lookup (h : Succeeds H fees s tx s') (hseq : tx.seqProxy = .seq n) :
    ∃ root, s.accounts.lookup tx.account = some root ∧ root.sequence = n := by
  have hcheck := h.inOrder
  have hcommon : tx.common.seqProxy = .seq n := hseq
  simp only [Transactor.checkSeqProxy, hcommon, Except.bind_eq_ok, orFail_eq_ok,
    failIf_eq_ok] at hcheck
  obtain ⟨root, hroot, -, -, heq⟩ := hcheck
  exact ⟨root, hroot, (not_not.mp heq).symm⟩

/-- What the queue expects of a transaction is right if and only if it is no `TicketCreate`. -/
theorem followingSeq_iff (h : Succeeds H fees s tx s') (hseq : tx.seqProxy = .seq n)
    (hroot' : s'.accounts.lookup tx.account = some root') :
    (makeTxConsequences tx).followingSeq = .seq root'.sequence ↔ tx.isTicketCreate = false := by
  obtain ⟨root, hroot, -⟩ := h.lookup hseq
  obtain ⟨s₁, hcharge, heffect⟩ := h.applied
  obtain ⟨root₁, hroot₁, hnext⟩ := charge_sequence hseq hroot hcharge
  cases hbody : tx.body with
  | ticketCreate ticketCount =>
    simp only [AccountTx.Effect, hbody] at heffect
    obtain ⟨root₂, hroot₂, hmoved⟩ := TicketCreate.doApply_sequence hroot₁ heffect
    obtain rfl := Option.some.inj (hroot'.symm.trans hroot₂)
    simp only [makeTxConsequences, hbody, TxConsequences.followingSeq, TxConsequences.ofTx, hseq,
      SeqProxy.advanceBy, SeqProxy.seq.injEq, hmoved, hnext, AccountTx.isTicketCreate,
      Bool.true_eq_false, iff_false]
    -- the sequence number of the transaction itself has been left out
    intro heq
    have h1 : (1 : UInt32) = 0 := by grind
    exact absurd h1 (by decide)
  | accountDelete _ | payment _ _ | other _ =>
    simp only [AccountTx.Effect, hbody] at heffect
    obtain ⟨root₂, hroot₂, hkept⟩ := heffect root' hroot'
    obtain rfl := Option.some.inj (hroot₁.symm.trans hroot₂)
    simp [makeTxConsequences, hbody, TxConsequences.followingSeq, TxConsequences.ofTx, hseq,
      SeqProxy.advanceBy, SeqProxy.isSeq, hkept, hnext, AccountTx.isTicketCreate]

theorem followingSeq_of_plain (hseq : tx.seqProxy = .seq n) (hplain : tx.isTicketCreate = false) :
    (makeTxConsequences tx).followingSeq = .seq (n + 1) := by
  cases hbody : tx.body with
  | ticketCreate ticketCount => simp [AccountTx.isTicketCreate, hbody] at hplain
  | accountDelete _ | payment _ _ | other _ =>
    simp [makeTxConsequences, hbody, TxConsequences.followingSeq, TxConsequences.ofTx, hseq,
      SeqProxy.advanceBy, SeqProxy.isSeq]

/-! ### Sequence numbers without a gap -/

/-- The transactions have the sequence numbers from `a` on, in order. -/
def Consecutive : ℕ → List AccountTx → Prop
  | _, [] => True
  | a, tx :: rest => (∃ v, tx.seqProxy = .seq v ∧ v.toNat = a) ∧ Consecutive (a + 1) rest

theorem Consecutive.mem_iff {l : List AccountTx} {a : ℕ} (h : Consecutive a l) {v : UInt32} :
    (∃ tx ∈ l, tx.seqProxy = .seq v) ↔ a ≤ v.toNat ∧ v.toNat < a + l.length := by
  induction l generalizing a with
  | nil =>
    simp only [List.not_mem_nil, false_and, exists_false, List.length_nil, false_iff]
    omega
  | cons tx rest ih =>
    obtain ⟨⟨w, hw, hwa⟩, hrest⟩ := h
    rw [List.exists_mem_cons_iff, ih hrest, hw, SeqProxy.seq.injEq, ← UInt32.toNat_inj, hwa,
      List.length_cons]
    omega

theorem Consecutive.bound {l : List AccountTx} {a : ℕ} (h : Consecutive a l) (ha : a ≤ 4294967296) :
    a + l.length ≤ 4294967296 := by
  induction l generalizing a with
  | nil => exact ha
  | cons tx rest ih =>
    obtain ⟨⟨v, -, hva⟩, hrest⟩ := h
    have hlt := v.toNat_lt
    rw [List.length_cons, Nat.add_comm rest.length, ← Nat.add_assoc]
    exact ih hrest (by omega)

theorem Consecutive.of_append {l l' : List AccountTx} {a : ℕ} (h : Consecutive a (l ++ l')) :
    Consecutive a l ∧ Consecutive (a + l.length) l' := by
  induction l generalizing a with
  | nil => exact ⟨trivial, h⟩
  | cons tx rest ih =>
    obtain ⟨hrest, hl'⟩ := ih h.2
    rw [List.length_cons, Nat.add_comm rest.length, ← Nat.add_assoc]
    exact ⟨⟨h.1, hrest⟩, hl'⟩

theorem consecutive_of_closed {l : List MaybeTx} {a : ℕ} (hasc : Ascending MaybeTx.seqProxy l)
    (hseq : ∀ m ∈ l, ∃ v, m.seqProxy = .seq v ∧ a ≤ v.toNat)
    (hclosed : ∀ m ∈ l, ∀ v : UInt32, a ≤ v.toNat → .seq v < m.seqProxy →
      ∃ m' ∈ l, m'.seqProxy = .seq v) : Consecutive a (l.map MaybeTx.tx) := by
  induction l generalizing a with
  | nil => trivial
  | cons m rest ih =>
    obtain ⟨v, hv, hle⟩ := hseq m List.mem_cons_self
    obtain ⟨hfirst, hrest⟩ := List.pairwise_cons.mp hasc
    have hva : v.toNat = a := by
      by_contra hne
      have hlt : a < v.toNat := by omega
      have hbound := v.toNat_lt
      have ha : (UInt32.ofNat a).toNat = a := UInt32.toNat_ofNat_of_lt' (hlt.trans hbound)
      obtain ⟨m', hm', hm'a⟩ := hclosed m List.mem_cons_self (UInt32.ofNat a) (by omega)
        (by rw [hv, SeqProxy.lt_iff_rank, SeqProxy.rank, SeqProxy.rank, ha]; exact hlt)
      have hle' := hasc.head?_le rfl hm'
      rw [hv, hm'a, SeqProxy.le_iff_rank, SeqProxy.rank, SeqProxy.rank, ha] at hle'
      omega
    refine ⟨⟨v, hv, hva⟩, ih hrest (fun m' hm' => ?_) fun m' hm' w hw hlt => ?_⟩
    · obtain ⟨w, hw, -⟩ := hseq m' (List.mem_cons_of_mem m hm')
      have hlt := hfirst m' hm'
      rw [hv, hw, SeqProxy.lt_iff_rank, SeqProxy.rank, SeqProxy.rank] at hlt
      exact ⟨w, hw, by omega⟩
    · obtain ⟨m'', hm'', hw'⟩ := hclosed m' (List.mem_cons_of_mem m hm') w (by omega) hlt
      rcases List.mem_cons.mp hm'' with rfl | hm''
      · rw [hv, SeqProxy.seq.injEq] at hw'
        rw [← hw'] at hw
        omega
      · exact ⟨m'', hm'', hw'⟩

/-! ### Applying them in order -/

/-- The transactions are applied one after the other, each with `tesSUCCESS`. -/
inductive InOrder (H : Services) (fees : Reserves) : Ledger → List AccountTx → Ledger → Prop
  | nil (s : Ledger) : InOrder H fees s [] s
  | cons {s s₁ s' : Ledger} {tx : AccountTx} {rest : List AccountTx}
      (hfirst : Succeeds H fees s tx s₁) (hrest : InOrder H fees s₁ rest s') :
      InOrder H fees s (tx :: rest) s'

theorem InOrder.sequence {account : AccountID} {l : List AccountTx} {a : ℕ}
    (h : InOrder H fees s l s') (hcons : Consecutive a l)
    (hplain : ∀ tx ∈ l, tx.account = account ∧ tx.isTicketCreate = false)
    (hs : ∀ root, s.accounts.lookup account = some root → root.sequence = UInt32.ofNat a) :
    ∀ root', s'.accounts.lookup account = some root' →
      root'.sequence = UInt32.ofNat (a + l.length) := by
  induction h generalizing a with
  | nil => exact hs
  | @cons s s₁ s' tx rest hfirst hrest ih =>
    obtain ⟨⟨v, hv, hva⟩, hcons⟩ := hcons
    obtain ⟨rfl, htx⟩ := hplain tx List.mem_cons_self
    rw [List.length_cons, Nat.add_comm rest.length, ← Nat.add_assoc]
    refine ih hcons (fun tx' h' => hplain tx' (List.mem_cons_of_mem tx h')) fun root₁ hroot₁ => ?_
    have hnext := (followingSeq_iff hfirst hv hroot₁).mpr htx
    rw [followingSeq_of_plain hv htx, SeqProxy.seq.injEq] at hnext
    rw [← hnext, UInt32.ofNat_add, ← hva, UInt32.ofNat_toNat]
    rfl

theorem InOrder.next {account : AccountID} {l l' : List AccountTx} {a : ℕ}
    (h : InOrder H fees s l s') (hcons : Consecutive a (l ++ tx :: l'))
    (hplain : ∀ tx ∈ l, tx.account = account ∧ tx.isTicketCreate = false)
    (haccount : tx.account = account)
    (hs : ∀ root, s.accounts.lookup account = some root → root.sequence = UInt32.ofNat a) :
    Transactor.checkSeqProxy s' tx.common ≠ .error .tefPastSeq ∧
      Transactor.checkSeqProxy s' tx.common ≠ .error .terPreSeq := by
  obtain ⟨hl, ⟨v, hv, hva⟩, -⟩ := hcons.of_append
  have hcommon : tx.common.seqProxy = .seq v := hv
  have haccount' : tx.common.account = account := haccount
  rw [Transactor.checkSeqProxy, haccount', hcommon]
  cases hroot : s'.accounts.lookup account with
  | none => exact ⟨by simp [orFail, bind, Except.bind], by simp [orFail, bind, Except.bind]⟩
  | some root' =>
    have hsequence := h.sequence hl hplain hs root' hroot
    rw [← hva, UInt32.ofNat_toNat] at hsequence
    constructor <;> simp [orFail, bind, Except.bind, failIf, hsequence]

/-! ### The next sequence number -/

/-- A transaction with the sequence number is queued. -/
def TxQ.Queued (txs : TxMap) (v : UInt32) : Prop := ∃ m ∈ txs.toList, m.seqProxy = .seq v

/-- What the queue has on record of its transactions is what preflight says, and none of them is a
`TicketCreate` by sequence number. -/
structure TxQ.Plain (account : AccountID) (txs : TxMap) : Prop where
  account : ∀ m ∈ txs.toList, m.tx.account = account
  consequences : ∀ m ∈ txs.toList, m.consequences = makeTxConsequences m.tx
  plain : ∀ m ∈ txs.toList, m.tx.seqProxy.isSeq = true → m.tx.isTicketCreate = false

theorem TxQ.Plain.followingSeq {account : AccountID} {txs : TxMap} (h : Plain account txs)
    {m : MaybeTx} (hm : m ∈ txs.toList) (hseq : m.seqProxy = .seq n) :
    m.consequences.followingSeq = .seq (n + 1) := by
  have hplain := h.plain m hm (by rw [show m.tx.seqProxy = .seq n from hseq]; rfl)
  rw [h.consequences m hm, followingSeq_of_plain hseq hplain]

theorem TxQ.nextOpening_spec {rest : List MaybeTx} {prev : MaybeTx}
    (hasc : Ascending MaybeTx.seqProxy (prev :: rest)) (hprev : prev.seqProxy = .seq n)
    (hfollow : ∀ m ∈ prev :: rest, ∀ v, m.seqProxy = .seq v →
      m.consequences.followingSeq = .seq (v + 1)) :
    ∃ N : ℕ, n.toNat < N ∧ N ≤ 4294967296 ∧
      nextOpening prev.consequences.followingSeq rest = .seq (UInt32.ofNat N) ∧
      (∀ v : UInt32, n.toNat < v.toNat → v.toNat < N → ∃ m ∈ rest, m.seqProxy = .seq v) ∧
      ∀ v : UInt32, v.toNat = N → ∀ m ∈ rest, m.seqProxy ≠ .seq v := by
  have hbound := n.toNat_lt
  have hsucc : UInt32.ofNat (n.toNat + 1) = n + 1 := by
    rw [UInt32.ofNat_add, UInt32.ofNat_toNat]
    rfl
  obtain ⟨hfirst, hrest⟩ := List.pairwise_cons.mp hasc
  induction rest generalizing prev n with
  | nil =>
    refine ⟨n.toNat + 1, by omega, by omega, ?_, by omega, fun v _ => List.forall_mem_nil _⟩
    rw [nextOpening, hfollow prev List.mem_cons_self n hprev, hsucc]
  | cons m rest ih =>
    rw [nextOpening, hfollow prev List.mem_cons_self n hprev]
    have hlt := hfirst m List.mem_cons_self
    split_ifs with hgap
    · refine ⟨n.toNat + 1, by omega, by omega, by rw [hsucc], by omega, fun v hv m' hm' heq => ?_⟩
      have hle := Ascending.head?_le (List.Pairwise.of_cons hasc) rfl hm'
      have hvn : v = n + 1 := by
        rw [← hsucc, ← hv, UInt32.ofNat_toNat]
      rw [heq, hvn] at hle
      exact absurd hgap (not_lt.mpr hle)
    · -- the next transaction fills the opening
      have hm : m.seqProxy = .seq (n + 1) ∧ (n + 1).toNat = n.toNat + 1 := by
        rw [hprev] at hlt
        have hadd : (n + 1).toNat = (n.toNat + 1) % 4294967296 := UInt32.toNat_add n 1
        have hbound' := (n + 1).toNat_lt
        cases hcase : m.seqProxy with
        | seq w =>
          rw [hcase, SeqProxy.lt_iff_rank, SeqProxy.rank, SeqProxy.rank] at hlt hgap
          have hw : w.toNat = (n + 1).toNat := by omega
          exact ⟨by rw [UInt32.toNat_inj.mp hw], by omega⟩
        | ticket w =>
          rw [hcase, SeqProxy.lt_iff_rank, SeqProxy.rank, SeqProxy.rank] at hgap
          omega
      obtain ⟨hm, hn⟩ := hm
      have hasc' : Ascending MaybeTx.seqProxy (m :: rest) := List.Pairwise.of_cons hasc
      obtain ⟨hfirst', hrest'⟩ := List.pairwise_cons.mp hasc'
      obtain ⟨N, hlt', hle, heq, hfilled, hopen⟩ := ih hasc' hm
        (fun m' hm' => hfollow m' (List.mem_cons_of_mem prev hm')) (n + 1).toNat_lt
        (by rw [UInt32.ofNat_add, UInt32.ofNat_toNat]; rfl) hfirst' hrest'
      refine ⟨N, by omega, hle, heq, fun v hv hvN => ?_, fun v hv => ?_⟩
      · by_cases hvn : v.toNat = (n + 1).toNat
        · exact ⟨m, List.mem_cons_self, by rw [hm, UInt32.toNat_inj.mp hvn]⟩
        · obtain ⟨m', hm', heq'⟩ := hfilled v (by omega) hvN
          exact ⟨m', List.mem_cons_of_mem m hm', heq'⟩
      · refine List.forall_mem_cons.mpr ⟨fun heq' => ?_, hopen v hv⟩
        rw [hm, SeqProxy.seq.injEq] at heq'
        rw [← heq'] at hv
        omega

/-- The first sequence number from the account's on that is not queued. -/
structure TxQ.IsNextQueuable (sequence : UInt32) (txs : TxMap) (seqProx : SeqProxy) (N : ℕ) :
    Prop where
  eq : seqProx = .seq (UInt32.ofNat N)
  le : sequence.toNat ≤ N
  bound : N ≤ 4294967296
  filled : ∀ v : UInt32, sequence.toNat ≤ v.toNat → v.toNat < N → Queued txs v
  opening : ∀ v : UInt32, v.toNat = N → ¬Queued txs v

theorem TxQ.mem_lowerBound {txs : TxMap} {a : SeqProxy} {m : MaybeTx} :
    m ∈ lowerBound txs a ↔ m ∈ txs.toList ∧ a ≤ m.seqProxy := by
  rw [lowerBound, List.mem_filter, decide_eq_true_iff]

theorem TxQ.nextQueuableSeq_spec {account : AccountID} {txs : TxMap} (h : Plain account txs)
    (sequence : UInt32) : ∃ N, IsNextQueuable sequence txs (nextQueuableSeq sequence txs) N := by
  have hasc : Ascending MaybeTx.seqProxy (lowerBound txs (.seq sequence)) :=
    txs.toList_ascending.filter _
  have hself : SeqProxy.seq sequence = .seq (UInt32.ofNat sequence.toNat) := by
    rw [UInt32.ofNat_toNat]
  have hbound := sequence.toNat_lt
  rw [nextQueuableSeq]
  cases hactive : lowerBound txs (.seq sequence) with
  | nil =>
    refine ⟨sequence.toNat, hself, le_rfl, by omega, by omega, fun v hv ⟨m, hm, heq⟩ => ?_⟩
    have hmem : m ∈ lowerBound txs (.seq sequence) :=
      mem_lowerBound.mpr ⟨hm, by rw [heq, UInt32.toNat_inj.mp hv]⟩
    rw [hactive] at hmem
    exact absurd hmem List.not_mem_nil
  | cons first rest =>
    have hmem : ∀ m, m ∈ first :: rest ↔ m ∈ txs.toList ∧ .seq sequence ≤ m.seqProxy := fun m => by
      rw [← hactive, mem_lowerBound]
    rw [hactive] at hasc
    dsimp only
    split_ifs with hfirst
    · refine ⟨sequence.toNat, hself, le_rfl, by omega, by omega, fun v hv ⟨m, hm, heq⟩ => ?_⟩
      rw [UInt32.toNat_inj.mp hv] at heq
      have hle := hasc.head?_le rfl ((hmem m).mpr ⟨hm, heq ▸ le_rfl⟩)
      have hge := ((hmem first).mp List.mem_cons_self).2
      exact hfirst (le_antisymm (heq ▸ hle) hge)
    · have hfirst := not_not.mp hfirst
      obtain ⟨N, hlt, hle, heq, hfilled, hopen⟩ := nextOpening_spec hasc hfirst
        fun m hm v hv => h.followingSeq ((hmem m).mp hm).1 hv
      refine ⟨N, heq, by omega, hle, fun v hv hvN => ?_, fun v hv ⟨m, hm, hmv⟩ => ?_⟩
      · by_cases hvs : v.toNat = sequence.toNat
        · exact ⟨first, ((hmem first).mp List.mem_cons_self).1, by rw [hfirst, UInt32.toNat_inj.mp hvs]⟩
        · obtain ⟨m, hm, hmv⟩ := hfilled v (by omega) hvN
          exact ⟨m, ((hmem m).mp (List.mem_cons_of_mem first hm)).1, hmv⟩
      · have hm' := (hmem m).mpr ⟨hm, by
          rw [hmv, SeqProxy.le_iff_rank, SeqProxy.rank, SeqProxy.rank]; omega⟩
        rcases List.mem_cons.mp hm' with rfl | hm'
        · rw [hfirst, SeqProxy.seq.injEq] at hmv
          rw [← hmv] at hv
          omega
        · exact hopen v hv m hm' hmv

end FalconLedger
