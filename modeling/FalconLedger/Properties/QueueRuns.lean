import FalconLedger.Close.BuildLedger
import FalconLedger.Data.Run
import FalconLedger.Properties.QueueChains

/-!
# Runs of an account's queue

While transactions are queued and leave the queue and the ledger moves on, nothing is missing below
a queued sequence number but what has left the queue (`Filled`).
-/

namespace FalconLedger

open TxQ

variable {H : Services} {fees : Reserves} {s : Ledger}

/-! ### Runs -/

/-- The account's sequence number, `0` without an account. -/
def Ledger.sequenceOf (s : Ledger) (id : AccountID) : UInt32 :=
  (s.accounts.lookup id).elim 0 AccountRoot.sequence

namespace TxQ

/-- The queue of an account beside the open ledger, with the places that transactions have left. -/
structure AccountQueue where
  view : Ledger
  byAccount : Option TxMap
  left : List SeqProxy

def AccountQueue.txs (q : AccountQueue) : TxMap := q.byAccount.getD .empty

def AccountQueue.start (view : Ledger) : AccountQueue := ⟨view, none, []⟩

inductive QueueStep
  /-- A call of `TxQ::apply`. -/
  | apply (tx : AccountTx)
  /-- The ledger changes. -/
  | ledger (view : Ledger)
  /-- A transaction leaves the queue: applied, expired or dropped. -/
  | leave (seqProx : SeqProxy)
  /-- `processClosedLedger` takes the account out, once it has no transactions. -/
  | forget

/-- A step, and whether a transaction has been queued. -/
def step (Q : QueueServices) (q : AccountQueue) : QueueStep → AccountQueue × Except TER Unit
  | .apply tx =>
    match apply Q q.view q.byAccount tx with
    | .ok txs => ({ q with byAccount := some txs }, .ok ())
    | .error ter => (q, .error ter)
  | .ledger view => ({ q with view }, .ok ())
  | .leave seqProx =>
    ({ q with
      byAccount := q.byAccount.map fun txs => txs.erase seqProx
      left := seqProx :: q.left }, .ok ())
  | .forget => ({ q with byAccount := if q.txs.toList = [] then none else q.byAccount }, .ok ())

/-- The account's transactions are submitted, but no `TicketCreate` by sequence number is queued; its
own sequence number never decreases. -/
def NoTicketCreate (Q : QueueServices) (account : AccountID) (q : AccountQueue) : QueueStep → Prop
  | .apply tx => tx.account = account ∧ ∀ txs, apply Q q.view q.byAccount tx = .ok txs →
      tx.seqProxy.isSeq = true → tx.isTicketCreate = false
  | .ledger view => q.view.sequenceOf account ≤ view.sequenceOf account
  | .leave _ => True
  | .forget => True

variable {Q : QueueServices} {account : AccountID} {q : AccountQueue}

/-- Below a queued sequence number nothing is missing but what has left the queue. -/
structure Filled (account : AccountID) (q : AccountQueue) : Prop where
  plain : Plain account q.txs
  below : ∀ n, Queued q.txs n → ∀ v, (q.view.sequenceOf account).toNat ≤ v.toNat →
    v.toNat < n.toNat → Queued q.txs v ∨ .seq v ∈ q.left

theorem Queued.set {txs : TxMap} {m : MaybeTx} {v : UInt32} (h : Queued txs v) :
    Queued (txs.set m) v := by
  obtain ⟨m', hm', hv⟩ := h
  by_cases hm : m'.seqProxy = m.seqProxy
  · exact ⟨m, KeyedMap.mem_toList_set.mpr (.inl rfl), hm ▸ hv⟩
  · exact ⟨m', KeyedMap.mem_toList_set.mpr (.inr ⟨hm, hm'⟩), hv⟩

theorem apply_spec {byAccount : Option TxMap} {tx : AccountTx} {txs' : TxMap}
    (h : apply Q s byAccount tx = .ok txs') :
    txs' = (byAccount.getD .empty).set ⟨tx, makeTxConsequences tx⟩ ∧
      ∀ n, tx.seqProxy = .seq n → n = s.sequenceOf tx.account ∨
        Queued (byAccount.getD .empty) n ∨
        nextQueuableSeq (s.sequenceOf tx.account) (byAccount.getD .empty) = .seq n := by
  simp only [apply, Except.bind_eq_ok, Except.pure_eq_ok, orFail_eq_ok, checkWhen_eq_ok] at h
  obtain ⟨_, -, _, -, root, hroot, _, -, _, -, _, -, _, -, _, hempty, _, -, _, hmulti, _, -, _, -, _, -,
    _, -, rfl⟩ := h
  have hsequence : s.sequenceOf tx.account = root.sequence := by
    rw [Ledger.sequenceOf, hroot, Option.elim_some]
  refine ⟨rfl, fun n hn => ?_⟩
  rw [hsequence]
  have hfirst : checkFirst root.sequence tx.seqProxy = .ok () → n = root.sequence := fun hcheck => by
    simp only [hn, checkFirst, Except.bind_eq_ok, failIf_eq_ok] at hcheck
    obtain ⟨_, hge, hle⟩ := hcheck
    rw [UInt32.lt_iff_toNat_lt] at hge hle
    exact UInt32.toNat_inj.mp (by omega)
  by_cases hactive : lowerBound (byAccount.getD .empty) (.seq root.sequence) = []
  · exact .inl (hfirst (hempty hactive))
  · by_cases hreplaces : ((byAccount.getD .empty).find tx.seqProxy).isSome = true
    · obtain ⟨m, hm⟩ := Option.isSome_iff_exists.mp hreplaces
      have hkey := (byAccount.getD .empty).key_eq _ _ hm
      exact .inr (.inl ⟨m, ((byAccount.getD .empty).mem_toList m).mpr (hkey ▸ hm), hkey.trans hn⟩)
    · obtain ⟨_, -, _, horder, -⟩ := hmulti ⟨hactive, .inr (by simpa using hreplaces)⟩
      rw [checkOrder] at horder
      split_ifs at horder with hfront
      · exact .inl (hfirst horder)
      · simp only [checkWhen_eq_ok, failIf_eq_ok] at horder
        have hnext := horder (by simpa using hreplaces)
        rw [hn] at hnext
        exact .inr (.inr (not_not.mp fun hne => hnext ⟨rfl, hne⟩))

theorem Plain.set {txs : TxMap} {tx : AccountTx} (h : Plain account txs)
    (haccount : tx.account = account)
    (hplain : tx.seqProxy.isSeq = true → tx.isTicketCreate = false) :
    Plain account (txs.set ⟨tx, makeTxConsequences tx⟩) where
  account m hm := by
    rcases KeyedMap.mem_toList_set.mp hm with rfl | ⟨-, hm⟩
    exacts [haccount, h.account m hm]
  consequences m hm := by
    rcases KeyedMap.mem_toList_set.mp hm with rfl | ⟨-, hm⟩
    exacts [rfl, h.consequences m hm]
  plain m hm := by
    rcases KeyedMap.mem_toList_set.mp hm with rfl | ⟨-, hm⟩
    exacts [hplain, h.plain m hm]

theorem Plain.mono {txs txs' : TxMap} (h : Plain account txs)
    (hsub : ∀ m ∈ txs'.toList, m ∈ txs.toList) : Plain account txs' :=
  ⟨fun m hm => h.account m (hsub m hm), fun m hm => h.consequences m (hsub m hm),
    fun m hm => h.plain m (hsub m hm)⟩

theorem not_mem_empty (m : MaybeTx) : m ∉ (KeyedMap.empty : TxMap).toList := by
  rw [KeyedMap.toList_empty]
  exact List.not_mem_nil

theorem Filled.start (view : Ledger) : Filled account (.start view) where
  plain := ⟨fun m hm => absurd hm (not_mem_empty m), fun m hm => absurd hm (not_mem_empty m),
    fun m hm => absurd hm (not_mem_empty m)⟩
  below := fun _ ⟨m, hm, _⟩ => absurd hm (not_mem_empty m)

theorem Filled.apply {tx : AccountTx} {txs : TxMap} (h : Filled account q)
    (hok : NoTicketCreate Q account q (.apply tx))
    (happly : TxQ.apply Q q.view q.byAccount tx = .ok txs) :
    Filled account { q with byAccount := some txs } := by
  obtain ⟨haccount, hplain⟩ := hok
  replace hplain := hplain txs happly
  obtain ⟨rfl, hplace⟩ := apply_spec happly
  refine ⟨h.plain.set haccount hplain, ?_⟩
  rintro n ⟨m, hm, hmn⟩ v hv hvn
  have hold : Queued q.txs n → Queued q.txs v ∨ .seq v ∈ q.left := fun hn => h.below n hn v hv hvn
  have hstill : Queued q.txs v → Queued (q.txs.set ⟨tx, makeTxConsequences tx⟩) v := Queued.set
  rcases KeyedMap.mem_toList_set.mp hm with rfl | ⟨-, hm⟩
  · rcases hplace n hmn with heq | hqueued | hnext
    · rw [haccount] at heq
      rw [heq] at hvn
      exact absurd hvn (not_lt.mpr hv)
    · exact (hold hqueued).imp_left hstill
    · obtain ⟨N, hN⟩ := nextQueuableSeq_spec h.plain (q.view.sequenceOf account)
      have heq := hN.eq
      rw [← haccount] at heq
      have hn : n = UInt32.ofNat N := SeqProxy.seq.inj (hnext.symm.trans heq)
      have hle : n.toNat ≤ N := by
        rw [hn, UInt32.toNat_ofNat']
        exact Nat.mod_le _ _
      exact .inl (hstill (hN.filled v hv (hvn.trans_le hle)))
  · exact (hold ⟨m, hm, hmn⟩).imp_left hstill

theorem Filled.step {a : QueueStep} (h : Filled account q) (hok : NoTicketCreate Q account q a) :
    Filled account (TxQ.step Q q a).1 := by
  cases a with
  | apply tx =>
    rw [TxQ.step]
    cases happly : TxQ.apply Q q.view q.byAccount tx with
    | error ter => exact h
    | ok txs => exact h.apply hok happly
  | ledger view =>
    exact ⟨h.plain, fun n hn v hv => h.below n hn v (le_trans (UInt32.le_iff_toNat_le.mp hok) hv)⟩
  | leave seqProx =>
    have htxs : ∀ m, m ∈ (TxQ.step Q q (.leave seqProx)).1.txs.toList ↔
        m.seqProxy ≠ seqProx ∧ m ∈ q.txs.toList := fun m => by
      rw [TxQ.step, AccountQueue.txs, AccountQueue.txs]
      cases hq : q.byAccount with
      | none => simp
      | some txs => simp [KeyedMap.mem_toList_erase]
    refine ⟨h.plain.mono fun m hm => ((htxs m).mp hm).2, fun n ⟨m, hm, hmn⟩ v hv hvn => ?_⟩
    rcases h.below n ⟨m, ((htxs m).mp hm).2, hmn⟩ v hv hvn with ⟨m', hm', hv'⟩ | hleft
    · by_cases heq : m'.seqProxy = seqProx
      · exact .inr (List.mem_cons.mpr (.inl (hv'.symm.trans heq)))
      · exact .inl ⟨m', (htxs m').mpr ⟨heq, hm'⟩, hv'⟩
    · exact .inr (List.mem_cons_of_mem _ hleft)
  | forget =>
    have htxs : (TxQ.step Q q .forget).1.txs = q.txs ∨ q.txs.toList = [] ∧
        (TxQ.step Q q .forget).1.txs = .empty := by
      rw [TxQ.step, AccountQueue.txs]
      dsimp only
      split_ifs with hempty
      · exact .inr ⟨hempty, rfl⟩
      · exact .inl rfl
    have hsub : ∀ m ∈ (TxQ.step Q q .forget).1.txs.toList, m ∈ q.txs.toList := fun m hm => by
      rcases htxs with heq | ⟨-, heq⟩ <;> rw [heq] at hm
      exacts [hm, absurd hm (not_mem_empty m)]
    refine ⟨h.plain.mono hsub, fun n ⟨m, hm, hmn⟩ v hv hvn => ?_⟩
    rcases htxs with heq | ⟨-, heq⟩
    · rw [heq]
      exact h.below n ⟨m, hsub m hm, hmn⟩ v hv hvn
    · rw [heq] at hm
      exact absurd hm (not_mem_empty m)

/-- Nothing that has left the queue is missing before a queued transaction. -/
def AccountQueue.NoGap (q : AccountQueue) (account : AccountID) : Prop :=
  ∀ n, Queued q.txs n → ∀ v, (q.view.sequenceOf account).toNat ≤ v.toNat → v.toNat < n.toNat →
    .seq v ∈ q.left → Queued q.txs v

/-- The transactions queued by sequence number from the account's on, in order. -/
def AccountQueue.chain (q : AccountQueue) (account : AccountID) : List AccountTx :=
  ((lowerBound q.txs (.seq (q.view.sequenceOf account))).filter fun m => m.seqProxy.isSeq).map
    MaybeTx.tx

theorem mem_chain {v : UInt32} : (∃ tx ∈ q.chain account, tx.seqProxy = .seq v) ↔
    Queued q.txs v ∧ (q.view.sequenceOf account).toNat ≤ v.toNat := by
  have hle : ∀ m : MaybeTx, m.seqProxy = .seq v →
      (.seq (q.view.sequenceOf account) ≤ m.seqProxy ↔
        (q.view.sequenceOf account).toNat ≤ v.toNat) := fun m hm => by
    rw [hm, SeqProxy.le_iff_rank, SeqProxy.rank, SeqProxy.rank]
  simp only [AccountQueue.chain, List.mem_map, List.mem_filter, mem_lowerBound]
  constructor
  · rintro ⟨_, ⟨m, ⟨⟨hm, hge⟩, -⟩, rfl⟩, hv⟩
    exact ⟨⟨m, hm, hv⟩, (hle m hv).mp hge⟩
  · rintro ⟨⟨m, hm, hv⟩, hge⟩
    exact ⟨m.tx, ⟨m, ⟨⟨hm, (hle m hv).mpr hge⟩, by rw [hv]; rfl⟩, rfl⟩, hv⟩

theorem mem_queue_of_mem_chain {tx : AccountTx} (h : tx ∈ q.chain account) :
    ∃ m ∈ q.txs.toList, m.tx = tx ∧ tx.seqProxy.isSeq = true := by
  simp only [AccountQueue.chain, List.mem_map, List.mem_filter, mem_lowerBound] at h
  obtain ⟨m, ⟨⟨hm, -⟩, hseq⟩, rfl⟩ := h
  exact ⟨m, hm, rfl, hseq⟩

theorem Filled.chain_plain (h : Filled account q) :
    ∀ tx ∈ q.chain account, tx.account = account ∧ tx.isTicketCreate = false := by
  intro tx htx
  obtain ⟨m, hm, rfl, hseq⟩ := mem_queue_of_mem_chain htx
  exact ⟨h.plain.account m hm, h.plain.plain m hm hseq⟩

theorem Filled.consecutive (h : Filled account q) (hgap : q.NoGap account) :
    Consecutive (q.view.sequenceOf account).toNat (q.chain account) := by
  have hmem : ∀ m, m ∈ (lowerBound q.txs (.seq (q.view.sequenceOf account))).filter
      (fun m => m.seqProxy.isSeq) ↔ (m ∈ q.txs.toList ∧
        .seq (q.view.sequenceOf account) ≤ m.seqProxy) ∧ m.seqProxy.isSeq = true := fun m => by
    rw [List.mem_filter, mem_lowerBound]
  refine consecutive_of_closed ((q.txs.toList_ascending.filter _).filter _) (fun m hm => ?_)
    fun m hm v hv hlt => ?_
  · obtain ⟨⟨-, hge⟩, hseq⟩ := (hmem m).mp hm
    cases hcase : m.seqProxy with
    | seq w =>
      rw [hcase, SeqProxy.le_iff_rank, SeqProxy.rank, SeqProxy.rank] at hge
      exact ⟨w, rfl, hge⟩
    | ticket w =>
      rw [hcase] at hseq
      contradiction
  · obtain ⟨⟨hm, hge⟩, hseq⟩ := (hmem m).mp hm
    cases hcase : m.seqProxy with
    | seq w =>
      rw [hcase, SeqProxy.lt_iff_rank, SeqProxy.rank, SeqProxy.rank] at hlt
      have hqueued : Queued q.txs v := by
        rcases h.below w ⟨m, hm, hcase⟩ v hv hlt with hqueued | hleft
        exacts [hqueued, hgap w ⟨m, hm, hcase⟩ v hv hlt hleft]
      obtain ⟨m', hm', hv'⟩ := hqueued
      refine ⟨m', (hmem m').mpr ⟨⟨hm', ?_⟩, by rw [hv']; rfl⟩, hv'⟩
      rw [hv', SeqProxy.le_iff_rank, SeqProxy.rank, SeqProxy.rank]
      exact hv
    | ticket w =>
      rw [hcase] at hseq
      contradiction

theorem Filled.next_eq (h : Filled account q) (hgap : q.NoGap account) {seqProx : SeqProxy} {N : ℕ}
    (hnext : IsNextQueuable (q.view.sequenceOf account) q.txs seqProx N) :
    N = (q.view.sequenceOf account).toNat + (q.chain account).length := by
  have hiff := fun v : UInt32 => (mem_chain : (∃ tx ∈ q.chain account, tx.seqProxy = .seq v) ↔
    _).symm.trans (h.consecutive hgap).mem_iff
  have hbound := (q.view.sequenceOf account).toNat_lt
  have hle := hnext.le
  have hmax := hnext.bound
  have hnat : ∀ k < 4294967296, (UInt32.ofNat k).toNat = k := fun k hk =>
    UInt32.toNat_ofNat_of_lt' hk
  by_contra hne
  rcases Nat.lt_or_gt_of_ne hne with hlt | hgt
  · have hfits : N < 4294967296 :=
      hlt.trans_le ((h.consecutive hgap).bound hbound.le)
    have hqueued := (hiff (UInt32.ofNat N)).mpr (by rw [hnat N hfits]; omega)
    exact hnext.opening _ (hnat N hfits) hqueued.1
  · have hfits : (q.view.sequenceOf account).toNat + (q.chain account).length < 4294967296 := by
      omega
    have hqueued := hnext.filled (UInt32.ofNat _) (by rw [hnat _ hfits]; omega)
      (by rw [hnat _ hfits]; exact hgt)
    have hin := (hiff _).mp ⟨hqueued, by rw [hnat _ hfits]; omega⟩
    rw [hnat _ hfits] at hin
    omega

end TxQ

/-- **Chains of queued transactions.** While no `TicketCreate` is queued by sequence number, what the
queue expects of a transaction in the chain is what it does; the next sequence number that can be
queued is the first one that is not; and if nothing that has left the queue is missing in it, the
chain can be applied in order, and the account's sequence number is then the next that can be
queued. -/
theorem queue_chain_run {Q : QueueServices} {account : AccountID} {view : Ledger}
    {steps : List QueueStep}
    (hsteps : Run.Always (TxQ.step Q) (NoTicketCreate Q account) (.start view) steps) :
    let q := Run.final (TxQ.step Q) (.start view) steps
    let next := nextQueuableSeq (q.view.sequenceOf account) q.txs
    (∀ tx ∈ q.chain account, ∀ s s' root', Succeeds H fees s tx s' →
      s'.accounts.lookup account = some root' →
        (makeTxConsequences tx).followingSeq = .seq root'.sequence) ∧
    (∃ N, IsNextQueuable (q.view.sequenceOf account) q.txs next N) ∧
    (q.NoGap account →
      (∀ l tx l' s', q.chain account = l ++ tx :: l' → InOrder H fees q.view l s' →
        Transactor.checkSeqProxy s' tx.common ≠ .error .tefPastSeq ∧
          Transactor.checkSeqProxy s' tx.common ≠ .error .terPreSeq) ∧
      ∀ s' root', InOrder H fees q.view (q.chain account) s' →
        s'.accounts.lookup account = some root' → next = .seq root'.sequence) := by
  intro q next
  have h : Filled account q :=
    Run.invariant (Filled account) (fun _ _ hfilled hok => hfilled.step hok) (.start view) hsteps
  have hview : ∀ root, q.view.accounts.lookup account = some root →
      root.sequence = UInt32.ofNat (q.view.sequenceOf account).toNat := fun root hroot => by
    rw [UInt32.ofNat_toNat, Ledger.sequenceOf, hroot, Option.elim_some]
  obtain ⟨N, hnext⟩ := nextQueuableSeq_spec h.plain (q.view.sequenceOf account)
  refine ⟨fun tx htx s s' root' hsucceeds hroot' => ?_, ⟨N, hnext⟩,
    fun hgap => ⟨fun l tx l' s' hsplit horder => ?_, fun s' root' horder hroot' => ?_⟩⟩
  · obtain ⟨haccount, hplain⟩ := h.chain_plain tx htx
    obtain ⟨-, -, -, hseq⟩ := mem_queue_of_mem_chain htx
    cases hcase : tx.seqProxy with
    | seq n => exact (followingSeq_iff hsucceeds hcase (haccount ▸ hroot')).mpr hplain
    | ticket n =>
      rw [hcase] at hseq
      contradiction
  · have hplain := h.chain_plain
    rw [hsplit] at hplain
    exact horder.next (hsplit ▸ h.consecutive hgap)
      (fun tx' htx' => hplain tx' (List.mem_append_left _ htx'))
      (hplain tx (List.mem_append_right l List.mem_cons_self)).1 hview
  · rw [horder.sequence (h.consecutive hgap) h.chain_plain hview root' hroot',
      ← h.next_eq hgap hnext]
    exact hnext.eq

namespace Sample

def queue : QueueServices := ⟨10, fun _ _ _ _ => .ok ()⟩

def reserves : Reserves := ⟨200, 50⟩

def queueTx (seq : UInt32) (body : AccountBody) : AccountTx :=
  ⟨BitVec.ofNat 256 seq.toNat, alice, none, 10, .seq seq, body⟩

end Sample

theorem queue_chain_run_two :
    let q := Run.final (TxQ.step Sample.queue) (.start Sample.ledger)
      [.apply (Sample.queueTx 1 (.other false)), .apply (Sample.queueTx 2 (.other false))]
    ∃ N, IsNextQueuable (q.view.sequenceOf Sample.alice) q.txs
      (nextQueuableSeq (q.view.sequenceOf Sample.alice) q.txs) N :=
  (@queue_chain_run Sample.services Sample.reserves Sample.queue Sample.alice Sample.ledger
    [.apply (Sample.queueTx 1 (.other false)), .apply (Sample.queueTx 2 (.other false))]
    ⟨⟨rfl, fun _ _ _ => rfl⟩, ⟨rfl, fun _ _ _ => rfl⟩, trivial⟩).2.1

private def create : MaybeTx :=
  ⟨Sample.queueTx 1 (.ticketCreate 1), makeTxConsequences (Sample.queueTx 1 (.ticketCreate 1))⟩

private def noop : MaybeTx :=
  ⟨Sample.queueTx 2 (.other false), makeTxConsequences (Sample.queueTx 2 (.other false))⟩

private theorem toList_create : ((KeyedMap.empty : TxMap).set create).toList = [create] := by
  rw [KeyedMap.toList_set_last (by simp), KeyedMap.toList_empty, List.nil_append]

private theorem toList_both :
    (((KeyedMap.empty : TxMap).set create).set noop).toList = [create, noop] := by
  rw [KeyedMap.toList_set_last, toList_create]
  · rfl
  · rw [toList_create]
    decide

private theorem apply_create : TxQ.apply Sample.queue Sample.ledger none create.tx =
    .ok (KeyedMap.empty.set create) := by
  simp only [TxQ.apply, Option.getD_none, lowerBound, KeyedMap.toList_empty]
  rfl

private theorem apply_noop :
    TxQ.apply Sample.queue Sample.ledger (some (KeyedMap.empty.set create)) noop.tx =
      .ok ((KeyedMap.empty.set create).set noop) := by
  simp only [TxQ.apply, Option.getD_some, lowerBound, getPrevTx, nextQueuableSeq, canBeHeld,
    checkOrder, toList_create]
  rfl

/-- After a `TicketCreate` of one ticket at sequence number 1 the queue takes a transaction at 2, but
the account's sequence number is then 3. -/
theorem ticketCreate_strands_next :
    let create := Sample.queueTx 1 (.ticketCreate 1)
    let next := Sample.queueTx 2 (.other false)
    let q := Run.final (TxQ.step Sample.queue) (.start Sample.ledger) [.apply create, .apply next]
    q.left = [] ∧ q.chain Sample.alice = [create, next] ∧
      (makeTxConsequences create).followingSeq = .seq 2 ∧
      ∃ s' root', Succeeds Sample.services Sample.reserves q.view create s' ∧
        s'.accounts.lookup Sample.alice = some root' ∧ root'.sequence = 3 ∧
        Transactor.checkSeqProxy s' next.common = .error .tefPastSeq := by
  intro create' next q
  have hq : q = ⟨Sample.ledger, some ((KeyedMap.empty.set create).set noop), []⟩ := by
    have hfirst : (TxQ.step Sample.queue (.start Sample.ledger) (.apply create')).1 =
        ⟨Sample.ledger, some (KeyedMap.empty.set create), []⟩ := by
      rw [TxQ.step, AccountQueue.start, show create' = create.tx from rfl, apply_create]
    have hsecond : (TxQ.step Sample.queue ⟨Sample.ledger, some (KeyedMap.empty.set create), []⟩
        (.apply next)).1 = ⟨Sample.ledger, some ((KeyedMap.empty.set create).set noop), []⟩ := by
      rw [TxQ.step, show next = noop.tx from rfl, apply_noop]
    rw [← hsecond, ← hfirst]
    rfl
  have hview : q.view = Sample.ledger := by rw [hq]
  refine ⟨by rw [hq], ?_, by decide +kernel, ?_⟩
  · rw [AccountQueue.chain, AccountQueue.txs, lowerBound, hq, Option.getD_some, toList_both]
    decide +kernel
  have hrun : (((Transactor.charge Sample.services Sample.ledger create'.common >>= fun s =>
      TicketCreate.doApply Sample.services Sample.reserves s
        (Sample.ledger.balanceOf Sample.alice) create' 1).toOption.bind fun s =>
      s.accounts.lookup Sample.alice).map AccountRoot.sequence) = some 3 := by decide +kernel
  simp only [Option.map_eq_some_iff, Option.bind_eq_some_iff] at hrun
  obtain ⟨root', ⟨s', hs', hroot'⟩, hsequence⟩ := hrun
  have happly : (Transactor.charge Sample.services Sample.ledger create'.common >>= fun s =>
      TicketCreate.doApply Sample.services Sample.reserves s
        (Sample.ledger.balanceOf Sample.alice) create' 1) = .ok s' := by
    cases hcase : (Transactor.charge Sample.services Sample.ledger create'.common >>= fun s =>
        TicketCreate.doApply Sample.services Sample.reserves s
          (Sample.ledger.balanceOf Sample.alice) create' 1) with
    | error ter =>
      rw [hcase] at hs'
      cases hs'
    | ok t =>
      rw [hcase] at hs'
      exact congrArg _ (Option.some.inj hs')
  obtain ⟨s₁, hcharge, heffect⟩ := Except.bind_eq_ok.mp happly
  refine ⟨s', root', ⟨by rw [hview]; decide +kernel, s₁, by rw [hview]; exact hcharge, ?_⟩, hroot',
    hsequence, ?_⟩
  · rw [hview]
    exact heffect
  · have haccount : next.common.account = Sample.alice := rfl
    have hcommon : next.common.seqProxy = .seq 2 := rfl
    rw [Transactor.checkSeqProxy, haccount, hcommon, hroot']
    simp only [orFail, bind, Except.bind, hsequence]
    decide

end FalconLedger
