import FalconLedger.Properties.QueueDrain
import FalconLedger.Properties.QueueRuns
import FalconLedger.Queue.TxQCalls

/-!
# Blockers in the queue

A blocker that an account's sequence number has not passed is alone in the queue of the account. The
checks of `TxQ::apply` see to it for the transaction that is queued; every other call only takes
transactions out (`Kept`), and the sequence number only grows.
-/

namespace FalconLedger.TxQ

variable {View : Type} {E : Engine View} {account : AccountID} {sequence : UInt32} {r : Ref}

/-! ### Calls that queue nothing -/

/-- The second queue has only what the first one has, but for its failures. -/
def Kept (before after : AccountMap) : Prop :=
  ∀ r c', candidateAt after r = some c' → ∃ c, candidateAt before r = some c ∧
    c'.toMaybeTx = c.toMaybeTx

theorem Kept.refl (m : AccountMap) : Kept m m := fun _ c' hc' => ⟨c', hc', rfl⟩

theorem Kept.trans {m m' m'' : AccountMap} (h : Kept m m') (h' : Kept m' m'') : Kept m m'' := by
  intro r c'' hc''
  obtain ⟨c', hc', heq'⟩ := h' r c'' hc''
  obtain ⟨c, hc, heq⟩ := h r c' hc'
  exact ⟨c, hc, heq'.trans heq⟩

theorem Kept.foldl {α β : Type*} (m : β → AccountMap) {f : β → α → β}
    (hf : ∀ b a, Kept (m b) (m (f b a))) (l : List α) (b : β) : Kept (m b) (m (l.foldl f b)) := by
  induction l generalizing b with
  | nil => exact .refl _
  | cons a l ih => exact (hf b a).trans (ih (f b a))

theorem Kept.insert {m : AccountMap} {a : AccountID} {old new : TxQAccount}
    (hlookup : m.lookup a = some old)
    (h : ∀ sp c', new.transactions.find sp = some c' → ∃ c, old.transactions.find sp = some c ∧
      c'.toMaybeTx = c.toMaybeTx) : Kept m (m.insert a new) := by
  intro r c' hc'
  rw [candidateAt_insert] at hc'
  split_ifs at hc' with ha
  · obtain ⟨c, hc, heq⟩ := h r.2 c' hc'
    exact ⟨c, by rw [candidateAt, ha, hlookup, Option.bind_some, hc], heq⟩
  · exact ⟨c', hc', rfl⟩

theorem Kept.insert_erase {m : AccountMap} {a : AccountID} {old new : TxQAccount} {sp : SeqProxy}
    (hlookup : m.lookup a = some old) (h : ∀ sp' c', new.transactions.find sp' = some c' →
      ∃ c, old.transactions.find sp' = some c ∧ c'.toMaybeTx = c.toMaybeTx) :
    Kept m (m.insert a { new with transactions := new.transactions.erase sp }) := by
  refine .insert hlookup fun sp' c' hc' => ?_
  dsimp only at hc'
  rw [KeyedMap.find_erase] at hc'
  split_ifs at hc'
  exact h sp' c' hc'

theorem Queue.kept_erase (q : Queue) (r : Ref) : Kept q.byAccount (q.erase r).byAccount := by
  rw [Queue.erase]
  cases hlookup : q.byAccount.lookup r.1 with
  | none => exact .refl _
  | some account => exact .insert_erase hlookup fun _ c' hc' => ⟨c', hc', rfl⟩

theorem Queue.kept_expire (q : Queue) (r : Ref) : Kept q.byAccount (q.expire r).byAccount := by
  refine (q.kept_erase r).trans ?_
  rw [Queue.expire]
  dsimp only
  cases hlookup : (q.erase r).byAccount.lookup r.1 with
  | none => exact .refl _
  | some account => exact .insert hlookup fun _ c' hc' => ⟨c', hc', rfl⟩

theorem Queue.kept_kickOut (q : Queue) (a : AccountID) :
    Kept q.byAccount (q.kickOut a).byAccount := by
  unfold Queue.kickOut
  split
  · exact .refl _
  · split
    · exact .refl _
    · exact q.kept_erase _

theorem kept_accountErase (m : AccountMap) (a : AccountID) : Kept m (m.erase a) := by
  intro r c' hc'
  by_cases ha : r.1 = a
  · rw [candidateAt, ha, AList.lookup_erase] at hc'
    cases hc'
  · rw [candidateAt, AList.lookup_erase_ne ha] at hc'
    exact ⟨c', hc', rfl⟩

theorem Queue.kept_processClosedLedger (q : Queue) (ledgerSeq : UInt32) :
    Kept q.byAccount (q.processClosedLedger ledgerSeq).byAccount :=
  (Kept.foldl Queue.byAccount kept_expire _ q).trans (Kept.foldl id kept_accountErase _ _)

theorem kept_eraseAndAdvance {d : Drain View} {m : AccountMap} {old new : TxQAccount}
    {tail : List Ref} (hm : d.byAccount = m) (hlookup : m.lookup r.1 = some old)
    (h : ∀ sp c', new.transactions.find sp = some c' → ∃ c, old.transactions.find sp = some c ∧
      c'.toMaybeTx = c.toMaybeTx) : Kept m (eraseAndAdvance E d r new tail).byAccount := by
  rw [eraseAndAdvance_byAccount, hm]
  exact .insert_erase hlookup h

theorem kept_leaveOrDrop {d : Drain View} {m : AccountMap} {old new : TxQAccount}
    {tail : List Ref} (hm : d.byAccount = m) (hlookup : m.lookup r.1 = some old)
    (h : ∀ sp c', new.transactions.find sp = some c' → ∃ c, old.transactions.find sp = some c ∧
      c'.toMaybeTx = c.toMaybeTx) : Kept m (leaveOrDrop E d r new tail).byAccount := by
  have hleave : Kept m (leave d r new tail).byAccount := by
    rw [leave, hm]
    exact .insert hlookup h
  unfold leaveOrDrop
  split_ifs
  · exact kept_eraseAndAdvance hm hlookup h
  · split
    · split_ifs
      · rw [dropLast, hm]
        exact .insert_erase hlookup h
      · exact hleave
    · exact hleave
  · exact hleave

theorem kept_attempt {d : Drain View} {acct : TxQAccount} {c : Candidate} {tail : List Ref}
    (hlookup : d.byAccount.lookup r.1 = some acct) (hfind : acct.transactions.find r.2 = some c) :
    Kept d.byAccount (attempt E d r acct c tail).byAccount := by
  have hsame : ∀ sp c', acct.transactions.find sp = some c' → ∃ c, acct.transactions.find sp = some c ∧
      c'.toMaybeTx = c.toMaybeTx := fun _ c' hc' => ⟨c', hc', rfl⟩
  unfold attempt
  generalize E.apply d.view c = result
  obtain ⟨ter, didApply, view⟩ := result
  dsimp only
  split_ifs
  · exact kept_eraseAndAdvance rfl hlookup hsame
  · exact kept_eraseAndAdvance rfl hlookup hsame
  · exact kept_eraseAndAdvance rfl hlookup hsame
  · refine kept_leaveOrDrop rfl hlookup fun sp c' hc' => ?_
    dsimp only at hc'
    have hkey : (c.retried acct.retryPenalty ter).seqProx = r.2 := acct.transactions.key_eq r.2 c hfind
    rw [KeyedMap.find_set, hkey] at hc'
    split_ifs at hc' with heq
    · obtain rfl := Option.some.inj hc'
      exact ⟨c, heq ▸ hfind, rfl⟩
    · exact ⟨c', hc', rfl⟩

theorem kept_turn {d d' : Drain View} (h : turn E d = .next d') : Kept d.byAccount d'.byAccount := by
  unfold turn at h
  split at h
  · cases h
  · split at h
    · cases h
    · split at h
      · cases h
      · split_ifs at h <;> obtain rfl := Next.next.inj h
        · exact .refl _
        · exact kept_attempt ‹_› ‹_›

theorem kept_drain {d d' : Drain View} (h : drain E d = some d') :
    Kept d.byAccount d'.byAccount := by
  fun_induction drain E d with
  | case1 d hfault => cases h
  | case2 d hdone =>
    obtain rfl := Option.some.inj h
    exact .refl _
  | case3 d d₁ hnext ih => exact (kept_turn hnext).trans (ih h)

theorem kept_accept {parentHash : UInt256} {q q' : Queue} {view : View} {d : Drain View}
    (h : accept E parentHash q view = some (q', d)) : Kept q.byAccount q'.byAccount := by
  rw [accept, Option.map_eq_some_iff] at h
  obtain ⟨d', hdrain, heq⟩ := h
  obtain ⟨rfl, rfl⟩ := Prod.mk.inj heq
  exact kept_drain hdrain

/-! ### Alone -/

/-- A blocker from the account's sequence number on is the only transaction there. -/
def BlockerAlone (byAccount : AccountMap) (account : AccountID) (sequence : UInt32) : Prop :=
  ∀ sp sp' c c', candidateAt byAccount (account, sp) = some c →
    candidateAt byAccount (account, sp') = some c' → c.consequences.isBlocker = true →
      .seq sequence ≤ sp → .seq sequence ≤ sp' → sp' = sp

theorem BlockerAlone.mono {m m' : AccountMap} {sequence' : UInt32}
    (h : BlockerAlone m account sequence) (hkept : Kept m m') (hle : sequence ≤ sequence') :
    BlockerAlone m' account sequence' := by
  have hle' : SeqProxy.seq sequence ≤ .seq sequence' := by
    rw [SeqProxy.le_iff_rank]
    exact UInt32.le_iff_toNat_le.mp hle
  intro sp sp' c c' hc hc' hblocker hsp hsp'
  obtain ⟨c₀, hc₀, heq⟩ := hkept _ c hc
  obtain ⟨c₀', hc₀', -⟩ := hkept _ c' hc'
  exact h sp sp' c₀ c₀' hc₀ hc₀' (heq ▸ hblocker) (hle'.trans hsp) (hle'.trans hsp')

/-! ### The transaction that is queued -/

theorem candidateAt_add {parentHash : UInt256} {q : Queue} {a : AccountID} {c : Candidate}
    (sp : SeqProxy) : candidateAt (q.add parentHash a c).byAccount (a, sp) =
      if sp = c.seqProx then some c else candidateAt q.byAccount (a, sp) := by
  rw [Queue.add, candidateAt_insert, if_pos rfl, KeyedMap.find_set]
  split_ifs
  · rfl
  · rw [candidateAt]
    cases q.byAccount.lookup a <;> rfl

theorem candidateAt_add_of_ne {parentHash : UInt256} {q : Queue} {a b : AccountID} {c : Candidate}
    (hne : b ≠ a) (sp : SeqProxy) :
    candidateAt (q.add parentHash a c).byAccount (b, sp) = candidateAt q.byAccount (b, sp) := by
  rw [Queue.add, candidateAt_insert, if_neg hne]

/-- The transactions `apply` looks at. -/
def activeOf (q : Queue) (account : AccountID) (sequence : UInt32) : List MaybeTx :=
  lowerBound (((q.byAccount.lookup account).map TxQAccount.txMap).getD .empty) (.seq sequence)

theorem mem_activeOf {q : Queue} {sp : SeqProxy} {c : Candidate}
    (hc : candidateAt q.byAccount (account, sp) = some c) (hsp : .seq sequence ≤ sp) :
    c.toMaybeTx ∈ activeOf q account sequence ∧ c.toMaybeTx.seqProxy = sp := by
  obtain ⟨acct, hlookup, hfind⟩ := Option.bind_eq_some_iff.mp hc
  have hkey : c.toMaybeTx.seqProxy = sp := acct.transactions.key_eq sp c hfind
  refine ⟨?_, hkey⟩
  rw [activeOf, mem_lowerBound, KeyedMap.mem_toList, hkey]
  refine ⟨?_, hsp⟩
  dsimp only at hlookup
  rw [hlookup, Option.map_some, Option.getD_some]
  exact Option.map_eq_some_iff.mpr ⟨c, hfind, rfl⟩

theorem candidate_of_mem_activeOf {q : Queue} {m : MaybeTx} (hm : m ∈ activeOf q account sequence) :
    ∃ c, candidateAt q.byAccount (account, m.seqProxy) = some c ∧ c.toMaybeTx = m ∧
      .seq sequence ≤ m.seqProxy := by
  rw [activeOf, mem_lowerBound, KeyedMap.mem_toList] at hm
  obtain ⟨hfind, hle⟩ := hm
  cases hlookup : q.byAccount.lookup account with
  | none =>
    rw [hlookup] at hfind
    cases hfind
  | some acct =>
    rw [hlookup] at hfind
    obtain ⟨c, hc, heq⟩ := Option.map_eq_some_iff.mp hfind
    exact ⟨c, by rw [candidateAt, hlookup, Option.bind_some, hc], heq, hle⟩

theorem seqProxy_of_checkBlocker {active : List MaybeTx} {tx : AccountTx} {m : MaybeTx}
    (h : checkBlocker active tx = .ok ()) (hblocker : (makeTxConsequences tx).isBlocker = true)
    (hm : m ∈ active) : m.seqProxy = tx.seqProxy := by
  simp only [checkBlocker, checkWhen_eq_ok, Except.bind_eq_ok, failIf_eq_ok] at h
  obtain ⟨_, hone, hsame⟩ := h hblocker
  cases active with
  | nil => cases hm
  | cons a rest =>
    cases rest with
    | nil =>
      rw [List.mem_singleton.mp hm]
      by_contra hne
      exact hsame ⟨rfl, by simpa using hne⟩
    | cons b rest => exact absurd (by simp) hone

theorem seqProxy_of_checkBlocked {tx : AccountTx} {m : MaybeTx}
    (h : checkBlocked [m] tx = .ok ()) (hblocker : m.consequences.isBlocker = true) :
    m.seqProxy = tx.seqProxy := by
  rw [checkBlocked, failIf_eq_ok] at h
  by_contra hne
  exact h ⟨rfl, by simpa [hblocker] using hne⟩

theorem eq_singleton_of_ascending {l : List MaybeTx} {a : MaybeTx}
    (hasc : Ascending MaybeTx.seqProxy l) (ha : a ∈ l)
    (h : ∀ m ∈ l, m.seqProxy = a.seqProxy) : l = [a] := by
  cases l with
  | nil => cases ha
  | cons b l =>
    cases l with
    | nil => rw [List.mem_singleton.mp ha]
    | cons b' l =>
      have hlt := (List.pairwise_cons.mp hasc).1 b' List.mem_cons_self
      rw [h b List.mem_cons_self, h b' (List.mem_cons_of_mem _ List.mem_cons_self)] at hlt
      exact absurd hlt (lt_irrefl _)

/-- **What the checks of `TxQ::apply` see to.** -/
theorem BlockerAlone.queued {Q : QueueServices} {s : Ledger} {q q' : Queue} {tx : AccountTx}
    {txs : TxMap} {parentHash : UInt256} {c : Candidate} {root : AccountRoot}
    (hroot : s.accounts.lookup tx.account = some root)
    (h : BlockerAlone q.byAccount tx.account root.sequence) (hkept : Kept q.byAccount q'.byAccount)
    (hc : c.toMaybeTx = ⟨tx, makeTxConsequences tx⟩)
    (happly : TxQ.apply Q s ((q.byAccount.lookup tx.account).map TxQAccount.txMap) tx = .ok txs) :
    BlockerAlone (q'.add parentHash tx.account c).byAccount tx.account root.sequence := by
  simp only [TxQ.apply, Except.bind_eq_ok, orFail_eq_ok, hroot, Option.some.injEq] at happly
  obtain ⟨_, -, _, -, _, rfl, _, -, _, hblocker, _, hblocked, -⟩ := happly
  have hplace : c.seqProx = tx.seqProxy := congrArg (fun m : MaybeTx => m.tx.seqProxy) hc
  have hconsequences : c.consequences = makeTxConsequences tx := congrArg MaybeTx.consequences hc
  have hactive : Ascending MaybeTx.seqProxy (activeOf q tx.account root.sequence) :=
    (KeyedMap.toList_ascending _).filter _
  -- what is in the queue beside the new transaction has been there before
  have hold : ∀ {sp c'}, sp ≠ tx.seqProxy →
      candidateAt (q'.add parentHash tx.account c).byAccount (tx.account, sp) = some c' →
      ∃ c₀, candidateAt q.byAccount (tx.account, sp) = some c₀ ∧
        c'.toMaybeTx = c₀.toMaybeTx := fun {sp c'} hne hc' => by
    rw [candidateAt_add, hplace, if_neg hne] at hc'
    exact hkept _ c' hc'
  have hnew : ∀ {c'}, candidateAt (q'.add parentHash tx.account c).byAccount
      (tx.account, tx.seqProxy) = some c' → c' = c := fun {c'} hc' => by
    rw [candidateAt_add, hplace, if_pos rfl] at hc'
    exact (Option.some.inj hc').symm
  intro sp sp' c₁ c₂ hc₁ hc₂ hb hsp hsp'
  by_cases heq : sp = tx.seqProxy
  · by_contra hne
    obtain ⟨c₀, hc₀, -⟩ := hold (fun heq' => hne (heq'.trans heq.symm)) hc₂
    obtain ⟨hmem, hkey⟩ := mem_activeOf hc₀ hsp'
    rw [heq] at hc₁
    obtain rfl := hnew hc₁
    have hsame := seqProxy_of_checkBlocker hblocker (hconsequences ▸ hb) hmem
    exact hne ((hkey.symm.trans hsame).trans heq.symm)
  · obtain ⟨c₀, hc₀, hc₀eq⟩ := hold heq hc₁
    have hb₀ : c₀.consequences.isBlocker = true := by rwa [hc₀eq] at hb
    by_cases heq' : sp' = tx.seqProxy
    · -- the blocker is all there was, so the new transaction has its place
      obtain ⟨hmem, hkey⟩ := mem_activeOf hc₀ hsp
      have hlone : activeOf q tx.account root.sequence = [c₀.toMaybeTx] := by
        refine eq_singleton_of_ascending hactive hmem fun m hm => ?_
        obtain ⟨c₃, hc₃, -, hle⟩ := candidate_of_mem_activeOf hm
        rw [hkey]
        exact h sp _ c₀ c₃ hc₀ hc₃ hb₀ hsp hle
      have hblocked' : checkBlocked [c₀.toMaybeTx] tx = .ok () := hlone ▸ hblocked
      exact absurd (hkey.symm.trans (seqProxy_of_checkBlocked hblocked' hb₀)) heq
    · obtain ⟨c₀', hc₀', -⟩ := hold heq' hc₂
      exact h sp sp' c₀ c₀' hc₀ hc₀' hb₀ hsp hsp'

/-! ### Runs -/

/-- The queue beside the open ledger, with the sequence numbers the accounts had when they were last
in it. -/
structure State where
  view : Ledger
  seen : AccountID → UInt32
  queue : Queue

def State.start (view : Ledger) : State := ⟨view, view.sequenceOf, .empty⟩

/-- The open ledger changes. -/
def State.observe (q : State) (view : Ledger) : State :=
  { q with
    view
    seen := fun account => (view.accounts.lookup account).elim (q.seen account) AccountRoot.sequence }

inductive Call
  /-- `TxQ::apply`, and the open ledger after it. -/
  | apply (parentHash : UInt256) (maxSize : Option ℕ) (t : Submission) (view : Ledger)
  | accept (E : Engine Ledger) (parentHash : UInt256)
  | processClosedLedger (ledgerSeq : UInt32)
  /-- There is another open ledger. -/
  | ledger (view : Ledger)

/-- A call; a fault changes nothing. -/
def call (Q : QueueServices) (D : DirectServices) (q : State) : Call → State × Unit
  | .apply parentHash maxSize t view =>
    (({ q with queue := q.queue.apply Q D parentHash maxSize q.view t } : State).observe view, ())
  | .accept E parentHash =>
    match accept E parentHash q.queue q.view with
    | some (queue, d) => (({ q with queue } : State).observe d.view, ())
    | none => (q, ())
  | .processClosedLedger ledgerSeq =>
    ({ q with queue := q.queue.processClosedLedger ledgerSeq }, ())
  | .ledger view => (q.observe view, ())

/-- No account comes out of the call with a lower sequence number than it was last seen with. -/
def NeverDecrease (Q : QueueServices) (D : DirectServices) (q : State) (c : Call) : Prop :=
  ∀ account root, (call Q D q c).1.view.accounts.lookup account = some root →
    q.seen account ≤ root.sequence

/-- The invariant: blockers are alone, from the sequence number last seen. -/
structure Separated (q : State) : Prop where
  alone : ∀ account, BlockerAlone q.queue.byAccount account (q.seen account)
  seen : ∀ account root, q.view.accounts.lookup account = some root →
    q.seen account = root.sequence

variable {Q : QueueServices} {D : DirectServices} {q : State}

theorem Separated.observe {view : Ledger} {queue : Queue}
    (h : ∀ account, BlockerAlone queue.byAccount account (q.seen account))
    (hle : ∀ account root, view.accounts.lookup account = some root → q.seen account ≤ root.sequence) :
    Separated (({ q with queue } : State).observe view) where
  alone account := by
    refine (h account).mono (.refl _) ?_
    rw [State.observe]
    dsimp only
    cases hlookup : view.accounts.lookup account with
    | none => exact UInt32.le_refl _
    | some root => exact hle account root hlookup
  seen account root hroot := by
    rw [State.observe] at hroot ⊢
    dsimp only at hroot ⊢
    rw [hroot, Option.elim_some]

theorem Separated.apply (h : Separated q) (parentHash : UInt256) (maxSize : Option ℕ)
    (t : Submission) (account : AccountID) :
    BlockerAlone (q.queue.apply Q D parentHash maxSize q.view t).byAccount account
      (q.seen account) := by
  have hfewer : ∀ {queue : Queue}, Kept q.queue.byAccount queue.byAccount →
      BlockerAlone queue.byAccount account (q.seen account) := fun hkept =>
    (h.alone account).mono hkept (UInt32.le_refl _)
  unfold Queue.apply
  dsimp only
  split
  · rename_i txs happly
    obtain ⟨root, hroot⟩ : ∃ root, q.view.accounts.lookup t.tx.account = some root := by
      simp only [TxQ.apply, Except.bind_eq_ok, orFail_eq_ok] at happly
      obtain ⟨_, -, _, -, root, hroot, -⟩ := happly
      exact ⟨root, hroot⟩
    have hkept : ∀ queue : Queue, Kept q.queue.byAccount queue.byAccount →
        Kept q.queue.byAccount (queue.erase (t.tx.account, t.tx.seqProxy)).byAccount := fun queue hk =>
      hk.trans (queue.kept_erase _)
    have hroom : Kept q.queue.byAccount (if (!(candidateAt q.queue.byAccount
        (t.tx.account, t.tx.seqProxy)).isSome &&
          maxSize.any fun n => decide (n ≤ q.queue.byFee.length)) = true then
        q.queue.kickOut t.tx.account else q.queue).byAccount := by
      split_ifs
      · exact q.queue.kept_kickOut _
      · exact .refl _
    by_cases hacct : account = t.tx.account
    · have halone := h.alone account
      rw [h.seen account root (hacct ▸ hroot), hacct] at halone ⊢
      exact halone.queued hroot (hkept _ hroom) rfl happly
    · intro sp sp' c c' hc hc'
      rw [candidateAt_add_of_ne hacct] at hc hc'
      exact hfewer (hkept _ hroom) sp sp' c c' hc hc'
  · split_ifs
    · exact hfewer (q.queue.kept_erase _)
    · refine hfewer ?_
      cases q.view.accounts.lookup t.tx.account with
      | none => exact .refl _
      | some root => exact Kept.foldl Queue.byAccount Queue.kept_erase _ _
    · exact hfewer (.refl _)

theorem Separated.call {c : Call} (h : Separated q) (hok : NeverDecrease Q D q c) :
    Separated (TxQ.call Q D q c).1 := by
  cases c with
  | apply parentHash maxSize t view =>
    exact .observe (fun account => h.apply parentHash maxSize t account) hok
  | accept E parentHash =>
    rw [NeverDecrease, TxQ.call] at hok
    rw [TxQ.call]
    cases haccept : accept E parentHash q.queue q.view with
    | none => exact h
    | some result =>
      obtain ⟨queue, d⟩ := result
      rw [haccept] at hok
      exact .observe (fun account =>
        (h.alone account).mono (kept_accept haccept) (UInt32.le_refl _)) hok
  | processClosedLedger ledgerSeq =>
    exact ⟨fun account => (h.alone account).mono (q.queue.kept_processClosedLedger ledgerSeq)
      (UInt32.le_refl _), h.seen⟩
  | ledger view => exact .observe h.alone hok

theorem Separated.start (view : Ledger) : Separated (.start view) where
  alone account sp sp' c c' hc := by cases hc
  seen account root hroot := by
    have hlookup : view.accounts.lookup account = some root := hroot
    rw [State.start]
    dsimp only
    rw [Ledger.sequenceOf, hlookup, Option.elim_some]

/-- **A blocker is alone**: in every state that calls of the queue lead to, while account sequence
numbers never decrease, an account with a blocker that its sequence number has not passed has no other
transaction in the queue that it has not passed. -/
theorem blocker_alone_run {view : Ledger} {calls : List Call}
    (h : Run.Always (call Q D) (NeverDecrease Q D) (.start view) calls) {account : AccountID}
    {root : AccountRoot}
    (hroot : (Run.final (call Q D) (.start view) calls).view.accounts.lookup account = some root) :
    BlockerAlone (Run.final (call Q D) (.start view) calls).queue.byAccount account
      root.sequence := by
  have hsep := Run.invariant Separated (fun _ _ hs hok => hs.call hok) (Separated.start view) h
  rw [← hsep.seen account root hroot]
  exact hsep.alone account

namespace Sample

def neverDirect : DirectServices where
  appliedDirectly _ _ _ := false
  cleared _ _ _ := false

def blocker : Submission where
  tx := ⟨1, 2, none, 10, .seq 1, .other true⟩
  feeLevel := 300
  lastValid := none

def blockerCalls : List Call := [.apply 0 none blocker FalconLedger.Sample.ledger]

end Sample

theorem blocker_alone_queued :
    (candidateAt (Run.final (call FalconLedger.Sample.queue Sample.neverDirect)
      (.start FalconLedger.Sample.ledger) Sample.blockerCalls).queue.byAccount
        (2, .seq 1)).isSome = true ∧
    BlockerAlone (Run.final (call FalconLedger.Sample.queue Sample.neverDirect)
      (.start FalconLedger.Sample.ledger) Sample.blockerCalls).queue.byAccount 2 1 := by
  have hstart := Separated.start FalconLedger.Sample.ledger
  have hok : Run.Always (call FalconLedger.Sample.queue Sample.neverDirect)
      (NeverDecrease FalconLedger.Sample.queue Sample.neverDirect) (.start FalconLedger.Sample.ledger)
      Sample.blockerCalls :=
    ⟨fun account root hroot => UInt32.le_of_eq (hstart.seen account root hroot), trivial⟩
  have hroot : (Run.final (call FalconLedger.Sample.queue Sample.neverDirect)
      (.start FalconLedger.Sample.ledger) Sample.blockerCalls).view.accounts.lookup 2 =
        some (FalconLedger.Sample.account 1000000) := by decide +kernel
  exact ⟨by decide +kernel, blocker_alone_run hok hroot⟩

end FalconLedger.TxQ
