import Mathlib.Data.BitVec
import Mathlib.Data.Prod.Lex
import FalconLedger.Queue.TxQAccount

/-!
# Applying a consensus set

`CanonicalTXSet` and the loop of `applyTransactions` that puts its transactions into a new ledger:
up to three passes over the set, which loses the transactions that are settled while it is walked
through. What applying a transaction does to the view, and whether it throws, is a parameter; the
code only reads its result.

The loop keeps a record of what happens, which the source does not (`applyTransactions_accounts`).
-/

namespace FalconLedger

/-! ### The set -/

namespace CanonicalTXSet

/-- What the transactions of a set are ordered by. -/
structure Key where
  account : UInt256
  seqProxy : SeqProxy
  txId : UInt256
  deriving DecidableEq

namespace Key

/-- The fields in the order they are compared in. -/
def fields (key : Key) : ℕ ×ₗ SeqProxy ×ₗ ℕ :=
  toLex (key.account.toNat, toLex (key.seqProxy, key.txId.toNat))

theorem fields_injective : Function.Injective fields := by
  intro a b h
  have h' := Prod.mk.inj (toLex.injective h)
  have h'' := Prod.mk.inj (toLex.injective h'.2)
  cases a
  cases b
  exact Key.mk.injEq .. ▸ ⟨BitVec.eq_of_toNat_eq h'.1, h''.1, BitVec.eq_of_toNat_eq h''.2⟩

instance : LinearOrder Key := LinearOrder.lift' fields fields_injective

/-- `operator<`, comparison by comparison. -/
def less (lhs rhs : Key) : Bool :=
  if lhs.account < rhs.account then true
  else if lhs.account > rhs.account then false
  else if lhs.seqProxy < rhs.seqProxy then true
  else if lhs.seqProxy > rhs.seqProxy then false
  else lhs.txId < rhs.txId

theorem less_iff (lhs rhs : Key) : less lhs rhs = true ↔ lhs < rhs := by
  have hlt : lhs < rhs ↔ lhs.fields < rhs.fields := Iff.rfl
  rw [hlt, fields, fields, Prod.Lex.toLex_lt_toLex, Prod.Lex.toLex_lt_toLex]
  simp only [less, gt_iff_lt, BitVec.lt_def]
  split_ifs with h1 h2 h3 h4
  · simp [h1]
  · simp [h1, h2.ne']
  · simp [le_antisymm (not_lt.mp h2) (not_lt.mp h1), h3]
  · simp [le_antisymm (not_lt.mp h2) (not_lt.mp h1), h3, h4.ne']
  · simp [le_antisymm (not_lt.mp h2) (not_lt.mp h1), le_antisymm (not_lt.mp h4) (not_lt.mp h3)]

end Key

/-- The account moved to the front of a hash and salted, so that low account numbers gain
nothing. -/
def accountKey (salt : UInt256) (account : AccountID) : UInt256 :=
  (account.setWidth 256 <<< 96) ^^^ salt

/-- The key a transaction is inserted at. -/
def keyOf (salt : UInt256) (txn : STTx) : Key :=
  ⟨accountKey salt txn.account, txn.seqProxy, txn.transactionID⟩

end CanonicalTXSet

/-- The transactions by their keys, and the salt of the keys. -/
structure CanonicalTXSet where
  salt : UInt256
  map : KeyedMap (CanonicalTXSet.keyOf salt)

namespace CanonicalTXSet

/-- A key that is there already keeps its transaction. -/
def insert (txns : CanonicalTXSet) (txn : STTx) : CanonicalTXSet :=
  if (txns.map.find (keyOf txns.salt txn)).isSome then txns
  else { txns with map := txns.map.set txn }

def erase (txns : CanonicalTXSet) (txn : STTx) : CanonicalTXSet :=
  { txns with map := txns.map.erase (keyOf txns.salt txn) }

def toList (txns : CanonicalTXSet) : List STTx := txns.map.toList

end CanonicalTXSet

/-! ### The loop -/

namespace ApplyTransactions

def ledgerTotalPasses : ℕ := 3

def ledgerRetryPasses : ℕ := 1

inductive ApplyTransactionResult
  | success
  | fail
  | retry
  deriving DecidableEq

/-- What the loop calls; an `error` is an exception. -/
structure Calls (View : Type) where
  txExists : UInt256 → Except Unit Bool
  applyTransaction : View → STTx → Bool → Except Unit ApplyTransactionResult × View

/-- What a visit does with a transaction. -/
inductive Fate
  | present
  | applied
  | failed
  | retried
  deriving DecidableEq

/-- A visit, for the record. -/
structure Visit where
  tx : STTx
  pass : ℕ
  certainRetry : Bool
  fate : Fate

/-- Where the loop stands. -/
structure LoopState (View : Type) where
  txns : CanonicalTXSet
  failed : Finset UInt256
  view : View
  changes : ℕ
  visits : List Visit

variable {View : Type}

namespace LoopState

def record (s : LoopState View) (tx : STTx) (pass : ℕ) (certainRetry : Bool) (fate : Fate) :
    LoopState View :=
  { s with visits := s.visits ++ [⟨tx, pass, certainRetry, fate⟩] }

/-- `failed.insert(txid)` and the erasure. -/
def drop (s : LoopState View) (tx : STTx) : LoopState View :=
  { s with failed := insert tx.transactionID s.failed, txns := s.txns.erase tx }

end LoopState

/-- The call of `applyTransaction` and what follows from its result. -/
def attempt (calls : Calls View) (pass : ℕ) (certainRetry : Bool) (s : LoopState View)
    (tx : STTx) : LoopState View :=
  let (result, view) := calls.applyTransaction s.view tx certainRetry
  let s := { s with view := view }
  match result with
  | .ok .success =>
    { s with txns := s.txns.erase tx, changes := s.changes + 1 }.record tx pass certainRetry
      .applied
  | .ok .fail => (s.drop tx).record tx pass certainRetry .failed
  | .ok .retry => s.record tx pass certainRetry .retried
  | .error _ => (s.drop tx).record tx pass certainRetry .failed

/-- One turn of the inner loop. The parent ledger is asked in the first pass only. -/
def visit (calls : Calls View) (pass : ℕ) (certainRetry : Bool) (s : LoopState View)
    (tx : STTx) : LoopState View :=
  if pass = 0 then
    match calls.txExists tx.transactionID with
    | .ok true => { s with txns := s.txns.erase tx }.record tx pass certainRetry .present
    | .ok false => attempt calls pass certainRetry s tx
    | .error _ => (s.drop tx).record tx pass certainRetry .failed
  else attempt calls pass certainRetry s tx

/-- The inner loop: an iterator passes over every transaction that is in the set when the pass
begins, for only the one it stands on is ever erased. -/
def runPass (calls : Calls View) (pass : ℕ) (certainRetry : Bool) (s : LoopState View) :
    LoopState View :=
  s.txns.toList.foldl (visit calls pass certainRetry) { s with changes := 0 }

/-- The outer loop from a pass on, with the number of passes that are left. -/
def passes (calls : Calls View) : ℕ → ℕ → Bool → ℕ → LoopState View → ℕ × LoopState View
  | 0, _, _, count, s => (count, s)
  | left + 1, pass, certainRetry, count, s =>
    let s := runPass calls pass certainRetry s
    let count := count + s.changes
    -- a non-retry pass made no changes
    if s.changes = 0 ∧ certainRetry = false then (count, s)
    else
      let certainRetry :=
        if s.changes = 0 ∨ ledgerRetryPasses ≤ pass then false else certainRetry
      passes calls left (pass + 1) certainRetry count s

end ApplyTransactions

open ApplyTransactions

/-- The number of transactions applied, and the state the loop ends in. -/
def applyTransactions {View : Type} (calls : Calls View) (txns : CanonicalTXSet)
    (failed : Finset UInt256) (view : View) : ℕ × LoopState View :=
  passes calls ledgerTotalPasses 0 true 0 ⟨txns, failed, view, 0, []⟩

/-! ### What a visit does -/

namespace CanonicalTXSet

theorem nodup_toList (txns : CanonicalTXSet) : txns.toList.Nodup :=
  List.Pairwise.imp (fun hlt => ne_of_apply_ne (keyOf txns.salt) hlt.ne) txns.map.toList_ascending

theorem mem_toList_erase {txns : CanonicalTXSet} {txn t : STTx}
    (h : txn ∈ txns.toList) : t ∈ (txns.erase txn).toList ↔ t ≠ txn ∧ t ∈ txns.toList := by
  have hkey : ∀ {t : STTx}, t ∈ txns.toList →
      (keyOf txns.salt t ≠ keyOf txns.salt txn ↔ t ≠ txn) := by
    intro t ht
    rw [not_iff_not]
    constructor
    · intro heq
      have hfind := (txns.map.mem_toList t).mp ht
      rw [heq, (txns.map.mem_toList txn).mp h] at hfind
      exact (Option.some.inj hfind).symm
    · exact congrArg _
  unfold erase toList
  rw [KeyedMap.mem_toList_erase]
  exact and_congr_left fun ht => hkey ht

theorem toList_perm_erase {txns : CanonicalTXSet} {txn : STTx} (h : txn ∈ txns.toList) :
    txns.toList.Perm (txn :: (txns.erase txn).toList) := by
  have hnot : txn ∉ (txns.erase txn).toList := fun hmem =>
    ((mem_toList_erase h).mp hmem).1 rfl
  refine (List.perm_ext_iff_of_nodup txns.nodup_toList
    (List.nodup_cons.mpr ⟨hnot, nodup_toList _⟩)).mpr fun t => ?_
  rw [List.mem_cons, mem_toList_erase h]
  by_cases ht : t = txn
  · simp [ht, h]
  · simp [ht]

end CanonicalTXSet

namespace ApplyTransactions

variable {View : Type} {calls : Calls View} {s s' : LoopState View} {tx : STTx} {pass : ℕ}
  {certainRetry : Bool}

/-- What becomes of a transaction by the result of `applyTransaction`; one that throws fails. -/
def fateOf : Except Unit ApplyTransactionResult → Fate
  | .ok .success => .applied
  | .ok .fail => .failed
  | .ok .retry => .retried
  | .error _ => .failed

/-- The visits are those that the calls answer for, one after the other: each is at the view the one
before it has left, and its fate is what the parent ledger or `applyTransaction` says there. -/
inductive Replayed (calls : Calls View) (view₀ : View) : List Visit → View → Prop
  | start : Replayed calls view₀ [] view₀
  | present {visits : List Visit} {view : View} {tx : STTx} {certainRetry : Bool}
      (before : Replayed calls view₀ visits view)
      (found : calls.txExists tx.transactionID = .ok true) :
      Replayed calls view₀ (visits ++ [⟨tx, 0, certainRetry, .present⟩]) view
  | thrown {visits : List Visit} {view : View} {tx : STTx} {certainRetry : Bool} {e : Unit}
      (before : Replayed calls view₀ visits view)
      (asked : calls.txExists tx.transactionID = .error e) :
      Replayed calls view₀ (visits ++ [⟨tx, 0, certainRetry, .failed⟩]) view
  | applied {visits : List Visit} {view : View} {tx : STTx} {pass : ℕ} {certainRetry : Bool}
      (before : Replayed calls view₀ visits view)
      (absent : pass = 0 → calls.txExists tx.transactionID = .ok false) :
      Replayed calls view₀
        (visits ++ [⟨tx, pass, certainRetry, fateOf (calls.applyTransaction view tx certainRetry).1⟩])
        (calls.applyTransaction view tx certainRetry).2

/-- All that a visit can do: it goes on record with a fate, and by its fate the transaction stays
or is erased, counts as a change, or is put among the failed. -/
structure VisitStep (calls : Calls View) (pass : ℕ) (certainRetry : Bool) (s : LoopState View)
    (tx : STTx) (fate : Fate) (s' : LoopState View) : Prop where
  visits : s'.visits = s.visits ++ [⟨tx, pass, certainRetry, fate⟩]
  txns : s'.txns = if fate = .retried then s.txns else s.txns.erase tx
  failed : s'.failed = if fate = .failed then insert tx.transactionID s.failed else s.failed
  changes : s'.changes = s.changes + if fate = .applied then 1 else 0
  present : fate = .present → calls.txExists tx.transactionID = .ok true
  replay : ∀ view₀, Replayed calls view₀ s.visits s.view → Replayed calls view₀ s'.visits s'.view

theorem attempt_step (certainRetry : Bool) (s : LoopState View)
    (habsent : pass = 0 → calls.txExists tx.transactionID = .ok false) :
    ∃ fate, VisitStep calls pass certainRetry s tx fate
      (attempt calls pass certainRetry s tx) := by
  have hreplay := fun view₀ (h : Replayed calls view₀ s.visits s.view) =>
    @Replayed.applied _ _ _ _ _ tx pass certainRetry h habsent
  unfold attempt
  revert hreplay
  rcases calls.applyTransaction s.view tx certainRetry with ⟨result, view⟩
  intro hreplay
  rcases result with e | result
  · exact ⟨.failed, rfl, rfl, rfl, rfl, by simp, hreplay⟩
  · cases result with
    | success => exact ⟨.applied, rfl, rfl, rfl, rfl, by simp, hreplay⟩
    | fail => exact ⟨.failed, rfl, rfl, rfl, rfl, by simp, hreplay⟩
    | retry => exact ⟨.retried, rfl, rfl, rfl, rfl, by simp, hreplay⟩

theorem visit_step (calls : Calls View) (pass : ℕ) (certainRetry : Bool) (s : LoopState View)
    (tx : STTx) : ∃ fate, VisitStep calls pass certainRetry s tx fate
      (visit calls pass certainRetry s tx) := by
  unfold visit
  by_cases hpass : pass = 0
  · rw [if_pos hpass]
    subst hpass
    cases hexists : calls.txExists tx.transactionID with
    | error e =>
      exact ⟨.failed, rfl, rfl, rfl, rfl, by simp, fun view₀ h => .thrown h hexists⟩
    | ok found =>
      cases found with
      | true =>
        exact ⟨.present, rfl, rfl, rfl, rfl, fun _ => hexists, fun view₀ h => .present h hexists⟩
      | false => exact attempt_step certainRetry s fun _ => hexists
  · rw [if_neg hpass]
    exact attempt_step certainRetry s fun h => absurd h hpass

/-! ### The account of a run -/

/-- The transactions that have been settled, in the order of their last visits. -/
def settled (visits : List Visit) : List STTx :=
  (visits.filter fun v => v.fate ≠ .retried).map Visit.tx

/-- The ids of the transactions that have failed. -/
def failures (visits : List Visit) : Finset UInt256 :=
  ((visits.filter fun v => v.fate = .failed).map fun v => v.tx.transactionID).toFinset

/-- The number of transactions that have been applied. -/
def applications (visits : List Visit) : ℕ := visits.countP fun v => v.fate = .applied

/-- **Invariant of the loop.** The transactions at the start are those settled and those left;
the failed ones are among `failed`, and a transaction passed over as present is in the parent.
The visits are a replay of the calls. `count` is what earlier passes applied. -/
structure Accounts (calls : Calls View) (view₀ : View) (txns : CanonicalTXSet)
    (failed : Finset UInt256) (count : ℕ) (s : LoopState View) : Prop where
  perm : txns.toList.Perm (settled s.visits ++ s.txns.toList)
  failed : s.failed = failed ∪ failures s.visits
  changes : applications s.visits = count + s.changes
  present : ∀ v ∈ s.visits, v.fate = .present → calls.txExists v.tx.transactionID = .ok true
  replay : Replayed calls view₀ s.visits s.view

variable {view₀ : View} {txns : CanonicalTXSet} {failed : Finset UInt256} {count : ℕ}

theorem Accounts.step {fate : Fate} (h : Accounts calls view₀ txns failed count s)
    (htx : tx ∈ s.txns.toList) (hstep : VisitStep calls pass certainRetry s tx fate s') :
    Accounts calls view₀ txns failed count s' := by
  constructor
  · rw [hstep.visits, hstep.txns, settled, List.filter_append, List.map_append]
    refine h.perm.trans ?_
    by_cases hfate : fate = .retried
    · simp [hfate, settled]
    · rw [if_neg hfate, List.append_assoc]
      refine List.Perm.append_left _ ?_
      simpa [hfate] using CanonicalTXSet.toList_perm_erase htx
  · rw [hstep.visits, hstep.failed, failures, List.filter_append, List.map_append,
      List.toFinset_append, h.failed]
    by_cases hfate : fate = .failed
    · rw [if_pos hfate, hfate, ← Finset.union_assoc, Finset.union_comm _ (List.toFinset _)]
      rfl
    · simp [hfate, failures]
  · rw [hstep.visits, hstep.changes, applications, List.countP_append, ← add_assoc,
      ← h.changes]
    by_cases hfate : fate = .applied
    · simp [hfate, applications]
    · simp [hfate, applications]
  · intro v hv hpresent
    rw [hstep.visits, List.mem_append, List.mem_singleton] at hv
    rcases hv with hv | rfl
    · exact h.present v hv hpresent
    · exact hstep.present hpresent
  · exact hstep.replay view₀ h.replay

/-- What a pass over some transactions of the set leaves: those of them that are still in the set
were tried in it. -/
structure PassOver (pass : ℕ) (certainRetry : Bool) (l : List STTx) (s s' : LoopState View) :
    Prop where
  left : ∀ t ∈ s'.txns.toList, t ∈ s.txns.toList ∧
    (t ∈ l → ⟨t, pass, certainRetry, .retried⟩ ∈ s'.visits)
  visits : ∃ new, s'.visits = s.visits ++ new ∧ ∀ v ∈ new, v.pass = pass

/-- One pass, by induction on the transactions it still has to come to; all of these are in the
set, since a visit erases its own transaction only. -/
theorem foldl_visit {l : List STTx} (hl : ∀ t ∈ l, t ∈ s.txns.toList) (hnodup : l.Nodup)
    (h : Accounts calls view₀ txns failed count s) :
    Accounts calls view₀ txns failed count (l.foldl (visit calls pass certainRetry) s) ∧
      PassOver pass certainRetry l s (l.foldl (visit calls pass certainRetry) s) := by
  induction l generalizing s with
  | nil => exact ⟨h, fun t ht => ⟨ht, fun hmem => absurd hmem List.not_mem_nil⟩, [], by simp⟩
  | cons tx l ih =>
    obtain ⟨fate, hstep⟩ := visit_step calls pass certainRetry s tx
    have htx := hl tx List.mem_cons_self
    obtain ⟨hnot, hnodup⟩ := List.nodup_cons.mp hnodup
    have hkeep : ∀ t, t ∈ (visit calls pass certainRetry s tx).txns.toList ↔
        t ∈ s.txns.toList ∧ (t = tx → fate = .retried) := by
      intro t
      rw [hstep.txns]
      by_cases hfate : fate = .retried
      · simp [hfate]
      · rw [if_neg hfate, CanonicalTXSet.mem_toList_erase htx]
        simp [hfate, and_comm]
    have hrest : ∀ t ∈ l, t ∈ (visit calls pass certainRetry s tx).txns.toList := fun t ht =>
      (hkeep t).mpr ⟨hl t (List.mem_cons_of_mem tx ht), fun heq => absurd (heq ▸ ht) hnot⟩
    obtain ⟨haccounts, hleft, new, hvisits, hpass⟩ := ih hrest hnodup (h.step htx hstep)
    rw [List.foldl_cons]
    refine ⟨haccounts, ?_, ⟨tx, pass, certainRetry, fate⟩ :: new, ?_, ?_⟩
    · intro t ht
      obtain ⟨hmem, htried⟩ := hleft t ht
      obtain ⟨hmem, hretried⟩ := (hkeep t).mp hmem
      refine ⟨hmem, fun htl => ?_⟩
      rcases List.mem_cons.mp htl with rfl | htl
      · rw [hvisits, hstep.visits, hretried rfl]
        simp
      · exact htried htl
    · rw [hvisits, hstep.visits, List.append_assoc, List.singleton_append]
    · intro v hv
      rcases List.mem_cons.mp hv with rfl | hv
      · rfl
      · exact hpass v hv

theorem runPass_accounts (h : Accounts calls view₀ txns failed count { s with changes := 0 }) :
    Accounts calls view₀ txns failed count (runPass calls pass certainRetry s) ∧
      PassOver pass certainRetry s.txns.toList s (runPass calls pass certainRetry s) := by
  obtain ⟨haccounts, hover⟩ := @foldl_visit _ calls { s with changes := 0 } pass certainRetry view₀
    txns failed count _ (fun _ ht => ht) s.txns.nodup_toList h
  exact ⟨haccounts, hover.left, hover.visits⟩

/-- The changes of a pass are added to the count before the next one begins. -/
theorem Accounts.next (h : Accounts calls view₀ txns failed count s) :
    Accounts calls view₀ txns failed (count + s.changes) { s with changes := 0 } where
  perm := h.perm
  failed := h.failed
  changes := h.changes
  present := h.present
  replay := h.replay

/-- Every transaction of the set was tried in a final pass. -/
def TriedFinally (s : LoopState View) : Prop :=
  ∀ t ∈ s.txns.toList, ∃ v ∈ s.visits, v.tx = t ∧ v.fate = .retried ∧ v.certainRetry = false

/-- The passes that are left keep the account. A final pass comes last: it is already on, or there
are enough passes left for the retriable ones to be stopped first. -/
theorem passes_accounts {left : ℕ}
    (hfinal : left = 0 ∨ certainRetry = false ∨
      2 ≤ left ∧ ledgerRetryPasses + 2 ≤ pass + left)
    (htried : left = 0 → TriedFinally s)
    (h : Accounts calls view₀ txns failed count { s with changes := 0 })
    (hpass : ∀ v ∈ s.visits, v.pass < pass) :
    Accounts calls view₀ txns failed (passes calls left pass certainRetry count s).1
        { (passes calls left pass certainRetry count s).2 with changes := 0 } ∧
      TriedFinally (passes calls left pass certainRetry count s).2 ∧
      ∀ v ∈ (passes calls left pass certainRetry count s).2.visits, v.pass < pass + left := by
  induction left generalizing pass certainRetry count s with
  | zero => exact ⟨h, htried rfl, hpass⟩
  | succ left ih =>
    obtain ⟨haccounts, hleft, new, hvisits, hnew⟩ :=
      @runPass_accounts _ calls s pass certainRetry view₀ txns failed count h
    have hbound : ∀ v ∈ (runPass calls pass certainRetry s).visits, v.pass < pass + 1 := by
      intro v hv
      rw [hvisits, List.mem_append] at hv
      rcases hv with hv | hv
      · exact (hpass v hv).trans (Nat.lt_succ_self pass)
      · exact (hnew v hv).trans_lt (Nat.lt_succ_self pass)
    have hlast : certainRetry = false → TriedFinally (runPass calls pass certainRetry s) := by
      intro hfalse t ht
      obtain ⟨hmem, htry⟩ := hleft t ht
      exact ⟨_, htry hmem, rfl, rfl, hfalse⟩
    have hnext : pass + (left + 1) = pass + 1 + left := by omega
    rw [passes, hnext]
    dsimp only
    split_ifs with hstop hretry
    · -- a final pass without changes
      exact ⟨haccounts.next, hlast hstop.2, fun v hv => (hbound v hv).trans_le (by omega)⟩
    · refine ih (.inr (.inl rfl)) ?_ haccounts.next hbound
      -- the very last pass was a final one
      rintro rfl
      refine hlast ?_
      rcases hfinal with hfinal | hfinal | hfinal
      · omega
      · exact hfinal
      · omega
    · refine ih ?_ ?_ haccounts.next hbound
      · rcases hfinal with hfinal | hfinal | hfinal
        · omega
        · exact .inr (.inl hfinal)
        · exact .inr (.inr ⟨by omega, by omega⟩)
      · rintro rfl
        refine hlast ?_
        rcases hfinal with hfinal | hfinal | hfinal
        · omega
        · exact hfinal
        · omega

theorem Accounts.once (h : Accounts calls view₀ txns failed count s) {t : STTx} (ht : t ∈ txns.toList) :
    (settled s.visits).count t + s.txns.toList.count t = 1 := by
  rw [← List.count_append, ← h.perm.count_eq]
  exact List.count_eq_one_of_mem txns.nodup_toList ht

end ApplyTransactions

/-- **Every transaction of the set is accounted for.** For any behaviour of the calls, within three
passes: a transaction is settled exactly once (present in the parent, applied or failed) or is
left in the set, where it was tried in a final pass; those applied are counted, those failed are
reported. The view is what the calls have made of it, and each visit ends as they say. -/
theorem applyTransactions_accounts {View : Type} (calls : Calls View) (txns : CanonicalTXSet)
    (failed : Finset UInt256) (view : View) :
    let r := applyTransactions calls txns failed view
    (∀ t ∈ txns.toList, (settled r.2.visits).count t + r.2.txns.toList.count t = 1) ∧
    (∀ t ∈ settled r.2.visits ++ r.2.txns.toList, t ∈ txns.toList) ∧
    Replayed calls view r.2.visits r.2.view ∧
    r.1 = applications r.2.visits ∧
    r.2.failed = failed ∪ failures r.2.visits ∧
    (∀ v ∈ r.2.visits, v.fate = .present →
      calls.txExists v.tx.transactionID = .ok true) ∧
    (∀ t ∈ r.2.txns.toList, ∃ v ∈ r.2.visits,
      v.tx = t ∧ v.fate = .retried ∧ v.certainRetry = false) ∧
    ∀ v ∈ r.2.visits, v.pass < ledgerTotalPasses := by
  have hstart : Accounts calls view txns failed 0 (⟨txns, failed, view, 0, []⟩ : LoopState View) := by
    refine ⟨List.Perm.refl _, ?_, rfl, by simp, .start⟩
    rw [failures, List.filter_nil, List.map_nil, List.toFinset_nil, Finset.union_empty]
  obtain ⟨haccounts, htried, hpass⟩ := @passes_accounts _ calls ⟨txns, failed, view, 0, []⟩ 0 true
    view txns failed 0 ledgerTotalPasses (.inr (.inr ⟨by decide, by decide⟩)) (fun h => by cases h)
    hstart (fun v hv => absurd hv List.not_mem_nil)
  rw [Nat.zero_add] at hpass
  exact ⟨fun t ht => haccounts.once ht, fun t ht => haccounts.perm.mem_iff.mpr ht,
    haccounts.replay, haccounts.changes.symm, haccounts.failed, haccounts.present, htried, hpass⟩

end FalconLedger
