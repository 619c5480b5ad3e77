import FalconLedger.Queue.TxQ
import Mathlib.Data.List.TakeWhile

/-!
# Draining the queue

`TxQ::accept` ends, and what it has tried by then. Before the place the loop has come to, there is
nothing but transactions that have been tried and transactions by sequence number that another one
of their account goes before (`Draining.passed`).
-/

namespace FalconLedger.TxQ

variable {View : Type} {E : Engine View} {q : Queue} {view₀ : View} {d d' : Drain View} {r : Ref}
  {account : TxQAccount} {tail : List Ref}

/-! ### The order by fee level -/

theorem orderCandidates_congr {h : UInt256} {a a' b b' : Candidate} (htx : a'.tx = a.tx)
    (hfee : a'.feeLevel = a.feeLevel) (htx' : b'.tx = b.tx) (hfee' : b'.feeLevel = b.feeLevel) :
    orderCandidates h a' b' = orderCandidates h a b := by
  rw [orderCandidates, orderCandidates, htx, hfee, htx', hfee']

theorem orderCandidates_irrefl (h : UInt256) (c : Candidate) : orderCandidates h c c = false := by
  rw [orderCandidates, if_pos rfl]
  exact decide_eq_false (BitVec.lt_irrefl _)

theorem orderCandidates_asymm {h : UInt256} {a b : Candidate} (hab : orderCandidates h a b = true) :
    orderCandidates h b a = false := by
  rw [orderCandidates] at hab ⊢
  split_ifs at hab ⊢ with heq heq'
  · exact decide_eq_false (BitVec.lt_asymm (of_decide_eq_true hab))
  · exact absurd heq.symm heq'
  · exact absurd (Eq.symm ‹_›) heq
  · exact decide_eq_false (UInt64.lt_asymm (of_decide_eq_true hab))

theorem feeLevel_le_of_orderCandidates {h : UInt256} {a b : Candidate}
    (hab : orderCandidates h a b = true) : b.feeLevel ≤ a.feeLevel := by
  rw [orderCandidates] at hab
  split_ifs at hab with heq
  · rw [heq]
    exact UInt64.le_refl _
  · exact UInt64.le_of_lt (of_decide_eq_true hab)

/-- A list of transactions in the order of the candidates there. -/
def InFeeOrder (parentHash : UInt256) (byAccount : AccountMap) (l : List Ref) : Prop :=
  l.Pairwise fun r r' => ∀ c ∈ candidateAt byAccount r, ∀ c' ∈ candidateAt byAccount r',
    orderCandidates parentHash c c' = true

/-- The index: the list has every candidate, and is in order. -/
structure Queue.Indexed (parentHash : UInt256) (q : Queue) : Prop where
  listed : ∀ r, r ∈ q.byFee ↔ (candidateAt q.byAccount r).isSome = true
  ordered : InFeeOrder parentHash q.byAccount q.byFee

/-! ### The invariant -/

/-- The transaction has been tried. -/
def Drain.Attempted (d : Drain View) (r : Ref) : Prop := ∃ a ∈ d.attempts, a.1 = r

/-- The candidate of a reference is in the queue. -/
def Drain.Has (d : Drain View) (r : Ref) : Prop := (candidateAt d.byAccount r).isSome = true

/-- The attempts at the transactions of an account by sequence number: none comes before an attempt at
an earlier one, and at none before every earlier one has been tried. -/
structure InSequence (q : Queue) (attempts : List (Ref × Bool)) : Prop where
  ordered : attempts.Pairwise fun a b => a.1.1 = b.1.1 → a.1.2.isSeq = true → b.1.2.isSeq = true →
    a.1.2 ≤ b.1.2
  fromFirst : ∀ l a l', attempts = l ++ a :: l' → a.1.2.isSeq = true → ∀ sp < a.1.2,
    (a.1.1, sp) ∈ q.byFee → ∃ b ∈ l, b.1 = (a.1.1, sp)

/-- The attempts are the calls of the engine: each is on the view the one before it has left, at a
transaction of the queue that pays what that view requires. -/
inductive Replayed (E : Engine View) (q : Queue) (view₀ : View) : List (Ref × Bool) → View → Prop
  | start : Replayed E q view₀ [] view₀
  | apply {attempts : List (Ref × Bool)} {view : View} {r : Ref} {c c₀ : Candidate}
      (before : Replayed E q view₀ attempts view) (queued : candidateAt q.byAccount r = some c₀)
      (tx : c.tx = c₀.tx) (feeLevel : c.feeLevel = c₀.feeLevel)
      (paid : E.requiredFeeLevel view ≤ c.feeLevel) :
      Replayed E q view₀ (attempts ++ [(r, (E.apply view c).2.1)]) (E.apply view c).2.2

/-- The transaction has left a queue that is nearly full for another one of its account that failed,
as the last of them. -/
structure Drain.DroppedFor (E : Engine View) (q : Queue) (d : Drain View) (r : Ref) : Prop where
  full : E.isFull95 q.byFee.length = true
  failed : ∃ a ∈ d.attempts, a.1.1 = r.1 ∧ a.2 = false
  last : ∀ sp, d.Has (r.1, sp) → sp < r.2

/-- The invariant of the loop, for the queue and the view it began with. -/
structure Draining (E : Engine View) (view₀ : View) (q : Queue) (d : Drain View) : Prop where
  sub : (d.passed ++ d.rest).Sublist q.byFee
  listed : ∀ r, r ∈ d.passed ++ d.rest ↔ d.Has r
  same : ∀ r c, candidateAt d.byAccount r = some c → ∃ c₀, candidateAt q.byAccount r = some c₀ ∧
    c.tx = c₀.tx ∧ c.feeLevel = c₀.feeLevel
  passed : ∀ r ∈ d.passed, d.Attempted r ∨ r.2.isSeq = true ∧ ∃ sp < r.2, d.Has (r.1, sp)
  low : ∀ a ∈ d.attempts, a.1.2.isSeq = true → ∀ sp, d.Has (a.1.1, sp) → a.1.2 ≤ sp
  gone : ∀ r ∈ q.byFee, ¬d.Has r → d.Attempted r ∨ d.DroppedFor E q r
  applied : ∀ a ∈ d.attempts, a.2 = true → ¬d.Has a.1
  once : ((d.attempts.filter (·.2)).map Prod.fst).Nodup
  sequence : InSequence q d.attempts
  replay : Replayed E q view₀ d.attempts d.view

theorem Draining.start (view : View) {parentHash : UInt256} (h : q.Indexed parentHash) :
    Draining E view q (Drain.start q view) where
  sub := List.Sublist.refl _
  listed r := h.listed r
  same r c hc := ⟨c, hc, rfl, rfl⟩
  passed r hr := absurd hr List.not_mem_nil
  low a ha := absurd ha List.not_mem_nil
  gone r hr hgone := absurd ((h.listed r).mp hr) hgone
  applied a ha := absurd ha List.not_mem_nil
  once := List.nodup_nil
  sequence := ⟨List.Pairwise.nil, fun l a l' h => absurd h (by simp [Drain.start])⟩
  replay := .start

/-- What a turn that tries a transaction does. -/
structure Moved (E : Engine View) (d d' : Drain View) (r : Ref) (didApply : Bool) : Prop where
  attempts : d'.attempts = d.attempts ++ [(r, didApply)]
  sub : (d'.passed ++ d'.rest).Sublist (d.passed ++ d.rest)
  listed : ∀ r', r' ∈ d'.passed ++ d'.rest ↔ d'.Has r'
  same : ∀ r' c', candidateAt d'.byAccount r' = some c' → ∃ c, candidateAt d.byAccount r' = some c ∧
    c'.tx = c.tx ∧ c'.feeLevel = c.feeLevel
  passed : ∀ r' ∈ d'.passed, r' ≠ r → r' ∈ d.passed ∧ (r'.2.isSeq = true → ∀ sp < r'.2,
    d.Has (r'.1, sp) → ∃ sp' < r'.2, d'.Has (r'.1, sp'))
  gone : ∀ r', d.Has r' → ¬d'.Has r' → r' = r ∨ E.isFull95 (d.passed ++ d.rest).length = true ∧
    didApply = false ∧ r'.1 = r.1 ∧ ∀ sp, d'.Has (r'.1, sp) → sp < r'.2
  applied : didApply = true → ¬d'.Has r

theorem Engine.isFull95_mono {n m : ℕ} (hnm : n ≤ m) (h : E.isFull95 n = true) :
    E.isFull95 m = true := by
  obtain ⟨size, hsize, hn⟩ := (Option.any_eq_true _ _).mp h
  exact (Option.any_eq_true _ _).mpr
    ⟨size, hsize, decide_eq_true ((of_decide_eq_true hn).trans hnm)⟩

theorem Moved.has {didApply : Bool} (hm : Moved E d d' r didApply) {r' : Ref} (h : d'.Has r') :
    d.Has r' := by
  obtain ⟨c', hc'⟩ := Option.isSome_iff_exists.mp h
  obtain ⟨c, hc, -⟩ := hm.same r' c' hc'
  exact Option.isSome_iff_exists.mpr ⟨c, hc⟩

theorem Draining.inSequence {didApply : Bool} (h : Draining E view₀ q d) (hr : d.Has r)
    (hfirst : r.2.isSeq = true → ∀ sp, d.Has (r.1, sp) → r.2 ≤ sp) :
    InSequence q (d.attempts ++ [(r, didApply)]) := by
  refine ⟨List.pairwise_append.mpr ⟨h.sequence.ordered, List.pairwise_singleton _ _,
    fun a ha b hb => ?_⟩, fun l a l' heq hseq sp hsp hmem => ?_⟩
  · obtain rfl := List.mem_singleton.mp hb
    intro hacct ha' _
    refine h.low a ha ha' r.2 ?_
    rw [hacct]
    exact hr
  · rcases List.append_eq_append_iff.mp heq with ⟨m, rfl, hm⟩ | ⟨m, hattempts, hm⟩
    · -- the attempt is the last one, so what is before it has left the queue
      have hlast : m = [] ∧ a = (r, didApply) := by
        cases m with
        | nil => exact ⟨rfl, (List.cons.inj hm).1.symm⟩
        | cons b m => simp at hm
      obtain ⟨rfl, rfl⟩ := hlast
      have hgone : ¬d.Has (r.1, sp) := fun hhas => absurd (hfirst hseq sp hhas) (not_le.mpr hsp)
      rcases h.gone (r.1, sp) hmem hgone with ⟨b, hb, hbr⟩ | hdropped
      · exact ⟨b, by rwa [List.append_nil], hbr⟩
      · exact absurd (hdropped.last r.2 hr) (lt_asymm hsp)
    · cases m with
      | nil =>
        rw [List.append_nil] at hattempts
        obtain rfl : a = (r, didApply) := by simpa using (List.cons.inj hm).1
        have hgone : ¬d.Has (r.1, sp) := fun hhas => absurd (hfirst hseq sp hhas) (not_le.mpr hsp)
        rcases h.gone (r.1, sp) hmem hgone with ⟨b, hb, hbr⟩ | hdropped
        · exact ⟨b, hattempts ▸ hb, hbr⟩
        · exact absurd (hdropped.last r.2 hr) (lt_asymm hsp)
      | cons b m =>
        obtain rfl : a = b := (List.cons.inj hm).1
        exact h.sequence.fromFirst l a m hattempts hseq sp hsp hmem

/-- **An attempt at a first transaction, or one with a ticket, keeps the invariant.** -/
theorem Draining.move (h : Draining E view₀ q d) {c : Candidate}
    (hc : candidateAt d.byAccount r = some c) (hpaid : E.requiredFeeLevel d.view ≤ c.feeLevel)
    (hfirst : r.2.isSeq = true → ∀ sp, d.Has (r.1, sp) → r.2 ≤ sp)
    (hm : Moved E d d' r (E.apply d.view c).2.1) (hview : d'.view = (E.apply d.view c).2.2) :
    Draining E view₀ q d' := by
  have hr : d.Has r := Option.isSome_iff_exists.mpr ⟨c, hc⟩
  have hreplay : Replayed E q view₀ d'.attempts d'.view := by
    obtain ⟨c₀, hc₀, htx, hfee⟩ := h.same r c hc
    rw [hm.attempts, hview]
    exact .apply h.replay hc₀ htx hfee hpaid
  generalize (E.apply d.view c).2.1 = didApply at hm
  have hmem : ∀ a, a ∈ d'.attempts ↔ a ∈ d.attempts ∨ a = (r, didApply) := fun a => by
    rw [hm.attempts, List.mem_append, List.mem_singleton]
  have htried : ∀ {r'}, d.Attempted r' → d'.Attempted r' := fun {r'} ⟨a, ha, har⟩ =>
    ⟨a, (hmem a).mpr (.inl ha), har⟩
  have hself : d'.Attempted r := ⟨_, (hmem _).mpr (.inr rfl), rfl⟩
  refine ⟨hm.sub.trans h.sub, hm.listed, fun r' c' hc' => ?_, fun r' hr' => ?_,
    fun a ha hseq sp hsp => ?_, fun r' hr' hgone => ?_, fun a ha happ => ?_, ?_, ?_, hreplay⟩
  · obtain ⟨c, hc, htx, hfee⟩ := hm.same r' c' hc'
    obtain ⟨c₀, hc₀, htx₀, hfee₀⟩ := h.same r' c hc
    exact ⟨c₀, hc₀, htx.trans htx₀, hfee.trans hfee₀⟩
  · by_cases heq : r' = r
    · exact .inl (heq ▸ hself)
    · obtain ⟨hold, hkeep⟩ := hm.passed r' hr' heq
      rcases h.passed r' hold with hdone | ⟨hseq, sp, hsp, hhas⟩
      · exact .inl (htried hdone)
      · exact .inr ⟨hseq, hkeep hseq sp hsp hhas⟩
  · rcases (hmem a).mp ha with ha | rfl
    · exact h.low a ha hseq sp (hm.has hsp)
    · exact hfirst hseq sp (hm.has hsp)
  · by_cases hhas : d.Has r'
    · rcases hm.gone r' hhas hgone with rfl | ⟨hfull, happ, hacct, hlast⟩
      · exact .inl hself
      · exact .inr ⟨E.isFull95_mono h.sub.length_le hfull,
          ⟨_, (hmem _).mpr (.inr rfl), hacct.symm, happ⟩, hlast⟩
    · refine (h.gone r' hr' hhas).imp htried fun hdropped => ⟨hdropped.full, ?_, fun sp hsp =>
        hdropped.last sp (hm.has hsp)⟩
      obtain ⟨a, ha, hfailed⟩ := hdropped.failed
      exact ⟨a, (hmem a).mpr (.inl ha), hfailed⟩
  · rcases (hmem a).mp ha with ha | rfl
    · exact fun hhas => h.applied a ha happ (hm.has hhas)
    · exact hm.applied happ
  · rw [hm.attempts, List.filter_append, List.map_append]
    cases happ : didApply with
    | false => simpa using h.once
    | true =>
      refine List.nodup_append.mpr ⟨h.once, by simp, fun x hx y hy => ?_⟩
      obtain rfl : y = r := by simpa using hy
      rintro rfl
      obtain ⟨a, ha, rfl⟩ := List.mem_map.mp hx
      obtain ⟨ha, happ'⟩ := List.mem_filter.mp ha
      exact h.applied a ha happ' hr
  · rw [hm.attempts]
    exact h.inSequence hr hfirst

/-! ### What an attempt leads to -/

theorem candidateAt_insert (byAccount : AccountMap) (a : AccountID) (account : TxQAccount) (r : Ref) :
    candidateAt (byAccount.insert a account) r =
      if r.1 = a then account.transactions.find r.2 else candidateAt byAccount r := by
  rw [candidateAt, candidateAt]
  split_ifs with heq
  · rw [heq, AList.lookup_insert, Option.bind_some]
  · rw [AList.lookup_insert_ne heq]

/-- An account as a turn may write it: with the candidates it has, but for their failures. -/
structure Updates (d : Drain View) (a : AccountID) (account : TxQAccount) : Prop where
  same : ∀ sp c', account.transactions.find sp = some c' → ∃ c, candidateAt d.byAccount (a, sp) = some c ∧
    c'.tx = c.tx ∧ c'.feeLevel = c.feeLevel
  has : ∀ sp, (account.transactions.find sp).isSome = true ↔ d.Has (a, sp)

theorem Updates.of_lookup {a : AccountID} (h : d.byAccount.lookup a = some account) :
    Updates d a account where
  same sp c' hc' := ⟨c', by rw [candidateAt, h, Option.bind_some, hc'], rfl, rfl⟩
  has sp := by rw [Drain.Has, candidateAt, h, Option.bind_some]

theorem Updates.retried {a : AccountID} (hu : Updates d a account) {sp : SeqProxy} {c : Candidate}
    (hc : account.transactions.find sp = some c) (penalty : Bool) (ter : TER) :
    Updates d a { account with transactions := account.transactions.set (c.retried penalty ter) } := by
  have hkey : (c.retried penalty ter).seqProx = sp := account.transactions.key_eq sp c hc
  constructor
  · intro sp' c' hc'
    dsimp only at hc'
    rw [KeyedMap.find_set, hkey] at hc'
    split_ifs at hc' with heq
    · obtain rfl := Option.some.inj hc'
      obtain ⟨c₀, hc₀, htx, hfee⟩ := hu.same sp c hc
      exact ⟨c₀, heq ▸ hc₀, htx, hfee⟩
    · exact hu.same sp' c' hc'
  · intro sp'
    dsimp only
    rw [KeyedMap.find_set, hkey]
    split_ifs with heq
    · rw [heq, ← hu.has sp, hc]
      simp
    · exact hu.has sp'

theorem Updates.mem_toList {a : AccountID} (hu : Updates d a account) {sp : SeqProxy} :
    (∃ c ∈ account.transactions.toList, c.seqProx = sp) ↔ d.Has (a, sp) := by
  rw [← hu.has sp, ← KeyedMap.mem_domain]
  rfl

theorem Queue.Indexed.nodup {parentHash : UInt256} (h : q.Indexed parentHash) : q.byFee.Nodup := by
  refine List.Pairwise.imp_of_mem (fun {r r'} hr _ hlt => ?_) h.ordered
  rintro rfl
  obtain ⟨c, hc⟩ := Option.isSome_iff_exists.mp ((h.listed r).mp hr)
  have := hlt c hc c hc
  rw [orderCandidates_irrefl] at this
  cases this

theorem Draining.inFeeOrder (h : Draining E view₀ q d) {parentHash : UInt256}
    (hindex : q.Indexed parentHash) :
    InFeeOrder parentHash d.byAccount (d.passed ++ d.rest) := by
  refine (hindex.ordered.sublist h.sub).imp fun {r r'} hlt c hc c' hc' => ?_
  obtain ⟨c₀, hc₀, htx, hfee⟩ := h.same r c hc
  obtain ⟨c₀', hc₀', htx', hfee'⟩ := h.same r' c' hc'
  rw [orderCandidates_congr htx hfee htx' hfee']
  exact hlt c₀ hc₀ c₀' hc₀'

theorem mem_of_mem_takeWhile_append {α : Type*} {p : α → Bool} {l l' : List α} {n x : α}
    (hn : n ∈ l) (hp : p n = false) (hx : x ∈ (l ++ l').takeWhile p) : x ∈ l := by
  induction l with
  | nil => cases hn
  | cons a l ih =>
    rw [List.cons_append, List.takeWhile_cons] at hx
    split_ifs at hx with ha
    · rcases List.mem_cons.mp hx with rfl | hx
      · exact List.mem_cons_self
      · rcases List.mem_cons.mp hn with rfl | hn
        · rw [hp] at ha
          cases ha
        · exact List.mem_cons_of_mem a (ih hn hx)
    · cases hx

theorem eraseAndAdvance_byAccount (d : Drain View) (r : Ref) (account : TxQAccount)
    (tail : List Ref) : (eraseAndAdvance E d r account tail).byAccount =
      d.byAccount.insert r.1 { account with transactions := account.transactions.erase r.2 } := by
  unfold eraseAndAdvance
  dsimp only
  split
  · split_ifs <;> rfl
  · rfl

theorem eraseAndAdvance_append (d : Drain View) (r : Ref) (account : TxQAccount)
    (tail : List Ref) : (eraseAndAdvance E d r account tail).passed ++
      (eraseAndAdvance E d r account tail).rest = d.passed ++ tail := by
  unfold eraseAndAdvance
  dsimp only
  split
  · split_ifs
    · exact List.takeWhile_append_dropWhile
    · rfl
  · rfl

theorem eraseAndAdvance_attempts (d : Drain View) (r : Ref) (account : TxQAccount)
    (tail : List Ref) : (eraseAndAdvance E d r account tail).attempts = d.attempts := by
  unfold eraseAndAdvance
  dsimp only
  split
  · split_ifs <;> rfl
  · rfl

theorem mem_upperBound_of_find {sp : SeqProxy} (hsp : r.2 < sp)
    (hfind : (account.transactions.find sp).isSome = true) :
    ∃ c ∈ account.transactions.upperBound r.2, c.seqProx = sp := by
  obtain ⟨c, hc⟩ := Option.isSome_iff_exists.mp hfind
  have hkey := account.transactions.key_eq sp c hc
  exact ⟨c, (account.transactions.mem_upperBound r.2 c).mpr
    ⟨by rw [hkey, hc], by rw [hkey]; exact hsp⟩, hkey⟩

theorem upperBound_head_le {next : Candidate} {sp : SeqProxy}
    (hnext : (account.transactions.upperBound r.2).head? = some next) (hsp : r.2 < sp)
    (hfind : (account.transactions.find sp).isSome = true) :
    r.2 < next.seqProx ∧ next.seqProx ≤ sp ∧
      (account.transactions.find next.seqProx).isSome = true := by
  obtain ⟨c, hmem, hkey⟩ := mem_upperBound_of_find hsp hfind
  obtain ⟨hn, hlt⟩ :=
    (account.transactions.mem_upperBound r.2 next).mp (List.mem_of_mem_head? hnext)
  refine ⟨hlt, ?_, by rw [hn]; rfl⟩
  have hle := (account.transactions.upperBound_ascending r.2).head?_le hnext hmem
  rwa [hkey] at hle

theorem Draining.jumps_iff_passed (h : Draining E view₀ q d) (hindex : q.Indexed E.parentHash)
    (hrest : d.rest = r :: tail) (hu : Updates d r.1 account) {next : Candidate}
    (hnext : next ∈ account.transactions.upperBound r.2) :
    (tail.head?.all fun feeNext => (candidateAt d.byAccount feeNext).any fun c =>
      orderCandidates E.parentHash next c) = true ↔ (r.1, next.seqProx) ∈ d.passed := by
  have horder := h.inFeeOrder hindex
  rw [hrest, InFeeOrder, List.pairwise_append] at horder
  obtain ⟨-, hafter, hbetween⟩ := horder
  obtain ⟨hfindnext, hltnext⟩ := (account.transactions.mem_upperBound r.2 next).mp hnext
  obtain ⟨n, hn, hntx, hnfee⟩ := hu.same next.seqProx next hfindnext
  cases htail : tail with
  | nil =>
    -- the candidate is the last one, so all the others have been passed
    have hmem := (h.listed (r.1, next.seqProx)).mpr (by rw [Drain.Has, hn]; rfl)
    rw [hrest, htail, List.mem_append, List.mem_singleton] at hmem
    simp only [List.head?_nil, Option.all_none, true_iff]
    exact hmem.resolve_right fun heq => hltnext.ne' (congrArg Prod.snd heq)
  | cons feeNext rest =>
    rw [htail] at hafter hbetween
    rw [List.head?_cons, Option.all_some]
    constructor
    · intro hjump
      obtain ⟨f, hf, hlt⟩ := (Option.any_eq_true _ _).mp hjump
      rw [orderCandidates_congr hntx hnfee rfl rfl] at hlt
      have hmem := (h.listed (r.1, next.seqProx)).mpr (by rw [Drain.Has, hn]; rfl)
      rw [hrest, htail, List.mem_append, List.mem_cons, List.mem_cons] at hmem
      rcases hmem with hpassed | heq | heq | hin
      · exact hpassed
      · exact absurd (congrArg Prod.snd heq) hltnext.ne'
      · -- it would come before itself
        rw [← heq, hn] at hf
        obtain rfl := Option.some.inj hf
        rw [orderCandidates_irrefl] at hlt
        cases hlt
      · -- nothing after the candidate comes before what follows it
        have hfirst :=
          (List.pairwise_cons.mp (List.pairwise_cons.mp hafter).2).1 _ hin f hf n hn
        rw [orderCandidates_asymm hlt] at hfirst
        cases hfirst
    · intro hpassed
      -- what has been passed comes before what follows the candidate
      have hfhas : d.Has feeNext := (h.listed feeNext).mp (by
        rw [hrest, htail]
        simp)
      obtain ⟨f, hf⟩ := Option.isSome_iff_exists.mp hfhas
      have hlt := hbetween _ hpassed feeNext (by simp) n hn f hf
      rw [hf, Option.any_some, orderCandidates_congr hntx hnfee rfl rfl]
      exact hlt

/-- What `eraseAndAdvance` has gone past: where the candidate was the one that goes before, there is
another one now. -/
theorem Draining.passed_eraseAndAdvance (h : Draining E view₀ q d) (hindex : q.Indexed E.parentHash)
    (hrest : d.rest = r :: tail) (hu : Updates d r.1 account) {d₁ : Drain View}
    (hby : d₁.byAccount = d.byAccount) (hpassed : d₁.passed = d.passed) {r' : Ref}
    (hr' : r' ∈ (eraseAndAdvance E d₁ r account tail).passed) :
    r' ∈ d.passed ∧ (r'.1 = r.1 → r.2 < r'.2 → ∃ sp < r'.2, r.2 < sp ∧ d.Has (r.1, sp)) := by
  have hfind : r' ∈ d.passed → r'.1 = r.1 → (account.transactions.find r'.2).isSome = true :=
    fun hold hacct => (hu.has r'.2).mpr (by
      rw [← hacct]
      exact (h.listed r').mp (List.mem_append_left _ hold))
  unfold eraseAndAdvance at hr'
  dsimp only at hr'
  split at hr'
  · rename_i next hnext
    have hnextmem := List.mem_of_mem_head? hnext
    obtain ⟨hfindnext, hltnext⟩ := (account.transactions.mem_upperBound r.2 next).mp hnextmem
    have hnhas : d.Has (r.1, next.seqProx) := (hu.has _).mp (by rw [hfindnext]; rfl)
    -- whatever else of the account has been passed lies beyond the next transaction
    have hwitness : r' ∈ d.passed → r' ≠ (r.1, next.seqProx) → r'.1 = r.1 → r.2 < r'.2 →
        ∃ sp < r'.2, r.2 < sp ∧ d.Has (r.1, sp) := fun hold hne hacct hlt => by
      obtain ⟨-, hle, -⟩ := upperBound_head_le hnext hlt (hfind hold hacct)
      refine ⟨next.seqProx, lt_of_le_of_ne hle fun heq => hne ?_, hltnext, hnhas⟩
      rw [← hacct, heq]
    have hjumps := h.jumps_iff_passed hindex hrest hu hnextmem
    rw [← hby] at hjumps
    split_ifs at hr' with hjump
    · dsimp only at hr'
      rw [hpassed] at hr'
      have hold := mem_of_mem_takeWhile_append (hjumps.mp hjump) (by simp) hr'
      exact ⟨hold, hwitness hold (by simpa using List.mem_takeWhile_imp hr')⟩
    · dsimp only at hr'
      rw [hpassed] at hr'
      refine ⟨hr', hwitness hr' ?_⟩
      rintro rfl
      exact hjump (hjumps.mpr hr')
  · rename_i hnone
    dsimp only at hr'
    rw [hpassed] at hr'
    refine ⟨hr', fun hacct hlt => ?_⟩
    obtain ⟨c, hmem, -⟩ := mem_upperBound_of_find hlt (hfind hr' hacct)
    rw [List.head?_eq_none_iff.mp hnone] at hmem
    cases hmem

theorem Draining.nodup (h : Draining E view₀ q d) {parentHash : UInt256} (hindex : q.Indexed parentHash) :
    (d.passed ++ d.rest).Nodup :=
  hindex.nodup.sublist h.sub

theorem Draining.erased (h : Draining E view₀ q d) (hindex : q.Indexed E.parentHash)
    (hrest : d.rest = r :: tail) (hu : Updates d r.1 account) (d₁ : Drain View) {didApply : Bool}
    (hby : d₁.byAccount = d.byAccount) (hpassed : d₁.passed = d.passed)
    (hattempts : d₁.attempts = d.attempts ++ [(r, didApply)]) :
    Moved E d (eraseAndAdvance E d₁ r account tail) r didApply := by
  have hat : ∀ r', candidateAt (eraseAndAdvance E d₁ r account tail).byAccount r' =
      if r'.1 = r.1 then (account.transactions.erase r.2).find r'.2
      else candidateAt d.byAccount r' := fun r' => by
    rw [eraseAndAdvance_byAccount, hby, candidateAt_insert]
  have hhas : ∀ r', (eraseAndAdvance E d₁ r account tail).Has r' ↔ d.Has r' ∧ r' ≠ r := fun r' => by
    rw [Drain.Has, hat, KeyedMap.find_erase]
    split_ifs with hacct hsp
    · have heq : r' = r := Prod.ext hacct hsp
      simp [heq]
    · have hne : r' ≠ r := fun heq => hsp (congrArg Prod.snd heq)
      rw [hu.has, ← hacct]
      simp [hne]
    · have hne : r' ≠ r := fun heq => hacct (congrArg Prod.fst heq)
      simp [hne, Drain.Has]
  have hnodup := h.nodup hindex
  rw [hrest] at hnodup
  have hnot : r ∉ d.passed ++ tail :=
    (List.nodup_cons.mp ((List.perm_middle (a := r)).nodup_iff.mp hnodup)).1
  refine ⟨by rw [eraseAndAdvance_attempts, hattempts], ?_, fun r' => ?_, fun r' c' hc' => ?_,
    fun r' hr' hne => ?_, fun r' hold hgone => .inl ?_, fun _ hself => ((hhas r).mp hself).2 rfl⟩
  · rw [eraseAndAdvance_append, hpassed, hrest]
    exact List.Sublist.append_left (List.sublist_cons_self r tail) d.passed
  · rw [hhas, ← h.listed, eraseAndAdvance_append, hpassed, hrest, List.mem_append, List.mem_append,
      List.mem_cons]
    constructor
    · intro hmem
      refine ⟨hmem.imp_right .inr, ?_⟩
      rintro rfl
      exact hnot (List.mem_append.mpr hmem)
    · rintro ⟨hp | heq | ht, hne⟩
      · exact .inl hp
      · exact absurd heq hne
      · exact .inr ht
  · rw [hat, KeyedMap.find_erase] at hc'
    split_ifs at hc' with hacct hsp
    · obtain ⟨c, hc, htx⟩ := hu.same r'.2 c' hc'
      exact ⟨c, by rwa [← hacct] at hc, htx⟩
    · exact ⟨c', hc', rfl, rfl⟩
  · obtain ⟨hold, hnext⟩ := h.passed_eraseAndAdvance hindex hrest hu hby hpassed hr'
    refine ⟨hold, fun _ sp hsp hsphas => ?_⟩
    by_cases heq : (r'.1, sp) = r
    · have hacct : r'.1 = r.1 := by rw [← heq]
      have hr : sp = r.2 := by rw [← heq]
      obtain ⟨sp', hlt, hgt, hhas'⟩ := hnext hacct (hr ▸ hsp)
      exact ⟨sp', hlt, (hhas _).mpr ⟨by rw [hacct]; exact hhas', fun h' =>
        hgt.ne' (congrArg Prod.snd h')⟩⟩
    · exact ⟨sp, hsp, (hhas _).mpr ⟨hsphas, heq⟩⟩
  · by_contra hne
    exact hgone ((hhas r').mpr ⟨hold, hne⟩)

theorem Draining.left (h : Draining E view₀ q d) (hrest : d.rest = r :: tail)
    (hu : Updates d r.1 account) {d₁ : Drain View} (hby : d₁.byAccount = d.byAccount)
    (hpassed : d₁.passed = d.passed) (hattempts : d₁.attempts = d.attempts ++ [(r, false)]) :
    Moved E d (leave d₁ r account tail) r false := by
  have hat : ∀ r', candidateAt (leave d₁ r account tail).byAccount r' =
      if r'.1 = r.1 then account.transactions.find r'.2 else candidateAt d.byAccount r' := fun r' => by
    rw [leave, hby, candidateAt_insert]
  have hhas : ∀ r', (leave d₁ r account tail).Has r' ↔ d.Has r' := fun r' => by
    rw [Drain.Has, hat]
    split_ifs with hacct
    · rw [hu.has, ← hacct]
    · rfl
  have happend : (leave d₁ r account tail).passed ++ (leave d₁ r account tail).rest =
      d.passed ++ d.rest := by
    rw [leave, hpassed, hrest, List.append_assoc, List.singleton_append]
  refine ⟨hattempts, by rw [happend], fun r' => ?_, fun r' c' hc' => ?_, fun r' hr' hne => ?_,
    fun r' hold hgone => absurd ((hhas r').mpr hold) hgone, fun happ => by cases happ⟩
  · rw [happend, hhas, h.listed]
  · rw [hat] at hc'
    split_ifs at hc' with hacct
    · obtain ⟨c, hc, htx⟩ := hu.same r'.2 c' hc'
      exact ⟨c, by rwa [← hacct] at hc, htx⟩
    · exact ⟨c', hc', rfl, rfl⟩
  · rw [leave, hpassed, List.mem_append, List.mem_singleton] at hr'
    exact ⟨hr'.resolve_right hne, fun _ sp hsp hsphas => ⟨sp, hsp, (hhas _).mpr hsphas⟩⟩

theorem Draining.dropped (h : Draining E view₀ q d) (hrest : d.rest = r :: tail)
    (hu : Updates d r.1 account) (hfull : E.isFull95 (d.passed ++ d.rest).length = true)
    {last : Candidate}
    (hlast : account.transactions.toList.getLast? = some last) (hne : last.seqProx ≠ r.2)
    {d₁ : Drain View} (hby : d₁.byAccount = d.byAccount) (hpassed : d₁.passed = d.passed)
    (hattempts : d₁.attempts = d.attempts ++ [(r, false)]) :
    Moved E d (dropLast d₁ r account last.seqProx tail) r false := by
  have hat : ∀ r', candidateAt (dropLast d₁ r account last.seqProx tail).byAccount r' =
      if r'.1 = r.1 then (account.transactions.erase last.seqProx).find r'.2
      else candidateAt d.byAccount r' := fun r' => by
    rw [dropLast, hby, candidateAt_insert]
  have hhas : ∀ r', (dropLast d₁ r account last.seqProx tail).Has r' ↔
      d.Has r' ∧ r' ≠ (r.1, last.seqProx) := fun r' => by
    rw [Drain.Has, hat, KeyedMap.find_erase]
    split_ifs with hacct hsp
    · have heq : r' = (r.1, last.seqProx) := Prod.ext hacct hsp
      simp [heq]
    · have hne' : r' ≠ (r.1, last.seqProx) := fun heq => hsp (by rw [heq])
      rw [hu.has, show (r.1, r'.2) = r' from Prod.ext hacct.symm rfl]
      exact (and_iff_left hne').symm
    · have hne' : r' ≠ (r.1, last.seqProx) := fun heq => hacct (by rw [heq])
      exact (and_iff_left hne').symm
  -- nothing of the account comes after it
  have hmax : ∀ sp, d.Has (r.1, sp) → sp ≤ last.seqProx := fun sp hsp => by
    obtain ⟨c, hc, rfl⟩ := hu.mem_toList.mpr hsp
    obtain ⟨l, hl⟩ := List.getLast?_eq_some_iff.mp hlast
    have hasc := account.transactions.toList_ascending
    rw [hl] at hc hasc
    rcases List.mem_append.mp hc with hc | hc
    · exact ((List.pairwise_append.mp hasc).2.2 c hc last List.mem_cons_self).le
    · rw [List.mem_singleton.mp hc]
  have hself : r ≠ (r.1, last.seqProx) := fun heq => hne (congrArg Prod.snd heq).symm
  have happend : (dropLast d₁ r account last.seqProx tail).passed ++
      (dropLast d₁ r account last.seqProx tail).rest =
        (d.passed ++ d.rest).filter (· ≠ (r.1, last.seqProx)) := by
    rw [dropLast, hpassed, hrest, List.filter_append, List.filter_cons_of_pos (by simpa using hself),
      List.append_assoc, List.singleton_append]
  refine ⟨hattempts, by rw [happend]; exact List.filter_sublist, fun r' => ?_, fun r' c' hc' => ?_,
    fun r' hr' hr => ?_, fun r' hold hgone => .inr ?_, fun happ => by cases happ⟩
  · rw [happend, hhas, List.mem_filter, h.listed]
    simp
  · rw [hat, KeyedMap.find_erase] at hc'
    split_ifs at hc' with hacct hsp
    · obtain ⟨c, hc, htx⟩ := hu.same r'.2 c' hc'
      exact ⟨c, by rwa [← hacct] at hc, htx⟩
    · exact ⟨c', hc', rfl, rfl⟩
  · rw [dropLast, hpassed, List.mem_append, List.mem_singleton, List.mem_filter] at hr'
    obtain ⟨hold, -⟩ := hr'.resolve_right hr
    refine ⟨hold, fun _ sp hsp hsphas => ⟨sp, hsp, (hhas _).mpr ⟨hsphas, fun heq => ?_⟩⟩⟩
    obtain ⟨hacct, hsp'⟩ := Prod.mk.inj heq
    have hlt : last.seqProx < r'.2 := by rwa [hsp'] at hsp
    have hhas' : d.Has (r.1, r'.2) := by
      rw [← hacct]
      exact (h.listed r').mp (List.mem_append_left _ hold)
    exact absurd (hmax r'.2 hhas') (not_le.mpr hlt)
  · have heq : r' = (r.1, last.seqProx) := by
      by_contra hne'
      exact hgone ((hhas r').mpr ⟨hold, hne'⟩)
    refine ⟨hfull, rfl, by rw [heq], fun sp hsp => ?_⟩
    obtain ⟨hsphas, hspne⟩ := (hhas _).mp hsp
    rw [heq] at hsphas hspne ⊢
    exact lt_of_le_of_ne (hmax sp hsphas) fun heq' => hspne (by rw [heq'])

/-! ### A turn -/

theorem Updates.of_transactions {a : AccountID} {account' : TxQAccount} (hu : Updates d a account)
    (h : account'.transactions = account.transactions) : Updates d a account' :=
  ⟨fun sp c' hc' => hu.same sp c' (by rwa [h] at hc'), fun sp => by rw [h, hu.has]⟩

theorem Draining.leftOrDropped (h : Draining E view₀ q d) (hindex : q.Indexed E.parentHash)
    (hrest : d.rest = r :: tail) (hu : Updates d r.1 account) {d₁ : Drain View}
    (hby : d₁.byAccount = d.byAccount) (hpassed : d₁.passed = d.passed)
    (hattempts : d₁.attempts = d.attempts ++ [(r, false)]) :
    Moved E d (leaveOrDrop E d₁ r account tail) r false := by
  unfold leaveOrDrop
  split_ifs with hdrop
  · exact h.erased hindex hrest hu d₁ hby hpassed hattempts
  · have hfull : E.isFull95 (d.passed ++ d.rest).length = true := by
      rw [Bool.and_eq_true, hpassed] at hdrop
      rw [hrest, List.length_append, List.length_cons, Nat.add_comm tail.length, ← Nat.add_assoc]
      exact hdrop.2
    split
    · split_ifs with hne
      · exact h.dropped hrest hu hfull ‹_› hne hby hpassed hattempts
      · exact h.left hrest hu hby hpassed hattempts
    · exact h.left hrest hu hby hpassed hattempts
  · exact h.left hrest hu hby hpassed hattempts

theorem Draining.attempted (h : Draining E view₀ q d) (hindex : q.Indexed E.parentHash)
    (hrest : d.rest = r :: tail) (hlookup : d.byAccount.lookup r.1 = some account) {c : Candidate}
    (hfind : account.transactions.find r.2 = some c) :
    Moved E d (attempt E d r account c tail) r (E.apply d.view c).2.1 := by
  have hu : Updates d r.1 account := Updates.of_lookup hlookup
  unfold attempt
  generalize E.apply d.view c = result
  obtain ⟨ter, didApply, view⟩ := result
  dsimp only
  cases didApply with
  | true =>
    rw [if_pos rfl]
    have hm := h.erased hindex hrest hu { d with view, attempts := d.attempts ++ [(r, true)] } rfl rfl
      rfl
    exact ⟨hm.attempts, hm.sub, hm.listed, hm.same, hm.passed, hm.gone, hm.applied⟩
  | false =>
    rw [if_neg Bool.false_ne_true]
    have herased : ∀ {account'}, Updates d r.1 account' → Moved E d (eraseAndAdvance E
        { d with view, attempts := d.attempts ++ [(r, false)] } r account' tail) r false :=
      fun hu' => h.erased hindex hrest hu' _ rfl rfl rfl
    split_ifs
    · exact herased (hu.of_transactions rfl)
    · exact herased (hu.of_transactions rfl)
    · exact h.leftOrDropped hindex hrest (hu.retried hfind _ _) rfl rfl rfl

theorem eraseAndAdvance_view (d : Drain View) (r : Ref) (account : TxQAccount) (tail : List Ref) :
    (eraseAndAdvance E d r account tail).view = d.view := by
  unfold eraseAndAdvance
  dsimp only
  split
  · split_ifs <;> rfl
  · rfl

theorem attempt_view (d : Drain View) (r : Ref) (account : TxQAccount) (c : Candidate)
    (tail : List Ref) : (attempt E d r account c tail).view = (E.apply d.view c).2.2 := by
  unfold attempt leaveOrDrop
  dsimp only
  split_ifs
  all_goals first | exact eraseAndAdvance_view _ _ _ _ | skip
  · split
    · split_ifs <;> rfl
    · rfl
  · rfl

theorem isSkipped_eq_false (hu : Updates d r.1 account) {c : Candidate}
    (hfind : account.transactions.find r.2 = some c) (h : isSkipped account c = false) :
    r.2.isSeq = true → ∀ sp, d.Has (r.1, sp) → r.2 ≤ sp := by
  intro hseq sp hsp
  have hkey := account.transactions.key_eq r.2 c hfind
  obtain ⟨c', hc', rfl⟩ := hu.mem_toList.mpr hsp
  rw [isSkipped, hkey, hseq, Bool.true_and] at h
  cases hfirst : account.transactions.toList.head? with
  | none =>
    rw [List.head?_eq_none_iff.mp hfirst] at hc'
    cases hc'
  | some first =>
    rw [hfirst, Option.any_some, decide_eq_false_iff_not, not_lt] at h
    exact h.trans (account.transactions.toList_ascending.head?_le hfirst hc')

theorem Draining.skipped (h : Draining E view₀ q d) (hrest : d.rest = r :: tail)
    (hu : Updates d r.1 account) {c : Candidate} (hfind : account.transactions.find r.2 = some c)
    (hskip : isSkipped account c = true) :
    Draining E view₀ q { d with passed := d.passed ++ [r], rest := tail } := by
  have happend : d.passed ++ [r] ++ tail = d.passed ++ d.rest := by
    rw [hrest, List.append_assoc, List.singleton_append]
  have hkey := account.transactions.key_eq r.2 c hfind
  rw [isSkipped, hkey, Bool.and_eq_true, Option.any_eq_true] at hskip
  obtain ⟨hseq, first, hfirst, hlt⟩ := hskip
  refine { h with
    sub := by rw [happend]; exact h.sub
    listed := fun r' => by rw [happend]; exact h.listed r'
    gone := fun r' hr' hgone => (h.gone r' hr' hgone).imp_right fun hdropped =>
      ⟨hdropped.full, hdropped.failed, hdropped.last⟩
    passed := fun r' hr' => ?_ }
  rcases List.mem_append.mp hr' with hr' | hr'
  · exact h.passed r' hr'
  · obtain rfl := List.mem_singleton.mp hr'
    exact .inr ⟨hseq, first.seqProx, of_decide_eq_true hlt,
      hu.mem_toList.mp ⟨first, List.mem_of_mem_head? hfirst, rfl⟩⟩

/-- The loop has come to its end, or to a candidate that does not pay enough. -/
def Stopped (E : Engine View) (d : Drain View) : Prop :=
  d.rest = [] ∨ ∃ r c, d.rest.head? = some r ∧ candidateAt d.byAccount r = some c ∧
    c.feeLevel < E.requiredFeeLevel d.view

/-- **A turn** does not fault, keeps the invariant, and is the last one only where the loop may stop. -/
theorem Draining.turn (h : Draining E view₀ q d) (hindex : q.Indexed E.parentHash) :
    (TxQ.turn E d = .done ∧ Stopped E d) ∨ ∃ d', TxQ.turn E d = .next d' ∧ Draining E view₀ q d' := by
  rw [TxQ.turn]
  cases hrest : d.rest with
  | nil => exact .inl ⟨rfl, .inl hrest⟩
  | cons r tail =>
    have hhas : d.Has r := (h.listed r).mp (by rw [hrest]; simp)
    obtain ⟨c, hc⟩ := Option.isSome_iff_exists.mp hhas
    obtain ⟨account, hlookup, hfind⟩ := Option.bind_eq_some_iff.mp hc
    have hu : Updates d r.1 account := Updates.of_lookup hlookup
    simp only [hlookup, hfind]
    cases hskip : isSkipped account c with
    | true =>
      rw [if_pos rfl]
      exact .inr ⟨_, rfl, h.skipped hrest hu hfind hskip⟩
    | false =>
      rw [if_neg Bool.false_ne_true]
      split_ifs with hfee
      · exact .inr ⟨_, rfl, h.move hc hfee (isSkipped_eq_false hu hfind hskip)
          (h.attempted hindex hrest hlookup hfind) (attempt_view d r account c tail)⟩
      · exact .inl ⟨rfl, .inr ⟨r, c, by rw [hrest]; rfl, hc, UInt64.not_le.mp hfee⟩⟩

/-- **The loop ends**, where it may stop and with the invariant. -/
theorem Draining.drain (h : Draining E view₀ q d) (hindex : q.Indexed E.parentHash) :
    ∃ d', TxQ.drain E d = some d' ∧ Draining E view₀ q d' ∧ Stopped E d' := by
  fun_induction TxQ.drain E d with
  | case1 d hfault =>
    rcases h.turn hindex with ⟨hdone, -⟩ | ⟨d', hnext, -⟩
    · rw [hfault] at hdone
      cases hdone
    · rw [hfault] at hnext
      cases hnext
  | case2 d hdone =>
    rcases h.turn hindex with ⟨-, hstopped⟩ | ⟨d', hnext, -⟩
    · exact ⟨d, rfl, h, hstopped⟩
    · rw [hdone] at hnext
      cases hnext
  | case3 d d' hnext ih =>
    rcases h.turn hindex with ⟨hdone, -⟩ | ⟨d'', hnext', hkept⟩
    · rw [hnext] at hdone
      cases hdone
    · obtain rfl := Next.next.inj (hnext.symm.trans hnext')
      exact ih hkept

/-- What a call of `accept` has done to a queue and a view by the time it returns: what it has tried,
what has left the queue for it, and what is still there. -/
structure Drained (E : Engine View) (view₀ : View) (q : Queue) (d : Drain View) : Prop where
  replay : Replayed E q view₀ d.attempts d.view
  same : ∀ r c, candidateAt d.byAccount r = some c → ∃ c₀, candidateAt q.byAccount r = some c₀ ∧
    c.tx = c₀.tx ∧ c.feeLevel = c₀.feeLevel
  gone : ∀ r, (candidateAt q.byAccount r).isSome = true → ¬d.Has r →
    d.Attempted r ∨ d.DroppedFor E q r
  applied : ∀ a ∈ d.attempts, a.2 = true → ¬d.Has a.1
  sequence : InSequence q d.attempts
  once : ((d.attempts.filter (·.2)).map Prod.fst).Nodup
  stopped : Stopped E d
  complete : ∀ r c, candidateAt d.byAccount r = some c →
    (r.2.isTicket = true ∨ ∀ sp, d.Has (r.1, sp) → r.2 ≤ sp) →
      E.requiredFeeLevel d.view ≤ c.feeLevel → d.Attempted r

theorem Draining.mem_passed (h : Draining E view₀ q d) (hindex : q.Indexed E.parentHash)
    (hstopped : Stopped E d) {c : Candidate} (hc : candidateAt d.byAccount r = some c)
    (hfee : E.requiredFeeLevel d.view ≤ c.feeLevel) : r ∈ d.passed := by
  have hmem : r ∈ d.passed ++ d.rest := (h.listed r).mpr (by rw [Drain.Has, hc]; rfl)
  rcases hstopped with hnil | ⟨r₀, c₀, hhead, hc₀, hlow⟩
  · rwa [hnil, List.append_nil] at hmem
  · obtain ⟨rest, hrest⟩ := List.head?_eq_some_iff.mp hhead
    refine (List.mem_append.mp hmem).resolve_right fun hr => ?_
    have hle : c.feeLevel ≤ c₀.feeLevel := by
      rw [hrest] at hr
      rcases List.mem_cons.mp hr with rfl | hr
      · obtain rfl := Option.some.inj (hc.symm.trans hc₀)
        exact UInt64.le_refl _
      · have horder := (List.pairwise_append.mp (h.inFeeOrder hindex)).2.1
        rw [hrest] at horder
        exact feeLevel_le_of_orderCandidates ((List.pairwise_cons.mp horder).1 r hr c₀ hc₀ c hc)
    exact UInt64.not_le.mpr hlow (UInt64.le_trans hfee hle)

/-- **`accept` drains the queue**: for every queue that is indexed and every engine it returns. The
view is what the calls of the engine have made of it, and a transaction has left the queue only if it
was tried, or for one of its account that failed. An account's transactions have been tried in order,
none has been applied twice, and what is left has been tried or does not pay enough. -/
theorem accept_drains (E : Engine View) (parentHash : UInt256) {q : Queue}
    (hindex : q.Indexed E.parentHash) (view : View) :
    ∃ q' d, accept E parentHash q view = some (q', d) ∧ q'.byAccount = d.byAccount ∧
      Drained E view q d := by
  obtain ⟨d, hdrain, h, hstopped⟩ := (Draining.start view hindex).drain hindex
  refine ⟨_, d, by rw [accept, hdrain, Option.map_some], rfl, h.replay, h.same,
    fun r hr => h.gone r ((hindex.listed r).mpr hr), h.applied, h.sequence, h.once, hstopped,
    fun r c hc hfirst hfee => ?_⟩
  rcases h.passed r (h.mem_passed hindex hstopped hc hfee) with hdone | ⟨hseq, sp, hlt, hhas⟩
  · exact hdone
  · rcases hfirst with hticket | hfirst
    · cases hr : r.2 with
      | seq n =>
        rw [hr] at hticket
        cases hticket
      | ticket n =>
        rw [hr] at hseq
        cases hseq
    · exact absurd (hfirst sp hhas) (not_le.mpr hlt)

namespace Sample

def candidate (n : UInt32) (feeLevel : UInt64) : Candidate where
  tx := ⟨BitVec.ofNat 256 n.toNat, 2, none, 10, .seq n, .other false⟩
  consequences := ⟨false, .seq n, 1⟩
  feeLevel := feeLevel
  lastValid := none

def queue : Queue where
  byAccount := AList.insert 2
    { transactions := (KeyedMap.empty.set (candidate 1 300)).set (candidate 2 400) } ∅
  byFee := [(2, .seq 2), (2, .seq 1)]

def engine : Engine ℕ where
  txCount := UInt64.ofNat
  apply n _ := (.tesSuccess, true, n + 1)
  snapshot := ⟨32, 128000, by decide⟩
  maxSize := none
  parentHash := 0

theorem candidateAt_queue (r : Ref) : candidateAt queue.byAccount r =
    if r = (2, .seq 2) then some (candidate 2 400)
    else if r = (2, .seq 1) then some (candidate 1 300) else none := by
  obtain ⟨a, sp⟩ := r
  rw [queue, candidateAt_insert, KeyedMap.find_set, KeyedMap.find_set, KeyedMap.find_empty]
  have h2 : (candidate 2 400).seqProx = .seq 2 := rfl
  have h1 : (candidate 1 300).seqProx = .seq 1 := rfl
  simp only [h1, h2, Prod.mk.injEq]
  by_cases ha : a = 2
  · simp [ha]
  · rw [if_neg ha, if_neg (fun h => ha h.1), if_neg (fun h => ha h.1)]
    rfl

theorem queue_indexed : queue.Indexed engine.parentHash where
  listed r := by
    rw [candidateAt_queue, queue, List.mem_cons, List.mem_singleton]
    split_ifs with h h'
    · exact iff_of_true (.inl h) rfl
    · exact iff_of_true (.inr h') rfl
    · exact iff_of_false (not_or.mpr ⟨h, h'⟩) Bool.false_ne_true
  ordered := by
    refine List.pairwise_pair.mpr fun c hc c' hc' => ?_
    rw [candidateAt_queue, if_pos rfl] at hc
    rw [candidateAt_queue, if_neg (by decide), if_pos rfl] at hc'
    obtain rfl := Option.some.inj hc
    obtain rfl := Option.some.inj hc'
    decide

end Sample

/-- The second transaction is skipped, and gone back to once the first one has been applied. -/
theorem accept_drains_two : Sample.queue.Indexed Sample.engine.parentHash ∧
    ∃ q' d, accept Sample.engine 1 Sample.queue 0 = some (q', d) ∧ q'.byAccount = d.byAccount ∧
      Drained Sample.engine 0 Sample.queue d :=
  ⟨Sample.queue_indexed, accept_drains Sample.engine 1 Sample.queue_indexed 0⟩

end FalconLedger.TxQ
