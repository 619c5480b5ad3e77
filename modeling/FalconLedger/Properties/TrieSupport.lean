import FalconLedger.Properties.TrieNodes

/-!
# The trie counts ledgers

A trie stands for the multiset of the ledgers inserted in it. Insertions and removals, in any order,
keep the trie compressed and its supports sums over subtrees; so tip supports count ledgers, and branch
supports count ledgers with their descendants.
-/

namespace FalconLedger.Consensus

variable {T : LedgerTraits}

/-! ### Supports by sequence -/

namespace SeqSupport

/-- The entries are in the order of the sequence numbers. -/
def Sorted (ss : SeqSupport) : Prop := ss.Pairwise fun e e' => e.1 < e'.1

theorem find_eq_none {ss : SeqSupport} {seq : ℕ} (h : ∀ e ∈ ss, e.1 ≠ seq) : find seq ss = none := by
  induction ss with
  | nil => rfl
  | cons e ss ih =>
    rw [find, if_neg (h e List.mem_cons_self), ih fun e he => h e (List.mem_cons_of_mem _ he)]

theorem find_add {ss : SeqSupport} (h : ss.Sorted) (seq count t : ℕ) :
    find t (add seq count ss) =
      if t = seq then some (add32 ((find seq ss).getD 0) count) else find t ss := by
  induction ss with
  | nil =>
    by_cases ht : t = seq
    · simp [add, find, ht]
    · simp [add, find, ht, Ne.symm ht]
  | cons e ss ih =>
    obtain ⟨hlt, hsorted⟩ := List.pairwise_cons.mp h
    rw [add]
    by_cases hbefore : seq < e.1
    · have hnone : find seq (e :: ss) = none := find_eq_none fun e' he' => by
        rcases List.mem_cons.mp he' with rfl | he'
        · omega
        · have := hlt e' he'
          omega
      rw [if_pos hbefore, hnone, find]
      by_cases ht : t = seq
      · rw [if_pos ht.symm, if_pos ht]
        rfl
      · rw [if_neg (Ne.symm ht), if_neg ht]
    · rw [if_neg hbefore]
      by_cases heq : e.1 = seq
      · rw [if_pos heq]
        by_cases ht : t = seq
        · rw [find, if_pos ht.symm, if_pos ht, find, if_pos heq]
          rfl
        · rw [find, if_neg (Ne.symm ht), if_neg ht, find, if_neg (by omega)]
      · rw [if_neg heq, find, ih hsorted]
        by_cases ht : t = seq
        · rw [if_neg (ht ▸ heq), if_pos ht, if_pos ht, find, if_neg heq]
        · rw [if_neg ht, if_neg ht, find]

theorem mem_add {ss : SeqSupport} {seq count : ℕ} {e : ℕ × ℕ} (h : e ∈ add seq count ss) :
    e.1 = seq ∨ e ∈ ss := by
  induction ss with
  | nil =>
    rw [add, List.mem_singleton] at h
    exact .inl (by rw [h])
  | cons e' ss ih =>
    rw [add] at h
    split_ifs at h
    · rcases List.mem_cons.mp h with rfl | h
      · exact .inl rfl
      · exact .inr h
    · rcases List.mem_cons.mp h with rfl | h
      · exact .inl rfl
      · exact .inr (List.mem_cons_of_mem _ h)
    · rcases List.mem_cons.mp h with rfl | h
      · exact .inr List.mem_cons_self
      · exact (ih h).imp_right (List.mem_cons_of_mem _)

theorem Sorted.add {ss : SeqSupport} (h : ss.Sorted) (seq count : ℕ) :
    (SeqSupport.add seq count ss).Sorted := by
  induction ss with
  | nil => exact List.pairwise_singleton _ _
  | cons e ss ih =>
    obtain ⟨hlt, hsorted⟩ := List.pairwise_cons.mp h
    rw [SeqSupport.add]
    split_ifs with hbefore heq
    · refine List.pairwise_cons.mpr ⟨fun e' he' => ?_, h⟩
      rcases List.mem_cons.mp he' with rfl | he'
      · exact hbefore
      · exact hbefore.trans (hlt e' he')
    · exact List.pairwise_cons.mpr ⟨fun e' he' => heq ▸ hlt e' he', hsorted⟩
    · refine List.pairwise_cons.mpr ⟨fun e' he' => ?_, ih hsorted⟩
      rcases mem_add he' with heq' | he'
      · omega
      · exact hlt e' he'

theorem find_sub {ss : SeqSupport} (h : ss.Sorted) (seq count t : ℕ) :
    find t (sub seq count ss) =
      if t = seq then (find seq ss).bind fun v => if sub32 v count = 0 then none else some (sub32 v count)
      else find t ss := by
  induction ss with
  | nil => simp [sub, find]
  | cons e ss ih =>
    obtain ⟨hlt, hsorted⟩ := List.pairwise_cons.mp h
    rw [sub]
    by_cases heq : e.1 = seq
    · rw [if_pos heq]
      by_cases ht : t = seq
      · have hnone : find t ss = none := find_eq_none fun e' he' => by
          have := hlt e' he'
          omega
        rw [if_pos ht, find, if_pos heq, Option.bind_some]
        split_ifs
        · exact hnone
        · rw [find, if_pos ht.symm]
      · have hne : ¬e.1 = t := by omega
        rw [if_neg ht, find, if_neg hne]
        split_ifs
        · rfl
        · rw [find, if_neg (Ne.symm ht)]
    · rw [if_neg heq, find, ih hsorted]
      by_cases ht : t = seq
      · rw [if_neg (ht ▸ heq), if_pos ht, if_pos ht, find, if_neg heq]
      · rw [if_neg ht, if_neg ht, find]

theorem mem_sub {ss : SeqSupport} {seq count : ℕ} {e : ℕ × ℕ} (h : e ∈ sub seq count ss) :
    ∃ e₀ ∈ ss, e₀.1 = e.1 := by
  induction ss with
  | nil => exact absurd h List.not_mem_nil
  | cons e' ss ih =>
    rw [sub] at h
    split_ifs at h with heq
    · exact ⟨e, List.mem_cons_of_mem _ h, rfl⟩
    · rcases List.mem_cons.mp h with rfl | h
      · exact ⟨e', List.mem_cons_self, heq⟩
      · exact ⟨e, List.mem_cons_of_mem _ h, rfl⟩
    · rcases List.mem_cons.mp h with rfl | h
      · exact ⟨e, List.mem_cons_self, rfl⟩
      · obtain ⟨e₀, he₀, hkey⟩ := ih h
        exact ⟨e₀, List.mem_cons_of_mem _ he₀, hkey⟩

theorem Sorted.sub {ss : SeqSupport} (h : ss.Sorted) (seq count : ℕ) :
    (SeqSupport.sub seq count ss).Sorted := by
  induction ss with
  | nil => exact List.Pairwise.nil
  | cons e ss ih =>
    obtain ⟨hlt, hsorted⟩ := List.pairwise_cons.mp h
    rw [SeqSupport.sub]
    split_ifs with heq
    · exact hsorted
    · exact List.pairwise_cons.mpr ⟨fun e' he' => heq ▸ hlt e' he', hsorted⟩
    · refine List.pairwise_cons.mpr ⟨fun e' he' => ?_, ih hsorted⟩
      obtain ⟨e₀, he₀, hkey⟩ := mem_sub he'
      exact hkey ▸ hlt e₀ he₀

/-- The map holds the numbers that are not zero. -/
structure Counts (ss : SeqSupport) (f : ℕ → ℕ) : Prop where
  sorted : ss.Sorted
  find_eq : ∀ t, find t ss = if f t = 0 then none else some (f t)

theorem Counts.add {ss : SeqSupport} {f : ℕ → ℕ} (h : Counts ss f) {seq count : ℕ} (hcount : 0 < count)
    (hfits : f seq + count < 2 ^ 32) {g : ℕ → ℕ}
    (hg : ∀ t, g t = if t = seq then f t + count else f t) :
    Counts (SeqSupport.add seq count ss) g := by
  refine ⟨h.sorted.add seq count, fun t => ?_⟩
  rw [find_add h.sorted, hg t]
  by_cases ht : t = seq
  · subst ht
    have hvalue : (find t ss).getD 0 = f t := by
      rw [h.find_eq]
      split_ifs with hzero
      · exact hzero.symm
      · rfl
    rw [if_pos rfl, if_pos rfl, hvalue, Node.add32_eq hfits, if_neg (by omega)]
  · rw [if_neg ht, if_neg ht, h.find_eq]

theorem Counts.sub {ss : SeqSupport} {f : ℕ → ℕ} (h : Counts ss f) {seq count : ℕ}
    (hcount : count ≤ f seq) (hfits : f seq < 2 ^ 32) {g : ℕ → ℕ}
    (hg : ∀ t, g t = if t = seq then f t - count else f t) :
    Counts (SeqSupport.sub seq count ss) g := by
  refine ⟨h.sorted.sub seq count, fun t => ?_⟩
  rw [find_sub h.sorted, hg t]
  by_cases ht : t = seq
  · subst ht
    rw [if_pos rfl, if_pos rfl, h.find_eq]
    by_cases hzero : f t = 0
    · rw [if_pos hzero, Option.bind_none, if_pos (by omega)]
    · rw [if_neg hzero, Option.bind_some, Node.sub32_eq hcount hfits]
  · rw [if_neg ht, if_neg ht, h.find_eq]

end SeqSupport

/-! ### Whole tries -/

/-- A ledger with this id has this sequence number. -/
def AtSeq (seq : ℕ) (x : T.ID) : Prop := ∃ a, seq ≤ T.seq a ∧ T.ancestor a seq = x

theorem atSeq_id (t : ℕ) (l : T.Ledger) : AtSeq t (T.id l) ↔ t = T.seq l := by
  constructor
  · rintro ⟨a, ht, hid⟩
    exact (T.unique a l t (T.seq l) ht le_rfl hid).1
  · rintro rfl
    exact ⟨l, le_rfl, rfl⟩

open scoped Classical in
theorem countP_atSeq (t : ℕ) (l : T.Ledger) (count : ℕ) :
    Multiset.countP (AtSeq t) (Multiset.replicate count (T.id l)) =
      if t = T.seq l then count else 0 := by
  split_ifs with ht
  · have hall : ∀ y ∈ Multiset.replicate count (T.id l), AtSeq t y := fun y hy => by
      rw [Multiset.eq_of_mem_replicate hy]
      exact (atSeq_id t l).mpr ht
    rw [Multiset.countP_eq_card.mpr hall, Multiset.card_replicate]
  · refine Multiset.countP_eq_zero.mpr fun y hy hat => ht ?_
    rw [Multiset.eq_of_mem_replicate hy] at hat
    exact (atSeq_id t l).mp hat

open scoped Classical in
/-- **A trie stands for a multiset of ledgers.** The representation invariant holds from the root on,
which spans the genesis ledger; no two nodes share an address, so that the links to parents are
unambiguous; and the supports by sequence are those of the ledgers. -/
structure Represents (trie : LedgerTrie T) (M : Multiset T.ID) : Prop where
  sound : trie.root.Sound
  span : trie.root.span = Span.genesis
  parent : trie.root.parent = none
  tips : trie.root.tips = M
  nodup : trie.root.addresses.Nodup
  fresh : ∀ a ∈ trie.root.addresses, a < trie.next
  seqSupport : trie.seqSupport.Counts fun t => Multiset.countP (AtSeq t) M

section

variable {trie : LedgerTrie T} {M : Multiset T.ID}

theorem represents_empty : Represents (LedgerTrie.empty : LedgerTrie T) 0 where
  sound := .mk Nat.zero_lt_one (Nat.le_add_left _ _) rfl nofun List.Pairwise.nil nofun
  span := rfl
  parent := rfl
  tips := rfl
  nodup := Multiset.nodup_singleton 0
  fresh := fun a ha => by
    rw [show (LedgerTrie.empty : LedgerTrie T).root.addresses = {0} from rfl, Multiset.mem_singleton] at ha
    rw [ha]
    exact Nat.zero_lt_one
  seqSupport := ⟨List.Pairwise.nil, fun t => by simp [SeqSupport.find, LedgerTrie.empty]⟩

/-- **Inserting adds to the multiset.** -/
theorem Represents.insert (h : Represents trie M) (l : T.Ledger) {count : ℕ} (hcount : 0 < count)
    (hfits : Multiset.card M + count < 2 ^ 32) :
    Represents (trie.insert l count) (M + Multiset.replicate count (T.id l)) := by
  classical
  have hstart : trie.root.span.start < T.mismatch trie.root.span.ledger l := by
    rw [h.span]
    exact pos_mismatch _ _
  have hend : trie.root.span.end ≤ T.mismatch trie.root.span.ledger l := by
    rw [h.span]
    exact pos_mismatch _ _
  obtain ⟨hsound, hsame, htips, haddresses, hspan, -⟩ := @Node.Sound.insert T l count trie.next
    trie.root h.sound hstart hcount (by rw [h.sound.branch_eq, h.tips]; exact hfits) (.inr hend)
  have hnew : (trie.root.addresses + {trie.next, trie.next + 1}).Nodup := by
    refine Multiset.nodup_add.mpr ⟨h.nodup, ?_, ?_⟩
    · simp
    · rw [Multiset.disjoint_left]
      intro a ha ha'
      have := h.fresh a ha
      simp only [Multiset.insert_eq_cons, Multiset.mem_cons, Multiset.mem_singleton] at ha'
      omega
  refine ⟨hsound, (hspan hend).trans h.span, hsame.parent.trans h.parent, ?_,
    Multiset.nodup_of_le haddresses hnew, fun a ha => ?_, ?_⟩
  · rw [← h.tips]
    exact htips
  · have hmem := Multiset.mem_of_le haddresses ha
    change a < trie.next + 2
    rcases Multiset.mem_add.mp hmem with hmem | hmem
    · have := h.fresh a hmem
      omega
    · simp only [Multiset.insert_eq_cons, Multiset.mem_cons, Multiset.mem_singleton] at hmem
      omega
  · refine h.seqSupport.add hcount ?_ fun t => ?_
    · exact lt_of_le_of_lt (Nat.add_le_add_right (Multiset.countP_le_card _ _) _) hfits
    · rw [Multiset.countP_add, countP_atSeq]
      split_ifs
      · rfl
      · rfl

theorem Represents.tipSupport_eq (h : Represents trie M) (l : T.Ledger) :
    trie.tipSupport l = Multiset.count (T.id l) M := by
  rw [← h.tips, LedgerTrie.tipSupport]
  cases hfind : trie.root.findByLedgerID (T.id l) with
  | none => exact (Multiset.count_eq_zero.mpr ((h.sound.findByLedgerID_spec _).2 hfind)).symm
  | some loc => exact ((h.sound.findByLedgerID_spec _).1 loc hfind).count_eq.symm

open scoped Classical in
theorem Represents.branchSupport_eq (h : Represents trie M) (l : T.Ledger) :
    trie.branchSupport l = Multiset.countP (fun y => On y (T.seq l) (T.id l)) M := by
  rw [← h.tips, LedgerTrie.branchSupport]
  split
  next loc hfind =>
    have hfound := (h.sound.findByLedgerID_spec _).1 loc hfind
    obtain ⟨hloc₁, hloc₂⟩ := hfound.sound.span_lt
    have hseq : loc.span.end - 1 = T.seq l :=
      (T.unique loc.span.ledger l _ _ (by omega) le_rfl hfound.tip).1
    rw [← hseq]
    exact hfound.countP_eq.symm
  next =>
    refine (h.sound.find_spec ?_).symm
    rw [h.span]
    exact pos_mismatch _ _

/-- **Removing takes from the multiset, and reports whether there was something to take.** -/
theorem Represents.remove (h : Represents trie M) (hfits : Multiset.card M < 2 ^ 32) (l : T.Ledger)
    (count : ℕ) :
    Represents (trie.remove l count).1 (M - Multiset.replicate count (T.id l)) ∧
      ((trie.remove l count).2 = true ↔ 0 < Multiset.count (T.id l) M) := by
  classical
  have hnothing : Multiset.count (T.id l) M = 0 → M - Multiset.replicate count (T.id l) = M := by
    intro hzero
    ext y
    rw [Multiset.count_sub, Multiset.count_replicate]
    split_ifs with hy
    · rw [← hy, hzero, Nat.zero_sub]
    · exact Nat.sub_zero _
  have htip := h.tipSupport_eq l
  rw [LedgerTrie.tipSupport] at htip
  rw [LedgerTrie.remove]
  cases hfind : trie.root.findByLedgerID (T.id l) with
  | none =>
    rw [hfind] at htip
    rw [hnothing htip.symm, ← htip]
    exact ⟨h, by simp⟩
  | some loc =>
    rw [hfind] at htip
    change loc.tipSupport = _ at htip
    dsimp only
    by_cases hzero : loc.tipSupport = 0
    · rw [if_pos hzero, hnothing (htip.symm.trans hzero), ← htip, hzero]
      exact ⟨h, by simp⟩
    · rw [if_neg hzero]
      have hsome := @Node.Sound.isSome_findByLedgerID T (T.id l) (min count loc.tipSupport) trie.root
        h.sound
      rw [hfind] at hsome
      obtain ⟨⟨root, more⟩, hremove⟩ := Option.isSome_iff_exists.mp hsome
      have hcount : min count loc.tipSupport ≤ Multiset.count (T.id l) trie.root.tips := by
        rw [h.tips, ← htip]
        exact Nat.min_le_right _ _
      obtain ⟨hsound, hspan, hparent, htips, haddresses, -⟩ := h.sound.removeTip_spec
        (by rw [h.sound.branch_eq, h.tips]; exact hfits) hcount hremove
      rw [h.tips] at htips hcount
      rw [hremove]
      have htips' : root.tips = M - Multiset.replicate count (T.id l) := by
        ext y
        have hy := congrArg (Multiset.count y) htips
        rw [Multiset.count_add, Multiset.count_replicate] at hy
        rw [Multiset.count_sub, Multiset.count_replicate]
        split_ifs at hy ⊢ with hid
        · subst hid
          omega
        · omega
      refine ⟨⟨hsound, hspan.trans h.span, hparent.trans h.parent, htips',
        Multiset.nodup_of_le haddresses h.nodup, fun a ha => h.fresh a (Multiset.mem_of_le haddresses ha),
        ?_⟩, ?_⟩
      · have hsplit : ∀ t, Multiset.countP (AtSeq t) M = Multiset.countP (AtSeq t) root.tips +
            if t = T.seq l then min count loc.tipSupport else 0 := fun t => by
          rw [← countP_atSeq, ← Multiset.countP_add, htips]
        refine h.seqSupport.sub ?_ ?_ fun t => ?_
        · rw [hsplit, if_pos rfl]
          exact Nat.le_add_left _ _
        · exact lt_of_le_of_lt (Multiset.countP_le_card _ _) hfits
        · rw [hsplit, ← htips']
          split_ifs
          · rw [Nat.add_sub_cancel]
          · rfl
      · rw [← htip]
        exact ⟨fun _ => Nat.pos_of_ne_zero hzero, fun _ => rfl⟩

end

/-! ### Runs -/

/-- What is done to a trie. -/
inductive TrieOp (T : LedgerTraits)
  | insert (ledger : T.Ledger) (count : ℕ)
  | remove (ledger : T.Ledger) (count : ℕ)

def LedgerTrie.apply (trie : LedgerTrie T) : TrieOp T → LedgerTrie T
  | .insert ledger count => trie.insert ledger count
  | .remove ledger count => (trie.remove ledger count).1

/-- What is done to the multiset. -/
def counted (M : Multiset T.ID) : TrieOp T → Multiset T.ID
  | .insert ledger count => M + Multiset.replicate count (T.id ledger)
  | .remove ledger count => M - Multiset.replicate count (T.id ledger)

theorem count_counted_insert (M : Multiset T.ID) (l : T.Ledger) (count : ℕ) :
    Multiset.count (T.id l) (counted M (.insert l count)) = Multiset.count (T.id l) M + count := by
  rw [counted, Multiset.count_add, Multiset.count_replicate_self]

theorem Represents.run {trie : LedgerTrie T} {M : Multiset T.ID} (h : Represents trie M)
    (ops : List (TrieOp T)) (hpos : ∀ l count, .insert l count ∈ ops → 1 ≤ count)
    (hfits : ∀ done, done <+: ops → Multiset.card (done.foldl counted M) < 2 ^ 32) :
    Represents (ops.foldl LedgerTrie.apply trie) (ops.foldl counted M) := by
  induction ops generalizing trie M with
  | nil => exact h
  | cons op ops ih =>
    have hpos' : ∀ l count, .insert l count ∈ ops → 1 ≤ count := fun l count hmem =>
      hpos l count (List.mem_cons_of_mem _ hmem)
    have hfits' : ∀ done, done <+: ops →
        Multiset.card (done.foldl counted (counted M op)) < 2 ^ 32 := fun done hdone =>
      hfits (op :: done) (List.cons_prefix_cons.mpr ⟨rfl, hdone⟩)
    have hbefore : Multiset.card M < 2 ^ 32 := hfits [] List.nil_prefix
    refine ih ?_ hpos' hfits'
    cases op with
    | insert l count =>
      refine h.insert l (hpos l count List.mem_cons_self) ?_
      have hafter := hfits' [] List.nil_prefix
      simpa [counted] using hafter
    | remove l count => exact (h.remove hbefore l count).1

open scoped Classical in
/-- **The trie counts ledgers.** After any insertions and removals, as long as there are fewer than `2 ^ 32`
ledgers: the trie represents the multiset, tip supports are numbers of ledgers, branch supports are numbers
of ledgers with their descendants, and a removal reports whether the ledger had tip support. -/
theorem trie_counts_ledgers (ops : List (TrieOp T))
    (hpos : ∀ l count, .insert l count ∈ ops → 1 ≤ count)
    (hfits : ∀ done, done <+: ops → Multiset.card (done.foldl counted (0 : Multiset T.ID)) < 2 ^ 32) :
    Represents (ops.foldl LedgerTrie.apply LedgerTrie.empty) (ops.foldl counted 0) ∧
      ∀ l, (ops.foldl LedgerTrie.apply LedgerTrie.empty).tipSupport l =
          Multiset.count (T.id l) (ops.foldl counted 0) ∧
        (ops.foldl LedgerTrie.apply LedgerTrie.empty).branchSupport l =
          Multiset.countP (fun y => On y (T.seq l) (T.id l)) (ops.foldl counted 0) ∧
        ∀ count, ((ops.foldl LedgerTrie.apply LedgerTrie.empty).remove l count).2 = true ↔
          0 < (ops.foldl LedgerTrie.apply LedgerTrie.empty).tipSupport l := by
  have hrun := represents_empty.run ops hpos hfits
  refine ⟨hrun, fun l => ⟨hrun.tipSupport_eq l, hrun.branchSupport_eq l, fun count => ?_⟩⟩
  rw [hrun.tipSupport_eq l]
  exact (hrun.remove (hfits ops List.prefix_rfl) l count).2

/-- Ledgers on one chain, by their sequence numbers. -/
def chain : LedgerTraits where
  Ledger := ℕ
  ID := ℕ
  genesis := (0 : ℕ)
  seq := fun l => l
  ancestor := fun _ s => s
  mismatch := fun a b => min a b + 1
  seq_genesis := rfl
  ancestor_genesis := fun _ => rfl
  unique := fun _ _ _ _ _ _ h => ⟨h, fun _ _ => rfl⟩
  agree_of_lt_mismatch := fun a b p hp => by
    refine ⟨?_, ?_, rfl⟩
    · exact (Nat.le_of_lt_succ hp).trans (Nat.min_le_left a b)
    · exact (Nat.le_of_lt_succ hp).trans (Nat.min_le_right a b)
  differ_at_mismatch := fun a b ha hb =>
    absurd (Nat.le_min.mpr ⟨ha, hb⟩) (Nat.not_succ_le_self (min a b))

/-- Ledgers 3 and 5 are supported, and one of the two validations of ledger 3 is withdrawn. -/
def chainOps : List (TrieOp chain) := [.insert (3 : ℕ) 2, .insert (5 : ℕ) 1, .remove (3 : ℕ) 1]

theorem trie_counts_ledgers_recorded :
    (chainOps.foldl LedgerTrie.apply LedgerTrie.empty).tipSupport (3 : ℕ) = 1 ∧
      Multiset.count (chain.id (3 : ℕ)) (chainOps.foldl counted 0) =
        (chainOps.foldl LedgerTrie.apply LedgerTrie.empty).tipSupport (3 : ℕ) := by
  refine ⟨by decide +kernel, ((trie_counts_ledgers chainOps ?_ ?_).2 (3 : ℕ)).1.symm⟩
  · intro l count hmem
    rcases List.mem_cons.mp hmem with heq | hmem
    · cases heq
      exact Nat.le_succ 1
    · rcases List.mem_cons.mp hmem with heq | hmem
      · cases heq
        exact le_rfl
      · exact nomatch List.mem_singleton.mp hmem
  · have hall : ∀ done ∈ chainOps.inits,
        Multiset.card (done.foldl counted (0 : Multiset chain.ID)) < 2 ^ 32 := by decide +kernel
    exact fun done hdone => hall done ((List.mem_inits _ _).mpr hdone)

/-- Ledger 3. -/
def third : chain.Ledger := (3 : ℕ)

/-- The supports are of 32 bits: a ledger with `2 ^ 32` validations has tip support zero. -/
theorem tipSupport_wraps :
    ((LedgerTrie.empty.apply (.insert third (2 ^ 32 - 1))).apply (.insert third 1)).tipSupport third = 0 ∧
      Multiset.count (chain.id third)
        (counted (counted 0 (.insert third (2 ^ 32 - 1))) (.insert third 1)) = 2 ^ 32 := by
  refine ⟨by decide +kernel, ?_⟩
  rw [count_counted_insert, count_counted_insert, Multiset.count_zero]
  decide

end FalconLedger.Consensus
