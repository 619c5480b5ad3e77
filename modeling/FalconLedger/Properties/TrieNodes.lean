import FalconLedger.Consensus.LedgerTrie
import Mathlib.Algebra.BigOperators.Group.Multiset.Basic
import Mathlib.Tactic.Abel
import Mathlib.Tactic.Ring

/-!
# Nodes of the ancestry trie

A node of a `LedgerTrie` stands for the multiset of the ledgers supported in its subtree. The
representation invariant, and what inserting a ledger, removing it and the two ways of looking it up do to
a node that has it.
-/

namespace FalconLedger.Consensus

variable {T : LedgerTraits}

/-! ### Histories -/

/-- The ancestor of a ledger at a sequence number, in terms of ids. -/
def On (x : T.ID) (p : ℕ) (y : T.ID) : Prop :=
  ∃ a s, s ≤ T.seq a ∧ T.ancestor a s = x ∧ p ≤ s ∧ T.ancestor a p = y

theorem on_iff {a : T.Ledger} {s p : ℕ} {y : T.ID} (hs : s ≤ T.seq a) :
    On (T.ancestor a s) p y ↔ p ≤ s ∧ T.ancestor a p = y := by
  constructor
  · rintro ⟨b, t, ht, hid, hp, rfl⟩
    obtain ⟨rfl, hagree⟩ := T.unique b a t s ht hs hid
    exact ⟨hp, (hagree p hp).symm⟩
  · rintro ⟨hp, hy⟩
    exact ⟨a, s, hs, rfl, hp, hy⟩

theorem On.mono {a : T.Ledger} {x : T.ID} {q p : ℕ} (h : On x q (T.ancestor a q)) (hq : q ≤ T.seq a)
    (hp : p ≤ q) : On x p (T.ancestor a p) := by
  obtain ⟨b, s, hs, rfl, hqs, heq⟩ := h
  obtain ⟨-, hagree⟩ := T.unique b a q q (hqs.trans hs) hq heq
  exact (on_iff hs).mpr ⟨hp.trans hqs, hagree p hp⟩

theorem On.unique {x y y' : T.ID} {p : ℕ} (h : On x p y) (h' : On x p y') : y = y' := by
  obtain ⟨a, s, hs, rfl, hp, rfl⟩ := h
  exact ((on_iff hs).mp h').2

theorem agree_below {a b : T.Ledger} {s p : ℕ} (ha : s ≤ T.seq a) (hb : s ≤ T.seq b)
    (h : T.ancestor a s = T.ancestor b s) (hp : p ≤ s) : T.ancestor a p = T.ancestor b p :=
  (T.unique a b s s ha hb h).2 p hp

theorem lt_mismatch {a b : T.Ledger} {s : ℕ} (ha : s ≤ T.seq a) (hb : s ≤ T.seq b)
    (h : T.ancestor a s = T.ancestor b s) : s < T.mismatch a b := by
  by_contra hle
  have hle := not_lt.mp hle
  exact T.differ_at_mismatch a b (hle.trans ha) (hle.trans hb) (agree_below ha hb h hle)

theorem mismatch_le_seq (a b : T.Ledger) :
    T.mismatch a b ≤ T.seq a + 1 ∧ T.mismatch a b ≤ T.seq b + 1 := by
  rcases Nat.eq_zero_or_pos (T.mismatch a b) with h | h
  · omega
  · obtain ⟨ha, hb, -⟩ := T.agree_of_lt_mismatch a b (T.mismatch a b - 1) (by omega)
    omega

theorem pos_mismatch (a b : T.Ledger) : 0 < T.mismatch a b :=
  lt_mismatch (Nat.zero_le _) (Nat.zero_le _)
    ((T.ancestor_genesis a).trans (T.ancestor_genesis b).symm)

/-! ### Spans -/

namespace Span

variable {s : Span T} {l : T.Ledger} {p : ℕ}

theorem diff_eq (h : s.start < T.mismatch s.ledger l) : s.diff l = min (T.mismatch s.ledger l) s.end := by
  unfold diff clamp
  omega

theorem lt_diff_iff (hs : s.start < s.end) :
    s.start < s.diff l ↔ s.start < T.mismatch s.ledger l := by
  unfold diff clamp
  omega

theorem from_of_lt (hs : s.start ≤ p) (hp : p < s.end) : s.from p = some ⟨p, s.end, s.ledger⟩ := by
  have hfrom : s.clamp p = p := by unfold clamp; omega
  have hto : s.clamp s.end = s.end := by unfold clamp; omega
  simp only [«from», sub, hfrom, hto, if_pos hp]

theorem from_of_le (hp : s.end ≤ p) : s.from p = none := by
  have hle : ¬s.clamp p < s.clamp s.end := by unfold clamp; omega
  simp only [«from», sub, if_neg hle]

theorem before_of_lt (hs : s.start < p) (hp : p ≤ s.end) :
    s.before p = some ⟨s.start, p, s.ledger⟩ := by
  have hfrom : s.clamp s.start = s.start := by unfold clamp; omega
  have hto : s.clamp p = p := by unfold clamp; omega
  simp only [before, sub, hfrom, hto, if_pos hs]

end Span

/-! ### The meaning of a trie -/

namespace Node

mutual

/-- The ledgers a node and its descendants stand for. -/
def tips : Node T → Multiset T.ID
  | mk _ span tipSupport _ children _ => Multiset.replicate tipSupport span.tipID + tipsAmong children

def tipsAmong : List (Node T) → Multiset T.ID
  | [] => 0
  | child :: rest => tips child + tipsAmong rest

end

mutual

/-- The addresses of a node and its descendants. -/
def addresses : Node T → Multiset ℕ
  | mk address _ _ _ children _ => address ::ₘ addressesAmong children

def addressesAmong : List (Node T) → Multiset ℕ
  | [] => 0
  | child :: rest => addresses child + addressesAmong rest

end

theorem tipsAmong_eq (cs : List (Node T)) : tipsAmong cs = (cs.map tips).sum := by
  induction cs with
  | nil => rfl
  | cons c cs ih => rw [tipsAmong, ih, List.map_cons, List.sum_cons]

theorem addressesAmong_eq (cs : List (Node T)) : addressesAmong cs = (cs.map addresses).sum := by
  induction cs with
  | nil => rfl
  | cons c cs ih => rw [addressesAmong, ih, List.map_cons, List.sum_cons]

theorem mem_tipsAmong {cs : List (Node T)} {x : T.ID} : x ∈ tipsAmong cs ↔ ∃ c ∈ cs, x ∈ c.tips := by
  induction cs with
  | nil => simp [tipsAmong]
  | cons c cs ih => simp [tipsAmong, ih]

theorem tipsAmong_middle (pre post : List (Node T)) (c : Node T) :
    tipsAmong (pre ++ c :: post) = c.tips + tipsAmong (pre ++ post) := by
  simp only [tipsAmong_eq, List.map_append, List.map_cons, List.sum_append, List.sum_cons]
  abel

theorem addressesAmong_middle (pre post : List (Node T)) (c : Node T) :
    addressesAmong (pre ++ c :: post) = c.addresses + addressesAmong (pre ++ post) := by
  simp only [addressesAmong_eq, List.map_append, List.map_cons, List.sum_append, List.sum_cons]
  abel

/-- A node without tip support has at least two children. -/
def Full (n : Node T) : Prop := n.tipSupport = 0 → 2 ≤ n.children.length

/-- What a node's child is: its span goes on where the parent's ends, on a ledger that descends from the
parent's tip, and it is linked to its parent. -/
structure Child (address : ℕ) (span : Span T) (c : Node T) : Prop where
  start : c.span.start = span.end
  history : T.ancestor c.span.ledger (span.end - 1) = span.tipID
  parent : c.parent = some address
  full : c.Full

/-- **The representation invariant** of a node and its descendants. -/
inductive Sound : Node T → Prop
  | mk {address : ℕ} {span : Span T} {tipSupport branchSupport : ℕ} {children : List (Node T)}
      {parent : Option ℕ} (hspan : span.start < span.end) (hledger : span.end ≤ T.seq span.ledger + 1)
      (hbranch : branchSupport = tipSupport + (children.map Node.branchSupport).sum)
      (hchild : ∀ c ∈ children, Child address span c)
      (hsiblings : children.Pairwise fun c c' => c.span.startID ≠ c'.span.startID)
      (hsound : ∀ c ∈ children, Sound c) :
      Sound (.mk address span tipSupport branchSupport children parent)

theorem Sound.span_lt {n : Node T} (h : Sound n) :
    n.span.start < n.span.end ∧ n.span.end ≤ T.seq n.span.ledger + 1 := by
  cases h with
  | mk hspan hledger => exact ⟨hspan, hledger⟩

theorem Sound.on_tips {n : Node T} (h : Sound n) :
    ∀ x ∈ n.tips, ∀ p < n.span.end, On x p (T.ancestor n.span.ledger p) := by
  induction h with
  | @mk address span tipSupport branchSupport children parent hspan hledger _ hchild _ hsound ih =>
    intro x hx p hp
    have hp' : p ≤ span.end - 1 := by simp only [Node.span] at hp; omega
    have htip : span.end - 1 ≤ T.seq span.ledger := by omega
    rw [tips, Multiset.mem_add] at hx
    rcases hx with hx | hx
    · rw [Multiset.eq_of_mem_replicate hx]
      exact (on_iff htip).mpr ⟨hp', rfl⟩
    · obtain ⟨c, hc, hx⟩ := mem_tipsAmong.mp hx
      obtain ⟨hstart, hhistory, -, -⟩ := hchild c hc
      obtain ⟨hc₁, hc₂⟩ := (hsound c hc).span_lt
      have htip' := ih c hc x hx (span.end - 1) (by omega)
      rw [hhistory] at htip'
      exact htip'.mono htip hp'

private theorem sum_branchSupport {cs : List (Node T)}
    (h : ∀ c ∈ cs, c.branchSupport = Multiset.card c.tips) :
    (cs.map branchSupport).sum = Multiset.card (tipsAmong cs) := by
  induction cs with
  | nil => rfl
  | cons c cs ih =>
    rw [List.map_cons, List.sum_cons, tipsAmong, Multiset.card_add, h c List.mem_cons_self,
      ih fun c hc => h c (List.mem_cons_of_mem _ hc)]

theorem Sound.branch_eq {n : Node T} (h : Sound n) : n.branchSupport = Multiset.card n.tips := by
  induction h with
  | mk _ _ hbranch _ _ _ ih =>
    rw [tips, Multiset.card_add, Multiset.card_replicate, Node.branchSupport, hbranch,
      sum_branchSupport ih]

theorem Sound.tip_notMem {address : ℕ} {span : Span T} {tipSupport branchSupport : ℕ}
    {children : List (Node T)} {parent : Option ℕ}
    (h : Sound (.mk address span tipSupport branchSupport children parent)) :
    span.tipID ∉ tipsAmong children := by
  cases h with
  | mk hspan hledger _ hchild _ hsound =>
    intro hmem
    obtain ⟨c, hc, hx⟩ := mem_tipsAmong.mp hmem
    obtain ⟨hc₁, hc₂⟩ := (hsound c hc).span_lt
    have hon := (hsound c hc).on_tips _ hx (c.span.end - 1) (by omega)
    have hle := ((on_iff (by omega : span.end - 1 ≤ T.seq span.ledger)).mp hon).1
    have hstart := (hchild c hc).start
    omega

/-! ### Trees with one node replaced -/

/-- What a parent sees of a child stays. -/
structure Same (n n' : Node T) : Prop where
  parent : n'.parent = n.parent
  start : n'.span.start = n.span.start
  history : ∀ p ≤ n.span.start, T.ancestor n'.span.ledger p = T.ancestor n.span.ledger p

theorem Same.startID {n n' : Node T} (h : Same n n') : n'.span.startID = n.span.startID := by
  unfold Span.startID
  rw [h.start]
  exact h.history _ le_rfl

theorem Child.same {address : ℕ} {span : Span T} {c c' : Node T} (h : Child address span c)
    (hsame : Same c c') (hfull : c'.Full) : Child address span c' where
  start := hsame.start.trans h.start
  history := by
    rw [hsame.history _ (by have := h.start; omega)]
    exact h.history
  parent := hsame.parent.trans h.parent
  full := hfull

variable {address : ℕ} {span : Span T} {tipSupport branchSupport : ℕ} {children : List (Node T)}
  {parent : Option ℕ}

theorem Sound.replace {pre post : List (Node T)} {c c' : Node T} {branchSupport' : ℕ}
    (h : Sound (.mk address span tipSupport branchSupport (pre ++ c :: post) parent))
    (hsound : Sound c') (hsame : Same c c') (hfull : c'.Full)
    (hbranch : branchSupport' + c.branchSupport = branchSupport + c'.branchSupport) :
    Sound (.mk address span tipSupport branchSupport' (pre ++ c' :: post) parent) := by
  cases h with
  | mk hspan hledger hold hchild hsiblings hall =>
    refine .mk hspan hledger ?_ (fun d hd => ?_) ?_ fun d hd => ?_
    · simp only [List.map_append, List.map_cons, List.sum_append, List.sum_cons] at hold ⊢
      omega
    · rcases List.mem_append.mp hd with hd | hd
      · exact hchild d (List.mem_append_left _ hd)
      · rcases List.mem_cons.mp hd with rfl | hd
        · exact (hchild c (by simp)).same hsame hfull
        · exact hchild d (by simp [hd])
    · simp only [List.pairwise_append, List.pairwise_cons, List.mem_cons, forall_eq_or_imp,
        hsame.startID] at hsiblings ⊢
      exact hsiblings
    · rcases List.mem_append.mp hd with hd | hd
      · exact hall d (List.mem_append_left _ hd)
      · rcases List.mem_cons.mp hd with rfl | hd
        · exact hsound
        · exact hall d (by simp [hd])

/-! ### Inserting -/

section Reparent

variable {a : ℕ}

@[simp] theorem setParent_span (n : Node T) : (n.setParent a).span = n.span := by
  cases n
  rfl

@[simp] theorem setParent_branchSupport (n : Node T) :
    (n.setParent a).branchSupport = n.branchSupport := by
  cases n
  rfl

@[simp] theorem setParent_tips (n : Node T) : (n.setParent a).tips = n.tips := by
  cases n
  rfl

@[simp] theorem setParent_addresses (n : Node T) : (n.setParent a).addresses = n.addresses := by
  cases n
  rfl

theorem setParent_parent (n : Node T) : (n.setParent a).parent = some a := by
  cases n
  rfl

theorem Full.setParent {n : Node T} (h : n.Full) : (n.setParent a).Full := by
  cases n
  exact h

theorem Sound.setParent {n : Node T} (h : Sound n) : Sound (n.setParent a) := by
  cases h with
  | mk hspan hledger hbranch hchild hsiblings hsound =>
    exact .mk hspan hledger hbranch hchild hsiblings hsound

theorem tipsAmong_setParent (cs : List (Node T)) : tipsAmong (cs.map (setParent a)) = tipsAmong cs := by
  induction cs with
  | nil => rfl
  | cons c cs ih => rw [List.map_cons, tipsAmong, tipsAmong, setParent_tips, ih]

theorem addressesAmong_setParent (cs : List (Node T)) :
    addressesAmong (cs.map (setParent a)) = addressesAmong cs := by
  induction cs with
  | nil => rfl
  | cons c cs ih => rw [List.map_cons, addressesAmong, addressesAmong, setParent_addresses, ih]

theorem Sound.lower (h : Sound (.mk address span tipSupport branchSupport children parent)) {m : ℕ}
    (hm : m < span.end) (parent' : Option ℕ) :
    Sound (.mk a ⟨m, span.end, span.ledger⟩ tipSupport branchSupport
      (children.map (Node.setParent a)) parent') := by
  cases h with
  | mk hspan hledger hbranch hchild hsiblings hsound =>
    refine .mk hm hledger ?_ (fun c hc => ?_) ?_ fun c hc => ?_
    · rw [List.map_map, hbranch]
      congr 2
      exact List.map_congr_left fun c _ => (setParent_branchSupport c).symm
    · obtain ⟨c₀, hc₀, rfl⟩ := List.mem_map.mp hc
      obtain ⟨hstart, hhistory, -, hfull⟩ := hchild c₀ hc₀
      refine ⟨?_, ?_, setParent_parent c₀, hfull.setParent⟩
      · rw [setParent_span]
        exact hstart
      · rw [setParent_span]
        exact hhistory
    · rw [List.pairwise_map]
      simp only [setParent_span]
      exact hsiblings
    · obtain ⟨c₀, hc₀, rfl⟩ := List.mem_map.mp hc
      exact (hsound c₀ hc₀).setParent

end Reparent

/-- What inserting a ledger does to a node. -/
structure Inserted (ledger : T.Ledger) (count next : ℕ) (n n' : Node T) : Prop where
  sound : Sound n'
  same : Same n n'
  tips : n'.tips = n.tips + Multiset.replicate count (T.id ledger)
  addresses : n'.addresses ≤ n.addresses + {next, next + 1}
  span : n.span.end ≤ T.mismatch n.span.ledger ledger → n'.span = n.span
  full : n.Full → n'.Full

theorem add32_eq {a b : ℕ} (h : a + b < 2 ^ 32) : add32 a b = a + b := Nat.mod_eq_of_lt h

section Insert

variable {ledger : T.Ledger} {count next : ℕ}

theorem sound_leaf {m : ℕ} (hm : m ≤ T.seq ledger) :
    Sound (T := T) (.mk address ⟨m, T.seq ledger + 1, ledger⟩ count count [] parent) :=
  .mk (Nat.lt_succ_of_le hm) le_rfl rfl nofun List.Pairwise.nil nofun

/-- The lower part of a node that is cut. -/
private abbrev lowerPart (address : ℕ) (span : Span T) (tipSupport branchSupport : ℕ)
    (children : List (Node T)) (next m : ℕ) : Node T :=
  .mk next ⟨m, span.end, span.ledger⟩ tipSupport branchSupport (children.map (setParent next))
    (some address)

private theorem lowerPart_tips (parent : Option ℕ) (m : ℕ) :
    (lowerPart address span tipSupport branchSupport children next m).tips =
      (Node.mk address span tipSupport branchSupport children parent).tips := by
  simp only [tips, tipsAmong_setParent]
  rfl

private theorem lowerPart_addresses (m : ℕ) :
    (lowerPart address span tipSupport branchSupport children next m).addresses =
      next ::ₘ addressesAmong children := by
  simp only [addresses, addressesAmong_setParent]

private theorem insertHere_inside_eq
    (hstart : span.start < T.mismatch span.ledger ledger)
    (hend : T.mismatch span.ledger ledger < span.end) (hfits : branchSupport + count < 2 ^ 32) :
    insertHere ledger count next (T.mismatch span.ledger ledger)
        (.mk address span tipSupport branchSupport children parent) =
      if T.mismatch span.ledger ledger ≤ T.seq ledger then
        .mk address ⟨span.start, T.mismatch span.ledger ledger, span.ledger⟩ 0 (branchSupport + count)
          [lowerPart address span tipSupport branchSupport children next
              (T.mismatch span.ledger ledger),
            .mk (next + 1) ⟨T.mismatch span.ledger ledger, T.seq ledger + 1, ledger⟩ count count []
              (some address)] parent
      else
        .mk address ⟨span.start, T.mismatch span.ledger ledger, span.ledger⟩ count
          (branchSupport + count)
          [lowerPart address span tipSupport branchSupport children next
            (T.mismatch span.ledger ledger)] parent := by
  have hbranch : add32 branchSupport count = branchSupport + count := add32_eq hfits
  have hzero : add32 0 count = count := by rw [add32_eq (by omega), Nat.zero_add]
  rw [insertHere, Span.from_of_lt hstart.le hend, Span.before_of_lt hstart hend.le]
  split_ifs with hseq
  · have hfrom : (Span.ofLedger ledger).from (T.mismatch span.ledger ledger) =
        some ⟨T.mismatch span.ledger ledger, T.seq ledger + 1, ledger⟩ :=
      Span.from_of_lt (Nat.zero_le _) (Nat.lt_succ_of_le hseq)
    simp only [hfrom, hbranch, hzero, Option.getD_some]
    rfl
  · have hfrom : (Span.ofLedger ledger).from (T.mismatch span.ledger ledger) = none :=
      Span.from_of_le (not_le.mp hseq)
    simp only [hfrom, hbranch, hzero, Option.getD_some]

theorem insertHere_inside (h : Sound (.mk address span tipSupport branchSupport children parent))
    (hfull : Full (.mk address span tipSupport branchSupport children parent))
    (hstart : span.start < T.mismatch span.ledger ledger)
    (hend : T.mismatch span.ledger ledger < span.end) (hcount : 0 < count)
    (hfits : branchSupport + count < 2 ^ 32) :
    Inserted ledger count next (.mk address span tipSupport branchSupport children parent)
      (insertHere ledger count next (T.mismatch span.ledger ledger)
        (.mk address span tipSupport branchSupport children parent)) := by
  obtain ⟨-, hledger⟩ := h.span_lt
  simp only [Node.span] at hledger
  have hlower := @Sound.lower T address span tipSupport branchSupport children parent next h
    (T.mismatch span.ledger ledger) hend (some address)
  have hchild : Child address ⟨span.start, T.mismatch span.ledger ledger, span.ledger⟩
      (lowerPart address span tipSupport branchSupport children next
        (T.mismatch span.ledger ledger)) := by
    refine ⟨rfl, rfl, rfl, fun htip => ?_⟩
    rw [Node.children, List.length_map]
    exact hfull htip
  rw [insertHere_inside_eq hstart hend hfits]
  split_ifs with hseq
  · have hleaf := @sound_leaf T (next + 1) (some address) ledger count _ hseq
    refine ⟨.mk hstart (by simp only; omega) ?_ (fun c hc => ?_) ?_ fun c hc => ?_,
      ⟨rfl, rfl, fun _ _ => rfl⟩, ?_, ?_, fun hle => absurd hend (not_lt.mpr hle),
      fun _ _ => le_rfl⟩
    · simp [Node.branchSupport]
    · rcases List.mem_pair.mp hc with rfl | rfl
      · exact hchild
      · refine ⟨rfl, ?_, rfl, fun htip => absurd htip hcount.ne'⟩
        exact (T.agree_of_lt_mismatch span.ledger ledger (T.mismatch span.ledger ledger - 1)
          (by omega)).2.2.symm
    · refine List.pairwise_pair.mpr ?_
      exact T.differ_at_mismatch span.ledger ledger (by omega) hseq
    · rcases List.mem_pair.mp hc with rfl | rfl
      · exact hlower
      · exact hleaf
    · rw [tips, tipsAmong, tipsAmong, tipsAmong, lowerPart_tips parent]
      simp [tips, tipsAmong, Span.tipID, LedgerTraits.id]
    · rw [addresses, addressesAmong, addressesAmong, addressesAmong, lowerPart_addresses, addresses,
        addressesAmong, addresses]
      refine le_of_eq ?_
      simp only [← Multiset.singleton_add, Multiset.insert_eq_cons]
      abel
  · have hseq' : T.mismatch span.ledger ledger = T.seq ledger + 1 :=
      le_antisymm (mismatch_le_seq span.ledger ledger).2 (not_le.mp hseq)
    refine ⟨.mk hstart (by simp only; omega) ?_ (fun c hc => ?_) (List.pairwise_singleton _ _)
      fun c hc => ?_, ⟨rfl, rfl, fun _ _ => rfl⟩, ?_, ?_,
      fun hle => absurd hend (not_lt.mpr hle), fun _ htip => absurd htip hcount.ne'⟩
    · simp [Node.branchSupport, add_comm]
    · rw [List.mem_singleton.mp hc]
      exact hchild
    · rw [List.mem_singleton.mp hc]
      exact hlower
    · have htip : Span.tipID ⟨span.start, T.mismatch span.ledger ledger, span.ledger⟩ = T.id ledger := by
        have hagree := (T.agree_of_lt_mismatch span.ledger ledger (T.mismatch span.ledger ledger - 1)
          (by omega)).2.2
        rw [Span.tipID, hagree, hseq']
        rfl
      rw [tips, tipsAmong, tipsAmong, lowerPart_tips parent, htip, add_zero, add_comm]
    · rw [addresses, addressesAmong, addressesAmong, lowerPart_addresses, addresses]
      simp only [← Multiset.singleton_add, Multiset.insert_eq_cons]
      calc ({address} + ({next} + addressesAmong children + 0) : Multiset ℕ)
          = {address} + addressesAmong children + {next} := by abel
        _ ≤ {address} + addressesAmong children + {next} + {next + 1} := Multiset.le_add_right _ _
        _ = {address} + addressesAmong children + ({next} + {next + 1}) := add_assoc _ _ _

private theorem insertHere_end_eq (htip : tipSupport ≤ branchSupport)
    (hfits : branchSupport + count < 2 ^ 32) :
    insertHere ledger count next span.end
        (.mk address span tipSupport branchSupport children parent) =
      if span.end ≤ T.seq ledger then
        .mk address span tipSupport (branchSupport + count)
          (children ++ [.mk (next + 1) ⟨span.end, T.seq ledger + 1, ledger⟩ count count []
            (some address)]) parent
      else .mk address span (tipSupport + count) (branchSupport + count) children parent := by
  have hbranch : add32 branchSupport count = branchSupport + count := add32_eq hfits
  have hzero : add32 0 count = count := by rw [add32_eq (by omega), Nat.zero_add]
  have hsum : add32 tipSupport count = tipSupport + count := add32_eq (by omega)
  rw [insertHere, Span.from_of_le le_rfl]
  split_ifs with hseq
  · have hfrom : (Span.ofLedger ledger).from span.end =
        some ⟨span.end, T.seq ledger + 1, ledger⟩ :=
      Span.from_of_lt (Nat.zero_le _) (Nat.lt_succ_of_le hseq)
    simp only [hfrom, hbranch, hzero]
  · have hfrom : (Span.ofLedger ledger).from span.end = none := Span.from_of_le (not_le.mp hseq)
    simp only [hfrom, hbranch, hsum]

theorem startID_ne (h : Sound (.mk address span tipSupport branchSupport children parent))
    {c : Node T} (hc : c ∈ children) (hend : span.end ≤ T.mismatch span.ledger ledger)
    (hseq : span.end ≤ T.seq ledger) (hdiff : ¬span.end < c.span.diff ledger) :
    c.span.startID ≠ T.ancestor ledger span.end := by
  cases h with
  | mk hspan hledger _ hchild _ hsound =>
    obtain ⟨hstart, hhistory, -, -⟩ := hchild c hc
    obtain ⟨hc₁, hc₂⟩ := (hsound c hc).span_lt
    rw [← hstart, Span.lt_diff_iff hc₁, not_lt] at hdiff
    -- they agree up to the end of the parent, and so differ right there
    have hparent := (T.agree_of_lt_mismatch span.ledger ledger (span.end - 1) (by omega)).2.2
    have hlt : span.end - 1 < T.mismatch c.span.ledger ledger :=
      lt_mismatch (by omega) (by omega) (hhistory.trans hparent)
    have hmismatch : T.mismatch c.span.ledger ledger = span.end := by omega
    have hdiffer := T.differ_at_mismatch c.span.ledger ledger (by omega) (by omega)
    rw [hmismatch] at hdiffer
    rw [Span.startID, hstart]
    exact hdiffer

/-- The ledger goes on from the end of the node, and no child goes with it. -/
theorem insertHere_end (h : Sound (.mk address span tipSupport branchSupport children parent))
    (hend : span.end ≤ T.mismatch span.ledger ledger) (hcount : 0 < count)
    (hfits : branchSupport + count < 2 ^ 32)
    (hnone : ∀ c ∈ children, ¬span.end < c.span.diff ledger) :
    Inserted ledger count next (.mk address span tipSupport branchSupport children parent)
      (insertHere ledger count next span.end
        (.mk address span tipSupport branchSupport children parent)) := by
  have hne := fun c hc hseq => @startID_ne T address span tipSupport branchSupport children parent
    ledger h c hc hend hseq (hnone c hc)
  cases h with
  | mk hspan hledger hbranch hchild hsiblings hsound =>
  have hagree := (T.agree_of_lt_mismatch span.ledger ledger (span.end - 1) (by omega)).2.2
  rw [insertHere_end_eq (by omega) hfits]
  split_ifs with hseq
  · refine ⟨.mk hspan hledger ?_ (fun c hc => ?_) ?_ fun c hc => ?_, ⟨rfl, rfl, fun _ _ => rfl⟩,
      ?_, ?_, fun _ => rfl, fun hfull htip => ?_⟩
    · simp only [List.map_append, List.sum_append, List.map_cons, List.map_nil, List.sum_cons,
        List.sum_nil, Node.branchSupport]
      omega
    · rcases List.mem_append.mp hc with hc | hc
      · exact hchild c hc
      · rw [List.mem_singleton.mp hc]
        exact ⟨rfl, hagree.symm, rfl, fun htip => absurd htip hcount.ne'⟩
    · refine List.pairwise_append.mpr ⟨hsiblings, List.pairwise_singleton _ _, fun c hc d hd => ?_⟩
      rw [List.mem_singleton.mp hd]
      exact hne c hc hseq
    · rcases List.mem_append.mp hc with hc | hc
      · exact hsound c hc
      · rw [List.mem_singleton.mp hc]
        exact sound_leaf hseq
    · have hleaf : Span.tipID ⟨span.end, T.seq ledger + 1, ledger⟩ = T.id ledger := rfl
      rw [tips, tips, tipsAmong_eq, tipsAmong_eq, List.map_append, List.sum_append, List.map_cons,
        List.map_nil, List.sum_cons, List.sum_nil, tips, tipsAmong, hleaf, add_zero, add_zero,
        add_assoc]
    · rw [addresses, addresses, addressesAmong_eq, addressesAmong_eq, List.map_append,
        List.sum_append, List.map_cons, List.map_nil, List.sum_cons, List.sum_nil, addresses,
        addressesAmong]
      simp only [← Multiset.singleton_add, Multiset.insert_eq_cons]
      calc ({address} + ((children.map addresses).sum + ({next + 1} + 0 + 0)) : Multiset ℕ)
          = {address} + (children.map addresses).sum + {next + 1} := by abel
        _ ≤ {address} + (children.map addresses).sum + {next + 1} + {next} :=
          Multiset.le_add_right _ _
        _ = {address} + (children.map addresses).sum + ({next} + {next + 1}) := by abel
    · rw [Node.children, List.length_append]
      exact Nat.le_add_right_of_le (hfull htip)
  · have hseq' : T.seq ledger + 1 = span.end :=
      le_antisymm (not_le.mp hseq) (hend.trans (mismatch_le_seq span.ledger ledger).2)
    have htip : span.tipID = T.id ledger := by
      rw [Span.tipID, hagree, ← hseq']
      rfl
    refine ⟨.mk hspan hledger (by omega) hchild hsiblings hsound, ⟨rfl, rfl, fun _ _ => rfl⟩,
      ?_, ?_, fun _ => rfl, fun _ htip => ?_⟩
    · rw [tips, tips, Multiset.replicate_add, htip]
      abel
    · exact Multiset.le_add_right _ _
    · simp only [Node.tipSupport] at htip
      omega

theorem insertAmong_cases (pos : ℕ) (cs : List (Node T)) :
    (insertAmong ledger count next pos cs = none ∧ ∀ c ∈ cs, ¬pos < c.span.diff ledger) ∨
      ∃ pre c post, cs = pre ++ c :: post ∧ pos < c.span.diff ledger ∧
        insertAmong ledger count next pos cs = some (pre ++ insert ledger count next c :: post) := by
  induction cs with
  | nil => exact .inl ⟨by rw [insertAmong], nofun⟩
  | cons c cs ih =>
    by_cases hc : pos < c.span.diff ledger
    · exact .inr ⟨[], c, cs, rfl, hc, by rw [insertAmong, if_pos hc, List.nil_append]⟩
    · rcases ih with ⟨hnone, hall⟩ | ⟨pre, d, post, rfl, hd, hsome⟩
      · refine .inl ⟨by rw [insertAmong, if_neg hc, hnone, Option.map_none], fun d hd => ?_⟩
        rcases List.mem_cons.mp hd with rfl | hd
        · exact hc
        · exact hall d hd
      · exact .inr ⟨c :: pre, d, post, rfl, hd, by
          rw [insertAmong, if_neg hc, hsome, Option.map_some, List.cons_append]⟩

/-- **Inserting a ledger adds it to the ledgers of the node.** -/
theorem Sound.insert {n : Node T} (h : Sound n)
    (hstart : n.span.start < T.mismatch n.span.ledger ledger) (hcount : 0 < count)
    (hfits : n.branchSupport + count < 2 ^ 32)
    (hfull : n.Full ∨ n.span.end ≤ T.mismatch n.span.ledger ledger) :
    Inserted ledger count next n (n.insert ledger count next) := by
  induction h with
  | @mk address span tipSupport branchSupport children parent hspan hledger hbranch hchild hsiblings
      hsound ih =>
    have hn : Sound (.mk address span tipSupport branchSupport children parent) :=
      .mk hspan hledger hbranch hchild hsiblings hsound
    simp only [Node.span, Node.branchSupport] at hstart hfits hfull
    rw [Node.insert, Span.diff_eq hstart]
    rcases Nat.lt_or_ge (T.mismatch span.ledger ledger) span.end with hlt | hge
    · rw [min_eq_left hlt.le, if_neg hlt.ne]
      exact insertHere_inside hn (hfull.resolve_right (not_le.mpr hlt)) hstart hlt hcount hfits
    · rw [min_eq_right hge, if_pos rfl]
      rcases @insertAmong_cases T ledger count next span.end children with
        ⟨hnone, hall⟩ | ⟨pre, c, post, rfl, hc, hsome⟩
      · rw [hnone]
        exact insertHere_end hn hge hcount hfits hall
      · rw [hsome]
        have hmem : c ∈ pre ++ c :: post := List.mem_append_right _ List.mem_cons_self
        obtain ⟨hcstart, -, -, hcfull⟩ := hchild c hmem
        obtain ⟨hc₁, -⟩ := (hsound c hmem).span_lt
        rw [← hcstart, Span.lt_diff_iff hc₁] at hc
        have hle : c.branchSupport ≤ branchSupport := by
          rw [List.map_append, List.map_cons, List.sum_append, List.sum_cons] at hbranch
          omega
        obtain ⟨hsound', hsame, htips, haddresses, -, hfull'⟩ :=
          ih c hmem hc (by omega) (.inl hcfull)
        have hcard : (Node.insert ledger count next c).branchSupport = c.branchSupport + count := by
          rw [hsound'.branch_eq, htips, Multiset.card_add, Multiset.card_replicate,
            ← (hsound c hmem).branch_eq]
        refine ⟨?_, ⟨rfl, rfl, fun _ _ => rfl⟩, ?_, ?_, fun _ => rfl, fun hfull htip => ?_⟩
        · rw [add32_eq hfits]
          exact hn.replace hsound' hsame (hfull' hcfull) (by omega)
        · rw [tips, tips, tipsAmong_middle, tipsAmong_middle, htips]
          abel
        · rw [addresses, addresses, addressesAmong_middle, addressesAmong_middle]
          simp only [← Multiset.singleton_add, Multiset.insert_eq_cons] at haddresses ⊢
          calc ({address} + ((Node.insert ledger count next c).addresses + addressesAmong (pre ++ post)) :
                Multiset ℕ)
              ≤ {address} + (c.addresses + ({next} + {next + 1}) + addressesAmong (pre ++ post)) :=
                add_le_add le_rfl (add_le_add haddresses le_rfl)
            _ = {address} + (c.addresses + addressesAmong (pre ++ post)) + ({next} + {next + 1}) := by
                abel
        · have hlength := hfull htip
          simp only [Node.children, List.length_append, List.length_cons] at hlength ⊢
          exact hlength

end Insert

/-! ### Looking up -/

theorem Sound.countP_child {pre post : List (Node T)} {c : Node T}
    (h : Sound (.mk address span tipSupport branchSupport (pre ++ c :: post) parent))
    {Q : T.ID → Prop} [DecidablePred Q] (hQ : ∀ y, Q y → On y span.end c.span.startID) :
    Multiset.countP Q (tips (.mk address span tipSupport branchSupport (pre ++ c :: post) parent)) =
      Multiset.countP Q c.tips := by
  cases h with
  | mk hspan hledger _ hchild hsiblings hsound =>
    rw [tips, tipsAmong_middle, Multiset.countP_add, Multiset.countP_add]
    have htip : Multiset.countP Q (Multiset.replicate tipSupport span.tipID) = 0 := by
      rw [Multiset.countP_eq_zero]
      intro y hy hQy
      rw [Multiset.eq_of_mem_replicate hy] at hQy
      have hle := ((on_iff (by omega : span.end - 1 ≤ T.seq span.ledger)).mp (hQ _ hQy)).1
      omega
    have hothers : Multiset.countP Q (tipsAmong (pre ++ post)) = 0 := by
      rw [Multiset.countP_eq_zero]
      intro y hy hQy
      obtain ⟨d, hd, hy⟩ := mem_tipsAmong.mp hy
      have hd' : d ∈ pre ++ c :: post := by
        rcases List.mem_append.mp hd with hd | hd
        · exact List.mem_append_left _ hd
        · exact List.mem_append_right _ (List.mem_cons_of_mem _ hd)
      have hstart := (hchild d hd').start
      obtain ⟨hd₁, -⟩ := (hsound d hd').span_lt
      have hon := (hsound d hd').on_tips y hy span.end (by omega)
      -- siblings start with different ids
      have hsame : d.span.startID = c.span.startID := by
        rw [Span.startID, hstart]
        exact hon.unique (hQ y hQy)
      obtain ⟨-, hpost, hpre⟩ := List.pairwise_append.mp hsiblings
      rcases List.mem_append.mp hd with hd | hd
      · exact hpre d hd c List.mem_cons_self hsame
      · exact (List.pairwise_cons.mp hpost).1 d hd hsame.symm
    rw [htip, hothers, Nat.zero_add, Nat.add_zero]

/-- A node found by the id of its tip. -/
structure Found (x : T.ID) (n m : Node T) : Prop where
  sound : Sound m
  tip : m.span.tipID = x
  on : ∀ p < n.span.end, On x p (T.ancestor n.span.ledger p)
  only : ∀ (Q : T.ID → Prop) [DecidablePred Q], (∀ y, Q y → On y (m.span.end - 1) x) →
    Multiset.countP Q n.tips = Multiset.countP Q m.tips

theorem findByLedgerIDAmong_cases (x : T.ID) (cs : List (Node T)) :
    (findByLedgerIDAmong x cs = none ∧ ∀ c ∈ cs, findByLedgerID x c = none) ∨
      ∃ pre c post m, cs = pre ++ c :: post ∧ findByLedgerID x c = some m ∧
        findByLedgerIDAmong x cs = some m := by
  induction cs with
  | nil => exact .inl ⟨by rw [findByLedgerIDAmong], nofun⟩
  | cons c cs ih =>
    cases hc : findByLedgerID x c with
    | some m => exact .inr ⟨[], c, cs, m, rfl, hc, by rw [findByLedgerIDAmong, hc, Option.some_or]⟩
    | none =>
      rcases ih with ⟨hnone, hall⟩ | ⟨pre, d, post, m, rfl, hd, hsome⟩
      · refine .inl ⟨by rw [findByLedgerIDAmong, hc, hnone, Option.none_or], fun d hd => ?_⟩
        rcases List.mem_cons.mp hd with rfl | hd
        · exact hc
        · exact hall d hd
      · exact .inr ⟨c :: pre, d, post, m, rfl, hd, by
          rw [findByLedgerIDAmong, hc, hsome, Option.none_or]⟩

/-- **Searching by id finds the node of a ledger, and misses only ledgers without support.** -/
theorem Sound.findByLedgerID_spec {n : Node T} (h : Sound n) (x : T.ID) :
    (∀ m, n.findByLedgerID x = some m → Found x n m) ∧
      (n.findByLedgerID x = none → x ∉ n.tips) := by
  induction h with
  | @mk address span tipSupport branchSupport children parent hspan hledger hbranch hchild hsiblings
      hsound ih =>
    have hn : Sound (.mk address span tipSupport branchSupport children parent) :=
      .mk hspan hledger hbranch hchild hsiblings hsound
    have htip : span.end - 1 ≤ T.seq span.ledger := by omega
    rw [Node.findByLedgerID]
    by_cases hx : x = span.tipID
    · rw [if_pos hx]
      refine ⟨fun m hm => ?_, nofun⟩
      obtain rfl := Option.some.inj hm
      refine ⟨hn, hx.symm, fun p hp => ?_, fun _ _ _ => rfl⟩
      rw [hx]
      simp only [Node.span] at hp ⊢
      exact (on_iff htip).mpr ⟨by omega, rfl⟩
    · rw [if_neg hx]
      rcases findByLedgerIDAmong_cases x children with ⟨hnone, hall⟩ | ⟨pre, c, post, m, rfl, hc, hsome⟩
      · rw [hnone]
        refine ⟨nofun, fun _ hmem => ?_⟩
        rw [tips, Multiset.mem_add] at hmem
        rcases hmem with hmem | hmem
        · exact hx (Multiset.eq_of_mem_replicate hmem)
        · obtain ⟨c, hc, hmem⟩ := mem_tipsAmong.mp hmem
          exact (ih c hc).2 (hall c hc) hmem
      · rw [hsome]
        refine ⟨fun m' hm' => ?_, nofun⟩
        obtain rfl := Option.some.inj hm'
        have hmem : c ∈ pre ++ c :: post := List.mem_append_right _ List.mem_cons_self
        obtain ⟨hstart, hhistory, -, -⟩ := hchild c hmem
        obtain ⟨hc₁, hc₂⟩ := (hsound c hmem).span_lt
        obtain ⟨hm, hmtip, hon, honly⟩ := (ih c hmem).1 m hc
        obtain ⟨hm₁, hm₂⟩ := hm.span_lt
        have hmle : m.span.end - 1 ≤ T.seq m.span.ledger := by omega
        refine ⟨hm, hmtip, fun p hp => ?_, fun Q _ hQ => ?_⟩
        · have hend := hon (span.end - 1) (by omega)
          rw [hhistory] at hend
          simp only [Node.span] at hp ⊢
          exact hend.mono htip (by omega)
        · refine (hn.countP_child fun y hy => ?_).trans (honly Q hQ)
          -- what descends from the node found descends from the start of the child
          have hyx := hQ y hy
          have hle : span.end ≤ m.span.end - 1 := by
            have hstartOn := hon span.end (by omega)
            rw [← hmtip, Span.tipID, on_iff hmle] at hstartOn
            exact hstartOn.1
          rw [← hmtip, Span.tipID] at hyx
          have hyend := hyx.mono hmle hle
          have heq : T.ancestor m.span.ledger span.end = T.ancestor c.span.ledger span.end := by
            have hstartOn := hon span.end (by omega)
            rw [← hmtip, Span.tipID, on_iff hmle] at hstartOn
            exact hstartOn.2
          rw [heq] at hyend
          rw [Span.startID, hstart]
          exact hyend

theorem Found.count_eq {x : T.ID} {n m : Node T} (h : Found x n m) :
    Multiset.count x n.tips = m.tipSupport := by
  obtain ⟨hsound, htip, -, honly⟩ := h
  obtain ⟨hm₁, hm₂⟩ := hsound.span_lt
  have hself : On x (m.span.end - 1) x := by
    rw [← htip, Span.tipID]
    exact (on_iff (by omega)).mpr ⟨le_rfl, rfl⟩
  have hcount : Multiset.count x n.tips = Multiset.count x m.tips :=
    honly (x = ·) fun y hy => hy ▸ hself
  rw [hcount]
  cases m with
  | mk address span tipSupport branchSupport children parent =>
    obtain rfl := htip
    have hchildren : Multiset.count span.tipID (tipsAmong children) = 0 :=
      Multiset.count_eq_zero.mpr hsound.tip_notMem
    rw [tips, Multiset.count_add, Node.span, hchildren, Multiset.count_replicate_self]
    rfl

theorem Found.countP_eq {x : T.ID} {n m : Node T} (h : Found x n m)
    [DecidablePred fun y => On y (m.span.end - 1) x] :
    Multiset.countP (fun y => On y (m.span.end - 1) x) n.tips = m.branchSupport := by
  obtain ⟨hm₁, -⟩ := h.sound.span_lt
  rw [h.only _ fun y hy => hy, h.sound.branch_eq, Multiset.countP_eq_card]
  intro y hy
  rw [← h.tip]
  exact h.sound.on_tips y hy _ (by omega)

section Find

variable {ledger : T.Ledger}

theorem findAmong_cases (pos : ℕ) (cs : List (Node T)) :
    (findAmong ledger pos cs = none ∧ ∀ c ∈ cs, ¬pos < c.span.diff ledger) ∨
      ∃ pre c post, cs = pre ++ c :: post ∧ pos < c.span.diff ledger ∧
        findAmong ledger pos cs = some (find ledger c) := by
  induction cs with
  | nil => exact .inl ⟨by rw [findAmong], nofun⟩
  | cons c cs ih =>
    by_cases hc : pos < c.span.diff ledger
    · exact .inr ⟨[], c, cs, rfl, hc, by rw [findAmong, if_pos hc]⟩
    · rcases ih with ⟨hnone, hall⟩ | ⟨pre, d, post, rfl, hd, hsome⟩
      · refine .inl ⟨by rw [findAmong, if_neg hc, hnone], fun d hd => ?_⟩
        rcases List.mem_cons.mp hd with rfl | hd
        · exact hc
        · exact hall d hd
      · exact .inr ⟨c :: pre, d, post, rfl, hd, by rw [findAmong, if_neg hc, hsome]⟩

theorem Sound.countP_of_on {n : Node T} (h : Sound n) [DecidablePred fun y => On y (T.seq ledger) (T.id ledger)]
    (hseq : T.seq ledger < n.span.end)
    (hid : T.ancestor n.span.ledger (T.seq ledger) = T.id ledger) :
    Multiset.countP (fun y => On y (T.seq ledger) (T.id ledger)) n.tips = n.branchSupport := by
  rw [h.branch_eq, Multiset.countP_eq_card]
  intro y hy
  rw [← hid]
  exact h.on_tips y hy _ hseq

/-- **Searching by ancestry finds the node whose ledgers descend from a ledger.** -/
theorem Sound.find_spec {n : Node T} (h : Sound n)
    [DecidablePred fun y => On y (T.seq ledger) (T.id ledger)]
    (hstart : n.span.start < T.mismatch n.span.ledger ledger) :
    Multiset.countP (fun y => On y (T.seq ledger) (T.id ledger)) n.tips =
      if T.seq ledger < (n.find ledger).2 ∧ T.seq ledger < (n.find ledger).1.span.end then
        (n.find ledger).1.branchSupport
      else 0 := by
  induction h with
  | @mk address span tipSupport branchSupport children parent hspan hledger hbranch hchild hsiblings
      hsound ih =>
    have hn : Sound (.mk address span tipSupport branchSupport children parent) :=
      .mk hspan hledger hbranch hchild hsiblings hsound
    have hle := (mismatch_le_seq span.ledger ledger).2
    simp only [Node.span] at hstart
    rw [Node.find, Span.diff_eq hstart]
    -- a ledger below the mismatch is the same on both
    have hsame : T.seq ledger < T.mismatch span.ledger ledger →
        T.ancestor span.ledger (T.seq ledger) = T.id ledger := fun hlt =>
      (T.agree_of_lt_mismatch span.ledger ledger _ hlt).2.2
    rcases Nat.lt_or_ge (T.mismatch span.ledger ledger) span.end with hlt | hge
    · rw [min_eq_left hlt.le, if_neg hlt.ne]
      split_ifs with hcond
      · exact hn.countP_of_on hcond.2 (hsame hcond.1)
      · rw [Multiset.countP_eq_zero]
        intro y hy hon
        have hcond : ¬(T.seq ledger < T.mismatch span.ledger ledger ∧ T.seq ledger < span.end) := hcond
        have hseq : T.mismatch span.ledger ledger ≤ T.seq ledger := by omega
        have hy₁ := hn.on_tips y hy (T.mismatch span.ledger ledger) hlt
        have hy₂ := On.mono hon le_rfl hseq
        exact T.differ_at_mismatch span.ledger ledger (by omega) hseq (hy₁.unique hy₂)
    · rw [min_eq_right hge, if_pos rfl]
      rcases @findAmong_cases T ledger span.end children with ⟨hnone, hall⟩ | ⟨pre, c, post, rfl, hc, hsome⟩
      · rw [hnone, Option.getD_none]
        split_ifs with hcond
        · exact hn.countP_of_on hcond.2 (hsame (lt_of_lt_of_le hcond.1 hge))
        · rw [Multiset.countP_eq_zero]
          intro y hy hon
          have hcond : ¬(T.seq ledger < span.end ∧ T.seq ledger < span.end) := hcond
          have hseq : span.end ≤ T.seq ledger := by omega
          rw [tips, Multiset.mem_add] at hy
          rcases hy with hy | hy
          · rw [Multiset.eq_of_mem_replicate hy, Span.tipID, on_iff (by omega)] at hon
            omega
          · obtain ⟨c, hc, hy⟩ := mem_tipsAmong.mp hy
            obtain ⟨hc₁, -⟩ := (hsound c hc).span_lt
            have hcstart := (hchild c hc).start
            have hy₁ := (hsound c hc).on_tips y hy span.end (by omega)
            have hy₂ := On.mono hon le_rfl hseq
            refine startID_ne hn hc hge hseq (hall c hc) ?_
            rw [Span.startID, hcstart]
            exact hy₁.unique hy₂
      · rw [hsome, Option.getD_some]
        have hmem : c ∈ pre ++ c :: post := List.mem_append_right _ List.mem_cons_self
        have hcstart := (hchild c hmem).start
        obtain ⟨hc₁, -⟩ := (hsound c hmem).span_lt
        rw [← hcstart, Span.lt_diff_iff hc₁] at hc
        refine (hn.countP_child fun y hy => ?_).trans (ih c hmem hc)
        obtain ⟨-, hseq, hagree⟩ := T.agree_of_lt_mismatch c.span.ledger ledger _ hc
        rw [Span.startID, hagree, hcstart]
        exact On.mono hy le_rfl (hcstart ▸ hseq)

end Find

/-! ### Removing -/

theorem sub32_eq {a b : ℕ} (hb : b ≤ a) (ha : a < 2 ^ 32) : sub32 a b = a - b := by
  unfold sub32
  omega

theorem tipsAmong_perm {cs cs' : List (Node T)} (h : cs.Perm cs') : tipsAmong cs = tipsAmong cs' := by
  rw [tipsAmong_eq, tipsAmong_eq]
  exact (h.map tips).sum_eq

theorem addressesAmong_perm {cs cs' : List (Node T)} (h : cs.Perm cs') :
    addressesAmong cs = addressesAmong cs' := by
  rw [addressesAmong_eq, addressesAmong_eq]
  exact (h.map addresses).sum_eq

theorem eraseFirst_perm (c : Node T) (rest : List (Node T)) : (eraseFirst (c :: rest)).Perm rest := by
  rcases List.eq_nil_or_concat rest with rfl | ⟨init, last, rfl⟩
  · exact List.Perm.refl _
  · rw [eraseFirst, List.concat_eq_append, List.getLast?_concat, List.dropLast_concat]
    exact (List.perm_append_singleton last init).symm

theorem Sound.erase {pre post cs : List (Node T)} {c : Node T} {branchSupport' : ℕ}
    (h : Sound (.mk address span tipSupport branchSupport (pre ++ c :: post) parent))
    (hperm : cs.Perm (pre ++ post)) (hbranch : branchSupport' + c.branchSupport = branchSupport) :
    Sound (.mk address span tipSupport branchSupport' cs parent) := by
  cases h with
  | mk hspan hledger hold hchild hsiblings hall =>
    have hsub : List.Sublist (pre ++ post) (pre ++ c :: post) :=
      List.Sublist.append_left (List.sublist_cons_self c post) pre
    refine .mk hspan hledger ?_ (fun d hd => ?_) ?_ fun d hd => ?_
    · rw [(hperm.map Node.branchSupport).sum_eq]
      simp only [List.map_append, List.map_cons, List.sum_append, List.sum_cons] at hold ⊢
      omega
    · exact hchild d (hsub.subset (hperm.subset hd))
    · rw [hperm.pairwise_iff fun hne => hne.symm]
      exact hsiblings.sublist hsub
    · exact hall d (hsub.subset (hperm.subset hd))

/-- What taking support from a ledger does to a node. -/
structure Removed (x : T.ID) (count : ℕ) (n n' : Node T) (more : Bool) : Prop where
  sound : Sound n'
  span : n'.span = n.span
  parent : n'.parent = n.parent
  tips : n'.tips + Multiset.replicate count x = n.tips
  addresses : n'.addresses ≤ n.addresses
  full : more = false → n.Full → n'.Full

theorem Removed.same {x : T.ID} {count : ℕ} {n n' : Node T} {more : Bool}
    (h : Removed x count n n' more) : Same n n' := by
  refine ⟨h.parent, ?_, fun p _ => ?_⟩
  · rw [h.span]
  · rw [h.span]

theorem Removed.branch_eq {x : T.ID} {count : ℕ} {n n' : Node T} {more : Bool}
    (h : Removed x count n n' more) (hn : Sound n) :
    n'.branchSupport + count = n.branchSupport := by
  rw [h.sound.branch_eq, hn.branch_eq, ← h.tips, Multiset.card_add, Multiset.card_replicate]

section Remove

variable {x : T.ID} {count : ℕ}

theorem removeTipAmong_cases (a : ℕ) (cs : List (Node T)) :
    (removeTipAmong x count a cs = none ∧ ∀ c ∈ cs, removeTip x count c = none) ∨
      ∃ pre c post c' more, cs = pre ++ c :: post ∧ removeTip x count c = some (c', more) ∧
        removeTipAmong x count a cs =
          some (pre ++ (if more then compress a c' post else (c' :: post, false)).1,
            (if more then compress a c' post else (c' :: post, false)).2) := by
  induction cs with
  | nil => exact .inl ⟨by rw [removeTipAmong], nofun⟩
  | cons c cs ih =>
    cases hc : removeTip x count c with
    | some found =>
      obtain ⟨c', more⟩ := found
      refine .inr ⟨[], c, cs, c', more, rfl, hc, ?_⟩
      cases more with
      | true => simp [removeTipAmong, hc]
      | false => simp [removeTipAmong, hc]
    | none =>
      rcases ih with ⟨hnone, hall⟩ | ⟨pre, d, post, c', more, rfl, hd, hsome⟩
      · refine .inl ⟨by simp [removeTipAmong, hc, hnone], fun d hd => ?_⟩
        rcases List.mem_cons.mp hd with rfl | hd
        · exact hc
        · exact hall d hd
      · exact .inr ⟨c :: pre, d, post, c', more, rfl, hd, by simp [removeTipAmong, hc, hsome]⟩

theorem Sound.isSome_findByLedgerID {n : Node T} (h : Sound n) :
    (removeTip x count n).isSome = (n.findByLedgerID x).isSome := by
  induction h with
  | @mk address span tipSupport branchSupport children parent _ _ _ _ _ _ ih =>
    rw [removeTip, Node.findByLedgerID]
    split_ifs
    · rfl
    · rw [Option.isSome_map]
      rcases @removeTipAmong_cases T x count address children with
        ⟨hnone, hall⟩ | ⟨pre, c, post, c', more, rfl, hc, hsome⟩
      · rcases findByLedgerIDAmong_cases x children with ⟨hnone', -⟩ | ⟨pre, c, post, m, rfl, hc, -⟩
        · rw [hnone, hnone']
          rfl
        · have hmem : c ∈ pre ++ c :: post := List.mem_append_right _ List.mem_cons_self
          have heq := ih c hmem
          rw [hall c hmem, hc] at heq
          exact nomatch heq
      · rcases findByLedgerIDAmong_cases x (pre ++ c :: post) with
          ⟨-, hall⟩ | ⟨pre', d, post', m, -, -, hsome'⟩
        · have hmem : c ∈ pre ++ c :: post := List.mem_append_right _ List.mem_cons_self
          have heq := ih c hmem
          rw [hall c hmem, hc] at heq
          exact nomatch heq
        · rw [hsome, hsome']
          rfl

theorem compress_cases (a : ℕ) (loc : Node T) (rest : List (Node T)) :
    (compress a loc rest = (loc :: rest, false) ∧ loc.Full) ∨
      (loc.tipSupport = 0 ∧ loc.children = [] ∧ compress a loc rest = (eraseFirst (loc :: rest), true)) ∨
      ∃ address span tipSupport branchSupport children parent, loc.tipSupport = 0 ∧
        loc.children = [.mk address span tipSupport branchSupport children parent] ∧
        compress a loc rest =
          (.mk address (loc.span.merge span) tipSupport branchSupport children (some a) :: rest, true) := by
  unfold compress
  by_cases htip : loc.tipSupport = 0
  · rw [if_pos htip]
    rcases hchildren : loc.children with _ | ⟨⟨address, span, tipSupport, branchSupport, children, parent⟩, _ | ⟨d, ds⟩⟩
    · exact .inr (.inl ⟨htip, rfl, rfl⟩)
    · exact .inr (.inr ⟨address, span, tipSupport, branchSupport, children, parent, htip, rfl, rfl⟩)
    · refine .inl ⟨rfl, fun _ => ?_⟩
      rw [hchildren]
      exact Nat.le_add_left 2 ds.length
  · rw [if_neg htip]
    exact .inl ⟨rfl, fun h => absurd h htip⟩

theorem Sound.merge {loc : Node T} (h : Sound loc)
    (htip : loc.tipSupport = 0)
    (hchildren : loc.children = [.mk address span tipSupport branchSupport children parent]) {a : ℕ}
    (hparent : loc.parent = some a) :
    Sound (.mk address (loc.span.merge span) tipSupport branchSupport children (some a)) ∧
      Same loc (.mk address (loc.span.merge span) tipSupport branchSupport children (some a)) ∧
      Full (.mk address (loc.span.merge span) tipSupport branchSupport children (some a)) ∧
      tips (.mk address (loc.span.merge span) tipSupport branchSupport children (some a)) = loc.tips ∧
      addresses (.mk address (loc.span.merge span) tipSupport branchSupport children (some a)) ≤
        loc.addresses ∧
      branchSupport = loc.branchSupport := by
  cases h with
  | @mk laddress lspan ltip lbranch lchildren lparent hspan hledger hbranch hchild _ hsound =>
    simp only [Node.tipSupport, Node.children, Node.parent] at htip hchildren hparent
    subst htip hchildren hparent
    obtain ⟨hstart, hhistory, -, hfull⟩ := hchild _ (List.mem_singleton_self _)
    simp only [Node.span] at hstart hhistory
    cases hsound _ (List.mem_singleton_self _) with
    | mk hgspan hgledger hgbranch hgchild hgsiblings hgsound =>
      have hmerge : lspan.merge span = ⟨lspan.start, span.end, span.ledger⟩ := by
        have hlt : lspan.end < span.end := by omega
        have hmin : min lspan.start span.start = lspan.start := by omega
        rw [Span.merge, if_pos hlt, hmin]
      simp only [Node.span, hmerge]
      refine ⟨.mk (by simp only; omega) hgledger hgbranch (fun d hd => ?_) hgsiblings hgsound,
        ⟨rfl, rfl, fun p hp => ?_⟩, hfull, ?_, ?_, ?_⟩
      · obtain ⟨hdstart, hdhistory, hdparent, hdfull⟩ := hgchild d hd
        exact ⟨hdstart, hdhistory, hdparent, hdfull⟩
      · have hp' : p ≤ lspan.end - 1 := by simp only [Node.span] at hp; omega
        exact @agree_below T span.ledger lspan.ledger (lspan.end - 1) p (by omega) (by omega) hhistory hp'
      · simp only [tips, tipsAmong, Multiset.replicate_zero, zero_add, add_zero]
        rfl
      · simp only [addresses, addressesAmong, add_zero]
        exact Multiset.le_cons_self _ _
      · simp only [Node.branchSupport, hbranch, List.map_cons, List.map_nil, List.sum_cons,
          List.sum_nil, Nat.zero_add, Nat.add_zero]

theorem Sound.compress {pre post : List (Node T)} {c c' : Node T} {branchSupport' : ℕ}
    (h : Sound (.mk address span tipSupport branchSupport (pre ++ c :: post) parent))
    (hc : Removed x count c c' true) (hbranch : branchSupport' + count = branchSupport) :
    Sound (.mk address span tipSupport branchSupport'
        (pre ++ (Node.compress address c' post).1) parent) ∧
      tipsAmong (pre ++ (Node.compress address c' post).1) + Multiset.replicate count x =
        tipsAmong (pre ++ c :: post) ∧
      addressesAmong (pre ++ (Node.compress address c' post).1) ≤ addressesAmong (pre ++ c :: post) ∧
      ((Node.compress address c' post).2 = false →
        (pre ++ (Node.compress address c' post).1).length = (pre ++ c :: post).length) := by
  have hmem : c ∈ pre ++ c :: post := List.mem_append_right _ List.mem_cons_self
  have hn := h
  cases h with
  | mk hspan hledger hold hchild hsiblings hall =>
  obtain ⟨-, -, hcparent, -⟩ := hchild c hmem
  have hcbranch := hc.branch_eq (hall c hmem)
  have htips : ∀ d, Node.tips d = c'.tips →
      tipsAmong (pre ++ d :: post) + Multiset.replicate count x = tipsAmong (pre ++ c :: post) := by
    intro d hd
    rw [tipsAmong_middle, tipsAmong_middle, ← hc.tips, hd]
    abel
  have haddresses : ∀ d, Node.addresses d ≤ c'.addresses →
      addressesAmong (pre ++ d :: post) ≤ addressesAmong (pre ++ c :: post) := by
    intro d hd
    rw [addressesAmong_middle, addressesAmong_middle]
    exact add_le_add (hd.trans hc.addresses) le_rfl
  rcases compress_cases address c' post with ⟨heq, hfull⟩ | ⟨htip, hchildren, heq⟩ |
      ⟨gaddress, gspan, gtip, gbranch, gchildren, gparent, htip, hchildren, heq⟩
  · rw [heq]
    exact ⟨hn.replace hc.sound hc.same hfull (by omega), htips c' rfl, haddresses c' le_rfl,
      fun _ => by simp⟩
  · rw [heq]
    have hperm : (pre ++ eraseFirst (c' :: post)).Perm (pre ++ post) :=
      (eraseFirst_perm c' post).append_left pre
    have hempty : c'.tips = 0 := by
      cases c' with
      | mk a s t b cs p =>
        simp only [Node.tipSupport, Node.children] at htip hchildren
        subst htip hchildren
        rfl
    have hzero : c'.branchSupport = 0 := by rw [hc.sound.branch_eq, hempty, Multiset.card_zero]
    refine ⟨hn.erase hperm (by omega), ?_, ?_, nofun⟩
    · rw [tipsAmong_perm hperm, tipsAmong_middle, ← hc.tips, hempty]
      abel
    · rw [addressesAmong_perm hperm, addressesAmong_middle]
      exact Multiset.le_add_left _ _
  · rw [heq]
    obtain ⟨hsound, hsame, hfull, hgtips, hgaddresses, hgbranch⟩ :=
      hc.sound.merge htip hchildren (hc.parent.trans hcparent)
    have hsame' : Same c (.mk gaddress (c'.span.merge gspan) gtip gbranch gchildren (some address)) := by
      refine ⟨hsame.parent.trans hc.parent, hsame.start.trans (by rw [hc.span]), fun p hp => ?_⟩
      rw [hsame.history p (by rw [hc.span]; exact hp), hc.span]
    refine ⟨hn.replace hsound hsame' hfull ?_, htips _ hgtips, haddresses _ hgaddresses, nofun⟩
    change branchSupport' + c.branchSupport = branchSupport + gbranch
    omega

/-- **Removing takes a ledger from the ledgers of the node.** -/
theorem Sound.removeTip_spec {n : Node T} (h : Sound n) (hfits : n.branchSupport < 2 ^ 32)
    (hcount : count ≤ Multiset.count x n.tips) {n' : Node T} {more : Bool}
    (hremove : n.removeTip x count = some (n', more)) : Removed x count n n' more := by
  induction h generalizing n' more with
  | @mk address span tipSupport branchSupport children parent hspan hledger hbranch hchild hsiblings
      hsound ih =>
    have hn : Sound (.mk address span tipSupport branchSupport children parent) :=
      .mk hspan hledger hbranch hchild hsiblings hsound
    simp only [Node.branchSupport] at hfits
    rw [removeTip] at hremove
    split_ifs at hremove with hx
    · obtain ⟨rfl, rfl⟩ := Prod.mk.inj (Option.some.inj hremove)
      have htip : count ≤ tipSupport := by
        rw [tips, Multiset.count_add, hx, Multiset.count_replicate_self,
          Multiset.count_eq_zero.mpr hn.tip_notMem] at hcount
        exact hcount
      rw [sub32_eq htip (by omega), sub32_eq (by omega : count ≤ branchSupport) hfits]
      refine ⟨.mk hspan hledger (by omega) hchild hsiblings hsound, rfl, rfl, ?_, le_rfl, nofun⟩
      have hsplit : Multiset.replicate tipSupport span.tipID =
          Multiset.replicate (tipSupport - count) span.tipID +
            Multiset.replicate count span.tipID := by
        rw [← Multiset.replicate_add, Nat.sub_add_cancel htip]
      rw [tips, tips, hsplit, hx]
      abel
    · obtain ⟨found, hfound, hresult⟩ := Option.map_eq_some_iff.mp hremove
      obtain ⟨rfl, rfl⟩ := Prod.mk.inj hresult
      rcases @removeTipAmong_cases T x count address children with
        ⟨hnone, -⟩ | ⟨pre, c, post, c', more', rfl, hc, hsome⟩
      · exact absurd (hnone.symm.trans hfound) nofun
      · obtain rfl := Option.some.inj (hfound.symm.trans hsome)
        have hmem : c ∈ pre ++ c :: post := List.mem_append_right _ List.mem_cons_self
        obtain ⟨hstart, -, -, hcfull⟩ := hchild c hmem
        obtain ⟨hc₁, -⟩ := (hsound c hmem).span_lt
        have hle : c.branchSupport ≤ branchSupport := by
          rw [List.map_append, List.map_cons, List.sum_append, List.sum_cons] at hbranch
          omega
        -- all support of the ledger is in the child where it was found
        have hcount' : count ≤ Multiset.count x c.tips := by
          have hfind := @Sound.isSome_findByLedgerID T x count c (hsound c hmem)
          rw [hc] at hfind
          obtain ⟨m, hm⟩ := Option.isSome_iff_exists.mp hfind.symm
          have hon := (((hsound c hmem).findByLedgerID_spec x).1 m hm).on span.end (by omega)
          have hchildCount : Multiset.count x
              (tips (.mk address span tipSupport branchSupport (pre ++ c :: post) parent)) =
              Multiset.count x c.tips := by
            refine hn.countP_child (Q := (x = ·)) fun y hy => ?_
            rw [← hy, Span.startID, hstart]
            exact hon
          rw [← hchildCount]
          exact hcount
        have hremoved := ih c hmem (by omega) hcount' hc
        have hcbranch := hremoved.branch_eq (hsound c hmem)
        rw [sub32_eq (by omega : count ≤ branchSupport) hfits]
        cases more' with
        | true =>
          obtain ⟨hsound', htips, haddresses, hlength⟩ :=
            hn.compress hremoved (Nat.sub_add_cancel (by omega : count ≤ branchSupport))
          simp only [if_true]
          refine ⟨hsound', rfl, rfl, ?_, ?_, fun hmore hfull htip => ?_⟩
          · rw [tips, tips, add_assoc, htips]
          · rw [addresses, addresses]
            exact Multiset.cons_le_cons _ haddresses
          · rw [Node.children, hlength hmore]
            exact hfull htip
        | false =>
          simp only [Bool.false_eq_true, if_false]
          refine ⟨hn.replace hremoved.sound hremoved.same (hremoved.full rfl hcfull) (by omega), rfl, rfl,
            ?_, ?_, fun _ hfull htip => ?_⟩
          · rw [tips, tips, tipsAmong_middle, tipsAmong_middle, ← hremoved.tips]
            abel
          · rw [addresses, addresses, addressesAmong_middle, addressesAmong_middle]
            exact Multiset.cons_le_cons _ (add_le_add hremoved.addresses le_rfl)
          · have hlength := hfull htip
            simp only [Node.children, List.length_append, List.length_cons] at hlength ⊢
            exact hlength

end Remove

end Node

end FalconLedger.Consensus
