import Mathlib.Data.Fintype.Basic
import Mathlib.Data.List.Sort

/-!
# Radix trees

A tree with a branch for each of `b` digits, whose leaves carry keys. A tree is *canonical* when
every leaf lies on the path of its key (`Placed`) and every inner node below the root has two leaves
or more below it (`Canonical`). A canonical tree is determined by its leaves
(`Canonical.eq_of_mem_iff`), and a pass over the branches meets them in the order of their keys
(`Placed.pairwise_leaves`).
-/

/-- A tree with `b` branches at each inner node; `empty` is a branch with nothing on it. -/
inductive RadixTree (b : ℕ) (L : Type*)
  | empty
  | leaf (l : L)
  | inner (children : Fin b → RadixTree b L)

namespace RadixTree

variable {b : ℕ} {L K : Type*}

/-- A leaf of the tree. -/
def Mem (l : L) : RadixTree b L → Prop
  | empty => False
  | leaf l' => l = l'
  | inner c => ∃ i, Mem l (c i)

instance : Membership L (RadixTree b L) := ⟨fun t l => Mem l t⟩

@[simp] theorem not_mem_empty (l : L) : l ∉ (empty : RadixTree b L) := id

@[simp] theorem mem_leaf {l l' : L} : l ∈ (leaf l' : RadixTree b L) ↔ l = l' := Iff.rfl

@[simp] theorem mem_inner {l : L} {c : Fin b → RadixTree b L} : l ∈ inner c ↔ ∃ i, l ∈ c i := Iff.rfl

def isEmpty : RadixTree b L → Bool
  | empty => true
  | _ => false

theorem isEmpty_iff {t : RadixTree b L} : t.isEmpty = true ↔ t = empty := by
  cases t <;> simp [isEmpty]

section Digits

variable (digit : ℕ → K → Fin b) (key : L → K)

/-- At depth `d`, the leaves below each branch have its digit, and so on below. -/
def Placed (d : ℕ) : RadixTree b L → Prop
  | empty => True
  | leaf _ => True
  | inner c => (∀ i, Placed (d + 1) (c i)) ∧ ∀ i, ∀ l ∈ c i, digit d (key l) = i

/-- No inner node has fewer than two leaves below it. -/
def Branching : RadixTree b L → Prop
  | empty => True
  | leaf _ => True
  | inner c => (∀ i, Branching (c i)) ∧ ∃ l l', l ∈ inner c ∧ l' ∈ inner c ∧ l ≠ l'

/-- A tree below the root that holds its leaves as high up as can be. -/
structure Canonical (d : ℕ) (t : RadixTree b L) : Prop where
  placed : Placed digit key d t
  branching : Branching t

/-- Follow the digits of a key. -/
def find [DecidableEq K] (k : K) : ℕ → RadixTree b L → Option L
  | _, empty => none
  | _, leaf l => if key l = k then some l else none
  | d, inner c => find k (d + 1) (c (digit d k))

variable {digit key} {d : ℕ} {t t' : RadixTree b L} {k : K} {l l' : L}

theorem Canonical.child {c : Fin b → RadixTree b L} (h : Canonical digit key d (inner c)) (i : Fin b) :
    Canonical digit key (d + 1) (c i) :=
  ⟨h.placed.1 i, h.branching.1 i⟩

theorem Placed.eq_of_key_eq (h : Placed digit key d t) (hl : l ∈ t) (hl' : l' ∈ t)
    (hkey : key l = key l') : l = l' := by
  induction t generalizing d with
  | empty => exact absurd hl (not_mem_empty l)
  | leaf l₀ => exact (mem_leaf.mp hl).trans (mem_leaf.mp hl').symm
  | inner c ih =>
    obtain ⟨i, hi⟩ := mem_inner.mp hl
    obtain ⟨i', hi'⟩ := mem_inner.mp hl'
    have hsame : i = i' := by
      rw [← h.2 i l hi, ← h.2 i' l' hi', hkey]
    subst hsame
    exact ih i (h.1 i) hi hi'

/-- **Following the digits of a key finds its leaf.** -/
theorem Placed.find_eq_some [DecidableEq K] (h : Placed digit key d t) :
    find digit key k d t = some l ↔ l ∈ t ∧ key l = k := by
  induction t generalizing d with
  | empty => simp [find]
  | leaf l₀ =>
    simp only [find, Option.ite_none_right_eq_some, Option.some.injEq, mem_leaf]
    constructor
    · rintro ⟨hk, rfl⟩
      exact ⟨rfl, hk⟩
    · rintro ⟨rfl, hk⟩
      exact ⟨hk, rfl⟩
  | inner c ih =>
    rw [find, ih _ (h.1 _), mem_inner]
    constructor
    · rintro ⟨hl, hk⟩
      exact ⟨⟨_, hl⟩, hk⟩
    · rintro ⟨⟨i, hl⟩, hk⟩
      have hi := h.2 i l hl
      rw [hk] at hi
      rw [hi]
      exact ⟨hl, hk⟩

theorem Placed.find_eq_none [DecidableEq K] (h : Placed digit key d t) :
    find digit key k d t = none ↔ ∀ l ∈ t, key l ≠ k := by
  rw [Option.eq_none_iff_forall_ne_some]
  exact ⟨fun hne l hl hk => hne l (h.find_eq_some.mpr ⟨hl, hk⟩),
    fun hne l hfind => hne l (h.find_eq_some.mp hfind).1 (h.find_eq_some.mp hfind).2⟩

theorem Branching.eq_empty (h : Branching t) (hno : ∀ l, l ∉ t) : t = empty := by
  cases t with
  | empty => rfl
  | leaf l => exact absurd rfl (hno l)
  | inner c =>
    obtain ⟨-, l, -, hl, -, -⟩ := h
    exact absurd hl (hno l)

theorem Branching.eq_leaf (h : Branching t) (hl : ∀ x, x ∈ t ↔ x = l) : t = leaf l := by
  cases t with
  | empty => exact absurd ((hl l).mpr rfl) (not_mem_empty l)
  | leaf l₀ => rw [mem_leaf.mp ((hl l).mpr rfl)]
  | inner c =>
    obtain ⟨-, x, y, hx, hy, hne⟩ := h
    exact absurd (((hl x).mp hx).trans ((hl y).mp hy).symm) hne

theorem Placed.mem_child {c : Fin b → RadixTree b L} (h : Placed digit key d (inner c)) {i : Fin b} :
    l ∈ c i ↔ l ∈ inner c ∧ digit d (key l) = i := by
  constructor
  · exact fun hl => ⟨⟨i, hl⟩, h.2 i l hl⟩
  · rintro ⟨⟨i', hl⟩, rfl⟩
    rwa [h.2 i' l hl]

/-- **A canonical tree is determined by its leaves.** -/
theorem Canonical.eq_of_mem_iff (h : Canonical digit key d t) (h' : Canonical digit key d t')
    (hmem : ∀ l, l ∈ t ↔ l ∈ t') : t = t' := by
  induction t generalizing d t' with
  | empty => exact (h'.branching.eq_empty fun l hl => (hmem l).mpr hl).symm
  | leaf l => exact (h'.branching.eq_leaf fun x => (hmem x).symm).symm
  | inner c ih =>
    cases t' with
    | empty => exact h.branching.eq_empty fun l hl => (hmem l).mp hl
    | leaf l => exact h.branching.eq_leaf fun x => hmem x
    | inner c' =>
      refine congrArg inner (funext fun i => ih i (h.child i) (h'.child i) fun l => ?_)
      rw [h.placed.mem_child, h'.placed.mem_child, hmem l]

theorem eq_of_mem_iff_root {c c' : Fin b → RadixTree b L} (h : Placed digit key d (inner c))
    (h' : Placed digit key d (inner c')) (hc : ∀ i, Branching (c i)) (hc' : ∀ i, Branching (c' i))
    (hmem : ∀ l, l ∈ inner c ↔ l ∈ inner c') : c = c' := by
  refine funext fun i => Canonical.eq_of_mem_iff ⟨h.1 i, hc i⟩ ⟨h'.1 i, hc' i⟩ fun l => ?_
  rw [h.mem_child, h'.mem_child, hmem l]

/-! ### The shape -/

/-- The node that digits lead to; there is nothing below a leaf. -/
def descend : List (Fin b) → RadixTree b L → RadixTree b L
  | [], t => t
  | i :: p, inner c => descend p (c i)
  | _ :: _, _ => empty

/-- The digits of a key from a depth on start so. -/
def StartsWith (digit : ℕ → K → Fin b) : ℕ → List (Fin b) → K → Prop
  | _, [], _ => True
  | d, i :: p, k => digit d k = i ∧ StartsWith digit (d + 1) p k

/-- **In a canonical tree an inner node stands exactly where two leaves share the way.** -/
theorem Canonical.descend_eq_inner (h : Canonical digit key d t) {p : List (Fin b)} :
    (∃ c, t.descend p = inner c) ↔ ∃ l ∈ t, ∃ l' ∈ t, l ≠ l' ∧
      StartsWith digit d p (key l) ∧ StartsWith digit d p (key l') := by
  induction p generalizing d t with
  | nil =>
    constructor
    · rintro ⟨c, hc⟩
      obtain rfl : t = inner c := hc
      obtain ⟨-, l, l', hl, hl', hne⟩ := h.branching
      exact ⟨l, hl, l', hl', hne, trivial, trivial⟩
    · rintro ⟨l, hl, l', hl', hne, -, -⟩
      cases t with
      | empty => exact absurd hl (not_mem_empty l)
      | leaf l₀ => exact absurd ((mem_leaf.mp hl).trans (mem_leaf.mp hl').symm) hne
      | inner c => exact ⟨c, rfl⟩
  | cons i p ih =>
    cases t with
    | empty => exact ⟨fun ⟨c, hc⟩ => (nomatch hc), fun ⟨l, hl, _⟩ => absurd hl (not_mem_empty l)⟩
    | leaf l₀ =>
      refine ⟨fun ⟨c, hc⟩ => (nomatch hc), fun ⟨l, hl, l', hl', hne, _⟩ => ?_⟩
      exact absurd ((mem_leaf.mp hl).trans (mem_leaf.mp hl').symm) hne
    | inner c =>
      rw [descend, ih (h.child i)]
      constructor
      · rintro ⟨l, hl, l', hl', hne, hp, hp'⟩
        exact ⟨l, ⟨i, hl⟩, l', ⟨i, hl'⟩, hne, ⟨h.placed.2 i l hl, hp⟩, h.placed.2 i l' hl', hp'⟩
      · rintro ⟨l, hl, l', hl', hne, ⟨hi, hp⟩, hi', hp'⟩
        exact ⟨l, h.placed.mem_child.mpr ⟨hl, hi⟩, l', h.placed.mem_child.mpr ⟨hl', hi'⟩, hne, hp,
          hp'⟩

/-! ### Changing a branch -/

theorem Placed.update {c : Fin b → RadixTree b L} (h : Placed digit key d (inner c)) {i : Fin b}
    (ht : Placed digit key (d + 1) t) (hdigit : ∀ l ∈ t, digit d (key l) = i) :
    Placed digit key d (inner (Function.update c i t)) := by
  constructor
  · intro j
    by_cases hj : j = i
    · subst hj
      rwa [Function.update_self]
    · rw [Function.update_of_ne hj]
      exact h.1 j
  · intro j l hl
    by_cases hj : j = i
    · subst hj
      rw [Function.update_self] at hl
      exact hdigit l hl
    · rw [Function.update_of_ne hj] at hl
      exact h.2 j l hl

theorem mem_update {c : Fin b → RadixTree b L} {i : Fin b} :
    l ∈ inner (Function.update c i t) ↔ l ∈ t ∨ ∃ j ≠ i, l ∈ c j := by
  rw [mem_inner]
  constructor
  · rintro ⟨j, hl⟩
    by_cases hj : j = i
    · subst hj
      rw [Function.update_self] at hl
      exact .inl hl
    · rw [Function.update_of_ne hj] at hl
      exact .inr ⟨j, hj, hl⟩
  · rintro (hl | ⟨j, hj, hl⟩)
    · exact ⟨i, by rwa [Function.update_self]⟩
    · exact ⟨j, by rwa [Function.update_of_ne hj]⟩

theorem branching_update {c : Fin b → RadixTree b L} {i : Fin b} (h : ∀ j, Branching (c j))
    (ht : Branching t) : ∀ j, Branching (Function.update c i t j) := by
  intro j
  by_cases hj : j = i
  · subst hj
    rwa [Function.update_self]
  · rw [Function.update_of_ne hj]
    exact h j

end Digits

/-! ### The order of the leaves -/

/-- The keys have the digits of `k` above depth `d`. -/
def Below (digit : ℕ → K → Fin b) (key : L → K) (d : ℕ) (k : K) (t : RadixTree b L) : Prop :=
  ∀ l ∈ t, ∀ e < d, digit e (key l) = digit e k

/-- A way to go through all branches: the branches in turn, and which come after which. -/
structure Sweep (b : ℕ) where
  order : List (Fin b)
  ahead : Fin b → Fin b → Bool
  complete : ∀ i, i ∈ order
  pairwise : order.Pairwise fun i j => ahead i j
  irrefl : ∀ i, ahead i i = false
  trans : ∀ i j k, ahead i j → ahead j k → ahead i k

namespace Sweep

/-- From the left to the right. -/
def up (b : ℕ) : Sweep b where
  order := List.finRange b
  ahead := fun i j => decide (i < j)
  complete := List.mem_finRange
  pairwise := (List.pairwise_lt_finRange b).imp fun h => decide_eq_true h
  irrefl := fun i => decide_eq_false (lt_irrefl i)
  trans := fun _ _ _ hij hjk => decide_eq_true ((of_decide_eq_true hij).trans (of_decide_eq_true hjk))

/-- From the right to the left. -/
def down (b : ℕ) : Sweep b where
  order := (List.finRange b).reverse
  ahead := fun i j => decide (j < i)
  complete := fun i => List.mem_reverse.mpr (List.mem_finRange i)
  pairwise := List.pairwise_reverse.mpr
    ((List.pairwise_lt_finRange b).imp fun h => decide_eq_true h)
  irrefl := fun i => decide_eq_false (lt_irrefl i)
  trans := fun _ _ _ hij hjk => decide_eq_true ((of_decide_eq_true hjk).trans (of_decide_eq_true hij))

variable (w : Sweep b) {α : Type*}

theorem asymm {i j : Fin b} (h : w.ahead i j) : w.ahead j i = false := by
  rw [← Bool.not_eq_true]
  intro h'
  have hii := w.trans i j i h h'
  rw [w.irrefl] at hii
  exact Bool.noConfusion hii

theorem order_split (i : Fin b) :
    w.order = w.order.filter (fun j => w.ahead j i) ++ i :: w.order.filter (fun j => w.ahead i j) := by
  obtain ⟨s, t, hst⟩ := List.append_of_mem (w.complete i)
  have hpair := w.pairwise
  rw [hst, List.pairwise_append, List.pairwise_cons] at hpair
  obtain ⟨-, ⟨hafter, -⟩, hbefore⟩ := hpair
  have hs : ∀ j ∈ s, w.ahead j i := fun j hj => hbefore j hj i List.mem_cons_self
  have hfilter : ∀ j ∈ s, ¬w.ahead i j := fun j hj h => by
    rw [w.asymm (hs j hj)] at h
    exact Bool.noConfusion h
  have hfilter' : ∀ j ∈ t, ¬w.ahead j i := fun j hj h => by
    rw [w.asymm (hafter j hj)] at h
    exact Bool.noConfusion h
  have hleft : (s ++ i :: t).filter (fun j => w.ahead j i) = s := by
    rw [List.filter_append, List.filter_eq_self.mpr hs, List.filter_cons_of_neg (by simp [w.irrefl]),
      List.filter_eq_nil_iff.mpr hfilter', List.append_nil]
  have hright : (s ++ i :: t).filter (fun j => w.ahead i j) = t := by
    rw [List.filter_append, List.filter_eq_nil_iff.mpr hfilter,
      List.filter_cons_of_neg (by simp [w.irrefl]), List.filter_eq_self.mpr hafter, List.nil_append]
  rw [hst, hleft, hright]

theorem flatMap_split (f : Fin b → List α) (i : Fin b) :
    w.order.flatMap f = (w.order.filter fun j => w.ahead j i).flatMap f ++
      (f i ++ (w.order.filter fun j => w.ahead i j).flatMap f) := by
  calc w.order.flatMap f
      = (w.order.filter (fun j => w.ahead j i) ++
          i :: w.order.filter (fun j => w.ahead i j)).flatMap f := by rw [← w.order_split i]
    _ = _ := by rw [List.flatMap_append, List.flatMap_cons]

theorem find_first {p : Fin b → Bool} {i : Fin b} (h : w.order.find? p = some i) :
    p i ∧ ∀ j, w.ahead j i → ¬p j := by
  refine ⟨List.find?_some h, fun j hj hp => ?_⟩
  obtain ⟨-, s, t, hst, hs⟩ := List.find?_eq_some_iff_append.mp h
  have hpair := w.pairwise
  rw [hst, List.pairwise_append, List.pairwise_cons] at hpair
  obtain ⟨-, ⟨hafter, -⟩, -⟩ := hpair
  have hmem := w.complete j
  rw [hst, List.mem_append, List.mem_cons] at hmem
  rcases hmem with hin | rfl | hin
  · exact absurd hp (by simpa using hs j hin)
  · rw [w.irrefl] at hj
    exact Bool.noConfusion hj
  · rw [w.asymm (hafter j hin)] at hj
    exact Bool.noConfusion hj

theorem flatMap_after {f : Fin b → List α} {p : Fin b → Bool} {i j : Fin b}
    (hp : ∀ j, p j = false → f j = [])
    (h : w.order.find? (fun j => w.ahead i j && p j) = some j) :
    (w.order.filter fun j => w.ahead i j).flatMap f =
      f j ++ (w.order.filter fun k => w.ahead j k).flatMap f := by
  obtain ⟨hj, hfirst⟩ := w.find_first h
  rw [Bool.and_eq_true] at hj
  have hnone : ((w.order.filter fun k => w.ahead k j).filter fun k => w.ahead i k).flatMap f = [] := by
    rw [List.flatMap_eq_nil_iff]
    intro k hk
    rw [List.mem_filter, List.mem_filter] at hk
    refine hp k ?_
    have hno := hfirst k hk.1.2
    rwa [hk.2, Bool.true_and, Bool.not_eq_true] at hno
  have hall : (w.order.filter fun k => w.ahead j k).filter (fun k => w.ahead i k) =
      w.order.filter fun k => w.ahead j k :=
    List.filter_eq_self.mpr fun k hk => w.trans i j k hj.1 (List.mem_filter.mp hk).2
  calc (w.order.filter fun j => w.ahead i j).flatMap f
      = ((w.order.filter (fun k => w.ahead k j) ++
          j :: w.order.filter (fun k => w.ahead j k)).filter fun k => w.ahead i k).flatMap f := by
        rw [← w.order_split j]
    _ = f j ++ (w.order.filter fun k => w.ahead j k).flatMap f := by
        rw [List.filter_append, List.filter_cons_of_pos hj.1, hall, List.flatMap_append, hnone,
          List.flatMap_cons, List.nil_append]

theorem flatMap_after_none {f : Fin b → List α} {p : Fin b → Bool} {i : Fin b}
    (hp : ∀ j, p j = false → f j = [])
    (h : w.order.find? (fun j => w.ahead i j && p j) = none) :
    (w.order.filter fun j => w.ahead i j).flatMap f = [] := by
  rw [List.flatMap_eq_nil_iff]
  intro j hj
  have hno := List.find?_eq_none.mp h j (w.complete j)
  rw [(List.mem_filter.mp hj).2, Bool.true_and, Bool.not_eq_true] at hno
  exact hp j hno

theorem flatMap_first {f : Fin b → List α} {p : Fin b → Bool} {i : Fin b}
    (hp : ∀ j, p j = false → f j = []) (h : w.order.find? p = some i) :
    w.order.flatMap f = f i ++ (w.order.filter fun k => w.ahead i k).flatMap f := by
  have hnone : (w.order.filter fun k => w.ahead k i).flatMap f = [] := by
    rw [List.flatMap_eq_nil_iff]
    intro k hk
    have hno := (w.find_first h).2 k (List.mem_filter.mp hk).2
    exact hp k (Bool.not_eq_true _ ▸ hno)
  rw [w.flatMap_split f i, hnone, List.nil_append]

end Sweep

/-- The leaves as a pass over the branches meets them. -/
def leaves (w : Sweep b) : RadixTree b L → List L
  | empty => []
  | leaf l => [l]
  | inner c => w.order.flatMap fun i => (c i).leaves w

section Order

variable {w : Sweep b} {digit : ℕ → K → Fin b} {key : L → K} {d : ℕ} {t : RadixTree b L} {l : L}

@[simp] theorem mem_leaves : l ∈ t.leaves w ↔ l ∈ t := by
  induction t with
  | empty => simp [leaves]
  | leaf l' => simp [leaves]
  | inner c ih => simp [leaves, ih, w.complete]

theorem leaves_eq_nil (h : (!t.isEmpty) = false) : t.leaves w = [] := by
  rw [Bool.not_eq_false', isEmpty_iff] at h
  rw [h]
  rfl

/-- **A pass meets the keys in their order**, where the order of the keys is that of their digits. -/
theorem Placed.pairwise_leaves {r : K → K → Prop}
    (hr : ∀ k k' d, (∀ e < d, digit e k = digit e k') → w.ahead (digit d k) (digit d k') → r k k')
    (h : Placed digit key d t)
    (hbelow : ∀ l ∈ t, ∀ l' ∈ t, ∀ e < d, digit e (key l) = digit e (key l')) :
    (t.leaves w).Pairwise fun l l' => r (key l) (key l') := by
  induction t generalizing d with
  | empty => exact List.Pairwise.nil
  | leaf l => exact List.pairwise_singleton _ _
  | inner c ih =>
    rw [leaves, List.pairwise_flatMap]
    refine ⟨fun i _ => ih i (h.1 i) fun l hl l' hl' e he => ?_, ?_⟩
    · rcases Nat.lt_succ_iff_lt_or_eq.mp he with he | rfl
      · exact hbelow l ⟨i, hl⟩ l' ⟨i, hl'⟩ e he
      · rw [h.2 i l hl, h.2 i l' hl']
    · refine w.pairwise.imp fun {i j} hij l hl l' hl' => ?_
      rw [mem_leaves] at hl hl'
      refine hr _ _ d (hbelow l ⟨i, hl⟩ l' ⟨j, hl'⟩) ?_
      rw [h.2 i l hl, h.2 j l' hl']
      exact hij

end Order

end RadixTree
