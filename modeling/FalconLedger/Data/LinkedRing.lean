import Mathlib.Data.List.Chain
import Mathlib.Data.List.Nodup

/-!
# Circular doubly linked lists

Nodes are linked by two functions, `next` and `prev`. `LinkedRing next prev root rest` says that
following `next` from `root` visits the nodes of `rest` in order and comes back to `root`, and that
`prev` undoes every step; so `prev root` is the last node.

Two changes of the links are described: a node joins at the end (`LinkedRing.snoc`), and a node
leaves (`LinkedRing.unlink`).
-/

variable {P : Type*} {next prev next' prev' : P → P} {root p q : P} {rest l : List P}

/-- `q` is next to `p`, and the links say so at both ends. -/
def LinkedTo (next prev : P → P) (p q : P) : Prop := next p = q ∧ prev q = p

/-- The links make one ring of `root` and, after it, the nodes of `rest`. -/
structure LinkedRing (next prev : P → P) (root : P) (rest : List P) : Prop where
  nodup : (root :: rest).Nodup
  linked : (root :: rest ++ [root]).IsChain (LinkedTo next prev)

private theorem isChain_linkedTo_congr (h : l.IsChain (LinkedTo next prev))
    (hnext : ∀ p ∈ l.dropLast, next' p = next p) (hprev : ∀ p ∈ l.tail, prev' p = prev p) :
    l.IsChain (LinkedTo next' prev') := by
  induction l with
  | nil => exact .nil
  | cons a l ih =>
    cases l with
    | nil => exact .singleton a
    | cons b l =>
      rw [List.isChain_cons_cons] at h ⊢
      refine ⟨⟨?_, ?_⟩, ih h.2 (fun p hp => ?_) fun p hp => ?_⟩
      · rw [hnext a (by simp), h.1.1]
      · rw [hprev b (by simp), h.1.2]
      · exact hnext p (by simp [hp])
      · exact hprev p (List.mem_cons_of_mem _ hp)

namespace LinkedRing

/-- One node, linked to itself. -/
theorem single (hnext : next root = root) (hprev : prev root = root) :
    LinkedRing next prev root [] where
  nodup := List.nodup_singleton root
  linked := List.isChain_pair.mpr ⟨hnext, hprev⟩

theorem congr (h : LinkedRing next prev root rest)
    (hnext : ∀ p ∈ root :: rest, next' p = next p)
    (hprev : ∀ p ∈ root :: rest, prev' p = prev p) : LinkedRing next' prev' root rest where
  nodup := h.nodup
  linked := by
    refine isChain_linkedTo_congr h.linked (fun p hp => hnext p ?_) fun p hp => hprev p ?_
    · rwa [List.dropLast_append_of_ne_nil (List.cons_ne_nil _ _), List.dropLast_singleton,
        List.append_nil] at hp
    · rw [List.cons_append, List.tail_cons, List.mem_append, List.mem_singleton] at hp
      rcases hp with hp | rfl
      · exact List.mem_cons_of_mem _ hp
      · exact List.mem_cons_self

theorem cut {before after : List P} (h : LinkedRing next prev root rest)
    (hcut : root :: rest ++ [root] = before ++ p :: after) :
    (before ++ [p]).IsChain (LinkedTo next prev) ∧ (p :: after).IsChain (LinkedTo next prev) := by
  have hlinked := h.linked
  rw [hcut] at hlinked
  exact List.isChain_split.mp hlinked

theorem prev_root (h : LinkedRing next prev root rest) :
    prev root = (root :: rest).getLast (List.cons_ne_nil _ _) :=
  (h.linked.rel_getLast_head_of_append (List.cons_ne_nil _ _) (List.cons_ne_nil _ _)).2

theorem prev_root_mem (h : LinkedRing next prev root rest) : prev root ∈ root :: rest := by
  rw [h.prev_root]
  exact List.getLast_mem _

theorem next_root (h : LinkedRing next prev root rest) :
    next root = (rest ++ [root]).head (by simp) := by
  have hlinked := h.linked
  cases rest with
  | nil => exact (List.isChain_pair.mp hlinked).1
  | cons q rest => exact (List.isChain_cons_cons.mp hlinked).1.1

theorem next_root_eq_root_iff (h : LinkedRing next prev root rest) :
    next root = root ↔ rest = [] := by
  rw [h.next_root]
  cases rest with
  | nil => simp
  | cons q rest =>
    have hne : q ≠ root := fun heq => (List.nodup_cons.mp h.nodup).1 (by simp [heq])
    simp [hne]

theorem prev_root_eq_root_iff (h : LinkedRing next prev root rest) :
    prev root = root ↔ rest = [] := by
  rw [h.prev_root]
  rcases rest.eq_nil_or_concat with rfl | ⟨rest, q, rfl⟩
  · simp
  · have hne : q ≠ root := fun heq => (List.nodup_cons.mp h.nodup).1 (by simp [heq])
    simp [hne]

theorem neighbours {a b : List P} (h : LinkedRing next prev root (a ++ p :: b)) :
    prev p = (root :: a).getLast (List.cons_ne_nil _ _) ∧
      next p = (b ++ [root]).head (by simp) := by
  have hcut : root :: (a ++ p :: b) ++ [root] = (root :: a) ++ p :: (b ++ [root]) := by simp
  obtain ⟨hbefore, hafter⟩ := h.cut hcut
  have hlink := hbefore.rel_getLast_head_of_append (List.cons_ne_nil _ _) (List.cons_ne_nil _ _)
  refine ⟨hlink.2, ?_⟩
  cases b with
  | nil => exact (List.isChain_pair.mp hafter).1
  | cons q b => exact (List.isChain_cons_cons.mp hafter).1.1

theorem eq_nil_of_neighbours {a b : List P} (h : LinkedRing next prev root (a ++ p :: b))
    (hprev : prev p = root) (hnext : next p = root) : a = [] ∧ b = [] := by
  obtain ⟨hlast, hfirst⟩ := h.neighbours
  have hroot := (List.nodup_cons.mp h.nodup).1
  rw [hprev] at hlast
  rw [hnext] at hfirst
  constructor
  · rcases a.eq_nil_or_concat with rfl | ⟨a, q, rfl⟩
    · rfl
    · have hq : root = q := hlast.trans (by simp)
      exact absurd (by simp [hq]) hroot
  · cases b with
    | nil => rfl
    | cons q b =>
      have hq : root = q := hfirst
      exact absurd (by simp [hq]) hroot

theorem neighbours_mem (h : LinkedRing next prev root rest) (hp : p ∈ rest) :
    (prev p ∈ root :: rest ∧ prev p ≠ p) ∧ next p ∈ root :: rest ∧ next p ≠ p := by
  obtain ⟨a, b, rfl⟩ := List.append_of_mem hp
  obtain ⟨hprev, hnext⟩ := h.neighbours
  have hnodup := h.nodup
  have hbefore : prev p ∈ root :: a := hprev ▸ List.getLast_mem _
  have hafter : next p ∈ b ++ [root] := hnext ▸ List.head_mem _
  simp only [List.nodup_cons, List.nodup_append, List.mem_append, List.mem_cons] at hnodup hbefore
  simp only [List.mem_append, List.mem_singleton] at hafter
  grind

variable [DecidableEq P]

theorem snoc (h : LinkedRing next prev root rest) (hp : p ∉ root :: rest) :
    LinkedRing (Function.update (Function.update next (prev root) p) p root)
      (Function.update (Function.update prev root p) p (prev root)) root (rest ++ [p]) where
  nodup := by
    rw [← List.cons_append, List.nodup_append]
    refine ⟨h.nodup, List.nodup_singleton p, fun q hq q' hq' => ?_⟩
    rw [List.mem_singleton.mp hq']
    exact ne_of_mem_of_not_mem hq hp
  linked := by
    obtain ⟨before, hbefore⟩ : ∃ before, root :: rest = before ++ [prev root] :=
      ⟨(root :: rest).dropLast, by
        rw [h.prev_root]
        exact (List.dropLast_append_getLast _).symm⟩
    have hnodup := h.nodup
    have hlast : p ≠ prev root := fun heq => hp (heq ▸ h.prev_root_mem)
    have hroot : root ≠ p := fun heq => hp (by simp [heq])
    have htail : ∀ q ∈ rest, q ≠ root := fun q hq heq =>
      (List.nodup_cons.mp hnodup).1 (heq ▸ hq)
    have hsplit : root :: (rest ++ [p]) ++ [root] = before ++ prev root :: [p, root] := by
      rw [← List.cons_append, hbefore]
      simp
    rw [hsplit, List.isChain_split]
    constructor
    · rw [← hbefore]
      refine isChain_linkedTo_congr (h.linked.left_of_append) (fun q hq => ?_) fun q hq => ?_
      · rw [hbefore] at hnodup hq
        rw [List.dropLast_concat] at hq
        have hmem : q ∈ root :: rest := hbefore ▸ List.mem_append_left _ hq
        rw [Function.update_of_ne (ne_of_mem_of_not_mem hmem hp), Function.update_of_ne]
        rintro rfl
        exact (List.nodup_append.mp hnodup).2.2 _ hq _ List.mem_cons_self rfl
      · rw [List.tail_cons] at hq
        rw [Function.update_of_ne (ne_of_mem_of_not_mem (List.mem_cons_of_mem _ hq) hp),
          Function.update_of_ne (htail q hq)]
    · simp [LinkedTo, hlast.symm, hroot]

theorem unlink {a b : List P} (h : LinkedRing next prev root (a ++ p :: b)) :
    LinkedRing (Function.update next (prev p) (next p)) (Function.update prev (next p) (prev p))
      root (a ++ b) where
  nodup := h.nodup.sublist (((List.sublist_cons_self p b).append_left a).cons_cons root)
  linked := by
    have hnodup := h.nodup
    have hcut : root :: (a ++ p :: b) ++ [root] = (root :: a) ++ p :: (b ++ [root]) := by simp
    obtain ⟨hbefore, hafter⟩ := h.cut hcut
    obtain ⟨hprev, hnext⟩ := h.neighbours
    obtain ⟨before, hx⟩ : ∃ before, root :: a = before ++ [prev p] :=
      ⟨(root :: a).dropLast, by
        rw [hprev]
        exact (List.dropLast_append_getLast _).symm⟩
    obtain ⟨after, hy⟩ : ∃ after, b ++ [root] = next p :: after :=
      ⟨(b ++ [root]).tail, by
        rw [hnext]
        exact (List.cons_head_tail _).symm⟩
    have hsplit : root :: (a ++ b) ++ [root] = before ++ prev p :: next p :: after := by
      rw [← List.cons_append, List.append_assoc, hy, hx]
      simp
    have hbeforeNodup : (before ++ [prev p]).Nodup :=
      hx ▸ hnodup.sublist ((List.sublist_append_left a _).cons_cons root)
    have hafterNodup : (next p :: after).Nodup := by
      rw [← hy]
      simp only [List.nodup_cons, List.nodup_append, List.mem_append, List.mem_cons] at hnodup ⊢
      grind
    -- no node of the one side is on the other, the root apart
    have hapart : ∀ q ∈ a, q ∉ b ++ [root] := fun q hq hq' => by
      simp only [List.nodup_cons, List.nodup_append, List.mem_append, List.mem_cons] at hnodup
      simp only [List.mem_append, List.mem_singleton] at hq'
      grind
    have hapart' : ∀ q ∈ b, q ∉ root :: a := fun q hq hq' => by
      simp only [List.nodup_cons, List.nodup_append, List.mem_append, List.mem_cons] at hnodup hq'
      grind
    rw [hsplit, List.isChain_append_cons_cons]
    refine ⟨?_, ⟨Function.update_self .., Function.update_self ..⟩, ?_⟩
    · refine isChain_linkedTo_congr (hx ▸ hbefore.left_of_append) (fun q hq => ?_) fun q hq => ?_
      · rw [List.dropLast_concat] at hq
        refine Function.update_of_ne ?_ _ _
        rintro rfl
        exact (List.nodup_append.mp hbeforeNodup).2.2 _ hq _ List.mem_cons_self rfl
      · rw [← hx, List.tail_cons] at hq
        refine Function.update_of_ne ?_ _ _
        rintro rfl
        exact hapart _ hq (hy ▸ List.mem_cons_self)
    · refine isChain_linkedTo_congr (hy ▸ hafter.tail) (fun q hq => ?_) fun q hq => ?_
      · rw [← hy, List.dropLast_concat] at hq
        refine Function.update_of_ne ?_ _ _
        rintro rfl
        exact hapart' _ hq (hx ▸ List.mem_append_right _ List.mem_cons_self)
      · refine Function.update_of_ne ?_ _ _
        rintro rfl
        exact (List.nodup_cons.mp hafterNodup).1 hq

end LinkedRing
