import FalconLedger.SHAMap.Traversal

/-!
# Items in order

Iterating over a SHAMap passes every item once, by ascending key, and the two bounds stand at the
items next to a key on either side.
-/

namespace FalconLedger

open RadixTree SHAMapTreeNode

namespace SHAMap

variable {root : SHAMapTreeNode}

/-! ### The two orders -/

theorem lt_of_ahead_up (k k' : UInt256) (d : ℕ) (h : ∀ e < d, nibble e k = nibble e k')
    (hahead : (Sweep.up 16).ahead (nibble d k) (nibble d k')) : decide (k < k') = true :=
  decide_eq_true (lt_of_nibble h (of_decide_eq_true hahead))

theorem lt_of_ahead_down (k k' : UInt256) (d : ℕ) (h : ∀ e < d, nibble e k = nibble e k')
    (hahead : (Sweep.down 16).ahead (nibble d k) (nibble d k')) : decide (k' < k) = true :=
  decide_eq_true (lt_of_nibble (fun e he => (h e he).symm) (of_decide_eq_true hahead))

theorem decide_lt_asymm (k k' : UInt256) (h : decide (k < k') = true) : decide (k' < k) = false :=
  decide_eq_false (BitVec.not_lt.mpr (BitVec.le_of_lt (of_decide_eq_true h)))

theorem pairwise_up (hroot : Sound 0 root) :
    (root.leaves (Sweep.up 16)).Pairwise fun l l' => keyOf l < keyOf l' :=
  hroot.placed.pairwise_leaves (fun k k' d h ha => of_decide_eq_true (lt_of_ahead_up k k' d h ha))
    fun _ _ _ _ e he => absurd he (Nat.not_lt_zero e)

theorem pairwise_down (hroot : Sound 0 root) :
    (root.leaves (Sweep.down 16)).Pairwise fun l l' => keyOf l' < keyOf l :=
  hroot.placed.pairwise_leaves (r := fun k k' => k' < k)
    (fun k k' d h ha => of_decide_eq_true (lt_of_ahead_down k k' d h ha))
    fun _ _ _ _ e he => absurd he (Nat.not_lt_zero e)

/-! ### Where iterators stand -/

theorem peekFirstItem_spec (hroot : Sound 0 root) :
    ∃ cursor, peekFirstItem root = some cursor ∧
      StandsAt (Sweep.up 16) root (root.leaves (Sweep.up 16)) cursor := by
  obtain ⟨c, rfl⟩ := hroot.root rfl
  cases hfind : (Sweep.up 16).order.find? fun i => !(c i).isEmpty with
  | none =>
    refine ⟨(none, []), ?_, .inl ⟨?_, rfl⟩⟩
    · simp [peekFirstItem, firstBelow, belowHelper, placeBelow, hfind]
    · rw [leaves, List.flatMap_eq_nil_iff]
      exact fun i hi => leaves_eq_nil (Bool.not_eq_true _ ▸ List.find?_eq_none.mp hfind i hi)
  | some i =>
    have hi : c i ≠ .empty := by
      have hp := ((Sweep.up 16).find_first hfind).1
      intro hempty
      rw [hempty] at hp
      exact Bool.noConfusion hp
    obtain ⟨l, top, stack, hbelow, hinside, hl, hafter⟩ :=
      @belowHelper_spec _ 0 (Sweep.up 16) hroot ⟨0, Nat.zero_lt_succ 15⟩ _ hi c {} [] i rfl .root
    refine ⟨(some l, top :: stack), ?_, .inr ⟨l, top, stack, rfl, hinside, ?_⟩⟩
    · rw [peekFirstItem, firstBelow, belowHelper, placeBelow]
      simp only [bind, Option.bind, hfind, hbelow]
      rfl
    · have hselect : selectBranch {} (keyOf l) = i := hroot.placed.2 i l hl
      rw [hafter, after, after, hselect, List.append_nil, leaves]
      exact ((Sweep.up 16).flatMap_first (fun _ => leaves_eq_nil) hfind).symm

theorem StandsAt.fst_eq {w : Sweep 16} {left : List SHAMapLeafNode} {cursor : Cursor}
    (h : StandsAt w root left cursor) : cursor.1 = left.head? := by
  obtain ⟨rfl, rfl⟩ | ⟨l, top, stack, rfl, -, rfl⟩ := h
  · rfl
  · rfl

theorem head_filter_iff {r : UInt256 → UInt256 → Prop} [DecidableRel r]
    (hirrefl : ∀ k, ¬r k k) (htrans : ∀ k k' k'', r k k' → r k' k'' → r k k'')
    {ls : List SHAMapLeafNode} (h : ls.Pairwise fun l l' => r (keyOf l) (keyOf l'))
    {id : UInt256} {l : SHAMapLeafNode} :
    (ls.filter fun l => decide (r id (keyOf l))).head? = some l ↔
      l ∈ ls ∧ r id (keyOf l) ∧ ∀ l' ∈ ls, r id (keyOf l') → ¬r (keyOf l') (keyOf l) := by
  induction ls with
  | nil => simp
  | cons x ls ih =>
    rw [List.pairwise_cons] at h
    by_cases hx : r id (keyOf x)
    · rw [List.filter_cons_of_pos (by simpa using hx), List.head?_cons, Option.some.injEq]
      constructor
      · rintro rfl
        refine ⟨List.mem_cons_self, hx, fun l' hl' _ hlt => ?_⟩
        rcases List.mem_cons.mp hl' with rfl | hl'
        · exact hirrefl _ hlt
        · exact hirrefl _ (htrans _ _ _ hlt (h.1 l' hl'))
      · rintro ⟨hl, -, hleast⟩
        rcases List.mem_cons.mp hl with rfl | hl
        · rfl
        · exact absurd (h.1 l hl) (hleast x List.mem_cons_self hx)
    · rw [List.filter_cons_of_neg (by simpa using hx), ih h.2]
      constructor
      · rintro ⟨hl, hr, hleast⟩
        refine ⟨List.mem_cons_of_mem _ hl, hr, fun l' hl' hr' => ?_⟩
        rcases List.mem_cons.mp hl' with rfl | hl'
        · exact absurd hr' hx
        · exact hleast l' hl' hr'
      · rintro ⟨hl, hr, hleast⟩
        rcases List.mem_cons.mp hl with rfl | hl
        · exact absurd hr hx
        · exact ⟨hl, hr, fun l' hl' => hleast l' (List.mem_cons_of_mem _ hl')⟩

theorem items_past (hroot : Sound 0 root) (p : UInt256 → Bool) :
    (((root.leaves (Sweep.up 16)).filter fun l => p (keyOf l)).map SHAMapLeafNode.item).Pairwise
        (fun item item' => item.key < item'.key) ∧
      ∀ item, item ∈ ((root.leaves (Sweep.up 16)).filter fun l => p (keyOf l)).map SHAMapLeafNode.item ↔
        p item.key ∧ ∃ l ∈ root, l.item = item := by
  refine ⟨List.pairwise_map.mpr ((pairwise_up hroot).filter _), fun item => ?_⟩
  rw [List.mem_map]
  constructor
  · rintro ⟨l, hl, rfl⟩
    rw [List.mem_filter, mem_leaves] at hl
    exact ⟨hl.2, l, hl.1, rfl⟩
  · rintro ⟨hp, l, hl, rfl⟩
    exact ⟨l, List.mem_filter.mpr ⟨mem_leaves.mpr hl, hp⟩, rfl⟩

/-- **Traversal is exact.** Iterating from the first item passes every item once, by ascending key;
`upperBound` stands at the item with the least key above an id, if there is one, and goes on from there
in order; `lowerBound` stands at the item with the greatest key below it. Nothing throws. -/
theorem traversal_in_order (map : SHAMap) :
    (∃ items, (∀ n ≥ items.length, (peekFirstItem map.root).bind (iterate n) = some items) ∧
      items.Pairwise (fun item item' => item.key < item'.key) ∧
      ∀ item, item ∈ items ↔ ∃ l ∈ map.root, l.item = item) ∧
    ∀ id,
      (∃ first stack, upperBound map.root id = some (first, stack) ∧
        (first = none ↔ ∀ l ∈ map.root, keyOf l ≤ id) ∧
        (∀ l, first = some l ↔ l ∈ map.root ∧ id < keyOf l ∧
          ∀ l' ∈ map.root, id < keyOf l' → keyOf l ≤ keyOf l') ∧
        ∃ items, (∀ n ≥ items.length, iterate n (first, stack) = some items) ∧
          items.Pairwise (fun item item' => item.key < item'.key) ∧
          ∀ item, item ∈ items ↔ id < item.key ∧ ∃ l ∈ map.root, l.item = item) ∧
      ∃ last stack, lowerBound map.root id = some (last, stack) ∧
        (last = none ↔ ∀ l ∈ map.root, id ≤ keyOf l) ∧
        ∀ l, last = some l ↔ l ∈ map.root ∧ keyOf l < id ∧
          ∀ l' ∈ map.root, keyOf l' < id → keyOf l' ≤ keyOf l := by
  obtain ⟨root, hroot⟩ := map
  refine ⟨?_, fun id => ⟨?_, ?_⟩⟩
  · obtain ⟨cursor, hfirst, hstands⟩ := peekFirstItem_spec hroot
    obtain ⟨hpair, hmem⟩ := items_past hroot fun _ => true
    rw [List.filter_true] at hpair hmem
    refine ⟨_, fun n hn => ?_, hpair, fun item => (hmem item).trans (and_iff_right rfl)⟩
    rw [hfirst]
    exact iterate_spec hroot hstands (by simpa using hn)
  · obtain ⟨⟨first, stack⟩, hbound, hstands⟩ :=
      @bound_spec root (Sweep.up 16) (fun k k' => decide (k < k')) lt_of_ahead_up decide_lt_asymm hroot
        id
    obtain ⟨hpair, hmem⟩ := items_past hroot fun k => decide (id < k)
    have hhead : first = _ := hstands.fst_eq
    refine ⟨first, stack, hbound, ?_, fun l => ?_, _, fun n hn => iterate_spec hroot hstands ?_, hpair,
      fun item => (hmem item).trans ?_⟩
    · rw [hhead, List.head?_eq_none_iff, List.filter_eq_nil_iff]
      simp only [mem_leaves, decide_eq_true_eq, BitVec.not_lt]
    · rw [hhead, head_filter_iff (r := (· < ·)) (fun _ => BitVec.lt_irrefl _)
        (fun _ _ _ => BitVec.lt_trans) (pairwise_up hroot)]
      simp only [mem_leaves, BitVec.not_lt]
    · simpa using hn
    · rw [decide_eq_true_eq]
  · obtain ⟨⟨last, stack⟩, hbound, hstands⟩ :=
      @bound_spec root (Sweep.down 16) (fun k k' => decide (k' < k)) lt_of_ahead_down
        (fun k k' => decide_lt_asymm k' k) hroot id
    have hhead : last = _ := hstands.fst_eq
    refine ⟨last, stack, hbound, ?_, fun l => ?_⟩
    · rw [hhead, List.head?_eq_none_iff, List.filter_eq_nil_iff]
      simp only [mem_leaves, decide_eq_true_eq, BitVec.not_lt]
    · rw [hhead, head_filter_iff (r := fun k k' => k' < k) (fun _ => BitVec.lt_irrefl _)
        (fun _ _ _ h h' => BitVec.lt_trans h' h) (pairwise_down hroot)]
      simp only [mem_leaves, BitVec.not_lt]

end SHAMap

end FalconLedger
