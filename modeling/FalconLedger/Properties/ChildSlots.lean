import FalconLedger.SHAMap.LinkedInner
import FalconLedger.Properties.InnerNodes

/-!
# The slots of an inner node

What the arrays of an inner node hold is a slot for each of the sixteen branches, unused where the
branch is empty; the layout follows from the bits and the size. Every operation takes a layout to
the layout of the slots it should leave, through every change of size, dense or sparse.
-/

namespace FalconLedger

namespace ChildArrays

open TaggedPointer (numAllocatedChildren taken popcnt16_below exists_split taken_split length_taken
  mem_taken popcnt16_le le_numAllocatedChildren)

variable {β : Type} {zero : β} {b b' : BitVec 16} {n : ℕ} {f : Fin 16 → β}

/-! ### Layouts -/

/-- The array of `n` slots that holds `f`. -/
def layout (zero : β) (b : BitVec 16) (n : ℕ) (f : Fin 16 → β) : List β :=
  if n = 16 then (List.finRange 16).map f
  else (taken b).map f ++ List.replicate (n - popcnt16 b) zero

/-- The place of a branch, from the branches before it. -/
def place (b : BitVec 16) (dense : Bool) (before : List (Fin 16)) : ℕ :=
  if dense then before.length else (before.filter fun j => isTaken b j).length

/-- The branches that are not taken have unused slots. -/
def Unused (zero : β) (b : BitVec 16) (f : Fin 16 → β) : Prop :=
  ∀ i, isTaken b i = false → f i = zero

theorem length_layout (h : popcnt16 b ≤ n) : (layout zero b n f).length = n := by
  unfold layout
  split_ifs with h16
  · rw [List.length_map, List.length_finRange, h16]
  · rw [List.length_append, List.length_map, List.length_replicate, length_taken]
    omega

theorem isDense_layout (h : popcnt16 b ≤ n) : isDense (layout zero b n f) = decide (n = 16) := by
  rw [isDense, length_layout h]

theorem map_layout {γ : Type} (g : β → γ) (b : BitVec 16) (n : ℕ) {zero' : γ}
    (hzero : g zero = zero') : (layout zero b n f).map g = layout zero' b n fun i => g (f i) := by
  unfold layout
  split_ifs
  · rw [List.map_map]
    rfl
  · rw [List.map_append, List.map_map, List.map_replicate, hzero]
    rfl

theorem length_before {before after : List (Fin 16)} {i : Fin 16}
    (hsplit : List.finRange 16 = before ++ i :: after) : before.length = i.val := by
  have hget : (List.finRange 16)[before.length]? = some i := by
    rw [hsplit]
    simp
  have hlt : before.length < 16 := by
    have hlength := congrArg List.length hsplit
    simp only [List.length_finRange, List.length_append, List.length_cons] at hlength
    omega
  rw [List.getElem?_eq_getElem (by simpa using hlt), List.getElem_finRange] at hget
  exact congrArg Fin.val (Option.some.inj hget)

theorem place_append (b : BitVec 16) (dense : Bool) (before : List (Fin 16)) (i : Fin 16) :
    place b dense (before ++ [i]) =
      if dense || isTaken b i then place b dense before + 1 else place b dense before := by
  unfold place
  cases dense with
  | true => simp
  | false => cases hi : isTaken b i <;> simp [hi]

theorem getElem?_layout {before after : List (Fin 16)} {i : Fin 16}
    (hsplit : List.finRange 16 = before ++ i :: after) (hi : isTaken b i = true) :
    (layout zero b n f)[place b (decide (n = 16)) before]? = some (f i) := by
  unfold layout place
  by_cases h16 : n = 16
  · rw [if_pos h16, decide_eq_true h16, if_pos rfl, hsplit]
    simp
  · rw [if_neg h16, decide_eq_false h16, if_neg Bool.false_ne_true, taken_split hsplit hi]
    simp

theorem getD_layout {before after : List (Fin 16)} {i : Fin 16}
    (hsplit : List.finRange 16 = before ++ i :: after) (hi : isTaken b i = true) :
    (layout zero b n f).getD (place b (decide (n = 16)) before) zero = f i := by
  rw [List.getD_eq_getElem?_getD, getElem?_layout hsplit hi]
  rfl

theorem getChildIndex_layout (h : popcnt16 b ≤ n) {before after : List (Fin 16)} {i : Fin 16}
    (hsplit : List.finRange 16 = before ++ i :: after) (hi : isTaken b i = true) :
    getChildIndex b (layout zero b n f) i = some (place b (decide (n = 16)) before) := by
  unfold getChildIndex place
  rw [isDense_layout h, length_before hsplit, popcnt16_below hsplit, hi]
  by_cases h16 : n = 16
  · rw [decide_eq_true h16]
    rfl
  · rw [decide_eq_false h16]
    rfl

/-- The slot of a branch as `getChildHash` and `getChild` find it. -/
def slotAt (zero : β) (b : BitVec 16) (slots : List β) (i : Fin 16) : β :=
  ((getChildIndex b slots i).map fun k => slots.getD k zero).getD zero

theorem slotAt_layout (h : popcnt16 b ≤ n) (hf : Unused zero b f) (i : Fin 16) :
    slotAt zero b (layout zero b n f) i = f i := by
  obtain ⟨before, after, hsplit⟩ := exists_split i
  unfold slotAt
  cases hi : isTaken b i with
  | true =>
    rw [getChildIndex_layout h hsplit hi]
    exact getD_layout hsplit hi
  | false =>
    unfold getChildIndex
    rw [isDense_layout h, hi, hf i hi]
    by_cases h16 : n = 16
    · have hlayout : (layout zero b n f).getD i.val zero = f i := by
        simp [layout, h16]
      rw [decide_eq_true h16, if_pos rfl, Option.map_some, Option.getD_some, hlayout, hf i hi]
    · rw [decide_eq_false h16]
      rfl

/-! ### Moving the slots -/

/-- What is left of `f` for the branches of `b`. -/
def restrict (zero : β) (b : BitVec 16) (f : Fin 16 → β) (i : Fin 16) : β :=
  if isTaken b i then f i else zero

theorem unused_restrict (zero : β) (b : BitVec 16) (f : Fin 16 → β) :
    Unused zero b (restrict zero b f) := by
  intro i hi
  simp [restrict, hi]

theorem moveAcross_eq (hf : Unused zero b f) (dstIsDense : Bool)
    {before after : List (Fin 16)} (hsplit : List.finRange 16 = before ++ after) :
    moveAcross zero b b' (decide (n = 16)) dstIsDense (layout zero b n f) after
        (place b (decide (n = 16)) before) =
      (if dstIsDense then after else after.filter fun i => isTaken b' i).map
        (restrict zero b' f) := by
  induction after generalizing before with
  | nil => cases dstIsDense <;> rfl
  | cons i after ih =>
    have hnext := @ih (before ++ [i]) (by rw [hsplit]; simp)
    rw [place_append] at hnext
    unfold moveAcross
    cases hsrc : isTaken b i with
    | true =>
      rw [hsrc, Bool.or_true, if_pos rfl] at hnext
      cases hdst : isTaken b' i with
      | true =>
        dsimp only
        rw [hnext, getD_layout hsplit hsrc]
        cases dstIsDense <;> simp [restrict, hdst]
      | false =>
        dsimp only
        rw [hnext]
        cases dstIsDense <;> simp [restrict, hdst]
    | false =>
      rw [hsrc, Bool.or_false] at hnext
      cases hdst : isTaken b' i with
      | true =>
        dsimp only
        rw [hnext]
        cases dstIsDense <;> simp [restrict, hdst, hf i hsrc]
      | false =>
        dsimp only
        rw [hnext]
        cases dstIsDense <;> simp [restrict, hdst]

theorem moveInPlace_same {i : Fin 16} {rest : List (Fin 16)} {dense : Bool} {k : ℕ}
    {slots : List β} (h : isTaken b' i = isTaken b i) :
    moveInPlace zero b b' dense (i :: rest) k slots =
      moveInPlace zero b b' dense rest (if dense || isTaken b i then k + 1 else k) slots := by
  rw [moveInPlace, h]
  cases isTaken b i with
  | true => simp
  | false => simp

theorem moveInPlace_append {before middle rest : List (Fin 16)} {dense : Bool} {slots : List β}
    (hsame : ∀ i ∈ middle, isTaken b' i = isTaken b i) :
    moveInPlace zero b b' dense (middle ++ rest) (place b dense before) slots =
      moveInPlace zero b b' dense rest (place b dense (before ++ middle)) slots := by
  induction middle generalizing before with
  | nil => rw [List.append_nil, List.nil_append]
  | cons i middle ih =>
    have hnext := @ih (before ++ [i]) fun j hj => hsame j (List.mem_cons_of_mem i hj)
    rw [place_append, List.append_assoc, List.singleton_append] at hnext
    rw [List.cons_append, moveInPlace_same (hsame i List.mem_cons_self)]
    exact hnext

theorem moveInPlace_of_same {rest : List (Fin 16)} {dense : Bool} {slots : List β} {k : ℕ}
    (hsame : ∀ i ∈ rest, isTaken b' i = isTaken b i) :
    moveInPlace zero b b' dense rest k slots = slots := by
  induction rest generalizing k with
  | nil => rfl
  | cons i rest ih =>
    rw [moveInPlace_same (hsame i List.mem_cons_self)]
    exact ih fun j hj => hsame j (List.mem_cons_of_mem i hj)

/-! ### The shifts -/

private theorem length_shiftLeft_loop (zero : β) (l : List ℕ) (slots : List β) :
    (l.foldl (fun slots c => slots.set c (slots.getD (c + 1) zero)) slots).length =
      slots.length := by
  induction l generalizing slots with
  | nil => rfl
  | cons c l ih => exact (ih _).trans List.length_set

private theorem length_shiftRight_loop (zero : β) (l : List ℕ) (slots : List β) :
    (l.foldr (fun c slots => slots.set c (slots.getD (c - 1) zero)) slots).length =
      slots.length := by
  induction l with
  | nil => rfl
  | cons c l ih => exact List.length_set.trans ih

private theorem getElem?_shiftLeft_loop (zero : β) (slots : List β) (index k j : ℕ)
    (hk : index + k < slots.length) :
    ((List.range' index k).foldl
        (fun slots c => slots.set c (slots.getD (c + 1) zero)) slots)[j]? =
      if index ≤ j ∧ j < index + k then slots[j + 1]? else slots[j]? := by
  induction k generalizing j with
  | zero =>
    rw [if_neg (by omega)]
    rfl
  | succ k ih =>
    rw [List.range'_concat, List.foldl_append, List.foldl_cons, List.foldl_nil, one_mul,
      List.getElem?_set, List.getD_eq_getElem?_getD, ih _ (by omega), ih _ (by omega),
      length_shiftLeft_loop]
    by_cases hj : index + k = j
    · subst hj
      have hnext : index + k + 1 < slots.length := by omega
      rw [if_pos rfl, if_pos (by omega), if_neg (by omega), if_pos (by omega),
        List.getElem?_eq_getElem hnext, Option.getD_some]
    · rw [if_neg hj]
      by_cases hin : index ≤ j ∧ j < index + k
      · rw [if_pos hin, if_pos (by omega)]
      · rw [if_neg hin, if_neg (by omega)]

theorem shiftLeft_eq (pre post : List β) (x : β) :
    shiftLeft zero (pre ++ x :: post) pre.length = pre ++ post ++ [zero] := by
  have hlen : (pre ++ x :: post).length = pre.length + post.length + 1 := by
    rw [List.length_append, List.length_cons]
    omega
  refine List.ext_getElem? fun j => ?_
  unfold shiftLeft
  rw [List.getElem?_set, length_shiftLeft_loop, hlen,
    getElem?_shiftLeft_loop zero _ _ _ _ (by rw [hlen]; omega)]
  simp only [List.getElem?_append, List.getElem?_cons, List.length_append]
  grind

private theorem getElem?_shiftRight_loop (zero : β) (slots : List β) (index k j : ℕ)
    (h0 : 0 < index) (hk : index + k ≤ slots.length) :
    ((List.range' index k).foldr
        (fun c slots => slots.set c (slots.getD (c - 1) zero)) slots)[j]? =
      if index ≤ j ∧ j < index + k then slots[j - 1]? else slots[j]? := by
  induction k generalizing index j with
  | zero =>
    rw [if_neg (by omega)]
    rfl
  | succ k ih =>
    rw [List.range'_succ, List.foldr_cons, List.getElem?_set, List.getD_eq_getElem?_getD,
      ih (index + 1) _ (by omega) (by omega), ih (index + 1) _ (by omega) (by omega),
      length_shiftRight_loop]
    by_cases hj : index = j
    · subst hj
      have hprev : index - 1 < slots.length := by omega
      rw [if_pos rfl, if_pos (by omega), if_neg (by omega), if_pos (by omega),
        List.getElem?_eq_getElem hprev, Option.getD_some]
    · rw [if_neg hj]
      by_cases hin : index + 1 ≤ j ∧ j < index + 1 + k
      · rw [if_pos hin, if_pos (by omega)]
      · rw [if_neg hin, if_neg (by omega)]

theorem shiftRight_eq (pre post : List β) (x : β) :
    shiftRight zero (pre ++ post ++ [x]) pre.length = pre ++ zero :: post := by
  have hlen : (pre ++ post ++ [x]).length = pre.length + post.length + 1 := by
    simp only [List.length_append, List.length_cons, List.length_nil]
  refine List.ext_getElem? fun j => ?_
  unfold shiftRight
  rw [List.getElem?_set, length_shiftRight_loop, hlen,
    getElem?_shiftRight_loop zero _ _ _ _ (by omega) (by rw [hlen]; omega)]
  simp only [List.getElem?_append, List.getElem?_cons, List.length_append]
  grind

/-! ### A layout after a move -/

theorem restrict_of_same {i : Fin 16} (hf : Unused zero b f)
    (h : isTaken b' i = isTaken b i) : restrict zero b' f i = f i := by
  unfold restrict
  cases hi : isTaken b i with
  | true => rw [h, hi, if_pos rfl]
  | false => rw [h, hi, if_neg Bool.false_ne_true, hf i hi]

theorem map_restrict {l : List (Fin 16)} (hf : Unused zero b f)
    (h : ∀ i ∈ l, isTaken b' i = isTaken b i) : l.map (restrict zero b' f) = l.map f :=
  List.map_congr_left fun i hi => restrict_of_same hf (h i hi)

theorem taken_split_of_empty {before after : List (Fin 16)} {i : Fin 16}
    (hsplit : List.finRange 16 = before ++ i :: after) (hi : isTaken b i = false) :
    taken b = (before.filter fun j => isTaken b j) ++ after.filter fun j => isTaken b j := by
  unfold taken
  rw [hsplit, List.filter_append,
    List.filter_cons_of_neg (p := fun j => isTaken b j) (by simp [hi])]

private theorem shiftLeft_parts {pre post : List (Fin 16)} (f : Fin 16 → β) (m : Fin 16)
    (h : (pre ++ m :: post).length ≤ n) :
    shiftLeft zero (pre.map f ++ f m :: post.map f ++
        List.replicate (n - (pre ++ m :: post).length) zero) pre.length =
      pre.map f ++ post.map f ++ List.replicate (n - (pre ++ post).length) zero := by
  have hroom : n - (pre ++ post).length = n - (pre ++ m :: post).length + 1 := by
    simp only [List.length_append, List.length_cons] at h ⊢
    omega
  have hshift := @shiftLeft_eq β zero (pre.map f)
    (post.map f ++ List.replicate (n - (pre ++ m :: post).length) zero) (f m)
  rw [List.length_map, ← List.append_assoc] at hshift
  rw [hroom, List.replicate_succ', ← List.append_assoc, List.append_assoc, List.cons_append]
  exact hshift

private theorem shiftRight_parts {pre post : List (Fin 16)} (f : Fin 16 → β) (m : Fin 16)
    (h : (pre ++ m :: post).length ≤ n) :
    shiftRight zero (pre.map f ++ post.map f ++
        List.replicate (n - (pre ++ post).length) zero) pre.length =
      pre.map f ++ zero :: post.map f ++
        List.replicate (n - (pre ++ m :: post).length) zero := by
  have hroom : n - (pre ++ post).length = n - (pre ++ m :: post).length + 1 := by
    simp only [List.length_append, List.length_cons] at h ⊢
    omega
  have hshift := @shiftRight_eq β zero (pre.map f)
    (post.map f ++ List.replicate (n - (pre ++ m :: post).length) zero) zero
  rw [List.length_map] at hshift
  rw [hroom, List.replicate_succ', ← List.append_assoc]
  rw [List.append_assoc (pre.map f), hshift]
  simp

theorem moveInPlace_layout {m : Fin 16} (hsame : ∀ i, i ≠ m → isTaken b' i = isTaken b i)
    (h : popcnt16 b ≤ n) (h' : popcnt16 b' ≤ n) (hf : Unused zero b f) :
    moveInPlace zero b b' (decide (n = 16)) (List.finRange 16) 0 (layout zero b n f) =
      layout zero b' n (restrict zero b' f) := by
  obtain ⟨before, after, hsplit⟩ := exists_split m
  have hnodup := List.nodup_finRange 16
  rw [hsplit, List.nodup_append, List.nodup_cons] at hnodup
  obtain ⟨-, ⟨hafter, -⟩, hbefore⟩ := hnodup
  have hsameBefore : ∀ i ∈ before, isTaken b' i = isTaken b i := fun i hi =>
    hsame i (hbefore i hi m List.mem_cons_self)
  have hsameAfter : ∀ i ∈ after, isTaken b' i = isTaken b i := fun i hi =>
    hsame i (ne_of_mem_of_not_mem hi hafter)
  have hpre : before.filter (fun j => isTaken b' j) = before.filter fun j => isTaken b j :=
    List.filter_congr hsameBefore
  have hpost : after.filter (fun j => isTaken b' j) = after.filter fun j => isTaken b j :=
    List.filter_congr hsameAfter
  have hmapPre : ((before.filter fun j => isTaken b j).map (restrict zero b' f)) =
      (before.filter fun j => isTaken b j).map f :=
    map_restrict hf fun i hi => hsameBefore i (List.mem_of_mem_filter hi)
  have hmapPost : ((after.filter fun j => isTaken b j).map (restrict zero b' f)) =
      (after.filter fun j => isTaken b j).map f :=
    map_restrict hf fun i hi => hsameAfter i (List.mem_of_mem_filter hi)
  have hcount := length_taken b
  have hcount' := length_taken b'
  have hwalk : ∀ slots : List β,
      moveInPlace zero b b' (decide (n = 16)) (before ++ m :: after) 0 slots =
        moveInPlace zero b b' (decide (n = 16)) (m :: after)
          (place b (decide (n = 16)) before) slots := by
    intro slots
    have happend := @moveInPlace_append β zero b b' [] before (m :: after) (decide (n = 16)) slots
      hsameBefore
    rw [List.nil_append] at happend
    rw [← happend]
    cases decide (n = 16) <;> rfl
  have hwhole : List.finRange 16 = before ++ m :: after := hsplit
  rw [hsplit, hwalk]
  clear hwalk
  by_cases hbit : isTaken b' m = isTaken b m
  · -- no bit changes at all
    have hall : ∀ i, isTaken b' i = isTaken b i := fun i =>
      if hi : i = m then hi ▸ hbit else hsame i hi
    have hbb : b' = b := SHAMapInnerNode.isBranch_ext hall
    have hff : restrict zero b' f = f := funext fun i => restrict_of_same hf (hall i)
    rw [moveInPlace_of_same fun i _ => hall i, hff, hbb]
  · unfold moveInPlace place layout
    by_cases h16 : n = 16
    · rw [decide_eq_true h16, if_pos h16, if_pos h16, hwhole]
      cases hm : isTaken b m with
      | true =>
        have hm' : isTaken b' m = false := by simpa [hm] using hbit
        have hzero : restrict zero b' f m = zero := by simp [restrict, hm']
        simp only [hm', if_true]
        rw [moveInPlace_of_same hsameAfter, List.map_append, List.map_append, List.map_cons,
          List.map_cons, hzero, map_restrict hf hsameBefore, map_restrict hf hsameAfter,
          List.set_append_right _ _ (by simp)]
        simp
      | false =>
        have hm' : isTaken b' m = true := by simpa [hm] using hbit
        have hkeep : restrict zero b' f m = f m := by simp [restrict, hm']
        simp only [hm', if_true]
        rw [moveInPlace_of_same hsameAfter, List.map_append, List.map_append, List.map_cons,
          List.map_cons, hkeep, map_restrict hf hsameBefore, map_restrict hf hsameAfter]
    · rw [decide_eq_false h16, if_neg h16, if_neg h16, ← hcount, ← hcount']
      cases hm : isTaken b m with
      | true =>
        have hm' : isTaken b' m = false := by simpa [hm] using hbit
        have htaken := taken_split hwhole hm
        have htaken' := taken_split_of_empty hwhole hm'
        rw [hpre, hpost] at htaken'
        simp only [hm', Bool.false_eq_true, if_false]
        rw [moveInPlace_of_same hsameAfter, htaken, htaken', List.map_append, List.map_append,
          List.map_cons, hmapPre, hmapPost]
        exact shiftLeft_parts f m (by rw [← htaken, hcount]; exact h)
      | false =>
        have hm' : isTaken b' m = true := by simpa [hm] using hbit
        have hzero : restrict zero b' f m = zero := by simp [restrict, hm', hf m hm]
        have htaken := taken_split_of_empty hwhole hm
        have htaken' := taken_split hwhole hm'
        rw [hpre, hpost] at htaken'
        simp only [hm', Bool.false_eq_true, if_false]
        rw [moveInPlace_of_same hsameAfter, htaken, htaken', List.map_append, List.map_append,
          List.map_cons, hmapPre, hmapPost, hzero]
        exact shiftRight_parts f m (by rw [← htaken', hcount']; exact h')

theorem move_layout {m : Fin 16} (hsame : ∀ i, i ≠ m → isTaken b' i = isTaken b i)
    (h : popcnt16 b ≤ n) (hf : Unused zero b f) :
    move zero (layout zero b n f) b b' (popcnt16 b') =
      layout zero b' (numAllocatedChildren (popcnt16 b')) (restrict zero b' f) := by
  have hroom := le_numAllocatedChildren (popcnt16_le b')
  unfold move
  rw [length_layout h, isDense_layout h]
  by_cases hn : n = numAllocatedChildren (popcnt16 b')
  · rw [if_pos hn, ← hn]
    exact moveInPlace_layout hsame h (hn ▸ hroom) hf
  · rw [if_neg hn]
    have hacross := @moveAcross_eq β zero b b' n f hf
      (decide (numAllocatedChildren (popcnt16 b') = 16)) [] (List.finRange 16) rfl
    have hstart : place b (decide (n = 16)) [] = 0 := by
      cases decide (n = 16) <;> rfl
    rw [hstart] at hacross
    dsimp only
    rw [hacross]
    unfold layout
    by_cases h16 : numAllocatedChildren (popcnt16 b') = 16
    · rw [decide_eq_true h16, if_pos rfl, if_pos h16, List.length_map, List.length_finRange, h16]
      exact List.append_nil _
    · have htaken : (List.finRange 16).filter (fun i => isTaken b' i) = taken b' := rfl
      rw [decide_eq_false h16, if_neg Bool.false_ne_true, if_neg h16, List.length_map, htaken,
        length_taken]

theorem set_layout {before after : List (Fin 16)} {m : Fin 16}
    (hsplit : List.finRange 16 = before ++ m :: after) (hm : isTaken b m = true) (x : β) :
    (layout zero b n f).set (place b (decide (n = 16)) before) x =
      layout zero b n (Function.update f m x) := by
  have hnodup := List.nodup_finRange 16
  rw [hsplit, List.nodup_append, List.nodup_cons] at hnodup
  obtain ⟨-, ⟨hafter, -⟩, hbefore⟩ := hnodup
  have hmap : ∀ l : List (Fin 16), m ∉ l → l.map (Function.update f m x) = l.map f := by
    intro l hl
    exact List.map_congr_left fun i hi => Function.update_of_ne (ne_of_mem_of_not_mem hi hl) x f
  have hm_before : m ∉ before := fun hmem => hbefore m hmem m List.mem_cons_self rfl
  unfold layout place
  by_cases h16 : n = 16
  · rw [decide_eq_true h16, if_pos h16, if_pos h16, if_pos rfl, hsplit, List.map_append,
      List.map_append, List.map_cons, List.map_cons, hmap before hm_before, hmap after hafter,
      Function.update_self, List.set_append_right _ _ (by simp)]
    simp
  · rw [decide_eq_false h16, if_neg h16, if_neg h16, if_neg Bool.false_ne_true,
      taken_split hsplit hm, List.map_append, List.map_append, List.map_cons, List.map_cons,
      hmap _ fun hmem => hm_before (List.mem_of_mem_filter hmem),
      hmap _ fun hmem => hafter (List.mem_of_mem_filter hmem), Function.update_self,
      List.append_assoc, List.append_assoc, List.set_append_right _ _ (by simp)]
    simp

/-! ### Arrays of another size -/

theorem mem_iterNonEmpty (h : popcnt16 b ≤ n) {p : Fin 16 × ℕ}
    (hp : p ∈ iterNonEmptyChildIndexes b (layout zero b n f)) :
    isTaken b p.1 = true ∧ (layout zero b n f).getD p.2 zero = f p.1 := by
  unfold iterNonEmptyChildIndexes at hp
  rw [isDense_layout h] at hp
  unfold layout
  by_cases h16 : n = 16
  · rw [decide_eq_true h16, if_pos rfl] at hp
    obtain ⟨i, hi, rfl⟩ := List.mem_map.mp hp
    rw [if_pos h16]
    exact ⟨mem_taken.mp hi, by simp⟩
  · rw [decide_eq_false h16, if_neg Bool.false_ne_true] at hp
    have hget : (taken b)[p.2]? = some p.1 := List.mk_mem_zipIdx_iff_getElem?.mp hp
    obtain ⟨hlt, -⟩ := List.getElem?_eq_some_iff.mp hget
    rw [if_neg h16, List.getD_eq_getElem?_getD,
      List.getElem?_append_left (by rwa [List.length_map]), List.getElem?_map, hget]
    exact ⟨mem_taken.mp (List.mem_of_getElem? hget), rfl⟩

theorem iterNonEmpty_fst (b : BitVec 16) (slots : List β) :
    (iterNonEmptyChildIndexes b slots).map Prod.fst = taken b := by
  unfold iterNonEmptyChildIndexes
  split_ifs
  · rw [List.map_map]
    exact List.map_id _
  · exact List.zipIdx_map_fst 0 _

theorem resize_layout (h : popcnt16 b ≤ n) (hf : Unused zero b f) (t : ℕ) :
    resize zero b (layout zero b n f) t = layout zero b (numAllocatedChildren t) f := by
  unfold resize
  rw [length_layout h]
  by_cases hn : numAllocatedChildren t = n
  · rw [if_pos hn, hn]
  · rw [if_neg hn]
    dsimp only
    have hfst := iterNonEmpty_fst b (layout zero b n f)
    have hmem : ∀ p ∈ iterNonEmptyChildIndexes b (layout zero b n f),
        (layout zero b n f).getD p.2 zero = f p.1 := fun p hp => (mem_iterNonEmpty h hp).2
    have hlayout : layout zero b (numAllocatedChildren t) f =
      if numAllocatedChildren t = 16 then (List.finRange 16).map f
      else (taken b).map f ++ List.replicate (numAllocatedChildren t - popcnt16 b) zero := rfl
    rw [hlayout]
    by_cases h16 : numAllocatedChildren t = 16
    · rw [if_pos h16, if_pos h16]
      refine List.map_congr_left fun i _ => ?_
      cases hfind : (iterNonEmptyChildIndexes b (layout zero b n f)).find? fun p => p.1 = i with
      | some p =>
        have hp := List.mem_of_find?_eq_some hfind
        have hpi : p.1 = i := by simpa using List.find?_some hfind
        rw [Option.map_some, Option.getD_some, hmem p hp, hpi]
      | none =>
        have hnot : i ∉ taken b := by
          rw [← hfst, List.mem_map]
          rintro ⟨p, hp, hpi⟩
          exact absurd hpi (by simpa using List.find?_eq_none.mp hfind p hp)
        rw [Option.map_none, Option.getD_none]
        refine (hf i ?_).symm
        cases hi : isTaken b i with
        | true => exact absurd (mem_taken.mpr hi) hnot
        | false => rfl
    · rw [if_neg h16, if_neg h16]
      have hlen : (iterNonEmptyChildIndexes b (layout zero b n f)).length = popcnt16 b := by
        rw [← length_taken, ← hfst, List.length_map]
      rw [hlen, List.map_congr_left hmem, ← hfst, List.map_map]
      rfl

/-! ### Copies -/

theorem getElem?_foldl_set {γ : Type} (key : γ → ℕ) (value : γ → β) (src : ℕ → β) {l : List γ}
    (hvalue : ∀ p ∈ l, value p = src (key p)) (base : List β) (j : ℕ) :
    (l.foldl (fun slots p => slots.set (key p) (value p)) base)[j]? =
      if j ∈ l.map key then base[j]?.map fun _ => src j else base[j]? := by
  induction l generalizing base with
  | nil => rfl
  | cons p l ih =>
    rw [List.foldl_cons, ih fun q hq => hvalue q (List.mem_cons_of_mem p hq), List.getElem?_set,
      hvalue p List.mem_cons_self, List.map_cons]
    by_cases hj : key p = j
    · subst hj
      rw [if_pos (List.mem_cons_self (a := key p)), if_pos rfl]
      by_cases hlt : key p < base.length
      · simp [hlt]
      · simp [hlt]
    · simp [hj, Ne.symm hj]

theorem getD_layout_of_free (h : popcnt16 b ≤ n) (hf : Unused zero b f) {j : ℕ} (hj : j < n)
    (hfree : j ∉ (iterNonEmptyChildIndexes b (layout zero b n f)).map Prod.snd) :
    (layout zero b n f).getD j zero = zero := by
  unfold iterNonEmptyChildIndexes at hfree
  rw [isDense_layout h] at hfree
  unfold layout
  by_cases h16 : n = 16
  · rw [decide_eq_true h16, if_pos rfl, List.map_map] at hfree
    have hempty : isTaken b ⟨j, h16 ▸ hj⟩ = false := by
      cases hi : isTaken b ⟨j, h16 ▸ hj⟩ with
      | true => exact absurd (List.mem_map.mpr ⟨_, mem_taken.mpr hi, rfl⟩) hfree
      | false => rfl
    rw [if_pos h16, List.getD_eq_getElem?_getD,
      List.getElem?_eq_getElem (by simpa using h16 ▸ hj), List.getElem_map,
      List.getElem_finRange]
    exact hf _ hempty
  · rw [decide_eq_false h16, if_neg Bool.false_ne_true, List.zipIdx_map_snd, length_taken] at hfree
    have hge : popcnt16 b ≤ j := by
      by_contra hlt
      exact hfree (List.mem_range'_1.mpr ⟨Nat.zero_le j, by omega⟩)
    rw [if_neg h16, List.getD_eq_getElem?_getD,
      List.getElem?_append_right (by rwa [List.length_map, length_taken])]
    rw [List.getElem?_replicate]
    split_ifs <;> rfl

theorem copy_layout {γ : Type} (h : popcnt16 b ≤ n) (hf : Unused zero b f) {l : List γ}
    (key : γ → ℕ) (value : γ → β)
    (hkey : l.map key = (iterNonEmptyChildIndexes b (layout zero b n f)).map Prod.snd)
    (hvalue : ∀ p ∈ l, value p = (layout zero b n f).getD (key p) zero) :
    l.foldl (fun slots p => slots.set (key p) (value p)) (List.replicate n zero) =
      layout zero b n f := by
  refine List.ext_getElem? fun j => ?_
  rw [getElem?_foldl_set key value (fun j => (layout zero b n f).getD j zero) hvalue, hkey,
    List.getElem?_replicate]
  by_cases hj : j < n
  · have hget : (layout zero b n f)[j]? = some ((layout zero b n f).getD j zero) := by
      have hlt : j < (layout zero b n f).length := by rwa [length_layout h]
      rw [List.getD_eq_getElem?_getD, List.getElem?_eq_getElem hlt, Option.getD_some]
    rw [if_pos hj, hget]
    by_cases hfree : j ∈ (iterNonEmptyChildIndexes b (layout zero b n f)).map Prod.snd
    · rw [if_pos hfree]
      rfl
    · rw [if_neg hfree, getD_layout_of_free h hf hj hfree]
  · have hnone : (layout zero b n f)[j]? = none :=
      List.getElem?_eq_none (by rw [length_layout h]; omega)
    rw [if_neg hj, hnone]
    split_ifs <;> rfl

end ChildArrays

namespace LinkedInnerNode

open ChildArrays
open TaggedPointer (numAllocatedChildren exists_split popcnt16_le le_numAllocatedChildren)

variable {α : Type} {node : LinkedInnerNode α} {f : Fin 16 → ChildSlot α}

/-- A node whose arrays, of the size that fits its branches, hold `f`. -/
structure Holds (node : LinkedInnerNode α) (f : Fin 16 → ChildSlot α) : Prop where
  slots : node.slots = layout .unused node.isBranch
    (numAllocatedChildren (popcnt16 node.isBranch)) f
  unused : Unused .unused node.isBranch f

theorem count_le (b : BitVec 16) : popcnt16 b ≤ numAllocatedChildren (popcnt16 b) :=
  le_numAllocatedChildren (popcnt16_le b)

theorem getChildHash_eq_slotAt (node : LinkedInnerNode α) (m : Fin 16) :
    node.getChildHash m = (slotAt .unused node.isBranch node.slots m).hash := by
  unfold getChildHash slotAt
  cases getChildIndex node.isBranch node.slots m <;> rfl

theorem getChild_eq_slotAt (node : LinkedInnerNode α) (m : Fin 16) :
    node.getChild m = (slotAt .unused node.isBranch node.slots m).child := by
  unfold getChild slotAt
  cases getChildIndex node.isBranch node.slots m <;> rfl

namespace Holds

theorem slotAt_eq (h : node.Holds f) (m : Fin 16) :
    slotAt .unused node.isBranch node.slots m = f m := by
  rw [h.slots]
  exact slotAt_layout (count_le _) h.unused m

theorem getChildHash (h : node.Holds f) (m : Fin 16) : node.getChildHash m = (f m).hash := by
  rw [getChildHash_eq_slotAt, h.slotAt_eq]

theorem getChild (h : node.Holds f) (m : Fin 16) : node.getChild m = (f m).child := by
  rw [getChild_eq_slotAt, h.slotAt_eq]

theorem capacity (h : node.Holds f) :
    node.capacity = numAllocatedChildren node.getBranchCount := by
  rw [LinkedInnerNode.capacity, h.slots]
  exact length_layout (count_le _)

end Holds

theorem holds_make (cowid : UInt32) :
    (make cowid 2 : LinkedInnerNode α).Holds fun _ => .unused := by
  constructor
  · have hcount : popcnt16 0 = 0 := by decide
    have htaken : TaggedPointer.taken 0 = [] := by decide
    have hsize : numAllocatedChildren 0 = 2 := by decide
    simp only [make, layout, allocate, hcount, htaken, hsize]
    rfl
  · exact fun _ _ => rfl

theorem isTaken_setChild (node : LinkedInnerNode α) (m : Fin 16) (child : Option α) (i : Fin 16) :
    isTaken (node.setChild m child).isBranch i =
      if i = m then child.isSome else isTaken node.isBranch i := by
  have hlt := i.isLt
  unfold setChild isTaken
  by_cases hi : i = m
  · cases child <;> simp [hi]
  · have hne : i.val ≠ m.val := fun h => hi (Fin.ext h)
    cases child <;> simp [hi, hne]

private theorem setChild_slots_of_index {m : Fin 16} {child : α} {k : ℕ}
    (hk : getChildIndex (node.setChild m (some child)).isBranch
      (move .unused node.slots node.isBranch (node.setChild m (some child)).isBranch
        (popcnt16 (node.setChild m (some child)).isBranch)) m = some k) :
    (node.setChild m (some child)).slots =
      (move .unused node.slots node.isBranch (node.setChild m (some child)).isBranch
        (popcnt16 (node.setChild m (some child)).isBranch)).set k ⟨0, some child⟩ := by
  conv_lhs => unfold setChild
  dsimp only
  simp only [setChild] at hk
  rw [hk]
  rfl

theorem Holds.setChild (h : node.Holds f) (m : Fin 16) (child : Option α) :
    (node.setChild m child).Holds (Function.update f m ⟨0, child⟩) := by
  have hbits := isTaken_setChild node m child
  obtain ⟨before, after, hsplit⟩ := exists_split m
  have hsame : ∀ i, i ≠ m →
      isTaken (node.setChild m child).isBranch i = isTaken node.isBranch i := by
    intro i hi
    rw [hbits, if_neg hi]
  have hmove := move_layout hsame (count_le _) h.unused
  rw [← h.slots] at hmove
  constructor
  · cases child with
    | none =>
      have hslots : (node.setChild m none).slots = move .unused node.slots node.isBranch
          (node.setChild m none).isBranch (popcnt16 (node.setChild m none).isBranch) := rfl
      rw [hslots, hmove]
      congr 1
      funext i
      by_cases hi : i = m
      · subst hi
        rw [Function.update_self]
        exact unused_restrict _ _ _ i (by rw [hbits, if_pos rfl]; rfl)
      · rw [Function.update_of_ne hi]
        exact restrict_of_same h.unused (hsame i hi)
    | some child =>
      have hm : isTaken (node.setChild m (some child)).isBranch m = true := by
        rw [hbits, if_pos rfl]
        rfl
      have hindex := @getChildIndex_layout _ ChildSlot.unused
        (node.setChild m (some child)).isBranch _
        (restrict .unused (node.setChild m (some child)).isBranch f) (count_le _) _ _ _ hsplit hm
      rw [← hmove] at hindex
      rw [setChild_slots_of_index hindex, hmove, set_layout hsplit hm]
      congr 1
      funext i
      by_cases hi : i = m
      · subst hi
        rw [Function.update_self, Function.update_self]
      · rw [Function.update_of_ne hi, Function.update_of_ne hi]
        exact restrict_of_same h.unused (hsame i hi)
  · intro i hi
    rw [hbits] at hi
    by_cases him : i = m
    · rw [if_pos him] at hi
      subst him
      have hnone : child = none := Option.not_isSome_iff_eq_none.mp (by simp [hi])
      rw [Function.update_self, hnone]
      rfl
    · rw [if_neg him] at hi
      rw [Function.update_of_ne him]
      exact h.unused i hi

theorem Holds.clone (h : node.Holds f) (cowid : UInt32) : (node.clone cowid).Holds f := by
  refine ⟨?_, h.unused⟩
  have hcount := count_le node.isBranch
  unfold LinkedInnerNode.clone getBranchCount allocate
  dsimp only
  by_cases hdense : isDense node.slots = true
  · rw [if_pos hdense, h.slots]
    refine copy_layout hcount h.unused (fun p : Fin 16 × ℕ => p.1.val) _ ?_ ?_
    · rw [← h.slots]
      simp [iterNonEmptyChildIndexes, hdense]
    · intro p hp
      rw [← h.slots] at hp ⊢
      unfold iterNonEmptyChildIndexes at hp
      rw [if_pos hdense] at hp
      obtain ⟨i, -, rfl⟩ := List.mem_map.mp hp
      rfl
  · rw [if_neg hdense, h.slots]
    refine copy_layout hcount h.unused (fun p : (Fin 16 × ℕ) × ℕ => p.2) _ ?_ ?_
    · rw [← h.slots]
      simp [iterNonEmptyChildIndexes, hdense]
    · intro p hp
      rw [← h.slots] at hp ⊢
      unfold iterNonEmptyChildIndexes at hp
      rw [if_neg hdense] at hp
      -- the second numbering counts the same branches
      have hget := List.mk_mem_zipIdx_iff_getElem?.mp hp
      rw [List.getElem?_zipIdx] at hget
      obtain ⟨i, -, hi⟩ := Option.map_eq_some_iff.mp hget
      have hplace : p.1.2 = p.2 := by
        rw [← hi]
        exact Nat.zero_add _
      rw [hplace]

theorem Holds.slotAt_resize (h : node.Holds f) {t : ℕ} (hfits : node.getBranchCount ≤ t)
    (ht : t ≤ 16) (i : Fin 16) :
    slotAt .unused node.isBranch (node.resizeChildArrays t).slots i = f i := by
  have hroom : popcnt16 node.isBranch ≤ numAllocatedChildren t :=
    hfits.trans (le_numAllocatedChildren ht)
  unfold resizeChildArrays
  rw [h.slots, resize_layout (count_le _) h.unused]
  exact slotAt_layout hroom h.unused i

theorem Holds.resizeChildArrays (h : node.Holds f) :
    (node.resizeChildArrays node.getBranchCount).Holds f := by
  refine ⟨?_, h.unused⟩
  unfold LinkedInnerNode.resizeChildArrays
  dsimp only
  rw [h.slots, resize_layout (count_le _) h.unused]
  rfl

theorem Holds.modifySlot (h : node.Holds f) (m : Fin 16) (g : ChildSlot α → ChildSlot α) :
    (node.modifySlot m g).Holds
      (if isTaken node.isBranch m then Function.update f m (g (f m)) else f) := by
  obtain ⟨before, after, hsplit⟩ := exists_split m
  cases hm : isTaken node.isBranch m with
  | false =>
    have hempty : node.isEmptyBranch m = true := by rw [isEmptyBranch, hm]; rfl
    rw [LinkedInnerNode.modifySlot, if_pos hempty, if_neg Bool.false_ne_true]
    exact h
  | true =>
    have htaken : ¬node.isEmptyBranch m = true := by rw [isEmptyBranch, hm]; decide
    have hindex := @getChildIndex_layout _ ChildSlot.unused node.isBranch _ f (count_le _) _ _ _
      hsplit hm
    rw [← h.slots] at hindex
    rw [LinkedInnerNode.modifySlot, if_neg htaken, hindex, if_pos rfl]
    constructor
    · dsimp only
      rw [h.slots, getD_layout hsplit hm, set_layout hsplit hm]
    · intro i hi
      have him : i ≠ m := fun him => by simp [him ▸ hi] at hm
      rw [Function.update_of_ne him]
      exact h.unused i hi

theorem exists_finish_of_makeFullInner {sha512Half : Blob → UInt256} {data : Blob}
    {hash : Option UInt256} {node : SHAMapInnerNode}
    (h : SHAMapInnerNode.makeFullInner sha512Half data hash = some node) :
    ∃ entries hash, node =
      { (SHAMapInnerNode.emptyFilling.putAll entries).finish with hash := hash } := by
  unfold SHAMapInnerNode.makeFullInner at h
  split_ifs at h
  rw [SHAMapInnerNode.foldl_put_eq] at h
  cases hash with
  | none => exact ⟨_, _, (Option.some.inj h).symm⟩
  | some hash => exact ⟨_, _, (Option.some.inj h).symm⟩

theorem exists_finish_of_makeCompressedInner {sha512Half : Blob → UInt256} {data : Blob}
    {node : SHAMapInnerNode}
    (h : SHAMapInnerNode.makeCompressedInner sha512Half data = some node) :
    ∃ entries hash, node =
      { (SHAMapInnerNode.emptyFilling.putAll entries).finish with hash := hash } := by
  unfold SHAMapInnerNode.makeCompressedInner at h
  split_ifs at h
  obtain ⟨filling, hfilling, hnode⟩ := Option.map_eq_some_iff.mp h
  obtain rfl := SHAMapInnerNode.foldlM_readChunk hfilling
  exact ⟨_, _, hnode.symm⟩

theorem exists_finish_of_makeFromWire {sha512Half : Blob → UInt256} {rawNode : Blob}
    {node : SHAMapInnerNode} (h : SHAMapInnerNode.makeFromWire sha512Half rawNode = some node) :
    ∃ entries hash, node =
      { (SHAMapInnerNode.emptyFilling.putAll entries).finish with hash := hash } := by
  unfold SHAMapInnerNode.makeFromWire at h
  split at h
  · exact exists_finish_of_makeFullInner h
  · exact exists_finish_of_makeCompressedInner h
  · cases h

theorem exists_finish_of_makeFromPrefix {sha512Half : Blob → UInt256} {rawNode : Blob}
    {hash : UInt256} {node : SHAMapInnerNode}
    (h : SHAMapInnerNode.makeFromPrefix sha512Half rawNode hash = some node) :
    ∃ entries hash, node =
      { (SHAMapInnerNode.emptyFilling.putAll entries).finish with hash := hash } := by
  unfold SHAMapInnerNode.makeFromPrefix at h
  split_ifs at h
  exact exists_finish_of_makeFullInner h

theorem holds_ofRead {entries : List (Fin 16 × UInt256)} {hash : UInt256} :
    (ofRead { (SHAMapInnerNode.emptyFilling.putAll entries).finish with hash := hash } :
      LinkedInnerNode α).Holds
      fun i => ⟨(SHAMapInnerNode.emptyFilling.putAll entries).hashes i, none⟩ := by
  have hunused : Unused 0 (SHAMapInnerNode.emptyFilling.putAll entries).isBranch
      (SHAMapInnerNode.emptyFilling.putAll entries).hashes := fun _ hi =>
    SHAMapInnerNode.Filling.hashes_of_not_taken hi
  have hdense : (List.finRange 16).map (SHAMapInnerNode.emptyFilling.putAll entries).hashes =
      layout 0 (SHAMapInnerNode.emptyFilling.putAll entries).isBranch 16
        (SHAMapInnerNode.emptyFilling.putAll entries).hashes := rfl
  have hfinish : ((SHAMapInnerNode.emptyFilling.putAll entries).finish).hashes =
      resize 0 (SHAMapInnerNode.emptyFilling.putAll entries).isBranch
        ((List.finRange 16).map (SHAMapInnerNode.emptyFilling.putAll entries).hashes)
        (popcnt16 (SHAMapInnerNode.emptyFilling.putAll entries).isBranch) := rfl
  rw [hdense, resize_layout (popcnt16_le _) hunused] at hfinish
  constructor
  · unfold ofRead
    dsimp only
    rw [hfinish]
    exact map_layout _ _ _ rfl
  · intro i hi
    have hzero := hunused i hi
    dsimp only
    rw [hzero]
    rfl

/-! ### Every node the program builds -/

variable {sha512Half : Blob → UInt256} {getHash : α → UInt256}

theorem Reachable.exists_holds (h : Reachable sha512Half getHash node) : ∃ f, node.Holds f := by
  induction h with
  | make cowid => exact ⟨_, holds_make cowid⟩
  | fromWire h =>
    obtain ⟨entries, hash, rfl⟩ := exists_finish_of_makeFromWire h
    exact ⟨_, holds_ofRead⟩
  | fromPrefix h =>
    obtain ⟨entries, hash, rfl⟩ := exists_finish_of_makeFromPrefix h
    exact ⟨_, holds_ofRead⟩
  | setChild _ m child ih => exact ih.elim fun _ hf => ⟨_, hf.setChild m child⟩
  | clone _ cowid ih => exact ih.elim fun _ hf => ⟨_, hf.clone cowid⟩
  | resizeChildArrays _ ih => exact ih.elim fun _ hf => ⟨_, hf.resizeChildArrays⟩
  | shareChild _ m child ih => exact ih.elim fun _ hf => ⟨_, hf.modifySlot m _⟩
  | canonicalizeChild _ branch child ih => exact ih.elim fun _ hf => ⟨_, hf.modifySlot branch _⟩
  | refresh _ branch ih => exact ih.elim fun _ hf => ⟨_, hf.modifySlot branch _⟩
  | setHash _ hash ih => exact ih.elim fun f hf => ⟨f, hf.slots, hf.unused⟩

/-- **A write to a branch is seen at that branch only.** Setting or clearing a branch leaves the
hash and the child of every other one, through every change of size; a change of size alone and a
copy leave those of all; and there is always room for the branches that are taken. -/
theorem setChild_frame (h : Reachable sha512Half getHash node) :
    (∀ m child j, j ≠ m →
      (node.setChild m child).getChildHash j = node.getChildHash j ∧
      (node.setChild m child).getChild j = node.getChild j ∧
      (node.setChild m child).isEmptyBranch j = node.isEmptyBranch j) ∧
    (∀ m child,
      (node.setChild m child).getChildHash m = 0 ∧ (node.setChild m child).getChild m = child ∧
      (node.setChild m child).isEmptyBranch m = child.isNone) ∧
    (∀ toAllocate, node.getBranchCount ≤ toAllocate → toAllocate ≤ 16 → ∀ j,
      (node.resizeChildArrays toAllocate).getChildHash j = node.getChildHash j ∧
      (node.resizeChildArrays toAllocate).getChild j = node.getChild j) ∧
    (∀ cowid j,
      (node.clone cowid).getChildHash j = node.getChildHash j ∧
      (node.clone cowid).getChild j = node.getChild j ∧
      (node.clone cowid).isEmptyBranch j = node.isEmptyBranch j) ∧
    node.getBranchCount ≤ node.capacity := by
  obtain ⟨f, hf⟩ := h.exists_holds
  refine ⟨?_, ?_, ?_, ?_, ?_⟩
  · intro m child j hj
    have hset := hf.setChild m child
    refine ⟨?_, ?_, ?_⟩
    · rw [hset.getChildHash, hf.getChildHash, Function.update_of_ne hj]
    · rw [hset.getChild, hf.getChild, Function.update_of_ne hj]
    · rw [isEmptyBranch, isTaken_setChild, if_neg hj]
      rfl
  · intro m child
    have hset := hf.setChild m child
    refine ⟨?_, ?_, ?_⟩
    · rw [hset.getChildHash, Function.update_self]
    · rw [hset.getChild, Function.update_self]
    · rw [isEmptyBranch, isTaken_setChild, if_pos rfl]
      cases child <;> rfl
  · intro toAllocate hfits ht j
    have hslot := hf.slotAt_resize hfits ht j
    constructor
    · rw [getChildHash_eq_slotAt, hf.getChildHash]
      exact congrArg ChildSlot.hash hslot
    · rw [getChild_eq_slotAt, hf.getChild]
      exact congrArg ChildSlot.child hslot
  · intro cowid j
    have hclone := hf.clone cowid
    refine ⟨?_, ?_, rfl⟩
    · rw [hclone.getChildHash, hf.getChildHash]
    · rw [hclone.getChild, hf.getChild]
  · rw [hf.capacity]
    exact count_le node.isBranch

theorem setChild_frame_two :
    (((make 1 2 : LinkedInnerNode ℕ).setChild 3 (some 7)).setChild 1 (some 8)).getChild 3 =
      some 7 := by
  have h : Reachable (fun _ => 0) (fun _ => 0)
      ((make 1 2 : LinkedInnerNode ℕ).setChild 3 (some 7)) :=
    .setChild (.make 1) 3 (some 7)
  rw [((setChild_frame h).1 1 (some 8) 3 (by decide)).2.1]
  decide

end LinkedInnerNode

end FalconLedger
