import FalconLedger.SHAMap.Delta
import FalconLedger.Properties.SHAMapContents
import FalconLedger.Properties.SHAMapOrder
import FalconLedger.Properties.SHAMapProofs

/-!
# What a comparison of maps finds

The loops of `compare` report one list of differences, which depends on the two trees only, until
the countdown ends them. The list has each key under which the maps differ once, with what each of
them has there: subtrees with one hash hold the same items, where the hash has no collision.
-/

namespace FalconLedger

open RadixTree SHAMapTreeNode

namespace SHAMap

/-! ### Lists of differences -/

/-- `E` lists the keys under which two maps differ, each once, with both values. -/
structure IsDelta (m m' : UInt256 → Option SHAMapItem) (E : Delta) : Prop where
  nodup : (E.map Prod.fst).Nodup
  mem_iff : ∀ e, e ∈ E ↔ e.2 = (m e.1, m' e.1) ∧ m e.1 ≠ m' e.1

variable {m m' : UInt256 → Option SHAMapItem} {E E' : Delta} {k : UInt256}

theorem isDelta_nil : IsDelta m m [] where
  nodup := List.nodup_nil
  mem_iff e := by simp

theorem IsDelta.not_mem (h : IsDelta m m' E) (hk : m k = m' k) : k ∉ E.map Prod.fst := by
  rintro hmem
  obtain ⟨e, he, rfl⟩ := List.mem_map.mp hmem
  exact ((h.mem_iff e).mp he).2 hk

theorem IsDelta.perm (h : IsDelta m m' E) (hperm : E.Perm E') : IsDelta m m' E' where
  nodup := (hperm.map Prod.fst).nodup_iff.mp h.nodup
  mem_iff e := hperm.mem_iff.symm.trans (h.mem_iff e)

theorem IsDelta.cons (h : IsDelta m m' E) (hk : m k = none) (hk' : m' k = none)
    {a b : Option SHAMapItem} (hab : a ≠ b) :
    IsDelta (Function.update m k a) (Function.update m' k b) ((k, (a, b)) :: E) where
  nodup := by
    rw [List.map_cons, List.nodup_cons]
    exact ⟨h.not_mem (hk.trans hk'.symm), h.nodup⟩
  mem_iff e := by
    obtain ⟨k₀, r⟩ := e
    rw [List.mem_cons]
    by_cases hkey : k₀ = k
    · subst hkey
      have hnot : (k₀, r) ∉ E := fun hmem =>
        h.not_mem (hk.trans hk'.symm) (List.mem_map_of_mem hmem)
      simp [hnot, hab]
    · rw [h.mem_iff]
      simp [hkey]

theorem IsDelta.same (h : IsDelta m m' E) (hk : m k = none) (hk' : m' k = none)
    (a : Option SHAMapItem) :
    IsDelta (Function.update m k a) (Function.update m' k a) E where
  nodup := h.nodup
  mem_iff e := by
    rw [h.mem_iff]
    by_cases hkey : e.1 = k
    · simp [hkey, hk, hk']
    · simp [hkey]

theorem IsDelta.swap (h : IsDelta m m' E) :
    IsDelta m' m (E.map fun e => (e.1, e.2.swap)) where
  nodup := by
    rw [List.map_map]
    exact h.nodup
  mem_iff e := by
    rw [List.mem_map]
    constructor
    · rintro ⟨e₀, he₀, rfl⟩
      obtain ⟨hitems, hne⟩ := (h.mem_iff e₀).mp he₀
      dsimp only
      rw [hitems]
      exact ⟨rfl, hne.symm⟩
    · rintro ⟨hitems, hne⟩
      refine ⟨(e.1, e.2.swap), (h.mem_iff _).mpr ⟨?_, hne.symm⟩, ?_⟩
      · rw [hitems]
        rfl
      · rw [Prod.swap_swap]

/-- Two lists of the differences of the same maps have the same entries. -/
theorem IsDelta.mem_iff_mem (h : IsDelta m m' E) (h' : IsDelta m m' E') (e : UInt256 × DeltaItem) :
    e ∈ E ↔ e ∈ E' := (h.mem_iff e).trans (h'.mem_iff e).symm

theorem isDelta_flatMap {g : UInt256 → Fin 16} {M M' : Fin 16 → UInt256 → Option SHAMapItem}
    {D : Fin 16 → Delta} (hD : ∀ i, IsDelta (M i) (M' i) (D i))
    (hM : ∀ i k, g k ≠ i → M i k = none ∧ M' i k = none) :
    IsDelta (fun k => M (g k) k) (fun k => M' (g k) k) ((List.finRange 16).flatMap D) where
  nodup := by
    rw [List.map_flatMap, List.nodup_flatMap]
    refine ⟨fun i _ => (hD i).nodup, ?_⟩
    refine (List.nodup_finRange 16).imp fun {i j} hij k hi hj => hij ?_
    -- an entry of a part is under a key with its digit
    have hdigit : ∀ {i}, k ∈ (D i).map Prod.fst → g k = i := by
      intro i hk
      by_contra hne
      obtain ⟨hnone, hnone'⟩ := hM i k hne
      exact (hD i).not_mem (hnone.trans hnone'.symm) hk
    exact (hdigit hi).symm.trans (hdigit hj)
  mem_iff e := by
    rw [List.mem_flatMap]
    constructor
    · rintro ⟨i, -, he⟩
      obtain ⟨hitems, hne⟩ := ((hD i).mem_iff e).mp he
      have hdigit : g e.1 = i := by
        by_contra hdigit
        obtain ⟨hnone, hnone'⟩ := hM i e.1 hdigit
        exact hne (hnone.trans hnone'.symm)
      rw [hdigit]
      exact ⟨hitems, hne⟩
    · rintro ⟨hitems, hne⟩
      exact ⟨g e.1, List.mem_finRange _, ((hD _).mem_iff e).mpr ⟨hitems, hne⟩⟩

/-! ### The countdown -/

/-- Record differences one after the other. -/
def reportAll (p : Progress) (E : Delta) : Except Delta Progress := E.foldlM report p

theorem reportAll_append (p : Progress) (E E' : Delta) :
    reportAll p (E ++ E') = reportAll p E >>= fun p => reportAll p E' :=
  List.foldlM_append

theorem reportAll_eq {p : Progress} (hnodup : ((p.differences ++ E).map Prod.fst).Nodup)
    (hmax : 1 ≤ p.maxCount) :
    reportAll p E =
      if (E.length : ℤ) < p.maxCount then .ok ⟨p.differences ++ E, p.maxCount - E.length⟩
      else .error (p.differences ++ E.take p.maxCount.toNat) := by
  induction E generalizing p with
  | nil =>
    rw [if_pos (by simpa using by omega)]
    simp [reportAll, pure, Except.pure]
  | cons e E ih =>
    have hnew : insertDelta p.differences e.1 e.2 = p.differences ++ [e] := by
      rw [List.map_append, List.map_cons, List.nodup_append] at hnodup
      refine if_neg fun hany => ?_
      obtain ⟨e₀, he₀, hkey⟩ := List.any_eq_true.mp hany
      exact hnodup.2.2 e₀.1 (List.mem_map_of_mem he₀) e.1 List.mem_cons_self
        (of_decide_eq_true hkey)
    have hsplit : p.differences ++ e :: E = (p.differences ++ [e]) ++ E := by
      rw [List.append_assoc, List.singleton_append]
    rw [reportAll, List.foldlM_cons, report, hnew, List.length_cons]
    by_cases hlast : p.maxCount - 1 ≤ 0
    · have hone : p.maxCount = 1 := by omega
      rw [if_pos hlast, if_neg (by omega), hone]
      rfl
    · have hrest := @ih ⟨p.differences ++ [e], p.maxCount - 1⟩ (by rwa [← hsplit]) (by dsimp; omega)
      rw [if_neg hlast]
      refine hrest.trans ?_
      dsimp only
      by_cases hfits : (E.length : ℤ) < p.maxCount - 1
      · rw [if_pos hfits, if_pos (by omega), ← hsplit]
        push_cast
        congr 2
        ring
      · have htake : p.maxCount.toNat = (p.maxCount - 1).toNat + 1 := by omega
        rw [if_neg hfits, if_neg (by omega), htake, List.take_succ_cons, ← List.append_cons]

/-! ### A branch against a single item -/

/-- What `walkBranch` reports of the items of a branch and an item of the other map. -/
def entriesOf (isFirstMap : Bool) : List SHAMapItem → Option SHAMapItem → Delta
  | [], none => []
  | [], some other => [(other.key, deltaRef isFirstMap none (some other))]
  | item :: items, none =>
    (item.key, deltaRef isFirstMap (some item) none) :: entriesOf isFirstMap items none
  | item :: items, some other =>
    if item.key ≠ other.key then
      (item.key, deltaRef isFirstMap (some item) none) :: entriesOf isFirstMap items (some other)
    else if item.data ≠ other.data then
      (item.key, deltaRef isFirstMap (some item) (some other)) :: entriesOf isFirstMap items none
    else entriesOf isFirstMap items none

/-- The items of a tree as a stack brings them up, those of the last branch first. -/
def itemsOf (t : SHAMapTreeNode) : List SHAMapItem :=
  (t.leaves (Sweep.down 16)).map SHAMapLeafNode.item

theorem itemsOf_inner (c : Fin 16 → SHAMapTreeNode) :
    itemsOf (.inner c) = (List.finRange 16).reverse.flatMap fun i => itemsOf (c i) := by
  unfold itemsOf
  rw [leaves, List.map_flatMap]
  rfl

theorem flatMap_branches (c : Fin 16 → SHAMapTreeNode) :
    ((branches c).reverse.map c).flatMap itemsOf = itemsOf (.inner c) := by
  rw [itemsOf_inner, List.flatMap_map, branches, ← List.filter_reverse]
  induction (List.finRange 16).reverse with
  | nil => rfl
  | cons i l ih =>
    cases hi : (c i).isEmpty with
    | false => simp [hi, ih]
    | true =>
      have hempty : itemsOf (c i) = [] := by
        rw [isEmpty_iff.mp hi]
        rfl
      simp [hi, ih, hempty]

theorem visitLeaf_bind (otherMapItem : Option SHAMapItem) (isFirstMap : Bool) (item : SHAMapItem)
    (items : List SHAMapItem) (emptyBranch : Bool) (p : Progress) :
    (visitLeaf otherMapItem isFirstMap item emptyBranch p >>= fun r =>
        reportAll r.2 (entriesOf isFirstMap items (if r.1 then none else otherMapItem))) =
      reportAll p (entriesOf isFirstMap (item :: items)
        (if emptyBranch then none else otherMapItem)) := by
  cases emptyBranch with
  | true =>
    simp only [visitLeaf, entriesOf, reportAll, if_true, bind_assoc, pure_bind, List.foldlM_cons]
  | false =>
    cases otherMapItem with
    | none =>
      simp only [visitLeaf, entriesOf, reportAll, Bool.false_eq_true, if_false, bind_assoc,
        pure_bind, List.foldlM_cons]
    | some other =>
      simp only [visitLeaf, entriesOf, Bool.false_eq_true, if_false]
      by_cases hkey : item.key ≠ other.key
      · simp only [if_pos hkey, reportAll, bind_assoc, pure_bind, List.foldlM_cons,
          Bool.false_eq_true, if_false]
      · rw [if_neg hkey, if_neg hkey]
        by_cases hdata : item.data ≠ other.data
        · simp only [if_pos hdata, reportAll, bind_assoc, pure_bind, List.foldlM_cons, if_true]
        · rw [if_neg hdata, if_neg hdata]
          rfl

theorem walkLoop_bind (otherMapItem : Option SHAMapItem) (isFirstMap : Bool)
    (nodeStack : List SHAMapTreeNode) (emptyBranch : Bool) (p : Progress) :
    (walkLoop otherMapItem isFirstMap nodeStack emptyBranch p >>= fun r =>
        reportAll r.2 (entriesOf isFirstMap [] (if r.1 then none else otherMapItem))) =
      reportAll p (entriesOf isFirstMap (nodeStack.flatMap itemsOf)
        (if emptyBranch then none else otherMapItem)) := by
  induction nodeStack, emptyBranch, p using walkLoop.induct with
  | case1 emptyBranch p =>
    rw [walkLoop]
    rfl
  | case2 nodeStack emptyBranch p ih =>
    rw [walkLoop, ih]
    rfl
  | case3 l nodeStack emptyBranch p ih =>
    have hitems : (RadixTree.leaf l :: nodeStack).flatMap itemsOf =
        l.item :: nodeStack.flatMap itemsOf := rfl
    rw [walkLoop, bind_assoc, hitems, ← visitLeaf_bind]
    exact bind_congr fun r => ih r.1 r.2
  | case4 c nodeStack emptyBranch p ih =>
    rw [walkLoop, ih, List.flatMap_append, flatMap_branches, List.flatMap_cons]

theorem walkBranch_eq (node : SHAMapTreeNode) (otherMapItem : Option SHAMapItem)
    (isFirstMap : Bool) (p : Progress) :
    walkBranch node otherMapItem isFirstMap p =
      reportAll p (entriesOf isFirstMap (itemsOf node) otherMapItem) := by
  have hloop := walkLoop_bind otherMapItem isFirstMap [node] otherMapItem.isNone p
  have hstart : (if otherMapItem.isNone then none else otherMapItem) = otherMapItem := by
    cases otherMapItem <;> rfl
  rw [List.flatMap_singleton, hstart] at hloop
  rw [← hloop, walkBranch]
  refine bind_congr fun r => ?_
  obtain ⟨emptyBranch, p⟩ := r
  cases emptyBranch with
  | true => cases otherMapItem <;> rfl
  | false =>
    cases otherMapItem with
    | none => rfl
    | some other => simp [reportAll, entriesOf]

/-! ### The items of a tree -/

/-- What a tree whose root is at a depth holds under a key. -/
def contents (d : ℕ) (t : SHAMapTreeNode) (k : UInt256) : Option SHAMapItem :=
  (find nibble keyOf k d t).map SHAMapLeafNode.item

/-- The item of a list under a key. -/
def lookup : List SHAMapItem → UInt256 → Option SHAMapItem
  | [] => fun _ => none
  | item :: items => Function.update (lookup items) item.key (some item)

/-- A map of one item at most. -/
def single : Option SHAMapItem → UInt256 → Option SHAMapItem
  | none => fun _ => none
  | some item => Function.update (fun _ => none) item.key (some item)

theorem lookup_eq_some {items : List SHAMapItem} (h : (items.map SHAMapItem.key).Nodup)
    {item : SHAMapItem} : lookup items k = some item ↔ item ∈ items ∧ item.key = k := by
  induction items with
  | nil => simp [lookup]
  | cons first items ih =>
    rw [List.map_cons, List.nodup_cons] at h
    rw [lookup, List.mem_cons]
    by_cases hkey : k = first.key
    · subst hkey
      rw [Function.update_self, Option.some.injEq]
      constructor
      · rintro rfl
        exact ⟨.inl rfl, rfl⟩
      · rintro ⟨rfl | hmem, heq⟩
        · rfl
        · exact absurd (heq ▸ List.mem_map_of_mem hmem) h.1
    · rw [Function.update_of_ne hkey, ih h.2]
      constructor
      · exact fun hmem => ⟨.inr hmem.1, hmem.2⟩
      · rintro ⟨rfl | hmem, heq⟩
        · exact absurd heq.symm hkey
        · exact ⟨hmem, heq⟩

theorem lookup_eq_none {items : List SHAMapItem} (h : k ∉ items.map SHAMapItem.key) :
    lookup items k = none := by
  induction items with
  | nil => rfl
  | cons first items ih =>
    rw [List.map_cons, List.mem_cons, not_or] at h
    rw [lookup, Function.update_of_ne h.1, ih h.2]

theorem isDelta_entriesOf {items : List SHAMapItem} (h : (items.map SHAMapItem.key).Nodup)
    (other : Option SHAMapItem) :
    IsDelta (lookup items) (single other) (entriesOf true items other) := by
  induction items generalizing other with
  | nil =>
    cases other with
    | none => exact isDelta_nil
    | some other =>
      have hcons := (@isDelta_nil fun _ => none).cons (k := other.key) rfl rfl
        (a := none) (b := some other) (Option.some_ne_none other).symm
      have hself : Function.update (fun _ => none) other.key none =
          (fun _ => none : UInt256 → Option SHAMapItem) := Function.update_eq_self_iff.mpr rfl
      rwa [hself] at hcons
  | cons item items ih =>
    rw [List.map_cons, List.nodup_cons] at h
    have hnone := lookup_eq_none h.1
    cases other with
    | none =>
      have hcons := (ih h.2 none).cons hnone rfl (a := some item) (b := none)
        (Option.some_ne_none item)
      have hself : Function.update (single none) item.key none = single none :=
        Function.update_eq_self_iff.mpr rfl
      rwa [hself] at hcons
    | some other =>
      rw [entriesOf]
      by_cases hkey : item.key = other.key
      · have hsingle : single (some other) =
            Function.update (single none) item.key (some other) := by
          rw [hkey]
          rfl
        rw [if_neg (not_not.mpr hkey), hsingle]
        by_cases hdata : item.data = other.data
        · have hitem : other = item := by
            cases item
            cases other
            simp_all
          rw [if_neg (not_not.mpr hdata), hitem]
          exact (ih h.2 none).same hnone rfl _
        · rw [if_pos hdata]
          refine (ih h.2 none).cons hnone rfl fun heq => hdata ?_
          rw [Option.some.inj heq]
      · have hother : single (some other) item.key = none := by
          rw [single, Function.update_of_ne hkey]
        have hself : Function.update (single (some other)) item.key none = single (some other) :=
          Function.update_eq_self_iff.mpr hother.symm
        have hcons := (ih h.2 (some other)).cons hnone hother (a := some item) (b := none)
          (Option.some_ne_none item)
        rw [hself] at hcons
        rwa [if_pos hkey]

theorem entriesOf_false (items : List SHAMapItem) (other : Option SHAMapItem) :
    entriesOf false items other = (entriesOf true items other).map fun e => (e.1, e.2.swap) := by
  induction items generalizing other with
  | nil => cases other <;> rfl
  | cons item items ih =>
    cases other with
    | none =>
      rw [entriesOf, entriesOf, List.map_cons, ih]
      rfl
    | some other =>
      rw [entriesOf, entriesOf]
      split_ifs
      · rw [List.map_cons, ih]
        rfl
      · rw [List.map_cons, ih]
        rfl
      · exact ih none

theorem nodup_itemsOf {d : ℕ} {t : SHAMapTreeNode} (h : Placed nibble keyOf d t) :
    ((itemsOf t).map SHAMapItem.key).Nodup := by
  induction t generalizing d with
  | empty => exact List.nodup_nil
  | leaf l => exact List.nodup_singleton _
  | inner c ih =>
    rw [itemsOf_inner, List.map_flatMap, List.nodup_flatMap]
    refine ⟨fun i _ => ih i (h.1 i), ?_⟩
    have hdigit : ∀ {i k}, k ∈ (itemsOf (c i)).map SHAMapItem.key → nibble d k = i := by
      intro i k hk
      obtain ⟨item, hitem, rfl⟩ := List.mem_map.mp hk
      obtain ⟨l, hl, rfl⟩ := List.mem_map.mp hitem
      exact h.2 i l (mem_leaves.mp hl)
    refine (List.nodup_reverse.mpr (List.nodup_finRange 16)).imp fun {i j} hij k hi hj => hij ?_
    exact (hdigit hi).symm.trans (hdigit hj)

theorem contents_eq_lookup {d : ℕ} {t : SHAMapTreeNode} (h : Placed nibble keyOf d t) :
    contents d t = lookup (itemsOf t) := by
  refine funext fun k => Option.ext fun item => ?_
  rw [lookup_eq_some (nodup_itemsOf h), contents, Option.map_eq_some_iff, itemsOf, List.mem_map]
  constructor
  · rintro ⟨l, hl, rfl⟩
    obtain ⟨hmem, hkey⟩ := h.find_eq_some.mp hl
    exact ⟨⟨l, mem_leaves.mpr hmem, rfl⟩, hkey⟩
  · rintro ⟨⟨l, hl, rfl⟩, hkey⟩
    exact ⟨l, h.find_eq_some.mpr ⟨mem_leaves.mp hl, hkey⟩, rfl⟩

theorem contents_leaf (d : ℕ) (l : SHAMapLeafNode) :
    contents d (.leaf l) = single (some l.item) :=
  contents_eq_lookup (t := .leaf l) trivial

/-! ### Two trees -/

section Pairs

variable (sha512Half : Blob → UInt256)

/-- What two inner nodes report at a branch that only one of them has. -/
def branchEntries (c c' : Fin 16 → SHAMapTreeNode) (i : Fin 16) : Delta :=
  if getHash sha512Half (c i) ≠ getHash sha512Half (c' i) then
    if (c' i).isEmpty then entriesOf true (itemsOf (c i)) none
    else if (c i).isEmpty then entriesOf false (itemsOf (c' i)) none
    else []
  else []

/-- What a pair of nodes reports itself. -/
def hereEntries : SHAMapTreeNode → SHAMapTreeNode → Delta
  | .leaf l, .leaf l' => entriesOf true [l.item] (some l'.item)
  | .inner c, .leaf l' => entriesOf true (itemsOf (.inner c)) (some l'.item)
  | .leaf l, .inner c' => entriesOf false (itemsOf (.inner c')) (some l.item)
  | .inner c, .inner c' => (List.finRange 16).flatMap (branchEntries sha512Half c c')
  | _, _ => []

/-- What a pair of nodes reports in all. -/
def pairEntries : SHAMapTreeNode → SHAMapTreeNode → Delta
  | .inner c, .inner c' =>
    hereEntries sha512Half (.inner c) (.inner c') ++
      (bothBranches sha512Half c c').reverse.flatMap fun i => pairEntries (c i) (c' i)
  | .inner c, t' => hereEntries sha512Half (.inner c) t'
  | .leaf l, t' => hereEntries sha512Half (.leaf l) t'
  | .empty, t' => hereEntries sha512Half .empty t'

theorem pairEntries_eq (t t' : SHAMapTreeNode) :
    pairEntries sha512Half t t' = hereEntries sha512Half t t' ++
      (pairsBelow sha512Half t t').reverse.flatMap fun q => pairEntries sha512Half q.1 q.2 := by
  cases t with
  | empty => simp [pairEntries, pairsBelow]
  | leaf l => simp [pairEntries, pairsBelow]
  | inner c =>
    cases t' with
    | empty => simp [pairEntries, pairsBelow]
    | leaf l => simp [pairEntries, pairsBelow]
    | inner c' =>
      rw [pairEntries, pairsBelow, ← List.map_reverse, List.flatMap_map]

theorem compareBranch_eq (c c' : Fin 16 → SHAMapTreeNode) (p : Progress) (i : Fin 16) :
    compareBranch sha512Half c c' p i = reportAll p (branchEntries sha512Half c c' i) := by
  unfold compareBranch branchEntries
  split_ifs
  · exact walkBranch_eq _ _ _ _
  · exact walkBranch_eq _ _ _ _
  · rfl
  · rfl

theorem foldlM_compareBranch (c c' : Fin 16 → SHAMapTreeNode) (l : List (Fin 16)) (p : Progress) :
    l.foldlM (compareBranch sha512Half c c') p =
      reportAll p (l.flatMap (branchEntries sha512Half c c')) := by
  induction l generalizing p with
  | nil => rfl
  | cons i l ih =>
    rw [List.foldlM_cons, compareBranch_eq, List.flatMap_cons, reportAll_append]
    exact bind_congr ih

theorem comparePair_eq (t t' : SHAMapTreeNode) (p : Progress) :
    comparePair sha512Half p t t' = reportAll p (hereEntries sha512Half t t') := by
  cases t with
  | empty => cases t' <;> rfl
  | leaf l =>
    cases t' with
    | empty => rfl
    | leaf l' =>
      rw [comparePair, compareLeaves, hereEntries, entriesOf]
      by_cases hkey : l.item.key = l'.item.key
      · rw [if_pos hkey, if_neg (not_not.mpr hkey)]
        split_ifs
        · simp [reportAll, entriesOf, deltaRef]
        · rfl
      · rw [if_neg hkey, if_pos hkey]
        simp [reportAll, entriesOf, deltaRef]
    | inner c' => exact walkBranch_eq _ _ _ _
  | inner c =>
    cases t' with
    | empty => rfl
    | leaf l' => exact walkBranch_eq _ _ _ _
    | inner c' => exact foldlM_compareBranch sha512Half c c' _ p

theorem compareLoop_eq (nodeStack : List (SHAMapTreeNode × SHAMapTreeNode)) (p : Progress) :
    compareLoop sha512Half nodeStack p =
      reportAll p (nodeStack.flatMap fun q => pairEntries sha512Half q.1 q.2) := by
  induction nodeStack, p using compareLoop.induct sha512Half with
  | case1 p => rw [compareLoop]; rfl
  | case2 p ours other nodeStack ih =>
    rw [compareLoop, comparePair_eq, List.flatMap_cons, pairEntries_eq, reportAll_append,
      reportAll_append, bind_assoc]
    refine bind_congr fun p => ?_
    rw [ih p, List.flatMap_append, reportAll_append]

/-! ### Equal hashes -/

variable {sha512Half}

theorem getHash_inner_empty {c : Fin 16 → SHAMapTreeNode} (h : ∀ i, c i = .empty) :
    getHash sha512Half (.inner c) = 0 := if_pos fun i => isEmpty_iff.mpr (h i)

theorem childHash_eq {c c' : Fin 16 → SHAMapTreeNode}
    (hfree : CollisionFree sha512Half fun bytes =>
      Hashed sha512Half (.inner c) bytes ∨ Hashed sha512Half (.inner c') bytes)
    (heq : getHash sha512Half (.inner c) = getHash sha512Half (.inner c')) (i : Fin 16) :
    getHash sha512Half (c i) = getHash sha512Half (c' i) := by
  by_cases hc : ∃ i, c i ≠ .empty
  · by_cases hc' : ∃ i, c' i ≠ .empty
    · rw [getHash_inner hc, getHash_inner hc'] at heq
      have hpre := hfree.inj _ _ (.inl (.inl ⟨hc, rfl⟩)) (.inr (.inl ⟨hc', rfl⟩)) heq
      exact congrFun (innerPreimage_inj hpre) i
    · push Not at hc'
      rw [getHash_inner hc, getHash_inner_empty hc'] at heq
      exact absurd heq (hfree.nonzero _ (.inl (.inl ⟨hc, rfl⟩)))
  · push Not at hc
    by_cases hc' : ∃ i, c' i ≠ .empty
    · rw [getHash_inner_empty hc, getHash_inner hc'] at heq
      exact absurd heq.symm (hfree.nonzero _ (.inr (.inl ⟨hc', rfl⟩)))
    · push Not at hc'
      rw [hc i, hc' i]

/-- What holds of the hashes in two trees holds of those in two of their branches. -/
theorem CollisionFree.child {c c' : Fin 16 → SHAMapTreeNode}
    (hfree : CollisionFree sha512Half fun bytes =>
      Hashed sha512Half (.inner c) bytes ∨ Hashed sha512Half (.inner c') bytes) (i : Fin 16) :
    CollisionFree sha512Half fun bytes =>
      Hashed sha512Half (c i) bytes ∨ Hashed sha512Half (c' i) bytes where
  inj a b ha hb := hfree.inj a b (ha.imp (fun h => .inr ⟨i, h⟩) fun h => .inr ⟨i, h⟩)
    (hb.imp (fun h => .inr ⟨i, h⟩) fun h => .inr ⟨i, h⟩)
  nonzero a ha := hfree.nonzero a (ha.imp (fun h => .inr ⟨i, h⟩) fun h => .inr ⟨i, h⟩)

theorem Keyed.child {c : Fin 16 → SHAMapTreeNode} (h : Keyed sha512Half (.inner c)) (i : Fin 16) :
    Keyed sha512Half (c i) := fun l hl => h l ⟨i, hl⟩

theorem eq_of_getHash_eq {t t' : SHAMapTreeNode} (h : Branching t) (h' : Branching t')
    (hfree : CollisionFree sha512Half fun bytes =>
      Hashed sha512Half t bytes ∨ Hashed sha512Half t' bytes)
    (hkeyed : Keyed sha512Half t) (hkeyed' : Keyed sha512Half t')
    (heq : getHash sha512Half t = getHash sha512Half t') : t = t' := by
  induction t generalizing t' with
  | empty =>
    by_contra hne
    obtain ⟨bytes, hbytes, hhash⟩ := @getHash_branching sha512Half _ h' (Ne.symm hne)
    exact hfree.nonzero bytes (.inr hbytes) (hhash.symm.trans heq.symm)
  | leaf l =>
    have hl : Hashed sha512Half (.leaf l) l.preimage := rfl
    cases t' with
    | empty => exact absurd heq (hfree.nonzero l.preimage (.inl hl))
    | leaf l' =>
      have hpre : l.preimage = l'.preimage := hfree.inj _ _ (.inl hl) (.inr rfl) heq
      obtain ⟨htype, hdata, hkey⟩ := preimage_inj hpre
      have hkeys : l.item.key = l'.item.key := by
        by_cases hnm : l.type = .tnTransactionNm
        · rw [hkeyed l rfl hnm, hkeyed' l' rfl (htype ▸ hnm), hpre]
        · exact hkey hnm
      obtain ⟨type, key, data⟩ := l
      obtain ⟨type', key', data'⟩ := l'
      simp_all
    | inner c' =>
      obtain ⟨-, x, -, ⟨i, hx⟩, -⟩ := h'
      have hi : ∃ i, c' i ≠ .empty := ⟨i, fun hempty => not_mem_empty x (hempty ▸ hx)⟩
      rw [getHash_inner hi] at heq
      exact absurd (hfree.inj _ _ (.inl hl) (.inr (.inl ⟨hi, rfl⟩)) heq) preimage_ne_inner
  | inner c ih =>
    cases t' with
    | empty =>
      obtain ⟨bytes, hbytes, hhash⟩ := @getHash_branching sha512Half _ h (by simp)
      exact absurd (hhash.symm.trans heq) (hfree.nonzero bytes (.inl hbytes))
    | leaf l' =>
      obtain ⟨-, x, -, ⟨i, hx⟩, -⟩ := h
      have hi : ∃ i, c i ≠ .empty := ⟨i, fun hempty => not_mem_empty x (hempty ▸ hx)⟩
      rw [getHash_inner hi] at heq
      exact absurd (hfree.inj _ _ (.inl (.inl ⟨hi, rfl⟩)) (.inr rfl) heq).symm preimage_ne_inner
    | inner c' =>
      refine congrArg _ (funext fun i => ?_)
      exact ih i (h.1 i) (h'.1 i) (hfree.child i) (hkeyed.child i) (hkeyed'.child i)
        (childHash_eq hfree heq i)

/-! ### The differences of two trees -/

/-- What a pair of nodes adds at a branch, in whatever order. -/
def branchDelta (sha512Half : Blob → UInt256) (c c' : Fin 16 → SHAMapTreeNode) (i : Fin 16) :
    Delta :=
  branchEntries sha512Half c c' i ++
    if i ∈ bothBranches sha512Half c c' then pairEntries sha512Half (c i) (c' i) else []

theorem pairEntries_perm (c c' : Fin 16 → SHAMapTreeNode) :
    (pairEntries sha512Half (.inner c) (.inner c')).Perm
      ((List.finRange 16).flatMap (branchDelta sha512Half c c')) := by
  have hboth : ((bothBranches sha512Half c c').reverse.flatMap fun i =>
      pairEntries sha512Half (c i) (c' i)).Perm ((List.finRange 16).flatMap fun i =>
        if i ∈ bothBranches sha512Half c c' then pairEntries sha512Half (c i) (c' i) else []) := by
    refine ((List.reverse_perm _).flatMap_right _).trans (List.Perm.of_eq ?_)
    unfold bothBranches
    simp only [List.mem_filter, List.mem_finRange, true_and]
    induction List.finRange 16 with
    | nil => rfl
    | cons i l ih =>
      rw [List.flatMap_cons, ← ih, List.filter_cons]
      split_ifs <;> rfl
  rw [pairEntries]
  exact (List.Perm.append_left _ hboth).trans (List.flatMap_append_perm _ _ _)

/-- **What a pair of nodes reports is what they differ in**, by induction on the first. Its
branches with an equal hash hold the same; the others are walked or compared. -/
theorem isDelta_pairEntries {d : ℕ} {t t' : SHAMapTreeNode} (h : Placed nibble keyOf d t)
    (h' : Placed nibble keyOf d t') (hb : ∀ c, t = .inner c → ∀ i, Branching (c i))
    (hb' : ∀ c, t' = .inner c → ∀ i, Branching (c i)) (hne : t ≠ .empty) (hne' : t' ≠ .empty)
    (hfree : CollisionFree sha512Half fun bytes =>
      Hashed sha512Half t bytes ∨ Hashed sha512Half t' bytes)
    (hkeyed : Keyed sha512Half t) (hkeyed' : Keyed sha512Half t') :
    IsDelta (contents d t) (contents d t') (pairEntries sha512Half t t') := by
  induction t generalizing d t' with
  | empty => exact absurd rfl hne
  | leaf l =>
    rw [contents_leaf]
    cases t' with
    | empty => exact absurd rfl hne'
    | leaf l' =>
      rw [contents_leaf]
      exact @isDelta_entriesOf [l.item] (List.nodup_singleton _) _
    | inner c' =>
      have hpairs : pairEntries sha512Half (.leaf l) (.inner c') =
          entriesOf false (itemsOf (.inner c')) (some l.item) := rfl
      rw [contents_eq_lookup h', hpairs, entriesOf_false]
      exact (isDelta_entriesOf (nodup_itemsOf h') _).swap
  | inner c ih =>
    cases t' with
    | empty => exact absurd rfl hne'
    | leaf l' =>
      rw [contents_leaf, contents_eq_lookup h]
      exact isDelta_entriesOf (nodup_itemsOf h) _
    | inner c' =>
      have hnone : ∀ {c : Fin 16 → SHAMapTreeNode}, Placed nibble keyOf d (.inner c) →
          ∀ i k, nibble d k ≠ i → contents (d + 1) (c i) k = none := by
        intro c hc i k hk
        refine Option.map_eq_none_iff.mpr ((hc.1 i).find_eq_none.mpr fun l hl hkey => hk ?_)
        rw [← hkey]
        exact hc.2 i l hl
      refine (@isDelta_flatMap (nibble d) (fun i => contents (d + 1) (c i))
        (fun i => contents (d + 1) (c' i)) _ (fun i => ?_)
        fun i k hk => ⟨hnone h i k hk, hnone h' i k hk⟩).perm (pairEntries_perm c c').symm
      have hsub := hfree.child i
      have hbi := hb c rfl i
      have hbi' := hb' c' rfl i
      unfold branchDelta branchEntries
      by_cases hhash : getHash sha512Half (c i) ≠ getHash sha512Half (c' i)
      · rw [if_pos hhash]
        cases hempty' : (c' i).isEmpty with
        | true =>
          have hboth : i ∉ bothBranches sha512Half c c' := by simp [bothBranches, hempty']
          rw [if_pos rfl, if_neg hboth, List.append_nil, isEmpty_iff.mp hempty',
            contents_eq_lookup (h.1 i)]
          exact isDelta_entriesOf (nodup_itemsOf (h.1 i)) none
        | false =>
          rw [if_neg Bool.false_ne_true]
          cases hempty : (c i).isEmpty with
          | true =>
            have hboth : i ∉ bothBranches sha512Half c c' := by simp [bothBranches, hempty]
            rw [if_pos rfl, if_neg hboth, List.append_nil, isEmpty_iff.mp hempty,
              contents_eq_lookup (h'.1 i), entriesOf_false]
            exact (isDelta_entriesOf (nodup_itemsOf (h'.1 i)) none).swap
          | false =>
            have hboth : i ∈ bothBranches sha512Half c c' := by
              simp [bothBranches, hempty, hempty', hhash]
            rw [if_neg Bool.false_ne_true, if_pos hboth, List.nil_append]
            refine ih i (h.1 i) (h'.1 i) (fun c₀ hc₀ => ?_) (fun c₀ hc₀ => ?_)
              (fun he => by simp [he, RadixTree.isEmpty] at hempty)
              (fun he => by simp [he, RadixTree.isEmpty] at hempty') hsub
              (hkeyed.child i) (hkeyed'.child i)
            · rw [hc₀] at hbi
              exact hbi.1
            · rw [hc₀] at hbi'
              exact hbi'.1
      · have hboth : i ∉ bothBranches sha512Half c c' := by simp [bothBranches, not_not.mp hhash]
        rw [if_neg hhash, if_neg hboth, List.append_nil,
          eq_of_getHash_eq hbi hbi' hsub (hkeyed.child i) (hkeyed'.child i) (not_not.mp hhash)]
        exact isDelta_nil

end Pairs

/-! ### The comparison -/

/-- The item of a map under a key. -/
def itemAt (map : SHAMap) (k : UInt256) : Option SHAMapItem := contents 0 map.root k

theorem peekItem_eq_itemAt (map : SHAMap) (k : UInt256) :
    peekItem map.root k = some (map.itemAt k) := by
  obtain ⟨found, hfind, hmem⟩ := findKey_eq map.sound k
  have hfound : found = find nibble keyOf k 0 map.root := Option.ext fun l => by
    rw [hmem, map.sound.placed.find_eq_some]
  rw [peekItem, hfind, hfound]
  rfl

variable {sha512Half : Blob → UInt256}

/-- The whole of what `compare` reports, and how much of it the countdown lets through. -/
theorem compare_eq (ours other : SHAMap)
    (hfree : CollisionFree sha512Half fun bytes =>
      Hashed sha512Half ours.root bytes ∨ Hashed sha512Half other.root bytes)
    (hkeyed : Keyed sha512Half ours.root) (hkeyed' : Keyed sha512Half other.root) {maxCount : ℤ}
    (hmax : 1 ≤ maxCount) :
    ∃ E, IsDelta ours.itemAt other.itemAt E ∧
      compare sha512Half ours.root other.root maxCount =
        if (E.length : ℤ) < maxCount then (true, E) else (false, E.take maxCount.toNat) := by
  obtain ⟨c, hc⟩ := ours.sound.root rfl
  obtain ⟨c', hc'⟩ := other.sound.root rfl
  unfold compare
  by_cases hhash : getHash sha512Half ours.root = getHash sha512Half other.root
  · have hroots : ours.root = other.root := by
      rw [hc, hc'] at hhash hfree ⊢
      rw [hc] at hkeyed
      rw [hc'] at hkeyed'
      refine congrArg _ (funext fun i => ?_)
      exact eq_of_getHash_eq (ours.sound.children c hc i) (other.sound.children c' hc' i)
        (hfree.child i) (hkeyed.child i) (hkeyed'.child i) (childHash_eq hfree hhash i)
    refine ⟨[], ?_, ?_⟩
    · unfold itemAt
      rw [hroots]
      exact isDelta_nil
    · rw [if_pos hhash, if_pos (by simpa using by omega)]
  · have hdelta := isDelta_pairEntries ours.sound.placed other.sound.placed ours.sound.children
      other.sound.children (by simp [hc]) (by simp [hc']) hfree hkeyed hkeyed'
    refine ⟨_, hdelta, ?_⟩
    have hreport := @reportAll_eq (pairEntries sha512Half ours.root other.root) ⟨[], maxCount⟩
      (by simpa using hdelta.nodup) hmax
    rw [if_neg hhash, compareLoop_eq, List.flatMap_singleton, hreport]
    by_cases hfits : ((pairEntries sha512Half ours.root other.root).length : ℤ) < maxCount
    · rw [if_pos hfits, if_pos hfits]
      rfl
    · rw [if_neg hfits, if_neg hfits]
      rfl

theorem IsDelta.length_eq {m m' : UInt256 → Option SHAMapItem} {E E' : Delta}
    (h : IsDelta m m' E) (h' : IsDelta m m' E') : E.length = E'.length := by
  have hperm : E.Perm E' := (List.perm_ext_iff_of_nodup h.nodup.of_map h'.nodup.of_map).mpr
    (h.mem_iff_mem h')
  exact hperm.length_eq

/-- **Comparison is exact.** A complete answer lists the keys under which the maps differ, each once
and with what the first and the second map have there; an answer cut short has as many such entries
as were asked for. In the other direction the answer is complete in the same cases, and then it is
the same with the pairs swapped. -/
theorem compare_exact (sha512Half : Blob → UInt256) (ours other : SHAMap)
    (hfree : CollisionFree sha512Half fun bytes =>
      Hashed sha512Half ours.root bytes ∨ Hashed sha512Half other.root bytes)
    (hkeyed : Keyed sha512Half ours.root) (hkeyed' : Keyed sha512Half other.root) (maxCount : ℤ)
    (hmax : 1 ≤ maxCount) :
    let r := compare sha512Half ours.root other.root maxCount
    let back := compare sha512Half other.root ours.root maxCount
    (r.1 = true → IsDelta ours.itemAt other.itemAt r.2) ∧
    (r.1 = false → (r.2.length : ℤ) = maxCount ∧ (r.2.map Prod.fst).Nodup ∧
      ∀ e ∈ r.2, e.2 = (ours.itemAt e.1, other.itemAt e.1) ∧
        ours.itemAt e.1 ≠ other.itemAt e.1) ∧
    back.1 = r.1 ∧
    (r.1 = true → ∀ k a b, (k, (a, b)) ∈ r.2 ↔ (k, (b, a)) ∈ back.2) := by
  obtain ⟨E, hE, hcompare⟩ := compare_eq ours other hfree hkeyed hkeyed' hmax
  have hfree' : CollisionFree sha512Half fun bytes =>
      Hashed sha512Half other.root bytes ∨ Hashed sha512Half ours.root bytes :=
    ⟨fun a b ha hb => hfree.inj a b ha.symm hb.symm, fun a ha => hfree.nonzero a ha.symm⟩
  obtain ⟨E', hE', hback⟩ := compare_eq other ours hfree' hkeyed' hkeyed hmax
  have hlength : E'.length = E.length := by
    rw [hE'.length_eq hE.swap, List.length_map]
  dsimp only
  rw [hcompare, hback, hlength]
  by_cases hfits : (E.length : ℤ) < maxCount
  · rw [if_pos hfits, if_pos hfits]
    refine ⟨fun _ => hE, fun h => absurd h (by simp), rfl, fun _ k a b => ?_⟩
    rw [hE.mem_iff, hE'.mem_iff]
    simp only [Prod.mk.injEq]
    exact ⟨fun h => ⟨⟨h.1.2, h.1.1⟩, Ne.symm h.2⟩, fun h => ⟨⟨h.1.2, h.1.1⟩, Ne.symm h.2⟩⟩
  · rw [if_neg hfits, if_neg hfits]
    refine ⟨fun h => absurd h (by simp), fun _ => ⟨?_, ?_, ?_⟩, rfl, fun h => absurd h (by simp)⟩
    · rw [List.length_take]
      omega
    · rw [List.map_take]
      exact hE.nodup.sublist (List.take_sublist _ _)
    · intro e he
      exact (hE.mem_iff e).mp (List.mem_of_mem_take he)

/-! ### Two maps with one leaf each -/

namespace Sample

def oneLeaf (l : SHAMapLeafNode) : Fin 16 → SHAMapTreeNode :=
  Function.update (fun _ => .empty) (nibble 0 (keyOf l)) (.leaf l)

def otherLeaf : SHAMapLeafNode := ⟨.tnAccountState, wrongKey, List.replicate 12 7⟩

def otherMap : SHAMap where
  root := .inner (oneLeaf otherLeaf)
  sound := by
    refine sound_newInner.update ⟨trivial, trivial⟩ (fun l hl => ?_)
      fun l hl => absurd hl (not_mem_empty l)
    obtain rfl := mem_leaf.mp hl
    rfl

theorem hashed_single {l : SHAMapLeafNode} {bytes : Blob}
    (h : Hashed toyHash (.inner (oneLeaf l)) bytes) :
    bytes = l.preimage ∨ bytes = innerPreimage fun i => getHash toyHash (oneLeaf l i) := by
  rcases h with ⟨-, hroot⟩ | ⟨i, hi⟩
  · exact .inr hroot
  · unfold oneLeaf at hi
    by_cases hbranch : i = nibble 0 (keyOf l)
    · subst hbranch
      rw [Function.update_self] at hi
      exact .inl hi
    · rw [Function.update_of_ne hbranch] at hi
      exact absurd hi id

def hashedBytes : List Blob :=
  [leaf.preimage, innerPreimage fun i => getHash toyHash (oneLeaf leaf i), otherLeaf.preimage,
    innerPreimage fun i => getHash toyHash (oneLeaf otherLeaf i)]

theorem mem_hashedBytes {bytes : Blob}
    (h : Hashed toyHash map.root bytes ∨ Hashed toyHash otherMap.root bytes) :
    bytes ∈ hashedBytes := by
  rcases h with h | h
  · rcases @hashed_single leaf bytes h with rfl | rfl <;> simp [hashedBytes]
  · rcases @hashed_single otherLeaf bytes h with rfl | rfl <;> simp [hashedBytes]

theorem collisionFree_pair : CollisionFree toyHash fun bytes =>
    Hashed toyHash map.root bytes ∨ Hashed toyHash otherMap.root bytes where
  inj a b ha hb := by
    have hinj : ∀ a ∈ hashedBytes, ∀ b ∈ hashedBytes, toyHash a = toyHash b → a = b := by
      decide +kernel
    exact hinj a (mem_hashedBytes ha) b (mem_hashedBytes hb)
  nonzero a ha := by
    have hnonzero : ∀ a ∈ hashedBytes, toyHash a ≠ 0 := by decide +kernel
    exact hnonzero a (mem_hashedBytes ha)

theorem keyed_other : Keyed toyHash otherMap.root := by
  intro l hl htype
  rcases mem_update.mp hl with hl | ⟨j, -, hl⟩
  · rw [mem_leaf.mp hl] at htype
    exact absurd htype (by decide)
  · exact absurd hl (not_mem_empty l)

end Sample

/-- Asked for one difference, each direction gives the key of its own first map. -/
theorem compare_cut_short :
    (CollisionFree Sample.toyHash fun bytes =>
        Hashed Sample.toyHash Sample.map.root bytes ∨
          Hashed Sample.toyHash Sample.otherMap.root bytes) ∧
      Keyed Sample.toyHash Sample.map.root ∧ Keyed Sample.toyHash Sample.otherMap.root ∧
      (compare Sample.toyHash Sample.map.root Sample.otherMap.root 1).2.map Prod.fst =
        [keyOf Sample.leaf] ∧
      (compare Sample.toyHash Sample.otherMap.root Sample.map.root 1).2.map Prod.fst =
        [keyOf Sample.otherLeaf] ∧
      keyOf Sample.leaf ≠ keyOf Sample.otherLeaf := by
  refine ⟨Sample.collisionFree_pair, Sample.keyed, Sample.keyed_other, ?_, ?_, by decide⟩
  · unfold compare
    rw [compareLoop_eq]
    decide +kernel
  · unfold compare
    rw [compareLoop_eq]
    decide +kernel

theorem compare_exact_pair :
    (compare Sample.toyHash Sample.map.root Sample.otherMap.root 5).1 = true ∧
      IsDelta Sample.map.itemAt Sample.otherMap.itemAt
        (compare Sample.toyHash Sample.map.root Sample.otherMap.root 5).2 := by
  have hcomplete : (compare Sample.toyHash Sample.map.root Sample.otherMap.root 5).1 = true := by
    unfold compare
    rw [compareLoop_eq]
    decide +kernel
  exact ⟨hcomplete, (compare_exact Sample.toyHash Sample.map Sample.otherMap
    Sample.collisionFree_pair Sample.keyed Sample.keyed_other 5 (by decide)).1 hcomplete⟩

/-! ### The contents of a map and its hash -/

theorem eq_of_root_getHash_eq {root root' : SHAMapTreeNode} (h : Sound 0 root) (h' : Sound 0 root')
    (hfree : CollisionFree sha512Half fun bytes =>
      Hashed sha512Half root bytes ∨ Hashed sha512Half root' bytes)
    (hkeyed : Keyed sha512Half root) (hkeyed' : Keyed sha512Half root')
    (heq : getHash sha512Half root = getHash sha512Half root') : root = root' := by
  obtain ⟨c, rfl⟩ := h.root rfl
  obtain ⟨c', rfl⟩ := h'.root rfl
  refine congrArg _ (funext fun i => ?_)
  exact eq_of_getHash_eq (h.children c rfl i) (h'.children c' rfl i) (hfree.child i)
    (hkeyed.child i) (hkeyed'.child i) (childHash_eq hfree heq i)

theorem Represents.contents_unique {type : SHAMapNodeType} {root : SHAMapTreeNode}
    {m m' : Contents} (h : Represents type root m) (h' : Represents type root m') : m = m' := by
  funext k
  refine Option.ext fun item => ?_
  have hmem : m (keyOf ⟨type, item⟩) = some item ↔ m' (keyOf ⟨type, item⟩) = some item := by
    have heq := (h.mem_iff ⟨type, item⟩).symm.trans (h'.mem_iff ⟨type, item⟩)
    simpa using heq
  constructor
  · intro hk
    have hkey : keyOf ⟨type, item⟩ = k := h.key_eq k item hk
    exact hkey ▸ hmem.mp (hkey.symm ▸ hk)
  · intro hk
    have hkey : keyOf ⟨type, item⟩ = k := h'.key_eq k item hk
    exact hkey ▸ hmem.mpr (hkey.symm ▸ hk)

/-- **The root hash commits to the contents.** Of two maps, each made by any operations on an empty
one, the root hashes are equal if and only if the operations describe the same finite map. -/
theorem root_hash_commits (sha512Half : Blob → UInt256) (type : SHAMapNodeType)
    {ops ops' : List Operation} {results results' : List Bool} {root root' : SHAMapTreeNode}
    (hops : NoCollision sha512Half type ops) (hops' : NoCollision sha512Half type ops')
    (hrun : run sha512Half type ops newInner = some (results, root))
    (hrun' : run sha512Half type ops' newInner = some (results', root'))
    (hfree : CollisionFree sha512Half fun bytes =>
      Hashed sha512Half root bytes ∨ Hashed sha512Half root' bytes)
    (hkeyed : Keyed sha512Half root) (hkeyed' : Keyed sha512Half root') :
    getHash sha512Half root = getHash sha512Half root' ↔
      (describe ops fun _ => none).2 = (describe ops' fun _ => none).2 := by
  have hends : ∀ {all results root}, NoCollision sha512Half type all →
      run sha512Half type all newInner = some (results, root) →
      Represents type root (describe all fun _ => none).2 := by
    intro all results root hall hroot
    obtain ⟨root₁, hroot₁, h⟩ := represents_empty.run hall (fun op hop => hop) nofun
    rw [hroot] at hroot₁
    rwa [(Prod.mk.inj (Option.some.inj hroot₁)).2]
  have h := hends hops hrun
  have h' := hends hops' hrun'
  constructor
  · intro heq
    have hroots : root = root' :=
      eq_of_root_getHash_eq h.sound h'.sound hfree hkeyed hkeyed' heq
    subst hroots
    exact h.contents_unique h'
  · intro hsame
    rw [hsame] at h
    rw [h.unique h']

theorem root_hash_commits_pair :
    getHash Sample.toyHash Sample.map.root = getHash Sample.toyHash Sample.otherMap.root ↔
      (describe [.add Sample.leaf.item] fun _ => none).2 =
        (describe [.add Sample.otherLeaf.item] fun _ => none).2 := by
  have hadd : ∀ item, NoCollision Sample.toyHash .tnAccountState [.add item] := by
    intro item item' other hitem
    simp at hitem
  exact @root_hash_commits Sample.toyHash .tnAccountState _ _ [true] [true] _ _
    (hadd _) (hadd _) rfl rfl Sample.collisionFree_pair Sample.keyed Sample.keyed_other

end SHAMap

end FalconLedger
