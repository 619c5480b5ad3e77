import Mathlib.Data.Finset.Sort

/-!
# Maps in the order of their keys

A finite map whose values carry their keys, with the operations of an ordered dictionary: to find,
write and erase, and to list the values by ascending key. `IsNext` is what the next key of a set of
keys is.
-/

namespace FalconLedger

variable {K A : Type*} [LinearOrder K]

/-- The keys that come after `key`, and before `last` where there is one. -/
def Between (key : K) (last : Option K) (k : K) : Prop := key < k ∧ ∀ l ∈ last, k < l

/-- The least key of a set that lies between two others, if there is one. -/
def IsNext (live : Set K) (key : K) (last : Option K) : Option K → Prop
  | some k => IsLeast {k | k ∈ live ∧ Between key last k} k
  | none => ∀ k ∈ live, ¬Between key last k

/-- Lists in strictly ascending order of their keys. -/
def Ascending (key : A → K) (l : List A) : Prop := l.Pairwise fun a b => key a < key b

theorem Ascending.head?_le {key : A → K} {l : List A} (h : Ascending key l) {a b : A}
    (ha : l.head? = some a) (hb : b ∈ l) : key a ≤ key b := by
  obtain ⟨l', rfl⟩ := List.head?_eq_some_iff.mp ha
  rcases List.mem_cons.mp hb with rfl | hb
  · exact le_rfl
  · exact ((List.pairwise_cons.mp h).1 b hb).le

theorem Ascending.find?_le {key : A → K} {l : List A} (h : Ascending key l) {p : A → Bool}
    {a b : A} (ha : l.find? p = some a) (hb : b ∈ l) (hp : p b = true) : key a ≤ key b := by
  rw [← List.head?_filter] at ha
  have hfilter : Ascending key (l.filter p) := h.filter p
  exact hfilter.head?_le ha (List.mem_filter.mpr ⟨hb, hp⟩)

theorem Ascending.eq_of_mem_iff {key : A → K} {l l' : List A} (h : Ascending key l)
    (h' : Ascending key l') (hmem : ∀ a, a ∈ l ↔ a ∈ l') : l = l' := by
  have hnodup : ∀ {l : List A}, Ascending key l → l.Nodup := fun h =>
    List.Pairwise.imp (fun hlt => ne_of_apply_ne key hlt.ne) h
  have hperm : l.Perm l' := (List.perm_ext_iff_of_nodup (hnodup h) (hnodup h')).mpr hmem
  exact hperm.eq_of_pairwise (fun a b _ _ hab hba => absurd (hab.trans hba) (lt_irrefl _)) h h'

/-- A finite map from keys to values that carry them. -/
structure KeyedMap (key : A → K) where
  keys : Finset K
  find : K → Option A
  mem_keys : ∀ k, k ∈ keys ↔ (find k).isSome
  key_eq : ∀ k a, find k = some a → key a = k

namespace KeyedMap

variable {key : A → K}

omit [LinearOrder K] in
@[ext]
theorem ext {m m' : KeyedMap key} (h : ∀ k, m.find k = m'.find k) : m = m' := by
  have hfind : m.find = m'.find := funext h
  have hkeys : m.keys = m'.keys := Finset.ext fun k => by rw [m.mem_keys, m'.mem_keys, h]
  cases m
  cases m'
  subst hfind hkeys
  rfl

def empty : KeyedMap key where
  keys := ∅
  find _ := none
  mem_keys _ := by simp
  key_eq _ _ h := by simp at h

/-- Write a value at its key. -/
def set (m : KeyedMap key) (a : A) : KeyedMap key where
  keys := insert (key a) m.keys
  find k := if k = key a then some a else m.find k
  mem_keys k := by
    by_cases h : k = key a
    · simp [h]
    · simp [h, m.mem_keys k]
  key_eq k b h := by
    by_cases hk : k = key a
    · rw [if_pos hk, Option.some.injEq] at h
      rw [← h, hk]
    · rw [if_neg hk] at h
      exact m.key_eq k b h

def erase (m : KeyedMap key) (k : K) : KeyedMap key where
  keys := m.keys.erase k
  find k' := if k' = k then none else m.find k'
  mem_keys k' := by
    by_cases h : k' = k
    · simp [h]
    · simp [h, m.mem_keys k']
  key_eq k' b h := by
    by_cases hk : k' = k
    · simp [hk] at h
    · rw [if_neg hk] at h
      exact m.key_eq k' b h

omit [LinearOrder K] in
@[simp]
theorem find_empty (k : K) : (empty : KeyedMap key).find k = none := rfl

theorem find_set (m : KeyedMap key) (a : A) (k : K) :
    (m.set a).find k = if k = key a then some a else m.find k := rfl

theorem find_erase (m : KeyedMap key) (k k' : K) :
    (m.erase k).find k' = if k' = k then none else m.find k' := rfl

@[simp]
theorem find_set_self (m : KeyedMap key) (a : A) : (m.set a).find (key a) = some a := if_pos rfl

@[simp]
theorem find_erase_self (m : KeyedMap key) (k : K) : (m.erase k).find k = none := if_pos rfl

theorem find_set_of_ne {m : KeyedMap key} {a : A} {k : K} (h : k ≠ key a) :
    (m.set a).find k = m.find k := if_neg h

theorem find_erase_of_ne {m : KeyedMap key} {k k' : K} (h : k' ≠ k) :
    (m.erase k).find k' = m.find k' := if_neg h

theorem erase_set {m : KeyedMap key} {a : A} (h : m.find (key a) = none) :
    (m.set a).erase (key a) = m := by
  ext1 k
  by_cases hk : k = key a
  · rw [hk, find_erase_self, h]
  · rw [find_erase_of_ne hk, find_set_of_ne hk]

/-! ### Ascending lists -/

/-- The values, by ascending key. -/
def toList (m : KeyedMap key) : List A := m.keys.sort.filterMap m.find

theorem mem_toList (m : KeyedMap key) (a : A) : a ∈ m.toList ↔ m.find (key a) = some a := by
  unfold toList
  rw [List.mem_filterMap]
  constructor
  · rintro ⟨k, -, h⟩
    rw [m.key_eq k a h, h]
  · intro h
    refine ⟨key a, ?_, h⟩
    rw [Finset.mem_sort, m.mem_keys, h]
    rfl

theorem find_eq_none_iff (m : KeyedMap key) (k : K) :
    m.find k = none ↔ ∀ a ∈ m.toList, key a ≠ k := by
  constructor
  · rintro h a ha rfl
    rw [(m.mem_toList a).mp ha] at h
    cases h
  · intro h
    by_contra hne
    obtain ⟨a, ha⟩ := Option.ne_none_iff_exists'.mp hne
    have hk := m.key_eq k a ha
    exact h a ((m.mem_toList a).mpr (by rw [hk, ha])) hk

theorem toList_ascending (m : KeyedMap key) : Ascending key m.toList := by
  refine List.Pairwise.filterMap m.find ?_ (Finset.sortedLT_sort m.keys).pairwise
  intro k k' hlt a ha a' ha'
  rw [m.key_eq k a ha, m.key_eq k' a' ha']
  exact hlt

@[simp] theorem toList_empty : (empty : KeyedMap key).toList = [] :=
  List.eq_nil_iff_forall_not_mem.mpr fun a ha => by
    rw [mem_toList, find_empty] at ha
    cases ha

theorem mem_toList_set {m : KeyedMap key} {a a' : A} :
    a' ∈ (m.set a).toList ↔ a' = a ∨ key a' ≠ key a ∧ a' ∈ m.toList := by
  rw [mem_toList, mem_toList, find_set]
  split_ifs with h
  · simp only [h, ne_eq, not_true_eq_false, false_and, or_false, Option.some.injEq]
    exact eq_comm
  · refine ⟨fun hm => .inr ⟨h, hm⟩, fun hm => ?_⟩
    rcases hm with rfl | ⟨-, hm⟩
    · exact absurd rfl h
    · exact hm

theorem mem_toList_erase {m : KeyedMap key} {k : K} {a : A} :
    a ∈ (m.erase k).toList ↔ key a ≠ k ∧ a ∈ m.toList := by
  rw [mem_toList, mem_toList, find_erase]
  split_ifs with h <;> simp [h]

theorem toList_set_last {m : KeyedMap key} {a : A} (hlt : ∀ a' ∈ m.toList, key a' < key a) :
    (m.set a).toList = m.toList ++ [a] := by
  refine (toList_ascending _).eq_of_mem_iff ?_ fun a' => ?_
  · exact List.pairwise_append.mpr ⟨m.toList_ascending, List.pairwise_singleton _ _,
      fun a' ha' b hb => List.mem_singleton.mp hb ▸ hlt a' ha'⟩
  · rw [mem_toList_set, List.mem_append, List.mem_singleton]
    refine ⟨fun h => h.elim .inr fun h => .inl h.2, fun h => h.elim (fun h => ?_) .inl⟩
    exact .inr ⟨(hlt a' h).ne, h⟩

/-- The first key after `k`. -/
def succ (m : KeyedMap key) (k : K) : Option K := (m.keys.filter fun k' => k < k').min

/-- The values from the first key after `k` on. -/
def upperBound (m : KeyedMap key) (k : K) : List A := m.toList.filter fun a => k < key a

/-- The keys that have a value. -/
def domain (m : KeyedMap key) : Set K := {k | (m.find k).isSome}

theorem mem_domain (m : KeyedMap key) (k : K) : k ∈ m.domain ↔ ∃ a ∈ m.toList, key a = k := by
  constructor
  · intro hk
    obtain ⟨a, ha⟩ := Option.isSome_iff_exists.mp hk
    have hkey := m.key_eq k a ha
    exact ⟨a, (m.mem_toList a).mpr (by rw [hkey, ha]), hkey⟩
  · rintro ⟨a, ha, rfl⟩
    exact Option.isSome_iff_exists.mpr ⟨a, (m.mem_toList a).mp ha⟩

theorem mem_upperBound (m : KeyedMap key) (k : K) (a : A) :
    a ∈ m.upperBound k ↔ m.find (key a) = some a ∧ k < key a := by
  rw [upperBound, List.mem_filter, m.mem_toList, decide_eq_true_iff]

theorem upperBound_ascending (m : KeyedMap key) (k : K) : Ascending key (m.upperBound k) :=
  m.toList_ascending.filter _

/-! ### In the middle of the list -/

section Middle

variable {m : KeyedMap key} {a b : A} {l l' : List A}

theorem find_mid (h : m.toList = l ++ a :: l') : m.find (key a) = some a :=
  (m.mem_toList a).mp (by simp [h])

theorem lt_mid (h : m.toList = l ++ a :: l') :
    (∀ b ∈ l, key b < key a) ∧ ∀ b ∈ l', key a < key b := by
  have hascending := m.toList_ascending
  rw [h] at hascending
  obtain ⟨-, hright, hacross⟩ := List.pairwise_append.mp hascending
  exact ⟨fun b hb => hacross b hb a List.mem_cons_self, (List.pairwise_cons.mp hright).1⟩

theorem toList_set_between (h : m.toList = l ++ l') (hl : ∀ a' ∈ l, key a' < key a)
    (hl' : ∀ a' ∈ l', key a < key a') : (m.set a).toList = l ++ a :: l' := by
  have hascending := m.toList_ascending
  rw [h] at hascending
  obtain ⟨hleft, hright, hacross⟩ := List.pairwise_append.mp hascending
  have hnew : Ascending key (l ++ a :: l') :=
    List.pairwise_append.mpr ⟨hleft, List.pairwise_cons.mpr ⟨hl', hright⟩, fun b hb c hc => by
      rcases List.mem_cons.mp hc with rfl | hc
      · exact hl b hb
      · exact hacross b hb c hc⟩
  refine (toList_ascending _).eq_of_mem_iff hnew fun c => ?_
  rw [mem_toList_set, h, List.mem_append, List.mem_append, List.mem_cons]
  constructor
  · rintro (rfl | ⟨-, hc | hc⟩)
    · exact .inr (.inl rfl)
    · exact .inl hc
    · exact .inr (.inr hc)
  · rintro (hc | rfl | hc)
    · exact .inr ⟨(hl c hc).ne, .inl hc⟩
    · exact .inl rfl
    · exact .inr ⟨(hl' c hc).ne', .inr hc⟩

theorem toList_erase_mid (h : m.toList = l ++ a :: l') : (m.erase (key a)).toList = l ++ l' := by
  obtain ⟨hl, hl'⟩ := lt_mid h
  have hascending := m.toList_ascending
  rw [h] at hascending
  have hnew : Ascending key (l ++ l') := hascending.sublist (by simp)
  refine (toList_ascending _).eq_of_mem_iff hnew fun c => ?_
  rw [mem_toList_erase, h, List.mem_append, List.mem_append, List.mem_cons]
  constructor
  · rintro ⟨hne, hc | rfl | hc⟩
    · exact .inl hc
    · exact absurd rfl hne
    · exact .inr hc
  · rintro (hc | hc)
    · exact ⟨(hl c hc).ne, .inl hc⟩
    · exact ⟨(hl' c hc).ne', .inr (.inr hc)⟩

theorem toList_set_mid (h : m.toList = l ++ a :: l') (hb : key b = key a) :
    (m.set b).toList = l ++ b :: l' := by
  obtain ⟨hl, hl'⟩ := lt_mid h
  have herased := toList_erase_mid h
  have hset : ((m.erase (key a)).set b).toList = l ++ b :: l' :=
    toList_set_between herased (by rw [hb]; exact hl) (by rw [hb]; exact hl')
  have hsame : (m.erase (key a)).set b = m.set b := by
    ext1 k
    rw [find_set, find_set, find_erase, hb]
    split_ifs <;> rfl
  rw [← hsame]
  exact hset

theorem succ_eq_some {k : K} (h : m.toList = l ++ a :: l') (hl : ∀ a ∈ l, key a ≤ k)
    (hk : k < key a) : m.succ k = some (key a) := by
  have hmem : key a ∈ m.keys.filter fun k' => k < k' := by
    rw [Finset.mem_filter, m.mem_keys, find_mid h]
    exact ⟨rfl, hk⟩
  have hmin : (m.keys.filter fun k' => k < k').min = (key a : WithTop K) := by
    refine le_antisymm (Finset.min_le hmem) (Finset.le_min fun k' hk' => ?_)
    obtain ⟨hkeys, hlt⟩ := Finset.mem_filter.mp hk'
    obtain ⟨b, hb⟩ := Option.isSome_iff_exists.mp ((m.mem_keys k').mp hkeys)
    have hkey := m.key_eq k' b hb
    have hblist : b ∈ m.toList := (m.mem_toList b).mpr (by rw [hkey]; exact hb)
    rw [h] at hblist
    refine WithTop.coe_le_coe.mpr ?_
    rcases List.mem_append.mp hblist with hb | hb
    · exact absurd (hkey ▸ hl b hb) (not_le.mpr hlt)
    · rcases List.mem_cons.mp hb with rfl | hb
      · exact hkey.le
      · exact hkey ▸ ((lt_mid h).2 b hb).le
  exact hmin

end Middle

end KeyedMap

end FalconLedger
