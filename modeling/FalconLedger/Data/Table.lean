import Mathlib.Data.Finmap
import Mathlib.Algebra.Order.BigOperators.Group.List
import Mathlib.Tactic.Ring
import Mathlib.Tactic.Linarith

/-!
# Finite tables and their totals

A *table* is a Mathlib association list without repeated keys. What this file adds to `AList` is
accounting: `total w t` sums a weight over the rows, and the update lemmas say how a row moves that
sum. `netChange w before after` is the sum that a comparison row by row computes, and `netChange_eq`
identifies it with the difference of the totals.
-/

/-- A finite map from `K` to `V`. -/
abbrev Table (K V : Type*) := AList fun _ : K => V

namespace Table

open scoped List

variable {K V : Type*} [DecidableEq K]

/-- The sum of the weights of all rows. -/
def total (w : V → ℤ) (t : Table K V) : ℤ := (t.entries.map fun e => w e.2).sum

/-- The sum over all rows of a weight that reads the key as well. -/
def sumRows {M : Type*} [AddMonoid M] (w : K → V → M) (t : Table K V) : M :=
  (t.entries.map fun e => w e.1 e.2).sum

/-- The weight stored under a key, `0` when the key is absent. -/
def weightAt (w : V → ℤ) (t : Table K V) (k : K) : ℤ := (t.lookup k).elim 0 w

/-- The values of all rows. -/
def values (t : Table K V) : List V := t.entries.map fun e => e.2

theorem weightAt_of_lookup {w : V → ℤ} {t : Table K V} {k : K} {v : V}
    (h : t.lookup k = some v) : weightAt w t k = w v := by
  simp [weightAt, h]

theorem weightAt_of_none {w : V → ℤ} {t : Table K V} {k : K} (h : t.lookup k = none) :
    weightAt w t k = 0 := by
  simp [weightAt, h]

@[simp] theorem weightAt_insert_self (w : V → ℤ) (t : Table K V) (k : K) (v : V) :
    weightAt w (t.insert k v) k = w v := by
  simp [weightAt]

theorem weightAt_insert_of_ne {w : V → ℤ} {t : Table K V} {k k' : K} {v : V} (h : k' ≠ k) :
    weightAt w (t.insert k v) k' = weightAt w t k' := by
  simp [weightAt, AList.lookup_insert_ne h]

theorem sumRows_eq_erase_add {M : Type*} [AddCommGroup M] (w : K → V → M) (t : Table K V) (k : K) :
    sumRows w t = sumRows w (t.erase k) + (t.lookup k).elim 0 (w k) := by
  obtain ⟨l, hl⟩ := t
  simp only [sumRows, AList.erase, AList.lookup]
  induction l with
  | nil => simp
  | cons e l ih =>
    obtain ⟨k', v⟩ := e
    have hl' := (List.nodupKeys_cons.mp hl).2
    by_cases h : k = k'
    · subst h
      simp [add_comm]
    · have hd : List.dlookup k (⟨k', v⟩ :: l : List (Σ _ : K, V)) = List.dlookup k l :=
        List.dlookup_cons_ne _ _ h
      rw [List.kerase_cons_ne h, hd]
      simp only [List.map_cons, List.sum_cons]
      rw [ih hl', add_assoc]

theorem sumRows_erase {M : Type*} [AddCommGroup M] (w : K → V → M) (t : Table K V) (k : K) :
    sumRows w (t.erase k) = sumRows w t - (t.lookup k).elim 0 (w k) :=
  eq_sub_of_add_eq (sumRows_eq_erase_add w t k).symm

theorem sumRows_insert {M : Type*} [AddCommGroup M] (w : K → V → M) (t : Table K V) (k : K)
    (v : V) : sumRows w (t.insert k v) = sumRows w t - (t.lookup k).elim 0 (w k) + w k v := by
  rw [← sumRows_erase]
  simp [sumRows, AList.entries_insert, AList.erase, add_comm]

theorem total_eq_erase_add (w : V → ℤ) (t : Table K V) (k : K) :
    total w t = total w (t.erase k) + weightAt w t k :=
  sumRows_eq_erase_add (fun _ => w) t k

theorem total_erase (w : V → ℤ) (t : Table K V) (k : K) :
    total w (t.erase k) = total w t - weightAt w t k :=
  sumRows_erase (fun _ => w) t k

theorem total_insert (w : V → ℤ) (t : Table K V) (k : K) (v : V) :
    total w (t.insert k v) = total w t - weightAt w t k + w v :=
  sumRows_insert (fun _ => w) t k v

theorem total_insert_of_eq {w : V → ℤ} {t : Table K V} {k : K} {v v' : V}
    (h : t.lookup k = some v) (hw : w v' = w v) : total w (t.insert k v') = total w t := by
  rw [total_insert, weightAt_of_lookup h, hw]
  ring

theorem total_insert_of_none {w : V → ℤ} {t : Table K V} {k : K} {v : V}
    (h : t.lookup k = none) : total w (t.insert k v) = total w t + w v := by
  rw [total_insert, weightAt_of_none h]
  ring

omit [DecidableEq K] in
theorem total_nonneg {w : V → ℤ} (hw : ∀ v, 0 ≤ w v) {t : Table K V} : 0 ≤ total w t :=
  List.sum_nonneg fun x hx => by
    obtain ⟨e, -, rfl⟩ := List.mem_map.mp hx
    exact hw _

theorem weightAt_le_total {w : V → ℤ} (hw : ∀ v, 0 ≤ w v) (t : Table K V) (k : K) :
    weightAt w t k ≤ total w t := by
  have hrest : 0 ≤ total w (t.erase k) := total_nonneg hw
  rw [total_eq_erase_add w t k]
  omega

/-! ### Counting keys -/

theorem mem_keys_of_lookup {t : Table K V} {k : K} {v : V} (h : t.lookup k = some v) : k ∈ t.keys :=
  AList.mem_keys.mp (AList.lookup_isSome.mp (by rw [h]; rfl))

theorem countP_keys_insert (p : K → Bool) {t : Table K V} {k : K} {v : V} (h : t.lookup k = none) :
    (t.insert k v).keys.countP p = t.keys.countP p + if p k then 1 else 0 := by
  have hmem : k ∉ t.keys := fun hk => by
    have hsome := AList.lookup_isSome.mpr (AList.mem_keys.mp hk)
    rw [h] at hsome
    exact absurd hsome (by simp)
  rw [AList.keys_insert, List.countP_cons, List.erase_of_not_mem hmem]

theorem countP_keys_erase (p : K → Bool) {t : Table K V} {k : K} {v : V}
    (h : t.lookup k = some v) :
    (t.erase k).keys.countP p + (if p k then 1 else 0) = t.keys.countP p := by
  rw [AList.keys_erase, (List.perm_cons_erase (mem_keys_of_lookup h)).countP_eq, List.countP_cons]

/-! ### Properties of all rows -/

/-- Every row has the property. -/
def All (P : V → Prop) (t : Table K V) : Prop := ∀ k v, t.lookup k = some v → P v

instance (P : V → Prop) [DecidablePred P] (t : Table K V) : Decidable (All P t) :=
  decidable_of_iff (∀ e ∈ t.entries, P e.2)
    ⟨fun h k v hv => h ⟨k, v⟩ (AList.mem_lookup_iff.mp hv),
      fun h e he => h e.1 e.2 (AList.mem_lookup_iff.mpr he)⟩

theorem total_eq_zero {w : V → ℤ} {t : Table K V} (h : All (fun v => w v = 0) t) :
    total w t = 0 := by
  apply List.sum_eq_zero
  intro n hn
  obtain ⟨e, he, rfl⟩ := List.mem_map.mp hn
  exact h e.1 e.2 (AList.mem_lookup_iff.mpr he)

theorem all_of_entries {P : V → Prop} {t : Table K V} (h : ∀ e ∈ t.entries, P e.2) : All P t :=
  fun k v hlookup => h ⟨k, v⟩ (AList.mem_lookup_iff.mp hlookup)

theorem All.insert {P : V → Prop} {t : Table K V} {k : K} {v : V} (h : All P t) (hv : P v) :
    All P (t.insert k v) := by
  intro k' v' hlookup
  by_cases hk : k' = k
  · subst hk
    rw [AList.lookup_insert] at hlookup
    rwa [← Option.some.inj hlookup]
  · rw [AList.lookup_insert_ne hk] at hlookup
    exact h k' v' hlookup

theorem All.insert_iff {P : V → Prop} {t : Table K V} {k : K} {v : V} (h : All P t) :
    All P (t.insert k v) ↔ P v :=
  ⟨fun hall => hall k v (AList.lookup_insert t), h.insert⟩

theorem All.erase {P : V → Prop} {t : Table K V} (h : All P t) (k : K) : All P (t.erase k) := by
  intro k' v hlookup
  by_cases hk : k' = k
  · subst hk
    rw [AList.lookup_erase] at hlookup
    cases hlookup
  · rw [AList.lookup_erase_ne hk] at hlookup
    exact h k' v hlookup

/-! ### What two tables agree in -/

/-- The tables have the same keys, and `f` reads the same in their rows. -/
def SameOn {W : Type*} (f : V → W) (t t' : Table K V) : Prop :=
  ∀ k, (t'.lookup k).map f = (t.lookup k).map f

namespace SameOn

variable {W : Type*} {f : V → W} {t t' t'' : Table K V} {k : K} {v v' : V}

theorem refl (f : V → W) (t : Table K V) : SameOn f t t := fun _ => rfl

theorem trans (h : SameOn f t t') (h' : SameOn f t' t'') : SameOn f t t'' :=
  fun k => (h' k).trans (h k)

theorem insert (h : SameOn f t t') (hv : t.lookup k = some v) (hf : f v' = f v) :
    SameOn f t (t'.insert k v') := by
  intro k'
  by_cases hk : k' = k
  · subst hk
    rw [AList.lookup_insert, hv, Option.map_some, Option.map_some, hf]
  · rw [AList.lookup_insert_ne hk, h k']

theorem before (h : SameOn f t t') (hv : t'.lookup k = some v') :
    ∃ v, t.lookup k = some v ∧ f v' = f v := by
  have hk := (h k).symm
  rw [hv, Option.map_some, Option.map_eq_some_iff] at hk
  obtain ⟨v, hv, hf⟩ := hk
  exact ⟨v, hv, hf.symm⟩

end SameOn

/-! ### Comparing two tables row by row -/

/-- The keys of either table, each once. -/
def touchedKeys (before after : Table K V) : List K :=
  before.keys ++ after.keys.filter fun k => decide (k ∉ before.keys)

/-- The sum over all keys of the new weight minus the old one. -/
def netChange (w : V → ℤ) (before after : Table K V) : ℤ :=
  ((touchedKeys before after).map fun k => weightAt w after k - weightAt w before k).sum

private theorem sum_map_weightAt (w : V → ℤ) (t : Table K V) :
    (t.keys.map (weightAt w t)).sum = total w t := by
  have h : ∀ e ∈ t.entries, weightAt w t e.1 = w e.2 := fun e he => by
    have : t.lookup e.1 = some e.2 := by
      rw [← Option.mem_def, AList.lookup, List.mem_dlookup_iff t.nodupKeys]
      exact he
    exact weightAt_of_lookup this
  simp only [total, AList.keys, List.keys, List.map_map]
  exact congrArg List.sum (List.map_congr_left h)

private theorem sum_map_weightAt_of_subset (w : V → ℤ) (t : Table K V) {ks : List K}
    (hnd : ks.Nodup) (hsub : t.keys ⊆ ks) : (ks.map (weightAt w t)).sum = total w t := by
  rw [← sum_map_weightAt w t]
  have hperm : ks.filter (fun k => decide (k ∈ t.keys)) ~ t.keys := by
    rw [List.perm_ext_iff_of_nodup (hnd.filter _) t.keys_nodup]
    intro k
    simp only [List.mem_filter, decide_eq_true_eq, and_iff_right_iff_imp]
    exact fun h => hsub h
  rw [← (hperm.map _).sum_eq]
  clear hperm hsub
  induction ks with
  | nil => rfl
  | cons k ks ih =>
    have ih' := ih (List.nodup_cons.mp hnd).2
    by_cases hk : k ∈ t.keys
    · simp [hk, ih']
    · have hz : weightAt w t k = 0 :=
        weightAt_of_none (AList.lookup_eq_none.mpr fun h => hk (AList.mem_keys.mp h))
      simp [hk, hz, ih']

theorem netChange_eq (w : V → ℤ) (before after : Table K V) :
    netChange w before after = total w after - total w before := by
  have hnd : (touchedKeys before after).Nodup := by
    refine List.nodup_append.mpr ⟨before.keys_nodup, after.keys_nodup.filter _, ?_⟩
    rintro a ha b hb rfl
    simp only [List.mem_filter, decide_eq_true_eq] at hb
    exact hb.2 ha
  have hb : before.keys ⊆ touchedKeys before after := fun k hk => List.mem_append_left _ hk
  have ha : after.keys ⊆ touchedKeys before after := fun k hk => by
    by_cases h : k ∈ before.keys
    · exact hb h
    · exact List.mem_append_right _ (List.mem_filter.mpr ⟨hk, by simpa using h⟩)
  rw [← sum_map_weightAt_of_subset w after hnd ha,
    ← sum_map_weightAt_of_subset w before hnd hb, netChange]
  generalize touchedKeys before after = ks
  induction ks with
  | nil => simp
  | cons k ks ih =>
    simp only [List.map_cons, List.sum_cons, ih]
    ring

theorem total_congr {w : V → ℤ} {t t' : Table K V} (h : SameOn w t t') :
    total w t' = total w t := by
  have hweight : ∀ k, weightAt w t' k - weightAt w t k = 0 := fun k => by
    have heq : ∀ o : Option V, o.elim 0 w = (o.map w).getD 0 := fun o => by cases o <;> rfl
    rw [weightAt, weightAt, heq, heq, h, sub_self]
  have hzero : netChange w t t' = 0 := List.sum_eq_zero fun x hx => by
    obtain ⟨k, -, rfl⟩ := List.mem_map.mp hx
    exact hweight k
  rw [netChange_eq] at hzero
  omega

/-! ### Rewriting all rows -/

/-- Rewrite the value of every row. -/
def mapValues (f : K → V → V) (t : Table K V) : Table K V :=
  ⟨t.entries.map (Sigma.map id f), by
    rw [List.NodupKeys, List.map₂_keys]
    exact t.nodupKeys⟩

@[simp] theorem lookup_mapValues (f : K → V → V) (t : Table K V) (k : K) :
    (t.mapValues f).lookup k = (t.lookup k).map (f k) :=
  List.dlookup_map₂ k

end Table
