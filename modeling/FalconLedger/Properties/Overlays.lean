import FalconLedger.Ledger.Views

/-!
# Tables over a view

A table of changes over a view stands for a state: that of the view, except where the table has an
item. `Overlays` says what the items have to do with both.
-/

namespace FalconLedger.Views

variable {K V : Type*} [LinearOrder K]

/-! ### The next key -/

/-- The keys of a view. -/
def ReadView.keys (base : ReadView K V) : Set K := {k | ∃ sle ∈ base.sles, sle.key = k}

section Succ

variable {A : Type*} {key : A → K} {base : ReadView K V} {last : Option K}

private theorem length_after_lt {k next : K} (hnext : next ∈ base.keys) (hlt : k < next) :
    (base.sles.filter fun sle => next < sle.key).length <
      (base.sles.filter fun sle => k < sle.key).length := by
  obtain ⟨sle, hsle, rfl⟩ := hnext
  have hsub : (base.sles.filter fun s => sle.key < s.key) =
      (base.sles.filter fun s => k < s.key).filter fun s => sle.key < s.key := by
    rw [List.filter_filter]
    refine List.filter_congr fun s _ => ?_
    rw [← Bool.decide_and, decide_eq_decide]
    exact ⟨fun h => ⟨h, hlt.trans h⟩, fun h => h.1⟩
  rw [hsub]
  refine List.length_filter_lt_length_iff_exists.mpr ⟨sle, ?_, ?_⟩
  · exact List.mem_filter.mpr ⟨hsle, decide_eq_true hlt⟩
  · simp

theorem isNext_iff {live : Set K} {k : K} {next : Option K} :
    IsNext live k last next ↔ (∀ n, next = some n → n ∈ live ∧ Between k last n) ∧
      ∀ k' ∈ live, Between k last k' → ∃ n, next = some n ∧ n ≤ k' := by
  cases next with
  | none => simp [IsNext]
  | some n =>
    constructor
    · rintro ⟨hmem, hleast⟩
      refine ⟨fun n' hn' => ?_, fun k' hk' hbetween => ⟨n, rfl, hleast ⟨hk', hbetween⟩⟩⟩
      obtain rfl := Option.some.inj hn'
      exact hmem
    · rintro ⟨hmem, hleast⟩
      refine ⟨hmem n rfl, ?_⟩
      rintro k' ⟨hk', hbetween⟩
      obtain ⟨n', hn', hle⟩ := hleast k' hk' hbetween
      obtain rfl := Option.some.inj hn'
      exact hle

/-- The first loop ends within as many rounds as the base has keys, at the next key that is not
erased. -/
theorem baseSucc_isNext (erased : K → Bool) {rounds : ℕ} {k : K}
    (hrounds : (base.sles.filter fun sle => k < sle.key).length < rounds) :
    ∃ next, baseSucc base erased last rounds k = some next ∧
      IsNext {k | k ∈ base.keys ∧ erased k = false} k last next := by
  induction rounds generalizing k with
  | zero => exact absurd hrounds (Nat.not_lt_zero _)
  | succ rounds ih =>
    have hsucc := base.succ_isNext k last
    unfold baseSucc
    cases hnext : base.succ k last with
    | none =>
      rw [hnext] at hsucc
      exact ⟨none, rfl, fun k' hk' => hsucc k' hk'.1⟩
    | some next =>
      rw [hnext] at hsucc
      obtain ⟨⟨hmem, hbetween⟩, hleast⟩ := hsucc
      cases herased : erased next with
      | false =>
        refine ⟨some next, by simp [herased], ⟨⟨hmem, herased⟩, hbetween⟩, ?_⟩
        rintro k' ⟨⟨hk', -⟩, hbetween'⟩
        exact hleast ⟨hk', hbetween'⟩
      | true =>
        obtain ⟨r, hr, hisNext⟩ := ih ((length_after_lt hmem hbetween.1).trans_le
          (Nat.le_of_lt_succ hrounds))
        -- a key after `k` that is not erased comes after `next`
        have hafter : ∀ k', k' ∈ base.keys → erased k' = false → Between k last k' →
            Between next last k' := by
          intro k' hk' herased' hbetween'
          refine ⟨lt_of_le_of_ne (hleast ⟨hk', hbetween'⟩) ?_, hbetween'.2⟩
          rintro rfl
          exact Bool.false_ne_true (herased'.symm.trans herased)
        refine ⟨r, by simp [herased, hr], ?_⟩
        cases r with
        | none =>
          intro k' hk' hbetween'
          exact hisNext k' hk' (hafter k' hk'.1 hk'.2 hbetween')
        | some r =>
          obtain ⟨⟨hr, hbetween'⟩, hleast'⟩ := hisNext
          refine ⟨⟨hr, hbetween.1.trans hbetween'.1, hbetween'.2⟩, ?_⟩
          rintro k' ⟨hk', hbetween''⟩
          exact hleast' ⟨hk', hafter k' hk'.1 hk'.2 hbetween''⟩

theorem lowerKey_isNext {S T : Set K} {k : K} {s t : Option K} (hs : IsNext S k last s)
    (ht : IsNext T k none t) :
    IsNext (S ∪ T) k last ((lowerKey s t).filter fun n => ∀ l ∈ last, n < l) := by
  rw [isNext_iff] at hs ht ⊢
  obtain ⟨hs, hs'⟩ := hs
  obtain ⟨ht, ht'⟩ := ht
  -- the lower key is one of the two, and at most either of them
  have hmem : ∀ n, lowerKey s t = some n → (s = some n ∨ t = some n) := by
    intro n hn
    cases s <;> cases t <;> simp only [lowerKey] at hn
    · cases hn
    · exact .inr hn
    · exact .inl hn
    · split_ifs at hn
      · exact .inr hn
      · exact .inl hn
  have hle : ∀ n, (s = some n ∨ t = some n) → ∃ n', lowerKey s t = some n' ∧ n' ≤ n := by
    intro n hn
    cases s <;> cases t <;> simp only [lowerKey, reduceCtorEq, Option.some.injEq, false_or,
      or_false, exists_eq_left'] at hn ⊢
    · exact hn.le
    · exact hn.le
    · rcases hn with rfl | rfl <;> split_ifs with h
      · exact ⟨_, rfl, h.le⟩
      · exact ⟨_, rfl, le_rfl⟩
      · exact ⟨_, rfl, le_rfl⟩
      · exact ⟨_, rfl, not_lt.mp h⟩
  constructor
  · intro n hn
    obtain ⟨hn, hlast⟩ := Option.filter_eq_some_iff.mp hn
    rcases hmem n hn with hn | hn
    · exact ⟨.inl (hs n hn).1, (hs n hn).2⟩
    · exact ⟨.inr (ht n hn).1, (ht n hn).2.1, of_decide_eq_true hlast⟩
  · intro k' hk' hbetween
    have hfound : ∃ n, (s = some n ∨ t = some n) ∧ n ≤ k' := by
      rcases hk' with hk' | hk'
      · obtain ⟨n, hn, hnk⟩ := hs' k' hk' hbetween
        exact ⟨n, .inl hn, hnk⟩
      · obtain ⟨n, hn, hnk⟩ := ht' k' hk' ⟨hbetween.1, by simp⟩
        exact ⟨n, .inr hn, hnk⟩
    obtain ⟨n, hn, hnk⟩ := hfound
    obtain ⟨n', hn', hn'n⟩ := hle n hn
    refine ⟨n', Option.filter_eq_some_iff.mpr ⟨hn', decide_eq_true ?_⟩, hn'n.trans hnk⟩
    exact fun l hl => (hn'n.trans hnk).trans_lt (hbetween.2 l hl)

/-- What a table and its base show: the items that do not erase, and the objects of the base that
have no item. -/
def liveKeys (base : ReadView K V) (items : KeyedMap key) (erases : A → Bool) : Set K :=
  {k | (∃ item, items.find k = some item ∧ erases item = false) ∨
    (items.find k = none ∧ k ∈ base.keys)}

private theorem firstItem_isNext (items : KeyedMap key) (erases : A → Bool) (k : K) :
    IsNext {k | ∃ item, items.find k = some item ∧ erases item = false} k none
      (((items.upperBound k).find? fun item => !erases item).map key) := by
  have hmem : ∀ k' item, items.find k' = some item → k < k' →
      item ∈ items.upperBound k ∧ key item = k' := by
    intro k' item hitem hlt
    have hkey := items.key_eq k' item hitem
    exact ⟨(items.mem_upperBound k item).mpr ⟨hkey ▸ hitem, hkey ▸ hlt⟩, hkey⟩
  rw [isNext_iff]
  constructor
  · intro n hn
    obtain ⟨item, hitem, rfl⟩ := Option.map_eq_some_iff.mp hn
    have hbound := (items.mem_upperBound k item).mp (List.mem_of_find?_eq_some hitem)
    have herases : erases item = false := by simpa using List.find?_some hitem
    exact ⟨⟨item, hbound.1, herases⟩, hbound.2, by simp⟩
  · rintro k' ⟨item, hitem, herases⟩ hbetween
    obtain ⟨hbound, rfl⟩ := hmem k' item hitem hbetween.1
    have hp : (!erases item) = true := by simp [herases]
    have hsome : ((items.upperBound k).find? fun item => !erases item).isSome :=
      List.find?_isSome.mpr ⟨item, hbound, hp⟩
    obtain ⟨first, hfirst⟩ := Option.isSome_iff_exists.mp hsome
    refine ⟨key first, by rw [hfirst]; rfl, ?_⟩
    exact (items.upperBound_ascending k).find?_le hfirst hbound hp

theorem overlaySucc_isNext (items : KeyedMap key) (erases : A → Bool) {rounds : ℕ} (k : K)
    (hrounds : base.sles.length < rounds) :
    ∃ next, overlaySucc base items erases rounds k last = some next ∧
      IsNext (liveKeys base items erases) k last next := by
  have hlength : (base.sles.filter fun sle => k < sle.key).length < rounds :=
    (List.length_filter_le _ _).trans_lt hrounds
  obtain ⟨next, hnext, hisNext⟩ :=
    @baseSucc_isNext K V _ base last (fun k => (items.find k).any erases) rounds k hlength
  refine ⟨_, by unfold overlaySucc; rw [hnext], ?_⟩
  have hlower := lowerKey_isNext hisNext (firstItem_isNext items erases k)
  -- an item that does not erase, over an object of the base, is found on both sides
  have hlive : liveKeys base items erases =
      {k | k ∈ base.keys ∧ ((items.find k).any erases) = false} ∪
        {k | ∃ item, items.find k = some item ∧ erases item = false} := by
    ext k'
    cases hfind : items.find k' with
    | none => simp [liveKeys, hfind]
    | some item =>
      cases herases : erases item <;> simp [liveKeys, hfind, herases]
  rw [hlive]
  exact hlower

end Succ

/-! ### The state under a table -/

/-- The object at a key. -/
def ReadView.state (base : ReadView K V) (k : K) : Option (SLE K V) :=
  base.sles.find? fun sle => sle.key = k

theorem ReadView.state_eq_some_iff (base : ReadView K V) (k : K) (sle : SLE K V) :
    base.state k = some sle ↔ sle ∈ base.sles ∧ sle.key = k := by
  constructor
  · intro h
    have hkey := List.find?_some h
    exact ⟨List.mem_of_find?_eq_some h, by simpa using hkey⟩
  · rintro ⟨hsle, rfl⟩
    have hsome : (base.state sle.key).isSome := List.find?_isSome.mpr ⟨sle, hsle, by simp⟩
    obtain ⟨s, hs⟩ := Option.isSome_iff_exists.mp hsome
    have hkey : s.key = sle.key := by simpa using List.find?_some hs
    have hinj := base.sles_ascending.imp fun h : _ < _ => h.ne
    rw [hs, List.inj_on_of_nodup_map (List.pairwise_map.mpr hinj)
      (List.mem_of_find?_eq_some hs) hsle hkey]

theorem ReadView.read_eq (base : ReadView K V) (k : Keylet K) :
    base.read k = (base.state k.key).filter k.check := by
  ext sle
  rw [base.read_iff, Option.filter_eq_some_iff, base.state_eq_some_iff, and_assoc]

/-- The state of a ledger as a view is its state map. -/
@[simp]
theorem Ledger.view_state (ledger : Ledger K V) (k : K) :
    ledger.view.state k = ledger.stateMap.find k := by
  ext sle
  rw [ledger.view.state_eq_some_iff]
  change sle ∈ ledger.stateMap.toList ∧ _ ↔ _
  rw [ledger.stateMap.mem_toList]
  constructor
  · rintro ⟨hfind, rfl⟩
    exact hfind
  · intro hfind
    obtain rfl := ledger.stateMap.key_eq k sle hfind
    exact ⟨hfind, rfl⟩

theorem ReadView.mem_keys_iff (base : ReadView K V) (k : K) :
    k ∈ base.keys ↔ (base.state k).isSome := by
  rw [Option.isSome_iff_exists]
  simp only [base.state_eq_some_iff]
  rfl

section Overlays

variable {A : Type*} {key : A → K}

/-- At every key the state is that of the base where the table has no item, and `fits` what its
item says. -/
def Overlays (fits : Option (SLE K V) → Option (SLE K V) → A → Prop)
    (base state : K → Option (SLE K V)) (items : KeyedMap key) : Prop :=
  ∀ k, (items.find k).elim (state k = base k) (fits (base k) (state k))

variable {fits : Option (SLE K V) → Option (SLE K V) → A → Prop}
  {base state : K → Option (SLE K V)} {items : KeyedMap key}

omit [LinearOrder K] in
theorem Overlays.eq_of_none (h : Overlays fits base state items) {k : K}
    (hfind : items.find k = none) : state k = base k := by
  have hk := h k
  rw [hfind] at hk
  exact hk

omit [LinearOrder K] in
theorem Overlays.fits_of_some (h : Overlays fits base state items) {k : K} {a : A}
    (hfind : items.find k = some a) : fits (base k) (state k) a := by
  have hk := h k
  rw [hfind] at hk
  exact hk

omit [LinearOrder K] in
theorem overlays_empty (base : K → Option (SLE K V)) :
    Overlays fits base base (KeyedMap.empty : KeyedMap key) := fun _ => rfl

theorem Overlays.set (h : Overlays fits base state items) {a : A} {v : Option (SLE K V)} {k : K}
    (hkey : key a = k) (hfits : fits (base k) v a) :
    Overlays fits base (Function.update state k v) (items.set a) := by
  subst hkey
  intro k
  by_cases hk : k = key a
  · subst hk
    simpa using hfits
  · rw [KeyedMap.find_set_of_ne hk, Function.update_of_ne hk]
    exact h k

theorem Overlays.erase (h : Overlays fits base state items) {k : K} {v : Option (SLE K V)}
    (hbase : v = base k) : Overlays fits base (Function.update state k v) (items.erase k) := by
  intro k'
  by_cases hk : k' = k
  · subst hk
    simpa using hbase
  · rw [KeyedMap.find_erase_of_ne hk, Function.update_of_ne hk]
    exact h k'

theorem Overlays.liveKeys_eq {view : ReadView K V} {erases : A → Bool} {sleOf : A → SLE K V}
    (h : Overlays fits view.state state items)
    (hfits : ∀ b s a, fits b s a → s = if erases a then none else some (sleOf a)) :
    liveKeys view items erases = {k | (state k).isSome} := by
  ext k
  cases hfind : items.find k with
  | none => simp [liveKeys, hfind, h.eq_of_none hfind, view.mem_keys_iff]
  | some a =>
    have hstate := hfits _ _ _ (h.fits_of_some hfind)
    cases herases : erases a <;> simp [liveKeys, hfind, hstate, herases]

/-! ### Applying a table -/

theorem foldlM_apply_state {applyItem : Ledger K V → A → Option (Ledger K V)}
    (happly : ∀ target s a, fits (target.stateMap.find (key a)) s a →
      ∃ target', applyItem target a = some target' ∧ target'.drops = target.drops ∧
        target'.stateMap.find (key a) = s ∧
        ∀ k, k ≠ key a → target'.stateMap.find k = target.stateMap.find k)
    {list : List A} (hasc : Ascending key list) {target : Ledger K V}
    (hfits : ∀ a ∈ list, fits (target.stateMap.find (key a)) (state (key a)) a)
    (hrest : ∀ k, (∀ a ∈ list, key a ≠ k) → state k = target.stateMap.find k) :
    ∃ target', list.foldlM applyItem target = some target' ∧ target'.drops = target.drops ∧
      ∀ k, target'.stateMap.find k = state k := by
  induction list generalizing target with
  | nil => exact ⟨target, rfl, rfl, fun k => (hrest k (by simp)).symm⟩
  | cons a list ih =>
    obtain ⟨hlt, hasc⟩ := List.pairwise_cons.mp hasc
    obtain ⟨target₁, htarget₁, hdrops₁, hself, hother⟩ :=
      happly target _ a (hfits a List.mem_cons_self)
    have hfits₁ : ∀ b ∈ list, fits (target₁.stateMap.find (key b)) (state (key b)) b := by
      intro b hb
      rw [hother (key b) (hlt b hb).ne']
      exact hfits b (List.mem_cons_of_mem _ hb)
    have hrest₁ : ∀ k, (∀ b ∈ list, key b ≠ k) → state k = target₁.stateMap.find k := by
      intro k hk
      by_cases hka : k = key a
      · rw [hka, hself]
      · rw [hother k hka]
        refine hrest k fun b hb => ?_
        rcases List.mem_cons.mp hb with rfl | hb
        · exact Ne.symm hka
        · exact hk b hb
    obtain ⟨target₂, htarget₂, hdrops₂, hfind⟩ := ih hasc hfits₁ hrest₁
    refine ⟨target₂, ?_, hdrops₂.trans hdrops₁, hfind⟩
    rw [List.foldlM_cons, htarget₁]
    exact htarget₂

/-- A table applied to a ledger that has the state of its base leaves the state of the table. -/
theorem Overlays.foldlM_apply {applyItem : Ledger K V → A → Option (Ledger K V)}
    (h : Overlays fits base state items) {target : Ledger K V}
    (htarget : ∀ k, target.stateMap.find k = base k)
    (happly : ∀ target s a, fits (target.stateMap.find (key a)) s a →
      ∃ target', applyItem target a = some target' ∧ target'.drops = target.drops ∧
        target'.stateMap.find (key a) = s ∧
        ∀ k, k ≠ key a → target'.stateMap.find k = target.stateMap.find k) :
    ∃ target', items.toList.foldlM applyItem target = some target' ∧
      target'.drops = target.drops ∧ ∀ k, target'.stateMap.find k = state k := by
  refine foldlM_apply_state happly items.toList_ascending (fun a ha => ?_) fun k hk => ?_
  · rw [htarget]
    exact h.fits_of_some ((items.mem_toList a).mp ha)
  · rw [htarget]
    exact h.eq_of_none ((items.find_eq_none_iff k).mpr hk)

end Overlays

/-! ### The ledger as a target -/

namespace Ledger

variable {ledger : Ledger K V} {sle : SLE K V}

theorem rawErase_spec (h : (ledger.stateMap.find sle.key).isSome) :
    ∃ ledger', ledger.rawErase sle = some ledger' ∧ ledger'.drops = ledger.drops ∧
      ledger'.stateMap.find sle.key = none ∧
      ∀ k, k ≠ sle.key → ledger'.stateMap.find k = ledger.stateMap.find k := by
  obtain ⟨old, hold⟩ := Option.isSome_iff_exists.mp h
  refine ⟨{ ledger with stateMap := ledger.stateMap.erase sle.key },
    by unfold rawErase; rw [hold], rfl, KeyedMap.find_erase_self _ _, fun k hk => ?_⟩
  exact KeyedMap.find_erase_of_ne hk

theorem rawInsert_spec (h : ledger.stateMap.find sle.key = none) :
    ∃ ledger', ledger.rawInsert sle = some ledger' ∧ ledger'.drops = ledger.drops ∧
      ledger'.stateMap.find sle.key = some sle ∧
      ∀ k, k ≠ sle.key → ledger'.stateMap.find k = ledger.stateMap.find k := by
  refine ⟨{ ledger with stateMap := ledger.stateMap.set sle }, by unfold rawInsert; rw [h], rfl,
    KeyedMap.find_set_self _ _, fun k hk => ?_⟩
  exact KeyedMap.find_set_of_ne hk

theorem rawReplace_spec (h : (ledger.stateMap.find sle.key).isSome) :
    ∃ ledger', ledger.rawReplace sle = some ledger' ∧ ledger'.drops = ledger.drops ∧
      ledger'.stateMap.find sle.key = some sle ∧
      ∀ k, k ≠ sle.key → ledger'.stateMap.find k = ledger.stateMap.find k := by
  obtain ⟨old, hold⟩ := Option.isSome_iff_exists.mp h
  refine ⟨{ ledger with stateMap := ledger.stateMap.set sle },
    by unfold rawReplace; rw [hold], rfl, KeyedMap.find_set_self _ _, fun k hk => ?_⟩
  exact KeyedMap.find_set_of_ne hk

end Ledger

end FalconLedger.Views
