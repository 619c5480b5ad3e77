import FalconLedger.Properties.ApplyOverlay

/-!
# What an open ledger shows

An open ledger is its base under a `RawStateTable`. An item that erases or replaces stands for an
object of the base, one that inserts for none (`Fits`); every operation whose requirement is met
keeps it so (`step_overlays`).

So an open ledger is a view again (`OpenView.view`), over which transactions can be applied: each
item of a transaction's table is an operation on the table below (`applyItemTo_overlays`).
-/

namespace FalconLedger.Views

variable {K V : Type*} [LinearOrder K]

/-! ### The iterator -/

namespace RawStateTable

namespace SlesIter

/-- What is left of a base and of a table over it. -/
structure Merges (iter0 : List (SLE K V)) (iter1 : List (SleAction K V)) : Prop where
  ascending0 : Ascending SLE.key iter0
  ascending1 : Ascending SleAction.key iter1
  covers : ∀ item ∈ iter1, item.action ≠ .insert → ∃ sle ∈ iter0, sle.key = item.key
  isNew : ∀ item ∈ iter1, item.action = .insert → ∀ sle ∈ iter0, sle.key ≠ item.key

/-- No object at the front is erased. -/
def Skipped : List (SLE K V) → List (SleAction K V) → Prop
  | sle0 :: _, item :: _ => item.action = .erase → sle0.key ≠ item.key
  | _, _ => True

/-- An object is live if an item puts it there, or if it has no item. -/
def Live (iter0 : List (SLE K V)) (iter1 : List (SleAction K V)) (sle : SLE K V) : Prop :=
  (∃ item ∈ iter1, item.action ≠ .erase ∧ item.sle = sle) ∨
    (sle ∈ iter0 ∧ ∀ item ∈ iter1, item.key ≠ sle.key)

section

variable {sle0 : SLE K V} {rest0 iter0 : List (SLE K V)} {item : SleAction K V}
  {rest1 iter1 : List (SleAction K V)}

theorem Merges.lt0 (h : Merges (sle0 :: rest0) iter1) : ∀ sle ∈ rest0, sle0.key < sle.key :=
  (List.pairwise_cons.mp h.ascending0).1

theorem Merges.lt1 (h : Merges iter0 (item :: rest1)) : ∀ i ∈ rest1, item.key < i.key :=
  (List.pairwise_cons.mp h.ascending1).1

theorem Merges.insert_of_lt (h : Merges (sle0 :: rest0) (item :: rest1))
    (hlt : item.key < sle0.key) : item.action = .insert := by
  by_contra hne
  obtain ⟨sle, hsle, hkey⟩ := h.covers item List.mem_cons_self hne
  rcases List.mem_cons.mp hsle with rfl | hsle
  · exact hlt.ne' hkey
  · exact (hlt.trans (h.lt0 sle hsle)).ne' hkey

theorem Merges.insert_of_nil (h : Merges [] (item :: rest1)) : item.action = .insert := by
  by_contra hne
  obtain ⟨sle, hsle, -⟩ := h.covers item List.mem_cons_self hne
  exact List.not_mem_nil hsle

theorem Merges.tail_both (h : Merges (sle0 :: rest0) (item :: rest1))
    (hkey : item.key = sle0.key) : Merges rest0 rest1 where
  ascending0 := (List.pairwise_cons.mp h.ascending0).2
  ascending1 := (List.pairwise_cons.mp h.ascending1).2
  covers i hi hne := by
    obtain ⟨sle, hsle, hsleKey⟩ := h.covers i (List.mem_cons_of_mem _ hi) hne
    rcases List.mem_cons.mp hsle with rfl | hsle
    · exact absurd (hkey.trans hsleKey) (h.lt1 i hi).ne
    · exact ⟨sle, hsle, hsleKey⟩
  isNew i hi hins sle hsle := h.isNew i (List.mem_cons_of_mem _ hi) hins sle
    (List.mem_cons_of_mem _ hsle)

/-- An item that inserts goes alone. -/
theorem Merges.tail_item (h : Merges iter0 (item :: rest1)) : Merges iter0 rest1 where
  ascending0 := h.ascending0
  ascending1 := (List.pairwise_cons.mp h.ascending1).2
  covers i hi := h.covers i (List.mem_cons_of_mem _ hi)
  isNew i hi := h.isNew i (List.mem_cons_of_mem _ hi)

theorem Merges.tail_sle (h : Merges (sle0 :: rest0) iter1)
    (hlt : ∀ i ∈ iter1, sle0.key ≠ i.key) : Merges rest0 iter1 where
  ascending0 := (List.pairwise_cons.mp h.ascending0).2
  ascending1 := h.ascending1
  covers i hi hne := by
    obtain ⟨sle, hsle, hsleKey⟩ := h.covers i hi hne
    rcases List.mem_cons.mp hsle with rfl | hsle
    · exact absurd hsleKey (hlt i hi)
    · exact ⟨sle, hsle, hsleKey⟩
  isNew i hi hins sle hsle := h.isNew i hi hins sle (List.mem_cons_of_mem _ hsle)

theorem Merges.live_both (h : Merges (sle0 :: rest0) (item :: rest1))
    (hkey : item.key = sle0.key) (sle : SLE K V) :
    Live (sle0 :: rest0) (item :: rest1) sle ↔
      (item.action ≠ .erase ∧ item.sle = sle) ∨ Live rest0 rest1 sle := by
  unfold Live
  simp only [List.mem_cons, exists_eq_or_imp, forall_eq_or_imp]
  constructor
  · rintro ((hitem | hitem) | ⟨rfl | hsle, hne, hrest⟩)
    · exact .inl hitem
    · exact .inr (.inl hitem)
    · exact absurd hkey hne
    · exact .inr (.inr ⟨hsle, hrest⟩)
  · rintro (hitem | hitem | ⟨hsle, hrest⟩)
    · exact .inl (.inl hitem)
    · exact .inl (.inr hitem)
    · exact .inr ⟨.inr hsle, hkey ▸ (h.lt0 sle hsle).ne, hrest⟩

theorem Merges.live_item (h : Merges iter0 (item :: rest1)) (hins : item.action = .insert)
    (sle : SLE K V) :
    Live iter0 (item :: rest1) sle ↔ item.sle = sle ∨ Live iter0 rest1 sle := by
  unfold Live
  simp only [List.mem_cons, exists_eq_or_imp, forall_eq_or_imp, hins]
  constructor
  · rintro ((⟨-, hitem⟩ | hitem) | ⟨hsle, -, hrest⟩)
    · exact .inl hitem
    · exact .inr (.inl hitem)
    · exact .inr (.inr ⟨hsle, hrest⟩)
  · rintro (hitem | hitem | ⟨hsle, hrest⟩)
    · exact .inl (.inl ⟨by simp, hitem⟩)
    · exact .inl (.inr hitem)
    · exact .inr ⟨hsle, (h.isNew item List.mem_cons_self hins sle hsle).symm, hrest⟩

omit [LinearOrder K] in
theorem live_sle (hlt : ∀ i ∈ iter1, sle0.key ≠ i.key) (sle : SLE K V) :
    Live (sle0 :: rest0) iter1 sle ↔ sle0 = sle ∨ Live rest0 iter1 sle := by
  unfold Live
  simp only [List.mem_cons]
  constructor
  · rintro (hitem | ⟨rfl | hsle, hrest⟩)
    · exact .inr (.inl hitem)
    · exact .inl rfl
    · exact .inr (.inr ⟨hsle, hrest⟩)
  · rintro (rfl | hitem | ⟨hsle, hrest⟩)
    · exact .inr ⟨.inl rfl, fun i hi => (hlt i hi).symm⟩
    · exact .inl hitem
    · exact .inr ⟨.inr hsle, hrest⟩

theorem Live.key_lt {k : K} {sle : SLE K V} (h : Live iter0 iter1 sle)
    (h0 : ∀ sle ∈ iter0, k < sle.key) (h1 : ∀ item ∈ iter1, k < item.key) : k < sle.key := by
  rcases h with ⟨item, hitem, -, rfl⟩ | ⟨hsle, -⟩
  · exact h1 item hitem
  · exact h0 sle hsle

end

/-- An iterator that is past the erased objects at the front, with what is left of two lists. -/
structure Stands (iter0 : List (SLE K V)) (iter1 : List (SleAction K V)) (it : SlesIter K V) :
    Prop where
  merges : Merges it.iter0 it.iter1
  skipped : Skipped it.iter0 it.iter1
  live_iff : ∀ sle, Live it.iter0 it.iter1 sle ↔ Live iter0 iter1 sle
  length_le : it.iter0.length + it.iter1.length ≤ iter0.length + iter1.length

/-- `skip` never follows a null pointer: what the table erases, the base still has. -/
theorem skip_stands {iter0 : List (SLE K V)} {iter1 : List (SleAction K V)}
    (h : Merges iter0 iter1) : ∃ it, skip iter0 iter1 = some it ∧ Stands iter0 iter1 it := by
  induction iter1 generalizing iter0 with
  | nil =>
    refine ⟨⟨iter0, []⟩, by cases iter0 <;> rfl, h, ?_, fun _ => Iff.rfl, le_rfl⟩
    cases iter0 <;> trivial
  | cons item iter1 ih =>
    by_cases herase : item.action = .erase
    · cases iter0 with
      | nil => exact absurd (h.insert_of_nil.symm.trans herase) (by simp)
      | cons sle0 rest0 =>
        by_cases hkey : sle0.key = item.key
        · have htail := h.tail_both hkey.symm
          have hlive : ∀ sle, Live rest0 iter1 sle ↔ Live (sle0 :: rest0) (item :: iter1) sle := by
            intro sle
            rw [h.live_both hkey.symm]
            simp [herase]
          cases rest0 with
          | nil =>
            refine ⟨⟨[], iter1⟩, by simp [skip, herase, hkey], htail, trivial, hlive, ?_⟩
            simp only [List.length_cons]
            omega
          | cons sle1 rest0 =>
            obtain ⟨it, hit, hstands⟩ := ih htail
            have hlength := hstands.length_le
            refine ⟨it, by simp [skip, herase, hkey, hit], hstands.merges, hstands.skipped,
              fun sle => (hstands.live_iff sle).trans (hlive sle), ?_⟩
            simp only [List.length_cons] at hlength ⊢
            omega
        · exact ⟨⟨sle0 :: rest0, item :: iter1⟩, by simp [skip, herase, hkey], h,
            fun _ => hkey, fun _ => Iff.rfl, le_rfl⟩
    · refine ⟨⟨iter0, item :: iter1⟩, by cases iter0 <;> simp [skip, herase], h, ?_,
        fun _ => Iff.rfl, le_rfl⟩
      cases iter0 with
      | nil => trivial
      | cons sle0 rest0 => exact fun h => absurd h herase

/-- One round of a scan: the object at hand is the first of the live ones. -/
structure Advances (it : SlesIter K V) (sle : SLE K V) (it' : SlesIter K V) : Prop where
  dereference_eq : it.dereference = some sle
  increment_eq : it.increment = some it'
  merges : Merges it'.iter0 it'.iter1
  skipped : Skipped it'.iter0 it'.iter1
  live_iff : ∀ s, Live it.iter0 it.iter1 s ↔ sle = s ∨ Live it'.iter0 it'.iter1 s
  key_lt : ∀ s, Live it'.iter0 it'.iter1 s → sle.key < s.key
  length_lt : it'.iter0.length + it'.iter1.length < it.iter0.length + it.iter1.length

theorem exists_advances {it : SlesIter K V} (h : Merges it.iter0 it.iter1)
    (hskipped : Skipped it.iter0 it.iter1) (hend : it.atEnd = false) :
    ∃ sle it', Advances it sle it' := by
  obtain ⟨iter0, iter1⟩ := it
  cases iter1 with
  | nil =>
    cases iter0 with
    | nil => simp [atEnd] at hend
    | cons sle0 rest0 =>
      have hne : ∀ i ∈ ([] : List (SleAction K V)), sle0.key ≠ i.key := by simp
      refine ⟨sle0, ⟨rest0, []⟩, rfl, rfl, h.tail_sle hne, ?_, live_sle hne, fun s hs => ?_,
        by simp⟩
      · cases rest0 <;> trivial
      · exact hs.key_lt h.lt0 (by simp)
  | cons item rest1 =>
    cases iter0 with
    | nil =>
      have hins := h.insert_of_nil
      refine ⟨item.sle, ⟨[], rest1⟩, rfl, rfl, h.tail_item, trivial, h.live_item hins,
        fun s hs => ?_, by simp⟩
      exact hs.key_lt (by simp) h.lt1
    | cons sle0 rest0 =>
      rcases lt_trichotomy item.key sle0.key with hlt | heq | hgt
      · have hins := h.insert_of_lt hlt
        obtain ⟨it', hit', hstands⟩ := skip_stands h.tail_item
        have hlength := hstands.length_le
        refine ⟨item.sle, it', by simp [dereference, hlt.le],
          by simp [increment, hlt, hlt.ne, hit'], hstands.merges, hstands.skipped, fun s => ?_,
          fun s hs => ?_, ?_⟩
        · rw [hstands.live_iff, ← h.live_item hins]
        · refine ((hstands.live_iff s).mp hs).key_lt (fun s hs => ?_) h.lt1
          rcases List.mem_cons.mp hs with rfl | hs
          · exact hlt
          · exact hlt.trans (h.lt0 s hs)
        · simp only [List.length_cons] at hlength ⊢
          omega
      · have hkeep : item.action ≠ .erase := fun herase => hskipped herase heq.symm
        obtain ⟨it', hit', hstands⟩ := skip_stands (h.tail_both heq)
        have hlength := hstands.length_le
        refine ⟨item.sle, it', by simp [dereference, heq.le], by simp [increment, heq, hit'],
          hstands.merges, hstands.skipped, fun s => ?_, fun s hs => ?_, ?_⟩
        · rw [hstands.live_iff, h.live_both heq]
          simp [hkeep]
        · exact ((hstands.live_iff s).mp hs).key_lt (fun s hs => heq.trans_lt (h.lt0 s hs))
            h.lt1
        · simp only [List.length_cons] at hlength ⊢
          omega
      · have hafter : ∀ i ∈ item :: rest1, sle0.key < i.key := by
          intro i hi
          rcases List.mem_cons.mp hi with rfl | hi
          · exact hgt
          · exact hgt.trans (h.lt1 i hi)
        have hne : ∀ i ∈ item :: rest1, sle0.key ≠ i.key := fun i hi => (hafter i hi).ne
        obtain ⟨it', hit', hstands⟩ := skip_stands (h.tail_sle hne)
        have hlength := hstands.length_le
        refine ⟨sle0, it', by simp [dereference, hgt],
          by simp [increment, hgt.ne', hgt.asymm, hit'], hstands.merges, hstands.skipped,
          fun s => ?_, fun s hs => ?_, ?_⟩
        · rw [hstands.live_iff, ← live_sle hne]
        · exact ((hstands.live_iff s).mp hs).key_lt h.lt0 hafter
        · simp only [List.length_cons] at hlength ⊢
          omega

theorem scan_lists {rounds : ℕ} {it : SlesIter K V} (h : Merges it.iter0 it.iter1)
    (hskipped : Skipped it.iter0 it.iter1)
    (hrounds : it.iter0.length + it.iter1.length < rounds) :
    ∃ sles, scan rounds it = some sles ∧ Ascending SLE.key sles ∧
      ∀ s, s ∈ sles ↔ Live it.iter0 it.iter1 s := by
  induction rounds generalizing it with
  | zero => exact absurd hrounds (Nat.not_lt_zero _)
  | succ rounds ih =>
    unfold scan
    cases hend : it.atEnd with
    | true =>
      refine ⟨[], rfl, List.Pairwise.nil, fun s => ?_⟩
      obtain ⟨iter0, iter1⟩ := it
      simp only [atEnd, Bool.and_eq_true, List.isEmpty_iff] at hend
      obtain ⟨rfl, rfl⟩ := hend
      simp [Live]
    | false =>
      obtain ⟨sle, it', hadv⟩ := exists_advances h hskipped hend
      have hlength := hadv.length_lt
      obtain ⟨sles, hsles, hasc, hmem⟩ := ih hadv.merges hadv.skipped (by omega)
      refine ⟨sle :: sles, ?_, List.pairwise_cons.mpr ⟨fun s hs => ?_, hasc⟩, fun s => ?_⟩
      · rw [hadv.dereference_eq, hadv.increment_eq]
        simp [hsles]
      · exact hadv.key_lt s ((hmem s).mp hs)
      · rw [hadv.live_iff, ← hmem, List.mem_cons, eq_comm]

theorem make_scan_lists {iter0 : List (SLE K V)} {iter1 : List (SleAction K V)} {rounds : ℕ}
    (h : Merges iter0 iter1) (hrounds : iter0.length + iter1.length < rounds) :
    ∃ it sles, make iter0 iter1 = some it ∧ scan rounds it = some sles ∧
      Ascending SLE.key sles ∧ ∀ s, s ∈ sles ↔ Live iter0 iter1 s := by
  have hmake : make iter0 iter1 = skip iter0 iter1 := by cases iter1 <;> cases iter0 <;> rfl
  obtain ⟨it, hit, hstands⟩ := skip_stands h
  obtain ⟨sles, hsles, hasc, hmem⟩ :=
    scan_lists hstands.merges hstands.skipped (hstands.length_le.trans_lt hrounds)
  exact ⟨it, sles, hmake ▸ hit, hsles, hasc, fun s => (hmem s).trans (hstands.live_iff s)⟩

end SlesIter

/-! ### Operations on an open ledger -/

/-- The operations of `RawView` on objects. -/
inductive RawOp (K V : Type*)
  | insert (sle : SLE K V)
  | replace (sle : SLE K V)
  | erase (sle : SLE K V)

namespace RawOp

/-- The operation on the table. -/
def onTable (op : RawOp K V) (table : RawStateTable K V) : Option (RawStateTable K V) :=
  match op with
  | insert sle => table.insert sle
  | replace sle => table.replace sle
  | erase sle => table.erase sle

/-- The operation on the state, with the requirements of `RawView`: an object that is inserted is
not there, one that is replaced or erased is. -/
def onState (op : RawOp K V) (state : K → Option (SLE K V)) : Option (K → Option (SLE K V)) :=
  match op with
  | insert sle =>
    if (state sle.key).isNone then some (Function.update state sle.key (some sle)) else none
  | replace sle =>
    if (state sle.key).isSome then some (Function.update state sle.key (some sle)) else none
  | erase sle =>
    if (state sle.key).isSome then some (Function.update state sle.key none) else none

end RawOp

/-- What an item says of the object in the base and in the state. -/
def Fits (base state : Option (SLE K V)) (item : SleAction K V) : Prop :=
  match item.action with
  | .erase => base.isSome ∧ state = none
  | .insert => base = none ∧ state = some item.sle
  | .replace => base.isSome ∧ state = some item.sle

omit [LinearOrder K] in
theorem Fits.eq {base state : Option (SLE K V)} {item : SleAction K V} (h : Fits base state item) :
    state = if erases item then none else some item.sle := by
  obtain ⟨action, sle⟩ := item
  cases action
  · exact h.2
  · exact h.2
  · exact h.2

section

variable {base state state' : K → Option (SLE K V)} {table : RawStateTable K V}

theorem insert_overlays (h : Overlays Fits base state table.items) {sle : SLE K V}
    (hnone : state sle.key = none) :
    ∃ table', table.insert sle = some table' ∧
      Overlays Fits base (Function.update state sle.key (some sle)) table'.items := by
  unfold insert
  cases hfind : table.items.find sle.key with
  | none => exact ⟨_, rfl, h.set rfl ⟨(h.eq_of_none hfind).symm.trans hnone, rfl⟩⟩
  | some item =>
    obtain ⟨action, old⟩ := item
    have hfits := h.fits_of_some hfind
    cases action with
    | erase => exact ⟨_, rfl, h.set rfl ⟨hfits.1, rfl⟩⟩
    | insert => exact absurd (hnone.symm.trans hfits.2) (by simp)
    | replace => exact absurd (hnone.symm.trans hfits.2) (by simp)

theorem replace_overlays (h : Overlays Fits base state table.items) {sle : SLE K V}
    (hsome : (state sle.key).isSome) :
    ∃ table', table.replace sle = some table' ∧
      Overlays Fits base (Function.update state sle.key (some sle)) table'.items := by
  unfold replace
  cases hfind : table.items.find sle.key with
  | none => exact ⟨_, rfl, h.set rfl ⟨h.eq_of_none hfind ▸ hsome, rfl⟩⟩
  | some item =>
    obtain ⟨action, old⟩ := item
    have hfits := h.fits_of_some hfind
    cases action with
    | erase => exact absurd hsome (by simp [hfits.2])
    | insert => exact ⟨_, rfl, h.set rfl ⟨hfits.1, rfl⟩⟩
    | replace => exact ⟨_, rfl, h.set rfl ⟨hfits.1, rfl⟩⟩

theorem erase_overlays (h : Overlays Fits base state table.items) {sle : SLE K V}
    (hsome : (state sle.key).isSome) :
    ∃ table', table.erase sle = some table' ∧
      Overlays Fits base (Function.update state sle.key none) table'.items := by
  unfold erase
  cases hfind : table.items.find sle.key with
  | none => exact ⟨_, rfl, h.set rfl ⟨h.eq_of_none hfind ▸ hsome, rfl⟩⟩
  | some item =>
    obtain ⟨action, old⟩ := item
    have hfits := h.fits_of_some hfind
    cases action with
    | erase => exact absurd hsome (by simp [hfits.2])
    | insert => exact ⟨_, rfl, h.erase hfits.1.symm⟩
    | replace => exact ⟨_, rfl, h.set rfl ⟨hfits.1, rfl⟩⟩

theorem step_overlays (h : Overlays Fits base state table.items) {op : RawOp K V}
    (hop : op.onState state = some state') :
    ∃ table', op.onTable table = some table' ∧ Overlays Fits base state' table'.items := by
  cases op with
  | insert sle =>
    simp only [RawOp.onState, Option.isNone_iff_eq_none] at hop
    split_ifs at hop with hnone
    obtain rfl := Option.some.inj hop
    exact insert_overlays h hnone
  | replace sle =>
    simp only [RawOp.onState] at hop
    split_ifs at hop with hsome
    obtain rfl := Option.some.inj hop
    exact replace_overlays h hsome
  | erase sle =>
    simp only [RawOp.onState] at hop
    split_ifs at hop with hsome
    obtain rfl := Option.some.inj hop
    exact erase_overlays h hsome

theorem run_overlays (h : Overlays Fits base state table.items) {ops : List (RawOp K V)}
    (hops : ops.foldlM (fun s op => op.onState s) state = some state') :
    ∃ table', ops.foldlM (fun t op => op.onTable t) table = some table' ∧
      Overlays Fits base state' table'.items := by
  induction ops generalizing state table with
  | nil =>
    obtain rfl := Option.some.inj hops
    exact ⟨table, rfl, h⟩
  | cons op ops ih =>
    rw [List.foldlM_cons, Option.bind_eq_bind, Option.bind_eq_some_iff] at hops
    obtain ⟨state₁, hop, hops⟩ := hops
    obtain ⟨table₁, htable, h₁⟩ := step_overlays h hop
    obtain ⟨table₂, htable₂, h₂⟩ := ih h₁ hops
    refine ⟨table₂, ?_, h₂⟩
    rw [List.foldlM_cons, Option.bind_eq_bind, htable, Option.bind_some, htable₂]

end

/-! ### What an open ledger shows -/

section

variable {base : ReadView K V} {state : K → Option (SLE K V)} {table : RawStateTable K V}

theorem merges_filter (h : Overlays Fits base.state state table.items) (p : K → Bool) :
    SlesIter.Merges (base.sles.filter fun sle => p sle.key)
      (table.items.toList.filter fun item => p item.key) where
  ascending0 := base.sles_ascending.filter _
  ascending1 := table.items.toList_ascending.filter _
  covers item hitem hne := by
    obtain ⟨hitem, hp⟩ := List.mem_filter.mp hitem
    have hfits := h.fits_of_some ((table.items.mem_toList item).mp hitem)
    have hsome : (base.state item.key).isSome := by
      obtain ⟨action, sle⟩ := item
      cases action
      · exact hfits.1
      · exact absurd rfl hne
      · exact hfits.1
    obtain ⟨sle, hsle⟩ := Option.isSome_iff_exists.mp hsome
    obtain ⟨hmem, hkey⟩ := (base.state_eq_some_iff _ sle).mp hsle
    exact ⟨sle, List.mem_filter.mpr ⟨hmem, by rw [hkey]; exact hp⟩, hkey⟩
  isNew item hitem hins sle hsle hkey := by
    obtain ⟨hitem, -⟩ := List.mem_filter.mp hitem
    obtain ⟨hsle, -⟩ := List.mem_filter.mp hsle
    have hfits := h.fits_of_some ((table.items.mem_toList item).mp hitem)
    have hnone : base.state item.key = none := by
      obtain ⟨action, sle⟩ := item
      obtain rfl : action = .insert := hins
      exact hfits.1
    rw [(base.state_eq_some_iff _ sle).mpr ⟨hsle, hkey⟩] at hnone
    cases hnone

theorem live_filter_iff (h : Overlays Fits base.state state table.items) (p : K → Bool)
    (sle : SLE K V) :
    SlesIter.Live (base.sles.filter fun sle => p sle.key)
        (table.items.toList.filter fun item => p item.key) sle ↔
      state sle.key = some sle ∧ p sle.key = true := by
  unfold SlesIter.Live
  simp only [List.mem_filter, and_imp]
  cases hfind : table.items.find sle.key with
  | none =>
    have hno := (table.items.find_eq_none_iff sle.key).mp hfind
    rw [h.eq_of_none hfind, base.state_eq_some_iff]
    constructor
    · rintro (⟨item, ⟨hitem, -⟩, -, rfl⟩ | ⟨⟨hsle, hp⟩, -⟩)
      · exact absurd rfl (hno item hitem)
      · exact ⟨⟨hsle, rfl⟩, hp⟩
    · rintro ⟨⟨hsle, -⟩, hp⟩
      exact .inr ⟨⟨hsle, hp⟩, fun item hitem _ => hno item hitem⟩
  | some item =>
    have hkey : item.key = sle.key := table.items.key_eq _ _ hfind
    have hitem : item ∈ table.items.toList := (table.items.mem_toList item).mpr (hkey ▸ hfind)
    have hstate := (h.fits_of_some hfind).eq
    have hunique : ∀ i ∈ table.items.toList, i.key = sle.key → i = item := by
      intro i hi hik
      have := (table.items.mem_toList i).mp hi
      rw [hik, hfind] at this
      exact (Option.some.inj this).symm
    constructor
    · rintro (⟨i, ⟨hi, hp⟩, hne, hsle⟩ | ⟨⟨hsle, hp⟩, hno⟩)
      · obtain rfl := hunique i hi (by rw [← hsle]; rfl)
        have herases : erases i = false := decide_eq_false hne
        exact ⟨by rw [hstate, herases, hsle]; rfl, hkey ▸ hp⟩
      · exact absurd hkey (hno item hitem (by rw [hkey]; exact hp))
    · rintro ⟨hsle, hp⟩
      rw [hstate] at hsle
      refine .inl ⟨item, ⟨hitem, by rw [hkey]; exact hp⟩, ?_, ?_⟩
      · intro herase
        simp [erases, herase] at hsle
      · split_ifs at hsle
        exact Option.some.inj hsle

end

theorem apply_state {base state : K → Option (SLE K V)} {table : RawStateTable K V}
    (h : Overlays Fits base state table.items) {target : Ledger K V}
    (htarget : ∀ k, target.stateMap.find k = base k) :
    ∃ target', table.apply target = some target' ∧
      target'.drops = target.drops - table.dropsDestroyed ∧
      ∀ k, target'.stateMap.find k = state k := by
  have hpaid : ∀ k, (target.rawDestroyXRP table.dropsDestroyed).stateMap.find k = base k := htarget
  refine h.foldlM_apply hpaid ?_
  rintro target s ⟨action, sle⟩ hfits
  cases action with
  | erase => exact hfits.2 ▸ Ledger.rawErase_spec hfits.1
  | insert => exact hfits.2 ▸ Ledger.rawInsert_spec hfits.1
  | replace => exact hfits.2 ▸ Ledger.rawReplace_spec hfits.1

/-- An open ledger after any operations that meet their requirements: a scan ends and yields every
live object once, by ascending key, and `succ` finds the next live key. -/
theorem openView_shows_state (base : ReadView K V) (ops : List (RawOp K V))
    (state : K → Option (SLE K V))
    (hops : ops.foldlM (fun s op => op.onState s) base.state = some state) :
    ∃ table, ops.foldlM (fun t op => op.onTable t) empty = some table ∧
      (∀ rounds, base.sles.length + table.items.toList.length < rounds →
        ∃ it sles, table.slesBegin base = some it ∧ it.scan rounds = some sles ∧
          Ascending SLE.key sles ∧ ∀ sle, sle ∈ sles ↔ state sle.key = some sle) ∧
      (∀ key rounds, base.sles.length + table.items.toList.length < rounds →
        ∃ it sles, table.slesUpperBound base key = some it ∧ it.scan rounds = some sles ∧
          Ascending SLE.key sles ∧ ∀ sle, sle ∈ sles ↔ state sle.key = some sle ∧ key < sle.key) ∧
      (∀ key last rounds, base.sles.length < rounds →
        ∃ next, table.succ base rounds key last = some next ∧
          IsNext {k | (state k).isSome} key last next) := by
  have hempty : Overlays Fits base.state base.state (empty : RawStateTable K V).items :=
    overlays_empty base.state
  obtain ⟨table, htable, h⟩ := run_overlays hempty hops
  refine ⟨table, htable, fun rounds hrounds => ?_, fun key rounds hrounds => ?_,
    fun key last rounds hrounds => ?_⟩
  · have hmerges := merges_filter h fun _ => true
    have hlive := live_filter_iff h fun _ => true
    simp only [List.filter_true, and_true] at hmerges hlive
    obtain ⟨it, sles, hit, hscan, hasc, hmem⟩ := SlesIter.make_scan_lists hmerges hrounds
    exact ⟨it, sles, hit, hscan, hasc, fun sle => (hmem sle).trans (hlive sle)⟩
  · have hlength : (base.sles.filter fun sle => decide (key < sle.key)).length +
        (table.items.toList.filter fun item => decide (key < item.key)).length < rounds :=
      (Nat.add_le_add (List.length_filter_le _ _) (List.length_filter_le _ _)).trans_lt hrounds
    obtain ⟨it, sles, hit, hscan, hasc, hmem⟩ :=
      SlesIter.make_scan_lists (merges_filter h fun k => decide (key < k)) hlength
    refine ⟨it, sles, ?_, hscan, hasc, fun sle => ?_⟩
    · unfold slesUpperBound
      rw [base.slesUpperBound_eq]
      exact hit
    · rw [hmem, live_filter_iff h fun k => decide (key < k), decide_eq_true_iff]
  · obtain ⟨next, hnext, hisNext⟩ :=
      @overlaySucc_isNext K V _ _ _ base last table.items erases rounds key hrounds
    rw [h.liveKeys_eq fun _ _ _ => Fits.eq] at hisNext
    exact ⟨next, hnext, hisNext⟩

/-- A ledger with two objects. -/
def twoObjects : Ledger ℕ Unit := ⟨(KeyedMap.empty.set ⟨1, 0x61, ()⟩).set ⟨2, 0x61, ()⟩, 0⟩

/-- The last object is erased, an object is put behind it and the first is replaced. -/
theorem openView_shows_state_twoObjects :
    ∃ (table : RawStateTable ℕ Unit) (rounds : ℕ) (it : SlesIter ℕ Unit) (sles : List (SLE ℕ Unit)),
      [RawOp.erase ⟨2, 0x61, ()⟩, .insert ⟨3, 0x61, ()⟩, .replace ⟨1, 0x64, ()⟩].foldlM
        (fun t op => op.onTable t) empty = some table ∧
      table.slesBegin twoObjects.view = some it ∧ it.scan rounds = some sles ∧
      ∀ sle, sle ∈ sles ↔ sle = ⟨1, 0x64, ()⟩ ∨ sle = ⟨3, 0x61, ()⟩ := by
  obtain ⟨table, htable, hscan, -⟩ := openView_shows_state twoObjects.view
    [.erase ⟨2, 0x61, ()⟩, .insert ⟨3, 0x61, ()⟩, .replace ⟨1, 0x64, ()⟩]
    (Function.update (Function.update (Function.update twoObjects.view.state 2 none) 3
      (some ⟨3, 0x61, ()⟩)) 1 (some ⟨1, 0x64, ()⟩))
    (by simp [RawOp.onState, twoObjects, KeyedMap.find_set])
  obtain ⟨it, sles, hit, hsles, -, hmem⟩ := hscan _ (Nat.lt_succ_self _)
  refine ⟨table, _, it, sles, htable, hit, hsles, fun sle => ?_⟩
  rw [hmem]
  obtain ⟨k, type, -⟩ := sle
  by_cases h1 : k = 1
  · simp [h1, eq_comm]
  by_cases h3 : k = 3
  · simp [h3, eq_comm]
  by_cases h2 : k = 2
  · simp [h2]
  · simp [h1, h2, h3, twoObjects, KeyedMap.find_set]

/-- An object is put where the base has one, and erased. That takes back the insertion only, so that
the scan still comes to the object of the base. -/
theorem openView_shows_erased :
    ∃ (table : RawStateTable ℕ Unit) (it : SlesIter ℕ Unit),
      [RawOp.insert ⟨2, 0x64, ()⟩, .erase ⟨2, 0x64, ()⟩].foldlM (fun t op => op.onTable t) empty =
        some table ∧
      table.slesBegin twoObjects.view = some it ∧
      it.scan 3 = some [⟨1, 0x61, ()⟩, ⟨2, 0x61, ()⟩] := by
  have hitems : (((empty : RawStateTable ℕ Unit).items.set ⟨.insert, ⟨2, 0x64, ()⟩⟩).erase 2).toList =
      [] := List.eq_nil_iff_forall_not_mem.mpr fun item hitem => by
    obtain ⟨hne, hset⟩ := KeyedMap.mem_toList_erase.mp hitem
    rcases KeyedMap.mem_toList_set.mp hset with rfl | ⟨-, hempty⟩
    · exact hne rfl
    · rw [RawStateTable.empty, KeyedMap.toList_empty] at hempty
      cases hempty
  have hbase : twoObjects.view.sles = [⟨1, 0x61, ()⟩, ⟨2, 0x61, ()⟩] := by
    have hfirst : ((KeyedMap.empty : KeyedMap (SLE.key (K := ℕ) (V := Unit))).set
        ⟨1, 0x61, ()⟩).toList = [⟨1, 0x61, ()⟩] := by
      rw [KeyedMap.toList_set_last (by simp), KeyedMap.toList_empty]
      rfl
    exact (KeyedMap.toList_set_last (by simp [hfirst])).trans (by rw [hfirst]; rfl)
  refine ⟨_, ⟨[⟨1, 0x61, ()⟩, ⟨2, 0x61, ()⟩], []⟩, rfl, ?_, ?_⟩
  · rw [slesBegin, hbase]
    exact congrArg (SlesIter.make _) hitems
  · rfl

end RawStateTable

/-! ### An open ledger as a view -/

/-- An open ledger, with a table that fits its base. -/
structure OpenView (K V : Type*) [LinearOrder K] where
  base : ReadView K V
  items : RawStateTable K V
  fits : ∃ state, Overlays RawStateTable.Fits base.state state items.items

namespace OpenView

/-- Nothing has been changed yet. -/
def ofBase (base : ReadView K V) : OpenView K V :=
  ⟨base, .empty, base.state, overlays_empty base.state⟩

/-- The object that shows at a key. -/
def state (v : OpenView K V) (k : K) : Option (SLE K V) :=
  match v.items.items.find k with
  | none => v.base.state k
  | some item => if RawStateTable.erases item then none else some item.sle

theorem eq_state {v : OpenView K V} {state : K → Option (SLE K V)}
    (h : Overlays RawStateTable.Fits v.base.state state v.items.items) : state = v.state := by
  funext k
  unfold OpenView.state
  cases hfind : v.items.items.find k with
  | none => exact h.eq_of_none hfind
  | some item => exact (h.fits_of_some hfind).eq

theorem overlays (v : OpenView K V) :
    Overlays RawStateTable.Fits v.base.state v.state v.items.items := by
  obtain ⟨state, h⟩ := v.fits
  exact eq_state h ▸ h

/-- As many rounds as an iterator may need. -/
def rounds (v : OpenView K V) : ℕ := v.base.sles.length + v.items.items.toList.length + 1

/-- The objects that an iterator comes to. -/
def scanned (v : OpenView K V) (it : Option (RawStateTable.SlesIter K V)) : List (SLE K V) :=
  (it.bind fun it => it.scan v.rounds).getD []

theorem scanned_slesBegin (v : OpenView K V) :
    Ascending SLE.key (v.scanned (v.items.slesBegin v.base)) ∧
      ∀ sle, sle ∈ v.scanned (v.items.slesBegin v.base) ↔ v.state sle.key = some sle := by
  have hmerges := RawStateTable.merges_filter v.overlays fun _ => true
  have hlive := RawStateTable.live_filter_iff v.overlays fun _ => true
  simp only [List.filter_true, and_true] at hmerges hlive
  obtain ⟨it, sles, hit, hscan, hasc, hmem⟩ :=
    RawStateTable.SlesIter.make_scan_lists hmerges (Nat.lt_succ_self _)
  rw [scanned, RawStateTable.slesBegin, hit, Option.bind_some, rounds, hscan]
  exact ⟨hasc, fun sle => (hmem sle).trans (hlive sle)⟩

theorem scanned_slesUpperBound (v : OpenView K V) (key : K) :
    Ascending SLE.key (v.scanned (v.items.slesUpperBound v.base key)) ∧
      ∀ sle, sle ∈ v.scanned (v.items.slesUpperBound v.base key) ↔
        v.state sle.key = some sle ∧ key < sle.key := by
  have hlength : (v.base.sles.filter fun sle => decide (key < sle.key)).length +
      (v.items.items.toList.filter fun item => decide (key < item.key)).length < v.rounds :=
    Nat.lt_succ_of_le (Nat.add_le_add (List.length_filter_le _ _) (List.length_filter_le _ _))
  obtain ⟨it, sles, hit, hscan, hasc, hmem⟩ := RawStateTable.SlesIter.make_scan_lists
    (RawStateTable.merges_filter v.overlays fun k => decide (key < k)) hlength
  have hbegin : v.items.slesUpperBound v.base key = some it := by
    unfold RawStateTable.slesUpperBound
    rw [v.base.slesUpperBound_eq]
    exact hit
  rw [scanned, hbegin, Option.bind_some, hscan]
  refine ⟨hasc, fun sle => ?_⟩
  rw [Option.getD_some, hmem, RawStateTable.live_filter_iff v.overlays fun k => decide (key < k),
    decide_eq_true_iff]

theorem read_eq (v : OpenView K V) (k : Keylet K) :
    v.items.read v.base k = (v.state k.key).filter k.check := by
  unfold RawStateTable.read state
  cases hfind : v.items.items.find k.key with
  | none => exact v.base.read_eq k
  | some item =>
    cases herases : RawStateTable.erases item
    · simp [Option.filter_some, herases]
    · simp [herases]

theorem state_key {v : OpenView K V} {k : K} {sle : SLE K V} (h : v.state k = some sle) :
    sle.key = k := by
  unfold state at h
  cases hfind : v.items.items.find k with
  | none =>
    rw [hfind] at h
    exact ((v.base.state_eq_some_iff k sle).mp h).2
  | some item =>
    simp only [hfind] at h
    split_ifs at h
    obtain rfl := Option.some.inj h
    exact v.items.items.key_eq k item hfind

theorem exists_scanned (v : OpenView K V) (k : K) :
    (∃ sle ∈ v.scanned (v.items.slesBegin v.base), sle.key = k) ↔ (v.state k).isSome := by
  simp only [v.scanned_slesBegin.2, Option.isSome_iff_exists]
  constructor
  · rintro ⟨sle, hsle, rfl⟩
    exact ⟨sle, hsle⟩
  · rintro ⟨sle, hsle⟩
    obtain rfl := state_key hsle
    exact ⟨sle, hsle, rfl⟩

theorem exists_iff (v : OpenView K V) {k : Keylet K}
    (hcheck : ∀ sle, v.state k.key = some sle → k.check sle = true) :
    v.items.exists_ v.base k = true ↔ (v.state k.key).isSome := by
  unfold RawStateTable.exists_ state at *
  cases hfind : v.items.items.find k.key with
  | none =>
    simp only [hfind] at hcheck ⊢
    rw [← v.base.mem_keys_iff]
    exact v.base.exists_iff k fun sle hsle hkey =>
      hcheck sle ((v.base.state_eq_some_iff _ sle).mpr ⟨hsle, hkey⟩)
  | some item =>
    simp only [hfind] at hcheck ⊢
    cases herases : RawStateTable.erases item with
    | false => simp [hcheck item.sle (by simp [herases])]
    | true => simp

/-- The functions of `ReadView` that an open ledger has. -/
def view (v : OpenView K V) : ReadView K V where
  sles := v.scanned (v.items.slesBegin v.base)
  slesUpperBound key := v.scanned (v.items.slesUpperBound v.base key)
  succ key last := (v.items.succ v.base v.rounds key last).getD none
  read := v.items.read v.base
  exists_ := v.items.exists_ v.base
  sles_ascending := v.scanned_slesBegin.1
  slesUpperBound_eq key := by
    obtain ⟨hasc, hmem⟩ := v.scanned_slesUpperBound key
    refine hasc.eq_of_mem_iff (v.scanned_slesBegin.1.filter _) fun sle => ?_
    rw [hmem, List.mem_filter, v.scanned_slesBegin.2, decide_eq_true_iff]
  succ_isNext key last := by
    have hrounds : v.base.sles.length < v.rounds := by
      unfold rounds
      omega
    obtain ⟨next, hnext, hisNext⟩ := @overlaySucc_isNext K V _ _ _ v.base last v.items.items
      RawStateTable.erases v.rounds key hrounds
    rw [v.overlays.liveKeys_eq fun _ _ _ => RawStateTable.Fits.eq] at hisNext
    have hlive : {k | ∃ sle ∈ v.scanned (v.items.slesBegin v.base), sle.key = k} =
        {k | (v.state k).isSome} := Set.ext v.exists_scanned
    rw [hlive, RawStateTable.succ, hnext]
    exact hisNext
  read_iff k sle := by
    rw [v.read_eq, Option.filter_eq_some_iff, v.scanned_slesBegin.2]
    constructor
    · rintro ⟨hsle, hcheck⟩
      obtain hkey := state_key hsle
      exact ⟨hkey ▸ hsle, hkey, hcheck⟩
    · rintro ⟨hsle, hkey, hcheck⟩
      exact ⟨hkey ▸ hsle, hcheck⟩
  exists_iff k hcheck := by
    rw [v.exists_scanned]
    refine v.exists_iff fun sle hsle => hcheck sle ?_ (state_key hsle)
    rw [v.scanned_slesBegin.2, state_key hsle]
    exact hsle

theorem view_state (v : OpenView K V) : v.view.state = v.state := by
  funext k
  refine Option.ext fun sle => ?_
  rw [v.view.state_eq_some_iff]
  change sle ∈ v.scanned (v.items.slesBegin v.base) ∧ _ ↔ _
  rw [v.scanned_slesBegin.2]
  constructor
  · rintro ⟨hsle, rfl⟩
    exact hsle
  · intro hsle
    exact ⟨(state_key hsle).symm ▸ hsle, state_key hsle⟩

/-! ### Transactions on an open ledger -/

open ApplyStateTable (ApplyOp MeetsRequirements)

/-- An item of a transaction's table has on an open ledger the effect that it has on the state. -/
theorem applyItemTo_overlays {base s : K → Option (SLE K V)} {v : Option (SLE K V)}
    {target : RawStateTable K V} {item : ApplyItem K V}
    (h : Overlays RawStateTable.Fits base s target.items)
    (hfits : ApplyStateTable.Fits (s item.key) v item) :
    ∃ target', ApplyStateTable.applyItemTo target item = some target' ∧
      target'.dropsDestroyed = target.dropsDestroyed ∧
      Overlays RawStateTable.Fits base (Function.update s item.key v) target'.items := by
  have hdrops : ∀ {op : RawStateTable.RawOp K V} {target'}, op.onTable target = some target' →
      target'.dropsDestroyed = target.dropsDestroyed := by
    intro op target' hop
    cases op <;> grind [RawStateTable.RawOp.onTable, RawStateTable.insert, RawStateTable.replace,
      RawStateTable.erase]
  have hstep : ∀ op : RawStateTable.RawOp K V,
      op.onState s = some (Function.update s item.key v) →
      ∃ target', op.onTable target = some target' ∧
        target'.dropsDestroyed = target.dropsDestroyed ∧
        Overlays RawStateTable.Fits base (Function.update s item.key v) target'.items := by
    intro op hop
    obtain ⟨target', htarget, hoverlays⟩ := RawStateTable.step_overlays h hop
    exact ⟨target', htarget, hdrops htarget, hoverlays⟩
  obtain ⟨action, ref, sle⟩ := item
  cases action with
  | cache =>
    refine ⟨target, rfl, rfl, ?_⟩
    rw [hfits.2, ← hfits.1, Function.update_eq_self]
    exact h
  | erase =>
    obtain ⟨hsome, rfl⟩ := hfits
    exact hstep (.erase sle) (if_pos hsome)
  | insert =>
    obtain ⟨hnone, rfl⟩ := hfits
    exact hstep (.insert sle) (if_pos (Option.isNone_iff_eq_none.mpr hnone))
  | modify =>
    obtain ⟨hsome, rfl⟩ := hfits
    exact hstep (.replace sle) (if_pos hsome)

theorem foldlM_applyItemTo {base s s' : K → Option (SLE K V)} {target : RawStateTable K V}
    {list : List (ApplyItem K V)} (hasc : Ascending ApplyItem.key list)
    (h : Overlays RawStateTable.Fits base s target.items)
    (hfits : ∀ item ∈ list, ApplyStateTable.Fits (s item.key) (s' item.key) item)
    (hrest : ∀ k, (∀ item ∈ list, item.key ≠ k) → s' k = s k) :
    ∃ target', list.foldlM ApplyStateTable.applyItemTo target = some target' ∧
      target'.dropsDestroyed = target.dropsDestroyed ∧
      Overlays RawStateTable.Fits base s' target'.items := by
  induction list generalizing s target with
  | nil =>
    have hsame : s' = s := funext fun k => hrest k (by simp)
    exact ⟨target, rfl, rfl, hsame ▸ h⟩
  | cons item list ih =>
    obtain ⟨hlt, hasc⟩ := List.pairwise_cons.mp hasc
    obtain ⟨target₁, htarget₁, hdrops₁, h₁⟩ :=
      applyItemTo_overlays h (hfits item List.mem_cons_self)
    have hfits₁ : ∀ item' ∈ list, ApplyStateTable.Fits
        (Function.update s item.key (s' item.key) item'.key) (s' item'.key) item' := by
      intro item' hitem'
      rw [Function.update_of_ne (hlt item' hitem').ne']
      exact hfits item' (List.mem_cons_of_mem _ hitem')
    have hrest₁ : ∀ k, (∀ item' ∈ list, item'.key ≠ k) →
        s' k = Function.update s item.key (s' item.key) k := by
      intro k hk
      by_cases hitem : k = item.key
      · rw [hitem, Function.update_self]
      · rw [Function.update_of_ne hitem]
        exact hrest k (List.forall_mem_cons.mpr ⟨Ne.symm hitem, hk⟩)
    obtain ⟨target₂, htarget₂, hdrops₂, h₂⟩ := ih hasc h₁ hfits₁ hrest₁
    refine ⟨target₂, ?_, hdrops₂.trans hdrops₁, h₂⟩
    rw [List.foldlM_cons, htarget₁]
    exact htarget₂

/-- A transaction has made its calls on a table over the open ledger, and the table has been applied
to it. -/
def Transacts (v : OpenView K V) (ops : List (ApplyOp K V)) (v' : OpenView K V) : Prop :=
  v'.base = v.base ∧ ∃ table, ops.foldlM (fun t op => op.onTable v.view t) .empty = some table ∧
    table.applyTo v.items = some v'.items

theorem exists_transacts (v : OpenView K V) {ops : List (ApplyOp K V)}
    {table : ApplyStateTable K V} (hreq : MeetsRequirements v.state ops)
    (hrun : ops.foldlM (fun t op => op.onTable v.view t) .empty = some table) :
    ∃ v', Transacts v ops v' ∧ v'.state = ops.foldl (fun s op => op.effect s) v.state ∧
      v'.items.dropsDestroyed = v.items.dropsDestroyed + (ops.map ApplyOp.fee).sum := by
  have hempty : Overlays ApplyStateTable.Fits v.view.state v.view.state
      (ApplyStateTable.empty : ApplyStateTable K V).items := overlays_empty v.view.state
  have htable := ApplyStateTable.run_overlays hempty (v.view_state ▸ hreq) hrun
  rw [v.view_state] at htable
  obtain ⟨items, hitems, hdrops, h⟩ := @foldlM_applyItemTo K V _ _ _ _
    (v.items.destroyXRP table.dropsDestroyed) _ table.items.toList_ascending v.overlays
    (fun item hitem => htable.fits_of_some ((table.items.mem_toList item).mp hitem))
    fun k hk => htable.eq_of_none ((table.items.find_eq_none_iff k).mpr hk)
  refine ⟨⟨v.base, items, _, h⟩, ⟨rfl, table, hrun, hitems⟩, (eq_state h).symm, ?_⟩
  have hfees : table.dropsDestroyed = 0 + (ops.map ApplyOp.fee).sum :=
    ApplyStateTable.run_dropsDestroyed hrun
  rw [show (OpenView.mk v.base items _).items.dropsDestroyed = items.dropsDestroyed from rfl,
    hdrops, RawStateTable.destroyXRP, hfees, zero_add]

theorem Transacts.state_eq {v v' : OpenView K V} {ops : List (ApplyOp K V)}
    (h : Transacts v ops v') (hreq : MeetsRequirements v.state ops) :
    v'.state = ops.foldl (fun s op => op.effect s) v.state ∧
      v'.items.dropsDestroyed = v.items.dropsDestroyed + (ops.map ApplyOp.fee).sum := by
  obtain ⟨hbase, table, hrun, hitems⟩ := h
  obtain ⟨v₁, ⟨hbase₁, table₁, hrun₁, hitems₁⟩, hstate, hdrops⟩ := v.exists_transacts hreq hrun
  rw [hrun] at hrun₁
  rw [← Option.some.inj hrun₁, hitems] at hitems₁
  have hsame : v₁.items = v'.items := (Option.some.inj hitems₁).symm
  refine ⟨?_, hsame ▸ hdrops⟩
  rw [← hstate]
  funext k
  rw [state, state, hbase, hbase₁, hsame]

/-- Any number of transactions. One that fails leaves its table behind and has no part in it. -/
inductive TransactsAll : OpenView K V → List (List (ApplyOp K V)) → OpenView K V → Prop
  | nil (v : OpenView K V) : TransactsAll v [] v
  | cons {v v₁ v₂ : OpenView K V} {ops : List (ApplyOp K V)} {txs : List (List (ApplyOp K V))}
    (h : Transacts v ops v₁) (hrest : TransactsAll v₁ txs v₂) : TransactsAll v (ops :: txs) v₂

theorem meetsRequirements_append {s : K → Option (SLE K V)} {ops ops' : List (ApplyOp K V)} :
    MeetsRequirements s (ops ++ ops') ↔ MeetsRequirements s ops ∧
      MeetsRequirements (ops.foldl (fun s op => op.effect s) s) ops' := by
  induction ops generalizing s with
  | nil => exact (iff_of_eq (true_and _)).symm
  | cons op ops ih => exact (and_congr_right fun _ => ih).trans and_assoc.symm

theorem TransactsAll.state_eq {v v' : OpenView K V} {txs : List (List (ApplyOp K V))}
    (h : TransactsAll v txs v') (hreq : MeetsRequirements v.state txs.flatten) :
    v'.base = v.base ∧ v'.state = txs.flatten.foldl (fun s op => op.effect s) v.state ∧
      v'.items.dropsDestroyed = v.items.dropsDestroyed + (txs.flatten.map ApplyOp.fee).sum := by
  induction h with
  | nil v => exact ⟨rfl, rfl, (add_zero _).symm⟩
  | cons h hrest ih =>
    rw [List.flatten_cons, meetsRequirements_append] at hreq
    obtain ⟨hstate, hdrops⟩ := h.state_eq hreq.1
    obtain ⟨hbase', hstate', hdrops'⟩ := ih (hstate ▸ hreq.2)
    refine ⟨hbase'.trans h.1, ?_, ?_⟩
    · rw [hstate', hstate, List.flatten_cons, List.foldl_append]
    · rw [hdrops', hdrops, List.flatten_cons, List.map_append, List.sum_append, add_assoc]

/-- **The layers of views refine one state.** Transactions run one after the other on an open
ledger, each on a table of its own that is then applied to it. If the calls meet their requirements,
the open ledger shows what all of them make of the state of the closed one, a next transaction whose
calls do not throw can be applied to it, and closing it throws nothing and leaves that state, less
the drops that were destroyed. -/
theorem layers_refine_state (ledger : Ledger K V) (txs : List (List (ApplyOp K V)))
    (v : OpenView K V) (hruns : TransactsAll (ofBase ledger.view) txs v)
    (hreq : MeetsRequirements ledger.view.state txs.flatten) :
    let state := txs.flatten.foldl (fun s op => op.effect s) ledger.view.state
    (∀ k, v.view.read k = (state k.key).filter k.check) ∧
    (∀ ops table, MeetsRequirements state ops →
      ops.foldlM (fun t op => op.onTable v.view t) .empty = some table →
      ∃ v', Transacts v ops v') ∧
    ∃ closed, v.items.apply ledger = some closed ∧
      closed.drops = ledger.drops - (txs.flatten.map ApplyOp.fee).sum ∧
      ∀ k, closed.stateMap.find k = state k := by
  have hover : (ofBase ledger.view).state = ledger.view.state :=
    (eq_state (overlays_empty ledger.view.state)).symm
  obtain ⟨hbase, hstate, hdrops⟩ := hruns.state_eq (hover.symm ▸ hreq)
  rw [hover] at hstate
  have hdestroyed : v.items.dropsDestroyed = (txs.flatten.map ApplyOp.fee).sum :=
    hdrops.trans (zero_add _)
  refine ⟨fun k => ?_, fun ops table hops hrun => ?_, ?_⟩
  · rw [← hstate]
    exact v.read_eq k
  · rw [← hstate] at hops
    obtain ⟨v', h, -⟩ := v.exists_transacts hops hrun
    exact ⟨v', h⟩
  · obtain ⟨closed, hclosed, hcloseddrops, hfind⟩ :=
      @RawStateTable.apply_state K V _ _ _ _ v.overlays ledger fun k => by
        rw [hbase]
        exact (ledger.view_state k).symm
    exact ⟨closed, hclosed, hdestroyed ▸ hcloseddrops, fun k => by rw [hfind, hstate]⟩

theorem layers_refine_state_twoObjects : ∃ v closed,
    TransactsAll (ofBase RawStateTable.twoObjects.view)
      [[ApplyOp.rawErase 5 ⟨2, 0x61, ()⟩, .rawDestroyXRP 10]] v ∧
    v.items.apply RawStateTable.twoObjects = some closed ∧ closed.drops = -10 ∧
    closed.stateMap.find 2 = none := by
  have hreq : MeetsRequirements RawStateTable.twoObjects.view.state
      [ApplyOp.rawErase 5 ⟨2, 0x61, ()⟩, .rawDestroyXRP 10] := by
    refine ⟨?_, trivial, trivial⟩
    simp [ApplyOp.Required, RawStateTable.twoObjects]
  obtain ⟨v, hv, -⟩ := (ofBase RawStateTable.twoObjects.view).exists_transacts hreq rfl
  have hruns : TransactsAll _ _ v := .cons hv (.nil v)
  obtain ⟨-, -, closed, hclosed, hdrops, hfind⟩ :=
    layers_refine_state RawStateTable.twoObjects _ v hruns hreq
  exact ⟨v, closed, hruns, hclosed, hdrops, hfind 2⟩

end OpenView

end FalconLedger.Views
