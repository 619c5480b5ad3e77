import FalconLedger.Properties.Overlays
import Mathlib.Algebra.BigOperators.Group.List.Basic
import Mathlib.Algebra.Ring.Int.Defs

/-!
# What a transaction sees

A transaction works on an `ApplyStateTable` over a view. Its calls have an effect on the state of
the view (`ApplyOp.effect`), and the table answers as that state does, as long as the calls meet the
requirements that `ApplyView.h` and `RawView.h` make: an object that is inserted is not there yet,
one that is replaced or erased raw is.
-/

namespace FalconLedger.Views.ApplyStateTable

variable {K V : Type*} [LinearOrder K]

/-- The calls of `ApplyView` and `RawView`. A pointer is its address and what is found there when
the call is made. -/
inductive ApplyOp (K V : Type*)
  | peek (k : Keylet K) (ref : ℕ)
  | insert (ref : ℕ) (sle : SLE K V)
  | update (ref : ℕ) (sle : SLE K V)
  | erase (ref : ℕ) (sle : SLE K V)
  | rawInsert (ref : ℕ) (sle : SLE K V)
  | rawReplace (ref : ℕ) (sle : SLE K V)
  | rawErase (ref : ℕ) (sle : SLE K V)
  | rawDestroyXRP (fee : ℤ)

namespace ApplyOp

/-- `ApplyViewBase`: the call on the table. -/
def onTable (base : ReadView K V) (table : ApplyStateTable K V) :
    ApplyOp K V → Option (ApplyStateTable K V)
  | peek k ref => some (table.peek base k ref).1
  | insert ref sle => table.insert ref sle
  | update ref sle => table.update ref sle
  | erase ref sle => table.erase ref sle
  | rawInsert ref sle => table.insert ref sle
  | rawReplace ref sle => table.replace ref sle
  | rawErase ref sle => table.rawErase ref sle
  | rawDestroyXRP fee => some (table.destroyXRP fee)

/-- The call on the state. -/
def effect (state : K → Option (SLE K V)) : ApplyOp K V → K → Option (SLE K V)
  | peek _ _ => state
  | insert _ sle => Function.update state sle.key (some sle)
  | update _ sle => Function.update state sle.key (some sle)
  | erase _ sle => Function.update state sle.key none
  | rawInsert _ sle => Function.update state sle.key (some sle)
  | rawReplace _ sle => Function.update state sle.key (some sle)
  | rawErase _ sle => Function.update state sle.key none
  | rawDestroyXRP _ => state

/-- What the caller has to see to: the table itself checks the other calls. -/
def Required (state : K → Option (SLE K V)) : ApplyOp K V → Prop
  | insert _ sle => state sle.key = none
  | rawInsert _ sle => state sle.key = none
  | rawReplace _ sle => (state sle.key).isSome
  | rawErase _ sle => (state sle.key).isSome
  | _ => True

/-- The drops a call destroys. -/
def fee : ApplyOp K V → ℤ
  | rawDestroyXRP fee => fee
  | _ => 0

end ApplyOp

/-- Every call of a sequence meets its requirement when it is made. -/
def MeetsRequirements : (K → Option (SLE K V)) → List (ApplyOp K V) → Prop
  | _, [] => True
  | state, op :: ops => op.Required state ∧ MeetsRequirements (op.effect state) ops

/-- What an item says of the object in the base and in the state. -/
def Fits (base state : Option (SLE K V)) (item : ApplyItem K V) : Prop :=
  match item.action with
  | .cache => base = some item.sle ∧ state = some item.sle
  | .erase => base.isSome ∧ state = none
  | .insert => base = none ∧ state = some item.sle
  | .modify => base.isSome ∧ state = some item.sle

omit [LinearOrder K] in
theorem Fits.eq {base state : Option (SLE K V)} {item : ApplyItem K V} (h : Fits base state item) :
    state = if erases item then none else some item.sle := by
  obtain ⟨action, ref, sle⟩ := item
  cases action
  · exact h.2
  · exact h.2
  · exact h.2
  · exact h.2

/-! ### One call -/

section

variable {base : ReadView K V} {state : K → Option (SLE K V)} {table table' : ApplyStateTable K V}
  {ref : ℕ} {sle : SLE K V}

theorem peek_overlays (h : Overlays Fits base.state state table.items) (k : Keylet K) (ref : ℕ) :
    Overlays Fits base.state state (table.peek base k ref).1.items := by
  unfold peek
  cases hfind : table.items.find k.key with
  | some item => exact h
  | none =>
    cases hread : base.read k with
    | none => exact h
    | some sle =>
      obtain ⟨hmem, hkey, -⟩ := (base.read_iff k sle).mp hread
      have hbase := (base.state_eq_some_iff k.key sle).mpr ⟨hmem, hkey⟩
      have hstate : state k.key = some sle := (h.eq_of_none hfind).trans hbase
      have hset := h.set (a := ⟨.cache, ref, sle⟩) (v := some sle) hkey ⟨hbase, rfl⟩
      rwa [← hstate, Function.update_eq_self] at hset

theorem insert_overlays (h : Overlays Fits base.state state table.items)
    (hnone : state sle.key = none) (htable : table.insert ref sle = some table') :
    Overlays Fits base.state (Function.update state sle.key (some sle)) table'.items := by
  unfold insert at htable
  cases hfind : table.items.find sle.key with
  | none =>
    rw [hfind] at htable
    obtain rfl := Option.some.inj htable
    exact h.set rfl ⟨(h.eq_of_none hfind).symm.trans hnone, rfl⟩
  | some item =>
    obtain ⟨action, ref', old⟩ := item
    rw [hfind] at htable
    have hfits := h.fits_of_some hfind
    cases action with
    | erase =>
      obtain rfl := Option.some.inj htable
      exact h.set rfl ⟨hfits.1, rfl⟩
    | cache => cases htable
    | insert => cases htable
    | modify => cases htable

theorem replace_overlays (h : Overlays Fits base.state state table.items)
    (hsome : (state sle.key).isSome) (htable : table.replace ref sle = some table') :
    Overlays Fits base.state (Function.update state sle.key (some sle)) table'.items := by
  unfold replace at htable
  cases hfind : table.items.find sle.key with
  | none =>
    rw [hfind] at htable
    obtain rfl := Option.some.inj htable
    exact h.set rfl ⟨h.eq_of_none hfind ▸ hsome, rfl⟩
  | some item =>
    obtain ⟨action, ref', old⟩ := item
    rw [hfind] at htable
    have hfits := h.fits_of_some hfind
    cases action with
    | erase => cases htable
    | cache =>
      obtain rfl := Option.some.inj htable
      exact h.set rfl ⟨by rw [hfits.1]; rfl, rfl⟩
    | insert =>
      obtain rfl := Option.some.inj htable
      exact h.set rfl ⟨hfits.1, rfl⟩
    | modify =>
      obtain rfl := Option.some.inj htable
      exact h.set rfl ⟨hfits.1, rfl⟩

theorem rawErase_overlays (h : Overlays Fits base.state state table.items)
    (hsome : (state sle.key).isSome) (htable : table.rawErase ref sle = some table') :
    Overlays Fits base.state (Function.update state sle.key none) table'.items := by
  unfold rawErase at htable
  cases hfind : table.items.find sle.key with
  | none =>
    rw [hfind] at htable
    obtain rfl := Option.some.inj htable
    exact h.set rfl ⟨h.eq_of_none hfind ▸ hsome, rfl⟩
  | some item =>
    obtain ⟨action, ref', old⟩ := item
    rw [hfind] at htable
    have hfits := h.fits_of_some hfind
    cases action with
    | erase => cases htable
    | cache =>
      obtain rfl := Option.some.inj htable
      exact h.set rfl ⟨by rw [hfits.1]; rfl, rfl⟩
    | insert =>
      obtain rfl := Option.some.inj htable
      exact h.erase hfits.1.symm
    | modify =>
      obtain rfl := Option.some.inj htable
      exact h.set rfl ⟨hfits.1, rfl⟩

/-- `erase` and `update` take the pointer the table holds, to an object that is there. -/
theorem exists_item_of_erase (htable : table.erase ref sle = some table') :
    ∃ item, table.items.find sle.key = some item ∧ erases item = false ∧
      table.rawErase ref sle = some table' := by
  unfold erase at htable
  cases hfind : table.items.find sle.key with
  | none =>
    rw [hfind] at htable
    cases htable
  | some item =>
    obtain ⟨action, ref', old⟩ := item
    rw [hfind] at htable
    dsimp only at htable
    split_ifs at htable with href
    refine ⟨_, rfl, ?_, by unfold rawErase; rw [hfind]; exact htable⟩
    cases action
    · rfl
    · cases htable
    · rfl
    · rfl

theorem exists_item_of_update (htable : table.update ref sle = some table') :
    ∃ item, table.items.find sle.key = some item ∧ erases item = false ∧
      table.replace ref sle = some table' := by
  unfold update at htable
  cases hfind : table.items.find sle.key with
  | none =>
    rw [hfind] at htable
    cases htable
  | some item =>
    obtain ⟨action, ref', old⟩ := item
    rw [hfind] at htable
    dsimp only at htable
    split_ifs at htable with href
    refine ⟨_, rfl, ?_, by unfold replace; rw [hfind]; exact htable⟩
    cases action
    · rfl
    · cases htable
    · rfl
    · rfl

theorem state_isSome_of_item (h : Overlays Fits base.state state table.items) {k : K}
    {item : ApplyItem K V} (hfind : table.items.find k = some item)
    (herases : erases item = false) : (state k).isSome := by
  rw [(h.fits_of_some hfind).eq, herases]
  rfl

theorem step_overlays (h : Overlays Fits base.state state table.items) {op : ApplyOp K V}
    (hreq : op.Required state) (htable : op.onTable base table = some table') :
    Overlays Fits base.state (op.effect state) table'.items := by
  cases op with
  | peek k ref =>
    obtain rfl := Option.some.inj htable
    exact peek_overlays h k ref
  | insert ref sle => exact insert_overlays h hreq htable
  | update ref sle =>
    obtain ⟨item, hitem, herases, hreplace⟩ := exists_item_of_update htable
    exact replace_overlays h (state_isSome_of_item h hitem herases) hreplace
  | erase ref sle =>
    obtain ⟨item, hitem, herases, herase⟩ := exists_item_of_erase htable
    exact rawErase_overlays h (state_isSome_of_item h hitem herases) herase
  | rawInsert ref sle => exact insert_overlays h hreq htable
  | rawReplace ref sle => exact replace_overlays h hreq htable
  | rawErase ref sle => exact rawErase_overlays h hreq htable
  | rawDestroyXRP fee =>
    obtain rfl := Option.some.inj htable
    exact h

theorem step_dropsDestroyed {op : ApplyOp K V} (htable : op.onTable base table = some table') :
    table'.dropsDestroyed = table.dropsDestroyed + op.fee := by
  cases op with
  | peek k ref =>
    obtain rfl := Option.some.inj htable
    simp only [ApplyOp.fee, add_zero, peek]
    split
    · split <;> rfl
    · rfl
  | insert ref sle => grind [ApplyOp.onTable, ApplyOp.fee, insert]
  | update ref sle => grind [ApplyOp.onTable, ApplyOp.fee, update]
  | erase ref sle => grind [ApplyOp.onTable, ApplyOp.fee, erase]
  | rawInsert ref sle => grind [ApplyOp.onTable, ApplyOp.fee, insert]
  | rawReplace ref sle => grind [ApplyOp.onTable, ApplyOp.fee, replace]
  | rawErase ref sle => grind [ApplyOp.onTable, ApplyOp.fee, rawErase]
  | rawDestroyXRP fee =>
    obtain rfl := Option.some.inj htable
    rfl

/-! ### A sequence of calls -/

theorem run_overlays (h : Overlays Fits base.state state table.items) {ops : List (ApplyOp K V)}
    (hreq : MeetsRequirements state ops)
    (hrun : ops.foldlM (fun t op => op.onTable base t) table = some table') :
    Overlays Fits base.state (ops.foldl (fun s op => op.effect s) state) table'.items := by
  induction ops generalizing state table with
  | nil =>
    obtain rfl := Option.some.inj hrun
    exact h
  | cons op ops ih =>
    rw [List.foldlM_cons, Option.bind_eq_bind, Option.bind_eq_some_iff] at hrun
    obtain ⟨table₁, hop, hrun⟩ := hrun
    exact ih (step_overlays h hreq.1 hop) hreq.2 hrun

theorem run_dropsDestroyed {ops : List (ApplyOp K V)}
    (hrun : ops.foldlM (fun t op => op.onTable base t) table = some table') :
    table'.dropsDestroyed = table.dropsDestroyed + (ops.map ApplyOp.fee).sum := by
  induction ops generalizing table with
  | nil =>
    obtain rfl := Option.some.inj hrun
    simp
  | cons op ops ih =>
    rw [List.foldlM_cons, Option.bind_eq_bind, Option.bind_eq_some_iff] at hrun
    obtain ⟨table₁, hop, hrun⟩ := hrun
    rw [ih hrun, step_dropsDestroyed hop, List.map_cons, List.sum_cons, add_assoc]

/-! ### What the table answers -/

theorem read_eq (h : Overlays Fits base.state state table.items) (k : Keylet K) :
    table.read base k = (state k.key).filter k.check := by
  unfold read
  cases hfind : table.items.find k.key with
  | none => rw [h.eq_of_none hfind, ← base.read_eq]
  | some item =>
    rw [(h.fits_of_some hfind).eq]
    cases herases : erases item
    · simp [Option.filter_some, herases]
    · simp [herases]

theorem exists_iff (h : Overlays Fits base.state state table.items) {k : Keylet K}
    (hcheck : ∀ sle, state k.key = some sle → k.check sle = true) :
    table.exists_ base k = true ↔ (state k.key).isSome := by
  unfold exists_
  cases hfind : table.items.find k.key with
  | none =>
    rw [h.eq_of_none hfind] at hcheck ⊢
    rw [← base.mem_keys_iff]
    exact base.exists_iff k fun sle hsle hkey =>
      hcheck sle ((base.state_eq_some_iff _ sle).mpr ⟨hsle, hkey⟩)
  | some item =>
    have hstate := (h.fits_of_some hfind).eq
    cases herases : erases item with
    | false =>
      rw [herases] at hstate
      simp [hstate, herases, hcheck item.sle hstate]
    | true => simp [hstate, herases]

theorem apply_state (h : Overlays Fits base.state state table.items) {target : Ledger K V}
    (htarget : ∀ k, target.stateMap.find k = base.state k) :
    ∃ target', table.apply target = some target' ∧
      target'.drops = target.drops - table.dropsDestroyed ∧
      ∀ k, target'.stateMap.find k = state k := by
  have hpaid : ∀ k, (target.rawDestroyXRP table.dropsDestroyed).stateMap.find k = base.state k :=
    htarget
  refine h.foldlM_apply hpaid ?_
  rintro target s ⟨action, ref, sle⟩ hfits
  cases action with
  | cache => exact ⟨target, rfl, rfl, hfits.1.trans hfits.2.symm, fun _ _ => rfl⟩
  | erase => exact hfits.2 ▸ Ledger.rawErase_spec hfits.1
  | insert => exact hfits.2 ▸ Ledger.rawInsert_spec hfits.1
  | modify => exact hfits.2 ▸ Ledger.rawReplace_spec hfits.1

theorem erase_insert (h : Overlays Fits base.state state table.items)
    (hstate : state sle.key = none) (hbase : base.state sle.key = none) (ref : ℕ) :
    table.items.find sle.key = none ∧
      ∃ table', table.insert ref sle = some table' ∧ table'.erase ref sle = some table := by
  have hfind : table.items.find sle.key = none := by
    by_contra hne
    obtain ⟨⟨action, ref', old⟩, hitem⟩ := Option.ne_none_iff_exists'.mp hne
    have hfits := h.fits_of_some hitem
    cases action with
    | erase => exact absurd hfits.1 (by simp [hbase])
    | cache => exact absurd (hstate.symm.trans hfits.2) (by simp)
    | insert => exact absurd (hstate.symm.trans hfits.2) (by simp)
    | modify => exact absurd (hstate.symm.trans hfits.2) (by simp)
  refine ⟨hfind, { table with items := table.items.set ⟨.insert, ref, sle⟩ },
    by unfold insert; rw [hfind], ?_⟩
  have hset : (table.items.set ⟨.insert, ref, sle⟩).find sle.key = some ⟨.insert, ref, sle⟩ :=
    KeyedMap.find_set_self table.items ⟨.insert, ref, sle⟩
  have hundo : (table.items.set ⟨.insert, ref, sle⟩).erase sle.key = table.items :=
    KeyedMap.erase_set (a := (⟨.insert, ref, sle⟩ : ApplyItem K V)) hfind
  simp only [erase, hset, hundo, ne_eq, not_true_eq_false, if_false]

theorem insert_erased (h : Overlays Fits base.state state table.items)
    (hstate : state sle.key = none) (hbase : (base.state sle.key).isSome) (ref : ℕ) :
    ∃ table', table.insert ref sle = some table' ∧
      table'.items.find sle.key = some ⟨.modify, ref, sle⟩ := by
  refine ⟨{ table with items := table.items.set ⟨.modify, ref, sle⟩ }, ?_,
    KeyedMap.find_set_self table.items ⟨.modify, ref, sle⟩⟩
  unfold insert
  cases hfind : table.items.find sle.key with
  | none =>
    rw [← h.eq_of_none hfind, hstate] at hbase
    cases hbase
  | some item =>
    obtain ⟨action, ref', old⟩ := item
    have hfits := h.fits_of_some hfind
    cases action with
    | erase => rfl
    | cache => exact absurd (hstate.symm.trans hfits.2) (by simp)
    | insert => exact absurd (hstate.symm.trans hfits.2) (by simp)
    | modify => exact absurd (hstate.symm.trans hfits.2) (by simp)

end

/-- The table over a view after any calls that meet their requirements and do not throw: it answers
as the state does, and applied to a ledger it leaves that state there. -/
theorem table_refines_state (base : ReadView K V) (ops : List (ApplyOp K V))
    (table : ApplyStateTable K V) (state : K → Option (SLE K V))
    (hrun : ops.foldlM (fun t op => op.onTable base t) empty = some table)
    (hstate : state = ops.foldl (fun s op => op.effect s) base.state)
    (hreq : MeetsRequirements base.state ops) :
    (∀ k, table.read base k = (state k.key).filter k.check) ∧
      (∀ k : Keylet K, (∀ sle, state k.key = some sle → k.check sle = true) →
        (table.exists_ base k = true ↔ (state k.key).isSome)) ∧
      (∀ key last rounds, base.sles.length < rounds →
        ∃ next, table.succ base rounds key last = some next ∧
          IsNext {k | (state k).isSome} key last next) ∧
      (∀ target : Ledger K V, (∀ k, target.stateMap.find k = base.state k) →
        ∃ target', table.apply target = some target' ∧
          target'.drops = target.drops - (ops.map ApplyOp.fee).sum ∧
          ∀ k, target'.stateMap.find k = state k) ∧
      (∀ ref sle, state sle.key = none → base.state sle.key = none →
        table.items.find sle.key = none ∧
          ∃ table', table.insert ref sle = some table' ∧ table'.erase ref sle = some table) ∧
      (∀ ref sle, state sle.key = none → (base.state sle.key).isSome →
        ∃ table', table.insert ref sle = some table' ∧
          table'.items.find sle.key = some ⟨.modify, ref, sle⟩) := by
  have hempty : Overlays Fits base.state base.state (empty : ApplyStateTable K V).items :=
    overlays_empty base.state
  have h : Overlays Fits base.state state table.items := hstate ▸ run_overlays hempty hreq hrun
  have hdrops : table.dropsDestroyed = (ops.map ApplyOp.fee).sum := by
    rw [run_dropsDestroyed hrun]
    exact zero_add _
  refine ⟨read_eq h, fun k => exists_iff h, fun key last rounds hrounds => ?_,
    fun target htarget => hdrops ▸ apply_state h htarget,
    fun ref sle hs hb => erase_insert h hs hb ref, fun ref sle hs hb => insert_erased h hs hb ref⟩
  obtain ⟨next, hnext, hisNext⟩ :=
    @overlaySucc_isNext K V _ _ _ base last table.items erases rounds key hrounds
  rw [h.liveKeys_eq fun _ _ _ => Fits.eq] at hisNext
  exact ⟨next, hnext, hisNext⟩

/-- A ledger with one object. -/
def oneObject : Ledger ℕ Unit := ⟨KeyedMap.empty.set ⟨1, 0x61, ()⟩, 100⟩

/-- An object is peeked, erased and inserted again, another is inserted, and a fee is paid. -/
def someCalls : List (ApplyOp ℕ Unit) :=
  [.peek ⟨0x61, 1⟩ 10, .erase 10 ⟨1, 0x61, ()⟩, .insert 11 ⟨1, 0x61, ()⟩, .insert 12 ⟨2, 0x61, ()⟩,
    .rawDestroyXRP 10]

private theorem oneObject_read : oneObject.view.read ⟨0x61, 1⟩ = some ⟨1, 0x61, ()⟩ := by
  rw [ReadView.read_eq, Ledger.view_state]
  rfl

theorem table_refines_state_oneObject :
    ∃ table : ApplyStateTable ℕ Unit,
      someCalls.foldlM (fun t op => op.onTable oneObject.view t) empty = some table ∧
      table.read oneObject.view ⟨0x61, 2⟩ = some ⟨2, 0x61, ()⟩ ∧
      ∃ target, table.apply oneObject = some target ∧ target.drops = 90 := by
  obtain ⟨table, htable⟩ : ∃ table,
      someCalls.foldlM (fun t op => op.onTable oneObject.view t) empty = some table := by
    simp [someCalls, ApplyOp.onTable, empty, peek, oneObject_read, erase, insert,
      KeyedMap.find_set, ApplyItem.key]
  have hreq : MeetsRequirements oneObject.view.state someCalls := by
    simp [someCalls, MeetsRequirements, ApplyOp.Required, ApplyOp.effect, oneObject,
      KeyedMap.find_set]
  obtain ⟨hread, -, -, happly, -⟩ := table_refines_state oneObject.view someCalls table _ htable rfl
    hreq
  obtain ⟨target, htarget, hdrops, -⟩ := happly oneObject fun k => (oneObject.view_state k).symm
  refine ⟨table, htable, ?_, target, htarget, hdrops⟩
  rw [hread]
  simp [someCalls, ApplyOp.effect, Option.filter_some, Keylet.check, ltANY, ltCHILD]

/-- The table does not look into the base: an object inserted over one of the base and erased again
uncovers it. And the ledger does not look at the type of an object that is asked for, while the
table does once the object has been peeked. -/
theorem insert_over_base_uncovers :
    (∃ table : ApplyStateTable ℕ Unit,
      [ApplyOp.insert 10 ⟨1, 0x61, ()⟩, .erase 10 ⟨1, 0x61, ()⟩].foldlM
        (fun t op => op.onTable oneObject.view t) empty = some table ∧
      [ApplyOp.insert 10 ⟨1, 0x61, ()⟩, .erase 10 ⟨1, 0x61, ()⟩].foldl
        (fun s op => op.effect s) oneObject.view.state 1 = none ∧
      table.read oneObject.view ⟨0x61, 1⟩ = some ⟨1, 0x61, ()⟩) ∧
    ∃ table : ApplyStateTable ℕ Unit,
      [ApplyOp.peek ⟨0x61, 1⟩ 10].foldlM (fun t op => op.onTable oneObject.view t) empty =
        some table ∧
      empty.exists_ oneObject.view ⟨0x64, 1⟩ = true ∧
      table.exists_ oneObject.view ⟨0x64, 1⟩ = false := by
  refine ⟨⟨empty, ?_, ?_, ?_⟩, ⟨⟨KeyedMap.empty.set ⟨.cache, 10, 1, 0x61, ()⟩, 0⟩, ?_, rfl, ?_⟩⟩
  · have hundo : (KeyedMap.empty.set (⟨.insert, 10, 1, 0x61, ()⟩ : ApplyItem ℕ Unit)).erase 1 =
        KeyedMap.empty := @KeyedMap.erase_set _ _ _ ApplyItem.key _ _ rfl
    simp [ApplyOp.onTable, empty, insert, erase, KeyedMap.find_set, ApplyItem.key, hundo]
  · simp [ApplyOp.effect]
  · simpa [read, empty] using oneObject_read
  · simp [ApplyOp.onTable, empty, peek, oneObject_read]
  · simp [exists_, KeyedMap.find_set, ApplyItem.key, erases, Keylet.check, ltANY, ltCHILD]

end FalconLedger.Views.ApplyStateTable
