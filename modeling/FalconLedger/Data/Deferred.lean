import Mathlib.Algebra.Order.Group.Defs
import Mathlib.Algebra.BigOperators.Group.List.Basic

/-!
# Deferred credits

A balance under a stack of journals, of which the innermost is written and the others stand as they
were when it was opened. Where a journal has an entry for the balance, it holds what has been taken from
the balance since the journal was opened, and the balance as it was then. What may be spent
(`spendable`) is the balance before the outermost journal less all that was taken since
(`Tracks.spendable_eq`), whatever was added and in whatever order.
-/

namespace Deferred

/-- The debits in a journal, and the balance when it first noted one. -/
abbrev Entry (G : Type*) := Option (G × G)

variable {G : Type*} [AddCommGroup G]

/-- All debits of a stack. -/
def debits (es : List (Entry G)) : G := (es.map fun e => (e.map Prod.fst).getD 0).sum

@[simp] theorem debits_none (es : List (Entry G)) : debits (none :: es) = debits es := by
  simp [debits]

@[simp] theorem debits_some (x : G × G) (es : List (Entry G)) :
    debits (some x :: es) = x.1 + debits es := by
  simp [debits]

/-! ### What a journal does -/

/-- Something was added to a balance `b`. -/
def touch (b : G) : Entry G → Entry G
  | none => some (0, b)
  | some x => some x

/-- The amount `a` was taken from a balance `b`. -/
def charge (b a : G) : Entry G → Entry G
  | none => some (a, b)
  | some x => some (x.1 + a, x.2)

/-- The innermost journal goes into the one below it. -/
def merge : Entry G → Entry G → Entry G
  | none, outer => outer
  | some x, none => some x
  | some x, some y => some (y.1 + x.1, y.2)

theorem debits_merge (e e' : Entry G) (es : List (Entry G)) :
    debits (merge e e' :: es) = debits (e :: e' :: es) := by
  cases e with
  | none => simp [merge]
  | some x =>
    cases e' with
    | none => simp [merge]
    | some y =>
      simp only [merge, debits_some]
      rw [add_comm y.1, add_assoc]

variable [LinearOrder G]

/-- One journal more, from the inside out: the debits, the last and the least original balance. -/
def look (acc : G × G × G) : Entry G → G × G × G
  | none => acc
  | some x => (acc.1 + x.1, x.2, min x.2 acc.2.2)

/-- What may be spent of a balance. -/
def spendable (es : List (Entry G)) (b : G) : G :=
  let acc := es.foldl look (0, b, b)
  min b (min (acc.2.1 - acc.1) acc.2.2)

/-! ### The invariant -/

/-- The original balances in a stack, where the balance was `start` before the outermost journal: no
smaller than what the debits below left, and `start` itself in the first journal that noted it. -/
def Covered (start : G) : List (Entry G) → Prop
  | [] => True
  | none :: es => Covered start es
  | some x :: es =>
    0 ≤ x.1 ∧ start - debits es ≤ x.2 ∧ ((∀ e ∈ es, e = none) → x.2 = start) ∧ Covered start es

/-- A balance `b` that was `start` before the outermost journal, with `sent` taken from it since. -/
structure Tracks (start b sent : G) (es : List (Entry G)) : Prop where
  sent_eq : sent = debits es
  le : start - sent ≤ b
  untouched : (∀ e ∈ es, e = none) → b = start
  covered : Covered start es

section Invariant

variable {start b sent a : G} {e e' : Entry G} {es : List (Entry G)}

theorem tracks_nil : Tracks b b 0 [none] where
  sent_eq := (debits_none []).symm
  le := (sub_zero b).le
  untouched := fun _ => rfl
  covered := trivial

theorem Tracks.push (h : Tracks start b sent es) : Tracks start b sent (none :: es) where
  sent_eq := h.sent_eq.trans (debits_none es).symm
  le := h.le
  untouched := fun hall => h.untouched fun e he => hall e (List.mem_cons_of_mem _ he)
  covered := h.covered

private theorem Tracks.first (h : Tracks start b sent (none :: es)) (ha : 0 ≤ a) :
    Covered start (some (a, b) :: es) := by
  refine ⟨ha, ?_, fun hall => h.untouched fun e he => ?_, h.covered⟩
  · have hle := h.le
    rwa [h.sent_eq, debits_none] at hle
  · rcases List.mem_cons.mp he with rfl | he
    · rfl
    · exact hall e he

variable [IsOrderedAddMonoid G]

theorem Tracks.credit (h : Tracks start b sent (e :: es)) (ha : 0 ≤ a) :
    Tracks start (b + a) sent (touch b e :: es) := by
  have hle : start - sent ≤ b + a := h.le.trans (le_add_of_nonneg_right ha)
  cases e with
  | none =>
    refine ⟨?_, hle, fun hall => absurd (hall _ List.mem_cons_self) nofun, h.first le_rfl⟩
    rw [touch, debits_some, zero_add, h.sent_eq, debits_none]
  | some x => exact ⟨h.sent_eq, hle, fun hall => absurd (hall _ List.mem_cons_self) nofun, h.covered⟩

theorem Tracks.debit (h : Tracks start b sent (e :: es)) (ha : 0 ≤ a) :
    Tracks start (b - a) (sent + a) (charge b a e :: es) := by
  have hle : start - (sent + a) ≤ b - a := by
    rw [← sub_sub]
    exact sub_le_sub_right h.le a
  cases e with
  | none =>
    refine ⟨?_, hle, fun hall => absurd (hall _ List.mem_cons_self) nofun, h.first ha⟩
    rw [charge, debits_some, h.sent_eq, debits_none, add_comm]
  | some x =>
    obtain ⟨hx, hcovered⟩ := h.covered
    refine ⟨?_, hle, fun hall => absurd (hall _ List.mem_cons_self) nofun, add_nonneg hx ha, hcovered⟩
    rw [charge, debits_some, h.sent_eq, debits_some, add_right_comm]

/-- **The merged stack tracks the same balance.** -/
theorem Tracks.apply (h : Tracks start b sent (e :: e' :: es)) :
    Tracks start b sent (merge e e' :: es) := by
  refine ⟨h.sent_eq.trans (debits_merge e e' es).symm, h.le, fun hall => h.untouched fun x hx => ?_, ?_⟩
  · have hmerge := hall _ List.mem_cons_self
    have hboth : e = none ∧ e' = none := by
      cases e with
      | none => exact ⟨rfl, hmerge⟩
      | some x => cases e' <;> exact nomatch hmerge
    rcases List.mem_cons.mp hx with rfl | hx
    · exact hboth.1
    · rcases List.mem_cons.mp hx with rfl | hx
      · exact hboth.2
      · exact hall x (List.mem_cons_of_mem _ hx)
  · have hcovered := h.covered
    cases e with
    | none => exact hcovered
    | some x =>
      cases e' with
      | none =>
        obtain ⟨hx, hle, hfirst, hrest⟩ := hcovered
        refine ⟨hx, by rwa [debits_none] at hle, fun hall => hfirst fun y hy => ?_, hrest⟩
        rcases List.mem_cons.mp hy with rfl | hy
        · rfl
        · exact hall y hy
      | some y =>
        obtain ⟨hx, -, -, hy, hrest⟩ := hcovered
        exact ⟨add_nonneg hy hx, hrest⟩

/-! ### What may be spent -/

private theorem foldl_look (h : Covered start es) {d l m : G} :
    (es.foldl look (d, l, m)).1 = d + debits es ∧
      ((∀ e ∈ es, e = none) → (es.foldl look (d, l, m)).2.1 = l) ∧
      (¬(∀ e ∈ es, e = none) → (es.foldl look (d, l, m)).2.1 = start) ∧
      ∀ c, c ≤ start - debits es → c ≤ m → c ≤ (es.foldl look (d, l, m)).2.2 := by
  induction es generalizing d l m with
  | nil => exact ⟨(add_zero d).symm, fun _ => rfl, fun h => absurd nofun h, fun _ _ hm => hm⟩
  | cons e es ih =>
    cases e with
    | none =>
      obtain ⟨h1, h2, h3, h4⟩ := @ih h d l m
      have hall : (∀ e ∈ none :: es, e = none) ↔ ∀ e ∈ es, e = none := by simp
      rw [debits_none, hall]
      exact ⟨h1, h2, h3, h4⟩
    | some x =>
      obtain ⟨hx, hle, hfirst, hrest⟩ := h
      obtain ⟨h1, h2, h3, h4⟩ := @ih hrest (d + x.1) x.2 (min x.2 m)
      rw [debits_some]
      refine ⟨h1.trans (add_assoc _ _ _), fun hall => absurd (hall _ List.mem_cons_self) nofun,
        fun _ => ?_, fun c hc hm => ?_⟩
      · by_cases hnone : ∀ e ∈ es, e = none
        · exact (h2 hnone).trans (hfirst hnone)
        · exact h3 hnone
      · have hc' : c ≤ start - debits es :=
          hc.trans (sub_le_sub_left (le_add_of_nonneg_left hx) start)
        exact h4 c hc' (le_min (hc'.trans hle) hm)

/-- **What may be spent is what there was before, less all that was taken since.** -/
theorem Tracks.spendable_eq (h : Tracks start b sent es) : spendable es b = start - sent := by
  obtain ⟨h1, h2, h3, h4⟩ := foldl_look (d := 0) (l := b) (m := b) h.covered
  have hle : start - debits es ≤ b := h.sent_eq ▸ h.le
  have hlast : (es.foldl look (0, b, b)).2.1 = start := by
    by_cases hall : ∀ e ∈ es, e = none
    · exact (h2 hall).trans (h.untouched hall)
    · exact h3 hall
  have hmin : start - debits es ≤ (es.foldl look (0, b, b)).2.2 := h4 _ le_rfl hle
  unfold spendable
  simp only [h1, hlast, zero_add]
  rw [min_eq_left hmin, min_eq_right hle, h.sent_eq]

end Invariant

end Deferred
