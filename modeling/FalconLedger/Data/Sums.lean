import Mathlib.Algebra.Order.BigOperators.Group.List
import Mathlib.Tactic.Linarith

/-!
# Sums over backed entries

A list of values is covered by a list of worths where each entry is backed by one of its own.
-/

namespace List

theorem sum_le_of_backed {α β : Type} [DecidableEq β] {R : α → β → Prop} {value : α → ℚ}
    {worth : β → ℚ} (hworth : ∀ y, 0 ≤ worth y) (hle : ∀ x y, R x y → value x ≤ worth y)
    {l : List α} {m : List β} (hown : l.Pairwise fun x x' => ∀ y, R x y → ¬R x' y)
    (hbacked : ∀ x ∈ l, ∃ y ∈ m, R x y) : (l.map value).sum ≤ (m.map worth).sum := by
  induction l generalizing m with
  | nil =>
    apply List.sum_nonneg
    intro v hv
    obtain ⟨y, -, rfl⟩ := List.mem_map.mp hv
    exact hworth y
  | cons x l ih =>
    obtain ⟨hx, hl⟩ := List.pairwise_cons.mp hown
    obtain ⟨⟨y, hy, hxy⟩, hbacked⟩ := List.forall_mem_cons.mp hbacked
    have hrest : ∀ x' ∈ l, ∃ y' ∈ m.erase y, R x' y' := by
      intro x' hx'
      obtain ⟨y', hy', hxy'⟩ := hbacked x' hx'
      have hne : y' ≠ y := by
        rintro rfl
        exact hx x' hx' y' hxy hxy'
      exact ⟨y', (List.mem_erase_of_ne hne).mpr hy', hxy'⟩
    have hsum : (m.map worth).sum = worth y + ((m.erase y).map worth).sum := by
      rw [← List.sum_cons, ← List.map_cons]
      exact ((List.perm_cons_erase hy).map worth).sum_eq
    rw [List.map_cons, List.sum_cons, hsum]
    exact add_le_add (hle x y hxy) (ih hl hrest)

end List
