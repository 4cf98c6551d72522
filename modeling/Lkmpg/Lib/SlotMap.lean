import Mathlib.Data.Fintype.Card
import Mathlib.Tactic

/-!
# Slot maps

A finite map whose keys are the slots `0, …, n - 1`: the abstract value of a table with `n` places.
Insertion and removal are `Function.update`; this file adds the least free slot, which an allocator
that hands out the lowest number returns, and the count that says when there is none.
-/

/-- A finite map from the slots below `n`. -/
abbrev SlotMap (n : ℕ) (α : Type*) := Fin n → Option α

namespace SlotMap

variable {n : ℕ} {α : Type*}

/-- The slots in use. -/
def used (M : SlotMap n α) : Finset (Fin n) := Finset.univ.filter fun k => (M k).isSome

/-- `k` is the first slot that holds nothing. -/
def IsLeastFree (M : SlotMap n α) (k : Fin n) : Prop := M k = none ∧ ∀ j < k, M j ≠ none

/-- The entries that satisfy `keep`. -/
def restrict (M : SlotMap n α) (keep : α → Bool) : SlotMap n α := fun k => (M k).filter keep

theorem mem_used {M : SlotMap n α} {k : Fin n} : k ∈ M.used ↔ M k ≠ none := by
  simp [used, Option.isSome_iff_ne_none]

/-- A slot map has `n` entries exactly when no slot is free. -/
theorem card_used_eq_iff (M : SlotMap n α) : M.used.card = n ↔ ∀ k, M k ≠ none := by
  constructor
  · intro h k
    have huniv : M.used = Finset.univ := by
      rw [← Finset.card_eq_iff_eq_univ, h, Fintype.card_fin]
    exact mem_used.mp (huniv ▸ Finset.mem_univ k)
  · intro h
    have huniv : M.used = Finset.univ := by
      ext k
      simp [mem_used, h k]
    rw [huniv, Finset.card_univ, Fintype.card_fin]

/-- There is at most one least free slot. -/
theorem IsLeastFree.unique {M : SlotMap n α} {j k : Fin n}
    (hj : M.IsLeastFree j) (hk : M.IsLeastFree k) : j = k := by
  rcases lt_trichotomy j k with h | h | h
  · exact absurd hj.1 (hk.2 j h)
  · exact h
  · exact absurd hk.1 (hj.2 k h)

end SlotMap
