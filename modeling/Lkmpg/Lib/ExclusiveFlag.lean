import Mathlib.Data.Int.Notation
import Mathlib.Logic.Function.Basic
import Mathlib.Logic.ExistsUnique

/-!
# An exclusive-access flag

The protocol of an atomic flag that is 0 while a resource is free: a process that sees its
`cmpxchg` from 0 to 1 succeed holds the resource, and sets the flag to 0 when it is done.  The
processes are any type `ι`, what a process is doing is any type `π`, and `holds` says which of its
places lie between the two.

`Exclusive` is the invariant; `acquire`, `release` and `move` are the three kinds of step.
-/

namespace ExclusiveFlag

variable {ι π : Type*} {holds : π → Prop} {v : ℤ} {pc : ι → π} {i j : ι} {l : π}

/-- `atomic_cmpxchg`: the value returned and the value left in the flag. -/
def cmpxchg (v old new : ℤ) : ℤ × ℤ := (v, if v = old then new else v)

@[simp] theorem cmpxchg_fst (v old new : ℤ) : (cmpxchg v old new).1 = v := rfl

theorem cmpxchg_snd_of_eq {old : ℤ} (h : v = old) (new : ℤ) : (cmpxchg v old new).2 = new := if_pos h

/-- The flag is 1 and exactly one process holds the resource, or it is 0 and none does. -/
def Exclusive (holds : π → Prop) (v : ℤ) (pc : ι → π) : Prop :=
  (v = 1 ∧ ∃! i, holds (pc i)) ∨ (v = 0 ∧ ∀ i, ¬holds (pc i))

theorem Exclusive.eq_one_iff (h : Exclusive holds v pc) : v = 1 ↔ ∃! i, holds (pc i) := by
  rcases h with ⟨rfl, hex⟩ | ⟨rfl, hnone⟩
  · exact ⟨fun _ => hex, fun _ => rfl⟩
  · exact ⟨fun h => absurd h (by decide), fun ⟨i, hi, _⟩ => absurd hi (hnone i)⟩

theorem Exclusive.eq_zero_iff (h : Exclusive holds v pc) : v = 0 ↔ ∀ i, ¬holds (pc i) := by
  rcases h with ⟨rfl, i, hi, _⟩ | ⟨rfl, hnone⟩
  · exact ⟨fun h => absurd h (by decide), fun hnone => absurd hi (hnone i)⟩
  · exact ⟨fun _ => hnone, fun _ => rfl⟩

/-- Two processes never hold the resource. -/
theorem Exclusive.unique (h : Exclusive holds v pc) (hi : holds (pc i)) (hj : holds (pc j)) :
    i = j := by
  rcases h with ⟨_, hex⟩ | ⟨_, hnone⟩
  · exact hex.unique hi hj
  · exact absurd hi (hnone i)

theorem Exclusive.congr {pc' : ι → π} (h : Exclusive holds v pc)
    (hiff : ∀ i, holds (pc' i) ↔ holds (pc i)) : Exclusive holds v pc' := by
  simp only [Exclusive, hiff]
  exact h

variable [DecidableEq ι]

theorem holds_update_of_ne (h : j ≠ i) : holds (Function.update pc i l j) ↔ holds (pc j) := by
  rw [Function.update_of_ne h]

/-- A step that neither takes nor gives up the resource. -/
theorem Exclusive.move (h : Exclusive holds v pc) (hl : holds l ↔ holds (pc i)) :
    Exclusive holds v (Function.update pc i l) := by
  refine h.congr fun j => ?_
  by_cases hji : j = i
  · rw [hji, Function.update_self]
    exact hl
  · exact holds_update_of_ne hji

/-- A `cmpxchg` that succeeds. -/
theorem Exclusive.acquire (h : Exclusive holds 0 pc) (hl : holds l) :
    Exclusive holds 1 (Function.update pc i l) := by
  have hnone := h.eq_zero_iff.mp rfl
  refine Or.inl ⟨rfl, i, ?_, fun j hj => ?_⟩
  · show holds (Function.update pc i l i)
    rw [Function.update_self]
    exact hl
  · by_contra hji
    exact hnone j ((holds_update_of_ne hji).mp hj)

/-- The holder resets the flag. -/
theorem Exclusive.release (h : Exclusive holds v pc) (hi : holds (pc i)) (hl : ¬holds l) :
    Exclusive holds 0 (Function.update pc i l) := by
  refine Or.inr ⟨rfl, fun j hj => ?_⟩
  by_cases hji : j = i
  · rw [hji, Function.update_self] at hj
    exact hl hj
  · exact hji (h.unique ((holds_update_of_ne hji).mp hj) hi)

end ExclusiveFlag
