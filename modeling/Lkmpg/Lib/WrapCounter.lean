import Mathlib.Algebra.BigOperators.Group.List.Basic
import Mathlib.Algebra.GroupWithZero.Nat

/-!
# Counters that wrap

A counter of `w` bits to which amounts have been added shows their sum modulo `2 ^ w`.  What is added
can be split by the entries (`counted_filter`) or by the amounts (`counted_add`), whether the counter
has wrapped or not.
-/

namespace WrapCounter

variable {w : ℕ} {α : Type*} {f g h : α → ℕ} {xs : List α}

/-- The amounts of all entries, added up. -/
def counted (w : ℕ) (f : α → ℕ) (xs : List α) : BitVec w := BitVec.ofNat w (xs.map f).sum

/-- **Step.**  One more entry. -/
theorem counted_concat (f : α → ℕ) (xs : List α) (x : α) :
    counted w f (xs ++ [x]) = counted w f xs + BitVec.ofNat w (f x) := by
  rw [counted, counted, List.map_append, List.sum_append, List.map_singleton, List.sum_singleton,
    BitVec.ofNat_add]

/-- The entries that pass a test, and those that fail it. -/
theorem counted_filter (p : α → Bool) (f : α → ℕ) (xs : List α) :
    counted w f xs = counted w f (xs.filter p) + counted w f (xs.filter fun x => !p x) := by
  have hsum := List.sum_map_filter_add_sum_map_filter_not (fun x => p x = true) f xs
  simp only [Bool.decide_eq_true, Bool.not_eq_true, Bool.decide_eq_false] at hsum
  rw [counted, counted, counted, ← BitVec.ofNat_add, hsum]

/-- An amount in two parts. -/
theorem counted_add (hfgh : ∀ x ∈ xs, f x = g x + h x) :
    counted w f xs = counted w g xs + counted w h xs := by
  have hmap : xs.map f = xs.map fun x => g x + h x := List.map_congr_left hfgh
  rw [counted, counted, counted, ← BitVec.ofNat_add, hmap, List.sum_map_add]

theorem counted_const (c : ℕ) (xs : List α) :
    counted w (fun _ => c) xs = BitVec.ofNat w (c * xs.length) := by
  rw [counted, List.map_const', List.sum_replicate_nat, Nat.mul_comm]

theorem ofNat_eq_zero_iff (n : ℕ) : BitVec.ofNat w n = 0#w ↔ 2 ^ w ∣ n := by
  rw [Nat.dvd_iff_mod_eq_zero, ← BitVec.toNat_inj, BitVec.toNat_ofNat]
  exact Iff.rfl

end WrapCounter
