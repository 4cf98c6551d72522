import Mathlib.Algebra.Group.Action.Defs
import Mathlib.Algebra.Order.BigOperators.Group.Finset
import Lkmpg.Lib.Transition

/-!
# Runs that come to an end

Processes that wait for each other in loops do not run out of steps one by one: when one of them
gets on, the others may have to go round once more.  So a process has two numbers.  Its turns are
what it can still do that the others notice, and its laps how far it is from its next turn if no
other process takes one.

`run_length_le` bounds a run by the turns and the laps of all processes: each turn costs at most one
round of laps of everybody.
-/

namespace Transition

variable {σ ℓ ι : Type*} {step : σ → ℓ → Option σ} {turns laps : σ → ι → ℕ}

/-- From `s` to `t` the process `i` has taken a turn, or is closer to its next one while nobody has
been set back. -/
structure Advances (turns laps : σ → ι → ℕ) (i : ι) (s t : σ) : Prop where
  turns_le : ∀ j, turns t j ≤ turns s j
  closer : turns t i < turns s i ∨ laps t i < laps s i ∧ ∀ j, laps t j ≤ laps s j

/-- What is left for the processes of `P`, when `lap` bounds the laps of each. -/
def leftToDo (turns laps : σ → ι → ℕ) (P : Finset ι) (lap : ℕ) (s : σ) : ℕ :=
  (∑ i ∈ P, turns s i) * (P.card * lap + 1) + ∑ i ∈ P, laps s i

theorem sum_le_card_mul {f : ι → ℕ} {n : ℕ} (h : ∀ i, f i ≤ n) (P : Finset ι) :
    ∑ i ∈ P, f i ≤ P.card * n := by
  calc ∑ i ∈ P, f i ≤ P.card • n := Finset.sum_le_card_nsmul P f n fun i _ => h i
    _ = P.card * n := smul_eq_mul _ _

theorem leftToDo_le {P : Finset ι} {turn lap : ℕ} {s : σ} (hturn : ∀ i, turns s i ≤ turn)
    (hlap : ∀ i, laps s i ≤ lap) :
    leftToDo turns laps P lap s ≤ P.card * turn * (P.card * lap + 1) + P.card * lap :=
  Nat.add_le_add (Nat.mul_le_mul_right _ (sum_le_card_mul hturn P)) (sum_le_card_mul hlap P)

theorem Advances.leftToDo_lt {P : Finset ι} {lap : ℕ} (hlap : ∀ s i, laps s i ≤ lap) {s t : σ} {i : ι}
    (hi : i ∈ P) (h : Advances turns laps i s t) :
    leftToDo turns laps P lap t < leftToDo turns laps P lap s := by
  rw [leftToDo, leftToDo]
  rcases h.closer with hturn | ⟨hless, hlaps⟩
  · -- a turn pays for a round of everybody
    have hsum : ∑ j ∈ P, turns t j < ∑ j ∈ P, turns s j :=
      Finset.sum_lt_sum (fun j _ => h.turns_le j) ⟨i, hi, hturn⟩
    have hround := sum_le_card_mul (hlap t) P
    have hmul := Nat.mul_le_mul_right (P.card * lap + 1) hsum
    rw [Nat.succ_mul] at hmul
    omega
  · have hsum : ∑ j ∈ P, turns t j ≤ ∑ j ∈ P, turns s j :=
      Finset.sum_le_sum fun j _ => h.turns_le j
    have hlower : ∑ j ∈ P, laps t j < ∑ j ∈ P, laps s j :=
      Finset.sum_lt_sum (fun j _ => hlaps j) ⟨i, hi, hless⟩
    exact Nat.add_lt_add_of_le_of_lt (Nat.mul_le_mul_right _ hsum) hlower

/-- **Progress rule.**  If every step is an advance of a process of `P`, a run is no longer than what
is left in its first state. -/
theorem run_length_le {I : σ → Prop} {C : σ → ℓ → Prop} {P : Finset ι} {lap : ℕ}
    (hlap : ∀ s i, laps s i ≤ lap)
    (hstep : ∀ s l t, I s → C s l → step s l = some t →
      I t ∧ ∃ i ∈ P, Advances turns laps i s t)
    {s t : σ} {ls : List ℓ} (hs : I s) (hC : Along step C s ls) (hrun : run step s ls = some t) :
    ls.length ≤ leftToDo turns laps P lap s := by
  induction ls generalizing s with
  | nil => exact Nat.zero_le _
  | cons l ls ih =>
      obtain ⟨u, hu, hrest⟩ := run_cons_eq_some.mp hrun
      obtain ⟨hnext, i, hi, hadvance⟩ := hstep s l u hs hC.1 hu
      have hrestLength := ih hnext (hC.2 u hu) hrest
      have hless := hadvance.leftToDo_lt hlap hi
      rw [List.length_cons]
      omega

/-- Where each step is one of those that were to be taken, the length of a run says how many are
left. -/
theorem run_length_eq {todo : σ → ℕ} (hstep : ∀ s l t, step s l = some t → todo t + 1 = todo s)
    {s t : σ} {ls : List ℓ} (hrun : run step s ls = some t) : ls.length + todo t = todo s := by
  induction ls generalizing s with
  | nil =>
      obtain rfl := Option.some.inj hrun
      exact Nat.zero_add _
  | cons l ls ih =>
      obtain ⟨u, hu, hrest⟩ := run_cons_eq_some.mp hrun
      have hone := hstep s l u hu
      have hmore := ih hrest
      rw [List.length_cons]
      omega

end Transition
