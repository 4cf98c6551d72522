import Mathlib.Data.Nat.Notation
import Mathlib.Logic.Function.Basic

/-!
# Code that runs to its end

A piece of code is a partial step function `step : δ → π → Option (δ × π)` over shared data `δ` and
its own place `π`; `none` means that it has ended.  `finish step n d p` runs at most `n` steps with
nobody else running.  If `cost` drops with each step, `complete step cost` runs the code to its end,
and no step that the code has already taken by itself makes a difference to where it ends
(`complete_of_step`).

What somebody else does to the data, an operation `f : δ → δ`, comes to the same before and after
the code if it does at each of the steps that remain (`complete_comm`).
-/

namespace Uninterrupted

variable {δ π : Type*} {step : δ → π → Option (δ × π)} {cost : π → ℕ} {d d' : δ} {p p' : π}

/-- Run at most `n` steps. -/
def finish (step : δ → π → Option (δ × π)) : ℕ → δ → π → δ × π
  | 0, d, p => (d, p)
  | n + 1, d, p =>
      match step d p with
      | none => (d, p)
      | some (d', p') => finish step n d' p'

/-- Run to the end. -/
def complete (step : δ → π → Option (δ × π)) (cost : π → ℕ) (d : δ) (p : π) : δ × π :=
  finish step (cost p) d p

/-- Each step costs something. -/
def Decreasing (step : δ → π → Option (δ × π)) (cost : π → ℕ) : Prop :=
  ∀ d p d' p', step d p = some (d', p') → cost p' < cost p

theorem finish_of_none (h : step d p = none) (n : ℕ) : finish step n d p = (d, p) := by
  cases n with
  | zero => rfl
  | succ n => rw [finish, h]

theorem finish_succ_of_some (h : step d p = some (d', p')) (n : ℕ) :
    finish step (n + 1) d p = finish step n d' p' := by
  rw [finish, h]

/-- With enough steps the code has ended. -/
theorem step_finish (hcost : Decreasing step cost) {n : ℕ} (hn : cost p ≤ n) :
    step (finish step n d p).1 (finish step n d p).2 = none := by
  induction n generalizing d p with
  | zero =>
      cases h : step d p with
      | none => exact h
      | some next =>
          have hlt := hcost d p next.1 next.2 h
          omega
  | succ n ih =>
      cases h : step d p with
      | none => rw [finish_of_none h]; exact h
      | some next =>
          rw [finish_succ_of_some h]
          have hlt := hcost d p next.1 next.2 h
          exact ih (by omega)

/-- More steps than enough change nothing. -/
theorem finish_of_le (hcost : Decreasing step cost) {n : ℕ} (hn : cost p ≤ n) :
    finish step n d p = complete step cost d p := by
  induction n using Nat.strongRecOn generalizing d p with
  | ind n ih =>
      rw [complete]
      cases h : step d p with
      | none => rw [finish_of_none h, finish_of_none h]
      | some next =>
          have hlt := hcost d p next.1 next.2 h
          obtain ⟨m, hm⟩ : ∃ k, cost p = k + 1 := ⟨cost p - 1, by omega⟩
          obtain ⟨k, rfl⟩ : ∃ k, n = k + 1 := ⟨n - 1, by omega⟩
          rw [hm, finish_succ_of_some h, finish_succ_of_some h]
          exact (ih k (by omega) (by omega)).trans (ih m (by omega) (by omega)).symm

theorem complete_of_none (h : step d p = none) : complete step cost d p = (d, p) :=
  finish_of_none h _

/-- **Step.**  A step of the code does not change where it ends. -/
theorem complete_of_step (hcost : Decreasing step cost) (h : step d p = some (d', p')) :
    complete step cost d' p' = complete step cost d p := by
  have hlt := hcost d p d' p' h
  obtain ⟨m, hm⟩ : ∃ k, cost p = k + 1 := ⟨cost p - 1, by omega⟩
  show complete step cost d' p' = finish step (cost p) d p
  rw [hm, finish_succ_of_some h, finish_of_le hcost (by omega)]

theorem step_complete (hcost : Decreasing step cost) :
    step (complete step cost d p).1 (complete step cost d p).2 = none :=
  step_finish hcost (Nat.le_refl _)

/-- **Parts.**  Code that takes the steps of a part of it, until the part has ended, goes on where the
part ends. -/
theorem complete_part {π' : Type*} {step' : δ → π' → Option (δ × π')} {cost' : π' → ℕ} {f : π → π'}
    (hcost : Decreasing step cost) (hcost' : Decreasing step' cost')
    (hpart : ∀ d p d' p', step d p = some (d', p') → step' d (f p) = some (d', f p'))
    (d : δ) (p : π) :
    complete step' cost' d (f p) =
      complete step' cost' (complete step cost d p).1 (f (complete step cost d p).2) := by
  induction hn : cost p using Nat.strongRecOn generalizing d p with
  | ind n ih =>
      cases h : step d p with
      | none => rw [complete_of_none h]
      | some next =>
          have hlt := hcost d p next.1 next.2 h
          rw [← complete_of_step hcost' (hpart d p next.1 next.2 h), ← complete_of_step hcost h]
          exact ih (cost next.2) (by omega) next.1 next.2 rfl

/-- **Frame.**  An operation that commutes with each step that remains commutes with all of them. -/
theorem finish_comm {f : δ → δ} {n : ℕ}
    (hf : ∀ k, step (f (finish step k d p).1) (finish step k d p).2 =
      (step (finish step k d p).1 (finish step k d p).2).map fun next => (f next.1, next.2)) :
    finish step n (f d) p = (f (finish step n d p).1, (finish step n d p).2) := by
  induction n generalizing d p with
  | zero => rfl
  | succ n ih =>
      have hfirst := hf 0
      rw [finish] at hfirst
      cases h : step d p with
      | none =>
          rw [h] at hfirst
          rw [finish_of_none h, finish_of_none hfirst]
      | some next =>
          rw [h] at hfirst
          rw [finish_succ_of_some h, finish_succ_of_some hfirst]
          refine ih fun k => ?_
          have hk := hf (k + 1)
          rw [finish_succ_of_some h] at hk
          exact hk

theorem complete_comm {f : δ → δ}
    (hf : ∀ k, step (f (finish step k d p).1) (finish step k d p).2 =
      (step (finish step k d p).1 (finish step k d p).2).map fun next => (f next.1, next.2)) :
    complete step cost (f d) p =
      (f (complete step cost d p).1, (complete step cost d p).2) :=
  finish_comm hf

end Uninterrupted
