import Mathlib.Data.Nat.Notation

/-!
# Loops that may not end

A loop is given by its body, `body : σ → ρ ⊕ σ`: an iteration leaves the loop with a result, or goes
on with a new state.  `loop body fuel s` runs at most `fuel` iterations, and `Returns body s r` says
that with some number of iterations the result is `r`.

* `returns_iff_of_steps` passes over iterations that go on;
* `Returns.rule` is the invariant rule for results; a loop for whose results nothing can hold never
  ends.
-/

namespace Loop

variable {σ ρ : Type*} {body : σ → ρ ⊕ σ} {s t : σ} {r : ρ}

def loop (body : σ → ρ ⊕ σ) : ℕ → σ → Option ρ
  | 0, _ => none
  | fuel + 1, s =>
      match body s with
      | .inl r => some r
      | .inr t => loop body fuel t

def Returns (body : σ → ρ ⊕ σ) (s : σ) (r : ρ) : Prop := ∃ fuel, loop body fuel s = some r

/-- An iteration that leaves the loop. -/
theorem returns_of_done (h : body s = .inl r) : Returns body s r := by
  refine ⟨1, ?_⟩
  rw [loop, h]

theorem loop_succ_of_again (h : body s = .inr t) (fuel : ℕ) :
    loop body (fuel + 1) s = loop body fuel t := by
  rw [loop, h]

/-- An iteration that goes on. -/
theorem returns_iff_of_again (h : body s = .inr t) : Returns body s r ↔ Returns body t r := by
  constructor
  · rintro ⟨fuel, hfuel⟩
    cases fuel with
    | zero => cases hfuel
    | succ fuel => exact ⟨fuel, by rw [← loop_succ_of_again h, hfuel]⟩
  · rintro ⟨fuel, hfuel⟩
    exact ⟨fuel + 1, by rw [loop_succ_of_again h, hfuel]⟩

/-- Iterations that go on through a sequence of states. -/
theorem returns_iff_of_steps {f : ℕ → σ} {n : ℕ} (h : ∀ i < n, body (f i) = .inr (f (i + 1))) :
    Returns body (f 0) r ↔ Returns body (f n) r := by
  induction n with
  | zero => exact Iff.rfl
  | succ n ih =>
      rw [ih fun i hi => h i (Nat.lt_succ_of_lt hi), returns_iff_of_again (h n (Nat.lt_succ_self n))]

/-- **Invariant rule.**  What the iterations that go on keep, and what those that leave the loop make
of it, holds of the result. -/
theorem Returns.rule {I : σ → Prop} {Q : ρ → Prop} (h : Returns body s r) (hs : I s)
    (hagain : ∀ s t, I s → body s = .inr t → I t) (hdone : ∀ s r, I s → body s = .inl r → Q r) :
    Q r := by
  obtain ⟨fuel, hfuel⟩ := h
  induction fuel generalizing s with
  | zero => cases hfuel
  | succ fuel ih =>
      cases hbody : body s with
      | inl r' =>
          rw [loop, hbody] at hfuel
          obtain rfl := Option.some.inj hfuel
          exact hdone s r' hs hbody
      | inr t =>
          rw [loop_succ_of_again hbody] at hfuel
          exact ih (hagain s t hs hbody) hfuel

end Loop
