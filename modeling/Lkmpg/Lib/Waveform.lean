import Mathlib.Data.Nat.Notation

/-!
# Waveforms on a line and loops that poll it

A line has a level at each moment, `line : ℕ → Bool`; a waveform is a list of phases, each with a
level and a duration, and `Follows line t phases` says that the line goes through the phases from
time `t` on.  `waitWhile` is the loop that samples the line once per unit of time as long as it has
a level and a countdown has not run out: within a phase that is not longer than the countdown it
stops at the end of the phase (`waitWhile_phase`).
-/

namespace Waveform

structure Phase where
  level : Bool
  duration : ℕ
  deriving DecidableEq

variable {line : ℕ → Bool} {t d k n : ℕ} {level : Bool} {phases : List Phase}

/-- From time `t` on the line goes through the phases; what it does after them is left open. -/
def Follows (line : ℕ → Bool) : ℕ → List Phase → Prop
  | _, [] => True
  | t, p :: phases =>
      (∀ u, t ≤ u → u < t + p.duration → line u = p.level) ∧ Follows line (t + p.duration) phases

/-- The level within the first phase. -/
theorem Follows.level_eq (h : Follows line t (⟨level, d⟩ :: phases)) (hk : k < d) :
    line (t + k) = level :=
  h.1 (t + k) (Nat.le_add_right t k) (Nat.add_lt_add_left hk t)

/-- A part of the first phase has passed. -/
theorem Follows.drop (h : Follows line t (⟨level, d⟩ :: phases)) (hk : k ≤ d) :
    Follows line (t + k) (⟨level, d - k⟩ :: phases) := by
  have hend : t + k + (d - k) = t + d := by omega
  refine ⟨fun u hle hlt => h.1 u (by omega) ?_, ?_⟩
  · show u < t + d
    have hlt' : u < t + k + (d - k) := hlt
    omega
  · show Follows line (t + k + (d - k)) phases
    rw [hend]
    exact h.2

/-- The first phase has passed. -/
theorem Follows.next (h : Follows line t (⟨level, d⟩ :: phases)) : Follows line (t + d) phases := h.2

/-- A phase of no duration. -/
theorem Follows.cons_zero (h : Follows line t phases) : Follows line t (⟨level, 0⟩ :: phases) :=
  ⟨fun _ hle hlt => absurd hlt (Nat.not_lt.mpr hle), h⟩

/-! ### Polling -/

/-- `while (line == level && timeout--) udelay(1);`: the time at which the line has been found to have
the other level, or `none` if the countdown has run out. -/
def waitWhile (line : ℕ → Bool) (level : Bool) : ℕ → ℕ → Option ℕ
  | 0, t => if line t = level then none else some t
  | timeout + 1, t => if line t = level then waitWhile line level timeout (t + 1) else some t

theorem waitWhile_of_ne (h : line t ≠ level) (n : ℕ) : waitWhile line level n t = some t := by
  cases n <;> rw [waitWhile, if_neg h]

/-- **Polling a phase.**  The loop stops at the end of the phase, if the next one has some length. -/
theorem waitWhile_phase {d' : ℕ} (h : Follows line t (⟨level, d⟩ :: ⟨!level, d'⟩ :: phases))
    (hd : d ≤ n) (hd' : 0 < d') : waitWhile line level n t = some (t + d) := by
  induction d generalizing t n with
  | zero =>
      have hnext : line t = !level := h.next.level_eq hd'
      refine waitWhile_of_ne ?_ n
      rw [hnext]
      cases level <;> decide
  | succ d ih =>
      obtain ⟨n, rfl⟩ : ∃ m, n = m + 1 := ⟨n - 1, by omega⟩
      have hlevel : line t = level := h.level_eq (Nat.succ_pos d)
      have hrest : Follows line (t + 1) (⟨level, d⟩ :: ⟨!level, d'⟩ :: phases) := h.drop (by omega)
      rw [waitWhile, if_pos hlevel, ih hrest (by omega)]
      exact congrArg some (by omega)

/-! ### Lines for given phases -/

/-- The level `u` units of time into the phases. -/
def levelAt : List Phase → ℕ → Bool
  | [], _ => false
  | p :: phases, u => if u < p.duration then p.level else levelAt phases (u - p.duration)

/-- Every list of phases is followed by some line. -/
theorem follows_levelAt (phases : List Phase) (t : ℕ) :
    Follows (fun u => levelAt phases (u - t)) t phases := by
  suffices hall : ∀ phases (f : ℕ → Bool) t, (∀ u, t ≤ u → f u = levelAt phases (u - t)) →
      Follows f t phases from hall phases _ t fun _ _ => rfl
  intro phases
  induction phases with
  | nil => exact fun _ _ _ => trivial
  | cons p phases ih =>
      intro f t hf
      refine ⟨fun u hle hlt => ?_, ih f _ fun u hle => ?_⟩
      · rw [hf u hle, levelAt, if_pos (by omega)]
      · rw [hf u (by omega), levelAt, if_neg (by omega), Nat.sub_add_eq]

end Waveform
