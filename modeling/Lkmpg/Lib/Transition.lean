import Mathlib.Algebra.GroupWithZero.Nat
import Mathlib.Data.List.Basic
import Mathlib.Data.List.Induction
import Mathlib.Logic.Function.Basic

/-!
# Runs of labelled transition systems

A system is a partial step function `step : σ → ℓ → Option σ`: `none` means that the label is not
enabled.  A concurrent program is such a function whose label names the process that moves and
resolves every choice the program leaves open, so a run is a list of labels and an interleaving is
an arbitrary run.

* `run` executes a list of labels; `Along C s ls` says that each label of the run meets `C` in the
  state in which it is taken (a condition on the schedule, or a property of every step);
* `run_induction` is the invariant rule under such a condition, `run_induction_history` the same
  for an invariant that speaks of the past, and `along_of_invariant` turns an invariant into a
  property of every step, `along_iff_along` into one that holds exactly under a condition;
* `Throughout P s ls` says that each state of the run has `P`, and `throughout_iff_along` finds the
  exact condition on the steps;
* `events` collects what the steps of a run emit, and `run_simulation` replays the emitted events
  on an abstract machine.
-/

namespace Transition

variable {σ ℓ τ ε : Type*}

/-- Where two processes run, `Fin 2` names them. -/
instance two_neZero : NeZero 2 := ⟨by decide⟩

/-- Execute a list of labels, stopping with `none` at the first label that is not enabled. -/
def run (step : σ → ℓ → Option σ) : σ → List ℓ → Option σ
  | s, [] => some s
  | s, l :: ls => (step s l).bind fun t => run step t ls

@[simp] theorem run_nil (step : σ → ℓ → Option σ) (s : σ) : run step s [] = some s := rfl

theorem run_cons (step : σ → ℓ → Option σ) (s : σ) (l : ℓ) (ls : List ℓ) :
    run step s (l :: ls) = (step s l).bind fun t => run step t ls := rfl

/-- A nonempty run is one enabled step followed by a run. -/
theorem run_cons_eq_some {step : σ → ℓ → Option σ} {s t : σ} {l : ℓ} {ls : List ℓ} :
    run step s (l :: ls) = some t ↔ ∃ u, step s l = some u ∧ run step u ls = some t := by
  rw [run_cons, Option.bind_eq_some_iff]

theorem run_append (step : σ → ℓ → Option σ) (s : σ) (ls ms : List ℓ) :
    run step s (ls ++ ms) = (run step s ls).bind fun t => run step t ms := by
  induction ls generalizing s with
  | nil => rfl
  | cons l ls ih =>
      rw [List.cons_append, run_cons, run_cons]
      cases step s l with
      | none => rfl
      | some u => simpa using ih u

theorem run_trans {step : σ → ℓ → Option σ} {s t u : σ} {ls ms : List ℓ}
    (h₁ : run step s ls = some t) (h₂ : run step t ms = some u) :
    run step s (ls ++ ms) = some u := by
  rw [run_append, h₁]
  exact h₂

/-! ### Conditions on every step of a run -/

/-- Every label of the run `ls` from `s` meets `C` in the state in which it is taken. -/
def Along (step : σ → ℓ → Option σ) (C : σ → ℓ → Prop) : σ → List ℓ → Prop
  | _, [] => True
  | s, l :: ls => C s l ∧ ∀ t, step s l = some t → Along step C t ls

/-- The condition on every label, computed along the run. -/
def alongCheck (step : σ → ℓ → Option σ) (C : σ → ℓ → Prop) [∀ s l, Decidable (C s l)] :
    σ → List ℓ → Bool
  | _, [] => true
  | s, l :: ls => decide (C s l) && (step s l).all fun t => alongCheck step C t ls

theorem alongCheck_iff {step : σ → ℓ → Option σ} {C : σ → ℓ → Prop} [∀ s l, Decidable (C s l)]
    {s : σ} {ls : List ℓ} : alongCheck step C s ls = true ↔ Along step C s ls := by
  induction ls generalizing s with
  | nil => exact iff_of_true rfl trivial
  | cons l ls ih =>
      rw [alongCheck, Along, Bool.and_eq_true, decide_eq_true_iff, Option.all_eq_true]
      exact and_congr_right fun _ => forall₂_congr fun t _ => ih

instance Along.decidable {step : σ → ℓ → Option σ} {C : σ → ℓ → Prop} [∀ s l, Decidable (C s l)]
    (s : σ) (ls : List ℓ) : Decidable (Along step C s ls) := decidable_of_iff _ alongCheck_iff

theorem Along.mono {step : σ → ℓ → Option σ} {C D : σ → ℓ → Prop} (hCD : ∀ s l, C s l → D s l)
    {s : σ} {ls : List ℓ} (h : Along step C s ls) : Along step D s ls := by
  induction ls generalizing s with
  | nil => trivial
  | cons l ls ih => exact ⟨hCD s l h.1, fun t ht => ih (h.2 t ht)⟩

theorem Along.and {step : σ → ℓ → Option σ} {C D : σ → ℓ → Prop} {s : σ} {ls : List ℓ}
    (hC : Along step C s ls) (hD : Along step D s ls) :
    Along step (fun u l => C u l ∧ D u l) s ls := by
  induction ls generalizing s with
  | nil => trivial
  | cons l ls ih => exact ⟨⟨hC.1, hD.1⟩, fun t ht => ih (hC.2 t ht) (hD.2 t ht)⟩

/-- A condition on the labels alone. -/
theorem Along.of_forall {step : σ → ℓ → Option σ} {C : ℓ → Prop} {s : σ} {ls : List ℓ}
    (h : ∀ l ∈ ls, C l) : Along step (fun _ => C) s ls := by
  induction ls generalizing s with
  | nil => trivial
  | cons l ls ih =>
      exact ⟨h l List.mem_cons_self, fun t _ => ih fun m hm => h m (List.mem_cons_of_mem l hm)⟩

/-- If every label is enabled, a condition on the labels alone is one on the list. -/
theorem along_iff_forall {step : σ → ℓ → Option σ} {C : ℓ → Prop}
    (htotal : ∀ s l, ∃ t, step s l = some t) {s : σ} {ls : List ℓ} :
    Along step (fun _ => C) s ls ↔ ∀ l ∈ ls, C l := by
  refine ⟨fun h => ?_, Along.of_forall⟩
  induction ls generalizing s with
  | nil => exact fun l hl => nomatch hl
  | cons l ls ih =>
      obtain ⟨t, ht⟩ := htotal s l
      exact List.forall_mem_cons.mpr ⟨h.1, ih (h.2 t ht)⟩

/-- A condition on every step of a run holds on every prefix of it. -/
theorem Along.of_append {step : σ → ℓ → Option σ} {C : σ → ℓ → Prop} {s : σ} {ls ms : List ℓ}
    (h : Along step C s (ls ++ ms)) : Along step C s ls := by
  induction ls generalizing s with
  | nil => trivial
  | cons l ls ih => exact ⟨h.1, fun t ht => ih (h.2 t ht)⟩

theorem Along.append {step : σ → ℓ → Option σ} {C : σ → ℓ → Prop} {s : σ} {ls ms : List ℓ}
    (h : Along step C s ls) (hms : ∀ t, run step s ls = some t → Along step C t ms) :
    Along step C s (ls ++ ms) := by
  induction ls generalizing s with
  | nil => exact hms s rfl
  | cons l ls ih =>
      exact ⟨h.1, fun t ht => ih (h.2 t ht) fun u hu =>
        hms u (run_cons_eq_some.mpr ⟨t, ht, hu⟩)⟩

theorem along_cons {step : σ → ℓ → Option σ} {C : σ → ℓ → Prop} {s t : σ} {l : ℓ} {ls : List ℓ}
    (h : step s l = some t) : Along step C s (l :: ls) ↔ C s l ∧ Along step C t ls := by
  refine and_congr_right fun _ => ⟨fun hrest => hrest t h, fun hrest u hu => ?_⟩
  obtain rfl := Option.some.inj (h.symm.trans hu)
  exact hrest

theorem along_append {step : σ → ℓ → Option σ} {C : σ → ℓ → Prop} {s t : σ} {ls ms : List ℓ}
    (h : run step s ls = some t) :
    Along step C s (ls ++ ms) ↔ Along step C s ls ∧ Along step C t ms := by
  induction ls generalizing s with
  | nil =>
      obtain rfl := Option.some.inj h
      exact (and_iff_right trivial).symm
  | cons l ls ih =>
      obtain ⟨u, hu, hrest⟩ := run_cons_eq_some.mp h
      rw [List.cons_append, along_cons hu, along_cons hu, ih hrest, and_assoc]

/-- The condition holds at the label that follows a prefix of the run. -/
theorem Along.last {step : σ → ℓ → Option σ} {C : σ → ℓ → Prop} {s t : σ} {ls : List ℓ} {l : ℓ}
    (h : Along step C s (ls ++ [l])) (hrun : run step s ls = some t) : C t l := by
  induction ls generalizing s with
  | nil => exact Option.some.inj hrun ▸ h.1
  | cons m ls ih =>
      obtain ⟨u, hu, hrest⟩ := run_cons_eq_some.mp hrun
      exact ih (h.2 u hu) hrest

/-- **Invariant rule.**  What each step that meets the condition preserves, the run preserves. -/
theorem run_induction {step : σ → ℓ → Option σ} {C : σ → ℓ → Prop} {Inv : σ → Prop}
    (hstep : ∀ s l t, Inv s → C s l → step s l = some t → Inv t)
    {s t : σ} {ls : List ℓ} (hs : Inv s) (hC : Along step C s ls)
    (hrun : run step s ls = some t) : Inv t := by
  induction ls generalizing s with
  | nil => exact Option.some.inj hrun ▸ hs
  | cons l ls ih =>
      obtain ⟨u, hu, hrest⟩ := run_cons_eq_some.mp hrun
      exact ih (hstep s l u hs hC.1 hu) (hC.2 u hu) hrest

/-- The invariant rule for an invariant that also speaks of the labels taken so far. -/
theorem run_induction_history {step : σ → ℓ → Option σ} {C : σ → ℓ → Prop} {s₀ : σ}
    {Inv : List ℓ → σ → Prop}
    (hstep : ∀ ls s l t, run step s₀ ls = some s → Inv ls s → C s l → step s l = some t →
      Inv (ls ++ [l]) t)
    {t : σ} {ls : List ℓ} (hs : Inv [] s₀) (hC : Along step C s₀ ls)
    (hrun : run step s₀ ls = some t) : Inv ls t := by
  induction ls using List.reverseRecOn generalizing t with
  | nil => exact Option.some.inj hrun ▸ hs
  | append_singleton ls l ih =>
      rw [run_append] at hrun
      obtain ⟨u, hu, hlast⟩ := Option.bind_eq_some_iff.mp hrun
      obtain ⟨v, hv, hend⟩ := run_cons_eq_some.mp hlast
      obtain rfl := Option.some.inj hend
      exact hstep ls u l v hu (ih hC.of_append hu) (hC.last hu) hv

/-- The invariant rule for a run on which no condition is imposed. -/
theorem run_invariant {step : σ → ℓ → Option σ} {Inv : σ → Prop}
    (hstep : ∀ s l t, Inv s → step s l = some t → Inv t)
    {s t : σ} {ls : List ℓ} (hs : Inv s) (hrun : run step s ls = some t) : Inv t := by
  induction ls generalizing s with
  | nil => exact Option.some.inj hrun ▸ hs
  | cons l ls ih =>
      obtain ⟨u, hu, hrest⟩ := run_cons_eq_some.mp hrun
      exact ih (hstep s l u hs hu) hrest

/-- **Step rule.**  An invariant kept by the steps that meet `C`, and strong enough to give `P` at
each of them, gives `P` at every step of every run whose steps meet `C`. -/
theorem along_of_invariant {step : σ → ℓ → Option σ} {C P : σ → ℓ → Prop} {Inv : σ → Prop}
    (hstep : ∀ s l t, Inv s → C s l → step s l = some t → Inv t)
    (hP : ∀ s l, Inv s → C s l → P s l)
    {s : σ} {ls : List ℓ} (hs : Inv s) (hC : Along step C s ls) : Along step P s ls := by
  induction ls generalizing s with
  | nil => trivial
  | cons l ls ih =>
      exact ⟨hP s l hs hC.1, fun t ht => ih (hstep s l t hs hC.1 ht) (hC.2 t ht)⟩

/-- The step rule for a run on which no condition is imposed. -/
theorem along_of_invariant' {step : σ → ℓ → Option σ} {P : σ → ℓ → Prop} {Inv : σ → Prop}
    (hstep : ∀ s l t, Inv s → step s l = some t → Inv t) (hP : ∀ s l, Inv s → P s l)
    {s : σ} {ls : List ℓ} (hs : Inv s) : Along step P s ls :=
  along_of_invariant (C := fun _ _ => True) (fun s l t h _ => hstep s l t h)
    (fun s l h _ => hP s l h) hs (Along.of_forall (C := fun _ => True) fun _ _ => trivial)

/-- **Exact condition on the steps.**  Let the invariant be kept by the steps that meet `C`, and let
a step from a state that has it be as `P` asks exactly if it meets `C`.  Then the steps of a run are
all as `P` asks if and only if they all meet `C`. -/
theorem along_iff_along {step : σ → ℓ → Option σ} {P C : σ → ℓ → Prop} {I : σ → Prop}
    (hstep : ∀ s l t, I s → C s l → step s l = some t → I t)
    (hiff : ∀ s l, I s → (P s l ↔ C s l)) {s : σ} {ls : List ℓ} (hs : I s) :
    Along step P s ls ↔ Along step C s ls := by
  induction ls generalizing s with
  | nil => exact Iff.rfl
  | cons l ls ih =>
      constructor
      · rintro ⟨hP, hrest⟩
        have hC : C s l := (hiff s l hs).mp hP
        exact ⟨hC, fun t ht => (ih (hstep s l t hs hC ht)).mp (hrest t ht)⟩
      · rintro ⟨hC, hrest⟩
        exact ⟨(hiff s l hs).mpr hC, fun t ht => (ih (hstep s l t hs hC ht)).mpr (hrest t ht)⟩

/-! ### Properties of every state of a run -/

/-- Every state of the run `ls` from `s` meets `P`, the first and the last one included. -/
def Throughout (step : σ → ℓ → Option σ) (P : σ → Prop) : σ → List ℓ → Prop
  | s, [] => P s
  | s, l :: ls => P s ∧ ∀ t, step s l = some t → Throughout step P t ls

theorem Throughout.first {step : σ → ℓ → Option σ} {P : σ → Prop} {s : σ} {ls : List ℓ}
    (h : Throughout step P s ls) : P s := by
  cases ls with
  | nil => exact h
  | cons l ls => exact h.1

theorem Throughout.last {step : σ → ℓ → Option σ} {P : σ → Prop} {s t : σ} {ls : List ℓ}
    (h : Throughout step P s ls) (hrun : run step s ls = some t) : P t := by
  induction ls generalizing s with
  | nil => exact Option.some.inj hrun ▸ h
  | cons l ls ih =>
      obtain ⟨u, hu, hrest⟩ := run_cons_eq_some.mp hrun
      exact ih (h.2 u hu) hrest

/-- An invariant that implies `P` gives `P` in every state of every run. -/
theorem throughout_of_invariant {step : σ → ℓ → Option σ} {P Inv : σ → Prop}
    (hstep : ∀ s l t, Inv s → step s l = some t → Inv t) (hP : ∀ s, Inv s → P s)
    {s : σ} {ls : List ℓ} (hs : Inv s) : Throughout step P s ls := by
  induction ls generalizing s with
  | nil => exact hP s hs
  | cons l ls ih => exact ⟨hP s hs, fun t ht => ih (hstep s l t hs ht)⟩

/-- The same for an invariant that only the steps that meet `C` keep. -/
theorem throughout_of_along {step : σ → ℓ → Option σ} {C : σ → ℓ → Prop} {P Inv : σ → Prop}
    (hstep : ∀ s l t, Inv s → C s l → step s l = some t → Inv t) (hP : ∀ s, Inv s → P s)
    {s : σ} {ls : List ℓ} (hs : Inv s) (hC : Along step C s ls) : Throughout step P s ls := by
  induction ls generalizing s with
  | nil => exact hP s hs
  | cons l ls ih => exact ⟨hP s hs, fun t ht => ih (hstep s l t hs hC.1 ht) (hC.2 t ht)⟩

/-- **Exact condition.**  Let the invariant be kept by the steps that meet `C`, and let a step
between states of which the first has `P` meet `C` exactly if the second has it.  Then `P` holds in
every state of a run if and only if every step of the run meets `C`. -/
theorem throughout_iff_along {step : σ → ℓ → Option σ} {P I : σ → Prop} {C : σ → ℓ → Prop}
    (hnone : ∀ s l, step s l = none → C s l)
    (hstep : ∀ s l t, I s → P s → C s l → step s l = some t → I t)
    (hiff : ∀ s l t, I s → P s → step s l = some t → (C s l ↔ P t))
    {s : σ} {ls : List ℓ} (hs : I s) (hP : P s) :
    Throughout step P s ls ↔ Along step C s ls := by
  induction ls generalizing s with
  | nil => exact iff_of_true hP trivial
  | cons l ls ih =>
      cases hl : step s l with
      | none =>
          exact iff_of_true ⟨hP, fun t ht => nomatch hl.symm.trans ht⟩
            ⟨hnone s l hl, fun t ht => nomatch hl.symm.trans ht⟩
      | some u =>
          constructor
          · rintro ⟨-, hrest⟩
            have hC : C s l := (hiff s l u hs hP hl).mpr (hrest u hl).first
            refine ⟨hC, fun t ht => ?_⟩
            obtain rfl := Option.some.inj (hl.symm.trans ht)
            exact (ih (hstep s l u hs hP hC hl) (hrest u hl).first).mp (hrest u hl)
          · rintro ⟨hC, hrest⟩
            refine ⟨hP, fun t ht => ?_⟩
            obtain rfl := Option.some.inj (hl.symm.trans ht)
            exact (ih (hstep s l u hs hP hC hl) ((hiff s l u hs hP hl).mp hC)).mpr (hrest u hl)

/-! ### Emitted events and simulation -/

/-- The events that the steps of a run emit, in order. -/
def events (step : σ → ℓ → Option σ) (emit : σ → ℓ → List ε) : σ → List ℓ → List ε
  | _, [] => []
  | s, l :: ls => emit s l ++ ((step s l).elim [] fun t => events step emit t ls)

/-- **Forward simulation.**  If a step that meets `C` takes related states to related ones when the
emitted events are executed on the abstract side, then so does a run: its last state is related to
the abstract state after all emitted events in order. -/
theorem run_simulation {step : σ → ℓ → Option σ} {emit : σ → ℓ → List ε} {exec : τ → ε → τ}
    {C : σ → ℓ → Prop} {Rel : σ → τ → Prop}
    (hstep : ∀ s l t a, Rel s a → C s l → step s l = some t → Rel t ((emit s l).foldl exec a))
    {s t : σ} {a : τ} {ls : List ℓ} (hs : Rel s a) (hC : Along step C s ls)
    (hrun : run step s ls = some t) : Rel t ((events step emit s ls).foldl exec a) := by
  induction ls generalizing s a with
  | nil =>
      obtain rfl := Option.some.inj hrun
      exact hs
  | cons l ls ih =>
      obtain ⟨u, hu, hrest⟩ := run_cons_eq_some.mp hrun
      rw [events, hu, List.foldl_append]
      exact ih (hstep s l u a hs hC.1 hu) (hC.2 u hu) hrest

end Transition
