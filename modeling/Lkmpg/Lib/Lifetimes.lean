import Lkmpg.Lib.KernelTypes
import Lkmpg.Lib.Transition

/-!
# Lifetimes of resources

Resources that need one another: a resource is acquired while what it needs is held, is used while it
is held, and is released while nothing that is held needs it.  Whatever is done otherwise is recorded
as a fault.

A driver acquires its resources in an init function, in which a call that fails jumps to a label that
releases what has been acquired so far, and releases them in an exit function.  If each label and the
exit function undo what stands before them (`unwinds_call`, `unwinds_done`), then over all loads and
unloads there is no fault and a driver that is not loaded holds nothing (`clean_run`).
-/

namespace Lifetimes

open Transition

/-- The resources that are held, the last one first, and the faults. -/
structure Held (ρ : Type*) where
  held : List ρ
  faults : List ρ
  deriving DecidableEq

section Operations

variable {ρ : Type*} [DecidableEq ρ] (needs : ρ → List ρ)

/-- Nothing is held, and there has been no fault. -/
def Held.empty : Held ρ := ⟨[], []⟩

def Held.fault (h : Held ρ) (r : ρ) : Held ρ := { h with faults := r :: h.faults }

/-- `r` becomes held, which is a fault if something that it needs is not held. -/
def Held.acquire (r : ρ) (h : Held ρ) : Held ρ :=
  if ∀ r' ∈ needs r, r' ∈ h.held then { h with held := r :: h.held }
  else { h with held := r :: h.held }.fault r

/-- `r` is not held any more, which is a fault if it was not or if something that is held needs it. -/
def Held.release (r : ρ) (h : Held ρ) : Held ρ :=
  if r ∈ h.held ∧ ∀ r' ∈ h.held, r ∉ needs r' then { h with held := h.held.erase r }
  else { h with held := h.held.erase r }.fault r

/-- A release of a resource that may be missing. -/
def Held.releaseIfHeld (r : ρ) (h : Held ρ) : Held ρ :=
  if r ∈ h.held then h.release needs r else h

/-- Something is done with `r`. -/
def Held.use (r : ρ) (h : Held ρ) : Held ρ := if r ∈ h.held then h else h.fault r

end Operations

/-! ### Init functions with labels -/

variable {σ ρ κ γ : Type*}

/-- An init function, with an error number or what it leaves to the exit function. -/
abbrev Init (σ γ : Type*) := σ → σ × Except Errno γ

/-- `ret = …; if (ret) goto label;`, where the call does `grant` if it succeeds. -/
def call (ret : Except Errno Unit) (label grant : σ → σ) (next : Init σ γ) : Init σ γ := fun s =>
  match ret with
  | .error e => (label s, .error e)
  | .ok () => next (grant s)

/-- A call whose failure is not looked at. -/
def attempt (ret : Except Errno Unit) (grant : σ → σ) (next : Init σ γ) : Init σ γ := fun s =>
  match ret with
  | .error _ => next s
  | .ok () => next (grant s)

/-- `return 0;` -/
def done (globals : γ) : Init σ γ := fun s => (s, .ok globals)

/-- A call that returns `NULL` if it fails. -/
def nomem (ret : Except Errno Unit) : Except Errno Unit := ret.mapError fun _ => .ENOMEM

section Calls

variable {P : σ × Except Errno γ → Prop} {ret : Except Errno Unit} {label grant : σ → σ}
  {next : Init σ γ} {s : σ}

theorem call_of (hlabel : ∀ e, P (label s, .error e)) (hnext : P (next (grant s))) :
    P (call ret label grant next s) := by
  cases ret with
  | error e => exact hlabel e
  | ok => exact hnext

theorem attempt_eq :
    attempt ret grant next s = next (if ret.isOk then grant s else s) := by
  cases ret with
  | error e => rfl
  | ok => rfl

end Calls

/-- `κ` are the outcomes of the calls into the kernel. -/
structure Driver (κ ρ γ : Type*) where
  init : κ → Init (Held ρ) γ
  exit : γ → Held ρ → Held ρ

/-- An init function that fails has released everything; after one that succeeds, which has not made
a fault, the exit function does. -/
def Unwinds (exit : γ → Held ρ → Held ρ) (r : Held ρ × Except Errno γ) : Prop :=
  match r with
  | (h, .error _) => h = Held.empty
  | (h, .ok globals) => h.faults = [] ∧ exit globals h = Held.empty

section Ladder

variable {exit : γ → Held ρ → Held ρ} {ret : Except Errno Unit} {label grant : Held ρ → Held ρ}
  {next : Init (Held ρ) γ} {h : Held ρ} {globals : γ}

/-- A label is checked where it is used, and then the rest of the ladder. -/
theorem unwinds_call (hlabel : label h = Held.empty) (hnext : Unwinds exit (next (grant h))) :
    Unwinds exit (call ret label grant next h) :=
  call_of (fun _ => hlabel) hnext

theorem unwinds_done (hfaults : h.faults = []) (hexit : exit globals h = Held.empty) :
    Unwinds exit (done globals h) := ⟨hfaults, hexit⟩

end Ladder

/-! ### Loads and unloads -/

/-- `loaded` has the globals of a driver that is loaded. -/
structure State (ρ γ : Type*) where
  held : Held ρ
  loaded : Option γ

def State.init : State ρ γ := ⟨Held.empty, none⟩

inductive Act (κ : Type*)
  | load (calls : κ)
  | unload

def step (d : Driver κ ρ γ) (s : State ρ γ) : Act κ → Option (State ρ γ)
  | .load calls =>
      match s.loaded with
      | some _ => none
      | none =>
          match d.init calls s.held with
          | (h, .error _) => some ⟨h, none⟩
          | (h, .ok globals) => some ⟨h, some globals⟩
  | .unload =>
      match s.loaded with
      | some globals => some ⟨d.exit globals s.held, none⟩
      | none => none

/-- There has been no fault, and while the driver is not loaded nothing is held. -/
structure Clean (s : State ρ γ) : Prop where
  faults : s.held.faults = []
  held : s.loaded = none → s.held.held = []

def Inv (d : Driver κ ρ γ) (s : State ρ γ) : Prop :=
  match s.loaded with
  | none => s.held = Held.empty
  | some globals => s.held.faults = [] ∧ d.exit globals s.held = Held.empty

variable {d : Driver κ ρ γ} {s t : State ρ γ} {a : Act κ}

theorem inv_init : Inv d State.init := by
  rw [Inv]
  rfl

theorem Inv.clean (h : Inv d s) : Clean s := by
  rw [Inv] at h
  split at h
  · refine ⟨?_, fun _ => ?_⟩ <;> rw [h] <;> rfl
  · rename_i globals hloaded
    refine ⟨h.1, fun hnone => ?_⟩
    rw [hloaded] at hnone
    cases hnone

theorem Inv.load {calls : κ} (hd : ∀ calls, Unwinds d.exit (d.init calls Held.empty)) (h : Inv d s)
    (hstep : step d s (.load calls) = some t) : Inv d t := by
  simp only [step] at hstep
  split at hstep
  · cases hstep
  · rename_i hloaded
    rw [Inv, hloaded] at h
    have hunwinds := hd calls
    rw [h] at hstep
    split at hstep
    · rename_i held e hinit
      rw [hinit] at hunwinds
      rw [← Option.some.inj hstep]
      exact hunwinds
    · rename_i held globals hinit
      rw [hinit] at hunwinds
      rw [← Option.some.inj hstep]
      exact hunwinds

theorem Inv.unload (h : Inv d s) (hstep : step d s .unload = some t) : Inv d t := by
  simp only [step] at hstep
  split at hstep
  · rename_i globals hloaded
    rw [Inv, hloaded] at h
    rw [← Option.some.inj hstep]
    exact h.2
  · cases hstep

/-- **Run.**  A driver whose labels and whose exit function undo what stands before them is clean after
any loads and unloads, whichever calls fail. -/
theorem clean_run (hd : ∀ calls, Unwinds d.exit (d.init calls Held.empty)) (acts : List (Act κ)) :
    Throughout (step d) Clean State.init acts := by
  have hstep : ∀ s a t, Inv d s → step d s a = some t → Inv d t := by
    intro s a t h hstep
    cases a with
    | load calls => exact h.load hd hstep
    | unload => exact h.unload hstep
  exact throughout_of_invariant hstep (fun _ h => h.clean) inv_init

end Lifetimes
