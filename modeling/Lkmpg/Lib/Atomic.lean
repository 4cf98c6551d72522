import Lkmpg.Lib.Transition

/-!
# Calls that are atomic

What a client sees of an object that several processes use at once is a history of calls and returns.
The history is linearizable if each call could have taken effect in one moment between the two.

`apply v op` is what the call `op` leaves of the value `v` and returns, when nothing else goes on;
`none` means that the object must not be called so.  `Behaves` is the object that does in one moment
what `apply` says, and lets time go by before and after it.  A machine is shown to be as good by a
simulation: `linearizable_of_simulation`.
-/

namespace Atomic

open Transition

variable {σ ω ρ ι : Type*}

/-- What a client sees. -/
inductive Event (ι ω ρ : Type*) where
  | call (i : ι) (op : ω)
  | ret (i : ι) (r : ρ)
  deriving DecidableEq

/-- Where a process is in its call. -/
inductive Phase (ω ρ : Type*) where
  | idle
  /-- before the moment -/
  | called (op : ω)
  /-- after the moment -/
  | done (r : ρ)

structure Conf (σ ω ρ ι : Type*) where
  obj : σ
  phase : ι → Phase ω ρ

/-- Nobody has called. -/
def Conf.init (v : σ) : Conf σ ω ρ ι := ⟨v, fun _ => .idle⟩

variable [DecidableEq ι]

def Conf.setPhase (c : Conf σ ω ρ ι) (i : ι) (p : Phase ω ρ) : Conf σ ω ρ ι :=
  { c with phase := Function.update c.phase i p }

/-- The atomic object, from one state to another with a history of calls and returns. -/
inductive Behaves (apply : σ → ω → Option (σ × ρ)) :
    Conf σ ω ρ ι → List (Event ι ω ρ) → Conf σ ω ρ ι → Prop where
  | nil (c : Conf σ ω ρ ι) : Behaves apply c [] c
  | call {c d : Conf σ ω ρ ι} {h : List (Event ι ω ρ)} {i : ι} (op : ω)
      (hidle : c.phase i = .idle) (hrest : Behaves apply (c.setPhase i (.called op)) h d) :
      Behaves apply c (.call i op :: h) d
  /-- the moment -/
  | effect {c d : Conf σ ω ρ ι} {h : List (Event ι ω ρ)} {i : ι} {op : ω} {v : σ} {r : ρ}
      (hcalled : c.phase i = .called op) (happly : apply c.obj op = some (v, r))
      (hrest : Behaves apply ({ c with obj := v }.setPhase i (.done r)) h d) :
      Behaves apply c h d
  | ret {c d : Conf σ ω ρ ι} {h : List (Event ι ω ρ)} {i : ι} {r : ρ}
      (hdone : c.phase i = .done r) (hrest : Behaves apply (c.setPhase i .idle) h d) :
      Behaves apply c (.ret i r :: h) d

/-- Each call of the history takes effect in one moment between the call and its return, and those
that have not returned in one moment or not yet. -/
def Linearizable (apply : σ → ω → Option (σ × ρ)) (v : σ) (h : List (Event ι ω ρ)) : Prop :=
  ∃ d, Behaves apply (Conf.init v) h d

section Behaves

variable {apply : σ → ω → Option (σ × ρ)} {c d e : Conf σ ω ρ ι} {h h' : List (Event ι ω ρ)} {i : ι}

theorem setPhase_setPhase (c : Conf σ ω ρ ι) (i : ι) (p q : Phase ω ρ) :
    (c.setPhase i p).setPhase i q = c.setPhase i q := by
  simp [Conf.setPhase]

theorem setPhase_self {p : Phase ω ρ} (hp : c.phase i = p) : c.setPhase i p = c := by
  rw [Conf.setPhase, ← hp, Function.update_eq_self]

theorem Behaves.append (hcd : Behaves apply c h d) (hde : Behaves apply d h' e) :
    Behaves apply c (h ++ h') e := by
  induction hcd with
  | nil c => exact hde
  | call op hidle hrest ih => exact .call op hidle (ih hde)
  | effect hcalled happly hrest ih => exact .effect hcalled happly (ih hde)
  | ret hdone hrest ih => exact .ret hdone (ih hde)

/-- A call that takes effect and returns. -/
theorem Behaves.finish {op : ω} {v : σ} {r : ρ} (hcalled : c.phase i = .called op)
    (happly : apply c.obj op = some (v, r)) :
    Behaves apply c [.ret i r] ({ c with obj := v }.setPhase i .idle) := by
  refine .effect hcalled happly (.ret (Function.update_self _ _ _) ?_)
  rw [setPhase_setPhase]
  exact .nil _

/-- A call from beginning to end. -/
theorem Behaves.whole {op : ω} {v : σ} {r : ρ} (hidle : c.phase i = .idle)
    (happly : apply c.obj op = some (v, r)) :
    Behaves apply c [.call i op, .ret i r] { c with obj := v } := by
  have hend := Behaves.finish (c := c.setPhase i (.called op)) (Function.update_self _ _ _) happly
  have hsame : { c.setPhase i (.called op) with obj := v }.setPhase i .idle = { c with obj := v } := by
    show ({ c with obj := v }.setPhase i (.called op)).setPhase i .idle = _
    rw [setPhase_setPhase]
    exact setPhase_self (c := { c with obj := v }) hidle
  rw [hsame] at hend
  exact .call op hidle hend

/-- A process has called what meets `P`, and got what `Q` allows. -/
def Phase.Meets (P : ω → Prop) (Q : ω → ρ → Prop) : Phase ω ρ → Prop
  | .idle => True
  | .called op => P op
  | .done r => ∃ op, P op ∧ Q op r

/-- **Reply rule.**  If the calls that meet `P` keep the value as `I` says, and get from such a value
what `Q` allows, then so does every call of a history whose calls all meet `P`. -/
theorem Behaves.replies {I : σ → Prop} {P : ι → ω → Prop} {Q : ω → ρ → Prop}
    (hI : ∀ v i op w r, I v → P i op → apply v op = some (w, r) → I w ∧ Q op r)
    (hbehaves : Behaves apply c h d) (hobj : I c.obj) (hcalls : ∀ i op, .call i op ∈ h → P i op)
    (hphase : ∀ i, (c.phase i).Meets (P i) Q) :
    ∀ i r, .ret i r ∈ h → ∃ op, P i op ∧ Q op r := by
  have hset : ∀ (c : Conf σ ω ρ ι) i (p : Phase ω ρ), (∀ j, (c.phase j).Meets (P j) Q) →
      p.Meets (P i) Q → ∀ j, ((c.setPhase i p).phase j).Meets (P j) Q := fun c i p hc hp =>
    (Function.forall_update_iff c.phase fun j p => p.Meets (P j) Q).mpr ⟨hp, fun j _ => hc j⟩
  induction hbehaves with
  | nil c => exact nofun
  | @call c d h i op hidle hrest ih =>
      have hop : P i op := hcalls i op List.mem_cons_self
      intro j r hmem
      exact ih hobj (fun k o hk => hcalls k o (List.mem_cons_of_mem _ hk)) (hset c i _ hphase hop) j r
        ((List.mem_cons.mp hmem).resolve_left nofun)
  | @effect c d h i op v r hcalled happly hrest ih =>
      have hop : P i op := by
        have hmeets := hphase i
        rw [hcalled] at hmeets
        exact hmeets
      obtain ⟨hnext, hreply⟩ := hI _ i _ _ _ hobj hop happly
      exact ih hnext hcalls (hset _ i _ hphase ⟨op, hop, hreply⟩)
  | @ret c d h i r hdone hrest ih =>
      intro j q hmem
      rcases List.mem_cons.mp hmem with hhead | htail
      · obtain ⟨rfl, rfl⟩ := Event.ret.inj hhead
        have hmeets := hphase j
        rw [hdone] at hmeets
        exact hmeets
      · exact ih hobj (fun k o hk => hcalls k o (List.mem_cons_of_mem _ hk))
          (hset c i _ hphase trivial) j q htail

theorem Linearizable.replies {I : σ → Prop} {P : ι → ω → Prop} {Q : ω → ρ → Prop}
    (hI : ∀ v i op w r, I v → P i op → apply v op = some (w, r) → I w ∧ Q op r) {v : σ}
    (hlin : Linearizable apply v h) (hv : I v) (hcalls : ∀ i op, .call i op ∈ h → P i op) :
    ∀ i r, .ret i r ∈ h → ∃ op, P i op ∧ Q op r := by
  obtain ⟨d, hbehaves⟩ := hlin
  exact hbehaves.replies hI hv hcalls fun _ => trivial

/-- **Simulation rule.**  If the atomic object can follow each step of a machine with what the step
emits, then it can follow a run. -/
theorem linearizable_of_simulation {τ ℓ : Type*} {step : τ → ℓ → Option τ}
    {emit : τ → ℓ → List (Event ι ω ρ)} {R : τ → Conf σ ω ρ ι → Prop}
    (hstep : ∀ s l t c, R s c → step s l = some t →
      ∃ d, Behaves apply c (emit s l) d ∧ R t d)
    {s t : τ} {v : σ} {ls : List ℓ} (hs : R s (Conf.init v)) (hrun : run step s ls = some t) :
    Linearizable apply v (events step emit s ls) := by
  suffices hfollow : ∀ c, R s c → ∃ d, Behaves apply c (events step emit s ls) d from
    hfollow _ hs
  clear hs
  induction ls generalizing s with
  | nil =>
      intro c hc
      exact ⟨c, .nil c⟩
  | cons l ls ih =>
      intro c hc
      obtain ⟨u, hu, hrest⟩ := run_cons_eq_some.mp hrun
      obtain ⟨d, hcd, hd⟩ := hstep s l u c hc hu
      obtain ⟨e, hde⟩ := ih hrest d hd
      refine ⟨e, ?_⟩
      rw [events, hu]
      exact hcd.append hde

end Behaves

end Atomic
