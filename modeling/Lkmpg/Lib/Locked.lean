import Lkmpg.Lib.Atomic

/-!
# Calls under one lock

A value that is only touched with one lock held can be changed in as many steps as one likes: the
calls are atomic, with the effect that each has when it runs alone.

`Code` is what the calls do: before the lock only what needs no value, under it one step after the
other.  `Exec` runs a call alone to its end, and `Implements` says that each call comes to one and
does what `apply` says.  `linearizable` is about all interleavings, and `released` says that the lock
is not kept for ever.
-/

namespace Locked

open Atomic Transition

variable {σ ω ρ κ ι : Type*}

structure Code (σ ω ρ κ : Type*) where
  /-- A call returns before it asks for the lock, or goes on with its variables `κ`. -/
  enter : ω → Except ρ κ
  /-- A step under the lock; the last one unlocks and returns. -/
  micro : σ → κ → σ × (κ ⊕ ρ)

inductive Pc (κ : Type*) where
  | idle
  /-- in `mutex_lock` -/
  | waiting (k : κ)
  | holding (k : κ)

structure State (σ κ ι : Type*) where
  shared : σ
  /-- who has the lock -/
  owner : Option ι
  pc : ι → Pc κ

def State.init (v : σ) : State σ κ ι := ⟨v, none, fun _ => .idle⟩

inductive Act (ι ω : Type*) where
  | call (i : ι) (op : ω)
  | lock (i : ι)
  | micro (i : ι)

/-- A call alone, from where it is to its end. -/
inductive Exec (C : Code σ ω ρ κ) : σ → κ → σ → ρ → Prop where
  | last {v w : σ} {k : κ} {r : ρ} (h : C.micro v k = (w, .inr r)) : Exec C v k w r
  | next {v w x : σ} {k l : κ} {r : ρ} (h : C.micro v k = (w, .inl l)) (hrest : Exec C w l x r) :
      Exec C v k x r

/-- Each call comes to its end and does what `apply` says, when it is alone. -/
structure Implements (C : Code σ ω ρ κ) (apply : σ → ω → Option (σ × ρ)) : Prop where
  returned : ∀ op r, C.enter op = .error r → ∀ v, apply v op = some (v, r)
  ended : ∀ op k, C.enter op = .ok k → ∀ v, ∃ w r, Exec C v k w r ∧ apply v op = some (w, r)

variable [DecidableEq ι]

def State.setPc (s : State σ κ ι) (i : ι) (pc : Pc κ) : State σ κ ι :=
  { s with pc := Function.update s.pc i pc }

def step (C : Code σ ω ρ κ) (s : State σ κ ι) : Act ι ω → Option (State σ κ ι)
  | .call i op =>
      match s.pc i with
      | .idle =>
          match C.enter op with
          | .error _ => some s
          | .ok k => some (s.setPc i (.waiting k))
      | _ => none
  | .lock i =>
      match s.pc i, s.owner with
      | .waiting k, none => some ({ s with owner := some i }.setPc i (.holding k))
      | _, _ => none
  | .micro i =>
      match s.pc i with
      | .holding k =>
          match C.micro s.shared k with
          | (v, .inl l) => some ({ s with shared := v }.setPc i (.holding l))
          | (v, .inr _) => some ({ s with shared := v, owner := none }.setPc i .idle)
      | _ => none

/-- The calls and returns of a step. -/
def emit (C : Code σ ω ρ κ) (s : State σ κ ι) : Act ι ω → List (Event ι ω ρ)
  | .call i op =>
      match C.enter op with
      | .error r => [.call i op, .ret i r]
      | .ok _ => [.call i op]
  | .lock _ => []
  | .micro i =>
      match s.pc i with
      | .holding k =>
          match (C.micro s.shared k).2 with
          | .inl _ => []
          | .inr r => [.ret i r]
      | _ => []

/-- The calls and returns of a run. -/
def history (C : Code σ ω ρ κ) (v : σ) (acts : List (Act ι ω)) : List (Event ι ω ρ) :=
  events (step C) (emit C) (State.init v) acts

/-! ### The simulation -/

variable {C : Code σ ω ρ κ} {apply : σ → ω → Option (σ × ρ)}

/-- What a process still does is what the atomic object has to do for it. -/
def Stage (C : Code σ ω ρ κ) (apply : σ → ω → Option (σ × ρ)) (s : State σ κ ι)
    (c : Conf σ ω ρ ι) (i : ι) : Prop :=
  match s.pc i with
  | .idle => c.phase i = .idle
  | .waiting k => ∃ op, c.phase i = .called op ∧ C.enter op = .ok k
  | .holding k => s.owner = some i ∧
      ∃ op w r, c.phase i = .called op ∧ apply c.obj op = some (w, r) ∧ Exec C s.shared k w r

structure Rel (C : Code σ ω ρ κ) (apply : σ → ω → Option (σ × ρ)) (s : State σ κ ι)
    (c : Conf σ ω ρ ι) : Prop where
  stage : ∀ i, Stage C apply s c i
  free : s.owner = none → c.obj = s.shared
  held : ∀ i, s.owner = some i → ∃ k, s.pc i = .holding k

section Step

variable {s t : State σ κ ι} {c d : Conf σ ω ρ ι} {i j : ι} {l : Pc κ} {p : Phase ω ρ}

omit [DecidableEq ι] in
/-- The others do not notice a step of the process that has the lock, takes it or releases it, and
none of a process that waits for it. -/
theorem Stage.frame (h : Stage C apply s c j) (hpc : t.pc j = s.pc j) (hphase : d.phase j = c.phase j)
    (hlock : s.owner = some j → t.owner = s.owner ∧ t.shared = s.shared ∧ d.obj = c.obj) :
    Stage C apply t d j := by
  unfold Stage at h ⊢
  rw [hpc, hphase]
  cases hj : s.pc j with
  | idle =>
      rw [hj] at h
      exact h
  | waiting k =>
      rw [hj] at h
      exact h
  | holding k =>
      rw [hj] at h
      obtain ⟨howner, op, w, r, hcalled, happly, hexec⟩ := h
      obtain ⟨hsame, hshared, hobj⟩ := hlock howner
      rw [hsame, hshared, hobj]
      exact ⟨howner, op, w, r, hcalled, happly, hexec⟩

/-- One process goes on, and the others are where they were. -/
theorem stage_update (h : ∀ j, Stage C apply s c j) (hi : Stage C apply t d i)
    (hpc : t.pc = Function.update s.pc i l) (hphase : d.phase = Function.update c.phase i p)
    (hlock : ∀ j, j ≠ i → s.owner = some j →
      t.owner = s.owner ∧ t.shared = s.shared ∧ d.obj = c.obj) :
    ∀ j, Stage C apply t d j := by
  intro j
  by_cases hj : j = i
  · rw [hj]
    exact hi
  · refine (h j).frame ?_ ?_ (hlock j hj)
    · rw [hpc, Function.update_of_ne hj]
    · rw [hphase, Function.update_of_ne hj]

/-- A call that returns before the lock, or goes for it. -/
theorem Rel.call (hC : Implements C apply) (h : Rel C apply s c) {op : ω}
    (hstep : step C s (.call i op) = some t) :
    ∃ d, Behaves apply c (emit C s (.call i op)) d ∧ Rel C apply t d := by
  have hstage := h.stage i
  rw [Stage] at hstage
  simp only [step] at hstep
  cases hpc : s.pc i with
  | idle =>
      rw [hpc] at hstage hstep
      simp only [emit]
      cases henter : C.enter op with
      | error r =>
          rw [henter] at hstep
          obtain rfl := Option.some.inj hstep
          exact ⟨c, .whole hstage (hC.returned op r henter _), h⟩
      | ok k =>
          rw [henter] at hstep
          obtain rfl := Option.some.inj hstep
          refine ⟨_, .call op hstage (.nil _), ?_, h.free, fun j hj => ?_⟩
          · refine stage_update h.stage ?_ rfl rfl fun _ _ _ => ⟨rfl, rfl, rfl⟩
            simp only [Stage, State.setPc, Function.update_self]
            exact ⟨op, Function.update_self _ _ _, henter⟩
          · obtain ⟨l, hl⟩ := h.held j hj
            have hji : j ≠ i := by
              rintro rfl
              rw [hpc] at hl
              cases hl
            exact ⟨l, (Function.update_of_ne hji _ _).trans hl⟩
  | waiting k =>
      rw [hpc] at hstep
      cases hstep
  | holding k =>
      rw [hpc] at hstep
      cases hstep

/-- With the lock free, the value is that of the atomic object, so the call has it to itself. -/
theorem Rel.lock (hC : Implements C apply) (h : Rel C apply s c)
    (hstep : step C s (.lock i) = some t) : Rel C apply t c := by
  have hstage := h.stage i
  rw [Stage] at hstage
  simp only [step] at hstep
  cases hpc : s.pc i with
  | idle =>
      rw [hpc] at hstep
      cases hstep
  | holding k =>
      rw [hpc] at hstep
      cases hstep
  | waiting k =>
      rw [hpc] at hstage hstep
      obtain ⟨op, hcalled, henter⟩ := hstage
      cases hfree : s.owner with
      | some j =>
          rw [hfree] at hstep
          cases hstep
      | none =>
          rw [hfree] at hstep
          obtain rfl := Option.some.inj hstep
          obtain ⟨w, r, hexec, happly⟩ := hC.ended op k henter s.shared
          rw [← h.free hfree] at happly
          have hnobody : ∀ j, s.owner ≠ some j := fun j => hfree ▸ (Option.some_ne_none j).symm
          refine ⟨?_, fun hnone => absurd hnone (Option.some_ne_none i), fun j hj => ?_⟩
          · refine stage_update (p := c.phase i) h.stage ?_ rfl
              (Function.update_eq_self _ _).symm fun j _ hj => absurd hj (hnobody j)
            simp only [Stage, State.setPc, Function.update_self]
            exact ⟨trivial, op, w, r, hcalled, happly, hexec⟩
          · obtain rfl := Option.some.inj hj
            exact ⟨k, Function.update_self _ _ _⟩

/-- A step under the lock, of which only the last one is seen. -/
theorem Rel.micro (h : Rel C apply s c) (hstep : step C s (.micro i) = some t) :
    ∃ d, Behaves apply c (emit C s (.micro i)) d ∧ Rel C apply t d := by
  have hstage := h.stage i
  rw [Stage] at hstage
  simp only [step] at hstep
  cases hpc : s.pc i with
  | idle =>
      rw [hpc] at hstep
      cases hstep
  | waiting k =>
      rw [hpc] at hstep
      cases hstep
  | holding k =>
      rw [hpc] at hstage hstep
      obtain ⟨howner, op, w, r, hcalled, happly, hexec⟩ := hstage
      have halone : ∀ j, j ≠ i → s.owner ≠ some j := fun j hj hother =>
        hj (Option.some.inj (hother.symm.trans howner))
      simp only [emit, hpc]
      cases hexec with
      | last hlast =>
          simp only [hlast] at hstep ⊢
          obtain rfl := Option.some.inj hstep
          refine ⟨_, Behaves.finish hcalled happly, ?_, fun _ => rfl, nofun⟩
          refine stage_update h.stage ?_ rfl rfl fun j hj hother => absurd hother (halone j hj)
          simp only [Stage, State.setPc, Function.update_self]
          exact Function.update_self _ _ _
      | next hnext hrest =>
          simp only [hnext] at hstep ⊢
          obtain rfl := Option.some.inj hstep
          refine ⟨c, .nil c, ?_, fun hfree => ?_, fun j hj => ?_⟩
          · refine stage_update (p := c.phase i) h.stage ?_ rfl
              (Function.update_eq_self _ _).symm fun j hj hother => absurd hother (halone j hj)
            simp only [Stage, State.setPc, Function.update_self]
            exact ⟨howner, op, w, r, hcalled, happly, hrest⟩
          · exact absurd (howner.symm.trans hfree) (Option.some_ne_none i)
          · obtain rfl := Option.some.inj (howner.symm.trans hj)
            exact ⟨_, Function.update_self _ _ _⟩

/-- **Step.** -/
theorem Rel.step (hC : Implements C apply) {a : Act ι ω} (h : Rel C apply s c)
    (hstep : step C s a = some t) :
    ∃ d, Behaves apply c (emit C s a) d ∧ Rel C apply t d := by
  cases a with
  | call i op => exact h.call hC hstep
  | lock i => exact ⟨c, .nil c, h.lock hC hstep⟩
  | micro i => exact h.micro hstep

omit [DecidableEq ι] in
theorem rel_init (v : σ) : Rel C apply (State.init v : State σ κ ι) (Conf.init v) :=
  ⟨fun _ => rfl, fun _ => rfl, nofun⟩

end Step

/-- **Atomic calls.**  What is seen in an interleaving of the calls of any number of processes is
what is seen of the atomic object. -/
theorem linearizable (hC : Implements C apply) {v : σ} {t : State σ κ ι} {acts : List (Act ι ω)}
    (hrun : run (step C) (State.init v) acts = some t) :
    Linearizable apply v (history C v acts) :=
  linearizable_of_simulation (R := Rel C apply) (fun _ _ _ _ h hstep => h.step hC hstep)
    (rel_init v) hrun

/-- What is left of a call is so many steps. -/
theorem Exec.released {v w : σ} {k : κ} {r : ρ} (h : Exec C v k w r) {s : State σ κ ι} {i : ι}
    (hshared : s.shared = v) (hpc : s.pc i = .holding k) :
    ∃ n u, run (step C) s (List.replicate n (.micro i)) = some u ∧ u.owner = none := by
  induction h generalizing s with
  | @last v w k r hlast =>
      refine ⟨1, { s with shared := w, owner := none }.setPc i .idle,
        run_cons_eq_some.mpr ⟨_, ?_, rfl⟩, rfl⟩
      simp only [step, hpc, hshared, hlast]
  | @next v w x k l r hnext hrest ih =>
      obtain ⟨n, u, hrun, hfree⟩ := ih (s := { s with shared := w }.setPc i (.holding l)) rfl
        (Function.update_self _ _ _)
      refine ⟨n + 1, u, run_cons_eq_some.mpr ⟨_, ?_, hrun⟩, hfree⟩
      simp only [step, hpc, hshared, hnext]

/-- Whoever has the lock comes to unlock it, and needs nobody else for that. -/
theorem released (hC : Implements C apply) {v : σ} {t : State σ κ ι} {acts : List (Act ι ω)}
    (hrun : run (step C) (State.init v) acts = some t) {i : ι} (howner : t.owner = some i) :
    ∃ n u, run (step C) t (List.replicate n (.micro i)) = some u ∧ u.owner = none := by
  obtain ⟨c, h⟩ := run_invariant (fun s a t (hs : ∃ c, Rel C apply s c) hstep => by
      obtain ⟨c, hc⟩ := hs
      obtain ⟨d, -, hd⟩ := hc.step hC hstep
      exact ⟨d, hd⟩)
    ⟨_, rel_init v⟩ hrun
  obtain ⟨k, hpc⟩ := h.held i howner
  have hstage := h.stage i
  rw [Stage, hpc] at hstage
  obtain ⟨-, op, w, r, -, -, hexec⟩ := hstage
  exact hexec.released rfl hpc

end Locked
