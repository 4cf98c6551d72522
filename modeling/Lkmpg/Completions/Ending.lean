import Lkmpg.Completions.Unload
import Lkmpg.Lib.Progress

/-!
# How a run of `completions.c` ends

The order of the two threads and of `completions_exit` is left to the scheduler, but not what they
print: every run prints the same messages in the same order.  Nobody waits for ever, and when nothing
can go on, all has been done.
-/

namespace Lkmpg.Completions

open CString Transition

/-- What is printed from the load to the unload of the module. -/
def messages : List (List Byte) :=
  [bytes "completions example\n", Thread.crank.message, Thread.flywheel.message,
    bytes "completions exit\n"]

/-- The message of `completions_exit` has been printed. -/
def ExitPc.printed : ExitPc → Bool
  | .ret => true
  | .returned => true
  | _ => false

/-- How many messages have been printed. -/
def State.printed (s : State) : ℕ :=
  1 + (s.pc .crank).printed.toNat + (s.pc .flywheel).printed.toNat + s.exit.printed.toNat

/-- The steps that the thread has still to take. -/
def ThreadPc.todo : ThreadPc → ℕ
  | .wait => 5
  | .print => 4
  | .completeAll => 3
  | .callExit => 2
  | .complete => 1
  | .gone => 0

def ExitPc.todo : ExitPc → ℕ
  | .notCalled => 5
  | .waitCrank => 4
  | .waitFlywheel => 3
  | .print => 2
  | .ret => 1
  | .returned => 0

def State.todo (s : State) : ℕ := (s.pc .crank).todo + (s.pc .flywheel).todo + s.exit.todo

/-! ### What a step does -/

inductive Effect (s : State) : Act → State → Prop
  | goesOn (i : Thread) (pc : ThreadPc) (comp : Thread → Completion)
      (htodo : pc.todo + 1 = (s.pc i).todo) (hprinted : pc.printed = (s.pc i).printed) :
      Effect s (.thread i) { s with comp := comp, pc := Function.update s.pc i pc }
  | prints (i : Thread) (hi : s.pc i = .print) :
      Effect s (.thread i)
        { s with pc := Function.update s.pc i .completeAll, log := s.log ++ [i.message] }
  | exitGoesOn (exit : ExitPc) (comp : Thread → Completion) (htodo : exit.todo + 1 = s.exit.todo)
      (hprinted : exit.printed = s.exit.printed) :
      Effect s .completionsExit { s with comp := comp, exit := exit }
  | exitPrints (hexit : s.exit = .print) :
      Effect s .completionsExit
        { s with exit := .ret, log := s.log ++ [bytes "completions exit\n"] }

variable {s t : State} {i : Thread} {act : Act} {acts : List Act}

theorem effect_thread (h : completionsStep s (.thread i) = some t) : Effect s (.thread i) t := by
  simp only [completionsStep] at h
  split at h
  · rename_i hi
    obtain ⟨c, -, rfl⟩ := Option.map_eq_some_iff.mp h
    exact .goesOn _ _ _ (by rw [hi]; rfl) (by rw [hi]; rfl)
  · rename_i hi
    obtain rfl := Option.some.inj h
    exact .prints _ hi
  · rename_i hi
    obtain rfl := Option.some.inj h
    exact .goesOn _ _ _ (by rw [hi]; rfl) (by rw [hi]; rfl)
  · rename_i hi
    obtain rfl := Option.some.inj h
    exact .goesOn _ _ _ (by rw [hi]; rfl) (by rw [hi]; rfl)
  · rename_i hi
    obtain rfl := Option.some.inj h
    exact .goesOn _ _ _ (by rw [hi]; rfl) (by rw [hi]; rfl)
  · cases h

theorem effect_exit (h : completionsStep s .completionsExit = some t) :
    Effect s .completionsExit t := by
  simp only [completionsStep] at h
  split at h
  · rename_i hexit
    obtain rfl := Option.some.inj h
    exact .exitGoesOn _ _ (by rw [hexit]; rfl) (by rw [hexit]; rfl)
  · rename_i hexit
    obtain ⟨c, -, rfl⟩ := Option.map_eq_some_iff.mp h
    exact .exitGoesOn _ _ (by rw [hexit]; rfl) (by rw [hexit]; rfl)
  · rename_i hexit
    obtain ⟨c, -, rfl⟩ := Option.map_eq_some_iff.mp h
    exact .exitGoesOn _ _ (by rw [hexit]; rfl) (by rw [hexit]; rfl)
  · rename_i hexit
    obtain rfl := Option.some.inj h
    exact .exitPrints hexit
  · rename_i hexit
    obtain rfl := Option.some.inj h
    exact .exitGoesOn _ _ (by rw [hexit]; rfl) (by rw [hexit]; rfl)
  · cases h

/-- **Inversion.** -/
theorem effect_of_step (h : completionsStep s act = some t) : Effect s act t := by
  cases act with
  | thread i => exact effect_thread h
  | completionsExit => exact effect_exit h

/-- Each step is one of those that were to be taken. -/
theorem Effect.todo (h : Effect s act t) : t.todo + 1 = s.todo := by
  cases h with
  | goesOn i pc comp htodo _ =>
      cases i <;> simp [State.todo] <;> omega
  | prints i hi =>
      cases i <;> simp [State.todo, hi, ThreadPc.todo] <;> omega
  | exitGoesOn exit comp htodo _ =>
      simp only [State.todo]
      omega
  | exitPrints hexit =>
      simp only [State.todo, hexit, ExitPc.todo]

/-! ### The messages -/

/-- What has been printed follows from where the threads and `completions_exit` are. -/
structure Told (s : State) : Prop where
  signals : Signals s
  crank : s.pc .crank ≠ .wait
  log : s.log = messages.take s.printed

theorem told_init : Told State.init := ⟨signals_init, nofun, by decide⟩

/-- Before the crank has printed, nobody else has. -/
theorem Told.crank_first (hs : Told s) (hcrank : s.pc .crank = .print) : s.printed = 1 := by
  have hnot : ¬(s.pc .crank).signalled = true := by simp [hcrank, ThreadPc.signalled]
  have hfly : s.pc .flywheel = .wait := not_not.mp fun hne => hnot (hs.signals.waited hne)
  have hexit : s.exit.printed = false := by
    cases hpc : s.exit <;> first | rfl | exact absurd (hs.signals.crank (by rw [hpc]; rfl)) hnot
  simp [State.printed, hcrank, hfly, hexit, ThreadPc.printed]

/-- When the flywheel prints, the crank has printed and `completions_exit` has not. -/
theorem Told.flywheel_second (hs : Told s) (hfly : s.pc .flywheel = .print) : s.printed = 2 := by
  have hcrank := printed_of_signalled (hs.signals.waited (by rw [hfly]; nofun))
  have hnot : ¬(s.pc .flywheel).signalled = true := by simp [hfly, ThreadPc.signalled]
  have hexit : s.exit.printed = false := by
    cases hpc : s.exit <;> first | rfl | exact absurd (hs.signals.flywheel (by rw [hpc]; rfl)) hnot
  have hflywheel : (s.pc .flywheel).printed = false := by rw [hfly]; rfl
  simp [State.printed, hcrank, hflywheel, hexit]

/-- When `completions_exit` prints, both threads have. -/
theorem Told.exit_third (hs : Told s) (hexit : s.exit = .print) : s.printed = 3 := by
  have hcrank := printed_of_signalled (hs.signals.crank (by rw [hexit]; rfl))
  have hfly := printed_of_signalled (hs.signals.flywheel (by rw [hexit]; rfl))
  simp [State.printed, hcrank, hfly, hexit, ExitPc.printed]

/-- The next message is printed. -/
theorem Told.log_append (hs : Told s) {m : List Byte} (hnext : messages[s.printed]? = some m) :
    s.log ++ [m] = messages.take (s.printed + 1) := by
  rw [hs.log, List.take_add_one, hnext]
  rfl

/-- **Step.** -/
theorem Told.step (hs : Told s) (h : completionsStep s act = some t) : Told t := by
  have hsignals := hs.signals.step h
  cases effect_of_step h with
  | goesOn i pc comp htodo hprinted =>
      have hpc : pc ≠ .wait := by
        rintro rfl
        have hle : (s.pc i).todo ≤ 5 := by cases s.pc i <;> decide
        simp only [ThreadPc.todo] at htodo hle
        omega
      refine ⟨hsignals, ?_, ?_⟩
      · cases i with
        | crank => simpa using hpc
        | flywheel => simpa using hs.crank
      · rw [hs.log]
        cases i <;> simp [State.printed, hprinted]
  | prints i hi =>
      cases i with
      | crank =>
          have hlog := hs.log_append (by rw [hs.crank_first hi]; rfl)
          refine ⟨hsignals, by simp, hlog.trans ?_⟩
          simp [State.printed, hi, ThreadPc.printed]
          omega
      | flywheel =>
          have hlog := hs.log_append (by rw [hs.flywheel_second hi]; rfl)
          refine ⟨hsignals, by simpa using hs.crank, hlog.trans ?_⟩
          simp [State.printed, hi, ThreadPc.printed]
          omega
  | exitGoesOn exit comp htodo hprinted =>
      refine ⟨hsignals, hs.crank, ?_⟩
      rw [hs.log]
      simp [State.printed, hprinted]
  | exitPrints hexit =>
      have hlog := hs.log_append (by rw [hs.exit_third hexit]; rfl)
      refine ⟨hsignals, hs.crank, hlog.trans ?_⟩
      simp [State.printed, hexit, ExitPc.printed]

/-! ### Runs -/

/-- Where nothing can go on, nothing is left to do. -/
theorem Told.todo_of_stuck (hs : Told s) (hstuck : ∀ act, completionsStep s act = none) :
    s.todo = 0 := by
  have hcomp := hs.signals.comp
  have hcrank : s.pc .crank = .gone := by
    have hstep := hstuck (.thread .crank)
    cases hpc : s.pc .crank with
    | wait => exact absurd hpc hs.crank
    | gone => rfl
    | _ => simp [completionsStep, hpc] at hstep
  have hfly : s.pc .flywheel = .gone := by
    have hstep := hstuck (.thread .flywheel)
    cases hpc : s.pc .flywheel with
    | wait => simp [completionsStep, hpc, hcomp, hcrank, ThreadPc.signalled, Completion.wait] at hstep
    | gone => rfl
    | _ => simp [completionsStep, hpc] at hstep
  have hexit : s.exit = .returned := by
    have hstep := hstuck .completionsExit
    cases hpc : s.exit with
    | waitCrank =>
        simp [completionsStep, hpc, hcomp, hcrank, ThreadPc.signalled, Completion.wait] at hstep
    | waitFlywheel =>
        simp [completionsStep, hpc, hcomp, hfly, ThreadPc.signalled, Completion.wait] at hstep
    | returned => rfl
    | _ => simp [completionsStep, hpc] at hstep
  simp [State.todo, hcrank, hfly, hexit, ThreadPc.todo, ExitPc.todo]

/-- Nothing is left to do only when the threads are gone and `completions_exit` has returned. -/
theorem todo_eq_zero (h : s.todo = 0) : (∀ i, s.pc i = .gone) ∧ s.exit = .returned := by
  simp only [State.todo, Nat.add_eq_zero_iff] at h
  have hgone : ∀ pc : ThreadPc, pc.todo = 0 → pc = .gone := by
    intro pc hpc
    cases pc <;> first | rfl | cases hpc
  refine ⟨fun i => ?_, ?_⟩
  · cases i with
    | crank => exact hgone _ h.1.1
    | flywheel => exact hgone _ h.1.2
  · cases hexit : s.exit <;> simp [hexit, ExitPc.todo] at h ⊢

/-- **Ending.**  However the threads and `completions_exit` are scheduled, the messages come in one
order, and a run that cannot go on has taken 14 steps and printed all of them, both threads are gone,
and `completions_exit` has returned. -/
theorem unload_ends (hrun : run completionsStep State.init acts = some s) :
    s.log <+: messages ∧ acts.length ≤ 14 ∧
      ((∀ act, completionsStep s act = none) →
        acts.length = 14 ∧ s.log = messages ∧ (∀ i, s.pc i = .gone) ∧ s.exit = .returned) := by
  have hs : Told s := run_invariant (fun _ _ _ hu h => hu.step h) told_init hrun
  have hcount : acts.length + s.todo = State.init.todo :=
    run_length_eq (fun _ _ _ h => (effect_of_step h).todo) hrun
  have hall : State.init.todo = 14 := rfl
  refine ⟨hs.log ▸ List.take_prefix _ _, by omega, fun hstuck => ?_⟩
  have htodo := hs.todo_of_stuck hstuck
  obtain ⟨hgone, hexit⟩ := todo_eq_zero htodo
  refine ⟨by omega, ?_, hgone, hexit⟩
  rw [hs.log]
  simp [State.printed, hgone, hexit, ThreadPc.printed, ExitPc.printed, messages]

/-- `completions_exit` is called first, and waits. -/
def exitFirst : List Act :=
  [.completionsExit, .thread .crank, .thread .crank, .thread .flywheel, .completionsExit,
    .thread .flywheel, .thread .crank, .thread .flywheel, .completionsExit, .thread .crank,
    .thread .flywheel, .thread .flywheel, .completionsExit, .completionsExit]

theorem unload_ends_exitFirst :
    ∃ s, run completionsStep State.init exitFirst = some s ∧ s.log = messages ∧
      ∀ i, s.pc i = .gone := by
  obtain ⟨s, hrun, hgone, hexit⟩ : ∃ s, run completionsStep State.init exitFirst = some s ∧
      (∀ i, s.pc i = .gone) ∧ s.exit = .returned :=
    ⟨_, rfl, fun i => by cases i <;> rfl, rfl⟩
  obtain ⟨-, hlog, hpc, -⟩ := (unload_ends hrun).2.2 fun act => by
    cases act <;> simp [completionsStep, hgone, hexit]
  exact ⟨s, hrun, hlog, hpc⟩

end Lkmpg.Completions
