import Lkmpg.Lib.Transition
import Mathlib.Data.Fin.Basic
import Mathlib.Data.Nat.Notation

/-!
# Deferred work of `bottomhalf.c`

Each button interrupt runs `button_isr`, which queues `bottomhalf_work`; a worker of the system
workqueue runs `bottomhalf_work_fn`, at leisure.  `bottomhalf_exit` frees the interrupt lines, and
after that no handler runs and nothing is queued any more; for the work that has been queued before
it does not wait.
-/

namespace Lkmpg.Bottomhalf

open Transition

/-- Where `button_isr` is, on one of the interrupt lines. -/
inductive IsrPc where
  /-- not running -/
  | idle
  /-- the LED -/
  | led
  /-- `schedule_work` -/
  | scheduleWork
  deriving DecidableEq

/-- Where the worker is. -/
inductive WorkerPc where
  /-- not running `bottomhalf_work_fn` -/
  | idle
  | starts
  /-- `msleep(500)` -/
  | sleeps
  | ends
  deriving DecidableEq

/-- Where `bottomhalf_exit` is. -/
inductive ExitPc where
  | notCalled
  /-- `free_irq` of a line: it takes the handler away -/
  | freeIrq (k : Fin 2)
  /-- `free_irq` of a line: it waits for a running handler -/
  | synchronize (k : Fin 2)
  /-- turn all LEDs off -/
  | ledsOff
  /-- free the GPIOs -/
  | unregister
  | ret
  | returned
  deriving DecidableEq

structure State where
  /-- whether the line has a handler -/
  registered : Fin 2 → Bool
  isr : Fin 2 → IsrPc
  led : Bool
  /-- whether `bottomhalf_work` is in the workqueue -/
  queued : Bool
  worker : WorkerPc
  exit : ExitPc
  /-- how many calls of `schedule_work` have queued the work -/
  scheduled : ℕ
  /-- how many runs of `bottomhalf_work_fn` have ended -/
  finished : ℕ

/-- After `bottomhalf_init` has succeeded. -/
def State.init : State := ⟨fun _ => true, fun _ => .idle, false, false, .idle, .notCalled, 0, 0⟩

inductive Act where
  /-- a button interrupt -/
  | interrupt (k : Fin 2)
  /-- the next step of `button_isr` on a line -/
  | isr (k : Fin 2)
  /-- the next step of the worker -/
  | worker
  /-- the next step of `bottomhalf_exit` -/
  | bottomhalfExit
  deriving DecidableEq

/-- `schedule_work`: it does nothing while the work is in the queue. -/
def State.scheduleWork (s : State) : State :=
  if s.queued then s else { s with queued := true, scheduled := s.scheduled + 1 }

/-- What `button_isr` does with the LED. -/
def isrLed (k : Fin 2) (led : Bool) : Bool :=
  if k = 0 ∧ led = false then true else if k = 1 ∧ led = true then false else led

def State.setIsr (s : State) (k : Fin 2) (pc : IsrPc) : State :=
  { s with isr := Function.update s.isr k pc }

def bottomhalfStep (s : State) : Act → Option State
  | .interrupt k => if s.registered k ∧ s.isr k = .idle then some (s.setIsr k .led) else none
  | .isr k =>
      match s.isr k with
      | .idle => none
      | .led => some { s.setIsr k .scheduleWork with led := isrLed k s.led }
      | .scheduleWork => some (s.scheduleWork.setIsr k .idle)
  | .worker =>
      match s.worker with
      | .idle => if s.queued then some { s with queued := false, worker := .starts } else none
      | .starts => some { s with worker := .sleeps }
      | .sleeps => some { s with worker := .ends }
      | .ends => some { s with worker := .idle, finished := s.finished + 1 }
  | .bottomhalfExit =>
      match s.exit with
      | .notCalled => some { s with exit := .freeIrq 0 }
      | .freeIrq k =>
          some { s with exit := .synchronize k, registered := Function.update s.registered k false }
      | .synchronize k =>
          if s.isr k = .idle then
            some { s with exit := if k = 0 then .freeIrq 1 else .ledsOff }
          else none
      | .ledsOff => some { s with exit := .unregister, led := false }
      | .unregister => some { s with exit := .ret }
      | .ret => some { s with exit := .returned }
      | .returned => none

/-- An interrupt starts the handler of a line that is still registered. -/
theorem interrupt_eq_some {s t : State} {k : Fin 2} (h : bottomhalfStep s (.interrupt k) = some t) :
    (s.registered k ∧ s.isr k = .idle) ∧ t = s.setIsr k .led := by
  obtain ⟨hfree, hnext⟩ := Option.ite_none_right_eq_some.mp h
  exact ⟨hfree, (Option.some.inj hnext).symm⟩

/-- `button_isr` sets the LED, and then schedules the work. -/
theorem isr_eq_some {s t : State} {k : Fin 2} (h : bottomhalfStep s (.isr k) = some t) :
    (s.isr k = .led ∧ t = { s.setIsr k .scheduleWork with led := isrLed k s.led }) ∨
      (s.isr k = .scheduleWork ∧ t = s.scheduleWork.setIsr k .idle) := by
  rw [bottomhalfStep] at h
  split at h
  · cases h
  · rename_i hk
    exact Or.inl ⟨hk, (Option.some.inj h).symm⟩
  · rename_i hk
    exact Or.inr ⟨hk, (Option.some.inj h).symm⟩

/-! ### What is to hold after `bottomhalf_exit` -/

/-- When `bottomhalf_exit` has returned, `bottomhalf_work` is neither queued nor running. -/
def NoWorkLeft (s : State) : Prop := s.exit = .returned → s.queued = false ∧ s.worker = .idle

/-- When `bottomhalf_exit` returns, each run of `bottomhalf_work_fn` that has been asked for has
ended. -/
def AllFinished (s : State) : Act → Prop
  | .bottomhalfExit => s.exit = .ret → s.finished = s.scheduled
  | _ => True

/-! ### Work and handlers -/

/-- `free_irq` of the line has taken the handler away. -/
def ExitPc.freed : ExitPc → Fin 2 → Bool
  | .notCalled, _ => false
  | .freeIrq j, k => k.val < j.val
  | .synchronize j, k => k.val ≤ j.val
  | _, _ => true

/-- `free_irq` of the line has returned. -/
def ExitPc.drained : ExitPc → Fin 2 → Bool
  | .notCalled, _ => false
  | .freeIrq j, k => k.val < j.val
  | .synchronize j, k => k.val < j.val
  | _, _ => true

structure Accounted (s : State) : Prop where
  /-- Each run asked for has ended, is under way or is waiting in the queue. -/
  runs : s.scheduled = s.finished + s.queued.toNat + (decide (s.worker ≠ .idle)).toNat
  freed : ∀ k, s.exit.freed k = true → s.registered k = false
  drained : ∀ k, s.exit.drained k = true → s.isr k = .idle

theorem accounted_init : Accounted State.init := ⟨rfl, nofun, nofun⟩

theorem freed_of_drained {e : ExitPc} {k : Fin 2} (h : e.drained k = true) : e.freed k = true := by
  cases e with
  | synchronize j =>
      have hlt : k.val < j.val := of_decide_eq_true h
      exact decide_eq_true (Nat.le_of_lt hlt)
  | _ => exact h

/-- A handler that runs is on a line that `free_irq` has not returned from. -/
theorem Accounted.setIsr {s : State} (hs : Accounted s) {k : Fin 2} {pc : IsrPc}
    (h : s.exit.drained k = true → pc = .idle) : Accounted (s.setIsr k pc) where
  runs := hs.runs
  freed := hs.freed
  drained := (Function.forall_update_iff s.isr fun j l => s.exit.drained j = true → l = .idle).mpr
    ⟨h, fun j _ => hs.drained j⟩

theorem Accounted.scheduleWork {s : State} (hs : Accounted s) : Accounted s.scheduleWork := by
  rw [State.scheduleWork]
  split
  · exact hs
  · rename_i hqueued
    have hruns := hs.runs
    rw [Bool.not_eq_true] at hqueued
    rw [hqueued, Bool.toNat_false] at hruns
    refine ⟨?_, hs.freed, hs.drained⟩
    show s.scheduled + 1 = s.finished + 1 + (decide (s.worker ≠ .idle)).toNat
    omega

/-- `bottomhalf_exit` goes on. -/
theorem Accounted.setExit {s : State} (hs : Accounted s) {e : ExitPc} {registered : Fin 2 → Bool}
    {led : Bool} (hfreed : ∀ k, e.freed k = true → registered k = false)
    (hdrained : ∀ k, e.drained k = true → s.exit.drained k = true ∨ s.isr k = .idle) :
    Accounted { s with exit := e, registered := registered, led := led } :=
  ⟨hs.runs, hfreed, fun k hk => (hdrained k hk).elim (hs.drained k) id⟩

/-- The worker takes the work from the queue and runs it. -/
theorem Accounted.worker_step {s t : State} (hs : Accounted s)
    (h : bottomhalfStep s .worker = some t) : Accounted t := by
  have hruns := hs.runs
  rw [bottomhalfStep] at h
  split at h
  · rename_i hworker
    split at h
    · rename_i hqueued
      obtain rfl := Option.some.inj h
      refine ⟨?_, hs.freed, hs.drained⟩
      rw [hqueued, hworker] at hruns
      exact hruns
    · cases h
  · rename_i hworker
    obtain rfl := Option.some.inj h
    refine ⟨?_, hs.freed, hs.drained⟩
    rw [hworker] at hruns
    exact hruns
  · rename_i hworker
    obtain rfl := Option.some.inj h
    refine ⟨?_, hs.freed, hs.drained⟩
    rw [hworker] at hruns
    exact hruns
  · rename_i hworker
    obtain rfl := Option.some.inj h
    refine ⟨?_, hs.freed, hs.drained⟩
    rw [hworker] at hruns
    show s.scheduled = s.finished + 1 + s.queued.toNat + 0
    rw [hruns]
    show s.finished + s.queued.toNat + 1 = _
    omega

/-- `bottomhalf_exit` frees the lines one after the other, and waits for the handler of each. -/
theorem Accounted.exit_step {s t : State} (hs : Accounted s)
    (h : bottomhalfStep s .bottomhalfExit = some t) : Accounted t := by
  have hfreed := hs.freed
  cases hexit : s.exit with
  | notCalled =>
      rw [bottomhalfStep, hexit] at h
      obtain rfl := Option.some.inj h
      refine hs.setExit (fun k hk => ?_) fun k hk => ?_
      all_goals
        have hlt : k.val < 0 := of_decide_eq_true hk
        omega
  | freeIrq j =>
      rw [bottomhalfStep, hexit] at h
      obtain rfl := Option.some.inj h
      rw [hexit] at hfreed
      refine hs.setExit (fun k hk => ?_) fun k hk => Or.inl (hexit ▸ hk)
      by_cases hkj : k = j
      · rw [hkj, Function.update_self]
      · have hle : k.val ≤ j.val := of_decide_eq_true hk
        have hne : k.val ≠ j.val := fun hval => hkj (Fin.ext hval)
        rw [Function.update_of_ne hkj]
        exact hfreed k (decide_eq_true (show k.val < j.val by omega))
  | synchronize j =>
      simp only [bottomhalfStep, hexit] at h
      obtain ⟨hidle, hnext⟩ := Option.ite_none_right_eq_some.mp h
      obtain rfl := Option.some.inj hnext
      rw [hexit] at hfreed
      have hdone : ∀ k : Fin 2, k.val ≤ j.val → s.exit.drained k = true ∨ s.isr k = .idle := by
        intro k hk
        by_cases hkj : k = j
        · exact Or.inr (hkj ▸ hidle)
        · have hne : k.val ≠ j.val := fun hval => hkj (Fin.ext hval)
          rw [hexit]
          exact Or.inl (decide_eq_true (show k.val < j.val by omega))
      by_cases hj : j = 0
      · rw [if_pos hj]
        refine hs.setExit (fun k hk => hfreed k (decide_eq_true ?_)) fun k hk => hdone k ?_
        all_goals
          have hlt : k.val < 1 := of_decide_eq_true hk
          omega
      · have hlast : j.val = 1 := by omega
        rw [if_neg hj]
        exact hs.setExit (fun k _ => hfreed k (decide_eq_true (by omega)))
          fun k _ => hdone k (by omega)
  | returned =>
      rw [bottomhalfStep, hexit] at h
      cases h
  | _ =>
      -- both lines are freed
      rw [bottomhalfStep, hexit] at h
      obtain rfl := Option.some.inj h
      exact hs.setExit (fun k _ => hfreed k (hexit ▸ rfl)) fun k _ => Or.inl (hexit ▸ rfl)

/-- **Step.**  Runs are accounted for, and freed lines stay quiet. -/
theorem Accounted.step {s t : State} {act : Act} (hs : Accounted s)
    (h : bottomhalfStep s act = some t) : Accounted t := by
  cases act with
  | interrupt k =>
      obtain ⟨hfree, rfl⟩ := interrupt_eq_some h
      refine hs.setIsr fun hdrained => ?_
      have hreg := hs.freed k (freed_of_drained hdrained)
      exact absurd (hreg.symm.trans hfree.1) Bool.false_ne_true
  | isr k =>
      obtain ⟨hk, rfl⟩ | ⟨-, rfl⟩ := isr_eq_some h
      · have hset : Accounted (s.setIsr k .scheduleWork) := by
          refine hs.setIsr fun hdrained => ?_
          exact absurd (hk.symm.trans (hs.drained k hdrained)) nofun
        exact ⟨hset.runs, hset.freed, hset.drained⟩
      · exact hs.scheduleWork.setIsr fun _ => rfl
  | worker => exact hs.worker_step h
  | bottomhalfExit => exact hs.exit_step h

/-! ### After the return -/

/-- Once both lines are freed no step calls `schedule_work`. -/
theorem Accounted.quiet {s t : State} {act : Act} (hs : Accounted s) (hret : s.exit = .returned)
    (h : bottomhalfStep s act = some t) : act = .worker := by
  cases act with
  | worker => rfl
  | interrupt k =>
      rw [bottomhalfStep, hs.freed k (by rw [hret]; rfl)] at h
      rw [if_neg fun hfree => Bool.false_ne_true hfree.1] at h
      cases h
  | isr k =>
      rw [bottomhalfStep, hs.drained k (by rw [hret]; rfl)] at h
      cases h
  | bottomhalfExit =>
      rw [bottomhalfStep, hret] at h
      cases h

/-- **Frame.**  The worker asks for no run, and leaves `bottomhalf_exit` where it is. -/
theorem worker_frame {s t : State} (h : bottomhalfStep s .worker = some t) :
    t.exit = s.exit ∧ t.scheduled = s.scheduled := by
  cases hworker : s.worker with
  | idle =>
      simp only [bottomhalfStep, hworker] at h
      obtain ⟨-, hnext⟩ := Option.ite_none_right_eq_some.mp h
      obtain rfl := Option.some.inj hnext
      exact ⟨rfl, rfl⟩
  | _ =>
      rw [bottomhalfStep, hworker] at h
      obtain rfl := Option.some.inj h
      exact ⟨rfl, rfl⟩

/-- **Never again.**  Whatever is left when `bottomhalf_exit` has returned, `bottomhalf_work` is not
queued any more. -/
theorem scheduled_of_returned {acts acts' : List Act} {s t : State}
    (hrun : run bottomhalfStep State.init acts = some s) (hret : s.exit = .returned)
    (hrun' : run bottomhalfStep s acts' = some t) : t.scheduled = s.scheduled := by
  have hs : Accounted s := run_invariant (fun _ _ _ hu h => Accounted.step hu h) accounted_init hrun
  have hkeep : ∀ u act v, Accounted u ∧ u.exit = .returned ∧ u.scheduled = s.scheduled →
      bottomhalfStep u act = some v →
      Accounted v ∧ v.exit = .returned ∧ v.scheduled = s.scheduled := by
    rintro u act v ⟨hacc, huret, hsame⟩ h
    refine ⟨hacc.step h, ?_⟩
    obtain rfl := hacc.quiet huret h
    obtain ⟨hexit, hscheduled⟩ := worker_frame h
    exact ⟨hexit.trans huret, hscheduled.trans hsame⟩
  exact (run_invariant hkeep ⟨hs, hret, rfl⟩ hrun').2.2

/-- Whether any work is left can be read off the numbers of runs. -/
theorem Accounted.idle_iff {s : State} (hs : Accounted s) :
    (s.queued = false ∧ s.worker = .idle) ↔ s.finished = s.scheduled := by
  rw [hs.runs]
  constructor
  · rintro ⟨hqueued, hworker⟩
    rw [hqueued, hworker]
    rfl
  · intro hsame
    have hqueued : s.queued.toNat = 0 := by omega
    have hworker : (decide (s.worker ≠ .idle)).toNat = 0 := by omega
    rw [Bool.toNat_eq_zero] at hqueued hworker
    exact ⟨hqueued, not_not.mp (of_decide_eq_false hworker)⟩

/-- `bottomhalf_exit` returns by its last step only. -/
theorem exit_eq_returned {s t : State} {act : Act} (h : bottomhalfStep s act = some t)
    (ht : t.exit = .returned) : s.exit = .returned ∨ (act = .bottomhalfExit ∧ s.exit = .ret) := by
  cases act with
  | interrupt k =>
      obtain ⟨-, rfl⟩ := interrupt_eq_some h
      exact Or.inl ht
  | isr k =>
      obtain ⟨-, rfl⟩ | ⟨-, rfl⟩ := isr_eq_some h
      · exact Or.inl ht
      · replace ht : s.scheduleWork.exit = .returned := ht
        rw [State.scheduleWork] at ht
        split at ht <;> exact Or.inl ht
  | worker => exact Or.inl ((worker_frame h).1.symm.trans ht)
  | bottomhalfExit =>
      cases hexit : s.exit with
      | returned => exact Or.inl rfl
      | ret => exact Or.inr ⟨rfl, rfl⟩
      | synchronize j =>
          simp only [bottomhalfStep, hexit] at h
          obtain ⟨-, hnext⟩ := Option.ite_none_right_eq_some.mp h
          obtain rfl := Option.some.inj hnext
          replace ht : (if j = 0 then ExitPc.freeIrq 1 else .ledsOff) = .returned := ht
          split at ht <;> cases ht
      | _ =>
          rw [bottomhalfStep, hexit] at h
          obtain rfl := Option.some.inj h
          cases ht

/-- **Step.**  From a state with the property, the steps that meet the condition are those to a state
with the property. -/
theorem allFinished_iff {s t : State} {act : Act} (hs : Accounted s) (hP : NoWorkLeft s)
    (h : bottomhalfStep s act = some t) : AllFinished s act ↔ NoWorkLeft t := by
  by_cases hret : s.exit = .returned
  · -- nothing is left to be done
    obtain ⟨hqueued, hworker⟩ := hP hret
    obtain rfl := hs.quiet hret h
    rw [bottomhalfStep, hworker, hqueued] at h
    cases h
  · by_cases hact : act = .bottomhalfExit ∧ s.exit = .ret
    · obtain ⟨rfl, hexit⟩ := hact
      rw [bottomhalfStep, hexit] at h
      obtain rfl := Option.some.inj h
      constructor
      · exact fun hC _ => hs.idle_iff.mpr (hC hexit)
      · exact fun hdone _ => hs.idle_iff.mp (hdone rfl)
    · refine iff_of_true ?_ fun ht => absurd (exit_eq_returned h ht) (not_or.mpr ⟨hret, hact⟩)
      cases act with
      | bottomhalfExit => exact fun hexit => absurd ⟨rfl, hexit⟩ hact
      | _ => trivial

/-- **Deferred work.**  In every interleaving of interrupts, the worker and `bottomhalf_exit`: after the
return of `bottomhalf_exit` the work is neither queued nor running, in any state, if and only if at
its return each run of `bottomhalf_work_fn` that has been asked for has ended. -/
theorem no_work_left_iff (acts : List Act) :
    Throughout bottomhalfStep NoWorkLeft State.init acts ↔
      Along bottomhalfStep AllFinished State.init acts := by
  refine throughout_iff_along (I := Accounted) (fun s act hnone => ?_)
    (fun s act t hs _ _ h => hs.step h) (fun s act t hs hP h => allFinished_iff hs hP h)
    accounted_init nofun
  cases act with
  | bottomhalfExit =>
      intro hret
      rw [bottomhalfStep, hret] at hnone
      cases hnone
  | _ => trivial

/-! ### Work that is left -/

/-- A button is pressed, the handler queues the work, and the module is unloaded before the worker
gets to it. -/
def pressed : List Act :=
  [.interrupt 0, .isr 0, .isr 0] ++ List.replicate 8 .bottomhalfExit

theorem not_no_work_left :
    ¬∀ acts : List Act, Throughout bottomhalfStep NoWorkLeft State.init acts := by
  intro hall
  obtain ⟨s, hrun, hret, hqueued⟩ : ∃ s, run bottomhalfStep State.init pressed = some s ∧
      s.exit = .returned ∧ s.queued = true := ⟨_, rfl, rfl, rfl⟩
  have hdone := ((hall pressed).last hrun hret).1
  rw [hqueued] at hdone
  cases hdone

end Lkmpg.Bottomhalf
