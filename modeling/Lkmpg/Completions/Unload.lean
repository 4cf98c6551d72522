import Lkmpg.Lib.CString
import Lkmpg.Lib.Transition

/-!
# Unloading `completions.c`

Each of the two threads signals its completion with `complete_all` and goes on to
`kthread_complete_and_exit`, which signals it once more and does not return to the module.
`completions_exit` waits for the completions, and cannot tell the two signals apart: it can return
while a thread stands between them, in module code that is then freed.
-/

namespace Lkmpg.Completions

open CString Transition

/-! ### Completions -/

/-- `struct completion`: the number of `complete` calls that nobody has waited for yet, or the mark
of `complete_all`. -/
inductive Completion where
  | count (done : ℕ)
  | all
  deriving DecidableEq

/-- `complete` -/
def Completion.complete : Completion → Completion
  | .count done => .count (done + 1)
  | .all => .all

/-- `wait_for_completion`; `none` while it blocks. -/
def Completion.wait : Completion → Option Completion
  | .count 0 => none
  | .count (done + 1) => some (.count done)
  | .all => some .all

/-! ### The module -/

inductive Thread where
  | crank
  | flywheel
  deriving DecidableEq

/-- Where a thread is. -/
inductive ThreadPc where
  /-- `wait_for_completion(&crank_comp)` -/
  | wait
  /-- `pr_info` -/
  | print
  /-- `complete_all` -/
  | completeAll
  /-- the call of `kthread_complete_and_exit` -/
  | callExit
  /-- in `kthread_complete_and_exit`, before its `complete` -/
  | complete
  | gone
  deriving DecidableEq

/-- Where `completions_exit` is. -/
inductive ExitPc where
  | notCalled
  /-- `wait_for_completion(&crank_comp)` -/
  | waitCrank
  /-- `wait_for_completion(&flywheel_comp)` -/
  | waitFlywheel
  /-- `pr_info` -/
  | print
  | ret
  | returned
  deriving DecidableEq

/-- The text of the thread's `pr_info`. -/
def Thread.message : Thread → List Byte
  | .crank => bytes "Turn the crank\n"
  | .flywheel => bytes "Flywheel spins up\n"

/-- The first instruction of the thread. -/
def Thread.entry : Thread → ThreadPc
  | .crank => .print
  | .flywheel => .wait

structure State where
  /-- `crank_comp` and `flywheel_comp` -/
  comp : Thread → Completion
  pc : Thread → ThreadPc
  exit : ExitPc
  /-- what has been printed, oldest first -/
  log : List (List Byte)

/-- After `completions_init` has succeeded. -/
def State.init : State :=
  ⟨fun _ => .count 0, Thread.entry, .notCalled, [bytes "completions example\n"]⟩

inductive Act where
  /-- the next step of a thread -/
  | thread (i : Thread)
  /-- the next step of `completions_exit` -/
  | completionsExit
  deriving DecidableEq

def State.setPc (s : State) (i : Thread) (pc : ThreadPc) : State :=
  { s with pc := Function.update s.pc i pc }

def completionsStep (s : State) : Act → Option State
  | .thread i =>
      match s.pc i with
      | .wait => (s.comp .crank).wait.map fun c =>
          { s.setPc i .print with comp := Function.update s.comp .crank c }
      | .print => some { s.setPc i .completeAll with log := s.log ++ [i.message] }
      | .completeAll => some { s.setPc i .callExit with comp := Function.update s.comp i .all }
      | .callExit => some (s.setPc i .complete)
      | .complete =>
          some { s.setPc i .gone with comp := Function.update s.comp i (s.comp i).complete }
      | .gone => none
  | .completionsExit =>
      match s.exit with
      | .notCalled => some { s with exit := .waitCrank }
      | .waitCrank => (s.comp .crank).wait.map fun c =>
          { s with exit := .waitFlywheel, comp := Function.update s.comp .crank c }
      | .waitFlywheel => (s.comp .flywheel).wait.map fun c =>
          { s with exit := .print, comp := Function.update s.comp .flywheel c }
      | .print => some { s with exit := .ret, log := s.log ++ [bytes "completions exit\n"] }
      | .ret => some { s with exit := .returned }
      | .returned => none

/-! ### What unloading must meet -/

/-- The thread has yet to execute an instruction of the module. -/
def ThreadPc.inModule : ThreadPc → Bool
  | .wait => true
  | .print => true
  | .completeAll => true
  | .callExit => true
  | .complete => false
  | .gone => false

/-- Each message of the flywheel comes after one of the crank. -/
def Ordered (log : List (List Byte)) : Prop :=
  ∀ before after, log = before ++ Thread.flywheel.message :: after → Thread.crank.message ∈ before

/-- The messages are in order, and when `completions_exit` has returned no thread is in the
module. -/
structure Safe (s : State) : Prop where
  ordered : Ordered s.log
  unloadable : s.exit = .returned → ∀ i, (s.pc i).inModule = false

/-- When `completions_exit` returns, no thread stands between its `complete_all` and its
`kthread_complete_and_exit`. -/
def Clear (s : State) : Act → Prop
  | .completionsExit => s.exit = .ret → ∀ i, s.pc i ≠ .callExit
  | .thread _ => True

/-! ### What the completions tell -/

/-- The thread has executed its `complete_all`. -/
def ThreadPc.signalled : ThreadPc → Bool
  | .callExit => true
  | .complete => true
  | .gone => true
  | _ => false

/-- The thread has printed its message. -/
def ThreadPc.printed : ThreadPc → Bool
  | .wait => false
  | .print => false
  | _ => true

def ExitPc.pastCrank : ExitPc → Bool
  | .notCalled => false
  | .waitCrank => false
  | _ => true

def ExitPc.pastFlywheel : ExitPc → Bool
  | .print => true
  | .ret => true
  | .returned => true
  | _ => false

structure Signals (s : State) : Prop where
  comp : ∀ i, s.comp i = if (s.pc i).signalled then .all else .count 0
  printed : (s.pc .crank).printed = true → Thread.crank.message ∈ s.log
  waited : s.pc .flywheel ≠ .wait → (s.pc .crank).signalled = true
  crank : s.exit.pastCrank = true → (s.pc .crank).signalled = true
  flywheel : s.exit.pastFlywheel = true → (s.pc .flywheel).signalled = true
  ordered : Ordered s.log

theorem printed_of_signalled {pc : ThreadPc} (h : pc.signalled = true) : pc.printed = true := by
  cases pc <;> first | rfl | cases h

/-- A waiter that goes on has been let through by `complete_all`, and leaves the mark. -/
theorem wait_eq_some {b : Bool} {c : Completion}
    (h : (if b then Completion.all else .count 0).wait = some c) : b = true ∧ c = .all := by
  cases b with
  | false => cases h
  | true => exact ⟨rfl, (Option.some.inj h).symm⟩

/-- One more message. -/
theorem Ordered.append {log : List (List Byte)} (h : Ordered log) {m : List Byte}
    (hm : m = Thread.flywheel.message → Thread.crank.message ∈ log) : Ordered (log ++ [m]) := by
  intro before after heq
  rcases List.eq_nil_or_concat after with rfl | ⟨after, last, rfl⟩
  · obtain ⟨rfl, hlast⟩ := List.append_inj' heq rfl
    exact hm (List.cons.inj hlast).1
  · rw [List.concat_eq_append, ← List.cons_append, ← List.append_assoc] at heq
    exact h before after (List.append_inj' heq rfl).1

theorem signals_init : Signals State.init where
  comp i := by cases i <;> rfl
  printed := nofun
  waited h := absurd rfl h
  crank := nofun
  flywheel := nofun
  ordered before after h := by
    rcases before with _ | ⟨first, rest⟩
    · exact absurd (List.cons.inj h).1 (by decide)
    · exact absurd (List.append_eq_nil_iff.mp (List.cons.inj h).2.symm).2 nofun

theorem signalled_update {s : State} {i : Thread} {pc : ThreadPc}
    (hpc : (s.pc i).signalled = true → pc.signalled = true) (j : Thread)
    (h : (s.pc j).signalled = true) : (Function.update s.pc i pc j).signalled = true :=
  (Function.forall_update_iff s.pc
    fun k pc => (s.pc k).signalled = true → pc.signalled = true).mpr ⟨hpc, fun _ _ => id⟩ j h

/-- A thread moves. -/
theorem Signals.move {s : State} (hs : Signals s) {i : Thread} {pc : ThreadPc}
    {comp : Thread → Completion} {log : List (List Byte)}
    (hcomp : ∀ j, comp j = if (Function.update s.pc i pc j).signalled then .all else .count 0)
    (hpc : (s.pc i).signalled = true → pc.signalled = true)
    (hlog : ∀ m ∈ s.log, m ∈ log)
    (hprinted : i = .crank → pc.printed = true → Thread.crank.message ∈ log)
    (hwaited : i = .flywheel → (s.pc .crank).signalled = true)
    (hordered : Ordered log) :
    Signals { s with comp := comp, pc := Function.update s.pc i pc, log := log } where
  comp := hcomp
  printed h := by
    replace h : (Function.update s.pc i pc .crank).printed = true := h
    by_cases hi : i = .crank
    · subst hi
      rw [Function.update_self] at h
      exact hprinted rfl h
    · rw [Function.update_of_ne (Ne.symm hi)] at h
      exact hlog _ (hs.printed h)
  waited h := by
    refine signalled_update hpc .crank ?_
    cases i with
    | crank =>
        replace h : Function.update s.pc .crank pc .flywheel ≠ .wait := h
        rw [Function.update_of_ne (by decide)] at h
        exact hs.waited h
    | flywheel => exact hwaited rfl
  crank h := signalled_update hpc .crank (hs.crank h)
  flywheel h := signalled_update hpc .flywheel (hs.flywheel h)
  ordered := hordered

/-- A completion that keeps its value. -/
theorem Signals.comp_update {s : State} (hs : Signals s) {i : Thread} {pc : ThreadPc}
    (hpc : pc.signalled = (s.pc i).signalled) (j : Thread) :
    s.comp j = if (Function.update s.pc i pc j).signalled then .all else .count 0 := by
  refine (Function.forall_update_iff s.pc
    fun k pc => s.comp k = if pc.signalled then .all else .count 0).mpr ⟨?_, fun k _ => hs.comp k⟩ j
  rw [hpc]
  exact hs.comp i

/-- A completion that is set to the value that it has. -/
theorem update_comp_of_eq {s : State} {i : Thread} {c : Completion} (h : s.comp i = c) :
    Function.update s.comp i c = s.comp := by
  rw [← h, Function.update_eq_self]

/-- A waiter that goes on has been let through by the thread's `complete_all`. -/
theorem Signals.of_wait {s : State} (hs : Signals s) {i : Thread} {c : Completion}
    (h : (s.comp i).wait = some c) :
    (s.pc i).signalled = true ∧ Function.update s.comp i c = s.comp := by
  have hcomp := hs.comp i
  rw [hcomp] at h
  obtain ⟨hsig, rfl⟩ := wait_eq_some h
  refine ⟨hsig, update_comp_of_eq ?_⟩
  rw [hcomp, if_pos hsig]

/-- The flywheel thread has waited for the crank. -/
theorem Signals.waited_of_eq {s : State} (hs : Signals s) {i : Thread} {pc : ThreadPc}
    (hi : s.pc i = pc) (hpc : pc ≠ .wait) (hfly : i = .flywheel) :
    (s.pc .crank).signalled = true :=
  hs.waited fun hwait => hpc (hi.symm.trans (hfly ▸ hwait))

/-- The crank thread has printed its message. -/
theorem Signals.printed_of_eq {s : State} (hs : Signals s) {i : Thread} {pc : ThreadPc}
    (hi : s.pc i = pc) (hpc : pc.printed = true) (hcrank : i = .crank) :
    Thread.crank.message ∈ s.log :=
  hs.printed (by rw [← hcrank, hi, hpc])

/-- A thread goes on. -/
theorem Signals.thread_step {s t : State} {i : Thread} (hs : Signals s)
    (h : completionsStep s (.thread i) = some t) : Signals t := by
  simp only [completionsStep] at h
  split at h
  · -- `wait_for_completion(&crank_comp)`
    rename_i hi
    obtain ⟨c, hc, rfl⟩ := Option.map_eq_some_iff.mp h
    obtain ⟨hsig, hcomp⟩ := hs.of_wait hc
    rw [hcomp]
    refine hs.move (hs.comp_update (by rw [hi]; rfl)) (fun h => ?_) (fun _ => id) (fun hcrank => ?_)
      (fun _ => hsig) hs.ordered
    · rw [hi] at h
      cases h
    · exact nofun
  · -- the message
    rename_i hi
    obtain rfl := Option.some.inj h
    refine hs.move (hs.comp_update (by rw [hi]; rfl)) (fun h => ?_)
      (fun m hm => List.mem_append_left _ hm) (fun hcrank _ => ?_)
      (hs.waited_of_eq hi nofun) (hs.ordered.append fun hfly => ?_)
    · rw [hi] at h
      cases h
    · rw [hcrank]
      exact List.mem_append_right _ List.mem_cons_self
    · have hthread : i = .flywheel := by
        cases i with
        | crank => exact absurd hfly (by decide)
        | flywheel => rfl
      exact hs.printed (printed_of_signalled (hs.waited_of_eq hi nofun hthread))
  · -- `complete_all`
    rename_i hi
    obtain rfl := Option.some.inj h
    refine hs.move (fun j => ?_) (fun _ => rfl) (fun _ => id)
      (fun hcrank _ => hs.printed_of_eq hi rfl hcrank) (hs.waited_of_eq hi nofun) hs.ordered
    by_cases hji : j = i
    · rw [hji, Function.update_self, Function.update_self]
      rfl
    · rw [Function.update_of_ne hji, Function.update_of_ne hji]
      exact hs.comp j
  · rename_i hi
    obtain rfl := Option.some.inj h
    exact hs.move (hs.comp_update (by rw [hi]; rfl)) (fun _ => rfl) (fun _ => id)
      (fun hcrank _ => hs.printed_of_eq hi rfl hcrank) (hs.waited_of_eq hi nofun) hs.ordered
  · -- the second signal
    rename_i hi
    obtain rfl := Option.some.inj h
    have hcomp : Function.update s.comp i (s.comp i).complete = s.comp := by
      refine update_comp_of_eq ?_
      rw [hs.comp i, hi]
      rfl
    rw [hcomp]
    exact hs.move (hs.comp_update (by rw [hi]; rfl)) (fun _ => rfl) (fun _ => id)
      (fun hcrank _ => hs.printed_of_eq hi rfl hcrank) (hs.waited_of_eq hi nofun) hs.ordered
  · cases h

/-- `completions_exit` goes on. -/
theorem Signals.exit_step {s t : State} (hs : Signals s)
    (h : completionsStep s .completionsExit = some t) : Signals t := by
  simp only [completionsStep] at h
  split at h
  · obtain rfl := Option.some.inj h
    exact ⟨hs.comp, hs.printed, hs.waited, nofun, nofun, hs.ordered⟩
  · obtain ⟨c, hc, rfl⟩ := Option.map_eq_some_iff.mp h
    obtain ⟨hsig, hcomp⟩ := hs.of_wait hc
    rw [hcomp]
    exact ⟨hs.comp, hs.printed, hs.waited, fun _ => hsig, nofun, hs.ordered⟩
  · rename_i hexit
    obtain ⟨c, hc, rfl⟩ := Option.map_eq_some_iff.mp h
    obtain ⟨hsig, hcomp⟩ := hs.of_wait hc
    rw [hcomp]
    exact ⟨hs.comp, hs.printed, hs.waited, fun _ => hs.crank (by rw [hexit]; rfl),
      fun _ => hsig, hs.ordered⟩
  · rename_i hexit
    obtain rfl := Option.some.inj h
    exact ⟨hs.comp, fun h => List.mem_append_left _ (hs.printed h), hs.waited,
      fun _ => hs.crank (by rw [hexit]; rfl), fun _ => hs.flywheel (by rw [hexit]; rfl),
      hs.ordered.append fun hfly => absurd hfly (by decide)⟩
  · rename_i hexit
    obtain rfl := Option.some.inj h
    exact ⟨hs.comp, hs.printed, hs.waited, fun _ => hs.crank (by rw [hexit]; rfl),
      fun _ => hs.flywheel (by rw [hexit]; rfl), hs.ordered⟩
  · cases h

/-- **Step.**  The completions tell how far the threads have come. -/
theorem Signals.step {s t : State} {act : Act} (hs : Signals s)
    (h : completionsStep s act = some t) : Signals t := by
  cases act with
  | thread i => exact hs.thread_step h
  | completionsExit => exact hs.exit_step h

/-! ### When unloading is safe -/

/-- A thread that has left the module does not come back. -/
theorem inModule_of_step {s t : State} {i : Thread} (h : completionsStep s (.thread i) = some t)
    (hout : ∀ j, (s.pc j).inModule = false) (j : Thread) : (t.pc j).inModule = false := by
  have hi := hout i
  simp only [completionsStep] at h
  split at h
  all_goals rename_i hpc
  all_goals rw [hpc] at hi
  all_goals try cases hi
  · obtain rfl := Option.some.inj h
    exact (Function.forall_update_iff s.pc fun _ pc => pc.inModule = false).mpr
      ⟨rfl, fun k _ => hout k⟩ j
  · cases h

theorem exit_of_step {s t : State} {i : Thread} (h : completionsStep s (.thread i) = some t) :
    t.exit = s.exit := by
  simp only [completionsStep] at h
  split at h
  · obtain ⟨c, -, rfl⟩ := Option.map_eq_some_iff.mp h
    rfl
  all_goals first | cases h; done | obtain rfl := Option.some.inj h; rfl

/-- A thread that has signalled and has not reached `kthread_complete_and_exit` stands between the
two signals. -/
theorem inModule_iff {pc : ThreadPc} (h : pc.signalled = true) :
    pc.inModule = false ↔ pc ≠ .callExit := by
  cases pc with
  | wait => cases h
  | print => cases h
  | completeAll => cases h
  | callExit => exact iff_of_false nofun fun hne => hne rfl
  | complete => exact iff_of_true rfl nofun
  | gone => exact iff_of_true rfl nofun

/-- **Step.**  From a safe state, the steps that meet the condition are those to a safe state. -/
theorem clear_iff_safe {s t : State} {act : Act} (hs : Signals s) (hsafe : Safe s)
    (h : completionsStep s act = some t) : Clear s act ↔ Safe t := by
  have ht : Signals t := hs.step h
  cases act with
  | thread i =>
      refine iff_of_true trivial ⟨ht.ordered, fun hret => ?_⟩
      rw [exit_of_step h] at hret
      exact inModule_of_step h (hsafe.unloadable hret)
  | completionsExit =>
      simp only [completionsStep] at h
      split at h
      case h_5 hexit =>
        obtain rfl := Option.some.inj h
        have hsig : ∀ i, (s.pc i).signalled = true := by
          intro i
          cases i with
          | crank => exact hs.crank (by rw [hexit]; rfl)
          | flywheel => exact hs.flywheel (by rw [hexit]; rfl)
        constructor
        · intro hclear
          exact ⟨hs.ordered, fun _ i => (inModule_iff (hsig i)).mpr (hclear hexit i)⟩
        · intro hafter _ i
          exact (inModule_iff (hsig i)).mp (hafter.unloadable rfl i)
      all_goals
        rename_i hexit
        refine iff_of_true (fun hret => absurd (hexit.symm.trans hret) nofun) ⟨ht.ordered, ?_⟩
      case h_1 =>
        obtain rfl := Option.some.inj h
        exact nofun
      case h_2 =>
        obtain ⟨c, -, rfl⟩ := Option.map_eq_some_iff.mp h
        exact nofun
      case h_3 =>
        obtain ⟨c, -, rfl⟩ := Option.map_eq_some_iff.mp h
        exact nofun
      case h_4 =>
        obtain rfl := Option.some.inj h
        exact nofun
      case h_6 => cases h

/-- **Unloading.**  In every interleaving of the two threads and `completions_exit`: the messages are
in order in every state, and no thread is in the module when `completions_exit` has returned, if
and only if no thread stands between its `complete_all` and its `kthread_complete_and_exit` when it
returns. -/
theorem unload_safe_iff (acts : List Act) :
    Throughout completionsStep Safe State.init acts ↔
      Along completionsStep Clear State.init acts := by
  refine throughout_iff_along (I := Signals) (fun s act hnone => ?_)
    (fun s act t hs _ _ h => hs.step h) (fun s act t hs hsafe h => clear_iff_safe hs hsafe h)
    signals_init ⟨signals_init.ordered, nofun⟩
  cases act with
  | thread i => trivial
  | completionsExit =>
      intro hret
      rw [completionsStep, hret] at hnone
      cases hnone

/-- **Messages.**  The message of the flywheel never comes before that of the crank. -/
theorem ordered_of_run {acts : List Act} {s : State}
    (hrun : run completionsStep State.init acts = some s) : Ordered s.log :=
  (run_invariant (fun _ _ _ hs h => Signals.step hs h) signals_init hrun).ordered

/-! ### A thread that is overtaken -/

/-- The crank thread signals its completion and is interrupted; the flywheel thread runs to its end,
and the module is unloaded. -/
def overtaken : List Act :=
  List.replicate 2 (.thread .crank) ++ List.replicate 5 (.thread .flywheel) ++
    List.replicate 5 .completionsExit

theorem not_unload_safe :
    ¬∀ acts : List Act, Throughout completionsStep Safe State.init acts := by
  intro hall
  obtain ⟨s, hrun, hret, hcrank⟩ : ∃ s, run completionsStep State.init overtaken = some s ∧
      s.exit = .returned ∧ s.pc .crank = .callExit := ⟨_, rfl, rfl, rfl⟩
  have hout := ((hall overtaken).last hrun).unloadable hret .crank
  rw [hcrank] at hout
  cases hout

end Lkmpg.Completions
