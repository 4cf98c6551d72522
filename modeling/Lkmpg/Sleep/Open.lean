import Lkmpg.Lib.ExclusiveFlag
import Lkmpg.Lib.KernelTypes
import Lkmpg.Lib.Transition

/-!
# The blocking open of `sleep.c`

`module_open` takes the file with a `cmpxchg` on `already_open`, fails at once under `O_NONBLOCK`,
and otherwise sleeps in `waitq` until `module_close` or a signal wakes it.  A state is the flag and,
for any number of processes, where each is in `module_open` or `module_close`; `waitq` holds the
processes that are asleep.

`wait_event_interruptible` tests its condition and goes to sleep in one step, and a process that is
woken tests it again; `wake_up` wakes every sleeper.  A process that opens the file twice counts as
two.  Signals arrive at any moment: they change the
words that `module_open` inspects and the flag `signal_pending` that ends the wait.
-/

namespace Lkmpg.Sleep

open ExclusiveFlag Transition

/-- What a process knows about its signals. -/
structure Signals (w : ℕ) where
  /-- `signal_pending(current)` -/
  signalPending : Bool
  /-- `current->pending.signal.sig` and `current->blocked.sig`, word by word -/
  words : List (BitVec w × BitVec w)

inductive Pc where
  /-- not in a call, and without the file -/
  | idle
  /-- `module_open` has returned an error -/
  | failed (e : Errno)
  /-- the first `atomic_cmpxchg` -/
  | firstCas (nonblock : Bool)
  /-- `file->f_flags & O_NONBLOCK` -/
  | testNonblock (nonblock : Bool)
  /-- the `atomic_cmpxchg` of the loop -/
  | loopCas
  /-- the condition of `wait_event_interruptible` -/
  | waitCheck
  | asleep
  /-- the loop over the signal words -/
  | sigCheck
  /-- `module_open` has returned 0 -/
  | opened
  /-- `atomic_set` in `module_close` -/
  | closeSet
  /-- `wake_up` -/
  | closeWake
  deriving DecidableEq, Repr

/-- The process has won a `cmpxchg` and not yet executed the `atomic_set` of its `module_close`. -/
def Pc.Holds : Pc → Prop
  | .opened => True
  | .closeSet => True
  | _ => False

structure State (w : ℕ) (ι : Type) where
  alreadyOpen : ℤ
  pc : ι → Pc
  signals : ι → Signals w

/-- After module load. -/
def State.init {w : ℕ} {ι : Type} : State w ι := ⟨0, fun _ => .idle, fun _ => ⟨false, []⟩⟩

inductive Act (w : ℕ) (ι : Type) where
  /-- a call of `module_open` -/
  | moduleOpen (i : ι) (nonblock : Bool)
  /-- a call of `module_close` -/
  | moduleClose (i : ι)
  | signal (i : ι) (signals : Signals w)
  /-- the next step of a call -/
  | step (i : ι)

variable {w : ℕ} {ι : Type}

/-- `is_sig` after the loop over the signal words: an `int`, so each word is cut to 32 bits. -/
def isSig : List (BitVec w × BitVec w) → BitVec 32 → BitVec 32
  | [], sig => sig
  | (pending, blocked) :: words, sig =>
      if sig = 0 then isSig words ((pending &&& ~~~blocked).setWidth 32) else sig

/-- The next step of `module_open`: the flag and the program counter after it. -/
def openStep (alreadyOpen : ℤ) (signals : Signals w) : Pc → Option (ℤ × Pc)
  | .firstCas nonblock =>
      some ((cmpxchg alreadyOpen 0 1).2,
        if (cmpxchg alreadyOpen 0 1).1 = 0 then .opened else .testNonblock nonblock)
  | .testNonblock nonblock => some (alreadyOpen, if nonblock then .failed .EAGAIN else .loopCas)
  | .loopCas =>
      some ((cmpxchg alreadyOpen 0 1).2,
        if (cmpxchg alreadyOpen 0 1).1 = 0 then .opened else .waitCheck)
  | .waitCheck =>
      some (alreadyOpen,
        if alreadyOpen = 0 ∨ signals.signalPending = true then .sigCheck else .asleep)
  | .sigCheck =>
      some (alreadyOpen, if isSig signals.words 0 = 0 then .loopCas else .failed .EINTR)
  | _ => none

/-- What `wake_up(&waitq)` does to a process. -/
def Pc.wake : Pc → Pc
  | .asleep => .waitCheck
  | pc => pc

variable [DecidableEq ι]

def sleepStep (s : State w ι) : Act w ι → Option (State w ι)
  | .moduleOpen i nonblock =>
      match s.pc i with
      | .idle => some { s with pc := Function.update s.pc i (.firstCas nonblock) }
      | .failed _ => some { s with pc := Function.update s.pc i (.firstCas nonblock) }
      | _ => none
  | .moduleClose i =>
      match s.pc i with
      | .opened => some { s with pc := Function.update s.pc i .closeSet }
      | _ => none
  | .signal i signals =>
      -- a pending signal ends the sleep of `wait_event_interruptible`
      some { s with
        signals := Function.update s.signals i signals
        pc := Function.update s.pc i (if signals.signalPending then (s.pc i).wake else s.pc i) }
  | .step i =>
      match s.pc i with
      | .closeSet => some { s with alreadyOpen := 0, pc := Function.update s.pc i .closeWake }
      | .closeWake => some { s with pc := fun j => (Function.update s.pc i .idle j).wake }
      | pc => (openStep s.alreadyOpen (s.signals i) pc).map fun next =>
          { s with alreadyOpen := next.1, pc := Function.update s.pc i next.2 }

/-! ### What a step does -/

/-- A step of process `i`: one of the two of `module_close`, or one of `module_open`. -/
inductive Stepped (s : State w ι) (i : ι) : State w ι → Prop
  | closeSet (hi : s.pc i = .closeSet) :
      Stepped s i { s with alreadyOpen := 0, pc := Function.update s.pc i .closeWake }
  | closeWake (hi : s.pc i = .closeWake) :
      Stepped s i { s with pc := fun j => (Function.update s.pc i .idle j).wake }
  | opening {v : ℤ} {pc : Pc} (hnext : openStep s.alreadyOpen (s.signals i) (s.pc i) = some (v, pc)) :
      Stepped s i { s with alreadyOpen := v, pc := Function.update s.pc i pc }

section Inversion

variable {s t : State w ι} {i : ι}

theorem step_cases (h : sleepStep s (.step i) = some t) : Stepped s i t := by
  simp only [sleepStep] at h
  split at h
  · rename_i hi
    obtain rfl := Option.some.inj h
    exact .closeSet hi
  · rename_i hi
    obtain rfl := Option.some.inj h
    exact .closeWake hi
  · obtain ⟨⟨v, pc⟩, hnext, rfl⟩ := Option.map_eq_some_iff.mp h
    exact .opening hnext

theorem moduleOpen_eq_some {nonblock : Bool} (h : sleepStep s (.moduleOpen i nonblock) = some t) :
    ¬(s.pc i).Holds ∧ s.pc i ≠ .closeWake ∧
      t = { s with pc := Function.update s.pc i (.firstCas nonblock) } := by
  simp only [sleepStep] at h
  split at h
  · rename_i hi
    rw [hi]
    exact ⟨id, nofun, (Option.some.inj h).symm⟩
  · rename_i e hi
    rw [hi]
    exact ⟨id, nofun, (Option.some.inj h).symm⟩
  · cases h

theorem moduleClose_eq_some (h : sleepStep s (.moduleClose i) = some t) :
    s.pc i = .opened ∧ t = { s with pc := Function.update s.pc i .closeSet } := by
  simp only [sleepStep] at h
  split at h
  · rename_i hi
    exact ⟨hi, (Option.some.inj h).symm⟩
  · cases h

end Inversion

/-! ### The invariant -/

/-- The flag belongs to the process that holds the file; whoever sleeps sleeps because the file is
open, or is about to be woken. -/
structure Safe (s : State w ι) : Prop where
  exclusive : Exclusive Pc.Holds s.alreadyOpen s.pc
  wakes : s.alreadyOpen = 0 → (∀ i, s.pc i ≠ .closeWake) → ∀ i, s.pc i ≠ .asleep

omit [DecidableEq ι] in
theorem safe_init : Safe (State.init : State w ι) where
  exclusive := Or.inr ⟨rfl, fun _ h => h⟩
  wakes := fun _ _ _ => nofun

theorem Pc.holds_wake (pc : Pc) : pc.wake.Holds ↔ pc.Holds := by cases pc <;> rfl

theorem Pc.wake_ne_asleep (pc : Pc) : pc.wake ≠ .asleep := by cases pc <;> exact nofun

/-- **What a step of `module_open` does.**  It takes a free file, or leaves the flag as it is; and
it goes to sleep only while the file is open. -/
theorem openStep_cases {v v' : ℤ} {sg : Signals w} {pc pc' : Pc}
    (h : openStep v sg pc = some (v', pc')) :
    ¬pc.Holds ∧ pc ≠ .closeWake ∧
      ((v = 0 ∧ v' = 1 ∧ pc' = .opened) ∨
        (v' = v ∧ ¬pc'.Holds ∧ pc' ≠ .closeWake ∧ (pc' = .asleep → v ≠ 0))) := by
  have hcas : ∀ pc₂ : Pc, ¬pc₂.Holds → pc₂ ≠ .closeWake → pc₂ ≠ .asleep →
      some ((cmpxchg v 0 1).2, if (cmpxchg v 0 1).1 = 0 then Pc.opened else pc₂) =
        some (v', pc') →
      (v = 0 ∧ v' = 1 ∧ pc' = .opened) ∨
        (v' = v ∧ ¬pc'.Holds ∧ pc' ≠ .closeWake ∧ (pc' = .asleep → v ≠ 0)) := by
    intro pc₂ hholds hwake hasleep h
    obtain ⟨rfl, rfl⟩ := Prod.mk.inj (Option.some.inj h)
    by_cases hv : v = 0
    · exact Or.inl ⟨hv, if_pos hv, if_pos hv⟩
    · refine Or.inr ⟨if_neg hv, ?_⟩
      rw [show (if (cmpxchg v 0 1).1 = 0 then Pc.opened else pc₂) = pc₂ from if_neg hv]
      exact ⟨hholds, hwake, fun h => absurd h hasleep⟩
  cases pc with
  | firstCas nonblock => exact ⟨id, nofun, hcas (.testNonblock nonblock) id nofun nofun h⟩
  | loopCas => exact ⟨id, nofun, hcas .waitCheck id nofun nofun h⟩
  | testNonblock nonblock =>
      refine ⟨id, nofun, Or.inr ?_⟩
      cases nonblock <;> cases h <;> exact ⟨rfl, id, nofun, nofun⟩
  | waitCheck =>
      refine ⟨id, nofun, Or.inr ?_⟩
      obtain ⟨rfl, rfl⟩ := Prod.mk.inj (Option.some.inj h)
      by_cases hcond : v = 0 ∨ sg.signalPending = true
      · rw [if_pos hcond]
        exact ⟨rfl, id, nofun, nofun⟩
      · rw [if_neg hcond]
        exact ⟨rfl, id, nofun, fun _ hv => hcond (Or.inl hv)⟩
  | sigCheck =>
      refine ⟨id, nofun, Or.inr ?_⟩
      obtain ⟨rfl, rfl⟩ := Prod.mk.inj (Option.some.inj h)
      split <;> exact ⟨rfl, id, nofun, nofun⟩
  | _ => cases h

section Step

variable {s t : State w ι} {i : ι} {l : Pc}

/-- A step of one process that leaves the flag as it is. -/
theorem Safe.move (hs : Safe s) (sg : ι → Signals w) (hl : l.Holds ↔ (s.pc i).Holds)
    (hwake : s.pc i = .closeWake → l = .closeWake) (hasleep : l = .asleep → s.alreadyOpen ≠ 0) :
    Safe (⟨s.alreadyOpen, Function.update s.pc i l, sg⟩ : State w ι) := by
  refine ⟨hs.exclusive.move hl, fun hv hno j hj => ?_⟩
  replace hv : s.alreadyOpen = 0 := hv
  replace hno : ∀ k, Function.update s.pc i l k ≠ .closeWake := hno
  replace hj : Function.update s.pc i l j = .asleep := hj
  by_cases hji : j = i
  · rw [hji, Function.update_self] at hj
    exact hasleep hj hv
  · rw [Function.update_of_ne hji] at hj
    refine hs.wakes hv (fun k hk => ?_) j hj
    by_cases hki : k = i
    · have hi := hno i
      rw [Function.update_self] at hi
      exact hi (hwake (hki ▸ hk))
    · have hk' := hno k
      rw [Function.update_of_ne hki] at hk'
      exact hk' hk

/-- A `cmpxchg` that succeeds. -/
theorem Safe.acquire (hs : Safe s) (hv : s.alreadyOpen = 0) :
    Safe (⟨1, Function.update s.pc i .opened, s.signals⟩ : State w ι) :=
  ⟨(hv ▸ hs.exclusive).acquire trivial, fun h => absurd (show (1 : ℤ) = 0 from h) (by decide)⟩

/-- `atomic_set` in `module_close`: the closer is about to wake the sleepers. -/
theorem Safe.release (hs : Safe s) (hi : s.pc i = .closeSet) :
    Safe (⟨0, Function.update s.pc i .closeWake, s.signals⟩ : State w ι) := by
  refine ⟨hs.exclusive.release (by rw [hi]; trivial) id, fun _ hno => ?_⟩
  exact absurd (Function.update_self _ _ _) (hno i)

/-- `wake_up` leaves nobody asleep. -/
theorem Safe.wakeUp (hs : Safe s) (hi : s.pc i = .closeWake) :
    Safe (⟨s.alreadyOpen, fun j => (Function.update s.pc i .idle j).wake, s.signals⟩ :
      State w ι) := by
  have hidle : Pc.Holds .idle ↔ (s.pc i).Holds := by rw [hi]; exact Iff.rfl
  exact ⟨(hs.exclusive.move hidle).congr fun j => Pc.holds_wake _,
    fun _ _ j => Pc.wake_ne_asleep _⟩

/-- **Step.**  Every step keeps the invariant. -/
theorem Safe.step {a : Act w ι} (hs : Safe s) (h : sleepStep s a = some t) : Safe t := by
  cases a with
  | moduleOpen i nonblock =>
      obtain ⟨hholds, hwake, rfl⟩ := moduleOpen_eq_some h
      exact hs.move s.signals (iff_of_false id hholds) (fun hi => absurd hi hwake) nofun
  | moduleClose i =>
      obtain ⟨hi, rfl⟩ := moduleClose_eq_some h
      exact hs.move s.signals (by rw [hi]; rfl) (by rw [hi]; exact nofun) nofun
  | signal i sg =>
      obtain rfl := Option.some.inj h
      cases hsg : sg.signalPending with
      | true =>
          refine hs.move _ (Pc.holds_wake _) (fun hi => ?_) fun hi => ?_
          · show (s.pc i).wake = .closeWake
            rw [hi]
            rfl
          · exact absurd hi (Pc.wake_ne_asleep _)
      | false =>
          show Safe ⟨s.alreadyOpen, Function.update s.pc i (s.pc i), _⟩
          rw [Function.update_eq_self]
          exact ⟨hs.exclusive, hs.wakes⟩
  | step i =>
      cases step_cases h with
      | closeSet hi => exact hs.release hi
      | closeWake hi => exact hs.wakeUp hi
      | opening hnext =>
          obtain ⟨hholds, hwake, ⟨hv, rfl, rfl⟩ | ⟨rfl, hholds', _, hasleep⟩⟩ := openStep_cases hnext
          · exact hs.acquire hv
          · exact hs.move s.signals (iff_of_false hholds' hholds) (fun hi => absurd hi hwake) hasleep

end Step

/-! ### A call that fails changes nothing -/

/-- The process whose code runs. -/
def Act.proc : Act w ι → Option ι
  | .moduleOpen i _ => some i
  | .moduleClose i => some i
  | .signal _ _ => none
  | .step i => some i

/-- The two states differ at most in where process `i` is. -/
structure SameOthers (i : ι) (s t : State w ι) : Prop where
  alreadyOpen : s.alreadyOpen = t.alreadyOpen
  signals : s.signals = t.signals
  pc : ∀ j, j ≠ i → s.pc j = t.pc j

/-- In `module_open`, or after it has failed. -/
def Pc.Opening : Pc → Prop
  | .idle => False
  | .opened => False
  | .closeSet => False
  | .closeWake => False
  | _ => True

omit [DecidableEq ι] in
theorem SameOthers.trans {i : ι} {s t u : State w ι} (h : SameOthers i s t)
    (h' : SameOthers i t u) : SameOthers i s u :=
  ⟨h.alreadyOpen.trans h'.alreadyOpen, h.signals.trans h'.signals,
    fun j hj => (h.pc j hj).trans (h'.pc j hj)⟩

theorem SameOthers.update {i : ι} {s t : State w ι} (h : SameOthers i s t) (j : ι) (v : ℤ) (l : Pc)
    (sg : ι → Signals w) :
    SameOthers i (⟨v, Function.update s.pc j l, sg⟩ : State w ι)
      ⟨v, Function.update t.pc j l, sg⟩ := by
  refine ⟨rfl, rfl, fun k hk => ?_⟩
  show Function.update s.pc j l k = Function.update t.pc j l k
  by_cases hkj : k = j
  · rw [hkj, Function.update_self, Function.update_self]
  · rw [Function.update_of_ne hkj, Function.update_of_ne hkj, h.pc k hk]

section Failed

variable {s s' t : State w ι} {i : ι} {a : Act w ι}

/-- The other processes do not see where process `i` is. -/
theorem SameOthers.step (hs : SameOthers i s s') (ha : a.proc ≠ some i)
    (h : sleepStep s a = some t) : ∃ t', sleepStep s' a = some t' ∧ SameOthers i t t' := by
  cases a with
  | moduleOpen j nonblock =>
      have hj := hs.pc j fun hji => ha (congrArg some hji)
      simp only [sleepStep] at h ⊢
      rw [← hj, ← hs.alreadyOpen, ← hs.signals]
      split at h
      · obtain rfl := Option.some.inj h
        exact ⟨_, rfl, hs.update j _ _ _⟩
      · obtain rfl := Option.some.inj h
        exact ⟨_, rfl, hs.update j _ _ _⟩
      · cases h
  | moduleClose j =>
      have hj := hs.pc j fun hji => ha (congrArg some hji)
      simp only [sleepStep] at h ⊢
      rw [← hj, ← hs.alreadyOpen, ← hs.signals]
      split at h
      · obtain rfl := Option.some.inj h
        exact ⟨_, rfl, hs.update j _ _ _⟩
      · cases h
  | signal j sg =>
      obtain rfl := Option.some.inj h
      refine ⟨_, rfl, hs.alreadyOpen, by rw [hs.signals], fun k hk => ?_⟩
      show Function.update s.pc j _ k = Function.update s'.pc j _ k
      by_cases hkj : k = j
      · subst hkj
        rw [Function.update_self, Function.update_self, hs.pc k hk]
      · rw [Function.update_of_ne hkj, Function.update_of_ne hkj, hs.pc k hk]
  | step j =>
      have hj := hs.pc j fun hji => ha (congrArg some hji)
      simp only [sleepStep] at h ⊢
      rw [← hj, ← hs.alreadyOpen, ← hs.signals]
      split at h
      · obtain rfl := Option.some.inj h
        exact ⟨_, rfl, hs.update j _ _ _⟩
      · obtain rfl := Option.some.inj h
        refine ⟨_, rfl, rfl, rfl, fun k hk => ?_⟩
        exact congrArg Pc.wake ((hs.update j 0 .idle s.signals).pc k hk)
      · obtain ⟨⟨v', pc'⟩, hnext, rfl⟩ := Option.map_eq_some_iff.mp h
        rw [hnext]
        exact ⟨_, rfl, hs.update j _ _ _⟩

/-- A step of `module_open` that does not take the file changes only where its process is. -/
theorem sameOthers_of_opening (ha : a.proc = some i) (hclose : (s.pc i).Holds → False)
    (hwake : s.pc i ≠ .closeWake) (h : sleepStep s a = some t) (hfree : t.pc i ≠ .opened) :
    SameOthers i t s := by
  have hupdate : ∀ l, SameOthers i
      (⟨s.alreadyOpen, Function.update s.pc i l, s.signals⟩ : State w ι) s :=
    fun l => ⟨rfl, rfl, fun j hj => Function.update_of_ne hj _ _⟩
  cases a with
  | moduleOpen j nonblock =>
      obtain rfl : j = i := Option.some.inj ha
      obtain ⟨-, -, rfl⟩ := moduleOpen_eq_some h
      exact hupdate _
  | moduleClose j =>
      obtain rfl : j = i := Option.some.inj ha
      obtain ⟨hj, -⟩ := moduleClose_eq_some h
      rw [hj] at hclose
      exact (hclose trivial).elim
  | signal j sg => cases ha
  | step j =>
      obtain rfl : j = i := Option.some.inj ha
      cases step_cases h with
      | closeSet hj =>
          rw [hj] at hclose
          exact (hclose trivial).elim
      | closeWake hj => exact absurd hj hwake
      | opening hnext =>
          obtain ⟨_, _, ⟨_, _, rfl⟩ | ⟨rfl, _⟩⟩ := openStep_cases hnext
          · exact absurd (Function.update_self _ _ _) hfree
          · exact hupdate _

omit [DecidableEq ι] in
theorem Pc.opening_wake (pc : Pc) : pc.wake.Opening ↔ pc.Opening := by cases pc <;> rfl

/-- A process gets into `module_open` only by a call. -/
theorem opening_of_step (ha : ∀ nonblock, a ≠ .moduleOpen i nonblock)
    (h : sleepStep s a = some t) (ht : (t.pc i).Opening) : (s.pc i).Opening := by
  have hupdate : ∀ j l, (Function.update s.pc j l i).Opening →
      (j = i → l.Opening → (s.pc i).Opening) → (s.pc i).Opening := by
    intro j l hl hown
    by_cases hij : i = j
    · subst hij
      rw [Function.update_self] at hl
      exact hown rfl hl
    · rw [Function.update_of_ne hij] at hl
      exact hl
  cases a with
  | moduleOpen j nonblock =>
      have hji : j ≠ i := fun hji => ha nonblock (by rw [hji])
      obtain ⟨-, -, rfl⟩ := moduleOpen_eq_some h
      exact hupdate j _ ht fun hj => absurd hj hji
  | moduleClose j =>
      obtain ⟨-, rfl⟩ := moduleClose_eq_some h
      exact hupdate j _ ht fun _ hl => hl.elim
  | signal j sg =>
      obtain rfl := Option.some.inj h
      refine hupdate j _ ht fun hj hl => ?_
      subst hj
      split at hl
      · exact (Pc.opening_wake _).mp hl
      · exact hl
  | step j =>
      cases step_cases h with
      | closeSet hj => exact hupdate j _ ht fun _ hl => hl.elim
      | closeWake hj => exact hupdate j _ ((Pc.opening_wake _).mp ht) fun _ hl => hl.elim
      | opening hnext =>
          refine hupdate j _ ht fun hj _ => ?_
          subst hj
          cases hpc : s.pc j <;> rw [hpc] at hnext <;> trivial

/-- **Failed calls are invisible.**  The steps of a process that is in a `module_open` and does not
get the file can be dropped from the run. -/
theorem run_without {ls : List (Act w ι)} (hs : SameOthers i s s')
    (hone : ∀ nonblock, .moduleOpen i nonblock ∉ ls) (hrun : run sleepStep s ls = some t)
    (hfail : (t.pc i).Opening) :
    (s.pc i).Opening ∧ ∃ t', run sleepStep s' (ls.filter fun a => a.proc ≠ some i) = some t' ∧
      SameOthers i t t' := by
  induction ls generalizing s s' with
  | nil =>
      obtain rfl := Option.some.inj hrun
      exact ⟨hfail, s', rfl, hs⟩
  | cons a ls ih =>
      obtain ⟨u, hu, hrest⟩ := run_cons_eq_some.mp hrun
      have hone' : ∀ nonblock, .moduleOpen i nonblock ∉ ls :=
        fun nonblock h => hone nonblock (List.mem_cons_of_mem a h)
      have hcall : ∀ nonblock, a ≠ .moduleOpen i nonblock :=
        fun nonblock h => hone nonblock (h ▸ List.mem_cons_self)
      by_cases ha : a.proc = some i
      · rw [List.filter_cons_of_neg (by simpa using ha)]
        -- the state after the rest shows that the process is still in `module_open`
        have hopening := (ih (⟨rfl, rfl, fun _ _ => rfl⟩ : SameOthers i u u) hone' hrest).1
        have hsopen := opening_of_step hcall hu hopening
        have hback : SameOthers i u s := by
          refine sameOthers_of_opening ha (fun h => ?_) (fun h => ?_) hu fun h => ?_
          · cases hpc : s.pc i <;> rw [hpc] at h hsopen <;> first | exact h | exact hsopen
          · rw [h] at hsopen
            exact hsopen
          · rw [h] at hopening
            exact hopening
        exact ⟨hsopen, (ih (hback.trans hs) hone' hrest).2⟩
      · rw [List.filter_cons_of_pos (by simpa using ha)]
        obtain ⟨u', hu', hsame⟩ := hs.step ha hu
        obtain ⟨hopening, t', ht', hfinal⟩ := ih hsame hone' hrest
        exact ⟨opening_of_step hcall hu hopening, t', run_cons_eq_some.mpr ⟨u', hu', ht'⟩, hfinal⟩

end Failed

/-- **Exclusive blocking open.**  In every state of every interleaving, with signals at any point:
`already_open` is 1 exactly if one process has the file, and two never have it; while it is 0 and no
closer is about to wake them, no process is asleep; and a call that fails with `-EAGAIN` or `-EINTR`
changes nothing, in that its steps can be dropped from the run. -/
theorem exclusive_open {acts : List (Act w ι)} {s : State w ι}
    (hrun : run sleepStep State.init acts = some s) :
    (s.alreadyOpen = 1 ↔ ∃! i, (s.pc i).Holds) ∧
    (∀ i j, (s.pc i).Holds → (s.pc j).Holds → i = j) ∧
    (s.alreadyOpen = 0 → (∀ i, s.pc i ≠ .closeWake) → ∀ i, s.pc i ≠ .asleep) ∧
    ∀ i nonblock e ls t, run sleepStep s (.moduleOpen i nonblock :: ls) = some t →
      (∀ nonblock', .moduleOpen i nonblock' ∉ ls) → t.pc i = .failed e →
      ∃ t', run sleepStep s (ls.filter fun a => a.proc ≠ some i) = some t' ∧
        SameOthers i t t' := by
  have hs : Safe s := run_invariant (fun _ _ _ hu h => hu.step h) safe_init hrun
  refine ⟨hs.exclusive.eq_one_iff, fun i j => hs.exclusive.unique, hs.wakes, ?_⟩
  intro i nonblock e ls t hcall hone hfail
  obtain ⟨u, hu, hrest⟩ := run_cons_eq_some.mp hcall
  have hopening : (t.pc i).Opening := by rw [hfail]; trivial
  have hback : SameOthers i u s := by
    obtain ⟨-, -, rfl⟩ := moduleOpen_eq_some hu
    exact ⟨rfl, rfl, fun j hj => Function.update_of_ne hj _ _⟩
  exact (run_without hback hone hrest hopening).2

/-- Process 1 falls asleep while process 0 has the file, and takes it after 0 has closed it. -/
def handOver : List (Act 64 ℕ) :=
  [.moduleOpen 0 false, .step 0, .moduleOpen 1 false, .step 1, .step 1, .step 1, .step 1,
    .moduleClose 0, .step 0, .step 0, .step 1, .step 1, .step 1]

theorem exclusive_open_handOver :
    ∃ s : State 64 ℕ, run sleepStep State.init handOver = some s ∧ s.pc 1 = .opened ∧
      (s.alreadyOpen = 1 ↔ ∃! i, (s.pc i).Holds) :=
  ⟨_, rfl, rfl, (@exclusive_open 64 ℕ _ handOver _ rfl).1⟩

end Lkmpg.Sleep
