import Lkmpg.Lib.Progress
import Lkmpg.Sleep.Open
import Mathlib.Tactic.Ring

/-!
# Everyone gets the file

The open of `sleep.c` hands the file over by waking all sleepers, one of which takes it while the
others go round the `while` loop and sleep again.  If no more calls are made and those who have the
file close it, this comes to an end: a process that is not told to give up gets the file once.

* `Pc.turns` counts what a call can still do that others notice (take the file, the two steps of
  `module_close`, return), and `laps` the steps to the next of these;
* `Moved` is what a step does to both, and `quiet_of_stuck` says how a run ends.

A process whose only unblocked signals are such that `is_sig` misses them never sleeps, so the runs
of this module have none.
-/

namespace Lkmpg.Sleep

open ExclusiveFlag Transition

variable {w : ℕ} {ι : Type}

/-- In a call of `module_open`. -/
def Pc.Trying : Pc → Prop
  | .firstCas _ => True
  | .testNonblock _ => True
  | .loopCas => True
  | .waitCheck => True
  | .asleep => True
  | .sigCheck => True
  | _ => False

/-- In a call of `module_open` for a file that has `O_NONBLOCK`. -/
def Pc.Nonblock : Pc → Prop
  | .firstCas nonblock => nonblock = true
  | .testNonblock nonblock => nonblock = true
  | _ => False

/-- A call of `module_open` at `pc` can return `e`. -/
def MayFail (sg : Signals w) (pc : Pc) (e : Errno) : Prop :=
  e = .EAGAIN ∧ pc.Nonblock ∨ e = .EINTR ∧ pc.Trying ∧ isSig sg.words 0 ≠ 0

/-- The loop over the signal words finds the signal that ends a wait. -/
def Signals.Heard (sg : Signals w) : Prop := sg.signalPending = true → isSig sg.words 0 ≠ 0

/-- A step of a call that has been made, or the close of a file that is open. -/
def Act.Goes : Act w ι → Prop
  | .moduleClose _ => True
  | .step _ => True
  | _ => False

/-- The next step is a `cmpxchg`. -/
def Pc.isCas : Pc → Bool
  | .firstCas _ => true
  | .loopCas => true
  | _ => false

/-- The process that gets the file in the step. -/
def winner (s : State w ι) : Act w ι → List ι
  | .step i => if s.alreadyOpen = 0 ∧ (s.pc i).isCas then [i] else []
  | _ => []

/-! ### Turns and laps -/

/-- What the call can still do that other processes notice. -/
def Pc.turns : Pc → ℕ
  | .idle => 0
  | .failed _ => 0
  | .opened => 3
  | .closeSet => 2
  | .closeWake => 1
  | _ => 4

/-- How many steps of `module_open` there are at most before the process sleeps, gets the file or
gives up, if nobody else gets on. -/
def Pc.laps (v : ℤ) (sg : Signals w) : Pc → ℕ
  | .firstCas _ => 5
  | .testNonblock _ => 4
  | .sigCheck => if isSig sg.words 0 = 0 then 3 else 0
  | .loopCas => 2
  | .waitCheck => if v = 0 then 4 else 1
  | _ => 0

theorem Pc.turns_le (pc : Pc) : pc.turns ≤ 4 := by cases pc <;> simp [Pc.turns]

theorem Pc.laps_le (v : ℤ) (sg : Signals w) (pc : Pc) : pc.laps v sg ≤ 5 := by
  cases pc <;> simp only [Pc.laps] <;> (try split) <;> omega

@[simp] theorem Pc.turns_wake (pc : Pc) : pc.wake.turns = pc.turns := by cases pc <;> rfl

theorem Pc.turns_of_trying {pc : Pc} (h : pc.Trying) : pc.turns = 4 := by
  cases pc <;> first | rfl | exact h.elim

theorem MayFail.trying {sg : Signals w} {pc : Pc} {e : Errno} (h : MayFail sg pc e) : pc.Trying := by
  rcases h with ⟨-, hnonblock⟩ | ⟨-, htrying, -⟩
  · cases pc <;> trivial
  · exact htrying

section Steps

variable [DecidableEq ι] {s t : State w ι} {i : ι} {won : List ι} {a : Act w ι}

/-- A step of process `i`, in which the processes `won` get the file. -/
inductive Moved (s : State w ι) (i : ι) : List ι → State w ι → Prop
  | wins (htrying : (s.pc i).Trying) (hfree : s.alreadyOpen = 0) :
      Moved s i [i] { s with alreadyOpen := 1, pc := Function.update s.pc i .opened }
  | fails {e : Errno} (hfail : MayFail (s.signals i) (s.pc i) e) :
      Moved s i [] { s with pc := Function.update s.pc i (.failed e) }
  | goesOn {pc : Pc} (htrying : (s.pc i).Trying) (hnext : pc.Trying)
      (hnonblock : pc.Nonblock → (s.pc i).Nonblock)
      (hlaps : pc.laps s.alreadyOpen (s.signals i) < (s.pc i).laps s.alreadyOpen (s.signals i)) :
      Moved s i [] { s with pc := Function.update s.pc i pc }
  | closes (hi : s.pc i = .opened) :
      Moved s i [] { s with pc := Function.update s.pc i .closeSet }
  | frees (hi : s.pc i = .closeSet) :
      Moved s i [] { s with alreadyOpen := 0, pc := Function.update s.pc i .closeWake }
  | wakes (hi : s.pc i = .closeWake) :
      Moved s i [] { s with pc := fun j => (Function.update s.pc i .idle j).wake }

omit [DecidableEq ι] in
/-- Without a `cmpxchg` nobody gets the file. -/
theorem winner_eq_nil (h : (s.pc i).isCas = false) : winner s (.step i) = [] := by
  simp [winner, h]

/-- A `cmpxchg` takes the file, or the call goes on at `pc`. -/
theorem moved_of_cas {pc : Pc} {next : ℤ × Pc} (htrying : (s.pc i).Trying) (hcas : (s.pc i).isCas)
    (hpc : pc.Trying) (hnonblock : pc.Nonblock → (s.pc i).Nonblock)
    (hlaps : s.alreadyOpen ≠ 0 →
      pc.laps s.alreadyOpen (s.signals i) < (s.pc i).laps s.alreadyOpen (s.signals i))
    (h : ((cmpxchg s.alreadyOpen 0 1).2,
      if (cmpxchg s.alreadyOpen 0 1).1 = 0 then Pc.opened else pc) = next) :
    Moved s i (winner s (.step i))
      { s with alreadyOpen := next.1, pc := Function.update s.pc i next.2 } := by
  subst h
  by_cases hfree : s.alreadyOpen = 0
  · simp only [winner, hfree, hcas, cmpxchg, and_self, if_true]
    exact .wins htrying hfree
  · simp only [winner, hfree, cmpxchg, false_and, if_false]
    exact .goesOn htrying hpc hnonblock (hlaps hfree)

/-- **Inversion.**  What a step of `module_open` does where signals are heard. -/
theorem moved_of_openStep (hheard : (s.signals i).Heard) {next : ℤ × Pc}
    (h : openStep s.alreadyOpen (s.signals i) (s.pc i) = some next) :
    Moved s i (winner s (.step i))
      { s with alreadyOpen := next.1, pc := Function.update s.pc i next.2 } := by
  cases hpc : s.pc i with
  | firstCas nonblock =>
      rw [hpc, openStep, Option.some_inj] at h
      refine moved_of_cas ?_ ?_ ?_ ?_ ?_ h <;> simp [hpc, Pc.Trying, Pc.isCas, Pc.Nonblock, Pc.laps]
  | testNonblock nonblock =>
      rw [hpc, openStep, Option.some_inj] at h
      obtain rfl := h
      rw [winner_eq_nil (by rw [hpc]; rfl)]
      cases nonblock with
      | true => exact .fails (Or.inl ⟨rfl, by rw [hpc]; rfl⟩)
      | false => refine .goesOn ?_ ?_ ?_ ?_ <;> simp [hpc, Pc.Trying, Pc.Nonblock, Pc.laps]
  | loopCas =>
      rw [hpc, openStep, Option.some_inj] at h
      refine moved_of_cas ?_ ?_ ?_ ?_ (fun hopen => ?_) h
      all_goals simp only [hpc, Pc.Trying, Pc.isCas, Pc.laps]
      · exact False.elim
      · rw [if_neg hopen]
        exact Nat.one_lt_two
  | waitCheck =>
      rw [hpc, openStep, Option.some_inj] at h
      obtain rfl := h
      rw [winner_eq_nil (by rw [hpc]; rfl)]
      by_cases hcond : s.alreadyOpen = 0 ∨ (s.signals i).signalPending = true
      · simp only [if_pos hcond]
        refine .goesOn ?_ ?_ ?_ ?_ <;> simp only [hpc, Pc.Trying, Pc.Nonblock, Pc.laps]
        · exact id
        · -- a process that leaves the wait while the file is open is heard
          split
          · rename_i hdeaf
            rcases hcond with hfree | hpending
            · rw [if_pos hfree]
              omega
            · exact absurd hdeaf (hheard hpending)
          · split <;> omega
      · simp only [if_neg hcond]
        refine .goesOn ?_ ?_ ?_ ?_ <;> simp only [hpc, Pc.Trying, Pc.Nonblock, Pc.laps]
        · exact id
        · split <;> omega
  | sigCheck =>
      rw [hpc, openStep, Option.some_inj] at h
      obtain rfl := h
      rw [winner_eq_nil (by rw [hpc]; rfl)]
      by_cases hsig : isSig (s.signals i).words 0 = 0
      · simp only [if_pos hsig]
        refine .goesOn ?_ ?_ ?_ ?_ <;> simp only [hpc, Pc.Trying, Pc.Nonblock, Pc.laps]
        · exact id
        · rw [if_pos hsig]
          exact Nat.lt_succ_self 2
      · simp only [if_neg hsig]
        exact .fails (Or.inr ⟨rfl, by rw [hpc]; trivial, hsig⟩)
  | _ => rw [hpc] at h; cases h

/-- **Step.** -/
theorem moved_of_step (hheard : ∀ i, (s.signals i).Heard) (ha : a.Goes)
    (h : sleepStep s a = some t) : ∃ i, Moved s i (winner s a) t := by
  cases a with
  | moduleOpen i nonblock => exact ha.elim
  | signal i sg => exact ha.elim
  | moduleClose i =>
      obtain ⟨hi, rfl⟩ := moduleClose_eq_some h
      exact ⟨i, .closes hi⟩
  | step i =>
      refine ⟨i, ?_⟩
      cases step_cases h with
      | closeSet hi =>
          rw [winner_eq_nil (by rw [hi]; rfl)]
          exact .frees hi
      | closeWake hi =>
          rw [winner_eq_nil (by rw [hi]; rfl)]
          exact .wakes hi
      | opening hnext => exact moved_of_openStep (hheard i) hnext

/-! ### A run comes to an end -/

theorem advances_update {pc : Pc} (v : ℤ) (h : pc.turns < (s.pc i).turns) :
    Advances (fun u j => (u.pc j).turns) (fun u j => (u.pc j).laps u.alreadyOpen (u.signals j)) i s
      (⟨v, Function.update s.pc i pc, s.signals⟩ : State w ι) := by
  have hle := (Function.forall_update_iff s.pc fun j l => l.turns ≤ (s.pc j).turns).mpr
    ⟨h.le, fun _ _ => le_rfl⟩
  exact ⟨hle, Or.inl (by simpa using h)⟩

theorem Moved.advances (h : Moved s i won t) :
    Advances (fun u j => (u.pc j).turns) (fun u j => (u.pc j).laps u.alreadyOpen (u.signals j)) i s
      t := by
  cases h with
  | wins htrying hfree =>
      refine advances_update 1 ?_
      rw [Pc.turns_of_trying htrying]
      exact Nat.lt_succ_self 3
  | fails hfail =>
      refine advances_update _ ?_
      rw [Pc.turns_of_trying hfail.trying]
      exact Nat.succ_pos 3
  | goesOn htrying hnext _ hlaps =>
      refine ⟨?_, Or.inr ⟨by simpa using hlaps, ?_⟩⟩
      · have hturns := (Pc.turns_of_trying hnext).trans (Pc.turns_of_trying htrying).symm
        exact (Function.forall_update_iff s.pc fun j l => l.turns ≤ (s.pc j).turns).mpr
          ⟨hturns.le, fun _ _ => le_rfl⟩
      · exact (Function.forall_update_iff s.pc fun j l => l.laps s.alreadyOpen (s.signals j) ≤
          (s.pc j).laps s.alreadyOpen (s.signals j)).mpr ⟨hlaps.le, fun _ _ => le_rfl⟩
  | closes hi => exact advances_update _ (by rw [hi]; exact Nat.lt_succ_self 2)
  | frees hi => exact advances_update 0 (by rw [hi]; exact Nat.lt_succ_self 1)
  | wakes hi =>
      refine ⟨?_, Or.inl ?_⟩
      · exact (Function.forall_update_iff s.pc fun j l => l.wake.turns ≤ (s.pc j).turns).mpr
          ⟨Nat.zero_le _, fun j _ => (s.pc j).turns_wake.le⟩
      · simp only [Function.update_self, Pc.turns_wake, hi]
        exact Nat.one_pos

/-- Only processes that are in a call move. -/
theorem Moved.turns_ne_zero (h : Moved s i won t) : (s.pc i).turns ≠ 0 := by
  cases h with
  | wins htrying _ => simp [Pc.turns_of_trying htrying]
  | fails hfail => simp [Pc.turns_of_trying hfail.trying]
  | goesOn htrying _ _ _ => simp [Pc.turns_of_trying htrying]
  | closes hi => simp [hi, Pc.turns]
  | frees hi => simp [hi, Pc.turns]
  | wakes hi => simp [hi, Pc.turns]

theorem Moved.signals (h : Moved s i won t) : t.signals = s.signals := by cases h <;> rfl

/-- **Run.**  Calls that have begun come to an end, if only the processes of `P` are in one. -/
theorem length_le_of_goes {P : Finset ι} {ls : List (Act w ι)} (hheard : ∀ i, (s.signals i).Heard)
    (hP : ∀ i ∉ P, (s.pc i).turns = 0) (hls : ∀ a ∈ ls, a.Goes)
    (hrun : run sleepStep s ls = some t) :
    ls.length ≤ P.card * 4 * (P.card * 5 + 1) + P.card * 5 := by
  have hstep : ∀ (u : State w ι) a v,
      (∀ i, (u.signals i).Heard) ∧ (∀ i ∉ P, (u.pc i).turns = 0) → a.Goes →
      sleepStep u a = some v →
      ((∀ i, (v.signals i).Heard) ∧ ∀ i ∉ P, (v.pc i).turns = 0) ∧
        ∃ i ∈ P, Advances (fun u j => (u.pc j).turns)
          (fun u j => (u.pc j).laps u.alreadyOpen (u.signals j)) i u v := by
    rintro u a v ⟨hu, hout⟩ ha huv
    obtain ⟨i, hmoved⟩ := moved_of_step hu ha huv
    have hi : i ∈ P := by
      by_contra hnot
      exact hmoved.turns_ne_zero (hout i hnot)
    refine ⟨⟨fun j => hmoved.signals ▸ hu j, fun j hj => ?_⟩, i, hi, hmoved.advances⟩
    exact Nat.le_zero.mp (hout j hj ▸ hmoved.advances.turns_le j)
  refine (run_length_le (fun _ _ => Pc.laps_le _ _ _) hstep ⟨hheard, hP⟩ (Along.of_forall hls)
    hrun).trans ?_
  exact leftToDo_le (fun _ => Pc.turns_le _) fun _ => Pc.laps_le _ _ _

end Steps

/-! ### What becomes of a process -/

/-- A process that is at `pc` gets the file so many times, and then its call is over. -/
inductive Fate (sg : Signals w) (pc : Pc) : ℕ → Pc → Prop
  | served (htrying : pc.Trying) : Fate sg pc 1 .idle
  | gaveUp {e : Errno} (hfail : MayFail sg pc e) : Fate sg pc 0 (.failed e)
  | closed (hnot : ¬pc.Trying) (hcall : pc.turns ≠ 0) : Fate sg pc 0 .idle
  | stays (hrest : pc.turns = 0) : Fate sg pc 0 pc

section Fates

variable {sg : Signals w} {pc pc' last : Pc} {k : ℕ}

/-- A call that only goes on has the fate of what it goes on to. -/
theorem Fate.of_goesOn (h : Fate sg pc' k last) (htrying : pc.Trying) (hnext : pc'.Trying)
    (hnonblock : pc'.Nonblock → pc.Nonblock) : Fate sg pc k last := by
  cases h with
  | served _ => exact .served htrying
  | gaveUp hfail =>
      refine .gaveUp ?_
      rcases hfail with ⟨he, hagain⟩ | ⟨he, -, hsig⟩
      · exact Or.inl ⟨he, hnonblock hagain⟩
      · exact Or.inr ⟨he, htrying, hsig⟩
  | closed hnot _ => exact absurd hnext hnot
  | stays hrest => simp [Pc.turns_of_trying hnext] at hrest

/-- A call that is over stays so. -/
theorem Fate.of_rest (h : Fate sg pc k last) (hrest : pc.turns = 0) : k = 0 ∧ last = pc := by
  cases h with
  | served htrying => simp [Pc.turns_of_trying htrying] at hrest
  | gaveUp hfail => simp [Pc.turns_of_trying hfail.trying] at hrest
  | closed _ hcall => exact absurd hrest hcall
  | stays _ => exact ⟨rfl, rfl⟩

/-- Who has the file, or is in `module_close`, ends without it. -/
theorem Fate.of_closing (h : Fate sg pc k last) (hnot : ¬pc.Trying) (hcall : pc.turns ≠ 0) :
    k = 0 ∧ last = .idle := by
  cases h with
  | served htrying => exact absurd htrying hnot
  | gaveUp hfail => exact absurd hfail.trying hnot
  | closed _ _ => exact ⟨rfl, rfl⟩
  | stays hrest => exact absurd hrest hcall

theorem Fate.of_wake (h : Fate sg pc.wake k last) : Fate sg pc k last := by
  cases pc with
  | asleep => exact h.of_goesOn trivial trivial id
  | _ => exact h

end Fates

section Runs

variable [DecidableEq ι] {s t : State w ι} {i : ι} {won : List ι}

/-- **Step.**  What becomes of a process after a step tells what becomes of it before. -/
theorem Moved.fate (h : Moved s i won t) (j : ι) {k : ℕ} {last : Pc}
    (hfate : Fate (s.signals j) (t.pc j) k last) :
    Fate (s.signals j) (s.pc j) (won.count j + k) last := by
  by_cases hj : j = i
  · subst hj
    cases h with
    | wins htrying hfree =>
        obtain ⟨rfl, rfl⟩ := hfate.of_closing (by simp [Pc.Trying]) (by simp [Pc.turns])
        simpa using Fate.served htrying
    | fails hfail =>
        obtain ⟨rfl, rfl⟩ := hfate.of_rest (by simp [Pc.turns])
        simpa using Fate.gaveUp hfail
    | goesOn htrying hnext hnonblock _ =>
        simp only [Function.update_self] at hfate
        simpa using hfate.of_goesOn htrying hnext hnonblock
    | closes hi =>
        obtain ⟨rfl, rfl⟩ := hfate.of_closing (by simp [Pc.Trying]) (by simp [Pc.turns])
        exact hi ▸ .closed id (Nat.succ_ne_zero 2)
    | frees hi =>
        obtain ⟨rfl, rfl⟩ := hfate.of_closing (by simp [Pc.Trying]) (by simp [Pc.turns])
        exact hi ▸ .closed id (Nat.succ_ne_zero 1)
    | wakes hi =>
        simp only [Function.update_self] at hfate
        obtain ⟨rfl, rfl⟩ := hfate.of_rest rfl
        exact hi ▸ .closed id Nat.one_ne_zero
  · cases h with
    | wins htrying hfree => simpa [Function.update_of_ne hj, Ne.symm hj] using hfate
    | wakes hi =>
        simp only [Function.update_of_ne hj] at hfate
        simpa using hfate.of_wake
    | _ => simpa [Function.update_of_ne hj] using hfate

/-- **Run.**  When all calls are over, each process has met its fate. -/
theorem fate_of_goes {ls : List (Act w ι)} (hheard : ∀ i, (s.signals i).Heard)
    (hls : ∀ a ∈ ls, a.Goes) (hrun : run sleepStep s ls = some t) (hover : ∀ i, (t.pc i).turns = 0)
    (j : ι) :
    Fate (s.signals j) (s.pc j) ((events sleepStep winner s ls).count j) (t.pc j) := by
  induction ls generalizing s with
  | nil =>
      obtain rfl := Option.some.inj hrun
      exact .stays (hover j)
  | cons a ls ih =>
      obtain ⟨u, hu, hrest⟩ := run_cons_eq_some.mp hrun
      obtain ⟨i, hmoved⟩ := moved_of_step hheard (hls a List.mem_cons_self) hu
      have hnext := ih (hmoved.signals ▸ hheard) (fun b hb => hls b (List.mem_cons_of_mem a hb)) hrest
      rw [hmoved.signals] at hnext
      rw [events, hu, List.count_append]
      exact hmoved.fate j hnext

/-! ### How a run ends -/

/-- **No lost wake-up.**  Where no call can go on and nobody has the file to close it, all calls are
over. -/
theorem Safe.quiet (ht : Safe t) (hstuck : ∀ a : Act w ι, a.Goes → sleepStep t a = none) :
    t.alreadyOpen = 0 ∧ ∀ i, (t.pc i).turns = 0 := by
  have hpc : ∀ i, (t.pc i).turns = 0 ∨ t.pc i = .asleep := by
    intro i
    have hclose := hstuck (.moduleClose i) trivial
    have hstep := hstuck (.step i) trivial
    cases hi : t.pc i <;> simp [sleepStep, openStep, hi, Pc.turns] at hclose hstep ⊢
  have hnobody : ∀ i, ¬(t.pc i).Holds := by
    intro i hholds
    rcases hpc i with hrest | hasleep
    · cases hi : t.pc i <;> simp [hi, Pc.Holds, Pc.turns] at hholds hrest
    · rw [hasleep] at hholds
      exact hholds
  have hfree : t.alreadyOpen = 0 := ht.exclusive.eq_zero_iff.mpr hnobody
  refine ⟨hfree, fun i => (hpc i).resolve_right (ht.wakes hfree (fun j hj => ?_) i)⟩
  rcases hpc j with hrest | hasleep
  · simp [hj, Pc.turns] at hrest
  · simp [hj] at hasleep

/-- The process that calls `module_open`. -/
def Act.opener : Act w ι → Option ι
  | .moduleOpen i _ => some i
  | _ => none

/-- The processes that have called `module_open`. -/
def openers (acts : List (Act w ι)) : Finset ι := (acts.filterMap Act.opener).toFinset

/-- Only a call of `module_open` begins something. -/
theorem turns_step {a : Act w ι} (h : sleepStep s a = some t) (hi : a.opener ≠ some i)
    (hs : (s.pc i).turns = 0) : (t.pc i).turns = 0 := by
  have hupdate : ∀ j l, (j = i → Pc.turns l = 0) → (Function.update s.pc j l i).turns = 0 := by
    intro j l hl
    by_cases hij : i = j
    · subst hij
      simpa using hl rfl
    · simpa [Function.update_of_ne hij] using hs
  cases a with
  | moduleOpen j nonblock =>
      obtain ⟨-, -, rfl⟩ := moduleOpen_eq_some h
      exact hupdate j _ fun hj => absurd (congrArg some hj) hi
  | moduleClose j =>
      obtain ⟨hj, rfl⟩ := moduleClose_eq_some h
      exact hupdate j _ fun hji => by simp [← hji, hj, Pc.turns] at hs
  | signal j sg =>
      obtain rfl := Option.some.inj h
      refine hupdate j _ fun hji => ?_
      subst hji
      split
      · simpa using hs
      · exact hs
  | step j =>
      cases step_cases h with
      | closeSet hj => exact hupdate j _ fun hji => by simp [← hji, hj, Pc.turns] at hs
      | closeWake hj => simpa using hupdate j .idle fun _ => rfl
      | opening hnext =>
          refine hupdate j _ fun hji => ?_
          subst hji
          cases hpc : s.pc j <;> simp [hpc, openStep, Pc.turns] at hnext hs

theorem turns_of_not_mem_openers {acts : List (Act w ι)} (hrun : run sleepStep s acts = some t)
    (hi : i ∉ openers acts) (hs : (s.pc i).turns = 0) : (t.pc i).turns = 0 := by
  have hnever : ∀ a ∈ acts, a.opener ≠ some i := by
    intro a ha hopen
    exact hi (List.mem_toFinset.mpr (List.mem_filterMap.mpr ⟨a, ha, hopen⟩))
  exact run_induction (fun _ _ _ hu ha h => turns_step h ha hu) hs (Along.of_forall hnever) hrun

/-- **Everyone gets the file.**  After any run let no more calls be made and no more signals arrive,
and let the signals that end a wait be heard.  However the `n` processes that have called
`module_open` are scheduled, what they have begun and the closes that go with it are over after
`20 n² + 9 n` steps.  Then the file is free, and each process that was in a call has got the file
once and closed it, or has not got it and was told so: by `-EAGAIN` if it had asked for that, or by
`-EINTR` if it has an unblocked signal. -/
theorem everyone_opens {acts ls : List (Act w ι)} (hrun : run sleepStep State.init acts = some s)
    (hheard : ∀ i, (s.signals i).Heard) (hls : ∀ a ∈ ls, a.Goes)
    (hrest : run sleepStep s ls = some t) :
    ls.length ≤ 20 * (openers acts).card ^ 2 + 9 * (openers acts).card ∧
      ((∀ a : Act w ι, a.Goes → sleepStep t a = none) →
        t.alreadyOpen = 0 ∧ ∀ i, (s.pc i).Trying →
          ((events sleepStep winner s ls).count i = 1 ∧ t.pc i = .idle) ∨
          ((events sleepStep winner s ls).count i = 0 ∧
            ∃ e, t.pc i = .failed e ∧ MayFail (s.signals i) (s.pc i) e)) := by
  constructor
  · have hlength := length_le_of_goes (P := openers acts) hheard
      (fun i hi => turns_of_not_mem_openers hrun hi rfl) hls hrest
    calc ls.length ≤ _ := hlength
      _ = 20 * (openers acts).card ^ 2 + 9 * (openers acts).card := by ring
  · intro hstuck
    have hs : Safe s := run_invariant (fun _ _ _ hu h => hu.step h) safe_init hrun
    have ht : Safe t := run_invariant (fun _ _ _ hu h => hu.step h) hs hrest
    obtain ⟨hfree, hover⟩ := ht.quiet hstuck
    refine ⟨hfree, fun i htrying => ?_⟩
    have hfate := fate_of_goes hheard hls hrest hover i
    generalize (events sleepStep winner s ls).count i = k at hfate ⊢
    generalize t.pc i = last at hfate ⊢
    cases hfate with
    | served _ => exact Or.inl ⟨rfl, rfl⟩
    | gaveUp hfail => exact Or.inr ⟨rfl, _, rfl, hfail⟩
    | closed hnot _ => exact absurd htrying hnot
    | stays hzero => simp [Pc.turns_of_trying htrying] at hzero

end Runs

/-- Process 1 sleeps because process 0 has the file. -/
def waiting : List (Act 64 (Fin 2)) :=
  [.moduleOpen 0 false, .step 0, .moduleOpen 1 false, .step 1, .step 1, .step 1, .step 1]

/-- Process 0 closes it, and process 1 takes it and closes it too. -/
def handedOver : List (Act 64 (Fin 2)) :=
  [.moduleClose 0, .step 0, .step 0, .step 1, .step 1, .step 1, .moduleClose 1, .step 1, .step 1]

theorem everyone_opens_handedOver :
    ∃ s t : State 64 (Fin 2), run sleepStep State.init waiting = some s ∧ s.pc 1 = .asleep ∧
      run sleepStep s handedOver = some t ∧
      handedOver.length ≤ 20 * (openers waiting).card ^ 2 + 9 * (openers waiting).card ∧
      t.alreadyOpen = 0 ∧ (events sleepStep winner s handedOver).count 1 = 1 := by
  obtain ⟨s, hrun, hasleep, hsignals, t, hrest, hlast⟩ : ∃ s : State 64 (Fin 2),
      run sleepStep State.init waiting = some s ∧ s.pc 1 = .asleep ∧
        (∀ i, (s.signals i).signalPending = false) ∧
        ∃ t, run sleepStep s handedOver = some t ∧ ∀ i, t.pc i = .idle :=
    ⟨_, rfl, rfl, fun _ => rfl, _, rfl, by decide⟩
  obtain ⟨hlength, hend⟩ := everyone_opens hrun (fun i hpending => by simp [hsignals] at hpending)
    (by simp [handedOver, Act.Goes]) hrest
  obtain ⟨hfree, hfate⟩ := hend fun a ha => by
    cases a with
    | moduleClose i => simp [sleepStep, hlast]
    | step i => simp [sleepStep, hlast, openStep]
    | _ => exact ha.elim
  refine ⟨s, t, hrun, hasleep, hrest, hlength, hfree, ?_⟩
  rcases hfate 1 (by rw [hasleep]; trivial) with ⟨hcount, -⟩ | ⟨-, e, hfailed, -⟩
  · exact hcount
  · rw [hlast] at hfailed
    cases hfailed

end Lkmpg.Sleep
