import Lkmpg.Lib.Narrow
import Lkmpg.Sleep.Open

/-!
# The signal test of `module_open`

A process that leaves `wait_event_interruptible` computes `pending & ~blocked` word by word and
returns `-EINTR` if a result is not 0.  The words are `unsigned long`, the variable `is_sig` is an
`int`, so what is tested is only the low half of each word.

* `isSig_eq_zero`: the loop finds nothing exactly if no unblocked signal is pending at one of the
  32 low positions of a word;
* `eintrExact_iff`: a run answers every unblocked signal with `-EINTR` exactly if each process that
  has one when it looks has one at such a position;
* `run_deaf`: a process whose unblocked signals are all above it goes round the `while` loop and
  never sleeps.
-/

namespace Lkmpg.Sleep

open ExclusiveFlag Narrow Transition

variable {w : ℕ} {ι : Type}

/-- A signal at position `k` of its word is pending and not blocked. -/
def Signals.Unblocked (sg : Signals w) (k : ℕ) : Prop :=
  ∃ word ∈ sg.words, word.1.getLsbD k = true ∧ word.2.getLsbD k = false

/-! ### The loop over the words -/

/-- The loop leaves `is_sig` at 0 only if every word, cut to an `int`, is 0. -/
theorem isSig_eq_zero_iff_words (words : List (BitVec w × BitVec w)) (sig : BitVec 32) :
    isSig words sig = 0 ↔
      sig = 0 ∧ ∀ word ∈ words, (word.1 &&& ~~~word.2).setWidth 32 = 0 := by
  induction words generalizing sig with
  | nil => simp [isSig]
  | cons word words ih =>
      obtain ⟨pending, blocked⟩ := word
      by_cases hsig : sig = 0
      · rw [isSig, if_pos hsig, ih, List.forall_mem_cons]
        exact (and_iff_right hsig).symm
      · rw [isSig, if_neg hsig]
        exact ⟨fun h => absurd h hsig, fun h => absurd h.1 hsig⟩

/-- **What the code tests.**  Position 32 and those above it do not count. -/
theorem isSig_eq_zero (sg : Signals w) :
    isSig sg.words 0 = 0 ↔ ¬∃ k < 32, sg.Unblocked k := by
  rw [isSig_eq_zero_iff_words, and_iff_right rfl]
  simp only [setWidth_eq_zero_iff]
  constructor
  · rintro h ⟨k, hk, word, hword, hpending, hblocked⟩
    have hbit := h word hword k hk
    have hkw : k < w := BitVec.lt_of_getLsbD hpending
    rw [BitVec.getLsbD_and, BitVec.getLsbD_not, hpending, hblocked] at hbit
    simp [hkw] at hbit
  · intro h word hword k hk
    by_contra hbit
    rw [Bool.not_eq_false, BitVec.getLsbD_and, BitVec.getLsbD_not] at hbit
    simp only [Bool.and_eq_true, decide_eq_true_eq, Bool.not_eq_true'] at hbit
    exact h ⟨k, hk, word, hword, hbit.1, hbit.2.2⟩

/-! ### Runs -/

variable [DecidableEq ι]

/-- A process that looks at its signals leaves with `-EINTR` exactly if one of them is pending and
not blocked. -/
def EintrExact (s : State w ι) (a : Act w ι) : Prop :=
  ∀ i, a = .step i → s.pc i = .sigCheck → ∀ t, sleepStep s a = some t →
    (t.pc i = .failed .EINTR ↔ ∃ k, (s.signals i).Unblocked k)

/-- A process that looks at its signals and has an unblocked one has one at the positions that
reach `is_sig`. -/
def LowSignal (s : State w ι) (a : Act w ι) : Prop :=
  ∀ i, a = .step i → s.pc i = .sigCheck →
    (∃ k, (s.signals i).Unblocked k) → ∃ k < 32, (s.signals i).Unblocked k

/-- The step after the loop over the words. -/
theorem sleepStep_sigCheck {s : State w ι} {i : ι} (hpc : s.pc i = .sigCheck) :
    sleepStep s (.step i) = some { s with
      pc := Function.update s.pc i
        (if isSig (s.signals i).words 0 = 0 then .loopCas else .failed .EINTR) } := by
  simp only [sleepStep, hpc, openStep, Option.map_some]

/-- **Step.**  The answer is exact where the condition holds, and only there. -/
theorem eintrExact_iff_lowSignal (s : State w ι) (a : Act w ι) :
    EintrExact s a ↔ LowSignal s a := by
  have hanswer : ∀ i, s.pc i = .sigCheck → ∀ t, sleepStep s (.step i) = some t →
      (t.pc i = .failed .EINTR ↔ ∃ k < 32, (s.signals i).Unblocked k) := by
    intro i hpc t ht
    rw [sleepStep_sigCheck hpc] at ht
    obtain rfl := Option.some.inj ht
    show Function.update s.pc i _ i = .failed .EINTR ↔ _
    rw [Function.update_self]
    by_cases hlow : ∃ k < 32, (s.signals i).Unblocked k
    · rw [if_neg fun h => (isSig_eq_zero _).mp h hlow]
      exact iff_of_true rfl hlow
    · rw [if_pos ((isSig_eq_zero _).mpr hlow)]
      exact iff_of_false nofun hlow
  constructor
  · intro h i ha hpc hany
    subst ha
    have ht := sleepStep_sigCheck hpc
    exact (hanswer i hpc _ ht).mp ((h i rfl hpc _ ht).mpr hany)
  · intro h i ha hpc t ht
    subst ha
    rw [hanswer i hpc t ht]
    exact ⟨fun ⟨k, _, hk⟩ => ⟨k, hk⟩, h i rfl hpc⟩

/-- **A signalled waiter gives up, except for high signals.**  In a run of any number of processes,
every process that has left `wait_event_interruptible` returns `-EINTR` exactly if it has a pending
signal that is not blocked, if and only if whoever has one has one at position 0 to 31 of its
word. -/
theorem eintrExact_iff (acts : List (Act w ι)) :
    Along sleepStep EintrExact (State.init : State w ι) acts ↔
      Along sleepStep LowSignal (State.init : State w ι) acts :=
  along_iff_along (I := fun _ => True) (fun _ _ _ _ _ _ => trivial)
    (fun s a _ => eintrExact_iff_lowSignal s a) trivial

/-- Process 1 sleeps while process 0 has the file, and gets signal 34 of a 64-bit word. -/
def signalled : List (Act 64 ℕ) :=
  [.moduleOpen 0 false, .step 0, .moduleOpen 1 false, .step 1, .step 1, .step 1, .step 1,
    .signal 1 ⟨true, [(1 <<< 33, 0)]⟩, .step 1]

/-- It returns to the `cmpxchg` of the loop. -/
theorem not_eintrExact_signalled :
    ¬Along sleepStep EintrExact (State.init : State 64 ℕ) (signalled ++ [.step 1]) := by
  intro h
  have hlast := h.last (t := _) rfl
  have hunblocked : ∃ k, (⟨true, [(1 <<< 33, 0)]⟩ : Signals 64).Unblocked k :=
    ⟨33, _, List.mem_cons_self, rfl, rfl⟩
  exact nomatch (hlast 1 rfl rfl _ rfl).mpr hunblocked

/-! ### The process that is not heard -/

/-- Once round the `while` loop while the file is open. -/
theorem run_deaf_round {s : State w ι} {i : ι} (hpc : s.pc i = .loopCas) (hopen : s.alreadyOpen ≠ 0)
    (hpending : (s.signals i).signalPending = true)
    (hdeaf : ¬∃ k < 32, (s.signals i).Unblocked k) :
    run sleepStep s [.step i, .step i, .step i] = some s := by
  have hcas : cmpxchg s.alreadyOpen 0 1 = (s.alreadyOpen, s.alreadyOpen) := by
    simp [cmpxchg, hopen]
  have hsame : ∀ l, (Function.update (Function.update s.pc i l) i .loopCas) = s.pc := by
    intro l
    rw [Function.update_idem, ← hpc, Function.update_eq_self]
  have h₁ : sleepStep s (.step i) = some { s with pc := Function.update s.pc i .waitCheck } := by
    simp [sleepStep, hpc, openStep, hcas, hopen]
  have h₂ : sleepStep { s with pc := Function.update s.pc i .waitCheck } (.step i) =
      some { s with pc := Function.update s.pc i .sigCheck } := by
    simp [sleepStep, openStep, hpending]
  have h₃ : sleepStep { s with pc := Function.update s.pc i .sigCheck } (.step i) = some s := by
    rw [sleepStep_sigCheck (Function.update_self _ _ _), if_pos ((isSig_eq_zero _).mpr hdeaf)]
    exact congrArg some (congrArg (fun pc => { s with pc := pc }) (hsame _))
  rw [run_cons, h₁, Option.bind_some, run_cons, h₂, Option.bind_some, run_cons, h₃]
  rfl

/-- **Busy waiting.**  A process with a pending signal that the test misses does not sleep and does
not return: any number of rounds brings it back to where it was. -/
theorem run_deaf {s : State w ι} {i : ι} (hpc : s.pc i = .loopCas) (hopen : s.alreadyOpen ≠ 0)
    (hpending : (s.signals i).signalPending = true)
    (hdeaf : ¬∃ k < 32, (s.signals i).Unblocked k) (rounds : ℕ) :
    run sleepStep s (List.replicate rounds [.step i, .step i, .step i]).flatten = some s := by
  induction rounds with
  | zero => rfl
  | succ rounds ih =>
      rw [List.replicate_succ, List.flatten_cons]
      exact run_trans (run_deaf_round hpc hopen hpending hdeaf) ih

end Lkmpg.Sleep
