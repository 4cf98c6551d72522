import Lkmpg.Lib.Transition
import Lkmpg.Vkbd.Text

/-!
# Concurrent `vinput_vkbd_send` calls

Each call assigns `last_entry` under the lock of the vdevice and reports its event after it has
dropped the lock.  The order of the reports need not be the order of the assignments, so what
`vinput_vkbd_read` shows when all calls have returned can be an event that was not the last one.
-/

namespace Lkmpg.Vkbd

open CString LinearMem Transition

/-- Where a process is. -/
inductive SendPc where
  /-- not in `vinput_vkbd_send` -/
  | idle
  /-- before the locked section -/
  | parsed (key : BitVec 64)
  /-- between the locked section and `input_report_key` -/
  | stored (key : BitVec 64)
  deriving DecidableEq

structure State (ι : Type) where
  lastEntry : BitVec 64
  /-- what has been reported to the input subsystem, oldest first, each report with the `key` of its
  call -/
  reports : List (BitVec 64 × KeyReport)
  pc : ι → SendPc

/-- No call is in progress, and none has been. -/
def State.start {ι : Type} (lastEntry : BitVec 64) : State ι := ⟨lastEntry, [], fun _ => .idle⟩

inductive Act (ι : Type) where
  /-- a call of `vinput_vkbd_send`, up to the locked section -/
  | send (i : ι) (buff : List Byte) (len : ℕ)
  /-- the locked section, or the report and the return -/
  | step (i : ι)

variable {ι : Type} [DecidableEq ι]

def sendStep (s : State ι) : Act ι → Option (State ι)
  | .send i buff len =>
      match s.pc i with
      | .idle =>
          some { s with pc := Function.update s.pc i (.parsed (vinputVkbdSend buff len).lastEntry) }
      | _ => none
  | .step i =>
      match s.pc i with
      | .idle => none
      | .parsed key => some { s with lastEntry := key, pc := Function.update s.pc i (.stored key) }
      | .stored key =>
          some { s with
            reports := s.reports ++ [(key, keyReport key)]
            pc := Function.update s.pc i .idle }

/-- A call parses its text first. -/
theorem send_eq_some {s t : State ι} {i : ι} {buff : List Byte} {len : ℕ}
    (h : sendStep s (.send i buff len) = some t) :
    s.pc i = .idle ∧
      t = { s with pc := Function.update s.pc i (.parsed (vinputVkbdSend buff len).lastEntry) } := by
  rw [sendStep] at h
  split at h
  · exact ⟨‹_›, (Option.some.inj h).symm⟩
  · cases h

/-- It assigns `last_entry`, and then reports. -/
theorem step_eq_some {s t : State ι} {i : ι} (h : sendStep s (.step i) = some t) :
    (∃ key, s.pc i = .parsed key ∧
      t = { s with lastEntry := key, pc := Function.update s.pc i (.stored key) }) ∨
    ∃ key, s.pc i = .stored key ∧ t = { s with
      reports := s.reports ++ [(key, keyReport key)], pc := Function.update s.pc i .idle } := by
  rw [sendStep] at h
  split at h
  · cases h
  · rename_i key hi
    exact Or.inl ⟨key, hi, (Option.some.inj h).symm⟩
  · rename_i key hi
    exact Or.inr ⟨key, hi, (Option.some.inj h).symm⟩

/-- A call that nobody disturbs does what `vinputVkbdSend` says. -/
theorem run_send {s : State ι} {i : ι} (h : s.pc i = .idle) (buff : List Byte) (len : ℕ) :
    ∃ t, run sendStep s [.send i buff len, .step i, .step i] = some t ∧ t.pc = s.pc ∧
      t.lastEntry = (vinputVkbdSend buff len).lastEntry ∧
      t.reports = s.reports ++
        [((vinputVkbdSend buff len).lastEntry, (vinputVkbdSend buff len).report)] := by
  have hreport : keyReport (vinputVkbdSend buff len).lastEntry =
      (vinputVkbdSend buff len).report := by
    rw [vinputVkbdSend]
    split <;> rfl
  obtain ⟨key, hkey⟩ : ∃ key, key = (vinputVkbdSend buff len).lastEntry := ⟨_, rfl⟩
  rw [← hreport, ← hkey]
  have hfirst : sendStep s (.send i buff len) =
      some { s with pc := Function.update s.pc i (.parsed key) } := by
    rw [sendStep, h, hkey]
  have hsecond : sendStep { s with pc := Function.update s.pc i (.parsed key) } (.step i) =
      some { s with lastEntry := key, pc := Function.update s.pc i (.stored key) } := by
    simp only [sendStep, Function.update_self, Function.update_idem]
  have hthird : sendStep { s with lastEntry := key, pc := Function.update s.pc i (.stored key) }
      (.step i) = some { s with
        lastEntry := key
        reports := s.reports ++ [(key, keyReport key)]
        pc := s.pc } := by
    have hback : Function.update s.pc i .idle = s.pc := by rw [← h, Function.update_eq_self]
    simp only [sendStep, Function.update_self, Function.update_idem, hback]
  refine ⟨{ s with lastEntry := key, reports := s.reports ++ [(key, keyReport key)] }, ?_,
    rfl, rfl, rfl⟩
  rw [run_cons, hfirst, Option.bind_some, run_cons, hsecond, Option.bind_some, run_cons, hthird]
  rfl

/-! ### What is read back -/

/-- The text is the value's own. -/
theorem entryText_injective {v w : BitVec 64} (h : entryText v = entryText w) : v = w := by
  have hnil : ([] : List Byte).headD 0 = 0 := rfl
  have hv := parseKey_entryText v hnil
  rw [h, parseKey_entryText w hnil] at hv
  exact (BitVec.toInt_inj.mp (Except.ok.inj hv)).symm

/-- If no call is in progress, `vinput_vkbd_read` produces the text for the event that was reported
last. -/
def ReadsLast (s : State ι) : Prop :=
  (∀ i, s.pc i = .idle) → ∀ last ∈ s.reports.getLast?, ∀ (buff : ℕ → Byte) (len : ℕ),
    vinputVkbdRead s.lastEntry buff len = vinputVkbdRead last.1 buff len

/-- The locked section is next. -/
def SendPc.assigns : SendPc → Bool
  | .parsed _ => true
  | _ => false

/-- The locked section has been, and the report is next. -/
def SendPc.pending : SendPc → Bool
  | .stored _ => true
  | _ => false

/-- No call assigns `last_entry` between the assignment of another call and its report. -/
def Apart (s : State ι) : Act ι → Prop
  | .send _ _ _ => True
  | .step i => (s.pc i).assigns = true → ∀ j, (s.pc j).pending = false

instance [Fintype ι] (s : State ι) : ∀ act, Decidable (Apart s act)
  | .send _ _ _ => isTrue trivial
  | .step i => inferInstanceAs (Decidable ((s.pc i).assigns = true → ∀ j, (s.pc j).pending = false))

omit [DecidableEq ι] in
theorem vinputVkbdRead_eq_iff {v w : BitVec 64} :
    (∀ (buff : ℕ → Byte) (len : ℕ), vinputVkbdRead v buff len = vinputVkbdRead w buff len) ↔
      v = w := by
  refine ⟨fun h => entryText_injective ?_, fun h _ _ => by rw [h]⟩
  have hv : (vinputVkbdRead v (fun _ => 0) 22).2 < 22 :=
    Nat.lt_of_le_of_lt (length_entryText_le v) (by decide)
  have hw : (vinputVkbdRead w (fun _ => 0) 22).2 < 22 :=
    Nat.lt_of_le_of_lt (length_entryText_le w) (by decide)
  have hread : read (vinputVkbdRead v (fun _ => 0) 22).1 0 (vinputVkbdRead v (fun _ => 0) 22).2 =
      entryText v := read_snprintf _ hv
  rw [h (fun _ => 0) 22] at hread
  exact hread.symm.trans (read_snprintf _ hw)

omit [DecidableEq ι] in
theorem readsLast_iff {s : State ι} :
    ReadsLast s ↔
      ((∀ i, s.pc i = .idle) → ∀ last ∈ s.reports.getLast?, s.lastEntry = last.1) := by
  simp only [ReadsLast, vinputVkbdRead_eq_iff]

/-- What calls that keep apart maintain: `last_entry` is the event of the call that has yet to report,
and of the last report if there is no such call. -/
structure InStep (s : State ι) : Prop where
  pending : ∀ i key, s.pc i = .stored key → s.lastEntry = key
  reported : (∀ i, (s.pc i).pending = false) → ∀ last ∈ s.reports.getLast?, s.lastEntry = last.1

omit [DecidableEq ι] in
theorem inStep_start (lastEntry : BitVec 64) : InStep (State.start lastEntry : State ι) :=
  ⟨nofun, nofun⟩

omit [DecidableEq ι] in
theorem InStep.readsLast {s : State ι} (hs : InStep s) : ReadsLast s :=
  readsLast_iff.mpr fun hidle => hs.reported fun i => by rw [hidle i]; rfl

/-- Where one process goes, and the others stay. -/
theorem pending_update {s : State ι} {i : ι} {l : SendPc} {entry : BitVec 64}
    (hself : ∀ key, l = .stored key → entry = key)
    (hothers : ∀ j key, s.pc j = .stored key → entry = key) :
    ∀ j key, Function.update s.pc i l j = .stored key → entry = key :=
  (Function.forall_update_iff s.pc fun _ l => ∀ key, l = .stored key → entry = key).mpr
    ⟨hself, fun j _ => hothers j⟩

/-- **Step.** -/
theorem InStep.step {s t : State ι} {act : Act ι} (hs : InStep s) (hC : Apart s act)
    (h : sendStep s act = some t) : InStep t := by
  cases act with
  | send i buff len =>
      obtain ⟨hi, rfl⟩ := send_eq_some h
      refine ⟨pending_update nofun hs.pending, fun hnone => hs.reported fun j => ?_⟩
      by_cases hji : j = i
      · rw [hji, hi]
        rfl
      · exact (congrArg SendPc.pending (Function.update_of_ne hji _ _)).symm.trans (hnone j)
  | step i =>
      obtain ⟨key, hi, rfl⟩ | ⟨key, hi, rfl⟩ := step_eq_some h
      · -- nobody else has anything to report
        have halone : ∀ j, (s.pc j).pending = false := hC (by rw [hi]; rfl)
        refine ⟨pending_update (fun key' hself => SendPc.stored.inj hself) fun j key' hj => ?_,
          fun hnone => ?_⟩
        · have hfalse := halone j
          rw [hj] at hfalse
          cases hfalse
        · have hself := (congrArg SendPc.pending (Function.update_self i _ s.pc)).symm.trans (hnone i)
          cases hself
      · refine ⟨pending_update nofun hs.pending, fun _ last hlast => ?_⟩
        rw [show (s.reports ++ [(key, keyReport key)]).getLast? = some (key, keyReport key) from
          List.getLast?_concat] at hlast
        rw [← Option.some.inj hlast]
        exact hs.pending i key hi

/-- **Readback.**  In every interleaving of any number of `vinput_vkbd_send` calls on one vdevice,
with any inputs, in which no locked section falls between the locked section of another call and its
report: in every state in which no call is in progress `vinput_vkbd_read` shows the event that was
reported last. -/
theorem readback_last {lastEntry : BitVec 64} {acts : List (Act ι)}
    (h : Along sendStep Apart (State.start lastEntry) acts) :
    Throughout sendStep ReadsLast (State.start lastEntry) acts :=
  throughout_of_along (fun _ _ _ hs hC hstep => hs.step hC hstep) (fun _ hs => hs.readsLast)
    (inStep_start lastEntry) h

/-- Two calls overlap, but not between assignment and report. -/
theorem readback_last_overlapping :
    ∃ t, run sendStep (State.start 0 : State (Fin 2))
        [.send 0 (bytes "+1") 2, .send 1 (bytes "+2") 2, .step 1, .step 1, .step 0, .step 0] =
      some t ∧ t.reports = [(2, keyReport 2), (1, keyReport 1)] ∧ ReadsLast t := by
  obtain ⟨t, hrun⟩ : ∃ t, run sendStep (State.start 0 : State (Fin 2))
      [.send 0 (bytes "+1") 2, .send 1 (bytes "+2") 2, .step 1, .step 1, .step 0, .step 0] =
    some t := ⟨_, rfl⟩
  refine ⟨t, hrun, ?_, (readback_last (by decide +kernel)).last hrun⟩
  obtain rfl := Option.some.inj hrun
  decide +kernel

/-! ### An event that is overtaken -/

/-- Process 0 sends `+1` and process 1 sends `+2`; the assignments come in this order, the reports in
the other. -/
def overtaken : List (Act (Fin 2)) :=
  [.send 0 (bytes "+1") 2, .send 1 (bytes "+2") 2, .step 0, .step 1, .step 1, .step 0]

/-- Afterwards `+2` is read back, though `+1` was reported last. -/
theorem not_reads_last :
    ¬∀ (lastEntry : BitVec 64) (acts : List (Act (Fin 2))),
      Throughout sendStep ReadsLast (State.start lastEntry) acts := by
  intro hall
  obtain ⟨t, hrun, hidle, hentry, hlast⟩ :
      ∃ t, run sendStep (State.start 0) overtaken = some t ∧ (∀ i, t.pc i = .idle) ∧
        t.lastEntry = 2 ∧ t.reports.getLast? = some (1, keyReport 1) :=
    ⟨_, rfl, by decide +kernel, by decide +kernel, by decide +kernel⟩
  have hreads : ReadsLast t := (hall 0 overtaken).last hrun
  have hsame := readsLast_iff.mp hreads hidle _ hlast
  rw [hentry] at hsame
  exact absurd hsame (by decide)

end Lkmpg.Vkbd
