import Lkmpg.Lib.Transition
import Lkmpg.Lib.UserCopy

/-!
# Writing to `/proc/buffer1k`

`procfile_write` of `procfs2.c` puts the length that it is asked for into `procfs_buffer_size` and
cuts it down there.  The size is everybody's: the calls on the other open files also see it before it
has been cut.  Every access to it is a step, and the steps of the calls come in any order; two calls on
one file wait for each other.

A length that is too large is there from its assignment until it is cut.  If nobody copies or ends
a text in the meantime, every access to the buffer is inside it, and the last byte of the buffer stays
zero, so that what is printed ends.  Otherwise a text may be ended at any larger length.
-/

namespace Lkmpg.Procfs2

open LinearMem UserCopy Transition

/-- `PROCFS_MAX_SIZE` -/
def procfsMaxSize : ℕ := 1024

/-- Where a call of `procfile_write` is. -/
inductive WritePc where
  /-- `procfs_buffer_size = len` -/
  | assign
  /-- `if (procfs_buffer_size >= PROCFS_MAX_SIZE)` -/
  | test
  /-- `procfs_buffer_size = PROCFS_MAX_SIZE - 1` -/
  | cut
  /-- `copy_from_user` -/
  | copy
  /-- the zero behind the text -/
  | terminate
  /-- `*off += procfs_buffer_size` -/
  | advance
  /-- `pr_info` -/
  | print
  /-- `return procfs_buffer_size` -/
  | ret
  deriving DecidableEq

structure Call where
  buff : ℕ → Byte
  len : ℕ
  pc : WritePc

/-- The call has assigned a length that is too large, and not yet cut it. -/
def Call.Uncut (c : Call) : Prop := procfsMaxSize ≤ c.len ∧ (c.pc = .test ∨ c.pc = .cut)

variable {φ : Type}

structure State (φ : Type) where
  /-- `procfs_buffer`, and the memory behind it -/
  procfsBuffer : ℕ → Byte
  procfsBufferSize : ℕ
  /-- the call on the file -/
  calls : φ → Option Call
  /-- `*off` -/
  off : φ → ℕ
  /-- what the last call on the file has returned -/
  returned : φ → Option (Except Errno ℕ)

/-- The module has been loaded: the buffer is zero. -/
def State.init (behind : ℕ → Byte) (off : φ → ℕ) : State φ :=
  ⟨fun i => if i < procfsMaxSize then 0 else behind i, 0, fun _ => none, off, fun _ => none⟩

inductive Act (φ : Type) where
  | write (f : φ) (buff : ℕ → Byte) (len : ℕ)
  /-- the next step of the call on the file, with how far `copy_from_user` gets -/
  | step (f : φ) (copied : ℕ)

variable [DecidableEq φ]

def State.goto (s : State φ) (f : φ) (c : Call) (pc : WritePc) : State φ :=
  { s with calls := Function.update s.calls f (some { c with pc := pc }) }

def State.ret (s : State φ) (f : φ) (result : Except Errno ℕ) : State φ :=
  { s with
    calls := Function.update s.calls f none
    returned := Function.update s.returned f (some result) }

/-- The next step of the call `c` on the file `f`. -/
def callStep (s : State φ) (f : φ) (copied : ℕ) (c : Call) : State φ :=
  match c.pc with
  | .assign => { s.goto f c .test with procfsBufferSize := c.len }
  | .test => s.goto f c (if procfsMaxSize ≤ s.procfsBufferSize then .cut else .copy)
  | .cut => { s.goto f c .copy with procfsBufferSize := procfsMaxSize - 1 }
  | .copy =>
      let copy := copyFromUser s.procfsBuffer 0 c.buff copied s.procfsBufferSize
      if copy.2 ≠ 0 then { s.ret f (.error .EFAULT) with procfsBuffer := copy.1 }
      else { s.goto f c .terminate with procfsBuffer := copy.1 }
  | .terminate =>
      { s.goto f c .advance with
        procfsBuffer := Function.update s.procfsBuffer s.procfsBufferSize 0 }
  | .advance =>
      { s.goto f c .print with off := Function.update s.off f (s.off f + s.procfsBufferSize) }
  | .print => s.goto f c .ret
  | .ret => s.ret f (.ok s.procfsBufferSize)

def writeStep (s : State φ) : Act φ → Option (State φ)
  | .write f buff len =>
      match s.calls f with
      | none => some { s with calls := Function.update s.calls f (some ⟨buff, len, .assign⟩) }
      | some _ => none
  | .step f copied => (s.calls f).map (callStep s f copied)

/-- The access that the step makes to `procfs_buffer` is inside it. -/
def Inside (s : State φ) : Act φ → Prop
  | .write _ _ _ => True
  | .step f _ => ∀ c, s.calls f = some c →
      (c.pc = .copy → s.procfsBufferSize ≤ procfsMaxSize) ∧
      (c.pc = .terminate → s.procfsBufferSize < procfsMaxSize) ∧
      (c.pc = .print → ∃ i, i < procfsMaxSize ∧ s.procfsBuffer i = 0)

/-- Nobody copies or ends a text while a length that is too large has not been cut. -/
def Apart (s : State φ) : Act φ → Prop
  | .write _ _ _ => True
  | .step f _ => ∀ c, s.calls f = some c → (c.pc = .copy ∨ c.pc = .terminate) →
      ∀ g d, s.calls g = some d → ¬d.Uncut

/-- The length fits. -/
def Act.Short : Act φ → Prop
  | .write _ _ len => len < procfsMaxSize
  | .step _ _ => True

/-! ### Sizes that are too large -/

/-- A size that is too large is a length that has not been cut, and the last byte is zero. -/
structure Bounded (s : State φ) : Prop where
  uncut : procfsMaxSize ≤ s.procfsBufferSize → ∃ g c, s.calls g = some c ∧ c.Uncut
  last : s.procfsBuffer (procfsMaxSize - 1) = 0

section Bounded

variable {s t : State φ} {f : φ} {c : Call} {act : Act φ}

omit [DecidableEq φ] in
theorem bounded_init (behind : ℕ → Byte) (off : φ → ℕ) : Bounded (State.init behind off) where
  uncut h := absurd (show procfsMaxSize ≤ 0 from h) (by decide)
  last := by simp [State.init, procfsMaxSize]

/-- A step of a call that has no length to cut leaves the others theirs. -/
theorem Bounded.frame {next : Option Call} (h : Bounded s)
    (hf : ∀ c, s.calls f = some c → ¬c.Uncut) (hsize : t.procfsBufferSize = s.procfsBufferSize)
    (hbuffer : t.procfsBuffer = s.procfsBuffer)
    (hcalls : t.calls = Function.update s.calls f next) : Bounded t where
  uncut hle := by
    obtain ⟨g, d, hg, hd⟩ := h.uncut (hsize ▸ hle)
    have hgf : g ≠ f := by
      rintro rfl
      exact hf d hg hd
    exact ⟨g, d, by rw [hcalls, Function.update_of_ne hgf, hg], hd⟩
  last := by rw [hbuffer, h.last]

omit [DecidableEq φ] in
/-- Where everybody is apart, the size fits. -/
theorem Bounded.size_lt (h : Bounded s) (hnone : ∀ g d, s.calls g = some d → ¬d.Uncut) :
    s.procfsBufferSize < procfsMaxSize := by
  by_contra hle
  obtain ⟨g, d, hg, hd⟩ := h.uncut (not_lt.mp hle)
  exact hnone g d hg hd

/-- **Step of a call.** -/
theorem Bounded.callStep {copied : ℕ} (h : Bounded s) (hf : s.calls f = some c)
    (hapart : (c.pc = .copy ∨ c.pc = .terminate) → ∀ g d, s.calls g = some d → ¬d.Uncut) :
    Bounded (callStep s f copied c) := by
  have hcut : c.pc ≠ .test → c.pc ≠ .cut → ∀ d, s.calls f = some d → ¬d.Uncut := by
    rintro htest hcut d hd ⟨-, hpc⟩
    obtain rfl := Option.some.inj (hf.symm.trans hd)
    exact hpc.elim htest hcut
  unfold Procfs2.callStep
  cases hpc : c.pc with
  | assign => exact ⟨fun hle => ⟨f, _, Function.update_self _ _ _, hle, Or.inl rfl⟩, h.last⟩
  | test =>
      refine ⟨fun hle => ?_, h.last⟩
      obtain ⟨g, d, hg, hd⟩ := h.uncut hle
      by_cases hgf : g = f
      · subst hgf
        obtain rfl := Option.some.inj (hf.symm.trans hg)
        refine ⟨g, _, Function.update_self _ _ _, hd.1, Or.inr ?_⟩
        exact if_pos hle
      · exact ⟨g, d, (Function.update_of_ne hgf _ _).trans hg, hd⟩
  | cut =>
      refine ⟨fun hle => ?_, h.last⟩
      exact absurd (show procfsMaxSize ≤ procfsMaxSize - 1 from hle) (by decide)
  | copy =>
      have hlt := h.size_lt (hapart (Or.inl hpc))
      have hlast : write s.procfsBuffer 0 (arrived c.buff copied s.procfsBufferSize)
          (procfsMaxSize - 1) = 0 := by
        rw [write_of_ge _ _ (by rw [length_arrived]; omega), h.last]
      simp only
      split
      · exact ⟨fun hle => absurd hle (not_le.mpr hlt), hlast⟩
      · exact ⟨fun hle => absurd hle (not_le.mpr hlt), hlast⟩
  | terminate =>
      have hlt := h.size_lt (hapart (Or.inr hpc))
      refine ⟨fun hle => absurd hle (not_le.mpr hlt), ?_⟩
      show Function.update s.procfsBuffer s.procfsBufferSize 0 (procfsMaxSize - 1) = 0
      by_cases hlast : procfsMaxSize - 1 = s.procfsBufferSize
      · rw [hlast, Function.update_self]
      · rw [Function.update_of_ne hlast, h.last]
  | advance => exact h.frame (hcut (by rw [hpc]; nofun) (by rw [hpc]; nofun)) rfl rfl rfl
  | print => exact h.frame (hcut (by rw [hpc]; nofun) (by rw [hpc]; nofun)) rfl rfl rfl
  | ret => exact h.frame (hcut (by rw [hpc]; nofun) (by rw [hpc]; nofun)) rfl rfl rfl

/-- **Step.** -/
theorem Bounded.step (h : Bounded s) (hapart : Apart s act) (hstep : writeStep s act = some t) :
    Bounded t := by
  cases act with
  | write f buff len =>
      simp only [writeStep] at hstep
      split at hstep
      · rename_i hnone
        obtain rfl := Option.some.inj hstep
        exact h.frame (fun c hc => nomatch hnone.symm.trans hc) rfl rfl rfl
      · cases hstep
  | step f copied =>
      obtain ⟨c, hf, rfl⟩ := Option.map_eq_some_iff.mp hstep
      exact h.callStep hf (hapart c hf)

omit [DecidableEq φ] in
theorem Bounded.inside (h : Bounded s) (hapart : Apart s act) : Inside s act := by
  cases act with
  | write f buff len => trivial
  | step f copied =>
      intro c hf
      refine ⟨fun hpc => ?_, fun hpc => ?_, fun _ => ⟨_, by decide, h.last⟩⟩
      · exact Nat.le_of_lt (h.size_lt (hapart c hf (Or.inl hpc)))
      · exact h.size_lt (hapart c hf (Or.inr hpc))

end Bounded

/-! ### Runs -/

/-- No call has been asked for more than the buffer holds. -/
def AllShort (s : State φ) : Prop := ∀ f c, s.calls f = some c → c.len < procfsMaxSize

theorem AllShort.step {s t : State φ} {act : Act φ} (h : AllShort s) (hshort : act.Short)
    (hstep : writeStep s act = some t) : AllShort t := by
  have hupdate : ∀ (f : φ) (next : Option Call), (∀ c, next = some c → c.len < procfsMaxSize) →
      ∀ g c, Function.update s.calls f next g = some c → c.len < procfsMaxSize := by
    intro f next hnext g c hg
    by_cases hgf : g = f
    · subst hgf
      exact hnext c (by rw [← hg, Function.update_self])
    · rw [Function.update_of_ne hgf] at hg
      exact h g c hg
  cases act with
  | write f buff len =>
      simp only [writeStep] at hstep
      split at hstep
      · obtain rfl := Option.some.inj hstep
        refine hupdate f _ fun c hc => ?_
        obtain rfl := Option.some.inj hc
        exact hshort
      · cases hstep
  | step f copied =>
      obtain ⟨c, hf, rfl⟩ := Option.map_eq_some_iff.mp hstep
      have hgoto : ∀ pc d, some { c with pc := pc } = some d → d.len < procfsMaxSize := by
        rintro pc d hd
        obtain rfl := Option.some.inj hd
        exact h f c hf
      unfold callStep
      split
      · exact hupdate f _ (hgoto _)
      · exact hupdate f _ (hgoto _)
      · exact hupdate f _ (hgoto _)
      · simp only
        split
        · exact hupdate f none nofun
        · exact hupdate f _ (hgoto _)
      · exact hupdate f _ (hgoto _)
      · exact hupdate f _ (hgoto _)
      · exact hupdate f _ (hgoto _)
      · exact hupdate f none nofun

/-- Lengths that fit keep everybody apart. -/
theorem along_apart_of_short {behind : ℕ → Byte} {off : φ → ℕ} {acts : List (Act φ)}
    (hshort : ∀ act ∈ acts, act.Short) :
    Along writeStep Apart (State.init behind off) acts := by
  have hinit : AllShort (State.init behind off) := nofun
  refine along_of_invariant (fun _ _ _ h hact hstep => h.step hact hstep) (fun s act h _ => ?_)
    hinit (Along.of_forall hshort)
  cases act with
  | write f buff len => trivial
  | step f copied => exact fun _ _ _ g d hg hd => absurd hd.1 (not_le.mpr (h g d hg))

/-- **Run.**  In whatever order the calls take their steps, all of them stay inside the buffer if
nobody copies or ends a text while another's length waits to be cut; in particular, if all lengths
fit.  Every length that does not fit can come between another call's text and the zero behind it,
which is then stored as far away as the length says. -/
theorem writes_inside (behind : ℕ → Byte) (off : φ → ℕ) {f g : φ} (hfg : f ≠ g) :
    (∀ acts : List (Act φ), Along writeStep Apart (State.init behind off) acts ∨
        (∀ act ∈ acts, act.Short) →
      Along writeStep Inside (State.init behind off) acts) ∧
    ∀ len, procfsMaxSize ≤ len →
      ∃ acts s t, run writeStep (State.init behind off) acts = some s ∧
        ¬Inside s (.step f 1) ∧ writeStep s (.step f 1) = some t ∧
        t.procfsBuffer = Function.update s.procfsBuffer len 0 := by
  constructor
  · intro acts hacts
    have hapart : Along writeStep Apart (State.init behind off) acts :=
      hacts.elim id along_apart_of_short
    exact along_of_invariant (fun _ _ _ h hC hstep => h.step hC hstep)
      (fun _ _ h hC => h.inside hC) (bounded_init behind off) hapart
  · intro len hlen
    -- a text of one byte, and the other length before the zero behind it
    obtain ⟨s, hrun, hsize, c, hcall, hpc⟩ : ∃ s, run writeStep (State.init behind off)
        [.write f (fun _ => 0) 1, .step f 1, .step f 1, .step f 1, .write g (fun _ => 0) len,
          .step g 1] = some s ∧
        s.procfsBufferSize = len ∧ ∃ c, s.calls f = some c ∧ c.pc = .terminate := by
      simp [run_cons, writeStep, callStep, State.init, State.goto, copyFromUser, procfsMaxSize, hfg,
        hfg.symm]
    refine ⟨_, s, callStep s f 1 c, hrun, fun hinside => ?_, ?_, ?_⟩
    · have hlt := (hinside c hcall).2.1 hpc
      omega
    · simp only [writeStep, hcall, Option.map_some]
    · simp only [callStep, hpc, hsize]

/-- A process that writes 4096 bytes to its own open file. -/
theorem writes_inside_page :
    ∃ (acts : List (Act ℕ)) (s t : State ℕ),
      run writeStep (State.init (fun _ => 7) fun _ => 0) acts = some s ∧
        writeStep s (.step 0 1) = some t ∧ t.procfsBuffer 4096 = 0 := by
  obtain ⟨acts, s, t, hrun, -, hstep, hbuffer⟩ :=
    (writes_inside (fun _ => 7) (fun _ => 0) (show 0 ≠ 1 by decide)).2 4096 (by decide)
  exact ⟨acts, s, t, hrun, hstep, by simp [hbuffer]⟩

end Lkmpg.Procfs2
