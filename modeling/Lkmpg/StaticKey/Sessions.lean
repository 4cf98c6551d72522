import Lkmpg.Lib.ExclusiveFlag
import Lkmpg.Lib.StringStream
import Lkmpg.Lib.Transition
import Lkmpg.StaticKey.Command

/-!
# The sessions of `static_key.c`

One process at a time has the device: `device_open` takes `already_open` with a `cmpxchg` and prints
the state of the key into the global `msg`; `device_write` switches the key, and `device_read` copies
the message from the position of the file on.  The message is not printed again, so a session reads
the state that the key had when it began, whatever it writes itself.

A label is the `cmpxchg` of a `device_open`, its `sprintf`, or a whole call of another function, which
nobody interrupts: no other process has the file.
-/

namespace Lkmpg.StaticKey

open CString ExclusiveFlag LinearMem StringStream Transition

/-- A call of `device_write`, with what is in `command` before and how far `copy_from_user` gets. -/
structure Write where
  command : ℕ → Byte
  buffer : ℕ → Byte
  copied : ℕ
  length : ℕ

/-- The key after a call. -/
def Write.switch (w : Write) (fkey : Bool) : Bool :=
  (deviceWrite w.command fkey w.buffer w.copied w.length).2

/-- An open file: `*offset`, and what the calls of `device_read` have put into the buffers. -/
structure File where
  offset : ℕ
  chunks : List (List Byte)

inductive Pc
  /-- not in a call, and without the file -/
  | idle
  /-- `device_open` is about to print the message -/
  | sprintf
  | opened (f : File)

structure State (ι : Type) where
  alreadyOpen : ℤ
  fkey : Bool
  msg : ℕ → Byte
  pc : ι → Pc

/-- After module load; `DEFINE_STATIC_KEY_FALSE(fkey)`. -/
def State.init {ι : Type} : State ι := ⟨0, false, fun _ => 0, fun _ => .idle⟩

inductive Act (ι : Type)
  | deviceOpen (i : ι)
  | sprintf (i : ι)
  | deviceRead (i : ι) (length : ℕ)
  | deviceWrite (i : ι) (w : Write)
  | deviceRelease (i : ι)

/-- What `sprintf` prints. -/
def stateText (fkey : Bool) : List Byte := if fkey then bytes "enabled\n" else bytes "disabled\n"

/-- The loop of `device_read`, from `msg_ptr` on. -/
def readLoop (msg : ℕ → Byte) : ℕ → ℕ → List Byte
  | _, 0 => []
  | ptr, length + 1 => if msg ptr ≠ 0 then msg ptr :: readLoop msg (ptr + 1) length else []

def deviceRead (msg : ℕ → Byte) (f : File) (length : ℕ) : File :=
  if msg f.offset = 0 then ⟨0, f.chunks ++ [[]]⟩
  else
    let chunk := readLoop msg f.offset length
    ⟨f.offset + chunk.length, f.chunks ++ [chunk]⟩

variable {ι : Type} [DecidableEq ι]

def keyStep (s : State ι) : Act ι → Option (State ι)
  | .deviceOpen i =>
      match s.pc i with
      | .idle =>
          if (cmpxchg s.alreadyOpen 0 1).1 ≠ 0 then some s
          else some { s with
            alreadyOpen := (cmpxchg s.alreadyOpen 0 1).2
            pc := Function.update s.pc i .sprintf }
      | _ => none
  | .sprintf i =>
      match s.pc i with
      | .sprintf => some { s with
          msg := write s.msg 0 (stateText s.fkey ++ [0])
          pc := Function.update s.pc i (.opened ⟨0, []⟩) }
      | _ => none
  | .deviceRead i length =>
      match s.pc i with
      | .opened f => some { s with
          pc := Function.update s.pc i (.opened (deviceRead s.msg f length)) }
      | _ => none
  | .deviceWrite i w =>
      match s.pc i with
      | .opened _ => some { s with fkey := w.switch s.fkey }
      | _ => none
  | .deviceRelease i =>
      match s.pc i with
      | .opened _ => some { s with alreadyOpen := 0, pc := Function.update s.pc i .idle }
      | _ => none

/-- The key after the writes of a history. -/
def keyAfter (acts : List (Act ι)) : Bool :=
  acts.foldl (fun fkey a => match a with
    | .deviceWrite _ w => w.switch fkey
    | _ => fkey) false

/-! ### Reading the message -/

section Read

variable {msg : ℕ → Byte} {text : List Byte} {ptr length : ℕ} {f : File}

/-- The loop copies what is left of the string, up to the length. -/
theorem readLoop_stringAt (h : StringAt msg text) (hle : ptr ≤ text.length) (length : ℕ) :
    readLoop msg ptr length = (text.drop ptr).take length := by
  induction length generalizing ptr with
  | zero => simp [readLoop]
  | succ length ih =>
      rw [readLoop]
      by_cases hend : ptr = text.length
      · rw [if_neg (not_not.mpr ((h.eq_zero_iff hle).mpr hend)), hend, List.drop_length,
          List.take_nil]
      · have hlt : ptr < text.length := by omega
        have hcell : text[ptr] = msg ptr := by
          have hget := h.cell ptr hlt
          rw [List.getElem?_eq_getElem hlt] at hget
          exact Option.some.inj hget
        rw [if_pos (h.ne_zero hlt), ih hlt, List.drop_eq_getElem_cons hlt, List.take_succ_cons, hcell]

/-- **Step.**  A call continues the stream of the message. -/
theorem deviceRead_streams (h : StringAt msg text) (hlen : 0 < length)
    (hs : Streams text f.offset f.chunks) :
    Streams text (deviceRead msg f length).offset (deviceRead msg f length).chunks := by
  rw [deviceRead]
  have hend := h.eq_zero_iff hs.offset_le
  by_cases hzero : msg f.offset = 0
  · rw [if_pos hzero]
    exact hs.endOfFile (hend.mp hzero)
  · rw [if_neg hzero]
    have hlt : f.offset < text.length :=
      Nat.lt_of_le_of_ne hs.offset_le fun heq => hzero (hend.mpr heq)
    have hchunk := readLoop_stringAt h hs.offset_le length
    have hlength : (readLoop msg f.offset length).length = min length (text.length - f.offset) := by
      rw [hchunk, List.length_take, List.length_drop]
    refine hs.chunk ?_ ?_ ?_
    · intro hnil
      rw [hnil, List.length_nil] at hlength
      omega
    · rw [hlength]
      omega
    · rw [List.take_add, hlength, hchunk]
      congr 1
      rcases Nat.le_total length (text.length - f.offset) with hle | hle
      · rw [Nat.min_eq_left hle]
      · rw [Nat.min_eq_right hle, List.take_of_length_le (by rw [List.length_drop]),
          List.take_of_length_le (by rw [List.length_drop]; exact hle)]

end Read

/-! ### What each step can do -/

/-- The process has won the `cmpxchg` and not yet released the device. -/
def Pc.Holds : Pc → Prop
  | .idle => False
  | _ => True

/-- The number of bytes asked for is positive. -/
def Act.Positive : Act ι → Prop
  | .deviceRead _ length => 0 < length
  | _ => True

section Steps

variable {s t : State ι} {i : ι} {length : ℕ} {w : Write}

theorem deviceOpen_eq_some (h : keyStep s (.deviceOpen i) = some t) :
    s.pc i = .idle ∧ (s.alreadyOpen ≠ 0 ∧ t = s ∨ s.alreadyOpen = 0 ∧ t = { s with
      alreadyOpen := 1
      pc := Function.update s.pc i .sprintf }) := by
  simp only [keyStep] at h
  split at h
  · rename_i hi
    split at h
    · rename_i hne
      exact ⟨hi, Or.inl ⟨hne, (Option.some.inj h).symm⟩⟩
    · rename_i heq
      have hzero : s.alreadyOpen = 0 := not_not.mp heq
      rw [cmpxchg_snd_of_eq hzero] at h
      exact ⟨hi, Or.inr ⟨hzero, (Option.some.inj h).symm⟩⟩
  · cases h

theorem sprintf_eq_some (h : keyStep s (.sprintf i) = some t) :
    s.pc i = .sprintf ∧ t = { s with
      msg := write s.msg 0 (stateText s.fkey ++ [0])
      pc := Function.update s.pc i (.opened ⟨0, []⟩) } := by
  simp only [keyStep] at h
  split at h
  · rename_i hi
    exact ⟨hi, (Option.some.inj h).symm⟩
  · cases h

theorem deviceRead_eq_some (h : keyStep s (.deviceRead i length) = some t) :
    ∃ f, s.pc i = .opened f ∧
      t = { s with pc := Function.update s.pc i (.opened (deviceRead s.msg f length)) } := by
  simp only [keyStep] at h
  split at h
  · rename_i f hi
    exact ⟨f, hi, (Option.some.inj h).symm⟩
  · cases h

theorem deviceWrite_eq_some (h : keyStep s (.deviceWrite i w) = some t) :
    t = { s with fkey := w.switch s.fkey } := by
  simp only [keyStep] at h
  split at h
  · exact (Option.some.inj h).symm
  · cases h

theorem deviceRelease_eq_some (h : keyStep s (.deviceRelease i) = some t) :
    ∃ f, s.pc i = .opened f ∧
      t = { s with alreadyOpen := 0, pc := Function.update s.pc i .idle } := by
  simp only [keyStep] at h
  split at h
  · rename_i f hi
    exact ⟨f, hi, (Option.some.inj h).symm⟩
  · cases h

end Steps

/-! ### One process at a time -/

variable {s t : State ι} {i : ι} {a : Act ι} {acts acts' : List (Act ι)}

/-- The device is held by one process or free. -/
def Guarded (s : State ι) : Prop := Exclusive Pc.Holds s.alreadyOpen s.pc

omit [DecidableEq ι] in
theorem guarded_init : Guarded (State.init : State ι) := Or.inr ⟨rfl, fun _ h => h⟩

theorem Guarded.step (h : Guarded s) (hstep : keyStep s a = some t) : Guarded t := by
  cases a with
  | deviceOpen i =>
      obtain ⟨-, ⟨-, rfl⟩ | ⟨hzero, rfl⟩⟩ := deviceOpen_eq_some hstep
      · exact h
      · rw [Guarded, hzero] at h
        exact h.acquire trivial
  | sprintf i =>
      obtain ⟨hi, rfl⟩ := sprintf_eq_some hstep
      exact Exclusive.move h (iff_of_true trivial (hi ▸ trivial))
  | deviceRead i length =>
      obtain ⟨f, hi, rfl⟩ := deviceRead_eq_some hstep
      exact Exclusive.move h (iff_of_true trivial (hi ▸ trivial))
  | deviceWrite i w =>
      rw [deviceWrite_eq_some hstep]
      exact h
  | deviceRelease i =>
      obtain ⟨f, hi, rfl⟩ := deviceRelease_eq_some hstep
      exact Exclusive.release h (i := i) (hi ▸ trivial) id

theorem guarded_run (hrun : run keyStep State.init acts = some s) : Guarded s :=
  run_invariant (fun _ _ _ h hstep => h.step hstep) guarded_init hrun

/-! ### The key -/

theorem keyAfter_concat (acts : List (Act ι)) (a : Act ι) (h : keyStep s a = some t)
    (hs : s.fkey = keyAfter acts) : t.fkey = keyAfter (acts ++ [a]) := by
  rw [keyAfter, List.foldl_append, ← keyAfter, ← hs]
  cases a with
  | deviceOpen i =>
      obtain ⟨-, ⟨-, rfl⟩ | ⟨-, rfl⟩⟩ := deviceOpen_eq_some h
      · rfl
      · rfl
  | sprintf i =>
      obtain ⟨-, rfl⟩ := sprintf_eq_some h
      rfl
  | deviceRead i length =>
      obtain ⟨f, -, rfl⟩ := deviceRead_eq_some h
      rfl
  | deviceWrite i w =>
      rw [deviceWrite_eq_some h]
      rfl
  | deviceRelease i =>
      obtain ⟨f, -, rfl⟩ := deviceRelease_eq_some h
      rfl

/-- The key is what the writes so far have made of it. -/
theorem fkey_run (hrun : run keyStep State.init acts = some s) : s.fkey = keyAfter acts := by
  have hstep : ∀ ls (u : State ι) a v, run keyStep State.init ls = some u → u.fkey = keyAfter ls →
      True → keyStep u a = some v → v.fkey = keyAfter (ls ++ [a]) :=
    fun ls u a v _ hu _ h => keyAfter_concat ls a h hu
  exact run_induction_history hstep rfl (Along.of_forall fun _ _ => trivial) hrun

/-! ### A session -/

/-- Process `i` has the file, and what it reads is the text of `fkey` over and over. -/
structure Shows (i : ι) (fkey : Bool) (s : State ι) : Prop where
  msg : StringAt s.msg (stateText fkey)
  streams : ∃ f, s.pc i = .opened f ∧ Streams (stateText fkey) f.offset f.chunks

omit [DecidableEq ι] in
theorem Shows.holds {fkey : Bool} (h : Shows i fkey s) : (s.pc i).Holds := by
  obtain ⟨f, hi, -⟩ := h.streams
  rw [hi]
  trivial

theorem stateText_ne_zero (fkey : Bool) : ∀ c ∈ stateText fkey, c ≠ 0 := by
  cases fkey <;> decide

/-- `sprintf` begins the session. -/
theorem shows_sprintf (h : keyStep s (.sprintf i) = some t) : Shows i s.fkey t := by
  obtain ⟨-, rfl⟩ := sprintf_eq_some h
  refine ⟨stringAt_write s.msg (stateText_ne_zero s.fkey), ⟨0, []⟩, ?_, streams_start _⟩
  exact Function.update_self i _ s.pc

/-- Process `i` keeps the file, and asks for bytes when it reads. -/
def InSession (i : ι) (a : Act ι) : Prop := a ≠ .deviceRelease i ∧ a.Positive

/-- **Step.**  While one process has the file nobody prints a message, and a write does not either. -/
theorem Shows.step {fkey : Bool} (h : Shows i fkey s) (hs : Guarded s) (ha : InSession i a)
    (hstep : keyStep s a = some t) : Shows i fkey t := by
  obtain ⟨f, hi, hstreams⟩ := h.streams
  have hself : ∀ j, (s.pc j).Holds → j = i := fun j hj => Exclusive.unique hs hj h.holds
  cases a with
  | deviceOpen j =>
      obtain ⟨hj, ⟨-, rfl⟩ | ⟨hzero, rfl⟩⟩ := deviceOpen_eq_some hstep
      · exact h
      · exact absurd h.holds ((Exclusive.eq_zero_iff hs).mp hzero i)
  | sprintf j =>
      obtain ⟨hj, rfl⟩ := sprintf_eq_some hstep
      obtain rfl := hself j (hj ▸ trivial)
      rw [hi] at hj
      cases hj
  | deviceRead j length =>
      obtain ⟨g, hj, rfl⟩ := deviceRead_eq_some hstep
      obtain rfl := hself j (hj ▸ trivial)
      obtain rfl := Pc.opened.inj (hi.symm.trans hj)
      refine ⟨h.msg, deviceRead s.msg f length, Function.update_self j _ s.pc, ?_⟩
      exact deviceRead_streams h.msg ha.2 hstreams
  | deviceWrite j w =>
      rw [deviceWrite_eq_some hstep]
      exact ⟨h.msg, f, hi, hstreams⟩
  | deviceRelease j =>
      obtain ⟨g, hj, rfl⟩ := deviceRelease_eq_some hstep
      obtain rfl := hself j (hj ▸ trivial)
      exact absurd rfl ha.1

/-- **Sessions.**  After any calls `acts` a process that has won the device prints the message, and
`acts'` follow until it releases the device.  Then nobody else has the device, what the process has
read is the text of the state in which `acts` have left the key, over and over, whatever is written in
`acts'`, and the key is what all writes have made of it. -/
theorem session_shows_key {u v : State ι} (hrun : run keyStep State.init acts = some u)
    (hprint : keyStep u (.sprintf i) = some v) (hacts : ∀ a ∈ acts', InSession i a)
    (hrest : run keyStep v acts' = some t) :
    (∀ j, (t.pc j).Holds → j = i) ∧
    (∃ f, t.pc i = .opened f ∧ Streams (stateText (keyAfter acts)) f.offset f.chunks) ∧
    t.fkey = keyAfter (acts ++ .sprintf i :: acts') := by
  have hu := guarded_run hrun
  have hstep : ∀ (s : State ι) a r, Guarded s ∧ Shows i u.fkey s → InSession i a →
      keyStep s a = some r → Guarded r ∧ Shows i u.fkey r := by
    rintro s a r ⟨hs, hshows⟩ ha hstep
    exact ⟨hs.step hstep, hshows.step hs ha hstep⟩
  have hinv : Guarded t ∧ Shows i u.fkey t :=
    run_induction hstep ⟨hu.step hprint, shows_sprintf hprint⟩ (Along.of_forall hacts) hrest
  have hwhole : run keyStep State.init (acts ++ .sprintf i :: acts') = some t :=
    run_trans hrun (run_cons_eq_some.mpr ⟨v, hprint, hrest⟩)
  refine ⟨fun j hj => Exclusive.unique hinv.1 hj hinv.2.holds, ?_, fkey_run hwhole⟩
  rw [← fkey_run hrun]
  exact hinv.2.streams

/-- The call `write(fd, "enable", 6)`. -/
def enable : Write := ⟨fun _ => 0, fun n => (bytes "enable").getD n 0, 6, 6⟩

/-- Process 0 enables the key and reads, and process 1 opens the device after it. -/
theorem session_shows_key_second :
    ∃ t f, run keyStep (State.init : State (Fin 2)) ([.deviceOpen 0, .deviceOpen 1, .sprintf 0,
        .deviceWrite 0 enable, .deviceRead 0 80, .deviceRelease 0, .deviceOpen 1] ++ [.sprintf 1,
        .deviceRead 1 3, .deviceRead 1 80]) = some t ∧
      t.pc 1 = .opened f ∧ Streams (bytes "enabled\n") f.offset f.chunks := by
  obtain ⟨u, hu⟩ : ∃ u, run keyStep (State.init : State (Fin 2)) [.deviceOpen 0, .deviceOpen 1,
      .sprintf 0, .deviceWrite 0 enable, .deviceRead 0 80, .deviceRelease 0, .deviceOpen 1] =
      some u := ⟨_, rfl⟩
  obtain ⟨v, hv⟩ : ∃ v, keyStep u (.sprintf 1) = some v := by
    obtain rfl := Option.some.inj hu
    exact ⟨_, rfl⟩
  obtain ⟨t, ht⟩ : ∃ t, run keyStep v [.deviceRead 1 3, .deviceRead 1 80] = some t := by
    obtain rfl := Option.some.inj hu
    obtain rfl := Option.some.inj hv
    exact ⟨_, rfl⟩
  have hacts : ∀ a ∈ [Act.deviceRead (1 : Fin 2) 3, .deviceRead 1 80], InSession 1 a := by
    simp [InSession, Act.Positive]
  obtain ⟨f, hf, hstreams⟩ := (session_shows_key hu hv hacts ht).2.1
  exact ⟨t, f, run_trans hu (run_cons_eq_some.mpr ⟨v, hv, ht⟩), hf, hstreams⟩

end Lkmpg.StaticKey
