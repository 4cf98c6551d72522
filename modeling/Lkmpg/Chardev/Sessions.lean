import Lkmpg.Lib.CString
import Lkmpg.Lib.ExclusiveFlag
import Lkmpg.Lib.StringStream
import Lkmpg.Lib.Transition

/-!
# The sessions of `chardev.c`

The device has one file open at a time: `device_open` takes `already_open` with a `cmpxchg`, prints
the message of the session into the global `msg` and counts it; `device_read` copies the message
from the position of the file on, byte by byte, and goes back to the start at the terminator;
`device_release` gives the device up.

A label is the `cmpxchg` of a `device_open`, the first test of a `device_read`, a `device_release`,
or one step of a call that is under way: `sprintf` with the increment of `counter`, or one turn of
the loop in `device_read`.  A process that opens the device twice counts as two.
-/

namespace Lkmpg.Chardev

open CString ExclusiveFlag LinearMem StringStream Transition

/-- `BUF_LEN` -/
def bufLen : ℕ := 80

/-- An open file -/
structure File where
  /-- which of the successful calls of `device_open` opened it, from 1 on -/
  session : ℕ
  /-- `*offset` -/
  offset : ℕ
  /-- what the calls of `device_read` have put into the buffers of the reader -/
  chunks : List (List Byte)

inductive Pc where
  /-- not in a call, and without the file -/
  | idle
  /-- `device_open` has returned `-EBUSY` -/
  | failed
  /-- `device_open` is about to print the message -/
  | sprintf (session : ℕ)
  /-- the file is open, and no call is under way -/
  | opened (f : File)
  /-- in the loop of `device_read`, with the current `length` and the bytes put so far -/
  | reading (f : File) (length : ℕ) (buffer : List Byte)

structure State (ι : Type) where
  alreadyOpen : ℤ
  counter : ℤ
  msg : ℕ → Byte
  /-- how many calls of `device_open` have passed the `cmpxchg` -/
  opens : ℕ
  pc : ι → Pc

/-- After module load. -/
def State.init {ι : Type} : State ι := ⟨0, 0, fun _ => 0, 0, fun _ => .idle⟩

inductive Act (ι : Type) where
  | deviceOpen (i : ι)
  | deviceRead (i : ι) (length : ℕ)
  | deviceRelease (i : ι)
  /-- the next step of a call -/
  | step (i : ι)

/-- What `sprintf` prints. -/
def text (counter : ℤ) : List Byte :=
  bytes "I already told you " ++ decimal counter ++ bytes " times Hello world!\n"

/-- One turn of the loop of `device_read`, or the return after it. -/
def readLoop (msg : ℕ → Byte) (f : File) (length : ℕ) (buffer : List Byte) : Pc :=
  if length ≠ 0 ∧ msg (f.offset + buffer.length) ≠ 0 then
    .reading f (length - 1) (buffer ++ [msg (f.offset + buffer.length)])
  else .opened { f with
    offset := f.offset + buffer.length
    chunks := f.chunks ++ [buffer] }

/-- `device_read` before the loop -/
def readStart (msg : ℕ → Byte) (f : File) (length : ℕ) : Pc :=
  if msg f.offset = 0 then .opened { f with offset := 0, chunks := f.chunks ++ [[]] }
  else .reading f length []

variable {ι : Type} [DecidableEq ι]

/-- The `cmpxchg` of `device_open`. -/
def deviceOpen (s : State ι) (i : ι) : State ι :=
  if (cmpxchg s.alreadyOpen 0 1).1 ≠ 0 then { s with pc := Function.update s.pc i .failed }
  else { s with
    alreadyOpen := (cmpxchg s.alreadyOpen 0 1).2
    opens := s.opens + 1
    pc := Function.update s.pc i (.sprintf (s.opens + 1)) }

def chardevStep (s : State ι) : Act ι → Option (State ι)
  | .deviceOpen i =>
      match s.pc i with
      | .idle => some (deviceOpen s i)
      | .failed => some (deviceOpen s i)
      | _ => none
  | .deviceRead i length =>
      match s.pc i with
      | .opened f => some { s with pc := Function.update s.pc i (readStart s.msg f length) }
      | _ => none
  | .deviceRelease i =>
      match s.pc i with
      | .opened _ => some { s with alreadyOpen := 0, pc := Function.update s.pc i .idle }
      | _ => none
  | .step i =>
      match s.pc i with
      | .sprintf session =>
          some { s with
            msg := write s.msg 0 (text s.counter ++ [0])
            counter := (s.counter + 1).bmod (2 ^ 32)
            pc := Function.update s.pc i (.opened ⟨session, 0, []⟩) }
      | .reading f length buffer =>
          some { s with pc := Function.update s.pc i (readLoop s.msg f length buffer) }
      | _ => none

/-! ### The message -/

omit [DecidableEq ι] in
theorem text_ne_zero (n : ℕ) : ∀ c ∈ text n, c ≠ 0 := by
  have hbefore : 0 ∉ bytes "I already told you " := by decide
  have hafter : 0 ∉ bytes " times Hello world!\n" := by decide
  rintro c h rfl
  rw [text, decimal_natCast] at h
  rcases List.mem_append.mp h with h | h
  · rcases List.mem_append.mp h with h | h
    · exact hbefore h
    · exact decimalNat_ne_zero h rfl
  · exact hafter h

/-- The message of a session that announces less than `2 ^ 31` fits the buffer. -/
theorem length_text_le {n : ℕ} (h : n < 2 ^ 31) : (text n).length + 1 ≤ bufLen + 1 := by
  have hdecimal := length_decimalNat_le (k := 10) (by omega) (Nat.lt_trans h (by decide))
  have hbefore : (bytes "I already told you ").length = 19 := by decide
  have hafter : (bytes " times Hello world!\n").length = 20 := by decide
  rw [text, decimal_natCast, List.length_append, List.length_append, bufLen]
  omega

/-! ### The invariant -/

/-- The process has won the `cmpxchg` and not yet released the device. -/
def Pc.Holds : Pc → Prop
  | .idle => False
  | .failed => False
  | _ => True

/-- The file that `device_open` has returned, until its release. -/
def Pc.file : Pc → Option File
  | .opened f => some f
  | .reading f _ _ => some f
  | _ => none

/-- What is known of the open file: it belongs to the last session, `msg` is the message of that
session, and its chunks are that message over and over, up to its position. -/
structure Session (counter : ℤ) (msg : ℕ → Byte) (opens : ℕ) (f : File) : Prop where
  session_pos : 0 < f.session
  session_eq : f.session = opens
  counter_eq : counter = opens
  msg : StringAt msg (text (f.session - 1 : ℕ))
  streams : Streams (text (f.session - 1 : ℕ)) f.offset f.chunks

/-- The loop of `device_read` has copied the bytes of the message from the position on. -/
structure Copied (f : File) (length : ℕ) (buffer : List Byte) : Prop where
  progress : length ≠ 0 ∨ buffer ≠ []
  offset_lt : f.offset < (text (f.session - 1 : ℕ)).length
  le : f.offset + buffer.length ≤ (text (f.session - 1 : ℕ)).length
  take : (text (f.session - 1 : ℕ)).take (f.offset + buffer.length) =
    (text (f.session - 1 : ℕ)).take f.offset ++ buffer

def PcOk (counter : ℤ) (msg : ℕ → Byte) (opens : ℕ) : Pc → Prop
  | .idle => True
  | .failed => True
  | .sprintf session => 0 < session ∧ session = opens ∧ counter = (session - 1 : ℕ)
  | .opened f => Session counter msg opens f
  | .reading f length buffer => Session counter msg opens f ∧ Copied f length buffer

/-- The state of the sessions, as long as `counter` has not overflowed. -/
structure Counted (s : State ι) : Prop where
  pcOk : ∀ i, PcOk s.counter s.msg s.opens (s.pc i)
  free : (∀ i, ¬(s.pc i).Holds) → s.counter = s.opens

structure Inv (s : State ι) : Prop where
  exclusive : Exclusive Pc.Holds s.alreadyOpen s.pc
  counted : s.opens < 2 ^ 31 → Counted s

omit [DecidableEq ι] in
theorem inv_init : Inv (State.init : State ι) where
  exclusive := Or.inr ⟨rfl, fun _ h => h⟩
  counted := fun _ => ⟨fun _ => trivial, fun _ => rfl⟩

omit [DecidableEq ι] in
theorem PcOk.of_not_holds {counter : ℤ} {msg : ℕ → Byte} {opens : ℕ} {l : Pc} (h : ¬l.Holds) :
    PcOk counter msg opens l := by
  cases l with
  | idle => trivial
  | failed => trivial
  | _ => exact absurd trivial h

section Step

variable {s t : State ι} {i : ι} {l : Pc}

/-- A process calls `device_open` while it does not have the device. -/
theorem deviceOpen_eq_some (h : chardevStep s (.deviceOpen i) = some t) :
    ¬(s.pc i).Holds ∧ t = deviceOpen s i := by
  simp only [chardevStep] at h
  split at h
  · rename_i hi
    rw [hi]
    exact ⟨id, (Option.some.inj h).symm⟩
  · rename_i hi
    rw [hi]
    exact ⟨id, (Option.some.inj h).symm⟩
  · cases h

theorem deviceRead_eq_some {length : ℕ} (h : chardevStep s (.deviceRead i length) = some t) :
    ∃ f, s.pc i = .opened f ∧
      t = { s with pc := Function.update s.pc i (readStart s.msg f length) } := by
  simp only [chardevStep] at h
  split at h
  · rename_i f hi
    exact ⟨f, hi, (Option.some.inj h).symm⟩
  · cases h

theorem deviceRelease_eq_some (h : chardevStep s (.deviceRelease i) = some t) :
    ∃ f, s.pc i = .opened f ∧
      t = { s with alreadyOpen := 0, pc := Function.update s.pc i .idle } := by
  simp only [chardevStep] at h
  split at h
  · rename_i f hi
    exact ⟨f, hi, (Option.some.inj h).symm⟩
  · cases h

/-- The steps of a call: `device_open` prints the message, or `device_read` goes on. -/
theorem step_eq_some (h : chardevStep s (.step i) = some t) :
    (∃ session, s.pc i = .sprintf session ∧ t = { s with
      msg := write s.msg 0 (text s.counter ++ [0])
      counter := (s.counter + 1).bmod (2 ^ 32)
      pc := Function.update s.pc i (.opened ⟨session, 0, []⟩) }) ∨
    ∃ f length buffer, s.pc i = .reading f length buffer ∧
      t = { s with pc := Function.update s.pc i (readLoop s.msg f length buffer) } := by
  simp only [chardevStep] at h
  split at h
  · rename_i session hi
    exact Or.inl ⟨session, hi, (Option.some.inj h).symm⟩
  · rename_i f length buffer hi
    exact Or.inr ⟨f, length, buffer, hi, (Option.some.inj h).symm⟩
  · cases h

theorem deviceOpen_msg (s : State ι) (i : ι) : (deviceOpen s i).msg = s.msg := by
  rw [deviceOpen]
  split <;> rfl

/-- **Holder.**  A step that leaves process `i` as the holder of the device keeps the invariant if
`i` knows what it has to know; the other processes know nothing of the message. -/
theorem Inv.holder (hpc : t.pc = Function.update s.pc i l)
    (hex : Exclusive Pc.Holds t.alreadyOpen t.pc) (hl : l.Holds)
    (hok : t.opens < 2 ^ 31 → PcOk t.counter t.msg t.opens l) : Inv t := by
  have hi : t.pc i = l := by rw [hpc, Function.update_self]
  have hholds : (t.pc i).Holds := by rw [hi]; exact hl
  refine ⟨hex, fun hopens => ⟨fun j => ?_, fun hfree => absurd hholds (hfree i)⟩⟩
  by_cases hji : j = i
  · rw [hji, hi]
    exact hok hopens
  · exact PcOk.of_not_holds fun hj => hji (hex.unique hj hholds)

/-- A step of the holder that leaves all but its own place as it is. -/
theorem Inv.goto (hs : Inv s) (hi : (s.pc i).Holds) (hl : l.Holds)
    (hok : PcOk s.counter s.msg s.opens (s.pc i) → PcOk s.counter s.msg s.opens l) :
    Inv { s with pc := Function.update s.pc i l } :=
  Inv.holder rfl (hs.exclusive.move (iff_of_true hl hi)) hl fun hopens =>
    hok ((hs.counted hopens).pcOk i)

/-- A `cmpxchg` that fails. -/
theorem Inv.fail (hs : Inv s) (hi : ¬(s.pc i).Holds) :
    Inv { s with pc := Function.update s.pc i .failed } := by
  have hsame : Pc.Holds .failed ↔ (s.pc i).Holds := iff_of_false id hi
  refine ⟨hs.exclusive.move hsame, fun hopens => ⟨fun j => ?_, fun hfree => ?_⟩⟩
  · exact (Function.forall_update_iff s.pc fun _ pc => PcOk s.counter s.msg s.opens pc).mpr
      ⟨PcOk.of_not_holds id, fun k _ => (hs.counted hopens).pcOk k⟩ j
  · refine (hs.counted hopens).free fun j hj => ?_
    by_cases hji : j = i
    · exact hi (hji ▸ hj)
    · exact hfree j ((holds_update_of_ne hji).mpr hj)

theorem Inv.open (hs : Inv s) (hi : ¬(s.pc i).Holds) : Inv (deviceOpen s i) := by
  rw [deviceOpen]
  split
  · exact hs.fail hi
  · rename_i hfree
    have hzero : s.alreadyOpen = 0 := not_not.mp hfree
    have hnone := hs.exclusive.eq_zero_iff.mp hzero
    refine Inv.holder (s := s) (i := i) (l := .sprintf (s.opens + 1)) rfl ?_ trivial ?_
    · rw [cmpxchg_snd_of_eq hzero]
      exact (hzero ▸ hs.exclusive).acquire trivial
    · intro hopens
      have hlt : s.opens < 2 ^ 31 := Nat.lt_of_succ_lt hopens
      exact ⟨Nat.succ_pos _, rfl, (hs.counted hlt).free hnone⟩

theorem Inv.release (hs : Inv s) {f : File} (hi : s.pc i = .opened f) :
    Inv { s with alreadyOpen := 0, pc := Function.update s.pc i .idle } := by
  have hholds : (s.pc i).Holds := by rw [hi]; trivial
  have hex := hs.exclusive.release hholds (l := .idle) id
  refine ⟨hex, fun hopens => ⟨fun j => PcOk.of_not_holds (hex.eq_zero_iff.mp rfl j), fun _ => ?_⟩⟩
  have hok := (hs.counted hopens).pcOk i
  rw [hi] at hok
  exact hok.counter_eq

/-- `sprintf` prints the message of the session and counts it. -/
theorem Inv.print (hs : Inv s) {session : ℕ} (hi : s.pc i = .sprintf session) :
    Inv { s with
      msg := write s.msg 0 (text s.counter ++ [0])
      counter := (s.counter + 1).bmod (2 ^ 32)
      pc := Function.update s.pc i (.opened ⟨session, 0, []⟩) } := by
  have hholds : (s.pc i).Holds := by rw [hi]; trivial
  refine Inv.holder (s := s) (i := i) (l := .opened ⟨session, 0, []⟩) rfl
    (hs.exclusive.move (iff_of_true trivial hholds)) trivial fun hopens => ?_
  have hok := (hs.counted hopens).pcOk i
  rw [hi] at hok
  obtain ⟨hpos, hsession, hcounter⟩ := hok
  refine ⟨hpos, hsession, ?_, ?_, streams_start _⟩
  · -- below `2 ^ 31` the increment does not wrap
    show (s.counter + 1).bmod (2 ^ 32) = s.opens
    replace hopens : s.opens < 2 ^ 31 := hopens
    rw [Int.bmod_eq_of_le (by omega) (by omega)]
    omega
  · show StringAt (write s.msg 0 (text s.counter ++ [0])) (text (session - 1 : ℕ))
    rw [hcounter]
    exact stringAt_write _ (text_ne_zero _)

end Step

section Read

variable {counter : ℤ} {msg : ℕ → Byte} {opens length : ℕ} {f : File} {buffer : List Byte}

theorem readStart_holds : (readStart msg f length).Holds := by
  rw [readStart]
  split <;> trivial

theorem readLoop_holds : (readLoop msg f length buffer).Holds := by
  rw [readLoop]
  split <;> trivial

/-- `device_read` returns 0 at the terminator, and is about to copy elsewhere. -/
theorem Session.readStart (h : Session counter msg opens f) (hlen : 0 < length) :
    PcOk counter msg opens (readStart msg f length) := by
  rw [Chardev.readStart]
  have hle := h.streams.offset_le
  have hend := h.msg.eq_zero_iff hle
  by_cases hzero : msg f.offset = 0
  · rw [if_pos hzero]
    exact ⟨h.session_pos, h.session_eq, h.counter_eq, h.msg, h.streams.endOfFile (hend.mp hzero)⟩
  · rw [if_neg hzero]
    have hne : f.offset ≠ (text (f.session - 1 : ℕ)).length := fun he => hzero (hend.mpr he)
    refine ⟨h, Or.inl (by omega), by omega, hle, ?_⟩
    rw [List.length_nil, Nat.add_zero, List.append_nil]

/-- One turn of the loop copies the next byte of the message; the turn that leaves it adds the
buffer to the chunks. -/
theorem Session.readLoop (h : Session counter msg opens f) (hcopied : Copied f length buffer) :
    PcOk counter msg opens (readLoop msg f length buffer) := by
  rw [Chardev.readLoop]
  have hle := hcopied.le
  have hend := h.msg.eq_zero_iff hle
  split
  · rename_i hmore
    have hne : f.offset + buffer.length ≠ (text (f.session - 1 : ℕ)).length :=
      fun he => hmore.2 (hend.mpr he)
    refine ⟨h, Or.inr (by simp), hcopied.offset_lt, ?_, ?_⟩
    · rw [List.length_append, List.length_singleton]
      omega
    · rw [List.length_append, List.length_singleton, ← Nat.add_assoc,
        h.msg.take_succ (by omega), hcopied.take, List.append_assoc]
  · rename_i hstop
    have hne : buffer ≠ [] := by
      -- the loop does not stop before its first turn
      intro hnil
      have hlen : length ≠ 0 := hcopied.progress.resolve_right fun h => h hnil
      have hlt := hcopied.offset_lt
      refine hstop ⟨hlen, fun hzero => ?_⟩
      have hat := hend.mp hzero
      rw [hnil, List.length_nil] at hat
      omega
    exact ⟨h.session_pos, h.session_eq, h.counter_eq, h.msg,
      h.streams.chunk hne hle hcopied.take⟩

end Read

/-- The number of bytes asked for is positive. -/
def Act.Positive : Act ι → Prop
  | .deviceRead _ length => 0 < length
  | _ => True

/-- **Step.**  Every step keeps the invariant. -/
theorem Inv.step {s t : State ι} {a : Act ι} (hs : Inv s) (ha : a.Positive)
    (h : chardevStep s a = some t) : Inv t := by
  cases a with
  | deviceOpen i =>
      obtain ⟨hi, rfl⟩ := deviceOpen_eq_some h
      exact hs.open hi
  | deviceRead i length =>
      obtain ⟨f, hi, rfl⟩ := deviceRead_eq_some h
      refine hs.goto (by rw [hi]; trivial) readStart_holds fun hok => ?_
      rw [hi] at hok
      exact Session.readStart hok ha
  | deviceRelease i =>
      obtain ⟨f, hi, rfl⟩ := deviceRelease_eq_some h
      exact hs.release hi
  | step i =>
      obtain ⟨session, hi, rfl⟩ | ⟨f, length, buffer, hi, rfl⟩ := step_eq_some h
      · exact hs.print hi
      · refine hs.goto (by rw [hi]; trivial) readLoop_holds fun hok => ?_
        rw [hi] at hok
        exact hok.1.readLoop hok.2

/-! ### Sessions -/

/-- A `device_open` that fails leaves everything but its own process as it was. -/
theorem deviceOpen_failed {s t : State ι} {i : ι} (h : chardevStep s (.deviceOpen i) = some t)
    (hfailed : t.pc i = .failed) : t = { s with pc := Function.update s.pc i .failed } := by
  obtain ⟨-, rfl⟩ := deviceOpen_eq_some h
  rw [deviceOpen] at hfailed ⊢
  split
  · rfl
  · rename_i hfree
    rw [if_neg hfree] at hfailed
    replace hfailed : Function.update s.pc i (.sprintf (s.opens + 1)) i = .failed := hfailed
    rw [Function.update_self] at hfailed
    cases hfailed

omit [DecidableEq ι] in
theorem Pc.holds_of_file {pc : Pc} {f : File} (h : pc.file = some f) : pc.Holds := by
  cases pc with
  | idle => cases h
  | failed => cases h
  | _ => trivial

/-- While a file is open no step changes the message. -/
theorem Inv.msg_unchanged {s t : State ι} {a : Act ι} {i : ι} {f : File} (hs : Inv s)
    (hi : (s.pc i).file = some f) (h : chardevStep s a = some t) : t.msg = s.msg := by
  cases a with
  | step j =>
      obtain ⟨session, hj, rfl⟩ | ⟨f, length, buffer, -, rfl⟩ := step_eq_some h
      · -- the printer would be a second holder
        have hji : j = i := hs.exclusive.unique (by rw [hj]; trivial) (Pc.holds_of_file hi)
        rw [← hji, hj] at hi
        cases hi
      · rfl
  | deviceOpen j =>
      obtain ⟨-, rfl⟩ := deviceOpen_eq_some h
      exact deviceOpen_msg s j
  | deviceRead j length =>
      obtain ⟨f, -, rfl⟩ := deviceRead_eq_some h
      rfl
  | deviceRelease j =>
      obtain ⟨f, -, rfl⟩ := deviceRelease_eq_some h
      rfl

omit [DecidableEq ι] in
theorem Counted.session {s : State ι} {i : ι} {f : File} (hs : Counted s)
    (hi : (s.pc i).file = some f) : Session s.counter s.msg s.opens f := by
  have hok := hs.pcOk i
  cases hpc : s.pc i with
  | opened g =>
      rw [hpc] at hi hok
      exact Option.some.inj hi ▸ hok
  | reading g length buffer =>
      rw [hpc] at hi hok
      exact Option.some.inj hi ▸ hok.1
  | _ => rw [hpc] at hi; cases hi

/-- **Sessions.**  In every run of any number of processes with fewer than `2 ^ 31` successful
opens: at most one file is open; an open that fails changes only where its process is; while a file
is open the message stays what it is and fits the buffer; and the file of session `k` has delivered
the text that announces `k - 1`, over and over, each round ended by a read of 0 bytes. -/
theorem sessions_deliver_text {acts : List (Act ι)} {s : State ι}
    (hlength : ∀ a ∈ acts, a.Positive) (hrun : run chardevStep State.init acts = some s)
    (hopens : s.opens < 2 ^ 31) :
    (∀ i j f g, (s.pc i).file = some f → (s.pc j).file = some g → i = j) ∧
    (∀ i t, chardevStep s (.deviceOpen i) = some t → t.pc i = .failed →
      t = { s with pc := Function.update s.pc i .failed }) ∧
    (∀ i f, (s.pc i).file = some f →
      (∀ a t, chardevStep s a = some t → t.msg = s.msg) ∧
      StringAt s.msg (text (f.session - 1 : ℕ)) ∧
      (text (f.session - 1 : ℕ)).length + 1 ≤ bufLen + 1 ∧
      1 ≤ f.session ∧
      Streams (text (f.session - 1 : ℕ)) f.offset f.chunks) := by
  have hinv : Inv s := run_induction (C := fun _ a => a.Positive)
    (fun u a v hu ha h => hu.step ha h) inv_init (Along.of_forall hlength) hrun
  have hcounted := hinv.counted hopens
  refine ⟨fun i j f g hi hj => ?_, fun i t h hfailed => deviceOpen_failed h hfailed,
    fun i f hi => ⟨fun a t h => hinv.msg_unchanged hi h, ?_⟩⟩
  · exact hinv.exclusive.unique (Pc.holds_of_file hi) (Pc.holds_of_file hj)
  · have hsession := hcounted.session hi
    have hnumber : f.session - 1 < 2 ^ 31 := by
      have heq := hsession.session_eq
      omega
    exact ⟨hsession.msg, length_text_le hnumber, hsession.session_pos, hsession.streams⟩

/-- Process 1 is refused while 0 has the file, then opens it in the second session and reads two
chunks, the end of the file, and one byte more. -/
def secondSession : List (Act (Fin 2)) :=
  .deviceOpen 0 :: .step 0 :: .deviceOpen 1 :: .deviceRelease 0 :: .deviceOpen 1 :: .step 1 ::
    .deviceRead 1 30 :: List.replicate 31 (.step 1) ++ .deviceRead 1 30 ::
    List.replicate 11 (.step 1) ++ [.deviceRead 1 30, .deviceRead 1 1, .step 1, .step 1]

theorem sessions_deliver_text_second :
    ∃ s f, run chardevStep State.init secondSession = some s ∧ (s.pc 1).file = some f ∧
      f.session = 2 ∧ f.chunks.length = 4 ∧ Streams (text 1) f.offset f.chunks := by
  have hend : (run chardevStep State.init secondSession).any (fun s => s.opens < 2 ^ 31 &&
      (s.pc 1).file.any fun f => f.session = 2 && f.chunks.length = 4) = true := by decide +kernel
  obtain ⟨s, hrun, hs⟩ := (Option.any_eq_true _ _).mp hend
  obtain ⟨hopens, hfiles⟩ := Bool.and_eq_true_iff.mp hs
  obtain ⟨f, hfile, hf⟩ := (Option.any_eq_true _ _).mp hfiles
  obtain ⟨hsession, hlength⟩ := Bool.and_eq_true_iff.mp hf
  replace hsession := of_decide_eq_true hsession
  have hall := sessions_deliver_text (by simp [secondSession, Act.Positive]) hrun
    (of_decide_eq_true hopens)
  refine ⟨s, f, hrun, hfile, hsession, of_decide_eq_true hlength, ?_⟩
  have hstreams := (hall.2.2 1 f hfile).2.2.2.2
  rw [hsession] at hstreams
  exact hstreams

end Lkmpg.Chardev
