import Lkmpg.Lib.CString
import Lkmpg.Lib.StringStream
import Lkmpg.Lib.Transition
import Mathlib.Algebra.Group.Nat.Even
import Mathlib.Data.PNat.Basic

/-!
# The read sessions of `sleep.c`

`module_output` prints the message into a buffer of its own and copies as much of it as the reader
asks for; that a reader has had its text is kept in a `static` flag, which each call inverts.  So
what a session reads depends on how many reads there have been before it, and a session that asks
for less than the text is told that there is no more.

A history is a list of labels: `module_open` and `module_close` of the one session that can be open,
calls of `module_output` in it, and calls of `module_input`.  Next to the device, a state keeps the
number of calls of `module_output` since load and, for the open session, what it has asked for and
what it has got up to the first read that returned 0.
-/

namespace Lkmpg.Sleep.Output

open CString LinearMem StringStream Transition

/-- `MESSAGE_LENGTH` -/
def messageLength : ℕ := 80

/-- The static data. -/
structure Device where
  message : ℕ → Byte
  /-- `finished` of `module_output` -/
  finished : Bool

/-- The string that `%s` prints. -/
def stored (message : ℕ → Byte) : List Byte := content (read message 0 messageLength)

/-- What `sprintf` puts into `output_msg`. -/
def text (message : ℕ → Byte) : List Byte := bytes "Last input:" ++ stored message ++ bytes "\n"

/-- The loop of `module_output` from `i` on: the bytes given to `put_user`. -/
def outputLoop (outputMsg : ℕ → Byte) : ℕ → ℕ → List Byte
  | 0, _ => []
  | len + 1, i => if outputMsg i = 0 then [] else outputMsg i :: outputLoop outputMsg len (i + 1)

/-- `module_output`: what it has put into the buffer of the reader, whose length it returns, and the
device after it.  `stack` is what `output_msg` holds before `sprintf`. -/
def moduleOutput (stack : ℕ → Byte) (d : Device) (len : ℕ) : List Byte × Device :=
  if d.finished then ([], { d with finished := false })
  else (outputLoop (write stack 0 (text d.message ++ [0])) len 0, { d with finished := true })

/-- `module_input`: the device after it, and what it returns. -/
def moduleInput (d : Device) (buf : List Byte) : Device × ℕ :=
  ({ d with message := write d.message 0 (buf.take (messageLength - 1) ++ [0]) },
    (buf.take (messageLength - 1)).length)

/-- The open session. -/
structure Session where
  /-- the lengths it has asked for -/
  lens : List ℕ+
  /-- what it has read before the first read that returned 0 -/
  got : List Byte
  /-- a read has returned 0 -/
  ended : Bool
  /-- the message has been written since `module_open` -/
  written : Bool

structure State where
  device : Device
  session : Option Session
  /-- calls of `module_output` so far -/
  reads : ℕ

/-- After module load. -/
def State.init : State := ⟨⟨fun _ => 0, false⟩, none, 0⟩

inductive Act where
  | moduleOpen
  | moduleOutput (len : ℕ+) (stack : ℕ → Byte)
  | moduleInput (buf : List Byte)
  | moduleClose

/-- A session that has asked for `len` bytes and got `chunk`. -/
def Session.read (e : Session) (len : ℕ+) (chunk : List Byte) : Session where
  lens := e.lens ++ [len]
  got := if e.ended then e.got else e.got ++ chunk
  ended := e.ended || chunk.isEmpty
  written := e.written

def outputStep (s : State) : Act → Option State
  | .moduleOpen =>
      match s.session with
      | none => some { s with session := some ⟨[], [], false, false⟩ }
      | some _ => none
  | .moduleOutput len stack =>
      match s.session with
      | some e => some {
          device := (moduleOutput stack s.device len).2
          session := some (e.read len (moduleOutput stack s.device len).1)
          reads := s.reads + 1 }
      | none => none
  | .moduleInput buf => some { s with
      device := (moduleInput s.device buf).1
      session := s.session.map fun e => { e with written := true } }
  | .moduleClose =>
      match s.session with
      | some _ => some { s with session := none }
      | none => none

/-- What a step can do. -/
inductive Effect (s : State) : Act → State → Prop where
  | opened : Effect s .moduleOpen { s with session := some ⟨[], [], false, false⟩ }
  | printed (len : ℕ+) (stack : ℕ → Byte) (e : Session) (he : s.session = some e) :
      Effect s (.moduleOutput len stack) {
        device := (moduleOutput stack s.device len).2
        session := some (e.read len (moduleOutput stack s.device len).1)
        reads := s.reads + 1 }
  | written (buf : List Byte) : Effect s (.moduleInput buf)
      { s with
        device := (moduleInput s.device buf).1
        session := s.session.map fun e => { e with written := true } }
  | closed : Effect s .moduleClose { s with session := none }

/-- **Inversion.** -/
theorem effect_of_outputStep {s t : State} {a : Act} (h : outputStep s a = some t) :
    Effect s a t := by
  cases a with
  | moduleOpen =>
      simp only [outputStep] at h
      split at h
      · obtain rfl := Option.some.inj h
        exact .opened
      · cases h
  | moduleOutput len stack =>
      simp only [outputStep] at h
      split at h
      · rename_i e he
        obtain rfl := Option.some.inj h
        exact .printed len stack e he
      · cases h
  | moduleInput buf =>
      obtain rfl := Option.some.inj h
      exact .written buf
  | moduleClose =>
      simp only [outputStep] at h
      split at h
      · obtain rfl := Option.some.inj h
        exact .closed
      · cases h

/-! ### One call -/

theorem text_ne_zero (message : ℕ → Byte) : ∀ c ∈ text message, c ≠ 0 := by
  have hbefore : 0 ∉ bytes "Last input:" := by decide
  have hafter : 0 ∉ bytes "\n" := by decide
  rintro c h rfl
  rw [text] at h
  rcases List.mem_append.mp h with h | h
  · rcases List.mem_append.mp h with h | h
    · exact hbefore h
    · exact content_ne_zero _ h rfl
  · exact hafter h

theorem text_ne_nil (message : ℕ → Byte) : text message ≠ [] := by
  intro h
  have hbefore := (List.append_eq_nil_iff.mp (List.append_eq_nil_iff.mp h).1).1
  exact absurd hbefore (by decide)

/-- The loop copies a string from the middle, as much of it as is asked for. -/
theorem outputLoop_eq {m : ℕ → Byte} {txt : List Byte} (h : StringAt m txt) (len i : ℕ)
    (hi : i ≤ txt.length) : outputLoop m len i = (txt.drop i).take len := by
  induction len generalizing i with
  | zero => rfl
  | succ len ih =>
      rw [outputLoop]
      by_cases hend : i = txt.length
      · rw [if_pos ((h.eq_zero_iff hi).mpr hend), hend, List.drop_length]
        rfl
      · have hlt : i < txt.length := by omega
        have hcell := h.cell i hlt
        rw [List.getElem?_eq_getElem hlt] at hcell
        rw [if_neg (h.ne_zero hlt), ih (i + 1) hlt, List.drop_eq_getElem_cons hlt,
          Option.some.inj hcell, List.take_succ_cons]

section Call

variable {stack : ℕ → Byte} {d : Device} {len : ℕ}

/-- A call that finds the flag set returns 0 and clears it. -/
theorem moduleOutput_finished (h : d.finished = true) :
    moduleOutput stack d len = ([], { d with finished := false }) := if_pos h

/-- Any other call returns the start of the text and sets the flag. -/
theorem moduleOutput_start (h : d.finished = false) :
    moduleOutput stack d len = ((text d.message).take len, { d with finished := true }) := by
  have hloop := outputLoop_eq (stringAt_write stack (text_ne_zero d.message)) len 0 (Nat.zero_le _)
  rw [moduleOutput, if_neg (by rw [h]; exact nofun), hloop, List.drop_zero]

theorem moduleOutput_message : (moduleOutput stack d len).2.message = d.message := by
  rw [moduleOutput]
  split <;> rfl

theorem moduleOutput_toggles : (moduleOutput stack d len).2.finished = !d.finished := by
  rw [moduleOutput]
  split
  · rename_i h
    rw [h]
    rfl
  · rename_i h
    rw [Bool.not_eq_true _ |>.mp h]
    rfl

end Call

/-- What has been written is what will be printed, up to the first NUL and the end of the array. -/
theorem stored_moduleInput (d : Device) (buf : List Byte) :
    stored (moduleInput d buf).1.message = content (buf.take (messageLength - 1)) := by
  obtain ⟨input, hinput⟩ : ∃ input, input = buf.take (messageLength - 1) := ⟨_, rfl⟩
  have hlen : (input ++ [0]).length ≤ messageLength := by
    rw [hinput, List.length_append, List.length_take, List.length_singleton, messageLength]
    omega
  have hsplit : messageLength = (input ++ [0]).length + (messageLength - (input ++ [0]).length) := by
    omega
  show content (read (write d.message 0 (buf.take (messageLength - 1) ++ [0])) 0 messageLength) = _
  rw [← hinput, hsplit, read_add, read_write, List.append_assoc]
  exact content_append_nul input _

/-- A string that ends in the array fits `output_msg` together with the rest of the text. -/
theorem length_text_le {message : ℕ → Byte} (h : ∃ k < messageLength, message k = 0) :
    (text message).length + 1 ≤ messageLength + 30 := by
  obtain ⟨k, hk, hnul⟩ := h
  have hstored : (stored message).length ≤ messageLength := by
    refine (List.takeWhile_prefix _).length_le.trans ?_
    rw [length_read]
  have hbefore : (bytes "Last input:").length = 11 := by decide
  have hafter : (bytes "\n").length = 1 := by decide
  rw [text, List.length_append, List.length_append]
  omega

/-- The message ends in its array. -/
def Terminated (s : State) : Prop := ∃ k < messageLength, s.device.message k = 0

theorem terminated_moduleInput (s : State) (buf : List Byte) :
    Terminated { s with device := (moduleInput s.device buf).1 } := by
  refine ⟨(buf.take (messageLength - 1)).length, ?_, ?_⟩
  · rw [List.length_take, messageLength]
    omega
  · have hstore := getElem?_write s.device.message (buf.take (messageLength - 1) ++ [0])
      (Nat.zero_le (buf.take (messageLength - 1)).length) (by simp)
    rw [Nat.sub_zero, List.getElem?_append_right (Nat.le_refl _), Nat.sub_self] at hstore
    exact (Option.some.inj hstore).symm

theorem Terminated.step {s t : State} {a : Act} (hs : Terminated s) (h : outputStep s a = some t) :
    Terminated t := by
  cases effect_of_outputStep h with
  | opened => exact hs
  | printed len stack e he =>
      show ∃ k < messageLength, (moduleOutput stack s.device len).2.message k = 0
      rw [moduleOutput_message]
      exact hs
  | written buf => exact terminated_moduleInput s buf
  | closed => exact hs

/-- **No overflow.**  In every state of every history, what `sprintf` prints fits `output_msg`. -/
theorem outputMsg_fits {acts : List Act} {s : State}
    (hrun : run outputStep State.init acts = some s) :
    (text s.device.message).length + 1 ≤ messageLength + 30 := by
  have hs : Terminated s :=
    run_invariant (fun _ _ _ hu h => hu.step h) ⟨0, by decide, rfl⟩ hrun
  exact length_text_le hs

/-! ### The invariant -/

/-- What is known of a session during which nothing has been written: it has read nothing, or the
start of the text in one read, or it has been told that there is no more. -/
def Session.Known (message : ℕ → Byte) (reads : ℕ) (e : Session) : Prop :=
  match e.lens with
  | [] => e.got = [] ∧ e.ended = false
  | [first] => e.got = (text message).take first ∧ e.ended = false ∧ ¬Even reads
  | _ => e.ended = true

structure Inv (s : State) : Prop where
  parity : s.device.finished = true ↔ ¬Even s.reads
  session : ∀ e, s.session = some e → e.written = false → e.Known s.device.message s.reads

theorem inv_init : Inv State.init where
  parity := by simp [State.init]
  session := nofun

/-- What a session reads before the first read that returns 0 is the text. -/
def WholeMessage (s : State) (a : Act) : Prop :=
  ∀ len stack e, a = .moduleOutput len stack → s.session = some e → e.written = false →
    e.ended = false → (moduleOutput stack s.device len).1 = [] → e.got = text s.device.message

/-- A session starts to read after an even number of reads, and one that reads a second time has
asked for the whole text in its first read. -/
def EvenAndWhole (s : State) (a : Act) : Prop :=
  ∀ len stack e, a = .moduleOutput len stack → s.session = some e → e.written = false →
    match e.lens with
    | [] => Even s.reads
    | [first] => (text s.device.message).length ≤ first
    | _ => True

section Step

variable {s t : State} {len : ℕ+} {stack : ℕ → Byte} {e : Session}

/-- The first read of a session that begins after an even number of reads. -/
theorem Inv.firstRead (hs : Inv s) (heven : Even s.reads) :
    (moduleOutput stack s.device len).1 = (text s.device.message).take len ∧
      (moduleOutput stack s.device len).1 ≠ [] := by
  have hclear : s.device.finished = false := by
    rw [← Bool.not_eq_true]
    exact fun h => hs.parity.mp h heven
  have hchunk : (moduleOutput stack s.device len).1 = (text s.device.message).take len := by
    rw [moduleOutput_start hclear]
  refine ⟨hchunk, ?_⟩
  rw [hchunk, Ne, List.take_eq_nil_iff]
  rintro (hzero | hnil)
  · exact len.ne_zero hzero
  · exact text_ne_nil _ hnil

/-- A read after an odd number of reads returns 0. -/
theorem Inv.oddRead (hs : Inv s) (hodd : ¬Even s.reads) :
    (moduleOutput stack s.device len).1 = [] := by
  rw [moduleOutput_finished (hs.parity.mpr hodd)]

/-- A read keeps what is known of the session. -/
theorem Inv.read (hs : Inv s) (he : s.session = some e) (hwritten : e.written = false)
    (hC : match e.lens with
      | [] => Even s.reads
      | [first] => (text s.device.message).length ≤ first
      | _ => True) :
    (e.read len (moduleOutput stack s.device len).1).Known s.device.message (s.reads + 1) := by
  have hknown := hs.session e he hwritten
  obtain ⟨lens, got, ended, written⟩ := e
  match lens with
  | [] =>
      obtain ⟨rfl, rfl⟩ : got = [] ∧ ended = false := hknown
      obtain ⟨hchunk, hne⟩ : (moduleOutput stack s.device len).1 = (text s.device.message).take len ∧
          (moduleOutput stack s.device len).1 ≠ [] := hs.firstRead hC
      refine ⟨?_, ?_, ?_⟩
      · exact hchunk
      · simpa [Session.read] using hne
      · rw [Nat.even_add_one]
        exact not_not.mpr hC
  | [first] =>
      obtain ⟨hgot, -, hodd⟩ := hknown
      show (ended || _) = true
      rw [hs.oddRead hodd]
      exact Bool.or_true _
  | first :: second :: rest =>
      show (ended || _) = true
      rw [show ended = true from hknown]
      rfl

theorem Inv.step {a : Act} (hs : Inv s) (hC : EvenAndWhole s a) (h : outputStep s a = some t) :
    Inv t := by
  cases effect_of_outputStep h with
  | opened =>
      refine ⟨hs.parity, fun e he _ => ?_⟩
      obtain rfl := Option.some.inj he
      exact ⟨rfl, rfl⟩
  | printed len stack e he =>
      refine ⟨?_, fun f hf hwritten => ?_⟩
      · show (moduleOutput stack s.device len).2.finished = true ↔ ¬Even (s.reads + 1)
        rw [moduleOutput_toggles, Nat.even_add_one, ← hs.parity]
        simp
      · obtain rfl := Option.some.inj hf
        show (e.read len _).Known (moduleOutput stack s.device len).2.message (s.reads + 1)
        rw [moduleOutput_message]
        exact hs.read he hwritten (hC len stack e rfl he hwritten)
  | written buf =>
      refine ⟨hs.parity, fun e he hwritten => ?_⟩
      obtain ⟨f, -, rfl⟩ := Option.map_eq_some_iff.mp he
      cases hwritten
  | closed => exact ⟨hs.parity, nofun⟩

/-- **Exact condition of a read.** -/
theorem Inv.wholeMessage_step {a : Act} (hs : Inv s) : WholeMessage s a ↔ EvenAndWhole s a := by
  constructor
  · intro h len stack e ha he hwritten
    have hwhole := h len stack e ha he hwritten
    have hknown := hs.session e he hwritten
    obtain ⟨lens, got, ended, written⟩ := e
    match lens with
    | [] =>
        obtain ⟨rfl, rfl⟩ : got = [] ∧ ended = false := hknown
        by_contra hodd
        exact text_ne_nil _ (hwhole rfl (hs.oddRead hodd)).symm
    | [first] =>
        obtain ⟨rfl, rfl, hodd⟩ := hknown
        have hall := hwhole rfl (hs.oddRead hodd)
        exact List.take_eq_self_iff _ |>.mp hall
    | first :: second :: rest => trivial
  · intro h len stack e ha he hwritten hended hchunk
    have hcond := h len stack e ha he hwritten
    have hknown := hs.session e he hwritten
    obtain ⟨lens, got, ended, written⟩ := e
    match lens with
    | [] => exact absurd hchunk (hs.firstRead hcond).2
    | [first] =>
        obtain ⟨rfl, -, -⟩ := hknown
        exact List.take_of_length_le hcond
    | first :: second :: rest => exact nomatch hended.symm.trans hknown

end Step

/-- **Read sessions.**  In every history of writes and of sessions, what each session in which
nothing is written reads before the first 0 is the whole message, if and only if each such session
starts to read after an even number of reads and, if it reads again, has asked for the whole text in
its first read. -/
theorem wholeMessage_iff (acts : List Act) :
    Along outputStep WholeMessage State.init acts ↔
      Along outputStep EvenAndWhole State.init acts :=
  along_iff_along (fun _ _ _ hs hC h => hs.step hC h) (fun _ _ hs => hs.wholeMessage_step) inv_init

/-- A session that closes after one read, and the first read of the next one. -/
def closedEarly : List Act :=
  [.moduleOpen, .moduleOutput 100 fun _ => 0, .moduleClose, .moduleOpen]

/-- The second session is told at once that there is nothing to read. -/
theorem not_wholeMessage_closedEarly :
    ¬Along outputStep WholeMessage State.init
      (closedEarly ++ [.moduleOutput 100 fun _ => 0]) := by
  intro h
  have hlast := h.last (t := ⟨⟨fun _ => 0, true⟩, some ⟨[], [], false, false⟩, 1⟩) rfl
  exact text_ne_nil _ (hlast 100 _ _ rfl rfl rfl rfl rfl).symm

end Lkmpg.Sleep.Output
