import Lkmpg.Lib.KernelTypes
import Lkmpg.Lib.Transition

/-!
# Concurrent writes to `led.c`

`device_write` keeps the command and the number of its bytes in the globals `control_signal` and
`device_buffer_size`, which all callers share.  A call sets the LED to whatever is in
`control_signal` when it gets to its `switch`, and returns whatever is in `device_buffer_size` when it
gets to its `return`.
-/

namespace Lkmpg.Led

open Transition

/-- `BUF_LEN` -/
def bufLen : ℕ := 2

/-! ### Commands -/

/-- What a process passes to `write(2)`: its memory from `buffer` on, with `none` for what cannot be
read, and `length`. -/
structure Request where
  buffer : ℕ → Option Byte
  length : ℕ

/-- The first byte of the request. -/
def Request.first (r : Request) : Option Byte := if 0 < r.length then r.buffer 0 else none

/-- The value that `switch` gives to the LED: `'0'` and `'1'`. -/
def ledValue (c : Byte) : Option Bool :=
  if c = 0x30 then some false else if c = 0x31 then some true else none

/-- The value that the request asks for. -/
def Request.value (r : Request) : Option Bool := r.first.bind ledValue

/-- All of the first `n` bytes can be read. -/
def readable (buffer : ℕ → Option Byte) (n : ℕ) : Bool :=
  (List.range n).all fun i => (buffer i).isSome

/-- `copy_from_user(dst, buffer, n)`: from the first byte that cannot be read on, it clears what it
was to fill. -/
def copyFromUser (dst : ℕ → Byte) (buffer : ℕ → Option Byte) (n : ℕ) : ℕ → Byte := fun i =>
  if i < n then (if readable buffer (i + 1) then (buffer i).getD 0 else 0) else dst i

/-! ### The driver -/

/-- What a call has done to the LED. -/
structure Effect where
  /-- the value it has set the LED to -/
  set : Option Bool
  /-- whether the LED had another value before -/
  changed : Bool
  deriving DecidableEq

/-- Where a process is in `device_write`. -/
inductive Pc where
  | idle
  /-- `device_buffer_size = min(BUF_LEN, length)` -/
  | setSize (r : Request)
  /-- `copy_from_user` -/
  | copy (r : Request)
  /-- `switch (control_signal[0])`; `consumed` bytes of the request have been copied -/
  | switch (r : Request) (consumed : ℕ)
  /-- `*offset += device_buffer_size` and `return` -/
  | ret (r : Request) (consumed : ℕ) (effect : Effect)

/-- A call that has returned. -/
structure Result where
  request : Request
  consumed : ℕ
  effect : Effect
  ret : Except Errno ℕ

structure State (ι : Type) where
  controlSignal : ℕ → Byte
  deviceBufferSize : ℕ
  led : Bool
  /-- the file positions -/
  offset : ι → ℕ
  pc : ι → Pc
  /-- the calls that have returned, in the order of their returns -/
  results : List Result

/-- After module load. -/
def State.init {ι : Type} : State ι := ⟨fun _ => 0, 0, false, fun _ => 0, fun _ => .idle, []⟩

inductive Act (ι : Type) where
  | deviceWrite (i : ι) (r : Request)
  /-- the next step of a call -/
  | step (i : ι)

variable {ι : Type} [DecidableEq ι]

def State.setPc (s : State ι) (i : ι) (pc : Pc) : State ι :=
  { s with pc := Function.update s.pc i pc }

/-- What the `switch` does to the LED. -/
def State.effect (s : State ι) : Effect :=
  ⟨ledValue (s.controlSignal 0), (ledValue (s.controlSignal 0)).getD s.led ≠ s.led⟩

def ledStep (s : State ι) : Act ι → Option (State ι)
  | .deviceWrite i r =>
      match s.pc i with
      | .idle => some (s.setPc i (.setSize r))
      | _ => none
  | .step i =>
      match s.pc i with
      | .idle => none
      | .setSize r => some { s.setPc i (.copy r) with deviceBufferSize := min bufLen r.length }
      | .copy r =>
          if readable r.buffer s.deviceBufferSize then
            some { s.setPc i (.switch r (min s.deviceBufferSize r.length)) with
              controlSignal := copyFromUser s.controlSignal r.buffer s.deviceBufferSize }
          else
            some { s.setPc i .idle with
              controlSignal := copyFromUser s.controlSignal r.buffer s.deviceBufferSize
              results := s.results ++ [⟨r, 0, ⟨none, false⟩, .error .EFAULT⟩] }
      | .switch r consumed =>
          some { s.setPc i (.ret r consumed s.effect) with
            led := (ledValue (s.controlSignal 0)).getD s.led }
      | .ret r consumed effect =>
          some { s.setPc i .idle with
            offset := Function.update s.offset i (s.offset i + s.deviceBufferSize)
            results := s.results ++ [⟨r, consumed, effect, .ok s.deviceBufferSize⟩] }

/-! ### What a call owes its caller -/

/-- A request for a value has set the LED to it, and any other request has not changed the LED. -/
def Effect.Suits (e : Effect) (r : Request) : Prop :=
  (∀ v, r.value = some v → e.set = some v) ∧ (r.value = none → e.changed = false)

/-- Each call that is past its `switch` has done what was asked of it, and each call that has returned
success has returned the number of bytes of its own request that it has copied. -/
structure Kept (s : State ι) : Prop where
  passed : ∀ i r consumed effect, s.pc i = .ret r consumed effect → effect.Suits r
  returned : ∀ res ∈ s.results, ∀ n, res.ret = .ok n → res.effect.Suits res.request ∧ n = res.consumed

/-- The call has assigned `device_buffer_size` and has not returned. -/
def Pc.inside : Pc → Bool
  | .idle => false
  | .setSize _ => false
  | .copy _ => true
  | .switch _ _ => true
  | .ret _ _ _ => true

/-- All that the call is to copy can be read. -/
def Request.whole (r : Request) : Bool := readable r.buffer (min bufLen r.length)

/-- The last call with a length that has returned has copied all it was to copy, or its first byte is
no command. -/
def Settled (results : List Result) : Prop :=
  ∀ res ∈ (results.filter fun res => 0 < res.request.length).getLast?,
    res.request.whole = true ∨ res.request.value = none

/-- The call that assigns `device_buffer_size` next. -/
def Pc.assigns : Pc → Option Request
  | .setSize r => some r
  | _ => none

/-- No call assigns `device_buffer_size` between the assignment of another call and its return; and no
call of length 0 does so after one that has failed behind the first byte of a command. -/
def Apart (s : State ι) : Act ι → Prop
  | .deviceWrite _ _ => True
  | .step i =>
      ∀ r ∈ (s.pc i).assigns,
        (∀ j, (s.pc j).inside = false) ∧ (r.length = 0 → Settled s.results)

instance (results : List Result) : Decidable (Settled results) :=
  inferInstanceAs (Decidable (∀ res ∈ (results.filter _).getLast?, _ ∨ _))

instance [Fintype ι] (s : State ι) : ∀ act, Decidable (Apart s act)
  | .deviceWrite _ _ => isTrue trivial
  | .step i => inferInstanceAs (Decidable (∀ r ∈ (s.pc i).assigns, _ ∧ _))

/-! ### Commands and copies -/

/-- The first byte of `control_signal` after a copy. -/
theorem copyFromUser_zero {dst : ℕ → Byte} {buffer : ℕ → Option Byte} {n : ℕ} (h : 0 < n) :
    copyFromUser dst buffer n 0 = (buffer 0).getD 0 := by
  rw [copyFromUser, if_pos h]
  cases hb : buffer 0 <;> simp [readable, hb]

theorem copyFromUser_nothing (dst : ℕ → Byte) (buffer : ℕ → Option Byte) :
    copyFromUser dst buffer 0 = dst := rfl

theorem readable_first {buffer : ℕ → Option Byte} {n : ℕ} (hn : 0 < n)
    (h : readable buffer n = true) : buffer 0 = some ((buffer 0).getD 0) := by
  have hall : ∀ i < n, (buffer i).isSome = true := by simpa [readable] using h
  obtain ⟨c, hc⟩ := Option.isSome_iff_exists.mp (hall 0 hn)
  rw [hc, Option.getD_some]

/-- A request whose first byte is no command leaves none behind. -/
theorem ledValue_of_value {r : Request} (hlen : 0 < r.length) (h : r.value = none) :
    ledValue ((r.buffer 0).getD 0) = none := by
  rw [Request.value, Request.first, if_pos hlen] at h
  cases hb : r.buffer 0 with
  | none => rfl
  | some c =>
      rw [hb] at h
      exact h

/-! ### Calls in turn -/

/-- The LED shows the command that is in `control_signal`, if one is. -/
def State.Shows (s : State ι) : Prop := ∀ v, ledValue (s.controlSignal 0) = some v → v = s.led

/-- What a call between its assignment and its return finds in the globals. -/
def PcOk (s : State ι) : Pc → Prop
  | .idle => True
  | .setSize _ => True
  | .copy r => s.deviceBufferSize = min bufLen r.length ∧ (r.length = 0 → s.Shows)
  | .switch r consumed =>
      s.deviceBufferSize = consumed ∧ (0 < r.length → r.first = some (s.controlSignal 0)) ∧
        (r.length = 0 → s.Shows)
  | .ret r consumed effect => s.deviceBufferSize = consumed ∧ effect.Suits r ∧ s.Shows

/-- What calls that keep apart maintain. -/
structure InTurn (s : State ι) : Prop where
  one : ∀ i j, (s.pc i).inside = true → (s.pc j).inside = true → i = j
  place : ∀ i, PcOk s (s.pc i)
  quiet : (∀ i, (s.pc i).inside = false) → Settled s.results → s.Shows
  returned : ∀ res ∈ s.results, ∀ n, res.ret = .ok n →
    res.effect.Suits res.request ∧ n = res.consumed

section Steps

variable {s t : State ι} {i : ι}

omit [DecidableEq ι] in
theorem inTurn_init : InTurn (State.init : State ι) :=
  ⟨nofun, fun _ => trivial, fun _ _ => nofun, fun _ h => absurd h List.not_mem_nil⟩

omit [DecidableEq ι] in
theorem InTurn.kept (hs : InTurn s) : Kept s := by
  refine ⟨fun i r consumed effect hi => ?_, hs.returned⟩
  have hplace := hs.place i
  rw [hi] at hplace
  exact hplace.2.1

omit [DecidableEq ι] in
theorem InTurn.alone (hs : InTurn s) (hi : (s.pc i).inside = true) :
    ∀ j, j ≠ i → (s.pc j).inside = false := by
  intro j hji
  by_contra hj
  exact hji (hs.one j i (Bool.eq_true_of_not_eq_false hj) hi)

omit [DecidableEq ι] in
theorem pcOk_of_outside {pc : Pc} (h : pc.inside = false) : PcOk s pc := by
  cases pc with
  | idle => trivial
  | setSize r => trivial
  | _ => cases h

/-- The call that is alone between assignment and return moves. -/
theorem InTurn.move (halone : ∀ j, j ≠ i → (s.pc j).inside = false) {pc : Pc}
    (hpc : t.pc = Function.update s.pc i pc) (hplace : PcOk t pc)
    (hquiet : pc.inside = false → Settled t.results → t.Shows)
    (hreturned : ∀ res ∈ t.results, ∀ n, res.ret = .ok n →
      res.effect.Suits res.request ∧ n = res.consumed) : InTurn t := by
  have hself : t.pc i = pc := by rw [hpc, Function.update_self]
  have hother : ∀ j, j ≠ i → (t.pc j).inside = false := fun j hji => by
    rw [hpc, Function.update_of_ne hji]
    exact halone j hji
  have heq : ∀ j, (t.pc j).inside = true → j = i := fun j hj => by
    by_contra hji
    rw [hother j hji] at hj
    cases hj
  refine ⟨fun j k hj hk => (heq j hj).trans (heq k hk).symm, fun j => ?_, fun hnone => ?_, hreturned⟩
  · by_cases hji : j = i
    · rw [hji, hself]
      exact hplace
    · exact pcOk_of_outside (hother j hji)
  · exact hquiet (hself ▸ hnone i)

omit [DecidableEq ι] in
/-- The `switch` finds the byte of its own request, or of a request whose value the LED shows. -/
theorem effect_suits {r : Request} (hfirst : 0 < r.length → r.first = some (s.controlSignal 0))
    (hshows : r.length = 0 → s.Shows) : s.effect.Suits r := by
  rcases Nat.eq_zero_or_pos r.length with hzero | hpos
  · have hvalue : r.value = none := by rw [Request.value, Request.first, hzero]; rfl
    refine ⟨fun v hv => ?_, fun _ => ?_⟩
    · rw [hvalue] at hv
      cases hv
    · have hshown := hshows hzero
      rw [State.Shows] at hshown
      rw [State.effect]
      cases hled : ledValue (s.controlSignal 0) with
      | none => simp
      | some v => simp [hshown v hled]
  · have hvalue : r.value = ledValue (s.controlSignal 0) := by
      rw [Request.value, hfirst hpos, Option.bind_some]
    refine ⟨fun v hv => hvalue.symm.trans hv, fun hnone => ?_⟩
    simp [State.effect, hvalue.symm.trans hnone]

omit [DecidableEq ι] in
/-- A call with a length that fails leaves a command behind only if it has failed behind it. -/
theorem shows_of_settled {res : Result} {results : List Result}
    (hfault : ¬res.request.whole = true)
    (hcontrol : t.controlSignal = copyFromUser s.controlSignal res.request.buffer
      (min bufLen res.request.length))
    (h : Settled (results ++ [res])) : t.Shows := by
  have hlen : 0 < res.request.length := by
    rcases Nat.eq_zero_or_pos res.request.length with hzero | hpos
    · rw [Request.whole, hzero] at hfault
      exact absurd rfl hfault
    · exact hpos
  have hlast : ((results ++ [res]).filter fun res => 0 < res.request.length).getLast? = some res := by
    have hkeep : [res].filter (fun res => 0 < res.request.length) = [res] :=
      List.filter_cons_of_pos (decide_eq_true hlen)
    rw [List.filter_append, hkeep, List.getLast?_concat]
  have hnone : res.request.value = none := (h res hlast).resolve_left hfault
  intro v hv
  have hcopied : 0 < min bufLen res.request.length := lt_min (by decide) hlen
  rw [hcontrol, copyFromUser_zero hcopied, ledValue_of_value hlen hnone] at hv
  cases hv

end Steps

/-- **Step.** -/
theorem InTurn.step {s t : State ι} {act : Act ι} (hs : InTurn s) (hC : Apart s act)
    (h : ledStep s act = some t) : InTurn t := by
  cases act with
  | deviceWrite i r =>
      rw [ledStep] at h
      split at h
      · rename_i hi
        obtain rfl := Option.some.inj h
        have hpc : ∀ j, (Function.update s.pc i (Pc.setSize r) j).inside = (s.pc j).inside ∧
            (PcOk s (s.pc j) → PcOk s (Function.update s.pc i (Pc.setSize r) j)) := by
          intro j
          by_cases hji : j = i
          · rw [hji, Function.update_self, hi]
            exact ⟨rfl, id⟩
          · rw [Function.update_of_ne hji]
            exact ⟨rfl, id⟩
        refine ⟨fun j k hj hk => ?_, fun j => (hpc j).2 (hs.place j), fun hnone => ?_, hs.returned⟩
        · exact hs.one j k ((hpc j).1.symm.trans hj) ((hpc k).1.symm.trans hk)
        · exact hs.quiet fun j => (hpc j).1.symm.trans (hnone j)
      · cases h
  | step i =>
      rw [ledStep] at h
      have hplace := hs.place i
      cases hi : s.pc i with
      | idle =>
          rw [hi] at h
          cases h
      | setSize r =>
          rw [hi] at h
          obtain rfl := Option.some.inj h
          obtain ⟨halone, hsettled⟩ := hC r (by rw [hi]; rfl)
          exact InTurn.move (fun j _ => halone j) rfl
            ⟨rfl, fun hzero => hs.quiet halone (hsettled hzero)⟩ nofun hs.returned
      | copy r =>
          rw [hi] at h hplace
          obtain ⟨hsize, hshows⟩ := hplace
          have halone := hs.alone (i := i) (by rw [hi]; rfl)
          simp only [hsize] at h
          split at h
          · rename_i hreadable
            obtain rfl := Option.some.inj h
            refine InTurn.move halone rfl ⟨?_, fun hlen => ?_, fun hzero => ?_⟩ nofun hs.returned
            · exact hsize.trans (min_eq_left (min_le_right _ _)).symm
            · have hcopied : 0 < min bufLen r.length := lt_min (by decide) hlen
              rw [Request.first, if_pos hlen]
              exact (readable_first hcopied hreadable).trans
                (congrArg some (copyFromUser_zero hcopied).symm)
            · have hshown := hshows hzero
              simp only [hzero, Nat.min_zero, copyFromUser_nothing]
              exact hshown
          · rename_i hfault
            obtain rfl := Option.some.inj h
            refine InTurn.move halone rfl trivial (fun _ => shows_of_settled hfault rfl) ?_
            intro res hres n hn
            rcases List.mem_append.mp hres with hold | hnew
            · exact hs.returned res hold n hn
            · rw [List.mem_singleton.mp hnew] at hn
              cases hn
      | switch r consumed =>
          rw [hi] at h hplace
          obtain rfl := Option.some.inj h
          obtain ⟨hsize, hfirst, hshows⟩ := hplace
          refine InTurn.move (hs.alone (by rw [hi]; rfl)) rfl ⟨hsize, ?_, fun v hv => ?_⟩ nofun
            hs.returned
          · exact effect_suits hfirst hshows
          · show v = (ledValue (s.controlSignal 0)).getD s.led
            rw [show ledValue (s.controlSignal 0) = some v from hv, Option.getD_some]
      | ret r consumed effect =>
          rw [hi] at h hplace
          obtain rfl := Option.some.inj h
          obtain ⟨hsize, hsuits, hshows⟩ := hplace
          refine InTurn.move (hs.alone (by rw [hi]; rfl)) rfl trivial (fun _ _ => hshows) ?_
          intro res hres n hn
          rcases List.mem_append.mp hres with hold | hnew
          · exact hs.returned res hold n hn
          · obtain rfl := List.mem_singleton.mp hnew
            exact ⟨hsuits, (Except.ok.inj hn).symm.trans hsize⟩

/-- **LED writes.**  In every interleaving of any number of `device_write` calls with any requests, in
which no call assigns `device_buffer_size` between the assignment of another call and its return, and
no empty one comes after one that has failed behind a command: each call sets the LED to its own
value, or does not change it if its first byte is no command, and returns the number of bytes of its
own request that it has consumed. -/
theorem writes_kept {acts : List (Act ι)} (h : Along ledStep Apart (State.init : State ι) acts) :
    Throughout ledStep Kept (State.init : State ι) acts :=
  throughout_of_along (fun _ _ _ hs hC hstep => hs.step hC hstep) (fun _ hs => hs.kept) inTurn_init h

/-- The request of one command. -/
def command (c : Byte) : Request := ⟨fun i => if i = 0 then some c else none, 1⟩

/-- Two calls that begin before either goes on, and then an empty one. -/
theorem writes_kept_threeCalls :
    ∃ s, run ledStep (State.init : State (Fin 2))
        [.deviceWrite 0 (command 0x31), .deviceWrite 1 (command 0x30), .step 1, .step 1, .step 1,
          .step 1, .step 0, .step 0, .step 0, .step 0, .deviceWrite 1 ⟨fun _ => none, 0⟩, .step 1,
          .step 1, .step 1, .step 1] = some s ∧
      s.results.map Result.ret = [.ok 1, .ok 1, .ok 0] ∧ s.led = true ∧ Kept s := by
  obtain ⟨s, hrun⟩ : ∃ s, run ledStep (State.init : State (Fin 2))
      [.deviceWrite 0 (command 0x31), .deviceWrite 1 (command 0x30), .step 1, .step 1, .step 1,
        .step 1, .step 0, .step 0, .step 0, .step 0, .deviceWrite 1 ⟨fun _ => none, 0⟩, .step 1,
        .step 1, .step 1, .step 1] = some s := ⟨_, rfl⟩
  refine ⟨s, hrun, ?_, ?_, (writes_kept (by decide +kernel)).last hrun⟩
  · obtain rfl := Option.some.inj hrun
    rfl
  · obtain rfl := Option.some.inj hrun
    rfl

/-! ### A lost write -/

/-- Process 0 writes `1` and process 1 writes `0`, and both get to their `switch` after both have
copied. -/
def lost : List (Act (Fin 2)) :=
  [.deviceWrite 0 (command 0x31), .step 0, .step 0, .deviceWrite 1 (command 0x30), .step 1, .step 1,
    .step 0, .step 0]

theorem not_writes_kept :
    ¬∀ acts : List (Act (Fin 2)), Throughout ledStep Kept (State.init : State (Fin 2)) acts := by
  intro hall
  obtain ⟨s, hrun, hresults⟩ : ∃ s, run ledStep (State.init : State (Fin 2)) lost = some s ∧
      s.results = [⟨command 0x31, 1, ⟨some false, false⟩, .ok 1⟩] := ⟨_, rfl, rfl⟩
  have hkept := (hall lost).last hrun
  have hsuits := (hkept.returned _ (by rw [hresults]; exact List.mem_cons_self) 1 rfl).1.1 true rfl
  cases hsuits

end Lkmpg.Led
