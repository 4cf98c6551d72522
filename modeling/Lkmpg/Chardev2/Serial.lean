import Lkmpg.Chardev2.Device

/-!
# Calls of `device_ioctl` are serialisable

The serial device runs each call of `device_ioctl` at once, in the order in which the calls pass
their `atomic_cmpxchg`.  A state of the interleaved device stands for the serial state in which the
call under way, if there is one, has already run to its end.

User space may change its memory at any moment, except for what the call under way has yet to read
or write.
-/

namespace Lkmpg.Chardev2

open ExclusiveFlag Transition Uninterrupted

variable {σ ι : Type} [DecidableEq σ]

/-! ### The serial device -/

/-- The rest of a call, run at once: the data it leaves, and what it returns. -/
def ioctlAtomic (signedChar : Bool) (param : UserPtr σ) (d : Data σ) (pc : IoctlPc) : Data σ × ℤ :=
  ((complete (ioctlStep signedChar param) IoctlPc.cost d pc).1,
    (complete (ioctlStep signedChar param) IoctlPc.cost d pc).2.ret)

structure SerialState (σ ι : Type) where
  data : Data σ
  results : List (ι × ℤ)

inductive Event (σ ι : Type) where
  | ioctl (i : ι) (ioctlNum : BitVec 32) (param : UserPtr σ)
  | poke (p : UserPtr σ) (cell : Cell)

def SerialState.call (a : SerialState σ ι) (signedChar : Bool) (i : ι) (param : UserPtr σ)
    (pc : IoctlPc) : SerialState σ ι :=
  ⟨(ioctlAtomic signedChar param a.data pc).1,
    a.results ++ [(i, (ioctlAtomic signedChar param a.data pc).2)]⟩

def serialExec (signedChar : Bool) (a : SerialState σ ι) : Event σ ι → SerialState σ ι
  | .ioctl i ioctlNum param => a.call signedChar i param (ioctlSwitch ioctlNum)
  | .poke p cell => { a with data := a.data.poke p cell }

/-- The calls that pass their `atomic_cmpxchg`, and what user space does. -/
def serialEvents (s : State σ ι) : Act σ ι → List (Event σ ι)
  | .deviceIoctl i ioctlNum param =>
      if (cmpxchg s.alreadyOpen 0 1).1 = 0 then [.ioctl i ioctlNum param] else []
  | .poke p cell => [.poke p cell]
  | _ => []

/-! ### What a call does with user memory -/

/-- The user address that the next step reads or writes. -/
def ReadPc.access (buffer : UserPtr σ) : ReadPc → Option (UserPtr σ)
  | .put _ taken _ => some (buffer.add taken.length)
  | _ => none

def WritePc.access (buffer : UserPtr σ) (length : ℕ) : WritePc → Option (UserPtr σ)
  | .get i => if i < length ∧ i < bufLen then some (buffer.add i) else none
  | _ => none

def IoctlPc.access (param : UserPtr σ) : IoctlPc → Option (UserPtr σ)
  | .scanFirst => some param
  | .scan i ch => if ch ≠ 0 ∧ i < bufLen then some (param.add i) else none
  | .setMsg i pc => pc.access param i
  | .getMsg (.done _ taken) => some (param.add taken.length)
  | .getMsg pc => pc.access param
  | _ => none

section Poke

variable {d : Data σ} {p q : UserPtr σ} {cell : Cell} {c : Byte}

theorem poke_user (h : q ≠ p) : (d.poke p cell).user q = d.user q :=
  Function.update_of_ne h _ _

theorem getUser_poke (h : q ≠ p) : (d.poke p cell).getUser q = d.getUser q := by
  rw [Data.getUser, Data.getUser, poke_user h]

theorem putUser_poke (h : q ≠ p) : (d.poke p cell).putUser q c = (d.putUser q c).poke p cell := by
  rw [Data.putUser, Data.putUser, poke_user h]
  split
  · exact congrArg (Data.mk d.message) (Function.update_comm h _ _ _).symm
  · rfl

theorem readStep_poke {buffer : UserPtr σ} {offset : ℕ} {pc : ReadPc}
    (h : pc.access buffer ≠ some p) :
    readStep buffer offset (d.poke p cell) pc =
      (readStep buffer offset d pc).map fun next => (next.1.poke p cell, next.2) := by
  cases pc with
  | put length taken c =>
      have hne : buffer.add taken.length ≠ p := fun he => h (congrArg some he)
      rw [readStep, putUser_poke hne]
      rfl
  | _ => rfl

theorem writeStep_poke {buffer : UserPtr σ} {length : ℕ} {pc : WritePc}
    (h : pc.access buffer length ≠ some p) :
    writeStep buffer length (d.poke p cell) pc =
      (writeStep buffer length d pc).map fun next => (next.1.poke p cell, next.2) := by
  cases pc with
  | get i =>
      simp only [WritePc.access] at h
      simp only [writeStep, Option.map_some]
      split
      · rename_i hmore
        rw [if_pos hmore] at h
        rw [getUser_poke fun he => h (congrArg some he)]
      · rfl
  | _ => rfl

/-- A step of `device_ioctl` does not see a change of memory that it does not access. -/
theorem ioctlStep_poke {signedChar : Bool} {param : UserPtr σ} {pc : IoctlPc}
    (h : pc.access param ≠ some p) :
    ioctlStep signedChar param (d.poke p cell) pc =
      (ioctlStep signedChar param d pc).map fun next => (next.1.poke p cell, next.2) := by
  cases pc with
  | scanFirst =>
      simp only [ioctlStep, Option.map_some]
      rw [getUser_poke fun he => h (congrArg some he)]
  | scan i ch =>
      simp only [IoctlPc.access] at h
      simp only [ioctlStep, Option.map_some]
      split
      · rename_i hmore
        rw [if_pos hmore] at h
        rw [getUser_poke fun he => h (congrArg some he)]
      · rfl
  | setMsg i pc =>
      rw [ioctlStep, ioctlStep, writeStep_poke h]
      cases writeStep param i d pc <;> rfl
  | getMsg pc =>
      have hread : pc.access param ≠ some p := by
        cases pc with
        | done offset taken => exact Option.some_ne_none p |>.symm
        | _ => exact h
      rw [ioctlStep, ioctlStep, readStep_poke hread]
      cases hstep : readStep param 0 d pc with
      | some next => rfl
      | none =>
          cases pc with
          | done offset taken =>
              have hne : param.add taken.length ≠ p := fun he => h (congrArg some he)
              rw [ReadPc.taken]
              show some ((d.poke p cell).putUser (param.add taken.length) 0, IoctlPc.done 0) = _
              rw [putUser_poke hne]
              rfl
          | _ => cases hstep
  | getNthByte => rfl
  | done ret => rfl

end Poke

/-! ### The rest of a call -/

section Call

variable {signedChar : Bool} {i : ι} {param : UserPtr σ} {d d' : Data σ} {pc pc' : IoctlPc}
  {results : List (ι × ℤ)}

theorem call_of_step (h : ioctlStep signedChar param d pc = some (d', pc')) :
    SerialState.call ⟨d', results⟩ signedChar i param pc' =
      SerialState.call ⟨d, results⟩ signedChar i param pc := by
  rw [SerialState.call, SerialState.call, ioctlAtomic, ioctlAtomic,
    complete_of_step (ioctlStep_decreasing signedChar param) h]

theorem call_of_none (h : ioctlStep signedChar param d pc = none) :
    SerialState.call ⟨d, results⟩ signedChar i param pc = ⟨d, results ++ [(i, pc.ret)]⟩ := by
  rw [SerialState.call, ioctlAtomic, complete_of_none h]

theorem ioctlStep_eq_none (h : ioctlStep signedChar param d pc = none) : ∃ ret, pc = .done ret := by
  cases pc with
  | done ret => exact ⟨ret, rfl⟩
  | setMsg n pc =>
      rw [ioctlStep] at h
      split at h <;> cases h
  | getMsg pc =>
      rw [ioctlStep] at h
      split at h <;> cases h
  | _ => cases h

/-- Run at once, a call gets to the end of its `switch`. -/
theorem complete_done (signedChar : Bool) (param : UserPtr σ) (d : Data σ) (pc : IoctlPc) :
    ∃ ret, (complete (ioctlStep signedChar param) IoctlPc.cost d pc).2 = .done ret :=
  ioctlStep_eq_none (step_complete (ioctlStep_decreasing signedChar param))

/-- The rest of the call does not access the user address. -/
def Spares (signedChar : Bool) (param : UserPtr σ) (d : Data σ) (pc : IoctlPc) (p : UserPtr σ) :
    Prop :=
  ∀ k, (finish (ioctlStep signedChar param) k d pc).2.access param ≠ some p

theorem call_poke {p : UserPtr σ} (h : Spares signedChar param d pc p) (cell : Cell) :
    SerialState.call ⟨d.poke p cell, results⟩ signedChar i param pc =
      serialExec signedChar (SerialState.call ⟨d, results⟩ signedChar i param pc)
        (.poke p cell) := by
  have hcomm : complete (ioctlStep signedChar param) IoctlPc.cost (d.poke p cell) pc =
      ((complete (ioctlStep signedChar param) IoctlPc.cost d pc).1.poke p cell,
        (complete (ioctlStep signedChar param) IoctlPc.cost d pc).2) :=
    complete_comm (f := fun d : Data σ => d.poke p cell) fun k => ioctlStep_poke (h k)
  rw [SerialState.call, ioctlAtomic, hcomm]
  rfl

end Call

/-! ### Simulation -/

/-- Neither `device_read` nor `device_write` has been called directly. -/
def Pc.OnlyIoctl : Pc σ → Prop
  | .reading _ _ _ => False
  | .writing _ _ _ => False
  | _ => True

/-- The label belongs to a run of `device_ioctl` calls, and user space keeps its hands off what the
call under way has yet to access. -/
def Undisturbed (signedChar : Bool) (s : State σ ι) : Act σ ι → Prop
  | .deviceRead _ _ _ _ => False
  | .deviceWrite _ _ _ => False
  | .poke p _ => ∀ i param pc, s.pc i = .ioctl param pc → Spares signedChar param s.data pc p
  | _ => True

/-- The state stands for the serial state: the flag belongs to the one call under way, and the
serial state is the one in which that call has run to its end. -/
structure Stands (signedChar : Bool) (s : State σ ι) (a : SerialState σ ι) : Prop where
  exclusive : Exclusive Pc.Holds s.alreadyOpen s.pc
  onlyIoctl : ∀ i, (s.pc i).OnlyIoctl
  free : (∀ i, ¬(s.pc i).Holds) → a = ⟨s.data, s.results⟩
  active : ∀ i param pc, s.pc i = .ioctl param pc →
    a = SerialState.call ⟨s.data, s.results⟩ signedChar i param pc

theorem stands_start (signedChar : Bool) (d : Data σ) :
    Stands signedChar (State.start d : State σ ι) ⟨d, []⟩ where
  exclusive := Or.inr ⟨rfl, fun _ h => h⟩
  onlyIoctl := fun _ => trivial
  free := fun _ => rfl
  active := fun _ _ _ h => nomatch h

theorem Stands.poke {signedChar : Bool} {s : State σ ι} {a : SerialState σ ι}
    (hs : Stands signedChar s a) {p : UserPtr σ} {cell : Cell}
    (h : ∀ i param pc, s.pc i = .ioctl param pc → Spares signedChar param s.data pc p) :
    Stands signedChar { s with data := s.data.poke p cell }
      (serialExec signedChar a (.poke p cell)) := by
  refine ⟨hs.exclusive, hs.onlyIoctl, fun hfree => ?_, fun i param pc hi => ?_⟩
  · rw [hs.free hfree]
    rfl
  · rw [hs.active i param pc hi]
    exact (call_poke (h i param pc hi) cell).symm

section Step

variable [DecidableEq ι] {signedChar : Bool} {s t : State σ ι} {a : SerialState σ ι} {i : ι}
  {param : UserPtr σ} {pc : IoctlPc} {l : Pc σ}

omit [DecidableEq σ] in
theorem onlyIoctl_update (h : ∀ j, (s.pc j).OnlyIoctl) (hl : l.OnlyIoctl) (j : ι) :
    (Function.update s.pc i l j).OnlyIoctl :=
  (Function.forall_update_iff s.pc fun _ l => l.OnlyIoctl).mpr ⟨hl, fun k _ => h k⟩ j

/-- **Holder.**  After a step that leaves process `i` in `device_ioctl`, the serial state is the one
in which `i` has finished. -/
theorem Stands.holder (hs : Stands signedChar s a)
    (hpc : t.pc = Function.update s.pc i (.ioctl param pc))
    (hex : Exclusive Pc.Holds t.alreadyOpen t.pc) :
    Stands signedChar t (SerialState.call ⟨t.data, t.results⟩ signedChar i param pc) := by
  have hi : t.pc i = .ioctl param pc := by rw [hpc, Function.update_self]
  have hholds : (t.pc i).Holds := by rw [hi]; trivial
  refine ⟨hex, ?_, fun hfree => absurd hholds (hfree i), fun j param' pc' hj => ?_⟩
  · rw [hpc]
    exact onlyIoctl_update hs.onlyIoctl trivial
  · have hji : j = i := hex.unique (by rw [hj]; trivial) hholds
    rw [hji, hi] at hj
    injection hj with hparam hpc'
    rw [hji, hparam, hpc']

/-- A call that is refused. -/
theorem Stands.refuse (hs : Stands signedChar s a) (hi : (s.pc i).free = true)
    (hex : Exclusive Pc.Holds s.alreadyOpen (Function.update s.pc i .busy)) :
    Stands signedChar (s.next i s.data .busy) a := by
  refine ⟨hex, onlyIoctl_update hs.onlyIoctl trivial, fun hfree => hs.free fun j hj => ?_,
    fun j param pc hj => hs.active j param pc ?_⟩
  · by_cases hji : j = i
    · exact Pc.not_holds_of_free hi (hji ▸ hj)
    · exact hfree j ((holds_update_of_ne hji).mpr hj)
  · replace hj : Function.update s.pc i .busy j = .ioctl param pc := hj
    by_cases hji : j = i
    · rw [hji, Function.update_self] at hj
      cases hj
    · rw [Function.update_of_ne hji] at hj
      exact hj

/-- `atomic_set`, and the return of the call. -/
theorem Stands.ret (hs : Stands signedChar s a) (hi : s.pc i = .ioctl param pc)
    (h : ioctlStep signedChar param s.data pc = none)
    (hex : Exclusive Pc.Holds 0 (Function.update s.pc i .idle)) :
    Stands signedChar { s.ret i pc.ret with alreadyOpen := 0 } a := by
  refine ⟨hex, onlyIoctl_update hs.onlyIoctl trivial, fun _ => ?_, fun j param' pc' hj => ?_⟩
  · rw [hs.active i param pc hi, call_of_none h]
    rfl
  · have hnone := hex.eq_zero_iff.mp rfl j
    replace hj : Function.update s.pc i .idle j = .ioctl param' pc' := hj
    rw [hj] at hnone
    exact absurd trivial hnone

/-- **Step.**  A step of the interleaved device is matched by the events it emits. -/
theorem Stands.step {act : Act σ ι} (hs : Stands signedChar s a)
    (hact : Undisturbed signedChar s act) (h : chardevStep signedChar s act = some t) :
    Stands signedChar t ((serialEvents s act).foldl (serialExec signedChar) a) := by
  have hex := exclusive_step hs.exclusive h
  cases act with
  | deviceIoctl i ioctlNum param =>
      obtain ⟨hfree, ⟨hbusy, rfl⟩ | ⟨hzero, rfl⟩⟩ := deviceIoctl_eq_some h
      · rw [serialEvents, cmpxchg_fst, if_neg hbusy]
        exact hs.refuse hfree hex
      · -- the call passes its `atomic_cmpxchg`: on the serial side it runs at once
        rw [serialEvents, cmpxchg_fst, if_pos hzero, hs.free (hs.exclusive.eq_zero_iff.mp hzero)]
        exact hs.holder rfl hex
  | deviceRead i buffer length offset => exact absurd hact id
  | deviceWrite i buffer length => exact absurd hact id
  | step i =>
      have honly := hs.onlyIoctl i
      cases step_cases h with
      | read hi hread =>
          rw [hi] at honly
          exact absurd honly id
      | readReturn hi hread =>
          rw [hi] at honly
          exact absurd honly id
      | write hi hwrite =>
          rw [hi] at honly
          exact absurd honly id
      | writeReturn hi hwrite =>
          rw [hi] at honly
          exact absurd honly id
      | @ioctl param pc pc' d hi hioctl =>
          show Stands signedChar (s.next i d (.ioctl param pc')) a
          rw [hs.active i param pc hi, ← call_of_step hioctl]
          exact hs.holder rfl hex
      | ioctlReturn hi hioctl => exact hs.ret hi hioctl hex
  | poke p cell =>
      obtain rfl := Option.some.inj h
      exact hs.poke hact

end Step

/-! ### Serialisability -/

section Serialisable

variable [DecidableEq ι]

/-- The serial device after the calls of a run. -/
def serialRun (signedChar : Bool) (d : Data σ) (acts : List (Act σ ι)) : SerialState σ ι :=
  (events (chardevStep signedChar) serialEvents (State.start d) acts).foldl
    (serialExec signedChar) ⟨d, []⟩

/-- **Calls of `device_ioctl` are serialisable.**  In every interleaving of any number of calls,
with any commands and arguments: whenever no call is under way, `already_open` is 0, and the
message, the memory of the callers and what they have been returned are those of the serial device;
while one is under way it is the only one, and what it leaves when it ends are those of the serial
device; and a call that returns `-EBUSY` has no effect. -/
theorem ioctls_serialisable {signedChar : Bool} {d : Data σ} {acts : List (Act σ ι)}
    {s : State σ ι} (hrun : run (chardevStep signedChar) (State.start d) acts = some s)
    (hacts : Along (chardevStep signedChar) (Undisturbed signedChar) (State.start d) acts) :
    ((∀ i, ¬(s.pc i).Holds) → s.alreadyOpen = 0 ∧
      s.data = (serialRun signedChar d acts).data ∧
      s.results = (serialRun signedChar d acts).results) ∧
    (∀ i param pc, s.pc i = .ioctl param pc → (∀ j, (s.pc j).Holds → j = i) ∧
      serialRun signedChar d acts = SerialState.call ⟨s.data, s.results⟩ signedChar i param pc) ∧
    ∀ i ioctlNum param t, chardevStep signedChar s (.deviceIoctl i ioctlNum param) = some t →
      t.pc i = .busy → t = { s with pc := Function.update s.pc i .busy } := by
  have hstands : Stands signedChar s (serialRun signedChar d acts) := by
    refine run_simulation (fun u l v a hu hl h => ?_) (stands_start signedChar d) hacts hrun
    exact Stands.step hu hl h
  refine ⟨fun hfree => ?_, fun i param pc hi => ⟨fun j hj => ?_, hstands.active i param pc hi⟩,
    fun i ioctlNum param t h hbusy => ?_⟩
  · have hserial := hstands.free hfree
    exact ⟨hstands.exclusive.eq_zero_iff.mpr hfree, by rw [hserial], by rw [hserial]⟩
  · exact hstands.exclusive.unique hj (by rw [hi]; trivial)
  · obtain ⟨-, ⟨-, rfl⟩ | ⟨-, rfl⟩⟩ := deviceIoctl_eq_some h
    · rfl
    · -- the call has been accepted
      replace hbusy : Function.update s.pc i (.ioctl param (ioctlSwitch ioctlNum)) i = .busy :=
        hbusy
      rw [Function.update_self] at hbusy
      cases hbusy

end Serialisable

/-- A process sets the message, another one is refused and then gets it. -/
def setAndGet : List (Act Bool Bool) :=
  [.deviceIoctl false ioctlSetMsg ⟨false, 0⟩, .step false,
    .deviceIoctl true ioctlGetMsg ⟨true, 8⟩] ++ List.replicate 10 (.step false) ++
    [.deviceIoctl true ioctlGetMsg ⟨true, 8⟩] ++ List.replicate 7 (.step true)

/-- The string `"a"` at address 0 of every address space. -/
def setAndGetData : Data Bool := ⟨fun _ => 0, fun p => ⟨if p.addr = 0 then 0x61 else 0, true, true⟩⟩

theorem ioctls_serialisable_setAndGet :
    ∃ s, run (chardevStep true) (State.start setAndGetData) setAndGet = some s ∧
      (s.data.user ⟨true, 8⟩).value = 0x61 ∧ s.results = [(false, 0), (true, 0)] ∧
      s.data = (serialRun true setAndGetData setAndGet).data := by
  obtain ⟨s, hrun, hvalue, hresults, hfalse, htrue⟩ :
      ∃ s, run (chardevStep true) (State.start setAndGetData) setAndGet = some s ∧
        (s.data.user ⟨true, 8⟩).value = 0x61 ∧ s.results = [(false, 0), (true, 0)] ∧
        s.pc false = .idle ∧ s.pc true = .idle :=
    ⟨_, rfl, by decide, by decide, rfl, rfl⟩
  have hfree : ∀ i, ¬(s.pc i).Holds := by
    intro i
    cases i
    · rw [hfalse]
      exact id
    · rw [htrue]
      exact id
  have hacts : ∀ act ∈ setAndGet, ∀ u, Undisturbed true u act := by
    simp [setAndGet, Undisturbed]
  refine ⟨s, hrun, hvalue, hresults, ?_⟩
  exact ((ioctls_serialisable hrun ((Along.of_forall hacts).mono fun u _ h => h u)).1 hfree).2.1

end Lkmpg.Chardev2
