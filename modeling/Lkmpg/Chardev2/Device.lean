import Lkmpg.Lib.ExclusiveFlag
import Lkmpg.Lib.KernelTypes
import Lkmpg.Lib.Transition
import Lkmpg.Lib.Uninterrupted

/-!
# The character device of `chardev2.c`

`device_read`, `device_write` and `device_ioctl` move bytes between the global `message` and the
memory of their callers, one `get_user`, `put_user` or access to `message` at a time.  Each function
is a step function on the data it shares and on its own place; `device_ioctl` contains the other
two, and takes `already_open` around all it does.

A user page may be missing or write-protected: a faulting `get_user` yields 0 and a faulting
`put_user` stores nothing, and none of the functions looks at what they return.
-/

namespace Lkmpg.Chardev2

open ExclusiveFlag Uninterrupted

/-- `BUF_LEN` -/
def bufLen : ℕ := 80

/-! ### User memory -/

/-- An address in one of the address spaces. -/
structure UserPtr (σ : Type) where
  space : σ
  addr : BitVec 64
  deriving DecidableEq

def UserPtr.add {σ : Type} (p : UserPtr σ) (n : ℕ) : UserPtr σ :=
  { p with addr := p.addr + BitVec.ofNat 64 n }

structure Cell where
  value : Byte
  readable : Bool
  writable : Bool
  deriving DecidableEq

/-- What the calls share. -/
structure Data (σ : Type) where
  /-- `message` -/
  message : ℕ → Byte
  user : UserPtr σ → Cell

variable {σ : Type}

def Data.getUser (d : Data σ) (p : UserPtr σ) : Byte :=
  if (d.user p).readable then (d.user p).value else 0

def Data.putUser [DecidableEq σ] (d : Data σ) (p : UserPtr σ) (c : Byte) : Data σ :=
  if (d.user p).writable then { d with user := Function.update d.user p { d.user p with value := c } }
  else d

theorem putUser_message [DecidableEq σ] (d : Data σ) (p : UserPtr σ) (c : Byte) :
    (d.putUser p c).message = d.message := by
  rw [Data.putUser]
  split <;> rfl

/-! ### `device_read` -/

/-- Where a call of `device_read` is; `taken` are the bytes it has put, `bytes_read` of them. -/
inductive ReadPc where
  /-- `if (!*(message_ptr + *offset))` -/
  | first (length : ℕ)
  /-- `while (length && *message_ptr)` -/
  | test (length : ℕ) (taken : List Byte)
  /-- the argument of `put_user` -/
  | load (length : ℕ) (taken : List Byte)
  /-- `put_user`, `length--` and `bytes_read++` -/
  | put (length : ℕ) (taken : List Byte) (c : Byte)
  /-- after the loop, with the new `*offset` -/
  | done (offset : ℕ) (taken : List Byte)
  deriving DecidableEq

def ReadPc.taken : ReadPc → List Byte
  | .first _ => []
  | .test _ taken => taken
  | .load _ taken => taken
  | .put _ taken _ => taken
  | .done _ taken => taken

def readStep [DecidableEq σ] (buffer : UserPtr σ) (offset : ℕ) (d : Data σ) :
    ReadPc → Option (Data σ × ReadPc)
  | .first length => some (d, if d.message offset = 0 then .done 0 [] else .test length [])
  | .test length taken =>
      some (d, if length ≠ 0 ∧ d.message (offset + taken.length) ≠ 0 then .load length taken
        else .done (offset + taken.length) taken)
  | .load length taken => some (d, .put length taken (d.message (offset + taken.length)))
  | .put length taken c =>
      some (d.putUser (buffer.add taken.length) c, .test (length - 1) (taken ++ [c]))
  | .done _ _ => none

def ReadPc.cost : ReadPc → ℕ
  | .first length => 3 * length + 2
  | .test length _ => 3 * length + 1
  | .load length _ => 3 * (length - 1) + 3
  | .put length _ _ => 3 * (length - 1) + 2
  | .done _ _ => 0

theorem readStep_decreasing [DecidableEq σ] (buffer : UserPtr σ) (offset : ℕ) :
    Decreasing (readStep buffer offset) ReadPc.cost := by
  intro d pc d' pc' h
  cases pc with
  | done offset taken => cases h
  | first length =>
      obtain ⟨rfl, rfl⟩ := Prod.mk.inj (Option.some.inj h)
      split <;> simp only [ReadPc.cost] <;> omega
  | test length taken =>
      obtain ⟨rfl, rfl⟩ := Prod.mk.inj (Option.some.inj h)
      split <;> simp only [ReadPc.cost] <;> omega
  | load length taken =>
      obtain ⟨rfl, rfl⟩ := Prod.mk.inj (Option.some.inj h)
      simp only [ReadPc.cost]
      omega
  | put length taken c =>
      obtain ⟨rfl, rfl⟩ := Prod.mk.inj (Option.some.inj h)
      simp only [ReadPc.cost]
      omega

/-! ### `device_write` -/

inductive WritePc where
  /-- the condition of the loop, and `get_user` -/
  | get (i : ℕ)
  /-- the assignment to `message[i]` -/
  | store (i : ℕ) (c : Byte)
  /-- after the loop -/
  | done (i : ℕ)
  deriving DecidableEq

/-- The local variable `i` of `device_write`. -/
def WritePc.count : WritePc → ℕ
  | .get i => i
  | .store i _ => i
  | .done i => i

def writeStep (buffer : UserPtr σ) (length : ℕ) (d : Data σ) : WritePc → Option (Data σ × WritePc)
  | .get i =>
      some (d, if i < length ∧ i < bufLen then .store i (d.getUser (buffer.add i)) else .done i)
  | .store i c => some ({ d with message := Function.update d.message i c }, .get (i + 1))
  | .done _ => none

def WritePc.cost : WritePc → ℕ
  | .get i => 2 * (bufLen - i) + 1
  | .store i _ => 2 * (bufLen - 1 - i) + 2
  | .done _ => 0

theorem writeStep_decreasing (buffer : UserPtr σ) (length : ℕ) :
    Decreasing (writeStep buffer length) WritePc.cost := by
  intro d pc d' pc' h
  cases pc with
  | done i => cases h
  | get i =>
      obtain ⟨rfl, rfl⟩ := Prod.mk.inj (Option.some.inj h)
      split <;> simp only [WritePc.cost] <;> omega
  | store i c =>
      obtain ⟨rfl, rfl⟩ := Prod.mk.inj (Option.some.inj h)
      simp only [WritePc.cost]
      omega

/-! ### `device_ioctl` between `atomic_cmpxchg` and `atomic_set` -/

/-- `_IOC` of `linux/ioctl.h` -/
def ioc (dir type nr size : ℕ) : BitVec 32 :=
  BitVec.ofNat 32 (dir <<< 30 ||| size <<< 16 ||| type <<< 8 ||| nr)

/-- `MAJOR_NUM` -/
def majorNum : ℕ := 100

/-- `_IOW(MAJOR_NUM, 0, char *)` -/
def ioctlSetMsg : BitVec 32 := ioc 1 majorNum 0 8
/-- `_IOR(MAJOR_NUM, 1, char *)` -/
def ioctlGetMsg : BitVec 32 := ioc 2 majorNum 1 8
/-- `_IOWR(MAJOR_NUM, 2, int)` -/
def ioctlGetNthByte : BitVec 32 := ioc 3 majorNum 2 4

inductive IoctlPc where
  /-- the `get_user` before the loop of `IOCTL_SET_MSG` -/
  | scanFirst
  /-- the loop that looks for the end of the message -/
  | scan (i : ℕ) (ch : Byte)
  /-- `device_write` -/
  | setMsg (i : ℕ) (pc : WritePc)
  /-- `device_read`, and then the NUL after what it has put -/
  | getMsg (pc : ReadPc)
  | getNthByte
  /-- after the `switch` -/
  | done (ret : ℤ)
  deriving DecidableEq

/-- The local variable `ret` of `device_ioctl`. -/
def IoctlPc.ret : IoctlPc → ℤ
  | .done ret => ret
  | _ => 0

/-- `switch (ioctl_num)` -/
def ioctlSwitch (ioctlNum : BitVec 32) : IoctlPc :=
  if ioctlNum = ioctlSetMsg then .scanFirst
  else if ioctlNum = ioctlGetMsg then .getMsg (.first 99)
  else if ioctlNum = ioctlGetNthByte then .getNthByte
  else .done 0

/-- The conversion of a `char` to `long`. -/
def charToLong (signedChar : Bool) (c : Byte) : ℤ := if signedChar then c.toInt else c.toNat

def ioctlStep [DecidableEq σ] (signedChar : Bool) (param : UserPtr σ) (d : Data σ) :
    IoctlPc → Option (Data σ × IoctlPc)
  | .scanFirst => some (d, .scan 0 (d.getUser param))
  | .scan i ch =>
      some (d, if ch ≠ 0 ∧ i < bufLen then .scan (i + 1) (d.getUser (param.add i))
        else .setMsg i (.get 0))
  | .setMsg i pc =>
      match writeStep param i d pc with
      | some (d', pc') => some (d', .setMsg i pc')
      | none => some (d, .done 0)
  | .getMsg pc =>
      match readStep param 0 d pc with
      | some (d', pc') => some (d', .getMsg pc')
      | none => some (d.putUser (param.add pc.taken.length) 0, .done 0)
  | .getNthByte => some (d, .done (charToLong signedChar (d.message param.addr.toNat)))
  | .done _ => none

def IoctlPc.cost : IoctlPc → ℕ
  | .scanFirst => 3 * bufLen + 5
  | .scan i _ => (bufLen - i) + 2 * bufLen + 3
  | .setMsg _ pc => pc.cost + 1
  | .getMsg pc => pc.cost + 1
  | .getNthByte => 1
  | .done _ => 0

section Switch

variable [DecidableEq σ] {signedChar : Bool} {param : UserPtr σ} {d d' : Data σ} {pc' : IoctlPc}

/-- `IOCTL_SET_MSG` goes on in `device_write`, or has returned from it. -/
theorem ioctlStep_setMsg {i : ℕ} {pc : WritePc}
    (h : ioctlStep signedChar param d (.setMsg i pc) = some (d', pc')) :
    (∃ next, writeStep param i d pc = some (d', next) ∧ pc' = .setMsg i next) ∨
      (writeStep param i d pc = none ∧ d' = d ∧ pc' = .done 0) := by
  rw [ioctlStep] at h
  split at h
  · rename_i d₁ next hwrite
    obtain ⟨rfl, rfl⟩ := Prod.mk.inj (Option.some.inj h)
    exact Or.inl ⟨next, hwrite, rfl⟩
  · rename_i hreturned
    obtain ⟨rfl, rfl⟩ := Prod.mk.inj (Option.some.inj h)
    exact Or.inr ⟨hreturned, rfl, rfl⟩

/-- `IOCTL_GET_MSG` goes on in `device_read`, or puts the NUL after what that has put. -/
theorem ioctlStep_getMsg {pc : ReadPc}
    (h : ioctlStep signedChar param d (.getMsg pc) = some (d', pc')) :
    (∃ next, readStep param 0 d pc = some (d', next) ∧ pc' = .getMsg next) ∨
      (readStep param 0 d pc = none ∧ d' = d.putUser (param.add pc.taken.length) 0 ∧
        pc' = .done 0) := by
  rw [ioctlStep] at h
  split at h
  · rename_i d₁ next hread
    obtain ⟨rfl, rfl⟩ := Prod.mk.inj (Option.some.inj h)
    exact Or.inl ⟨next, hread, rfl⟩
  · rename_i hreturned
    obtain ⟨rfl, rfl⟩ := Prod.mk.inj (Option.some.inj h)
    exact Or.inr ⟨hreturned, rfl, rfl⟩

end Switch

/-- **Calls end.**  Every step of `device_ioctl` brings it nearer to its `atomic_set`. -/
theorem ioctlStep_decreasing [DecidableEq σ] (signedChar : Bool) (param : UserPtr σ) :
    Decreasing (ioctlStep signedChar param) IoctlPc.cost := by
  intro d pc d' pc' h
  cases pc with
  | done ret => cases h
  | scanFirst =>
      obtain ⟨rfl, rfl⟩ := Prod.mk.inj (Option.some.inj h)
      simp only [IoctlPc.cost]
      omega
  | scan i ch =>
      obtain ⟨rfl, rfl⟩ := Prod.mk.inj (Option.some.inj h)
      split <;> simp only [IoctlPc.cost, WritePc.cost] <;> omega
  | setMsg i pc =>
      obtain ⟨next, hwrite, rfl⟩ | ⟨-, -, rfl⟩ := ioctlStep_setMsg h
      · exact Nat.succ_lt_succ (writeStep_decreasing param i d pc _ _ hwrite)
      · exact Nat.succ_pos _
  | getMsg pc =>
      obtain ⟨next, hread, rfl⟩ | ⟨-, -, rfl⟩ := ioctlStep_getMsg h
      · exact Nat.succ_lt_succ (readStep_decreasing param 0 d pc _ _ hread)
      · exact Nat.succ_pos _
  | getNthByte =>
      obtain ⟨rfl, rfl⟩ := Prod.mk.inj (Option.some.inj h)
      exact Nat.succ_pos _

/-! ### The device -/

/-- Where a process is. -/
inductive Pc (σ : Type) where
  /-- not in a call -/
  | idle
  /-- `device_ioctl` has returned `-EBUSY` -/
  | busy
  | reading (buffer : UserPtr σ) (offset : ℕ) (pc : ReadPc)
  | writing (buffer : UserPtr σ) (length : ℕ) (pc : WritePc)
  /-- in `device_ioctl`, after its `atomic_cmpxchg` -/
  | ioctl (param : UserPtr σ) (pc : IoctlPc)

structure State (σ ι : Type) where
  alreadyOpen : ℤ
  data : Data σ
  /-- what the calls have returned, except for `-EBUSY`, in the order of their returns -/
  results : List (ι × ℤ)
  pc : ι → Pc σ

/-- No call is under way. -/
def State.start {σ ι : Type} (data : Data σ) : State σ ι := ⟨0, data, [], fun _ => .idle⟩

/-- After module load. -/
def State.init {σ ι : Type} (user : UserPtr σ → Cell) : State σ ι := .start ⟨fun _ => 0, user⟩

inductive Act (σ ι : Type) where
  /-- a call of `device_ioctl`, up to its `atomic_cmpxchg` -/
  | deviceIoctl (i : ι) (ioctlNum : BitVec 32) (param : UserPtr σ)
  | deviceRead (i : ι) (buffer : UserPtr σ) (length offset : ℕ)
  | deviceWrite (i : ι) (buffer : UserPtr σ) (length : ℕ)
  /-- the next step of a call -/
  | step (i : ι)
  /-- user space writes to its memory, maps or protects it -/
  | poke (p : UserPtr σ) (cell : Cell)

/-- The process can start a call. -/
def Pc.free : Pc σ → Bool
  | .idle => true
  | .busy => true
  | _ => false

def Data.poke [DecidableEq σ] (d : Data σ) (p : UserPtr σ) (cell : Cell) : Data σ :=
  { d with user := Function.update d.user p cell }

/-- The process is in `device_ioctl` and has the flag. -/
def Pc.Holds : Pc σ → Prop
  | .ioctl _ _ => True
  | _ => False

instance : DecidablePred (Pc.Holds (σ := σ))
  | .ioctl _ _ => isTrue trivial
  | .idle => isFalse id
  | .busy => isFalse id
  | .reading _ _ _ => isFalse id
  | .writing _ _ _ => isFalse id

variable {ι : Type} [DecidableEq σ] [DecidableEq ι]

/-- Process `i` returns `ret`. -/
def State.ret (s : State σ ι) (i : ι) (ret : ℤ) : State σ ι :=
  { s with results := s.results ++ [(i, ret)], pc := Function.update s.pc i .idle }

/-- Process `i` goes on in its call. -/
def State.next (s : State σ ι) (i : ι) (d : Data σ) (pc : Pc σ) : State σ ι :=
  { s with data := d, pc := Function.update s.pc i pc }

def chardevStep (signedChar : Bool) (s : State σ ι) : Act σ ι → Option (State σ ι)
  | .deviceIoctl i ioctlNum param =>
      if (s.pc i).free then
        if (cmpxchg s.alreadyOpen 0 1).1 ≠ 0 then some (s.next i s.data .busy)
        else some { s.next i s.data (.ioctl param (ioctlSwitch ioctlNum)) with
          alreadyOpen := (cmpxchg s.alreadyOpen 0 1).2 }
      else none
  | .deviceRead i buffer length offset =>
      if (s.pc i).free then some (s.next i s.data (.reading buffer offset (.first length)))
      else none
  | .deviceWrite i buffer length =>
      if (s.pc i).free then some (s.next i s.data (.writing buffer length (.get 0))) else none
  | .step i =>
      match s.pc i with
      | .reading buffer offset pc =>
          match readStep buffer offset s.data pc with
          | some (d, pc') => some (s.next i d (.reading buffer offset pc'))
          | none => some (s.ret i pc.taken.length)
      | .writing buffer length pc =>
          match writeStep buffer length s.data pc with
          | some (d, pc') => some (s.next i d (.writing buffer length pc'))
          | none => some (s.ret i pc.count)
      | .ioctl param pc =>
          match ioctlStep signedChar param s.data pc with
          | some (d, pc') => some (s.next i d (.ioctl param pc'))
          | none => some { s.ret i pc.ret with alreadyOpen := 0 }
      | _ => none
  | .poke p cell => some { s with data := s.data.poke p cell }

/-! ### What a step does -/

/-- A step of process `i`: it goes on in its call, or returns from it. -/
inductive Stepped (signedChar : Bool) (s : State σ ι) (i : ι) : State σ ι → Prop
  | read {buffer : UserPtr σ} {offset : ℕ} {pc pc' : ReadPc} {d : Data σ}
      (hi : s.pc i = .reading buffer offset pc)
      (hread : readStep buffer offset s.data pc = some (d, pc')) :
      Stepped signedChar s i (s.next i d (.reading buffer offset pc'))
  | readReturn {buffer : UserPtr σ} {offset : ℕ} {pc : ReadPc}
      (hi : s.pc i = .reading buffer offset pc)
      (hread : readStep buffer offset s.data pc = none) :
      Stepped signedChar s i (s.ret i pc.taken.length)
  | write {buffer : UserPtr σ} {length : ℕ} {pc pc' : WritePc} {d : Data σ}
      (hi : s.pc i = .writing buffer length pc)
      (hwrite : writeStep buffer length s.data pc = some (d, pc')) :
      Stepped signedChar s i (s.next i d (.writing buffer length pc'))
  | writeReturn {buffer : UserPtr σ} {length : ℕ} {pc : WritePc}
      (hi : s.pc i = .writing buffer length pc)
      (hwrite : writeStep buffer length s.data pc = none) :
      Stepped signedChar s i (s.ret i pc.count)
  | ioctl {param : UserPtr σ} {pc pc' : IoctlPc} {d : Data σ} (hi : s.pc i = .ioctl param pc)
      (hioctl : ioctlStep signedChar param s.data pc = some (d, pc')) :
      Stepped signedChar s i (s.next i d (.ioctl param pc'))
  | ioctlReturn {param : UserPtr σ} {pc : IoctlPc} (hi : s.pc i = .ioctl param pc)
      (hioctl : ioctlStep signedChar param s.data pc = none) :
      Stepped signedChar s i { s.ret i pc.ret with alreadyOpen := 0 }

section Inversion

variable {signedChar : Bool} {s t : State σ ι} {i : ι}

theorem step_cases (h : chardevStep signedChar s (.step i) = some t) :
    Stepped signedChar s i t := by
  simp only [chardevStep] at h
  split at h
  · rename_i hi
    split at h <;> obtain rfl := Option.some.inj h
    · rename_i hread
      exact .read hi hread
    · rename_i hread
      exact .readReturn hi hread
  · rename_i hi
    split at h <;> obtain rfl := Option.some.inj h
    · rename_i hwrite
      exact .write hi hwrite
    · rename_i hwrite
      exact .writeReturn hi hwrite
  · rename_i hi
    split at h <;> obtain rfl := Option.some.inj h
    · rename_i hioctl
      exact .ioctl hi hioctl
    · rename_i hioctl
      exact .ioctlReturn hi hioctl
  · cases h

theorem deviceRead_eq_some {buffer : UserPtr σ} {length offset : ℕ}
    (h : chardevStep signedChar s (.deviceRead i buffer length offset) = some t) :
    (s.pc i).free = true ∧ t = s.next i s.data (.reading buffer offset (.first length)) := by
  obtain ⟨hfree, hnext⟩ := Option.ite_none_right_eq_some.mp h
  exact ⟨hfree, (Option.some.inj hnext).symm⟩

theorem deviceWrite_eq_some {buffer : UserPtr σ} {length : ℕ}
    (h : chardevStep signedChar s (.deviceWrite i buffer length) = some t) :
    (s.pc i).free = true ∧ t = s.next i s.data (.writing buffer length (.get 0)) := by
  obtain ⟨hfree, hnext⟩ := Option.ite_none_right_eq_some.mp h
  exact ⟨hfree, (Option.some.inj hnext).symm⟩

/-- `device_ioctl` is refused while the flag is set, and otherwise sets it. -/
theorem deviceIoctl_eq_some {ioctlNum : BitVec 32} {param : UserPtr σ}
    (h : chardevStep signedChar s (.deviceIoctl i ioctlNum param) = some t) :
    (s.pc i).free = true ∧
      ((s.alreadyOpen ≠ 0 ∧ t = s.next i s.data .busy) ∨
        (s.alreadyOpen = 0 ∧ t = { s.next i s.data (.ioctl param (ioctlSwitch ioctlNum)) with
          alreadyOpen := 1 })) := by
  obtain ⟨hfree, hnext⟩ := Option.ite_none_right_eq_some.mp h
  refine ⟨hfree, ?_⟩
  split at hnext
  · rename_i hbusy
    exact Or.inl ⟨hbusy, (Option.some.inj hnext).symm⟩
  · rename_i hzero
    have hv : s.alreadyOpen = 0 := not_not.mp hzero
    rw [cmpxchg_snd_of_eq hv] at hnext
    exact Or.inr ⟨hv, (Option.some.inj hnext).symm⟩

end Inversion

/-! ### The flag -/

omit [DecidableEq σ] in
theorem Pc.not_holds_of_free {pc : Pc σ} (h : pc.free = true) : ¬pc.Holds := by
  cases pc with
  | ioctl param pc => exact absurd h Bool.false_ne_true
  | _ => exact id

/-- **Step.**  The flag is set exactly while one process is in `device_ioctl`. -/
theorem exclusive_step {signedChar : Bool} {s t : State σ ι} {act : Act σ ι}
    (hs : Exclusive Pc.Holds s.alreadyOpen s.pc) (h : chardevStep signedChar s act = some t) :
    Exclusive Pc.Holds t.alreadyOpen t.pc := by
  cases act with
  | deviceIoctl i ioctlNum param =>
      obtain ⟨hfree, ⟨-, rfl⟩ | ⟨hv, rfl⟩⟩ := deviceIoctl_eq_some h
      · exact hs.move (iff_of_false id (Pc.not_holds_of_free hfree))
      · exact (hv ▸ hs).acquire trivial
  | deviceRead i buffer length offset =>
      obtain ⟨hfree, rfl⟩ := deviceRead_eq_some h
      exact hs.move (iff_of_false id (Pc.not_holds_of_free hfree))
  | deviceWrite i buffer length =>
      obtain ⟨hfree, rfl⟩ := deviceWrite_eq_some h
      exact hs.move (iff_of_false id (Pc.not_holds_of_free hfree))
  | step i =>
      cases step_cases h with
      | read hi hread => exact hs.move (iff_of_false id (by rw [hi]; exact id))
      | readReturn hi hread => exact hs.move (iff_of_false id (by rw [hi]; exact id))
      | write hi hwrite => exact hs.move (iff_of_false id (by rw [hi]; exact id))
      | writeReturn hi hwrite => exact hs.move (iff_of_false id (by rw [hi]; exact id))
      | ioctl hi hioctl => exact hs.move (iff_of_true trivial (by rw [hi]; trivial))
      | ioctlReturn hi hioctl => exact hs.release (by rw [hi]; trivial) id
  | poke p cell =>
      obtain rfl := Option.some.inj h
      exact hs

end Lkmpg.Chardev2
