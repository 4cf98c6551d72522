import Lkmpg.Chardev2.Bounds

/-!
# The indices into the message

`device_write` tests its index against `BUF_LEN`.  `device_read` goes where `*offset` points and
stops at the first NUL, and `IOCTL_GET_NTH_BYTE` takes its parameter as an index.  A file whose
position is only moved by `read(2)` stays inside of `message`, for the NUL at its end is never
overwritten; `pread(2)` and `IOCTL_GET_NTH_BYTE` go wherever their callers say.

The positions of the open files stand next to the state of the device: `read(2)` starts at the
position of its file and sets it when it returns.
-/

namespace Lkmpg.Chardev2

open Transition

structure FileState (σ ι φ : Type) where
  device : State σ ι
  /-- `f_pos` -/
  fPos : φ → ℕ
  /-- the file whose position the call of the process sets when it returns -/
  file : ι → Option φ

inductive FileAct (σ ι φ : Type) where
  | open (f : φ)
  | read (i : ι) (f : φ) (buffer : UserPtr σ) (length : ℕ)
  | pread (i : ι) (buffer : UserPtr σ) (length pos : ℕ)
  | write (i : ι) (buffer : UserPtr σ) (length : ℕ)
  | ioctl (i : ι) (ioctlNum : BitVec 32) (param : UserPtr σ)
  /-- the next step of a call -/
  | step (i : ι)
  /-- user space writes to its memory, maps or protects it -/
  | poke (p : UserPtr σ) (cell : Cell)

variable {σ ι φ : Type} [DecidableEq σ] [DecidableEq ι] [DecidableEq φ] {signedChar : Bool}

/-- After module load. -/
def FileState.init (user : UserPtr σ → Cell) : FileState σ ι φ := ⟨.init user, fun _ => 0, fun _ => none⟩

/-- The process starts a call. -/
def FileState.start (s : FileState σ ι φ) (signedChar : Bool) (i : ι) (f : Option φ)
    (act : Act σ ι) : Option (FileState σ ι φ) :=
  (chardevStep signedChar s.device act).map fun device =>
    { s with device := device, file := Function.update s.file i f }

/-- The position that the step of the process sets: that of its file, when `read(2)` returns. -/
def FileState.setPos (s : FileState σ ι φ) (i : ι) : φ → ℕ :=
  match s.device.pc i, s.file i with
  | .reading _ _ (.done offset _), some f => Function.update s.fPos f offset
  | _, _ => s.fPos

def fileStep (signedChar : Bool) (s : FileState σ ι φ) : FileAct σ ι φ → Option (FileState σ ι φ)
  | .open f => some { s with fPos := Function.update s.fPos f 0 }
  | .read i f buffer length =>
      s.start signedChar i (some f) (.deviceRead i buffer length (s.fPos f))
  | .pread i buffer length pos => s.start signedChar i none (.deviceRead i buffer length pos)
  | .write i buffer length => s.start signedChar i none (.deviceWrite i buffer length)
  | .ioctl i ioctlNum param => s.start signedChar i none (.deviceIoctl i ioctlNum param)
  | .step i =>
      (chardevStep signedChar s.device (.step i)).map fun device =>
        { s with device := device, fPos := s.setPos i }
  | .poke p cell =>
      (chardevStep signedChar s.device (.poke p cell)).map fun device => { s with device := device }

/-! ### The indices of a step -/

def ReadPc.indices (offset : ℕ) : ReadPc → List ℕ
  | .first _ => [offset]
  | .test length taken => if length ≠ 0 then [offset + taken.length] else []
  | .load _ taken => [offset + taken.length]
  | _ => []

def WritePc.indices : WritePc → List ℕ
  | .store i _ => [i]
  | _ => []

/-- The indices into `message` of the next step. -/
def Pc.indices : Pc σ → List ℕ
  | .reading _ offset pc => pc.indices offset
  | .writing _ _ pc => pc.indices
  | .ioctl _ (.setMsg _ pc) => pc.indices
  | .ioctl _ (.getMsg pc) => pc.indices 0
  | .ioctl param .getNthByte => [param.addr.toNat]
  | _ => []

def indices (s : FileState σ ι φ) : FileAct σ ι φ → List ℕ
  | .step i => (s.device.pc i).indices
  | _ => []

/-- The step accesses `message` only at the indices 0 to `BUF_LEN`. -/
def InMessage (s : FileState σ ι φ) (a : FileAct σ ι φ) : Prop := ∀ k ∈ indices s a, k ≤ bufLen

/-- A `pread(2)` that begins does so at an offset of at most `BUF_LEN`, and an `IOCTL_GET_NTH_BYTE`
has a parameter of at most `BUF_LEN`. -/
def StartsInside (s : FileState σ ι φ) : FileAct σ ι φ → Prop
  | .step i =>
      (s.file i = none → ∀ buffer offset length,
        s.device.pc i = .reading buffer offset (.first length) → offset ≤ bufLen) ∧
      ∀ param, s.device.pc i = .ioctl param .getNthByte → param.addr.toNat ≤ bufLen
  | _ => True

/-! ### The invariant -/

/-- Where a `device_read` is: if it is from the position of a file it starts inside of `message`, and
from then on it is inside of it. -/
def ReadPc.Inside (offset : ℕ) (known : Prop) : ReadPc → Prop
  | .first _ => known → offset ≤ bufLen
  | .test _ taken => offset + taken.length ≤ bufLen
  | .load _ taken => offset + taken.length < bufLen
  | .put _ taken _ => offset + taken.length < bufLen
  | .done offset' _ => offset' ≤ bufLen

structure Inside (s : FileState σ ι φ) : Prop where
  device : InBounds s.device
  position : ∀ f, s.fPos f ≤ bufLen
  reads : ∀ i offset pc, (s.device.pc i).readPart = some (offset, pc) →
    pc.Inside offset (s.file i ≠ none)

omit [DecidableEq σ] [DecidableEq ι] [DecidableEq φ] in
theorem inside_init (user : UserPtr σ → Cell) : Inside (FileState.init user : FileState σ ι φ) where
  device := ⟨fun _ _ => rfl, fun _ => inBounds_of_writePart rfl⟩
  position _ := Nat.zero_le _
  reads := nofun

section Read

variable {d d' : Data σ} {buffer : UserPtr σ} {offset : ℕ} {pc pc' : ReadPc}

/-- **Step of a read.**  The NUL at the end of the message stops a read that started inside of it. -/
theorem ReadPc.Inside.step {known known' : Prop} (hpc : pc.Inside offset known) (hd : d.Terminated)
    (hstart : ∀ length, pc = .first length → offset ≤ bufLen)
    (h : readStep buffer offset d pc = some (d', pc')) : pc'.Inside offset known' := by
  cases pc with
  | first length =>
      obtain ⟨-, rfl⟩ := Prod.mk.inj (Option.some.inj h)
      split
      · exact Nat.zero_le _
      · exact hstart length rfl
  | test length taken =>
      obtain ⟨-, rfl⟩ := Prod.mk.inj (Option.some.inj h)
      have hle : offset + taken.length ≤ bufLen := hpc
      split
      · rename_i hmore
        have hne : offset + taken.length ≠ bufLen := fun hend => hmore.2 (hd _ (Nat.le_of_eq hend.symm))
        exact Nat.lt_of_le_of_ne hle hne
      · exact hle
  | load length taken =>
      obtain ⟨-, rfl⟩ := Prod.mk.inj (Option.some.inj h)
      exact hpc
  | put length taken c =>
      obtain ⟨-, rfl⟩ := Prod.mk.inj (Option.some.inj h)
      have hlt : offset + taken.length < bufLen := hpc
      show offset + (taken ++ [c]).length ≤ bufLen
      rw [List.length_append, List.length_singleton]
      omega
  | done offset' taken => cases h

theorem ReadPc.Inside.indices {known : Prop} (hpc : pc.Inside offset known)
    (hstart : ∀ length, pc = .first length → offset ≤ bufLen) :
    ∀ k ∈ pc.indices offset, k ≤ bufLen := by
  intro k hk
  cases pc with
  | first length =>
      obtain rfl := List.mem_singleton.mp hk
      exact hstart length rfl
  | test length taken =>
      rw [ReadPc.indices] at hk
      split at hk
      · obtain rfl := List.mem_singleton.mp hk
        exact hpc
      · cases hk
  | load length taken =>
      obtain rfl := List.mem_singleton.mp hk
      exact Nat.le_of_lt hpc
  | put length taken c => cases hk
  | done offset' taken => cases hk

theorem WritePc.InBounds.indices {pc : WritePc} (hpc : pc.InBounds) :
    ∀ k ∈ pc.indices, k ≤ bufLen := by
  intro k hk
  cases pc with
  | store n c =>
      obtain rfl := List.mem_singleton.mp hk
      exact Nat.le_of_lt hpc
  | get n => cases hk
  | done n => cases hk

end Read

section Step

variable {s t : FileState σ ι φ} {device : State σ ι} {i : ι} {l : Pc σ} {a : FileAct σ ι φ}

omit [DecidableEq φ] in
/-- The process is somewhere else, and perhaps in another call. -/
theorem Inside.move {act : Act σ ι} {fPos : φ → ℕ} {file : ι → Option φ} (hs : Inside s)
    (h : chardevStep signedChar s.device act = some device)
    (hpc : device.pc = Function.update s.device.pc i l) (hpos : ∀ f, fPos f ≤ bufLen)
    (hfile : ∀ j, j ≠ i → file j = s.file j)
    (hl : ∀ offset pc, l.readPart = some (offset, pc) → pc.Inside offset (file i ≠ none)) :
    Inside (⟨device, fPos, file⟩ : FileState σ ι φ) := by
  refine ⟨hs.device.step h, hpos, fun j offset pc hj => ?_⟩
  replace hj : (device.pc j).readPart = some (offset, pc) := hj
  rw [hpc] at hj
  by_cases hji : j = i
  · rw [hji, Function.update_self] at hj
    rw [hji]
    exact hl offset pc hj
  · rw [Function.update_of_ne hji] at hj
    show pc.Inside offset (file j ≠ none)
    rw [hfile j hji]
    exact hs.reads j offset pc hj

omit [DecidableEq φ] in
/-- The process is in a call that it has just started. -/
theorem Inside.start {act : Act σ ι} (hs : Inside s) (f : Option φ)
    (h : chardevStep signedChar s.device act = some device)
    (hpc : device.pc = Function.update s.device.pc i l)
    (hl : ∀ offset pc, l.readPart = some (offset, pc) → pc.Inside offset (f ≠ none)) :
    Inside { s with device := device, file := Function.update s.file i f } := by
  refine hs.move h hpc hs.position (fun j hj => Function.update_of_ne hj _ _) ?_
  rw [Function.update_self]
  exact hl

omit [DecidableEq σ] [DecidableEq ι] [DecidableEq φ] in
/-- A process that is at the start of a `device_read` is inside of `message`, if it meets the
condition. -/
theorem Inside.starts (hs : Inside s) {offset length : ℕ}
    (hC : s.file i = none → ∀ buffer offset length,
      s.device.pc i = .reading buffer offset (.first length) → offset ≤ bufLen)
    (hpart : (s.device.pc i).readPart = some (offset, .first length)) : offset ≤ bufLen := by
  cases hpc : s.device.pc i with
  | reading buffer offset' pc =>
      have hinside := hs.reads i offset (.first length) hpart
      rw [hpc] at hpart
      obtain ⟨rfl, rfl⟩ := Prod.mk.inj (Option.some.inj hpart)
      by_cases hfile : s.file i = none
      · exact hC hfile buffer offset' length hpc
      · exact hinside hfile
  | ioctl param pc =>
      rw [hpc] at hpart
      cases pc with
      | getMsg pc =>
          obtain ⟨rfl, -⟩ := Prod.mk.inj (Option.some.inj hpart)
          exact Nat.zero_le _
      | _ => cases hpart
  | idle => rw [hpc] at hpart; cases hpart
  | busy => rw [hpc] at hpart; cases hpart
  | writing buffer length pc => rw [hpc] at hpart; cases hpart

omit [DecidableEq σ] [DecidableEq ι] in
/-- The position of one file is set. -/
theorem Inside.position_update (hs : Inside s) (f : φ) {pos : ℕ} (hpos : pos ≤ bufLen) (g : φ) :
    Function.update s.fPos f pos g ≤ bufLen :=
  (Function.forall_update_iff s.fPos fun _ n => n ≤ bufLen).mpr ⟨hpos, fun g _ => hs.position g⟩ g

omit [DecidableEq σ] [DecidableEq ι] in
theorem setPos_cases (s : FileState σ ι φ) (i : ι) :
    s.setPos i = s.fPos ∨ ∃ offset offset' taken f,
      (s.device.pc i).readPart = some (offset, .done offset' taken) ∧
        s.setPos i = Function.update s.fPos f offset' := by
  rw [FileState.setPos]
  split
  · rename_i buffer offset offset' taken f hpc hfile
    exact Or.inr ⟨offset, offset', taken, f, by rw [hpc]; rfl, rfl⟩
  · exact Or.inl rfl

omit [DecidableEq σ] [DecidableEq ι] in
/-- The position that is set is one that a read has come to. -/
theorem Inside.setPos (hs : Inside s) (i : ι) (f : φ) : s.setPos i f ≤ bufLen := by
  rcases setPos_cases s i with hsame | ⟨offset, offset', taken, g, hpart, hset⟩
  · rw [hsame]
    exact hs.position f
  · rw [hset]
    exact hs.position_update g (hs.reads i offset (.done offset' taken) hpart) f

/-- **Step.** -/
theorem Inside.step (hs : Inside s) (hC : StartsInside s a) (h : fileStep signedChar s a = some t) :
    Inside t := by
  cases a with
  | «open» f =>
      obtain rfl := Option.some.inj h
      exact ⟨hs.device, hs.position_update f (Nat.zero_le _), hs.reads⟩
  | read i f buffer length =>
      obtain ⟨device, hdevice, rfl⟩ := Option.map_eq_some_iff.mp h
      obtain ⟨-, rfl⟩ := deviceRead_eq_some hdevice
      refine hs.start (some f) hdevice rfl fun offset pc hpart => ?_
      obtain ⟨rfl, rfl⟩ := Prod.mk.inj (Option.some.inj hpart)
      exact fun _ => hs.position f
  | pread i buffer length pos =>
      obtain ⟨device, hdevice, rfl⟩ := Option.map_eq_some_iff.mp h
      obtain ⟨-, rfl⟩ := deviceRead_eq_some hdevice
      refine hs.start none hdevice rfl fun offset pc hpart => ?_
      obtain ⟨rfl, rfl⟩ := Prod.mk.inj (Option.some.inj hpart)
      exact fun hknown => absurd rfl hknown
  | write i buffer length =>
      obtain ⟨device, hdevice, rfl⟩ := Option.map_eq_some_iff.mp h
      obtain ⟨-, rfl⟩ := deviceWrite_eq_some hdevice
      exact hs.start none hdevice rfl nofun
  | ioctl i ioctlNum param =>
      obtain ⟨device, hdevice, rfl⟩ := Option.map_eq_some_iff.mp h
      obtain ⟨-, ⟨-, rfl⟩ | ⟨-, rfl⟩⟩ := deviceIoctl_eq_some hdevice
      · exact hs.start none hdevice rfl nofun
      · refine hs.start none hdevice rfl fun offset pc hpart => ?_
        rcases readPart_switch param ioctlNum with hnone | hfirst
        · cases hnone.symm.trans hpart
        · obtain ⟨rfl, rfl⟩ := Prod.mk.inj (Option.some.inj (hfirst.symm.trans hpart))
          exact fun _ => Nat.zero_le _
  | step i =>
      obtain ⟨device, hdevice, rfl⟩ := Option.map_eq_some_iff.mp h
      obtain ⟨l, hpc, hl⟩ := chardevStep_step hdevice
      refine hs.move hdevice hpc (hs.setPos i) (fun _ _ => rfl) fun offset pc hpart => ?_
      rcases hl with hnone | ⟨buffer, offset', part, part', hold, hread, hstep⟩
      · cases hnone.symm.trans hpart
      · obtain ⟨rfl, rfl⟩ := Prod.mk.inj (Option.some.inj (hread.symm.trans hpart))
        refine (hs.reads i _ part hold).step hs.device.terminated (fun length hfirst => ?_) hstep
        exact hs.starts hC.1 (hfirst ▸ hold)
  | poke p cell =>
      have hdevice : chardevStep signedChar s.device (.poke p cell) =
        some { s.device with data := s.device.data.poke p cell } := rfl
      obtain rfl := Option.some.inj h
      exact ⟨hs.device.step hdevice, hs.position, hs.reads⟩

omit [DecidableEq σ] [DecidableEq ι] [DecidableEq φ] in
/-- A step from inside of `message` stays inside of it exactly if the caller chose to. -/
theorem Inside.inMessage_iff (hs : Inside s) (a : FileAct σ ι φ) :
    InMessage s a ↔ StartsInside s a := by
  cases a with
  | step i =>
      constructor
      · intro hin
        replace hin : ∀ k ∈ (s.device.pc i).indices, k ≤ bufLen := hin
        constructor
        · intro _ buffer offset length hpc
          rw [hpc] at hin
          exact hin offset (List.mem_singleton_self offset)
        · intro param hpc
          rw [hpc] at hin
          exact hin _ (List.mem_singleton_self _)
      · intro hC k hk
        replace hk : k ∈ (s.device.pc i).indices := hk
        have hwrites := hs.device.writes i
        have hread : ∀ offset pc, (s.device.pc i).readPart = some (offset, pc) →
            ∀ k ∈ pc.indices offset, k ≤ bufLen := fun offset pc hpart =>
          (hs.reads i offset pc hpart).indices fun length hfirst =>
            hs.starts hC.1 (hfirst ▸ hpart)
        cases hpc : s.device.pc i with
        | idle => rw [hpc] at hk; cases hk
        | busy => rw [hpc] at hk; cases hk
        | reading buffer offset pc =>
            rw [hpc] at hk hread
            exact hread offset pc rfl k hk
        | writing buffer length pc =>
            rw [hpc] at hk hwrites
            exact (hwrites (length, pc) rfl).indices k hk
        | ioctl param pc =>
            rw [hpc] at hk hwrites hread
            cases pc with
            | setMsg n pc => exact (hwrites (n, pc) rfl).indices k hk
            | getMsg pc => exact hread 0 pc rfl k hk
            | getNthByte =>
                obtain rfl := List.mem_singleton.mp hk
                exact hC.2 param hpc
            | scanFirst => cases hk
            | scan n ch => cases hk
            | done ret => cases hk
  | _ => exact iff_of_true nofun trivial

end Step

/-- **Accesses to the message.**  Whatever calls are made on whatever files, in whatever order their
steps come: all indices into `message` are at most `BUF_LEN` if and only if each `pread(2)` that
begins does so at an offset, and each `IOCTL_GET_NTH_BYTE` has a parameter, that is. -/
theorem indices_le_iff (user : UserPtr σ → Cell) (acts : List (FileAct σ ι φ)) :
    Along (fileStep signedChar) InMessage (FileState.init user) acts ↔
      Along (fileStep signedChar) StartsInside (FileState.init user) acts :=
  along_iff_along (fun _ _ _ hs hC h => Inside.step hs hC h) (fun _ a hs => hs.inMessage_iff a)
    (inside_init user)

/-- A `pread(2)` at offset 1000. -/
theorem not_indices_le :
    ¬∀ (user : UserPtr Unit → Cell) (acts : List (FileAct Unit Unit Unit)),
      Along (fileStep true) InMessage (FileState.init user) acts := by
  intro hall
  have hrun := hall (fun _ => ⟨0, true, true⟩) [.pread () ⟨(), 0⟩ 1 1000, .step ()]
  have hin := (hrun.2 _ rfl).1 1000 (List.mem_singleton_self 1000)
  exact absurd hin (by decide)

end Lkmpg.Chardev2
