import Lkmpg.Chardev2.Bounds
import Lkmpg.Chardev2.Message

/-!
# What `IOCTL_GET_MSG` writes

`IOCTL_GET_MSG` gets an address and no length.  It lets `device_read` put up to 99 bytes there and
puts a NUL after them, and `ioctl_get_msg` of `userspace_ioctl.c` has a buffer of 100 bytes.  What
stops it earlier is the NUL at the end of `message`, which is there while writers are half way
through the message as well.

Each call is watched together with the `put_user`s it makes.
-/

namespace Lkmpg.Chardev2

open Transition

variable {σ ι : Type}

/-- The size of `message` in `ioctl_get_msg`. -/
def ioctlGetMsgBuffer : ℕ := 100

/-- The `put_user`s of the bytes one after another, from `p` on. -/
def putsAt (p : UserPtr σ) (cs : List Byte) : List (UserPtr σ × Byte) :=
  cs.zipIdx.map fun ck => (p.add ck.2, ck.1)

theorem putsAt_concat (p : UserPtr σ) (cs : List Byte) (c : Byte) :
    putsAt p (cs ++ [c]) = putsAt p cs ++ [(p.add cs.length, c)] := by
  simp only [putsAt, List.zipIdx_append, List.map_append, Nat.zero_add]
  rfl

/-- The `put_user` of the next step. -/
def ReadPc.puts (buffer : UserPtr σ) : ReadPc → List (UserPtr σ × Byte)
  | .put _ taken c => [(buffer.add taken.length, c)]
  | _ => []

def Pc.puts : Pc σ → List (UserPtr σ × Byte)
  | .reading buffer _ pc => pc.puts buffer
  | .ioctl param (.getMsg (.done _ taken)) => [(param.add taken.length, 0)]
  | .ioctl param (.getMsg pc) => pc.puts param
  | _ => []

/-- A call of `IOCTL_GET_MSG` and the `put_user`s that it has made. -/
structure GetMsg (σ : Type) where
  param : UserPtr σ
  puts : List (UserPtr σ × Byte)

structure Watched (σ ι : Type) where
  device : State σ ι
  /-- the `IOCTL_GET_MSG` that the process is in -/
  current : ι → Option (GetMsg σ)
  returned : List (GetMsg σ)

/-- After module load. -/
def Watched.init (user : UserPtr σ → Cell) : Watched σ ι := ⟨.init user, fun _ => none, []⟩

/-- The call that a process has just begun. -/
def Pc.begun : Pc σ → Option (GetMsg σ)
  | .ioctl param (.getMsg _) => some ⟨param, []⟩
  | _ => none

section Step

variable [DecidableEq ι]

/-- Process `i` has begun a call. -/
def Watched.begin (s : Watched σ ι) (i : ι) (device : State σ ι) : Watched σ ι :=
  { s with device := device, current := Function.update s.current i (device.pc i).begun }

/-- Process `i` has made a step in its call, perhaps the last one. -/
def Watched.goOn (s : Watched σ ι) (i : ι) (device : State σ ι) : Watched σ ι :=
  let call := (s.current i).map fun call => { call with puts := call.puts ++ (s.device.pc i).puts }
  if (device.pc i).free then
    ⟨device, Function.update s.current i none, s.returned ++ call.toList⟩
  else { s with device := device, current := Function.update s.current i call }

variable [DecidableEq σ]

def watchStep (signedChar : Bool) (s : Watched σ ι) (act : Act σ ι) : Option (Watched σ ι) :=
  (chardevStep signedChar s.device act).map
    (match act with
    | .deviceIoctl i _ _ => s.begin i
    | .deviceRead i _ _ _ => s.begin i
    | .deviceWrite i _ _ => s.begin i
    | .step i => s.goOn i
    | .poke _ _ => fun device => { s with device := device })

end Step

/-- The call has put at most `BUF_LEN` bytes from its argument on, and then a NUL. -/
def GetMsg.Complete (call : GetMsg σ) : Prop :=
  ∃ cs : List Byte, cs.length ≤ bufLen ∧ call.puts = putsAt call.param (cs ++ [0])

/-- The call is on its way there. -/
def GetMsg.Underway (call : GetMsg σ) : Prop :=
  ∃ cs : List Byte, cs.length ≤ bufLen ∧ call.puts <+: putsAt call.param (cs ++ [0])

/-- Every `IOCTL_GET_MSG` is watched; none has gone further than `BUF_LEN` bytes and a NUL, and those
that have returned have put the NUL. -/
structure Within (s : Watched σ ι) : Prop where
  watched : ∀ i param pc, s.device.pc i = .ioctl param (.getMsg pc) → s.current i ≠ none
  underway : ∀ i call, s.current i = some call → call.Underway
  returned : ∀ call ∈ s.returned, call.Complete

/-- A step of an `IOCTL_GET_MSG` changes no user memory but the buffer of `ioctl_get_msg`, if that is
what the argument points to. -/
def InBuffer [DecidableEq σ] [DecidableEq ι] (signedChar : Bool) (s : Watched σ ι) (act : Act σ ι) :
    Prop :=
  ∀ i call device, act = .step i → s.current i = some call →
    chardevStep signedChar s.device act = some device →
    ∀ p, (∀ k, k < ioctlGetMsgBuffer → p ≠ call.param.add k) →
      device.data.user p = s.device.data.user p

/-! ### One call -/

/-- `device_read` has put at most `BUF_LEN` bytes, and has room for the byte it is about to put. -/
def ReadPc.Short : ReadPc → Prop
  | .load _ taken => taken.length < bufLen
  | .put _ taken _ => taken.length < bufLen
  | pc => pc.taken.length ≤ bufLen

theorem ReadPc.Short.taken {pc : ReadPc} (h : pc.Short) : pc.taken.length ≤ bufLen := by
  cases pc with
  | first length => exact h
  | test length taken => exact h
  | load length taken => exact Nat.le_of_lt h
  | put length taken c => exact Nat.le_of_lt h
  | done offset taken => exact h

/-- Where a watched call is. -/
def GetMsg.At (call : GetMsg σ) : Pc σ → Prop
  | .ioctl param (.getMsg pc) =>
      param = call.param ∧ call.puts = putsAt param pc.taken ∧ pc.Short
  | .ioctl _ (.done _) => call.Complete
  | _ => False

theorem GetMsg.Complete.underway {call : GetMsg σ} (h : call.Complete) : call.Underway := by
  obtain ⟨cs, hcs, hputs⟩ := h
  exact ⟨cs, hcs, hputs ▸ List.prefix_rfl⟩

theorem GetMsg.At.underway {call : GetMsg σ} {pc : Pc σ} (h : call.At pc) : call.Underway := by
  cases pc with
  | ioctl param pc =>
      cases pc with
      | getMsg pc =>
          obtain ⟨rfl, hputs, hshort⟩ := h
          refine ⟨pc.taken, hshort.taken, ?_⟩
          rw [putsAt_concat, hputs]
          exact List.prefix_append _ _
      | done ret => exact GetMsg.Complete.underway h
      | _ => cases h
  | _ => cases h

section Call

variable [DecidableEq σ] {d d' : Data σ} {param : UserPtr σ} {call : GetMsg σ} {signedChar : Bool}

/-- **Step of a read.**  The NUL at the end of the message stops it. -/
theorem readStep_puts {pc pc' : ReadPc} (hd : d.Terminated) (hshort : pc.Short)
    (h : readStep param 0 d pc = some (d', pc')) :
    pc'.Short ∧ putsAt param pc'.taken = putsAt param pc.taken ++ pc.puts param := by
  cases pc with
  | first length =>
      obtain ⟨-, rfl⟩ := Prod.mk.inj (Option.some.inj h)
      split
      · exact ⟨Nat.zero_le _, rfl⟩
      · exact ⟨Nat.zero_le _, rfl⟩
  | test length taken =>
      obtain ⟨-, rfl⟩ := Prod.mk.inj (Option.some.inj h)
      have hle : taken.length ≤ bufLen := hshort
      split
      · rename_i hmore
        refine ⟨Nat.lt_of_le_of_ne hle fun hend => hmore.2 ?_, (List.append_nil _).symm⟩
        rw [Nat.zero_add, hend]
        exact hd bufLen (Nat.le_refl _)
      · exact ⟨hle, (List.append_nil _).symm⟩
  | load length taken =>
      obtain ⟨-, rfl⟩ := Prod.mk.inj (Option.some.inj h)
      exact ⟨hshort, (List.append_nil _).symm⟩
  | put length taken c =>
      obtain ⟨-, rfl⟩ := Prod.mk.inj (Option.some.inj h)
      have hlt : taken.length < bufLen := hshort
      constructor
      · show (taken ++ [c]).length ≤ bufLen
        rw [List.length_append, List.length_singleton]
        omega
      · exact putsAt_concat param taken c
  | done offset taken => cases h

theorem readStep_user {buffer : UserPtr σ} {offset : ℕ} {pc pc' : ReadPc} {p : UserPtr σ}
    (h : readStep buffer offset d pc = some (d', pc')) (hp : ∀ put ∈ pc.puts buffer, p ≠ put.1) :
    d'.user p = d.user p := by
  cases pc with
  | put length taken c =>
      obtain ⟨rfl, -⟩ := Prod.mk.inj (Option.some.inj h)
      exact putUser_user_of_ne (hp _ (List.mem_singleton_self _))
  | done offset taken => cases h
  | _ =>
      obtain ⟨rfl, -⟩ := Prod.mk.inj (Option.some.inj h)
      rfl

/-- **Step of a call.** -/
theorem GetMsg.At.step {pc pc' : IoctlPc} (hd : d.Terminated) (hcall : call.At (.ioctl param pc))
    (h : ioctlStep signedChar param d pc = some (d', pc')) :
    GetMsg.At { call with puts := call.puts ++ (Pc.ioctl param pc).puts } (.ioctl param pc') := by
  cases pc with
  | getMsg pc =>
      obtain ⟨rfl, hputs, hshort⟩ := hcall
      obtain ⟨next, hread, rfl⟩ | ⟨hread, -, rfl⟩ := ioctlStep_getMsg h
      · obtain ⟨hshort', htaken⟩ := readStep_puts hd hshort hread
        refine ⟨rfl, ?_, hshort'⟩
        rw [htaken, hputs]
        cases pc with
        | done offset taken => cases hread
        | _ => rfl
      · refine ⟨pc.taken, hshort.taken, ?_⟩
        rw [putsAt_concat]
        cases pc with
        | done offset taken => exact congrArg (· ++ _) hputs
        | _ => cases hread
  | done ret => cases h
  | _ => cases hcall

/-- **Frame.**  What a step of a call writes to is in the buffer. -/
theorem GetMsg.At.frame {pc pc' : IoctlPc} {p : UserPtr σ} (hcall : call.At (.ioctl param pc))
    (h : ioctlStep signedChar param d pc = some (d', pc'))
    (hp : ∀ k, k < ioctlGetMsgBuffer → p ≠ call.param.add k) : d'.user p = d.user p := by
  have hbuffer : bufLen < ioctlGetMsgBuffer := by decide
  cases pc with
  | getMsg pc =>
      obtain ⟨rfl, -, hshort⟩ := hcall
      have htaken := hshort.taken
      obtain ⟨next, hread, -⟩ | ⟨-, rfl, -⟩ := ioctlStep_getMsg h
      · refine readStep_user hread fun put hput => ?_
        cases pc with
        | put length taken c =>
            obtain rfl := List.mem_singleton.mp hput
            exact hp _ (Nat.lt_of_le_of_lt htaken hbuffer)
        | _ => cases hput
      · exact putUser_user_of_ne (hp _ (Nat.lt_of_le_of_lt htaken hbuffer))
  | done ret => cases h
  | _ => cases hcall

end Call

/-! ### The runs -/

/-- Every `IOCTL_GET_MSG` is watched, and none has gone too far. -/
structure Tracked (s : Watched σ ι) : Prop where
  device : InBounds s.device
  watched : ∀ i param pc, s.device.pc i = .ioctl param (.getMsg pc) → s.current i ≠ none
  current : ∀ i call, s.current i = some call → call.At (s.device.pc i)
  returned : ∀ call ∈ s.returned, call.Complete

theorem tracked_init (user : UserPtr σ → Cell) : Tracked (Watched.init user : Watched σ ι) where
  device := ⟨fun _ _ => rfl, fun _ => inBounds_of_writePart rfl⟩
  watched := nofun
  current := nofun
  returned := nofun

theorem Tracked.within {s : Watched σ ι} (hs : Tracked s) : Within s where
  watched := hs.watched
  underway i call hcall := (hs.current i call hcall).underway
  returned := hs.returned

section Run

variable [DecidableEq σ] [DecidableEq ι] {signedChar : Bool} {s t : Watched σ ι}
  {device : State σ ι} {act : Act σ ι} {i : ι} {l : Pc σ}

omit [DecidableEq σ] in
/-- A process moves, and with it what is known of its call. -/
theorem Tracked.move {call : Option (GetMsg σ)} {returned : List (GetMsg σ)} (hs : Tracked s)
    (hdevice : InBounds device) (hpc : device.pc = Function.update s.device.pc i l)
    (hwatched : ∀ param pc, l = .ioctl param (.getMsg pc) → call ≠ none)
    (hcall : ∀ c, call = some c → c.At l) (hreturned : ∀ c ∈ returned, c.Complete) :
    Tracked ⟨device, Function.update s.current i call, returned⟩ where
  device := hdevice
  watched j param pc := by
    show device.pc j = _ → Function.update s.current i call j ≠ none
    rw [hpc]
    by_cases hji : j = i
    · rw [hji, Function.update_self, Function.update_self]
      exact hwatched param pc
    · rw [Function.update_of_ne hji, Function.update_of_ne hji]
      exact hs.watched j param pc
  current j c := by
    show Function.update s.current i call j = some c → c.At (device.pc j)
    rw [hpc]
    by_cases hji : j = i
    · rw [hji, Function.update_self, Function.update_self]
      exact hcall c
    · rw [Function.update_of_ne hji, Function.update_of_ne hji]
      exact hs.current j c
  returned := hreturned

omit [DecidableEq σ] in
theorem Tracked.begin (hs : Tracked s) (hdevice : InBounds device)
    (hpc : device.pc = Function.update s.device.pc i l)
    (hl : ∀ offset pc, l.readPart = some (offset, pc) → ∃ length, pc = .first length) :
    Tracked (s.begin i device) := by
  rw [Watched.begin, hpc, Function.update_self]
  refine hs.move hdevice hpc ?_ ?_ hs.returned
  · rintro param pc rfl
    exact nofun
  · intro c hc
    cases l with
    | ioctl param pc =>
        cases pc with
        | getMsg pc =>
            obtain rfl := Option.some.inj hc
            obtain ⟨length, rfl⟩ := hl 0 pc rfl
            exact ⟨rfl, rfl, Nat.zero_le _⟩
        | _ => cases hc
    | _ => cases hc

omit [DecidableEq σ] in
/-- A process that is not in an `IOCTL_GET_MSG` goes on. -/
theorem Tracked.goOn_of_none (hs : Tracked s) (hdevice : InBounds device)
    (hpc : device.pc = Function.update s.device.pc i l) (hnone : s.current i = none)
    (hl : ∀ param pc, l ≠ .ioctl param (.getMsg pc)) : Tracked (s.goOn i device) := by
  have hwatched : ∀ param pc, l = .ioctl param (.getMsg pc) → (none : Option (GetMsg σ)) ≠ none :=
    fun param pc hsame => absurd hsame (hl param pc)
  simp only [Watched.goOn, hnone, Option.map_none, Option.toList_none, List.append_nil]
  split
  · exact hs.move hdevice hpc hwatched nofun hs.returned
  · exact hs.move hdevice hpc hwatched nofun hs.returned

/-- A process in an `IOCTL_GET_MSG` goes on. -/
theorem Tracked.goOn (hs : Tracked s) (h : chardevStep signedChar s.device (.step i) = some device) :
    Tracked (s.goOn i device) := by
  have hdevice : InBounds device := hs.device.step h
  have hcurrent := hs.current i
  cases step_cases h with
  | read hi hread =>
      rw [hi] at hcurrent
      exact hs.goOn_of_none hdevice rfl (Option.eq_none_iff_forall_ne_some.mpr hcurrent) nofun
  | readReturn hi hread =>
      rw [hi] at hcurrent
      exact hs.goOn_of_none hdevice rfl (Option.eq_none_iff_forall_ne_some.mpr hcurrent) nofun
  | write hi hwrite =>
      rw [hi] at hcurrent
      exact hs.goOn_of_none hdevice rfl (Option.eq_none_iff_forall_ne_some.mpr hcurrent) nofun
  | writeReturn hi hwrite =>
      rw [hi] at hcurrent
      exact hs.goOn_of_none hdevice rfl (Option.eq_none_iff_forall_ne_some.mpr hcurrent) nofun
  | @ioctl param pc pc' d hi hioctl =>
      rw [hi] at hcurrent
      have hpc : (s.device.next i d (.ioctl param pc')).pc i = .ioctl param pc' :=
        Function.update_self i _ _
      simp only [Watched.goOn, hpc, Pc.free, Bool.false_eq_true, if_false]
      refine hs.move hdevice rfl ?_ ?_ hs.returned
      · rintro _ part' hsame
        obtain ⟨rfl, rfl⟩ := Pc.ioctl.inj hsame
        rcases ioctlStep_readPart hioctl with hnone | ⟨part, -, rfl, -, -⟩
        · cases hnone
        · exact fun hcall => hs.watched i param part hi (Option.map_eq_none_iff.mp hcall)
      · intro c hc
        obtain ⟨call, hcall, rfl⟩ := Option.map_eq_some_iff.mp hc
        rw [hi]
        exact (hcurrent call hcall).step hs.device.terminated hioctl
  | ioctlReturn hi hioctl =>
      -- `atomic_set` and the return
      rw [hi] at hcurrent
      obtain ⟨ret, rfl⟩ := ioctlStep_eq_none hioctl
      have hpc : (s.device.ret i ret).pc i = .idle := Function.update_self i _ _
      simp only [Watched.goOn, IoctlPc.ret, hpc, Pc.free, if_true]
      refine hs.move hdevice rfl nofun nofun fun c hc => ?_
      rcases List.mem_append.mp hc with hold | hnew
      · exact hs.returned c hold
      · obtain ⟨call, hcall, rfl⟩ := Option.map_eq_some_iff.mp (Option.mem_toList.mp hnew)
        obtain ⟨cs, hcs, hputs⟩ : call.Complete := hcurrent call hcall
        refine ⟨cs, hcs, ?_⟩
        rw [hi]
        exact (List.append_nil _).trans hputs

/-- **Step.** -/
theorem Tracked.step (hs : Tracked s) (h : watchStep signedChar s act = some t) : Tracked t := by
  obtain ⟨device, hdevice, rfl⟩ := Option.map_eq_some_iff.mp h
  have hbounds : InBounds device := hs.device.step hdevice
  cases act with
  | deviceIoctl i ioctlNum param =>
      obtain ⟨-, ⟨-, rfl⟩ | ⟨-, rfl⟩⟩ := deviceIoctl_eq_some hdevice
      · exact hs.begin hbounds rfl nofun
      · refine hs.begin hbounds rfl fun offset pc hpart => ?_
        rcases readPart_switch param ioctlNum with hnone | hfirst
        · cases hnone.symm.trans hpart
        · obtain ⟨rfl, rfl⟩ := Prod.mk.inj (Option.some.inj (hfirst.symm.trans hpart))
          exact ⟨99, rfl⟩
  | deviceRead i buffer length offset =>
      obtain ⟨-, rfl⟩ := deviceRead_eq_some hdevice
      refine hs.begin hbounds rfl fun offset' pc hpart => ?_
      obtain ⟨rfl, rfl⟩ := Prod.mk.inj (Option.some.inj hpart)
      exact ⟨length, rfl⟩
  | deviceWrite i buffer length =>
      obtain ⟨-, rfl⟩ := deviceWrite_eq_some hdevice
      exact hs.begin hbounds rfl nofun
  | step i => exact hs.goOn hdevice
  | poke p cell =>
      obtain rfl := Option.some.inj hdevice
      exact ⟨hbounds, hs.watched, hs.current, hs.returned⟩

/-- A step of a call that is watched stays inside of the buffer. -/
theorem Tracked.inBuffer (hs : Tracked s) (act : Act σ ι) : InBuffer signedChar s act := by
  rintro i call device rfl hcall h p hp
  have hat := hs.current i call hcall
  cases step_cases h with
  | read hi hread => rw [hi] at hat; cases hat
  | readReturn hi hread => rfl
  | write hi hwrite => rw [hi] at hat; cases hat
  | writeReturn hi hwrite => rfl
  | ioctl hi hioctl =>
      rw [hi] at hat
      exact hat.frame hioctl hp
  | ioctlReturn hi hioctl => rfl

end Run

/-- **`IOCTL_GET_MSG` and its caller.**  Whatever calls are made, in whatever order their steps come:
each `IOCTL_GET_MSG` puts at most `BUF_LEN` bytes from its argument on, one after another, and then a
NUL, so no step of it changes user memory outside of a buffer of 100 bytes. -/
theorem getMsg_within [DecidableEq σ] [DecidableEq ι] {signedChar : Bool} (user : UserPtr σ → Cell)
    (acts : List (Act σ ι)) :
    Throughout (watchStep signedChar) Within (Watched.init user) acts ∧
      Along (watchStep signedChar) (InBuffer signedChar) (Watched.init user) acts := by
  constructor
  · exact throughout_of_invariant (fun _ _ _ hs h => hs.step h) (fun _ hs => hs.within)
      (tracked_init user)
  · exact along_of_invariant (C := fun _ _ => True) (fun _ _ _ hs _ h => Tracked.step hs h)
      (fun _ act hs _ => hs.inBuffer act) (tracked_init user)
      (Along.of_forall (C := fun _ => True) fun _ _ => trivial)

end Lkmpg.Chardev2
