import Lkmpg.Chardev2.Device
import Lkmpg.Lib.LinearMem

/-!
# Reads that overlap stores

Only `device_ioctl` takes `already_open`: a `device_read` or a `device_write` that comes from
`read(2)` or `write(2)` moves its bytes whoever else does.  Here the device runs all three, and the
question is whether the bytes that one `device_read` delivers were ever in `message` together at a
moment at which no store was half done.

They need not have been (`torn_read`).  They have been if no byte is stored while a `device_read` is
between its loads, and no `device_read` begins while a store is half done; of this the flag takes
care where both sides are in `device_ioctl` (`reads_intact`).
-/

namespace Lkmpg.Chardev2

open ExclusiveFlag LinearMem Transition

variable {σ ι : Type}

/-! ### Half-done reads and stores -/

/-- The call of `device_read` has made a first load of `message`, and will make another one. -/
def ReadPc.mid : ReadPc → Bool
  | .first _ => false
  | .test length _ => length ≠ 0
  | .load _ _ => true
  | .put length _ _ => 1 < length
  | .done _ _ => false

/-- The call of `device_write` has stored a byte, and will store another one. -/
def WritePc.mid (length : ℕ) : WritePc → Bool
  | .get i => 0 < i ∧ i < length ∧ i < bufLen
  | .store i _ => 0 < i
  | .done _ => false

/-- The call of `device_read` that the process is in, with the initial `*offset`. -/
def Pc.readPart : Pc σ → Option (ℕ × ReadPc)
  | .reading _ offset pc => some (offset, pc)
  | .ioctl _ (.getMsg pc) => some (0, pc)
  | _ => none

/-- The call of `device_write` that the process is in, with the number of bytes to store. -/
def Pc.writePart : Pc σ → Option (ℕ × WritePc)
  | .writing _ length pc => some (length, pc)
  | .ioctl _ (.setMsg i pc) => some (i, pc)
  | _ => none

def Pc.midRead (pc : Pc σ) : Bool := pc.readPart.any fun part => part.2.mid

def Pc.midWrite (pc : Pc σ) : Bool := pc.writePart.any fun part => part.2.mid part.1

/-- The next step stores a byte of `message`. -/
def Pc.stores (pc : Pc σ) : Bool :=
  match pc.writePart with
  | some (_, .store _ _) => true
  | _ => false

/-- The next step is the first load of a `device_read` that will go on. -/
def Pc.startsRead (message : ℕ → Byte) (pc : Pc σ) : Bool :=
  match pc.readPart with
  | some (offset, .first length) => length ≠ 0 ∧ message offset ≠ 0
  | _ => false

/-- The bytes that the `device_read` the process is in has delivered. -/
def Pc.delivered (pc : Pc σ) : Option (List Byte) := pc.readPart.map fun part => part.2.taken

/-- No store is half done. -/
def Quiet (s : State σ ι) : Prop := ∀ i, (s.pc i).midWrite = false

/-- The next step does not let a read and a store overlap, unless both are in `device_ioctl`. -/
def NoOverlap (s : State σ ι) : Act σ ι → Prop
  | .step i => ∀ j, ¬((s.pc i).Holds ∧ (s.pc j).Holds) →
      ((s.pc i).stores = true → (s.pc j).midRead = false) ∧
      ((s.pc i).startsRead s.data.message = true → (s.pc j).midWrite = false)
  | _ => True

instance [Fintype ι] (s : State σ ι) : DecidablePred (NoOverlap s)
  | .step i => inferInstanceAs (Decidable (∀ j, ¬((s.pc i).Holds ∧ (s.pc j).Holds) →
      ((s.pc i).stores = true → (s.pc j).midRead = false) ∧
      ((s.pc i).startsRead s.data.message = true → (s.pc j).midWrite = false)))
  | .deviceIoctl _ _ _ => isTrue trivial
  | .deviceRead _ _ _ _ => isTrue trivial
  | .deviceWrite _ _ _ => isTrue trivial
  | .poke _ _ => isTrue trivial

instance [Fintype ι] : DecidablePred (Quiet (σ := σ) (ι := ι)) :=
  fun s => inferInstanceAs (Decidable (∀ i, (s.pc i).midWrite = false))

section Run

variable [DecidableEq σ] [DecidableEq ι]

/-- The bytes are a contiguous piece of the message as it stood at a quiet moment of the run. -/
def FromOneMessage (signedChar : Bool) (user : UserPtr σ → Cell) (acts : List (Act σ ι))
    (taken : List Byte) : Prop :=
  ∃ past rest u, acts = past ++ rest ∧ run (chardevStep signedChar) (State.init user) past = some u ∧
    Quiet u ∧ ∃ offset, taken = read u.data.message offset taken.length

end Run

/-! ### What a `device_read` knows -/

/-- The call of `device_read` has seen the message `m`. -/
structure ReadFrom (m : ℕ → Byte) (offset : ℕ) (pc : ReadPc) : Prop where
  taken : pc.taken = read m offset pc.taken.length
  loaded : ∀ length taken c, pc = .put length taken c → c = m (offset + taken.length)

theorem readFrom_nil {m : ℕ → Byte} {offset : ℕ} {pc : ReadPc} (h : pc.taken = [])
    (hput : ∀ length taken c, pc ≠ .put length taken c) : ReadFrom m offset pc := by
  refine ⟨?_, fun length taken c hpc => absurd hpc (hput length taken c)⟩
  rw [h]
  rfl

theorem ReadPc.first_or_not (pc : ReadPc) :
    (∃ length, pc = .first length) ∨ ∀ length, pc ≠ .first length := by
  cases pc with
  | first length => exact Or.inl ⟨length, rfl⟩
  | _ => exact Or.inr nofun

section ReadStep

variable [DecidableEq σ] {buffer : UserPtr σ} {offset length : ℕ} {d d' : Data σ} {pc pc' : ReadPc}

/-- The first step of `device_read` delivers nothing. -/
theorem readStep_first (h : readStep buffer offset d (.first length) = some (d', pc')) :
    pc'.taken = [] ∧ (∀ l taken c, pc' ≠ .put l taken c) ∧
      (pc'.mid = true → length ≠ 0 ∧ d.message offset ≠ 0) := by
  obtain ⟨-, rfl⟩ := Prod.mk.inj (Option.some.inj h)
  by_cases hzero : d.message offset = 0
  · rw [if_pos hzero]
    exact ⟨rfl, nofun, fun hmid => absurd hmid Bool.false_ne_true⟩
  · rw [if_neg hzero]
    exact ⟨rfl, nofun, fun hmid => ⟨of_decide_eq_true hmid, hzero⟩⟩

/-- **Step of a read.**  As long as the message that a `device_read` has seen is there, what it
delivers is a piece of it; and a read that goes on was half done before. -/
theorem ReadFrom.step {m : ℕ → Byte} (hpc : ReadFrom m offset pc)
    (hm : pc.mid = true → m = d.message) (hfirst : ∀ length, pc ≠ .first length)
    (h : readStep buffer offset d pc = some (d', pc')) :
    ReadFrom m offset pc' ∧ (pc'.mid = true → pc.mid = true) := by
  cases pc with
  | first length => exact absurd rfl (hfirst length)
  | test length taken =>
      obtain ⟨-, rfl⟩ := Prod.mk.inj (Option.some.inj h)
      by_cases hmore : length ≠ 0 ∧ d.message (offset + taken.length) ≠ 0
      · rw [if_pos hmore]
        exact ⟨⟨hpc.taken, nofun⟩, fun _ => decide_eq_true hmore.1⟩
      · rw [if_neg hmore]
        exact ⟨⟨hpc.taken, nofun⟩, fun hmid => absurd hmid Bool.false_ne_true⟩
  | load length taken =>
      obtain ⟨-, rfl⟩ := Prod.mk.inj (Option.some.inj h)
      refine ⟨⟨hpc.taken, fun l t c hput => ?_⟩, fun _ => rfl⟩
      injection hput with _ htaken hc
      rw [← hc, ← htaken, hm rfl]
  | put length taken c =>
      obtain ⟨-, rfl⟩ := Prod.mk.inj (Option.some.inj h)
      refine ⟨⟨?_, nofun⟩, fun hmid => ?_⟩
      · have htaken : taken = read m offset taken.length := hpc.taken
        have hc : c = m (offset + taken.length) := hpc.loaded length taken c rfl
        show taken ++ [c] = read m offset (taken ++ [c]).length
        rw [List.length_append, List.length_singleton, read_add, ← htaken, hc]
        rfl
      · have hne : length - 1 ≠ 0 := of_decide_eq_true hmid
        exact decide_eq_true (show 1 < length by omega)
  | done offset' taken => cases h

end ReadStep

/-! ### What a step of the device does to reads and to the message -/

theorem readStep_message [DecidableEq σ] {buffer : UserPtr σ} {offset : ℕ} {d d' : Data σ}
    {pc pc' : ReadPc} (h : readStep buffer offset d pc = some (d', pc')) :
    d'.message = d.message := by
  cases pc with
  | put length taken c =>
      obtain ⟨rfl, -⟩ := Prod.mk.inj (Option.some.inj h)
      exact putUser_message _ _ _
  | done offset' taken => cases h
  | _ =>
      obtain ⟨rfl, -⟩ := Prod.mk.inj (Option.some.inj h)
      rfl

theorem writeStep_message {buffer : UserPtr σ} {length : ℕ} {d d' : Data σ} {pc pc' : WritePc}
    (h : writeStep buffer length d pc = some (d', pc')) :
    d'.message = d.message ∨ ∃ i c, pc = .store i c := by
  cases pc with
  | get i =>
      obtain ⟨rfl, -⟩ := Prod.mk.inj (Option.some.inj h)
      exact Or.inl rfl
  | store i c => exact Or.inr ⟨i, c, rfl⟩
  | done i => cases h

theorem readPart_switch (param : UserPtr σ) (ioctlNum : BitVec 32) :
    (Pc.ioctl param (ioctlSwitch ioctlNum)).readPart = none ∨
      (Pc.ioctl param (ioctlSwitch ioctlNum)).readPart = some (0, .first 99) := by
  rw [ioctlSwitch]
  split
  · exact Or.inl rfl
  · split
    · exact Or.inr rfl
    · split <;> exact Or.inl rfl

/-- What becomes of a process: it leaves the message alone and is in no `device_read`, or at the
start of one; it goes on in a `device_read`; or it stores a byte. -/
inductive Moved [DecidableEq σ] (act : Act σ ι) (i : ι) (pc : Pc σ) (d d' : Data σ) (l : Pc σ) :
    Prop where
  | outside (hmessage : d'.message = d.message) (hread : l.readPart = none)
  | started (offset length : ℕ) (hmessage : d'.message = d.message)
      (hread : l.readPart = some (offset, .first length))
  | read (buffer : UserPtr σ) (offset : ℕ) (part part' : ReadPc) (hact : act = .step i)
      (hold : pc.readPart = some (offset, part)) (hread : l.readPart = some (offset, part'))
      (hstep : readStep buffer offset d part = some (d', part'))
  | stored (hact : act = .step i) (hstores : pc.stores = true) (hread : l.readPart = none)

section Step

variable [DecidableEq σ] {signedChar : Bool}

theorem ioctlStep_moved {i : ι} {param : UserPtr σ} {d d' : Data σ} {pc pc' : IoctlPc}
    (h : ioctlStep signedChar param d pc = some (d', pc')) :
    Moved (Act.step i) i (.ioctl param pc) d d' (.ioctl param pc') := by
  cases pc with
  | scanFirst =>
      obtain ⟨rfl, rfl⟩ := Prod.mk.inj (Option.some.inj h)
      exact .outside rfl rfl
  | scan n ch =>
      obtain ⟨rfl, rfl⟩ := Prod.mk.inj (Option.some.inj h)
      refine .outside rfl ?_
      split <;> rfl
  | setMsg n pc =>
      obtain ⟨next, hwrite, rfl⟩ | ⟨-, rfl, rfl⟩ := ioctlStep_setMsg h
      · rcases writeStep_message hwrite with hmessage | ⟨k, c, rfl⟩
        · exact .outside hmessage rfl
        · exact .stored rfl rfl rfl
      · exact .outside rfl rfl
  | getMsg pc =>
      obtain ⟨next, hread, rfl⟩ | ⟨-, rfl, rfl⟩ := ioctlStep_getMsg h
      · exact .read param 0 pc next rfl rfl rfl hread
      · exact .outside (putUser_message _ _ _) rfl
  | getNthByte =>
      obtain ⟨rfl, rfl⟩ := Prod.mk.inj (Option.some.inj h)
      exact .outside rfl rfl
  | done ret => cases h

theorem ioctlStep_readPart {d d' : Data σ} {param : UserPtr σ} {pc pc' : IoctlPc}
    (h : ioctlStep signedChar param d pc = some (d', pc')) :
    (Pc.ioctl param pc').readPart = none ∨ ∃ part part', pc = .getMsg part ∧
      pc' = .getMsg part' ∧ readStep param 0 d part = some (d', part') := by
  cases pc with
  | scanFirst =>
      obtain ⟨-, rfl⟩ := Prod.mk.inj (Option.some.inj h)
      exact Or.inl rfl
  | scan n ch =>
      obtain ⟨-, rfl⟩ := Prod.mk.inj (Option.some.inj h)
      refine Or.inl ?_
      split <;> rfl
  | setMsg n pc =>
      obtain ⟨next, -, rfl⟩ | ⟨-, -, rfl⟩ := ioctlStep_setMsg h
      · exact Or.inl rfl
      · exact Or.inl rfl
  | getMsg pc =>
      obtain ⟨next, hread, rfl⟩ | ⟨-, -, rfl⟩ := ioctlStep_getMsg h
      · exact Or.inr ⟨pc, next, rfl, rfl, hread⟩
      · exact Or.inl rfl
  | getNthByte =>
      obtain ⟨-, rfl⟩ := Prod.mk.inj (Option.some.inj h)
      exact Or.inl rfl
  | done ret => cases h

variable [DecidableEq ι]

/-- **What a step does.**  User space changes its memory, or one process moves. -/
theorem chardevStep_cases {s t : State σ ι} {act : Act σ ι}
    (h : chardevStep signedChar s act = some t) :
    (t.data.message = s.data.message ∧ t.pc = s.pc) ∨
      ∃ i l, t.pc = Function.update s.pc i l ∧ Moved act i (s.pc i) s.data t.data l := by
  cases act with
  | deviceIoctl i ioctlNum param =>
      obtain ⟨-, ⟨-, rfl⟩ | ⟨-, rfl⟩⟩ := deviceIoctl_eq_some h
      · exact Or.inr ⟨i, .busy, rfl, .outside rfl rfl⟩
      · refine Or.inr ⟨i, .ioctl param (ioctlSwitch ioctlNum), rfl, ?_⟩
        rcases readPart_switch param ioctlNum with hread | hread
        · exact .outside rfl hread
        · exact .started 0 99 rfl hread
  | deviceRead i buffer length offset =>
      obtain ⟨-, rfl⟩ := deviceRead_eq_some h
      exact Or.inr ⟨i, _, rfl, .started offset length rfl rfl⟩
  | deviceWrite i buffer length =>
      obtain ⟨-, rfl⟩ := deviceWrite_eq_some h
      exact Or.inr ⟨i, _, rfl, .outside rfl rfl⟩
  | step i =>
      refine Or.inr ⟨i, ?_⟩
      cases step_cases h with
      | read hi hread => exact ⟨_, rfl, .read _ _ _ _ rfl (by rw [hi]; rfl) rfl hread⟩
      | write hi hwrite =>
          refine ⟨_, rfl, ?_⟩
          rcases writeStep_message hwrite with hmessage | ⟨k, c, rfl⟩
          · exact .outside hmessage rfl
          · exact .stored rfl (by rw [hi]; rfl) rfl
      | ioctl hi hioctl =>
          rw [hi]
          exact ⟨_, rfl, ioctlStep_moved hioctl⟩
      | readReturn hi hread => exact ⟨_, rfl, .outside rfl rfl⟩
      | writeReturn hi hwrite => exact ⟨_, rfl, .outside rfl rfl⟩
      | ioctlReturn hi hioctl => exact ⟨_, rfl, .outside rfl rfl⟩
  | poke p cell =>
      obtain rfl := Option.some.inj h
      exact Or.inl ⟨rfl, rfl⟩

/-- A step of a call never starts a `device_read`. -/
theorem chardevStep_step {s t : State σ ι} {i : ι}
    (h : chardevStep signedChar s (.step i) = some t) :
    ∃ l, t.pc = Function.update s.pc i l ∧ (l.readPart = none ∨
      ∃ buffer offset part part', (s.pc i).readPart = some (offset, part) ∧
        l.readPart = some (offset, part') ∧
        readStep buffer offset s.data part = some (t.data, part')) := by
  cases step_cases h with
  | read hi hread => exact ⟨_, rfl, Or.inr ⟨_, _, _, _, by rw [hi]; rfl, rfl, hread⟩⟩
  | ioctl hi hioctl =>
      refine ⟨_, rfl, (ioctlStep_readPart hioctl).imp_right ?_⟩
      rintro ⟨part, part', rfl, rfl, hread⟩
      exact ⟨_, 0, part, part', by rw [hi]; rfl, rfl, hread⟩
  | write hi hwrite => exact ⟨_, rfl, Or.inl rfl⟩
  | readReturn hi hread => exact ⟨_, rfl, Or.inl rfl⟩
  | writeReturn hi hwrite => exact ⟨_, rfl, Or.inl rfl⟩
  | ioctlReturn hi hioctl => exact ⟨_, rfl, Or.inl rfl⟩

end Step

/-! ### Reads that no store overlaps -/

section Intact

variable [DecidableEq σ] [DecidableEq ι] {signedChar : Bool} {user : UserPtr σ → Cell}
  {acts : List (Act σ ι)} {act : Act σ ι} {s t : State σ ι} {offset : ℕ} {pc : ReadPc}

/-- At a quiet moment of the run the message was what the `device_read` has seen, and it still is if
the `device_read` goes on. -/
def Seen (signedChar : Bool) (user : UserPtr σ → Cell) (acts : List (Act σ ι)) (s : State σ ι)
    (offset : ℕ) (pc : ReadPc) : Prop :=
  ∃ past rest u, acts = past ++ rest ∧ run (chardevStep signedChar) (State.init user) past = some u ∧
    Quiet u ∧ ReadFrom u.data.message offset pc ∧
    (pc.mid = true → u.data.message = s.data.message)

theorem Seen.later (h : Seen signedChar user acts s offset pc)
    (hmessage : pc.mid = true → t.data.message = s.data.message) :
    Seen signedChar user (acts ++ [act]) t offset pc := by
  obtain ⟨past, rest, u, rfl, hu, hquiet, hread, hsame⟩ := h
  exact ⟨past, rest ++ [act], u, List.append_assoc _ _ _, hu, hquiet, hread,
    fun hmid => (hsame hmid).trans (hmessage hmid).symm⟩

/-- A `device_read` that has delivered nothing. -/
theorem Seen.nothing (htaken : pc.taken = []) (hput : ∀ length taken c, pc ≠ .put length taken c)
    (hmid : pc.mid = false) : Seen signedChar user acts s offset pc :=
  ⟨[], acts, State.init user, rfl, rfl, fun _ => rfl, readFrom_nil htaken hput,
    fun h => absurd (hmid.symm.trans h) Bool.false_ne_true⟩

structure Intact (signedChar : Bool) (user : UserPtr σ → Cell) (acts : List (Act σ ι))
    (s : State σ ι) : Prop where
  exclusive : Exclusive Pc.Holds s.alreadyOpen s.pc
  reads : ∀ i offset pc, (s.pc i).readPart = some (offset, pc) →
    Seen signedChar user acts s offset pc

theorem intact_init : Intact signedChar user [] (State.init user : State σ ι) where
  exclusive := Or.inr ⟨rfl, fun _ h => h⟩
  reads := fun _ _ _ h => nomatch h

omit [DecidableEq σ] [DecidableEq ι] in
theorem Pc.midRead_eq {l : Pc σ} (h : l.readPart = some (offset, pc)) : l.midRead = pc.mid := by
  rw [Pc.midRead, h]
  rfl

omit [DecidableEq σ] [DecidableEq ι] in
theorem Pc.midWrite_of_readPart {l : Pc σ} (h : l.readPart = some (offset, pc)) :
    l.midWrite = false := by
  cases l with
  | ioctl param pc =>
      cases pc with
      | getMsg pc => rfl
      | _ => cases h
  | reading buffer offset pc => rfl
  | _ => cases h

omit [DecidableEq σ] [DecidableEq ι] in
/-- A `device_read` that goes on after its first load begins at a quiet moment. -/
theorem quiet_of_startsRead {i : ι} (hex : Exclusive Pc.Holds s.alreadyOpen s.pc)
    (hover : NoOverlap s (.step i)) (hi : (s.pc i).readPart = some (offset, pc))
    (hstarts : (s.pc i).startsRead s.data.message = true) : Quiet s := by
  intro j
  by_cases hboth : (s.pc i).Holds ∧ (s.pc j).Holds
  · rw [← hex.unique hboth.1 hboth.2]
    exact Pc.midWrite_of_readPart hi
  · exact (hover j hboth).2 hstarts

/-- A step of the `device_read` of process `i`. -/
theorem Intact.read {i : ι} {buffer : UserPtr σ} {d' : Data σ} {pc' : ReadPc}
    (hs : Intact signedChar user acts s) (hrun : run (chardevStep signedChar) (State.init user) acts =
      some s) (hover : NoOverlap s (.step i)) (hi : (s.pc i).readPart = some (offset, pc))
    (h : readStep buffer offset s.data pc = some (d', pc')) :
    Seen signedChar user acts s offset pc' := by
  rcases pc.first_or_not with ⟨length, rfl⟩ | hnot
  · obtain ⟨htaken, hput, hgoes⟩ := readStep_first h
    cases hmid : pc'.mid with
    | false => exact Seen.nothing htaken hput hmid
    | true =>
        have hstarts : (s.pc i).startsRead s.data.message = true := by
          rw [Pc.startsRead, hi]
          exact decide_eq_true (hgoes hmid)
        exact ⟨acts, [], s, (List.append_nil _).symm, hrun,
          quiet_of_startsRead hs.exclusive hover hi hstarts, readFrom_nil htaken hput, fun _ => rfl⟩
  · obtain ⟨past, rest, u, hacts, hu, hquiet, hread, hsame⟩ := hs.reads i offset pc hi
    obtain ⟨hread', hmid⟩ := hread.step hsame hnot h
    exact ⟨past, rest, u, hacts, hu, hquiet, hread', fun hmid' => hsame (hmid hmid')⟩

/-- **Step.**  A step without overlap keeps what every `device_read` has seen. -/
theorem Intact.step (hs : Intact signedChar user acts s)
    (hrun : run (chardevStep signedChar) (State.init user) acts = some s) (hover : NoOverlap s act)
    (h : chardevStep signedChar s act = some t) : Intact signedChar user (acts ++ [act]) t := by
  refine ⟨exclusive_step hs.exclusive h, fun j offset pc hj => ?_⟩
  rcases chardevStep_cases h with ⟨hmessage, hpc⟩ | ⟨i, l, hpc, hmoved⟩
  · rw [hpc] at hj
    exact (hs.reads j offset pc hj).later fun _ => hmessage
  · by_cases hji : j = i
    · rw [hpc, hji, Function.update_self] at hj
      cases hmoved with
      | outside _ hread => rw [hread] at hj; cases hj
      | stored _ _ hread => rw [hread] at hj; cases hj
      | started offset' length _ hread =>
          rw [hread] at hj
          obtain ⟨rfl, rfl⟩ := Prod.mk.inj (Option.some.inj hj)
          exact Seen.nothing rfl nofun rfl
      | read buffer offset' part part' hact hold hread hstep =>
          rw [hread] at hj
          obtain ⟨rfl, rfl⟩ := Prod.mk.inj (Option.some.inj hj)
          exact (hs.read hrun (hact ▸ hover) hold hstep).later fun _ => readStep_message hstep
    · rw [hpc, Function.update_of_ne hji] at hj
      refine (hs.reads j offset pc hj).later fun hmid => ?_
      cases hmoved with
      | outside hmessage _ => exact hmessage
      | started _ _ hmessage _ => exact hmessage
      | read _ _ _ _ _ _ _ hstep => exact readStep_message hstep
      | stored hact hstores _ =>
          -- the store would overlap the read of process `j`
          have hnot : ¬((s.pc i).Holds ∧ (s.pc j).Holds) :=
            fun hboth => hji (hs.exclusive.unique hboth.2 hboth.1)
          have hmidRead := ((hact ▸ hover : NoOverlap s (.step i)) j hnot).1 hstores
          rw [Pc.midRead_eq hj, hmid] at hmidRead
          cases hmidRead

/-- **Reads are intact without overlap.**  In every run of `read(2)`, `write(2)` and `ioctl` calls of
any number of processes in which no store overlaps a `device_read`, except where the flag excludes
it, what each `device_read` delivers is a contiguous piece of the message as it stood at a moment
at which no store was half done. -/
theorem reads_intact (hrun : run (chardevStep signedChar) (State.init user) acts = some s)
    (hover : Along (chardevStep signedChar) NoOverlap (State.init user) acts) (i : ι)
    (taken : List Byte) (hi : (s.pc i).delivered = some taken) :
    FromOneMessage signedChar user acts taken := by
  have hs : Intact signedChar user acts s := by
    refine run_induction_history (fun ls u l v hu hinv hl h => ?_) intact_init hover hrun
    exact Intact.step hinv hu hl h
  obtain ⟨⟨offset, pc⟩, hpart, rfl⟩ := Option.map_eq_some_iff.mp hi
  obtain ⟨past, rest, u, hacts, hu, hquiet, hread, _⟩ := hs.reads i offset pc hpart
  exact ⟨past, rest, u, hacts, hu, hquiet, offset, hread.taken⟩

end Intact

/-! ### A torn read -/

/-- Address space 0 is full of `a`, and the others are full of `b`. -/
def tornUser (p : UserPtr (Fin 3)) : Cell := ⟨if p.space = 0 then 0x61 else 0x62, true, true⟩

/-- Process 0 writes `aa` and process 1 reads it. -/
def writeThenRead : List (Act (Fin 3) (Fin 3)) :=
  .deviceWrite 0 ⟨0, 0⟩ 2 :: List.replicate 6 (.step 0) ++
    .deviceRead 1 ⟨1, 0⟩ 2 0 :: List.replicate 8 (.step 1)

theorem reads_intact_writeThenRead :
    ∃ s, run (chardevStep true) (State.init tornUser) writeThenRead = some s ∧
      (s.pc 1).delivered = some [0x61, 0x61] ∧
      FromOneMessage true tornUser writeThenRead [0x61, 0x61] := by
  obtain ⟨s, hrun, hi⟩ :
      ∃ s, run (chardevStep true) (State.init tornUser) writeThenRead = some s ∧
        (s.pc 1).delivered = some [0x61, 0x61] := ⟨_, rfl, by decide⟩
  exact ⟨s, hrun, hi, reads_intact hrun (by decide +kernel) 1 _ hi⟩

/-- Process 2 writes `bb` while process 1 is reading `aa`. -/
def torn : List (Act (Fin 3) (Fin 3)) :=
  .deviceWrite 0 ⟨0, 0⟩ 2 :: List.replicate 6 (.step 0) ++
    .deviceRead 1 ⟨1, 0⟩ 2 0 :: List.replicate 4 (.step 1) ++
    .deviceWrite 2 ⟨2, 0⟩ 2 :: List.replicate 6 (.step 2) ++ List.replicate 4 (.step 1)

/-- At the quiet moments of the run the first two bytes of the message are equal; the others are 0
all along. -/
theorem torn_prefix (n : ℕ) : ∃ u,
    run (chardevStep true) (State.init tornUser) (torn.take n) = some u ∧
      (Quiet u → u.data.message 0 = u.data.message 1) ∧ ∀ k, u.data.message (k + 2) = 0 := by
  by_cases hn : n < 23
  · interval_cases n <;> exact ⟨_, rfl, by decide +kernel, fun _ => rfl⟩
  · rw [List.take_of_length_le (Nat.not_lt.mp hn)]
    exact ⟨_, rfl, by decide +kernel, fun _ => rfl⟩

/-- The read delivers the first byte of one message and the second byte of the next. -/
theorem torn_read :
    ∃ s, run (chardevStep true) (State.init tornUser) torn = some s ∧
      s.pc 1 = .reading ⟨1, 0⟩ 0 (.done 2 [0x61, 0x62]) ∧
      ¬FromOneMessage true tornUser torn [0x61, 0x62] := by
  refine ⟨_, rfl, rfl, ?_⟩
  rintro ⟨past, rest, u, hacts, hu, hquiet, offset, hread⟩
  obtain ⟨v, hv, hequal, hzero⟩ := torn_prefix past.length
  rw [hacts, List.take_left, hu] at hv
  obtain rfl := Option.some.inj hv
  have hcells : [0x61, 0x62] = [u.data.message offset, u.data.message (offset + 1)] := hread
  obtain ⟨hfirst, hrest⟩ := List.cons.inj hcells
  obtain ⟨hsecond, -⟩ := List.cons.inj hrest
  -- only position 0 is followed by a byte that can be nonzero
  rcases offset with _ | k
  · rw [← hequal hquiet, ← hfirst] at hsecond
    exact absurd hsecond (by decide)
  · rw [hzero k] at hsecond
    exact absurd hsecond (by decide)

end Lkmpg.Chardev2
