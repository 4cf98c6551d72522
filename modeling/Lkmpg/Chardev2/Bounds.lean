import Lkmpg.Chardev2.Overlap

/-!
# The end of the message

`message` has one place more than `BUF_LEN`.  The loop of `device_write` stops before it, and so the
NUL that is there at module load stays there: the message has an end in every state.
-/

namespace Lkmpg.Chardev2

open Transition

variable {σ ι : Type} {d d' : Data σ} {signedChar : Bool}

/-- `message[BUF_LEN]` and what is beyond it are as they were at module load. -/
def Data.Terminated (d : Data σ) : Prop := ∀ i, bufLen ≤ i → d.message i = 0

/-- A byte that is about to be stored goes to one of the first `BUF_LEN` places. -/
def WritePc.InBounds : WritePc → Prop
  | .store i _ => i < bufLen
  | _ => True

def Pc.InBounds (pc : Pc σ) : Prop := ∀ part, pc.writePart = some part → part.2.InBounds

theorem writeStep_bounds {buffer : UserPtr σ} {length : ℕ} {pc pc' : WritePc} (hd : d.Terminated)
    (hpc : pc.InBounds) (h : writeStep buffer length d pc = some (d', pc')) :
    d'.Terminated ∧ pc'.InBounds := by
  cases pc with
  | get i =>
      obtain ⟨rfl, rfl⟩ := Prod.mk.inj (Option.some.inj h)
      refine ⟨hd, ?_⟩
      split
      · rename_i hmore
        exact hmore.2
      · trivial
  | store i c =>
      obtain ⟨rfl, rfl⟩ := Prod.mk.inj (Option.some.inj h)
      refine ⟨fun k hk => ?_, trivial⟩
      have hlt : i < bufLen := hpc
      show Function.update d.message i c k = 0
      rw [Function.update_of_ne (by omega)]
      exact hd k hk
  | done i => cases h

theorem inBounds_of_writePart {pc : Pc σ} (h : pc.writePart = none) : pc.InBounds :=
  fun part hpart => by rw [h] at hpart; cases hpart

variable [DecidableEq σ]

theorem ioctlStep_bounds {param : UserPtr σ} {pc pc' : IoctlPc} (hd : d.Terminated)
    (hpc : (Pc.ioctl param pc).InBounds) (h : ioctlStep signedChar param d pc = some (d', pc')) :
    d'.Terminated ∧ (Pc.ioctl param pc').InBounds := by
  cases pc with
  | scan n ch =>
      obtain ⟨rfl, rfl⟩ := Prod.mk.inj (Option.some.inj h)
      refine ⟨hd, ?_⟩
      split
      · exact inBounds_of_writePart rfl
      · intro part hpart
        obtain rfl := Option.some.inj hpart
        trivial
  | setMsg n pc =>
      obtain ⟨next, hwrite, rfl⟩ | ⟨-, rfl, rfl⟩ := ioctlStep_setMsg h
      · obtain ⟨hd', hpc'⟩ := writeStep_bounds hd (hpc (n, pc) rfl) hwrite
        refine ⟨hd', fun part hpart => ?_⟩
        obtain rfl := Option.some.inj hpart
        exact hpc'
      · exact ⟨hd, inBounds_of_writePart rfl⟩
  | getMsg pc =>
      obtain ⟨next, hread, rfl⟩ | ⟨-, rfl, rfl⟩ := ioctlStep_getMsg h
      · refine ⟨fun k hk => ?_, inBounds_of_writePart rfl⟩
        rw [readStep_message hread]
        exact hd k hk
      · refine ⟨fun k hk => ?_, inBounds_of_writePart rfl⟩
        rw [putUser_message]
        exact hd k hk
  | scanFirst =>
      obtain ⟨rfl, rfl⟩ := Prod.mk.inj (Option.some.inj h)
      exact ⟨hd, inBounds_of_writePart rfl⟩
  | getNthByte =>
      obtain ⟨rfl, rfl⟩ := Prod.mk.inj (Option.some.inj h)
      exact ⟨hd, inBounds_of_writePart rfl⟩
  | done ret => cases h

structure InBounds (s : State σ ι) : Prop where
  terminated : s.data.Terminated
  writes : ∀ i, (s.pc i).InBounds

variable [DecidableEq ι] {s t : State σ ι} {act : Act σ ι}

omit [DecidableEq σ] in
theorem InBounds.move {i : ι} {l : Pc σ} (hs : InBounds s) (hd : d.Terminated) (hl : l.InBounds) :
    InBounds (s.next i d l) where
  terminated := hd
  writes := (Function.forall_update_iff s.pc fun _ l => l.InBounds).mpr
    ⟨hl, fun j _ => hs.writes j⟩

/-- **Step.**  No step touches the end of the message. -/
theorem InBounds.step (hs : InBounds s) (h : chardevStep signedChar s act = some t) :
    InBounds t := by
  cases act with
  | deviceIoctl i ioctlNum param =>
      obtain ⟨-, ⟨-, rfl⟩ | ⟨-, rfl⟩⟩ := deviceIoctl_eq_some h
      · exact hs.move hs.terminated (inBounds_of_writePart rfl)
      · have hswitch : (Pc.ioctl param (ioctlSwitch ioctlNum)).InBounds := by
          refine inBounds_of_writePart ?_
          rw [ioctlSwitch]
          split
          · rfl
          · split
            · rfl
            · split <;> rfl
        exact ⟨hs.terminated, (hs.move hs.terminated hswitch).writes⟩
  | deviceRead i buffer length offset =>
      obtain ⟨-, rfl⟩ := deviceRead_eq_some h
      exact hs.move hs.terminated (inBounds_of_writePart rfl)
  | deviceWrite i buffer length =>
      obtain ⟨-, rfl⟩ := deviceWrite_eq_some h
      refine hs.move hs.terminated fun part hpart => ?_
      obtain rfl := Option.some.inj hpart
      trivial
  | step i =>
      have hret : ∀ ret, InBounds (s.ret i ret) := fun ret =>
        ⟨hs.terminated, (hs.move hs.terminated (inBounds_of_writePart rfl)).writes⟩
      cases step_cases h with
      | read hi hread =>
          refine hs.move (fun k hk => ?_) (inBounds_of_writePart rfl)
          rw [readStep_message hread]
          exact hs.terminated k hk
      | write hi hwrite =>
          have hpc := hs.writes i
          rw [hi] at hpc
          obtain ⟨hd', hpc'⟩ := writeStep_bounds hs.terminated (hpc _ rfl) hwrite
          refine hs.move hd' fun part hpart => ?_
          obtain rfl := Option.some.inj hpart
          exact hpc'
      | ioctl hi hioctl =>
          have hpc := hs.writes i
          rw [hi] at hpc
          obtain ⟨hd', hpc'⟩ := ioctlStep_bounds hs.terminated hpc hioctl
          exact hs.move hd' hpc'
      | readReturn hi hread => exact hret _
      | writeReturn hi hwrite => exact hret _
      | ioctlReturn hi hioctl => exact ⟨hs.terminated, (hret 0).writes⟩
  | poke p cell =>
      obtain rfl := Option.some.inj h
      exact ⟨hs.terminated, hs.writes⟩

/-- **The message ends.**  Whatever calls are made, in whatever order their steps come, the place
after the last byte of the message is never overwritten. -/
theorem terminated_of_run {user : UserPtr σ → Cell} {acts : List (Act σ ι)}
    (hrun : run (chardevStep signedChar) (State.init user) acts = some s) : s.data.Terminated := by
  have hinit : InBounds (State.init user : State σ ι) :=
    ⟨fun _ _ => rfl, fun _ => inBounds_of_writePart rfl⟩
  exact (run_invariant (fun _ _ _ hs h => InBounds.step hs h) hinit hrun).terminated

end Lkmpg.Chardev2
