import Lkmpg.Lib.Narrow
import Lkmpg.Lib.Transition

/-!
# The values of `ioctl.c`

Every open file has a value of its own, set and read with two `ioctl` commands; two more commands
set and read a number that all files share.  A process passes a value as `unsigned int` in a
`struct ioctl_arg`, and the file keeps it in an `unsigned char`.

A label opens or closes a file, starts a call of a process, or lets a process take the next step of
its call: one lock section, or the access to user memory before or after it.  How the accesses of a
call to user memory come out is part of its label.  The kernel calls `release` when no call on the
file is under way.  Next to the data of the module, a state records for each file the value that was
last set on it.
-/

namespace Lkmpg.Ioctl

open Narrow Transition

/-- `_IOC` -/
def ioc (dir type nr size : ℕ) : BitVec 32 :=
  BitVec.ofNat 32 (dir <<< 30 ||| size <<< 16 ||| type <<< 8 ||| nr)

/-- `IOC_MAGIC` -/
def iocMagic : ℕ := 0x66

/-- `_IOW(IOC_MAGIC, 0, struct ioctl_arg)` -/
def ioctlValset : BitVec 32 := ioc 1 iocMagic 0 4

/-- `_IOR(IOC_MAGIC, 1, struct ioctl_arg)` -/
def ioctlValget : BitVec 32 := ioc 2 iocMagic 1 4

/-- `_IOR(IOC_MAGIC, 2, int)` -/
def ioctlValgetNum : BitVec 32 := ioc 2 iocMagic 2 4

/-- `_IO(IOC_MAGIC, 3)` -/
def ioctlValsetNum : BitVec 32 := ioc 0 iocMagic 3 0

/-- The user memory at `arg` during a call. -/
structure UserWord where
  /-- what `copy_from_user` finds there, if it can be read -/
  data : Option (BitVec 32)
  /-- it can be written -/
  writable : Bool
  deriving DecidableEq, Repr

/-- What a call has returned, and what it has put into user memory. -/
inductive Reply where
  /-- 0 -/
  | ok
  /-- 0, with `data.val` in the `struct ioctl_arg` of the caller -/
  | data (val : BitVec 32)
  /-- 0, with `ioctl_num` in the `int` of the caller -/
  | num (n : BitVec 32)
  /-- what `test_ioctl_read` has copied, whose length it returns -/
  | bytes (buf : List Byte)
  /-- `-ENOTTY` -/
  | enotty
  /-- `-EFAULT`, after `test_ioctl_read` has copied `buf` -/
  | efault (buf : List Byte)
  deriving DecidableEq, Repr

/-- Where a process is in a call on file `f`. -/
inductive Pc (φ : Type) where
  /-- not in a call -/
  | idle
  /-- in `IOCTL_VALSET`, with `data.val` copied from the user, before `write_lock` -/
  | valset (f : φ) (val : BitVec 32)
  /-- in `IOCTL_VALGET`, before `read_lock` -/
  | valget (f : φ) (writable : Bool)
  /-- in `IOCTL_VALGET`, after `read_unlock`; `set` is the value last set on the file then -/
  | valgot (f : φ) (val : Byte) (set : BitVec 32) (writable : Bool)
  | valgetNum (f : φ) (writable : Bool)
  | valsetNum (f : φ) (arg : BitVec 64)
  /-- in `test_ioctl_read`, before `read_lock` -/
  | read (f : φ) (count : ℕ) (fault : Option ℕ)
  /-- in `test_ioctl_read`, after `read_unlock` -/
  | gotten (f : φ) (val : Byte) (count : ℕ) (fault : Option ℕ)
  /-- the call has returned -/
  | returned (reply : Reply)
  deriving DecidableEq

/-- The file of the call that is under way. -/
def Pc.file {φ : Type} : Pc φ → Option φ
  | .idle => none
  | .returned _ => none
  | .valset f _ => some f
  | .valget f _ => some f
  | .valgot f _ _ _ => some f
  | .valgetNum f _ => some f
  | .valsetNum f _ => some f
  | .read f _ _ => some f
  | .gotten f _ _ _ => some f

structure State (φ ι : Type) where
  /-- `private_data->val` of the open files -/
  val : φ → Option Byte
  /-- `ioctl_num` -/
  ioctlNum : BitVec 32
  pc : ι → Pc φ
  /-- the value last set on each file -/
  lastSet : φ → BitVec 32

/-- After module load. -/
def State.init {φ ι : Type} : State φ ι := ⟨fun _ => none, 0, fun _ => .idle, fun _ => 0⟩

inductive Act (φ ι : Type) where
  /-- `test_ioctl_open`, and whether `kmalloc` succeeds -/
  | ioctlOpen (f : φ) (kmalloc : Bool)
  | ioctlClose (f : φ)
  /-- a call of `test_ioctl_ioctl` -/
  | ioctl (i : ι) (f : φ) (cmd : BitVec 32) (arg : BitVec 64) (user : UserWord)
  /-- a call of `test_ioctl_read`, for which byte `fault` of the buffer cannot be written -/
  | ioctlRead (i : ι) (f : φ) (count : ℕ) (fault : Option ℕ)
  /-- the next step of a call -/
  | step (i : ι)

variable {φ ι : Type}

/-- The `switch` of `test_ioctl_ioctl`: where the process is after it. -/
def ioctlStart (f : φ) (cmd : BitVec 32) (arg : BitVec 64) (user : UserWord) : Pc φ :=
  if cmd = ioctlValset then user.data.elim (.returned (.efault [])) (.valset f)
  else if cmd = ioctlValget then .valget f user.writable
  else if cmd = ioctlValgetNum then .valgetNum f user.writable
  else if cmd = ioctlValsetNum then .valsetNum f arg
  else .returned .enotty

/-- The end of `IOCTL_VALGET` and `IOCTL_VALGET_NUM`. -/
def putReply (writable : Bool) (reply : Reply) : Reply := if writable then reply else .efault []

/-- The loop of `test_ioctl_read`. -/
def readReply (val : Byte) (count : ℕ) : Option ℕ → Reply
  | none => .bytes (List.replicate count val)
  | some k =>
      if k < count then .efault (List.replicate k val) else .bytes (List.replicate count val)

variable [DecidableEq φ] [DecidableEq ι]

/-- Start a call on an open file. -/
def start (s : State φ ι) (i : ι) (f : φ) (pc : Pc φ) : Option (State φ ι) :=
  if (s.pc i).file = none ∧ s.val f ≠ none then
    some { s with pc := Function.update s.pc i pc }
  else none

variable [Fintype ι]

def ioctlStep (s : State φ ι) : Act φ ι → Option (State φ ι)
  | .ioctlOpen f kmalloc =>
      match s.val f with
      | none =>
          if kmalloc then
            some { s with
              val := Function.update s.val f (some 0xFF)
              lastSet := Function.update s.lastSet f 0xFF }
          else some s
      | some _ => none
  | .ioctlClose f =>
      if s.val f ≠ none ∧ ∀ i, (s.pc i).file ≠ some f then
        some { s with val := Function.update s.val f none }
      else none
  | .ioctl i f cmd arg user => start s i f (ioctlStart f cmd arg user)
  | .ioctlRead i f count fault => start s i f (.read f count fault)
  | .step i =>
      match s.pc i with
      | .valset f val =>
          some { s with
            val := Function.update s.val f (some (val.setWidth 8))
            lastSet := Function.update s.lastSet f val
            pc := Function.update s.pc i (.returned .ok) }
      | .valget f writable =>
          (s.val f).map fun val =>
            { s with pc := Function.update s.pc i (.valgot f val (s.lastSet f) writable) }
      | .valgot _ val _ writable =>
          some { s with
            pc := Function.update s.pc i (.returned (putReply writable (.data (val.setWidth 32)))) }
      | .valgetNum _ writable =>
          some { s with
            pc := Function.update s.pc i (.returned (putReply writable (.num s.ioctlNum))) }
      | .valsetNum _ arg =>
          some { s with
            ioctlNum := arg.setWidth 32
            pc := Function.update s.pc i (.returned .ok) }
      | .read f count fault =>
          (s.val f).map fun val => { s with pc := Function.update s.pc i (.gotten f val count fault) }
      | .gotten _ val count fault =>
          some { s with pc := Function.update s.pc i (.returned (readReply val count fault)) }
      | _ => none

/-! ### What a step can do -/

/-- The kinds of steps. -/
inductive Effect (s : State φ ι) : Act φ ι → State φ ι → Prop where
  /-- `kmalloc` has failed -/
  | unopened (f : φ) : Effect s (.ioctlOpen f false) s
  | opened (f : φ) : Effect s (.ioctlOpen f true)
      { s with
        val := Function.update s.val f (some 0xFF)
        lastSet := Function.update s.lastSet f 0xFF }
  | closed (f : φ) (hfree : ∀ i, (s.pc i).file ≠ some f) : Effect s (.ioctlClose f)
      { s with val := Function.update s.val f none }
  /-- the store of `IOCTL_VALSET` -/
  | stored (i : ι) (f : φ) (val : BitVec 32) (hpc : s.pc i = .valset f val) : Effect s (.step i)
      { s with
        val := Function.update s.val f (some (val.setWidth 8))
        lastSet := Function.update s.lastSet f val
        pc := Function.update s.pc i (.returned .ok) }
  /-- a process moves on, and `ioctl_num` may change -/
  | moved (a : Act φ ι) (i : ι) (l : Pc φ) (n : BitVec 32)
      (hgot : ∀ f val set writable, l = .valgot f val set writable →
        s.val f = some val ∧ set = s.lastSet f)
      (hopen : ∀ f, l.file = some f → s.val f ≠ none ∨ (s.pc i).file = some f) : Effect s a
      { s with ioctlNum := n, pc := Function.update s.pc i l }

section Effect

variable {s t : State φ ι} {i : ι} {f : φ} {l : Pc φ}

omit [DecidableEq φ] [DecidableEq ι] [Fintype ι] in
theorem ioctlStart_file (cmd : BitVec 32) (arg : BitVec 64) (user : UserWord) :
    (∀ g, (ioctlStart f cmd arg user).file = some g → g = f) ∧
      ∀ g val set writable, ioctlStart f cmd arg user ≠ .valgot g val set writable := by
  rw [ioctlStart]
  cases user.data
  all_goals
    split_ifs
    all_goals
      refine ⟨fun g hg => ?_, nofun⟩
      first
        | exact (Option.some.inj hg).symm
        | cases hg

omit [Fintype ι] in
theorem effect_of_start {a : Act φ ι} (hfile : ∀ g, l.file = some g → g = f)
    (hgot : ∀ g val set writable, l ≠ .valgot g val set writable) (h : start s i f l = some t) :
    Effect s a t := by
  rw [start] at h
  split at h
  · rename_i hidle
    obtain rfl := Option.some.inj h
    refine .moved a i l s.ioctlNum (fun g v set w hl => absurd hl (hgot g v set w)) fun g hg => ?_
    rw [hfile g hg]
    exact Or.inl hidle.2
  · cases h

/-- **Inversion.** -/
theorem effect_of_ioctlStep {a : Act φ ι} (h : ioctlStep s a = some t) : Effect s a t := by
  cases a with
  | ioctlOpen f kmalloc =>
      simp only [ioctlStep] at h
      split at h
      · cases kmalloc with
        | true =>
            obtain rfl := Option.some.inj h
            exact .opened f
        | false =>
            obtain rfl := Option.some.inj h
            exact .unopened f
      · cases h
  | ioctlClose f =>
      simp only [ioctlStep] at h
      split at h
      · rename_i hfree
        obtain rfl := Option.some.inj h
        exact .closed f hfree.2
      · cases h
  | ioctl i f cmd arg user =>
      exact effect_of_start (ioctlStart_file cmd arg user).1 (ioctlStart_file cmd arg user).2 h
  | ioctlRead i f count fault =>
      exact effect_of_start (l := .read f count fault) (fun g hg => (Option.some.inj hg).symm) nofun h
  | step i =>
      simp only [ioctlStep] at h
      split at h
      · rename_i f val hpc
        obtain rfl := Option.some.inj h
        exact .stored i f val hpc
      · rename_i f writable hpc
        obtain ⟨val, hval, rfl⟩ := Option.map_eq_some_iff.mp h
        refine .moved _ i _ s.ioctlNum (fun g v set w hl => ?_) fun g hg => ?_
        · obtain ⟨rfl, rfl, rfl, rfl⟩ := Pc.valgot.inj hl
          exact ⟨hval, rfl⟩
        · exact Or.inr (hpc ▸ hg)
      · obtain rfl := Option.some.inj h
        exact .moved _ i _ s.ioctlNum nofun nofun
      · obtain rfl := Option.some.inj h
        exact .moved _ i _ s.ioctlNum nofun nofun
      · obtain rfl := Option.some.inj h
        exact .moved _ i _ _ nofun nofun
      · rename_i f count fault hpc
        obtain ⟨val, hval, rfl⟩ := Option.map_eq_some_iff.mp h
        exact .moved _ i _ s.ioctlNum nofun fun g hg => Or.inr (hpc ▸ hg)
      · obtain rfl := Option.some.inj h
        exact .moved _ i _ s.ioctlNum nofun nofun
      · cases h

/-- **Frame.**  A step changes the value of file `f` only by opening or closing `f`, or as the store
of an `IOCTL_VALSET` on `f`. -/
theorem ioctlStep_val_of_ne {a : Act φ ι} (h : ioctlStep s a = some t)
    (hopen : ∀ kmalloc, a ≠ .ioctlOpen f kmalloc) (hclose : a ≠ .ioctlClose f)
    (hset : ∀ i val, a = .step i → s.pc i ≠ .valset f val) :
    t.val f = s.val f ∧ t.lastSet f = s.lastSet f := by
  cases effect_of_ioctlStep h with
  | unopened g => exact ⟨rfl, rfl⟩
  | opened g =>
      have hfg : f ≠ g := fun hfg => hopen true (by rw [hfg])
      exact ⟨Function.update_of_ne hfg _ _, Function.update_of_ne hfg _ _⟩
  | closed g hfree =>
      have hfg : f ≠ g := fun hfg => hclose (by rw [hfg])
      exact ⟨Function.update_of_ne hfg _ _, rfl⟩
  | stored i g val hpc =>
      have hfg : f ≠ g := fun hfg => hset i val rfl (by rw [hpc, hfg])
      exact ⟨Function.update_of_ne hfg _ _, Function.update_of_ne hfg _ _⟩
  | moved _ i l n hgot hopened => exact ⟨rfl, rfl⟩

end Effect

/-! ### The invariant -/

/-- Files hold the low byte of what was last set on them, and so do the variables of the calls that
have read them; a call is on an open file. -/
structure Inv (s : State φ ι) : Prop where
  stored : ∀ f val, s.val f = some val → val = (s.lastSet f).setWidth 8
  got : ∀ i f val set writable, s.pc i = .valgot f val set writable → val = set.setWidth 8
  isOpen : ∀ i f, (s.pc i).file = some f → s.val f ≠ none

omit [DecidableEq φ] [DecidableEq ι] [Fintype ι] in
theorem inv_init : Inv (State.init : State φ ι) where
  stored := nofun
  got := nofun
  isOpen := nofun

section Step

variable {s t : State φ ι} {i : ι} {f : φ} {l : Pc φ}

omit [DecidableEq φ] [Fintype ι] in
/-- A step that changes only where its process is, and perhaps `ioctl_num`. -/
theorem Inv.move (hs : Inv s) (n : BitVec 32)
    (hgot : ∀ f val set writable, l = .valgot f val set writable → val = set.setWidth 8)
    (hopen : ∀ f, l.file = some f → s.val f ≠ none) :
    Inv { s with ioctlNum := n, pc := Function.update s.pc i l } where
  stored := hs.stored
  got := (Function.forall_update_iff s.pc fun _ pc => ∀ f val set writable,
    pc = .valgot f val set writable → val = set.setWidth 8).mpr ⟨hgot, fun j _ => hs.got j⟩
  isOpen := (Function.forall_update_iff s.pc fun _ pc => ∀ f, pc.file = some f →
    s.val f ≠ none).mpr ⟨hopen, fun j _ => hs.isOpen j⟩

omit [DecidableEq ι] [Fintype ι] in
/-- A file gets a value: `kmalloc` with the first one, or `IOCTL_VALSET`. -/
theorem Inv.set (hs : Inv s) (val : BitVec 32) :
    Inv { s with
      val := Function.update s.val f (some (val.setWidth 8))
      lastSet := Function.update s.lastSet f val } where
  stored g v hg := by
    replace hg : Function.update s.val f (some (val.setWidth 8)) g = some v := hg
    show v = (Function.update s.lastSet f val g).setWidth 8
    by_cases hgf : g = f
    · rw [hgf, Function.update_self] at hg
      rw [hgf, Function.update_self]
      exact (Option.some.inj hg).symm
    · rw [Function.update_of_ne hgf] at hg
      rw [Function.update_of_ne hgf]
      exact hs.stored g v hg
  got := hs.got
  isOpen j g hg := by
    show Function.update s.val f _ g ≠ none
    by_cases hgf : g = f
    · rw [hgf, Function.update_self]
      exact nofun
    · rw [Function.update_of_ne hgf]
      exact hs.isOpen j g hg

omit [DecidableEq ι] [Fintype ι] in
theorem Inv.close (hs : Inv s) (hfree : ∀ i, (s.pc i).file ≠ some f) :
    Inv { s with val := Function.update s.val f none } where
  stored g v hg := by
    replace hg : Function.update s.val f none g = some v := hg
    by_cases hgf : g = f
    · rw [hgf, Function.update_self] at hg
      cases hg
    · rw [Function.update_of_ne hgf] at hg
      exact hs.stored g v hg
  got := hs.got
  isOpen j g hg := by
    replace hg : (s.pc j).file = some g := hg
    have hgf : g ≠ f := fun h => hfree j (h ▸ hg)
    show Function.update s.val f none g ≠ none
    rw [Function.update_of_ne hgf]
    exact hs.isOpen j g hg

/-- **Step.** -/
theorem Inv.step {a : Act φ ι} (hs : Inv s) (h : ioctlStep s a = some t) : Inv t := by
  cases effect_of_ioctlStep h with
  | unopened f => exact hs
  | opened f => exact hs.set 0xFF
  | closed f hfree => exact hs.close hfree
  | stored i f val hpc => exact (hs.set val).move s.ioctlNum nofun nofun
  | moved _ i l n hgot hopened =>
      refine hs.move n (fun f val set writable hl => ?_) fun f hf => ?_
      · obtain ⟨hval, rfl⟩ := hgot f val set writable hl
        exact hs.stored f val hval
      · exact (hopened f hf).elim id (hs.isOpen i f)

/-- **No use after `kfree`.**  A call that is under way can take its next step. -/
theorem Inv.enabled (hs : Inv s) (hcall : (s.pc i).file ≠ none) :
    (ioctlStep s (.step i)).isSome := by
  obtain ⟨f, hf⟩ := Option.ne_none_iff_exists'.mp hcall
  obtain ⟨val, hval⟩ := Option.ne_none_iff_exists'.mp (hs.isOpen i f hf)
  cases hpc : s.pc i with
  | valget g writable =>
      rw [hpc] at hf
      obtain rfl := Option.some.inj hf
      simp [ioctlStep, hpc, hval]
  | read g count fault =>
      rw [hpc] at hf
      obtain rfl := Option.some.inj hf
      simp [ioctlStep, hpc, hval]
  | idle => exact absurd (by rw [hpc]; rfl) hcall
  | returned reply => exact absurd (by rw [hpc]; rfl) hcall
  | _ => simp [ioctlStep, hpc]

/-! ### The value that a call returns -/

/-- `IOCTL_VALGET` returns the value that was last set on its file when it read it, unless user memory
faults. -/
def ValgetExact (s : State φ ι) (a : Act φ ι) : Prop :=
  ∀ i f val set, a = .step i → s.pc i = .valgot f val set true → ∀ t, ioctlStep s a = some t →
    t.pc i = .returned (.data set)

/-- That value fits an `unsigned char`. -/
def FitsChar (s : State φ ι) (a : Act φ ι) : Prop :=
  ∀ i f val set, a = .step i → s.pc i = .valgot f val set true → set.toNat < 2 ^ 8

theorem Inv.valgetExact_step {a : Act φ ι} (hs : Inv s) : ValgetExact s a ↔ FitsChar s a := by
  have hreply : ∀ i f val set, s.pc i = .valgot f val set true → ∀ t,
      ioctlStep s (.step i) = some t → (t.pc i = .returned (.data set) ↔ set.toNat < 2 ^ 8) := by
    intro i f val set hpc t ht
    simp only [ioctlStep, hpc] at ht
    obtain rfl := Option.some.inj ht
    show Function.update s.pc i _ i = _ ↔ _
    rw [Function.update_self, hs.got i f val set true hpc, ← setWidth_setWidth_eq_self_iff set]
    simp [putReply]
  constructor
  · intro h i f val set ha hpc
    subst ha
    have ht : ∃ t, ioctlStep s (.step i) = some t := by
      simp only [ioctlStep, hpc]
      exact ⟨_, rfl⟩
    obtain ⟨t, ht⟩ := ht
    exact (hreply i f val set hpc t ht).mp (h i f val set rfl hpc t ht)
  · intro h i f val set ha hpc t ht
    subst ha
    exact (hreply i f val set hpc t ht).mpr (h i f val set rfl hpc)

end Step

/-- **Values per file.**  In every interleaving of the calls of any number of processes on any number
of files, each `IOCTL_VALGET` for which user memory does not fault returns the value that was last set
on its own file, if and only if each of them finds one below 256. -/
theorem valgetExact_iff (acts : List (Act φ ι)) :
    Along ioctlStep ValgetExact (State.init : State φ ι) acts ↔
      Along ioctlStep FitsChar (State.init : State φ ι) acts :=
  along_iff_along (fun _ _ _ hs _ h => hs.step h) (fun _ _ hs => hs.valgetExact_step) inv_init

/-- One process sets 256 on a file and reads it back. -/
def setAndGet : List (Act Unit Unit) :=
  [.ioctlOpen () true, .ioctl () () ioctlValset 0 ⟨some 256, true⟩, .step (),
    .ioctl () () ioctlValget 0 ⟨some 0, true⟩, .step ()]

/-- It gets 0. -/
theorem not_valgetExact_setAndGet :
    ¬Along ioctlStep ValgetExact (State.init : State Unit Unit) (setAndGet ++ [.step ()]) := by
  intro h
  have hlast := h.last (t := _) rfl
  exact absurd (hlast () () 0 256 rfl rfl _ rfl) (by decide)

end Lkmpg.Ioctl
