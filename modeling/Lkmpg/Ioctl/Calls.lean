import Lkmpg.Ioctl.Values
import Lkmpg.Lib.Atomic

/-!
# The calls of `ioctl.c` are atomic

A call of `test_ioctl_ioctl` or `test_ioctl_read` takes several steps, and the calls of other
processes, on the same file or on others, come between them.  The object that is described here does
each call in one moment, and refuses one on a file that is not open.  Whatever processes see of the
module they could have seen of that object.
-/

namespace Lkmpg.Ioctl

open Atomic Transition

/-- A call from beginning to end. -/
inductive Op (φ : Type) where
  /-- `test_ioctl_open`, and whether `kmalloc` succeeds -/
  | ioctlOpen (f : φ) (kmalloc : Bool)
  | ioctlClose (f : φ)
  | ioctl (f : φ) (cmd : BitVec 32) (arg : BitVec 64) (user : UserWord)
  | ioctlRead (f : φ) (count : ℕ) (fault : Option ℕ)
  deriving DecidableEq

inductive Ret where
  /-- 0 of `test_ioctl_open` or `test_ioctl_close` -/
  | zero
  /-- `-ENOMEM` -/
  | enomem
  | reply (reply : Reply)
  deriving DecidableEq

structure Values (φ : Type) where
  /-- the value of each open file -/
  val : φ → Option Byte
  ioctlNum : BitVec 32

/-- After module load. -/
def Values.init {φ : Type} : Values φ := ⟨fun _ => none, 0⟩

variable {φ ι : Type}

section Object

variable [DecidableEq φ]

def Values.set (v : Values φ) (f : φ) (val : Option Byte) : Values φ :=
  { v with val := Function.update v.val f val }

/-- What a command does to the value `val` of its file, and what it returns. -/
def Values.command (v : Values φ) (f : φ) (val : Byte) (cmd : BitVec 32) (arg : BitVec 64)
    (user : UserWord) : Values φ × Reply :=
  if cmd = ioctlValset then
    user.data.elim (v, .efault []) fun data => (v.set f (data.setWidth 8), .ok)
  else if cmd = ioctlValget then (v, putReply user.writable (.data (val.setWidth 32)))
  else if cmd = ioctlValgetNum then (v, putReply user.writable (.num v.ioctlNum))
  else if cmd = ioctlValsetNum then ({ v with ioctlNum := arg.setWidth 32 }, .ok)
  else (v, .enotty)

/-- The object. -/
def Values.apply (v : Values φ) : Op φ → Option (Values φ × Ret)
  | .ioctlOpen f kmalloc =>
      match v.val f with
      | none => some (if kmalloc then (v.set f (some 0xFF), .zero) else (v, .enomem))
      | some _ => none
  | .ioctlClose f => (v.val f).map fun _ => (v.set f none, .zero)
  | .ioctl f cmd arg user => (v.val f).map fun val =>
      ((v.command f val cmd arg user).1, .reply (v.command f val cmd arg user).2)
  | .ioctlRead f count fault => (v.val f).map fun val => (v, .reply (readReply val count fault))

theorem apply_ioctl {v : Values φ} {f : φ} {val : Byte} (hval : v.val f = some val) (cmd : BitVec 32)
    (arg : BitVec 64) (user : UserWord) :
    v.apply (.ioctl f cmd arg user) =
      some ((v.command f val cmd arg user).1, .reply (v.command f val cmd arg user).2) := by
  rw [Values.apply, hval, Option.map_some]

end Object

/-! ### What processes see -/

/-- The return of process `i`, if its last step was one. -/
def returns (t : Option (State φ ι)) (i : ι) : List (Event (Option ι) (Op φ) Ret) :=
  match t.map fun t => t.pc i with
  | some (Pc.returned reply) => [.ret (some i) (.reply reply)]
  | _ => []

section History

variable [DecidableEq φ] [DecidableEq ι] [Fintype ι]

/-- The calls and returns of a step.  Files are opened and closed by `none`, the kernel. -/
def emit (s : State φ ι) (a : Act φ ι) : List (Event (Option ι) (Op φ) Ret) :=
  match a with
  | .ioctlOpen f kmalloc =>
      [.call none (.ioctlOpen f kmalloc), .ret none (if kmalloc then .zero else .enomem)]
  | .ioctlClose f => [.call none (.ioctlClose f), .ret none .zero]
  | .ioctl i f cmd arg user =>
      .call (some i) (.ioctl f cmd arg user) :: returns (ioctlStep s a) i
  | .ioctlRead i f count fault =>
      .call (some i) (.ioctlRead f count fault) :: returns (ioctlStep s a) i
  | .step i => returns (ioctlStep s a) i

/-- The calls and returns of a run. -/
def history (acts : List (Act φ ι)) : List (Event (Option ι) (Op φ) Ret) :=
  events ioctlStep emit State.init acts

end History

/-! ### The simulation -/

def State.values (s : State φ ι) : Values φ := ⟨s.val, s.ioctlNum⟩

/-- A call that has read its file is over for the object, and one that has not is still to come. -/
inductive Stage : Pc φ → Phase (Op φ) Ret → Prop where
  | idle : Stage .idle .idle
  | returned (reply : Reply) : Stage (.returned reply) .idle
  | valset (f : φ) (arg : BitVec 64) {user : UserWord} {data : BitVec 32}
      (hdata : user.data = some data) :
      Stage (.valset f data) (.called (.ioctl f ioctlValset arg user))
  | valget (f : φ) (arg : BitVec 64) (user : UserWord) :
      Stage (.valget f user.writable) (.called (.ioctl f ioctlValget arg user))
  | valgot (f : φ) (val : Byte) (set : BitVec 32) (writable : Bool) :
      Stage (.valgot f val set writable)
        (.done (.reply (putReply writable (.data (val.setWidth 32)))))
  | valgetNum (f : φ) (arg : BitVec 64) (user : UserWord) :
      Stage (.valgetNum f user.writable) (.called (.ioctl f ioctlValgetNum arg user))
  | valsetNum (f : φ) (arg : BitVec 64) (user : UserWord) :
      Stage (.valsetNum f arg) (.called (.ioctl f ioctlValsetNum arg user))
  | read (f : φ) (count : ℕ) (fault : Option ℕ) :
      Stage (.read f count fault) (.called (.ioctlRead f count fault))
  | gotten (f : φ) (val : Byte) (count : ℕ) (fault : Option ℕ) :
      Stage (.gotten f val count fault) (.done (.reply (readReply val count fault)))

structure Rel (s : State φ ι) (c : Conf (Values φ) (Op φ) Ret (Option ι)) : Prop where
  obj : c.obj = s.values
  kernel : c.phase none = .idle
  stage : ∀ i, Stage (s.pc i) (c.phase (some i))

section Step

variable {s t : State φ ι} {c d : Conf (Values φ) (Op φ) Ret (Option ι)} {i : ι} {f : φ} {l : Pc φ}

theorem returns_of_file (h : (t.pc i).file = some f) : returns (some t) i = [] := by
  rw [returns, Option.map_some]
  split
  · rename_i reply hreply
    rw [Option.some.inj hreply] at h
    cases h
  · rfl

theorem returns_of_eq {reply : Reply} (h : t.pc i = .returned reply) :
    returns (some t) i = [.ret (some i) (.reply reply)] := by
  rw [returns, Option.map_some, h]

/-- A process that is not in a call. -/
theorem Stage.idle_of_file {p : Phase (Op φ) Ret} (h : Stage l p) (hfile : l.file = none) :
    p = .idle := by
  cases h with
  | idle => rfl
  | returned reply => rfl
  | _ => cases hfile

variable [DecidableEq ι]

/-- A process goes on, and the object with it. -/
theorem Rel.move {p : Phase (Op φ) Ret} (h : Rel s c) (hl : Stage l p)
    (hpc : t.pc = Function.update s.pc i l) (hobj : d.obj = t.values)
    (hphase : d.phase = Function.update c.phase (some i) p) : Rel t d where
  obj := hobj
  kernel := by
    rw [hphase, Function.update_of_ne (Option.some_ne_none i).symm]
    exact h.kernel
  stage j := by
    rw [hpc, hphase]
    by_cases hj : j = i
    · rw [hj, Function.update_self, Function.update_self]
      exact hl
    · rw [Function.update_of_ne hj, Function.update_of_ne fun h => hj (Option.some.inj h)]
      exact h.stage j

theorem start_eq_some (h : start s i f l = some t) :
    (s.pc i).file = none ∧ (∃ val, s.values.val f = some val) ∧
      t = { s with pc := Function.update s.pc i l } := by
  rw [start] at h
  split at h
  · rename_i hfree
    exact ⟨hfree.1, Option.ne_none_iff_exists'.mp hfree.2, (Option.some.inj h).symm⟩
  · cases h

variable [DecidableEq φ]

/-- The switch of `test_ioctl_ioctl`: a command is to come, or the call ends with an error. -/
theorem ioctlStart_cases (f : φ) (cmd : BitVec 32) (arg : BitVec 64) (user : UserWord) :
    Stage (ioctlStart f cmd arg user) (.called (.ioctl f cmd arg user)) ∧
        (ioctlStart f cmd arg user).file = some f ∨
      ∃ reply, ioctlStart f cmd arg user = .returned reply ∧
        ∀ (v : Values φ) val, v.command f val cmd arg user = (v, reply) := by
  by_cases hset : cmd = ioctlValset
  · subst hset
    cases hdata : user.data with
    | none =>
        refine Or.inr ⟨.efault [], ?_, fun v val => ?_⟩
        · rw [ioctlStart, if_pos rfl, hdata]
          rfl
        · rw [Values.command, if_pos rfl, hdata]
          rfl
    | some data =>
        have hstart : ioctlStart f ioctlValset arg user = .valset f data := by
          rw [ioctlStart, if_pos rfl, hdata]
          rfl
        rw [hstart]
        exact Or.inl ⟨.valset f arg hdata, rfl⟩
  by_cases hget : cmd = ioctlValget
  · subst hget
    exact Or.inl ⟨.valget f arg user, rfl⟩
  by_cases hgetNum : cmd = ioctlValgetNum
  · subst hgetNum
    exact Or.inl ⟨.valgetNum f arg user, rfl⟩
  by_cases hsetNum : cmd = ioctlValsetNum
  · subst hsetNum
    exact Or.inl ⟨.valsetNum f arg user, rfl⟩
  · refine Or.inr ⟨.enotty, ?_, fun v val => ?_⟩
    · rw [ioctlStart, if_neg hset, if_neg hget, if_neg hgetNum, if_neg hsetNum]
    · rw [Values.command, if_neg hset, if_neg hget, if_neg hgetNum, if_neg hsetNum]

/-- The object follows a step that begins a call. -/
theorem Rel.begin (h : Rel s c) {op : Op φ} (hfile : (s.pc i).file = none)
    (hl : Stage l (.called op)) (hunder : l.file = some f)
    (hvalues : t.values = s.values) (hpc : t.pc = Function.update s.pc i l) :
    ∃ d, Behaves Values.apply c (.call (some i) op :: returns (some t) i) d ∧ Rel t d := by
  have hi : t.pc i = l := by rw [hpc, Function.update_self]
  rw [returns_of_file (hi ▸ hunder)]
  exact ⟨_, .call op ((h.stage i).idle_of_file hfile) (.nil _),
    h.move hl hpc (h.obj.trans hvalues.symm) rfl⟩

/-- The object does a call at the last of its steps. -/
theorem Rel.finish (h : Rel s c) {op : Op φ} {reply : Reply} (hcalled : c.phase (some i) = .called op)
    (happly : s.values.apply op = some (t.values, .reply reply))
    (hpc : t.pc = Function.update s.pc i (.returned reply)) :
    ∃ d, Behaves Values.apply c (returns (some t) i) d ∧ Rel t d := by
  have hi : t.pc i = .returned reply := by rw [hpc, Function.update_self]
  rw [returns_of_eq hi]
  rw [← h.obj] at happly
  exact ⟨_, Behaves.finish hcalled happly, h.move (.returned reply) hpc rfl rfl⟩

/-- The object does a call when the value of the file is read. -/
theorem Rel.effect (h : Rel s c) {op : Op φ} {r : Ret} (hcalled : c.phase (some i) = .called op)
    (happly : s.values.apply op = some (t.values, r)) (hl : Stage l (.done r))
    (hunder : l.file = some f) (hpc : t.pc = Function.update s.pc i l) :
    ∃ d, Behaves Values.apply c (returns (some t) i) d ∧ Rel t d := by
  have hi : t.pc i = l := by rw [hpc, Function.update_self]
  rw [returns_of_file (hi ▸ hunder)]
  rw [← h.obj] at happly
  exact ⟨_, .effect hcalled happly (.nil _), h.move hl hpc rfl rfl⟩

/-- A call that the object has done returns. -/
theorem Rel.return (h : Rel s c) {reply : Reply} (hdone : c.phase (some i) = .done (.reply reply))
    (hvalues : t.values = s.values) (hpc : t.pc = Function.update s.pc i (.returned reply)) :
    ∃ d, Behaves Values.apply c (returns (some t) i) d ∧ Rel t d := by
  have hi : t.pc i = .returned reply := by rw [hpc, Function.update_self]
  rw [returns_of_eq hi]
  exact ⟨_, .ret hdone (.nil _), h.move (.returned reply) hpc (h.obj.trans hvalues.symm) rfl⟩

/-- What the kernel does between the calls. -/
theorem Rel.open_close (h : Rel s c) {op : Op φ} {r : Ret}
    (happly : s.values.apply op = some (t.values, r)) (hpc : t.pc = s.pc) :
    ∃ d, Behaves Values.apply c [.call none op, .ret none r] d ∧ Rel t d := by
  rw [← h.obj] at happly
  exact ⟨_, .whole h.kernel happly, rfl, h.kernel, fun i => hpc ▸ h.stage i⟩

/-- The object follows the beginning of a call of `test_ioctl_ioctl`, which may be its end. -/
theorem Rel.ioctl (h : Rel s c) {cmd : BitVec 32} {arg : BitVec 64} {user : UserWord}
    (hstart : start s i f (ioctlStart f cmd arg user) = some t) :
    ∃ d, Behaves Values.apply c (.call (some i) (.ioctl f cmd arg user) :: returns (some t) i) d ∧
      Rel t d := by
  obtain ⟨hfile, ⟨val, hval⟩, rfl⟩ := start_eq_some hstart
  rcases ioctlStart_cases f cmd arg user with ⟨hstage, hunder⟩ | ⟨reply, hreply, hnothing⟩
  · exact h.begin hfile hstage hunder rfl rfl
  · have hidle := (h.stage i).idle_of_file hfile
    have happly := apply_ioctl hval cmd arg user
    rw [hnothing, ← h.obj] at happly
    have hphase : c.phase = Function.update c.phase (some i) .idle := by
      rw [← hidle, Function.update_eq_self]
    rw [hreply, returns_of_eq (Function.update_self _ _ _)]
    exact ⟨_, .whole hidle happly, h.move (.returned reply) rfl h.obj hphase⟩

variable [Fintype ι]

/-- The object follows a call that is under way. -/
theorem Rel.next (h : Rel s c) (hs : Inv s) (hstep : ioctlStep s (.step i) = some t) :
    ∃ d, Behaves Values.apply c (returns (some t) i) d ∧ Rel t d := by
  obtain ⟨p, hp⟩ : ∃ p, c.phase (some i) = p := ⟨_, rfl⟩
  obtain ⟨l, hl⟩ : ∃ l, s.pc i = l := ⟨_, rfl⟩
  have hstage : Stage l p := hl ▸ hp ▸ h.stage i
  have hopen : ∀ f, l.file = some f → ∃ val, s.values.val f = some val := fun f hf =>
    Option.ne_none_iff_exists'.mp (hs.isOpen i f (hl ▸ hf))
  simp only [ioctlStep, hl] at hstep
  cases hstage with
  | idle => cases hstep
  | returned reply => cases hstep
  | @valset f arg user data hdata =>
      obtain ⟨val, hval⟩ := hopen f rfl
      obtain rfl := Option.some.inj hstep
      refine h.finish hp ?_ rfl
      rw [apply_ioctl hval, Values.command, if_pos rfl, hdata]
      rfl
  | valget f arg user =>
      obtain ⟨val, hval, rfl⟩ := Option.map_eq_some_iff.mp hstep
      exact h.effect hp (apply_ioctl hval _ _ _) (.valgot f val _ _) rfl rfl
  | valgot f val set writable =>
      obtain rfl := Option.some.inj hstep
      exact h.return hp rfl rfl
  | valgetNum f arg user =>
      obtain ⟨val, hval⟩ := hopen f rfl
      obtain rfl := Option.some.inj hstep
      exact h.finish hp (apply_ioctl hval _ _ _) rfl
  | valsetNum f arg user =>
      obtain ⟨val, hval⟩ := hopen f rfl
      obtain rfl := Option.some.inj hstep
      exact h.finish hp (apply_ioctl hval _ _ _) rfl
  | read f count fault =>
      obtain ⟨val, hval, rfl⟩ := Option.map_eq_some_iff.mp hstep
      refine h.effect hp ?_ (.gotten f val count fault) rfl rfl
      rw [Values.apply, show s.values.val f = some val from hval, Option.map_some]
      rfl
  | gotten f val count fault =>
      obtain rfl := Option.some.inj hstep
      exact h.return hp rfl rfl

/-- **Step.**  The object can follow every step. -/
theorem Rel.step {a : Act φ ι} (h : Rel s c) (hs : Inv s) (hstep : ioctlStep s a = some t) :
    ∃ d, Behaves Values.apply c (emit s a) d ∧ Rel t d := by
  cases a with
  | ioctlOpen f kmalloc =>
      simp only [ioctlStep] at hstep
      split at hstep
      · rename_i hnone
        have hclosed : s.values.val f = none := hnone
        cases kmalloc with
        | true =>
            obtain rfl := Option.some.inj hstep
            exact h.open_close (by rw [Values.apply, hclosed]; rfl) rfl
        | false =>
            obtain rfl := Option.some.inj hstep
            exact h.open_close (by rw [Values.apply, hclosed]; rfl) rfl
      · cases hstep
  | ioctlClose f =>
      simp only [ioctlStep] at hstep
      split at hstep
      · rename_i hfree
        obtain ⟨val, hval⟩ := Option.ne_none_iff_exists'.mp hfree.1
        obtain rfl := Option.some.inj hstep
        refine h.open_close ?_ rfl
        rw [Values.apply, show s.values.val f = some val from hval]
        rfl
      · cases hstep
  | ioctl i f cmd arg user =>
      rw [emit, hstep]
      exact h.ioctl hstep
  | ioctlRead i f count fault =>
      rw [emit, hstep]
      obtain ⟨hfile, -, rfl⟩ := start_eq_some hstep
      exact h.begin hfile (.read f count fault) rfl rfl rfl
  | step i =>
      rw [emit, hstep]
      exact h.next hs hstep

end Step

variable [DecidableEq φ] [DecidableEq ι] [Fintype ι]

/-- **Atomic calls.**  In every interleaving of the calls of any number of processes on any number of
files, what the processes see is a history of the object: each call of `test_ioctl_ioctl` and
`test_ioctl_read` could have been done in one moment between its beginning and its return. -/
theorem calls_atomic (acts : List (Act φ ι)) {t : State φ ι}
    (h : run ioctlStep State.init acts = some t) :
    Linearizable Values.apply Values.init (history acts) :=
  linearizable_of_simulation (R := fun s c => Rel s c ∧ Inv s)
    (fun s l t c hc hstep => by
      obtain ⟨d, hbehaves, hd⟩ := hc.1.step hc.2 hstep
      exact ⟨d, hbehaves, hd, hc.2.step hstep⟩)
    ⟨⟨rfl, rfl, fun i => .idle⟩, inv_init⟩ h

/-- The value of a file is set between the steps of a call that gets it, and then a read comes to a byte
that cannot be written. -/
def setWhileGot : List (Act Unit Bool) :=
  [.ioctlOpen () true, .ioctl false () ioctlValset 0 ⟨some 7, true⟩,
    .ioctl true () ioctlValget 0 ⟨some 0, true⟩, .step true, .step false, .step true,
    .ioctlRead false () 3 (some 2), .step false, .step false]

theorem calls_atomic_setWhileGot : Linearizable Values.apply Values.init
    [.call none (.ioctlOpen () true), .ret none .zero,
      .call (some false) (.ioctl () ioctlValset 0 ⟨some 7, true⟩),
      .call (some true) (.ioctl () ioctlValget 0 ⟨some 0, true⟩), .ret (some false) (.reply .ok),
      .ret (some true) (.reply (.data 0xFF)), .call (some false) (.ioctlRead () 3 (some 2)),
      .ret (some false) (.reply (.efault [7, 7]))] :=
  calls_atomic setWhileGot (t := _) rfl

end Lkmpg.Ioctl
