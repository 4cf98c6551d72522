import Lkmpg.Vinput.Concurrent
import Lkmpg.Vinput.RegistryRuns

/-!
# Open files of the vinput device

`vinput_open` looks a vdevice up under `vinput_lock` and stores its address in `file->private_data`
after it has dropped the lock; nothing else ties the file to the vdevice.  `unexport_store`,
`vinput_unregister` and an `export_store` that fails free it whether or not a file is open.

A state is the interleaved machine of `Lkmpg.Vinput.Concurrent`, the files, and the calls of
`vinput_read` and `vinput_write` that are under way, each with the accesses to its vdevice that are
still to come.  Any of these takes its next step in any order.  `HandlesLive` says that every open
file still has the vdevice its `vinput_open` found, allocated and listed, and that the vdevice that a
`vinput_open` has in hand is still there; `SparesFiles` says of a step that it takes none of these
away.  `handles_live_iff`: a run keeps all handles live exactly when each of its steps spares the
files.
-/

namespace Lkmpg.VinputDriver

open Registry Transition

/-- An open file: the minor number of its inode and `file->private_data`. -/
structure File where
  minor : ℕ
  privateData : Ptr
  deriving DecidableEq, Repr

inductive FileState where
  | closed
  /-- in `vinput_open`, after the locked section of `vinput_get_vdevice_by_id`; `vinput` is its
  cursor -/
  | opening (minor : ℕ) (vinput : Option Ptr)
  | opened (file : File)
  deriving DecidableEq, Repr

/-- The vdevice that the file, or its `vinput_open`, has in hand. -/
def FileState.vinput : FileState → Option Ptr
  | .closed => none
  | .opening _ vinput => vinput
  | .opened file => some file.privateData

/-- An access of a call to its vdevice. -/
inductive Access where
  /-- `vinput->type` -/
  | type
  /-- `vinput->dev`, for a message -/
  | dev
  /-- the locked section of `ops->read` -/
  | readEntry
  /-- the locked section of `ops->send`, which stores `entry` -/
  | sendEntry (entry : ℤ)
  /-- `vinput->input` -/
  | input
  deriving DecidableEq, Repr

/-- How a call of `vinput_write` goes. -/
inductive WriteWay where
  /-- `-EINVAL` -/
  | tooLong
  /-- `-EFAULT` -/
  | fault
  /-- `ops->send`; `kstrtol` may complain -/
  | sent (kstrtolOk : Bool) (entry : ℤ)
  deriving DecidableEq, Repr

/-- `vinput_read` with `vinput_vkbd_read` -/
def readAccesses : List Access := [.type, .readEntry]

/-- `vinput_write` with `vinput_vkbd_send` -/
def writeAccesses : WriteWay → List Access
  | .tooLong => [.dev]
  | .fault => []
  | .sent kstrtolOk entry =>
      .type :: (if kstrtolOk then [] else [.dev]) ++ [.sendEntry entry, .dev, .input, .input]

/-- A call of `vinput_read` or `vinput_write` on file `f`. -/
structure FileCall (φ : Type) where
  f : φ
  vinput : Ptr
  todo : List Access

structure Driver (δ ι φ κ : Type) where
  world : World δ ι
  files : φ → FileState
  calls : κ → Option (FileCall φ)

/-- After module load, with no open file. -/
def Driver.init {δ ι φ κ : Type} : Driver δ ι φ κ :=
  ⟨World.init, fun _ => .closed, fun _ => none⟩

inductive FileAct (δ ι φ κ : Type) where
  /-- a step of the driver -/
  | world (a : Act δ ι)
  /-- `vinput_open` up to the end of the locked section -/
  | vinputOpen (f : φ) (minor : ℕ)
  /-- the rest of `vinput_open`; `ok` is how the second test comes out on freed memory -/
  | openEnd (f : φ) (ok : Bool)
  /-- `vinput = file->private_data` -/
  | vinputRead (c : κ) (f : φ)
  | vinputWrite (c : κ) (f : φ) (way : WriteWay)
  /-- the next access of a call -/
  | access (c : κ)
  | ret (c : κ)
  | vinputRelease (f : φ)

variable {δ ι φ κ : Type}

def Driver.registry (s : Driver δ ι φ κ) : Registry δ := s.world.registry

/-- `vinput->last_entry` -/
def Registry.entryOf (r : Registry δ) (p : Ptr) : Option ℤ := (r.heap p).map Vinput.lastEntry

/-- What an access leaves. -/
def Access.run (r : Registry δ) (p : Ptr) : Access → Registry δ
  | .sendEntry entry => r.modify p fun v => { v with lastEntry := entry }
  | _ => r

/-- The second test of `vinput_get_vdevice_by_id`, and the assignment to `file->private_data`. -/
def openResult (r : Registry δ) (ok : Bool) (minor : ℕ) : Option Ptr → FileState
  | none => .closed
  | some p =>
      if (r.heap p).elim ok fun v => v.id = minor then .opened ⟨minor, p⟩ else .closed

/-- A call is under way on the file, so the kernel does not call `vinput_release`. -/
def Driver.InUse (s : Driver δ ι φ κ) (f : φ) : Prop := ∃ c, (s.calls c).map FileCall.f = some f

section Step

variable [DecidableEq δ] [DecidableEq ι] [DecidableEq φ] [DecidableEq κ]

instance (s : Driver δ ι φ κ) (f : φ) [Fintype κ] : Decidable (s.InUse f) :=
  inferInstanceAs (Decidable (∃ c, (s.calls c).map FileCall.f = some f))

def Driver.setFile (s : Driver δ ι φ κ) (f : φ) (x : FileState) : Driver δ ι φ κ :=
  { s with files := Function.update s.files f x }

def Driver.setCall (s : Driver δ ι φ κ) (c : κ) (x : Option (FileCall φ)) : Driver δ ι φ κ :=
  { s with calls := Function.update s.calls c x }

/-- Process `c` begins a call on an open file. -/
def Driver.begin (s : Driver δ ι φ κ) (c : κ) (f : φ) (todo : List Access) :
    Option (Driver δ ι φ κ) :=
  match s.calls c, s.files f with
  | none, .opened file => some (s.setCall c (some ⟨f, file.privateData, todo⟩))
  | _, _ => none

variable [Fintype κ]

def fileStep (name : δ → List Byte) (s : Driver δ ι φ κ) :
    FileAct δ ι φ κ → Option (Driver δ ι φ κ)
  | .world a => (worldStep name s.world a).map fun w => { s with world := w }
  | .vinputOpen f minor =>
      match s.files f with
      | .closed => some (s.setFile f
          (.opening minor (s.registry.idCursor minor s.registry.vinputVdevices none)))
      | _ => none
  | .openEnd f ok =>
      match s.files f with
      | .opening minor vinput => some (s.setFile f (openResult s.registry ok minor vinput))
      | _ => none
  | .vinputRead c f => s.begin c f readAccesses
  | .vinputWrite c f way => s.begin c f (writeAccesses way)
  | .access c =>
      match s.calls c with
      | some ⟨f, vinput, a :: todo⟩ =>
          some ({ s with world := { s.world with registry := a.run s.registry vinput } }.setCall c
            (some ⟨f, vinput, todo⟩))
      | _ => none
  | .ret c =>
      match s.calls c with
      | some ⟨_, _, []⟩ => some (s.setCall c none)
      | _ => none
  | .vinputRelease f =>
      match s.files f with
      | .opened _ => if s.InUse f then none else some (s.setFile f .closed)
      | _ => none

/-- What a step does, by its kind. -/
inductive FileStep (name : δ → List Byte) (s : Driver δ ι φ κ) :
    FileAct δ ι φ κ → Driver δ ι φ κ → Prop where
  | world {a : Act δ ι} {w' : World δ ι} (hw : worldStep name s.world a = some w') :
      FileStep name s (.world a) { s with world := w' }
  | vinputOpen {f : φ} (minor : ℕ) (hf : s.files f = .closed) :
      FileStep name s (.vinputOpen f minor) (s.setFile f
        (.opening minor (s.registry.idCursor minor s.registry.vinputVdevices none)))
  | openEnd {f : φ} (ok : Bool) {minor : ℕ} {vinput : Option Ptr}
      (hf : s.files f = .opening minor vinput) :
      FileStep name s (.openEnd f ok) (s.setFile f (openResult s.registry ok minor vinput))
  | vinputRead {c : κ} {f : φ} {file : File} (hf : s.files f = .opened file) :
      FileStep name s (.vinputRead c f) (s.setCall c (some ⟨f, file.privateData, readAccesses⟩))
  | vinputWrite {c : κ} {f : φ} {file : File} (way : WriteWay) (hf : s.files f = .opened file) :
      FileStep name s (.vinputWrite c f way)
        (s.setCall c (some ⟨f, file.privateData, writeAccesses way⟩))
  | access {c : κ} {f : φ} {vinput : Ptr} {a : Access} {todo : List Access}
      (hc : s.calls c = some ⟨f, vinput, a :: todo⟩) :
      FileStep name s (.access c)
        ({ s with world := { s.world with registry := a.run s.registry vinput } }.setCall c
          (some ⟨f, vinput, todo⟩))
  | ret {c : κ} {f : φ} {vinput : Ptr} (hc : s.calls c = some ⟨f, vinput, []⟩) :
      FileStep name s (.ret c) (s.setCall c none)
  | vinputRelease {f : φ} {file : File} (hf : s.files f = .opened file) (hfree : ¬s.InUse f) :
      FileStep name s (.vinputRelease f) (s.setFile f .closed)

/-- **Inversion.** -/
theorem fileStep_eq_some {name : δ → List Byte} {s t : Driver δ ι φ κ} {a : FileAct δ ι φ κ}
    (h : fileStep name s a = some t) : FileStep name s a t := by
  cases a with
  | world a =>
      obtain ⟨w', hw, rfl⟩ := Option.map_eq_some_iff.mp h
      exact .world hw
  | vinputOpen f minor =>
      simp only [fileStep] at h
      split at h
      · cases h
        exact .vinputOpen minor ‹_›
      · cases h
  | openEnd f ok =>
      simp only [fileStep] at h
      split at h
      · cases h
        exact .openEnd ok ‹_›
      · cases h
  | vinputRead c f =>
      simp only [fileStep, Driver.begin] at h
      split at h
      · cases h
        exact .vinputRead ‹_›
      · cases h
  | vinputWrite c f way =>
      simp only [fileStep, Driver.begin] at h
      split at h
      · cases h
        exact .vinputWrite way ‹_›
      · cases h
  | access c =>
      simp only [fileStep] at h
      split at h
      · cases h
        exact .access ‹_›
      · cases h
  | ret c =>
      simp only [fileStep] at h
      split at h
      · cases h
        exact .ret ‹_›
      · cases h
  | vinputRelease f =>
      simp only [fileStep] at h
      split at h
      · split at h
        · cases h
        · cases h
          exact .vinputRelease ‹_› ‹_›
      · cases h

end Step

/-! ### The property and the condition -/

/-- The vdevice that the `vinput_open` of this file found is still allocated and listed. -/
def HandleLive (r : Registry δ) (file : File) : Prop :=
  file.privateData ∈ r.vinputVdevices ∧ r.idOf file.privateData = some file.minor

def FileLive (r : Registry δ) : FileState → Prop
  | .closed => True
  | .opening _ vinput => ∀ p, vinput = some p → p ∈ r.vinputVdevices ∧ r.heap p ≠ none
  | .opened file => HandleLive r file

def HandlesLive (s : Driver δ ι φ κ) : Prop := ∀ f, FileLive s.registry (s.files f)

/-- An access operates on the vdevice that the `vinput_open` of its file found. -/
def AccessLive (s : Driver δ ι φ κ) : FileAct δ ι φ κ → Prop
  | .access c => ∀ call, s.calls c = some call →
      ∃ file, s.files call.f = .opened file ∧ call.vinput = file.privateData ∧
        HandleLive s.registry file
  | _ => True

/-- The vdevice that the next step of a call takes out of the list or frees. -/
def Pc.drops : Pc δ → Option Ptr
  | .exportUnlist _ p => some p
  | .destroy p _ => some p
  | .kfree p _ => some p
  | _ => none

/-- The step takes no vdevice out of the list, and frees none, that an open file or a `vinput_open`
has in hand; and no `vinput_open` gets one in hand that has been freed. -/
def SparesFiles (s : Driver δ ι φ κ) : FileAct δ ι φ κ → Prop
  | .world (.step x _ _) => ∀ p, (s.world.pc x).drops = some p → ∀ f, (s.files f).vinput ≠ some p
  | .vinputOpen f minor => s.files f = .closed → ∀ p,
      s.registry.idCursor minor s.registry.vinputVdevices none = some p → s.registry.heap p ≠ none
  | _ => True

instance [DecidableEq δ] [Fintype φ] (s : Driver δ ι φ κ) : ∀ a, Decidable (SparesFiles s a)
  | .world (.step x _ _) =>
      inferInstanceAs (Decidable (∀ p ∈ (s.world.pc x).drops, ∀ f, (s.files f).vinput ≠ some p))
  | .vinputOpen f minor =>
      inferInstanceAs (Decidable (s.files f = .closed →
        ∀ p ∈ s.registry.idCursor minor s.registry.vinputVdevices none, s.registry.heap p ≠ none))
  | .world (.exportStore _ _) => isTrue trivial
  | .world (.unexportStore _ _) => isTrue trivial
  | .world (.register _) => isTrue trivial
  | .world (.unregister _) => isTrue trivial
  | .openEnd _ _ => isTrue trivial
  | .vinputRead _ _ => isTrue trivial
  | .vinputWrite _ _ _ => isTrue trivial
  | .access _ => isTrue trivial
  | .ret _ => isTrue trivial
  | .vinputRelease _ => isTrue trivial

/-! ### What a step does to the list and the heap -/

/-- The kinds of steps of a call. -/
inductive Touch (r : Registry δ) : Pc δ → Registry δ → Pc δ → Prop where
  | same {pc pc' : Pc δ} (hdrops : pc.drops = none) (hnext : ∀ d q, pc' ≠ .exportId d q) :
      Touch r pc r pc'
  /-- an assignment to a vdevice, not to its id or its last event -/
  | field {pc pc' : Pc δ} (p : Ptr) (f : Vinput δ → Vinput δ) (hid : ∀ v, (f v).id = v.id)
      (hentry : ∀ v, (f v).lastEntry = v.lastEntry) (hdrops : pc.drops = none)
      (hnext : ∀ d q, pc' ≠ .exportId d q) : Touch r pc (r.modify p f) pc'
  | alloc (d : δ) : Touch r (.exportAlloc d) r.kzalloc (.exportId d r.brk)
  | link (d : δ) (p : Ptr) (id : ℕ) : Touch r (.exportId d p) (r.link p id) (.exportInput d p)
  | unlist {pc pc' : Pc δ} {r' : Registry δ} (p : Ptr) (hdrops : pc.drops = some p)
      (hlist : r'.vinputVdevices = r.vinputVdevices.erase p) (hheap : r'.heap = r.heap)
      (hbrk : r'.brk = r.brk) (hnext : ∀ d q, pc' ≠ .exportId d q) : Touch r pc r' pc'
  | free {pc pc' : Pc δ} (p : Ptr) (hdrops : pc.drops = some p)
      (hnext : ∀ d q, pc' ≠ .exportId d q) : Touch r pc (r.kfree p) pc'

theorem After.pc_ne_exportId (k : After δ) (d : δ) (q : Ptr) : k.pc ≠ .exportId d q := by
  rcases k with e | (_ | ⟨e, n⟩) <;> exact nofun

/-- **Inversion.** -/
theorem touch_of_pcStep [DecidableEq δ] {r r' : Registry δ} {pc pc' : Pc δ} {ok : Bool}
    {junk : Option Ptr} (h : pcStep r ok junk pc = some (r', pc')) : Touch r pc r' pc' := by
  cases pc with
  | idle => cases h
  | exportAlloc d =>
      rw [pcStep] at h
      split at h
      · cases h
        exact .alloc d
      · cases h
        exact .same rfl nofun
  | exportId d p =>
      rw [pcStep] at h
      split at h
      · cases h
        exact .same rfl nofun
      · rename_i r₁ halloc
        cases h
        obtain ⟨-, rfl⟩ := allocId_ok halloc
        exact .link d p _
  | exportInput d p =>
      rw [pcStep] at h
      split at h
      · cases h
        exact .field p _ (fun _ => rfl) (fun _ => rfl) rfl nofun
      · cases h
        exact .same rfl nofun
  | exportUnlist d p =>
      cases h
      exact .unlist p rfl rfl rfl rfl nofun
  | exportType d p =>
      cases h
      exact .field p _ (fun _ => rfl) (fun _ => rfl) rfl nofun
  | exportRegister d p =>
      rw [pcStep] at h
      split at h
      · cases h
        exact .field p _ (fun _ => rfl) (fun _ => rfl) rfl nofun
      · cases h
        exact .same rfl nofun
  | exportInit d p =>
      rw [pcStep] at h
      split at h
      · cases h
        exact .field p _ (fun _ => rfl) (fun _ => rfl) rfl nofun
      · cases h
        exact .same rfl nofun
  | exportFreeInput d p b =>
      cases h
      cases b with
      | true => exact .field p _ (fun _ => rfl) (fun _ => rfl) rfl nofun
      | false => exact .field p _ (fun _ => rfl) (fun _ => rfl) rfl nofun
  | exportUnregister d p =>
      cases h
      exact .field p _ (fun _ => rfl) (fun _ => rfl) rfl nofun
  | teardownInput p k =>
      cases h
      exact .field p _ (fun _ => rfl) (fun _ => rfl) rfl nofun
  | teardownDevice p k =>
      cases h
      exact .field p _ (fun _ => rfl) (fun _ => rfl) rfl nofun
  | destroy p k =>
      cases h
      exact .unlist p rfl rfl rfl rfl nofun
  | kfree p k =>
      cases h
      exact .free p rfl k.pc_ne_exportId
  | walkHead d =>
      cases h
      exact .same rfl nofun
  | walkNext d c =>
      cases c with
      | none =>
          cases h
          exact .same rfl nofun
      | some p =>
          cases h
          exact .same rfl nofun
  | walkTest d p n =>
      rw [pcStep] at h
      split at h
      · cases h
        exact .same rfl nofun
      · cases h
        exact .same rfl nofun

theorem entryOf_modify (r : Registry δ) (p q : Ptr) {f : Vinput δ → Vinput δ}
    (hf : ∀ v, (f v).lastEntry = v.lastEntry) : (r.modify p f).entryOf q = r.entryOf q := by
  by_cases h : q = p
  · subst h
    rw [Registry.entryOf, Registry.entryOf, heap_modify_self]
    cases r.heap q with
    | none => rfl
    | some v => exact congrArg some (hf v)
  · rw [Registry.entryOf, Registry.entryOf, heap_modify_of_ne r h]

theorem same_of_heap {r r' : Registry δ} {q : Ptr} (h : r'.heap q = r.heap q) :
    r'.idOf q = r.idOf q ∧ r'.entryOf q = r.entryOf q := by
  refine ⟨idOf_eq_of_heap h, ?_⟩
  rw [Registry.entryOf, Registry.entryOf, h]

/-- A vdevice is put into the list by the call that has allocated it, and once. -/
structure LinksFresh (w : World δ ι) : Prop where
  nodup : w.registry.vinputVdevices.Nodup
  old : ∀ p ∈ w.registry.vinputVdevices, p < w.registry.brk
  unlisted : ∀ x d p, w.pc x = .exportId d p →
    p ∉ w.registry.vinputVdevices ∧ p < w.registry.brk
  alone : ∀ x y d e p, w.pc x = .exportId d p → w.pc y = .exportId e p → x = y

theorem linksFresh_init : LinksFresh (World.init : World δ ι) :=
  ⟨List.nodup_nil, nofun, nofun, nofun⟩

section World

variable {w w' : World δ ι} {x : Proc δ ι} {r' : Registry δ} {pc' : Pc δ} {torn' : List Ptr}

/-- **Frame.**  A listed vdevice that the step does not drop stays listed, and allocated with its id
and its last event. -/
theorem LinksFresh.stays (hw : LinksFresh w) (h : Touch w.registry (w.pc x) r' pc') {q : Ptr}
    (hq : q ∈ w.registry.vinputVdevices) (hspared : (w.pc x).drops ≠ some q) :
    q ∈ r'.vinputVdevices ∧ r'.idOf q = w.registry.idOf q ∧
      r'.entryOf q = w.registry.entryOf q := by
  obtain ⟨pc, hpc⟩ : ∃ pc, w.pc x = pc := ⟨_, rfl⟩
  rw [hpc] at h hspared
  cases h with
  | same hdrops hnext => exact ⟨hq, rfl, rfl⟩
  | field p f hid hentry hdrops hnext =>
      exact ⟨hq, idOf_modify _ p q hid, entryOf_modify _ p q hentry⟩
  | alloc d => exact ⟨hq, same_of_heap (heap_kzalloc_of_ne (hw.old q hq).ne)⟩
  | link d p id =>
      have hne : q ≠ p := fun hqp => (hw.unlisted x d p hpc).1 (hqp ▸ hq)
      exact ⟨List.mem_cons_of_mem _ hq, same_of_heap (heap_link_of_ne hne)⟩
  | unlist p hdrops hlist hheap hbrk hnext =>
      have hne : q ≠ p := fun hqp => hspared (hqp ▸ hdrops)
      rw [hlist]
      exact ⟨(List.mem_erase_of_ne hne).mpr hq, same_of_heap (congrFun hheap q)⟩
  | free p hdrops hnext =>
      have hne : q ≠ p := fun hqp => hspared (hqp ▸ hdrops)
      exact ⟨hq, same_of_heap (heap_kfree_of_ne hne)⟩

/-- What a step drops has left the list, or is free. -/
theorem LinksFresh.gone (hw : LinksFresh w) (h : Touch w.registry (w.pc x) r' pc') {q : Ptr}
    (hq : (w.pc x).drops = some q) : q ∉ r'.vinputVdevices ∨ r'.heap q = none := by
  obtain ⟨pc, hpc⟩ : ∃ pc, w.pc x = pc := ⟨_, rfl⟩
  rw [hpc] at h hq
  cases h with
  | same hdrops hnext => cases hdrops.symm.trans hq
  | field p f hid hentry hdrops hnext => cases hdrops.symm.trans hq
  | alloc d => cases hq
  | link d p id => cases hq
  | unlist p hdrops hlist hheap hbrk hnext =>
      obtain rfl := Option.some.inj (hdrops.symm.trans hq)
      rw [hlist]
      exact Or.inl hw.nodup.not_mem_erase
  | free p hdrops hnext =>
      obtain rfl := Option.some.inj (hdrops.symm.trans hq)
      exact Or.inr heap_kfree_self

variable [DecidableEq δ] [DecidableEq ι] {name : δ → List Byte}

/-- A step to a place that is not before the `list_add`. -/
theorem LinksFresh.move (hw : LinksFresh w) (hnodup : r'.vinputVdevices.Nodup)
    (hold : ∀ p ∈ r'.vinputVdevices, p < r'.brk) (hbrk : w.registry.brk ≤ r'.brk)
    (hnew : ∀ p ∈ r'.vinputVdevices, p ∈ w.registry.vinputVdevices ∨ ∃ d, w.pc x = .exportId d p)
    (hnext : ∀ d q, pc' ≠ .exportId d q) :
    LinksFresh (⟨r', Function.update w.pc x pc', torn'⟩ : World δ ι) := by
  have hother : ∀ y d p, Function.update w.pc x pc' y = .exportId d p →
      y ≠ x ∧ w.pc y = .exportId d p := by
    intro y d p hy
    by_cases hyx : y = x
    · rw [hyx, Function.update_self] at hy
      exact absurd hy (hnext d p)
    · rw [Function.update_of_ne hyx] at hy
      exact ⟨hyx, hy⟩
  refine ⟨hnodup, hold, fun y d p hy => ?_, fun y z d e p hy hz => ?_⟩
  · obtain ⟨hyx, hy⟩ := hother y d p hy
    obtain ⟨hout, hlt⟩ := hw.unlisted y d p hy
    refine ⟨fun hp => ?_, hlt.trans_le hbrk⟩
    rcases hnew p hp with hin | ⟨e, hx⟩
    · exact hout hin
    · exact hyx (hw.alone y x d e p hy hx)
  · exact hw.alone y z d e p (hother y d p hy).2 (hother z e p hz).2

theorem LinksFresh.touch (hw : LinksFresh w) (h : Touch w.registry (w.pc x) r' pc') :
    LinksFresh (⟨r', Function.update w.pc x pc', torn'⟩ : World δ ι) := by
  obtain ⟨pc, hpc⟩ : ∃ pc, w.pc x = pc := ⟨_, rfl⟩
  rw [hpc] at h
  cases h with
  | same hdrops hnext => exact hw.move hw.nodup hw.old le_rfl (fun _ => Or.inl) hnext
  | field p f hid hentry hdrops hnext => exact hw.move hw.nodup hw.old le_rfl (fun _ => Or.inl) hnext
  | alloc d =>
      have hout : w.registry.brk ∉ w.registry.vinputVdevices := fun hp => lt_irrefl _ (hw.old _ hp)
      have hown : ∀ y e p, Function.update w.pc x (.exportId d w.registry.brk) y = .exportId e p →
          y = x ∧ p = w.registry.brk ∨ y ≠ x ∧ w.pc y = .exportId e p := by
        intro y e p hy
        by_cases hyx : y = x
        · rw [hyx, Function.update_self] at hy
          exact Or.inl ⟨hyx, (Pc.exportId.inj hy).2.symm⟩
        · rw [Function.update_of_ne hyx] at hy
          exact Or.inr ⟨hyx, hy⟩
      refine ⟨hw.nodup, fun p hp => Nat.lt_succ_of_lt (hw.old p hp), fun y e p hy => ?_,
        fun y z e g p hy hz => ?_⟩
      · rcases hown y e p hy with ⟨-, rfl⟩ | ⟨-, hy⟩
        · exact ⟨hout, Nat.lt_succ_self _⟩
        · exact ⟨(hw.unlisted y e p hy).1, Nat.lt_succ_of_lt (hw.unlisted y e p hy).2⟩
      · -- the new vdevice is in nobody else's hands
        rcases hown y e p hy with ⟨hyx, hp⟩ | ⟨-, hy'⟩ <;>
          rcases hown z g p hz with ⟨hzx, hp'⟩ | ⟨-, hz'⟩
        · rw [hyx, hzx]
        · exact absurd (hw.unlisted z g p hz').2 (hp ▸ lt_irrefl _)
        · exact absurd (hw.unlisted y e p hy').2 (hp' ▸ lt_irrefl _)
        · exact hw.alone y z e g p hy' hz'
  | link d p id =>
      obtain ⟨hout, hlt⟩ := hw.unlisted x d p hpc
      refine hw.move (List.nodup_cons.mpr ⟨hout, hw.nodup⟩) (fun q hq => ?_) le_rfl (fun q hq => ?_)
        nofun
      · rcases List.mem_cons.mp hq with rfl | hq
        · exact hlt
        · exact hw.old q hq
      · rcases List.mem_cons.mp hq with rfl | hq
        · exact Or.inr ⟨d, hpc⟩
        · exact Or.inl hq
  | unlist p hdrops hlist hheap hbrk hnext =>
      refine hw.move ?_ ?_ hbrk.ge ?_ hnext
      · rw [hlist]
        exact hw.nodup.erase p
      · rw [hlist, hbrk]
        exact fun q hq => hw.old q (List.mem_of_mem_erase hq)
      · rw [hlist]
        exact fun q hq => Or.inl (List.mem_of_mem_erase hq)
  | free p hdrops hnext => exact hw.move hw.nodup hw.old le_rfl (fun _ => Or.inl) hnext

theorem LinksFresh.of_worldStep {a : Act δ ι} (hw : LinksFresh w) (h : worldStep name w a = some w') :
    LinksFresh w' := by
  cases a with
  | exportStore i buf =>
      obtain ⟨-, rfl | ⟨d, -, rfl⟩⟩ := worldStep_exportStore h
      · exact hw
      · exact hw.move hw.nodup hw.old le_rfl (fun _ => Or.inl) nofun
  | unexportStore i buf =>
      obtain ⟨-, rfl | ⟨p, rfl⟩⟩ := worldStep_unexportStore h
      · exact hw
      · exact hw.move hw.nodup hw.old le_rfl (fun _ => Or.inl) nofun
  | register d =>
      obtain ⟨-, rfl⟩ := worldStep_register h
      exact ⟨hw.nodup, hw.old, hw.unlisted, hw.alone⟩
  | unregister d =>
      obtain ⟨-, rfl⟩ := worldStep_unregister h
      exact hw.move hw.nodup hw.old le_rfl (fun _ => Or.inl) nofun
  | step x ok junk =>
      obtain ⟨⟨r', pc'⟩, hnext, rfl⟩ := Option.map_eq_some_iff.mp h
      exact hw.touch (touch_of_pcStep hnext)

/-- The frame rule for any step of the driver. -/
theorem LinksFresh.stays_worldStep {a : Act δ ι} (hw : LinksFresh w)
    (h : worldStep name w a = some w') {q : Ptr} (hq : q ∈ w.registry.vinputVdevices)
    (hspared : ∀ x ok junk, a = .step x ok junk → (w.pc x).drops ≠ some q) :
    q ∈ w'.registry.vinputVdevices ∧ w'.registry.idOf q = w.registry.idOf q ∧
      w'.registry.entryOf q = w.registry.entryOf q := by
  cases a with
  | exportStore i buf =>
      obtain ⟨-, rfl | ⟨d, -, rfl⟩⟩ := worldStep_exportStore h
      · exact ⟨hq, rfl, rfl⟩
      · exact ⟨hq, rfl, rfl⟩
  | unexportStore i buf =>
      obtain ⟨-, rfl | ⟨p, rfl⟩⟩ := worldStep_unexportStore h
      · exact ⟨hq, rfl, rfl⟩
      · exact ⟨hq, rfl, rfl⟩
  | register d =>
      obtain ⟨-, rfl⟩ := worldStep_register h
      exact ⟨hq, rfl, rfl⟩
  | unregister d =>
      obtain ⟨-, rfl⟩ := worldStep_unregister h
      exact ⟨hq, rfl, rfl⟩
  | step x ok junk =>
      obtain ⟨⟨r', pc'⟩, hnext, rfl⟩ := Option.map_eq_some_iff.mp h
      exact hw.stays (touch_of_pcStep hnext) hq (hspared x ok junk rfl)

end World

/-! ### Files -/

section Files

variable {s t : Driver δ ι φ κ} {f : φ} {c : κ}

/-- What a run that spares the files keeps. -/
structure FilesOk (s : Driver δ ι φ κ) : Prop where
  fresh : LinksFresh s.world
  live : HandlesLive s
  calls : ∀ c call, s.calls c = some call →
    ∃ file, s.files call.f = .opened file ∧ call.vinput = file.privateData

theorem filesOk_init : FilesOk (Driver.init : Driver δ ι φ κ) :=
  ⟨linksFresh_init, fun _ => trivial, nofun⟩

theorem SparesFiles.ne {a : Act δ ι} (h : SparesFiles s (.world a : FileAct δ ι φ κ)) {p : Ptr}
    (hp : (s.files f).vinput = some p) :
    ∀ x ok junk, a = .step x ok junk → (s.world.pc x).drops ≠ some p := by
  rintro x ok junk rfl hdrops
  exact h p hdrops f hp

/-- The handles see of the registry only the list and the ids. -/
theorem FileLive.congr {r r' : Registry δ} {x : FileState} (h : FileLive r x)
    (hstays : ∀ p, x.vinput = some p → p ∈ r.vinputVdevices →
      p ∈ r'.vinputVdevices ∧ r'.idOf p = r.idOf p) : FileLive r' x := by
  cases x with
  | closed => trivial
  | opening minor vinput =>
      intro p hp
      obtain ⟨hmem, halloc⟩ := h p hp
      obtain ⟨hmem', hid⟩ := hstays p hp hmem
      refine ⟨hmem', fun hnone => halloc ?_⟩
      rw [idOf, idOf, hnone] at hid
      exact Option.map_eq_none_iff.mp hid.symm
  | opened file =>
      obtain ⟨hmem', hid⟩ := hstays _ rfl h.1
      exact ⟨hmem', hid.trans h.2⟩

/-- The vdevice in hand is listed and allocated. -/
theorem FileLive.mem {r : Registry δ} {x : FileState} {p : Ptr} (h : FileLive r x)
    (hp : x.vinput = some p) : p ∈ r.vinputVdevices ∧ r.heap p ≠ none := by
  cases x with
  | closed => cases hp
  | opening minor vinput => exact h p hp
  | opened file =>
      obtain rfl := Option.some.inj hp
      refine ⟨h.1, fun hnone => ?_⟩
      have hid := h.2
      rw [idOf, hnone] at hid
      cases hid

/-- A `vinput_open` ends with the vdevice that has the minor, or with none. -/
theorem FileLive.openEnd {r : Registry δ} {minor : ℕ} {vinput : Option Ptr} {ok : Bool}
    (h : FileLive r (.opening minor vinput)) : FileLive r (openResult r ok minor vinput) := by
  cases vinput with
  | none => trivial
  | some p =>
      obtain ⟨hmem, halloc⟩ := h p rfl
      obtain ⟨v, hv⟩ := Option.ne_none_iff_exists'.mp halloc
      rw [openResult, hv]
      split
      · rename_i hid
        refine ⟨hmem, ?_⟩
        rw [idOf, hv, ← of_decide_eq_true hid]
        rfl
      · trivial

/-- One file changes. -/
theorem HandlesLive.setFile [DecidableEq φ] (hs : HandlesLive s) {x : FileState}
    (hx : FileLive s.registry x) : HandlesLive (s.setFile f x) :=
  (Function.forall_update_iff s.files fun _ x => FileLive s.registry x).mpr ⟨hx, fun g _ => hs g⟩

/-- The calls under way are on files that stay open. -/
theorem FilesOk.calls_setFile [DecidableEq φ] (hs : FilesOk s) {x : FileState}
    (hf : ∀ c call, s.calls c = some call → call.f ≠ f) (c : κ) (call : FileCall φ)
    (hc : s.calls c = some call) :
    ∃ file, (s.setFile f x).files call.f = .opened file ∧ call.vinput = file.privateData := by
  obtain ⟨file, hfile, hsame⟩ := hs.calls c call hc
  exact ⟨file, (Function.update_of_ne (hf c call hc) _ _).trans hfile, hsame⟩

/-- A file that is not open is in no call. -/
theorem FilesOk.call_ne (hs : FilesOk s) (hf : ∀ file, s.files f ≠ .opened file) (c : κ)
    (call : FileCall φ) (hc : s.calls c = some call) : call.f ≠ f := by
  rintro rfl
  obtain ⟨file, hfile, -⟩ := hs.calls c call hc
  exact hf file hfile

@[simp] theorem Access.vinputVdevices_run (r : Registry δ) (p : Ptr) (a : Access) :
    (a.run r p).vinputVdevices = r.vinputVdevices := by
  cases a <;> rfl

@[simp] theorem Access.brk_run (r : Registry δ) (p : Ptr) (a : Access) : (a.run r p).brk = r.brk := by
  cases a <;> rfl

@[simp] theorem Access.idOf_run (r : Registry δ) (p q : Ptr) (a : Access) :
    (a.run r p).idOf q = r.idOf q := by
  cases a with
  | sendEntry entry => exact idOf_modify r p q fun _ => rfl
  | _ => rfl

theorem LinksFresh.access {w : World δ ι} (hw : LinksFresh w) (q : Ptr) (a : Access) :
    LinksFresh { w with registry := a.run w.registry q } where
  nodup := (a.vinputVdevices_run w.registry q).symm ▸ hw.nodup
  old := by
    show ∀ p ∈ (a.run w.registry q).vinputVdevices, p < (a.run w.registry q).brk
    rw [a.vinputVdevices_run, a.brk_run]
    exact hw.old
  unlisted := by
    show ∀ x d p, w.pc x = .exportId d p →
      p ∉ (a.run w.registry q).vinputVdevices ∧ p < (a.run w.registry q).brk
    rw [a.vinputVdevices_run, a.brk_run]
    exact hw.unlisted
  alone := hw.alone

section Calls

variable [DecidableEq κ]

/-- A call on an open file begins with the vdevice of the file. -/
theorem FilesOk.begin (hs : FilesOk s) {file : File} (hf : s.files f = .opened file)
    (todo : List Access) : FilesOk (s.setCall c (some ⟨f, file.privateData, todo⟩)) := by
  refine ⟨hs.fresh, hs.live, ?_⟩
  exact (Function.forall_update_iff s.calls fun _ call? => ∀ call, call? = some call →
    ∃ file, s.files call.f = .opened file ∧ call.vinput = file.privateData).mpr
      ⟨fun call hcall => Option.some.inj hcall ▸ ⟨file, hf, rfl⟩, fun d _ => hs.calls d⟩

/-- A call goes on. -/
theorem FilesOk.calls_setCall (hs : FilesOk s) {call : FileCall φ} (hc : s.calls c = some call)
    {call' : Option (FileCall φ)}
    (hsame : ∀ next, call' = some next → next.f = call.f ∧ next.vinput = call.vinput) :
    ∀ d next, (s.setCall c call').calls d = some next →
      ∃ file, s.files next.f = .opened file ∧ next.vinput = file.privateData := by
  refine (Function.forall_update_iff s.calls fun _ call? => ∀ next, call? = some next →
    ∃ file, s.files next.f = .opened file ∧ next.vinput = file.privateData).mpr
      ⟨fun next hnext => ?_, fun d _ => hs.calls d⟩
  obtain ⟨hf, hv⟩ := hsame next hnext
  rw [hf, hv]
  exact hs.calls c call hc

end Calls

variable [DecidableEq δ] [DecidableEq ι] {name : δ → List Byte}

theorem FilesOk.world (hs : FilesOk s) {a : Act δ ι} {w' : World δ ι}
    (hspares : SparesFiles s (.world a : FileAct δ ι φ κ)) (h : worldStep name s.world a = some w') :
    FilesOk { s with world := w' } := by
  refine ⟨hs.fresh.of_worldStep h, fun f => (hs.live f).congr fun p hp hmem => ?_, hs.calls⟩
  obtain ⟨hmem', hid, -⟩ := hs.fresh.stays_worldStep h hmem (hspares.ne hp)
  exact ⟨hmem', hid⟩

variable [DecidableEq φ] [DecidableEq κ] [Fintype κ]

/-- **Step.**  A step that spares the files keeps their handles live. -/
theorem FilesOk.step {a : FileAct δ ι φ κ} (hs : FilesOk s) (hspares : SparesFiles s a)
    (h : fileStep name s a = some t) : FilesOk t := by
  cases fileStep_eq_some h with
  | world hw => exact hs.world hspares hw
  | vinputOpen minor hf =>
      refine ⟨hs.fresh, hs.live.setFile fun p hp => ⟨?_, hspares hf p hp⟩, hs.calls_setFile ?_⟩
      · exact (mem_of_idCursor hp).resolve_right nofun
      · exact hs.call_ne fun file hfile => FileState.noConfusion (hf.symm.trans hfile)
  | @openEnd f ok minor vinput hf =>
      have hlive := hs.live f
      rw [hf] at hlive
      refine ⟨hs.fresh, hs.live.setFile hlive.openEnd, hs.calls_setFile ?_⟩
      exact hs.call_ne fun file hfile => FileState.noConfusion (hf.symm.trans hfile)
  | vinputRead hf => exact hs.begin hf readAccesses
  | vinputWrite way hf => exact hs.begin hf (writeAccesses way)
  | @access c f vinput a todo hc =>
      refine ⟨hs.fresh.access vinput a, fun g => (hs.live g).congr fun p _ hmem => ?_,
        hs.calls_setCall hc fun next hnext => Option.some.inj hnext ▸ ⟨rfl, rfl⟩⟩
      exact ⟨(a.vinputVdevices_run s.registry vinput).symm ▸ hmem, a.idOf_run s.registry vinput p⟩
  | ret hc => exact ⟨hs.fresh, hs.live, hs.calls_setCall hc nofun⟩
  | @vinputRelease f file hf hfree =>
      refine ⟨hs.fresh, hs.live.setFile trivial, hs.calls_setFile fun c call hc hcall => hfree ?_⟩
      exact ⟨c, by rw [hc, Option.map_some, hcall]⟩

/-- **Converse of the step.**  If the handles are live after it, the step has spared the files. -/
theorem FilesOk.spares {a : FileAct δ ι φ κ} (hs : FilesOk s) (h : fileStep name s a = some t)
    (ht : HandlesLive t) : SparesFiles s a := by
  cases a with
  | world a =>
      cases a with
      | step x ok junk =>
          intro p hdrops f hp
          obtain ⟨w', hw', rfl⟩ := Option.map_eq_some_iff.mp h
          obtain ⟨⟨r', pc'⟩, hnext, rfl⟩ := Option.map_eq_some_iff.mp hw'
          obtain ⟨hmem, halloc⟩ := (ht f).mem hp
          rcases hs.fresh.gone (touch_of_pcStep hnext) hdrops with hgone | hgone
          · exact hgone hmem
          · exact halloc hgone
      | _ => trivial
  | vinputOpen f minor =>
      intro hf p hp
      simp only [fileStep, hf] at h
      obtain rfl := Option.some.inj h
      have hlive := ht f
      rw [show (s.setFile f _).files f = _ from Function.update_self _ _ _] at hlive
      exact (hlive p hp).2
  | _ => trivial

/-- A step that is not enabled spares the files. -/
theorem sparesFiles_of_none {a : FileAct δ ι φ κ} (h : fileStep name s a = none) :
    SparesFiles s a := by
  cases a with
  | world a =>
      cases a with
      | step x ok junk =>
          intro p hdrops f hp
          have hstep := Option.map_eq_none_iff.mp (Option.map_eq_none_iff.mp h)
          cases hpc : s.world.pc x with
          | exportUnlist d q =>
              rw [hpc] at hstep
              cases hstep
          | destroy q k =>
              rw [hpc] at hstep
              cases hstep
          | kfree q k =>
              rw [hpc] at hstep
              cases hstep
          | _ =>
              rw [hpc] at hdrops
              cases hdrops
      | _ => trivial
  | vinputOpen f minor =>
      intro hf
      simp only [fileStep, hf] at h
      cases h
  | _ => trivial

/-- **Handles stay live exactly in the runs that spare the files.**  In every interleaving of the
steps of any number of calls on any number of files, no step takes away a vdevice that an open file
or a `vinput_open` has in hand if and only if all of them are live in every state; and then every
access of a `vinput_read` or `vinput_write` is to the vdevice that the `vinput_open` of its file
found. -/
theorem handles_live_iff (acts : List (FileAct δ ι φ κ)) :
    (Along (fileStep name) SparesFiles Driver.init acts →
      Along (fileStep name) AccessLive Driver.init acts) ∧
    (Throughout (fileStep name) HandlesLive Driver.init acts ↔
      Along (fileStep name) SparesFiles Driver.init acts) := by
  have hstep : ∀ (s : Driver δ ι φ κ) a t, FilesOk s → SparesFiles s a →
      fileStep name s a = some t → FilesOk t := fun _ _ _ hs hspares h => hs.step hspares h
  refine ⟨fun hspares => ?_, ?_⟩
  · refine along_of_invariant hstep (fun s a hs _ => ?_) filesOk_init hspares
    cases a with
    | access c =>
        intro call hc
        obtain ⟨file, hf, hsame⟩ := hs.calls c call hc
        have hlive := hs.live call.f
        rw [hf] at hlive
        exact ⟨file, hf, hsame, hlive⟩
    | _ => trivial
  · exact throughout_iff_along (fun s a => sparesFiles_of_none)
      (fun s a t hs _ hspares h => hs.step hspares h)
      (fun s a t hs _ h => ⟨fun hspares => (hs.step hspares h).live, hs.spares h⟩)
      filesOk_init filesOk_init.live

end Files

/-- One step after the other of a process, with nothing refused. -/
def steps {φ κ : Type} (x : Proc ℕ ℕ) (n : ℕ) : List (FileAct ℕ ℕ φ κ) :=
  List.replicate n (.world (.step x true none))

/-- One more keyboard. -/
def exported {φ κ : Type} : List (FileAct ℕ ℕ φ κ) :=
  .world (.exportStore 0 vinputKbd) :: steps (.task 0) 6

/-- The keyboard `0` is gone. -/
def unexported {φ κ : Type} : List (FileAct ℕ ℕ φ κ) :=
  .world (.unexportStore 0 [0x30]) :: steps (.task 0) 4

/-- A keyboard is exported, opened and read, and unexported when the file has been closed; then
another one with the same id is opened. -/
def politeActs : List (FileAct ℕ ℕ Unit Unit) :=
  [[.world (.register 7)], exported, [.vinputOpen () 0, .openEnd () true, .vinputRead () (),
    .access (), .access (), .ret (), .vinputRelease ()], unexported, exported,
    [.vinputOpen () 0, .openEnd () true]].flatten

theorem handles_live_iff_polite :
    ∃ s, run (fileStep fun _ => vinputKbd) Driver.init politeActs = some s ∧
      s.files () = .opened ⟨0, 1⟩ ∧ HandlesLive s := by
  have hfile : (run (fileStep fun _ => vinputKbd) (Driver.init : Driver ℕ ℕ Unit Unit)
      politeActs).map (fun s => s.files ()) = some (.opened ⟨0, 1⟩) := by
    decide +kernel
  obtain ⟨s, hrun, hs⟩ := Option.map_eq_some_iff.mp hfile
  exact ⟨s, hrun, hs, ((handles_live_iff politeActs).2.mpr (by decide +kernel)).last hrun⟩

/-- A keyboard is exported and opened; the file is still open when the keyboard is unexported and
another one gets the same id. -/
def staleActs : List (FileAct ℕ ℕ ℕ Unit) :=
  [[.world (.register 7)], exported, [.vinputOpen 0 0, .openEnd 0 true], unexported, exported,
    [.vinputRead () 0]].flatten

/-- **A read of a freed vdevice.**  Some runs read or write through a handle that is not live. -/
theorem not_all_accesses_live :
    ¬∀ acts : List (FileAct ℕ ℕ ℕ Unit),
      Along (fileStep fun _ => vinputKbd) AccessLive Driver.init acts := by
  intro h
  have hrun : ∃ t, run (fileStep fun _ => vinputKbd) (Driver.init : Driver ℕ ℕ ℕ Unit) staleActs =
      some t ∧ t.calls () = some ⟨0, 0, readAccesses⟩ ∧ t.registry.vinputVdevices = [1] :=
    ⟨_, rfl, rfl, rfl⟩
  obtain ⟨t, hrun, hcall, hlist⟩ := hrun
  obtain ⟨file, -, hsame, hlive⟩ := (h (staleActs ++ [.access ()])).last hrun _ hcall
  rw [HandleLive, hlist, ← hsame] at hlive
  exact absurd hlive.1 (by decide)

end Lkmpg.VinputDriver
