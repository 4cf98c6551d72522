import Lkmpg.Lib.ListCursor
import Lkmpg.Lib.Transition
import Lkmpg.Vinput.State

/-!
# The vinput driver under concurrency

Every call of `vinput.c` is a sequence of atomic steps: a section under `vinput_lock`, an assignment
to the vdevice, or a call into the kernel.  `Pc` is the program counter of one call, with the local
variables that later steps use, and `pcStep` executes its next step.

The writers of the two class attributes are tasks; `vinput_register` and `vinput_unregister` are the
init and exit functions of the module that owns the `struct vinput_device`, so each device has a
process of its own, whose calls never overlap.  A label names the process that moves and resolves
what the program does not decide: the answer of the kernel, and what is read from a vdevice that has
left the list or has been freed.
-/

namespace Lkmpg.VinputDriver

open Registry

/-- The function that tears a vdevice down. -/
inductive Caller (δ : Type) where
  | unexportStore
  /-- the loop of `vinput_unregister(dev)`, with the saved cursor `next` -/
  | vinputUnregister (dev : δ) (next : Option Ptr)
  deriving DecidableEq, Repr

/-- What `vinput_destroy_vdevice` returns to. -/
inductive After (δ : Type) where
  /-- the error return of an `export_store` that resolved the device -/
  | exportFailed (device : δ)
  | tornDown (caller : Caller δ)
  deriving DecidableEq, Repr

inductive Pc (δ : Type) where
  | idle
  /-- `kzalloc` is next -/
  | exportAlloc (device : δ)
  /-- the locked section of `vinput_alloc_vdevice` -/
  | exportId (device : δ) (vinput : Ptr)
  /-- `input_allocate_device` -/
  | exportInput (device : δ) (vinput : Ptr)
  /-- `fail_input_dev` -/
  | exportUnlist (device : δ) (vinput : Ptr)
  /-- `vinput->type = device` -/
  | exportType (device : δ) (vinput : Ptr)
  /-- `device_register` -/
  | exportRegister (device : δ) (vinput : Ptr)
  /-- `ops->init` in `vinput_register_vdevice` -/
  | exportInit (device : δ) (vinput : Ptr)
  /-- `input_free_device` at `fail_register_vinput` (`registered`) or `fail_register` -/
  | exportFreeInput (device : δ) (vinput : Ptr) (registered : Bool)
  /-- `device_unregister` at `fail_register_vinput` -/
  | exportUnregister (device : δ) (vinput : Ptr)
  /-- `vinput_unregister_vdevice` -/
  | teardownInput (vinput : Ptr) (caller : Caller δ)
  /-- `device_unregister` -/
  | teardownDevice (vinput : Ptr) (caller : Caller δ)
  /-- the locked section of `vinput_destroy_vdevice` -/
  | destroy (vinput : Ptr) (k : After δ)
  /-- `kfree` -/
  | kfree (vinput : Ptr) (k : After δ)
  /-- the start of `list_for_each_safe` in `vinput_unregister` -/
  | walkHead (dev : δ)
  /-- `next = curr->next` -/
  | walkNext (dev : δ) (curr : Option Ptr)
  /-- `vinput->type == dev` -/
  | walkTest (dev : δ) (curr : Ptr) (next : Option Ptr)
  deriving DecidableEq, Repr

def After.pc {δ : Type} : After δ → Pc δ
  | .exportFailed _ => .idle
  | .tornDown .unexportStore => .idle
  | .tornDown (.vinputUnregister dev next) => .walkNext dev next

variable {δ ι : Type} [DecidableEq δ] [DecidableEq ι]

/-- The next step of a call. -/
def pcStep (r : Registry δ) (ok : Bool) (junk : Option Ptr) : Pc δ → Option (Registry δ × Pc δ)
  | .idle => none
  | .exportAlloc d => if ok then some (r.kzalloc, .exportId d r.brk) else some (r, .idle)
  | .exportId d p =>
      match r.allocId p with
      | .error _ => some (r, .kfree p (.exportFailed d))
      | .ok r' => some (r', .exportInput d p)
  | .exportInput d p =>
      if ok then some (r.setInput p .allocated, .exportType d p) else some (r, .exportUnlist d p)
  | .exportUnlist d p => some (r.listDel p, .kfree p (.exportFailed d))
  | .exportType d p => some (r.setType p d, .exportRegister d p)
  | .exportRegister d p =>
      if ok then some (r.setDev p true, .exportInit d p) else some (r, .exportFreeInput d p false)
  | .exportInit d p =>
      if ok then some (r.setInput p .registered, .idle) else some (r, .exportFreeInput d p true)
  | .exportFreeInput d p registered =>
      some (r.setInput p .released,
        if registered then .exportUnregister d p else .destroy p (.exportFailed d))
  | .exportUnregister d p => some (r.setDev p false, .destroy p (.exportFailed d))
  | .teardownInput p k => some (r.setInput p .released, .teardownDevice p k)
  | .teardownDevice p k => some (r.setDev p false, .destroy p (.tornDown k))
  | .destroy p k => some (r.unlink p, .kfree p k)
  | .kfree p k => some (r.kfree p, k.pc)
  | .walkHead d => some (r, .walkNext d r.vinputVdevices.head?)
  | .walkNext _ none => some (r, .idle)
  | .walkNext d (some p) =>
      some (r, .walkTest d p
        (if p ∈ r.vinputVdevices then ListCursor.next r.vinputVdevices p else junk))
  | .walkTest d p n =>
      -- a freed vdevice reads as anything
      if (r.heap p).elim ok fun v => v.type = some d then
        some (r, .teardownInput p (.vinputUnregister d n))
      else some (r, .walkNext d n)

/-- A process: a writer of the class attributes, or the module of a `struct vinput_device`. -/
inductive Proc (δ ι : Type) where
  | task (i : ι)
  | client (dev : δ)
  deriving DecidableEq, Repr

structure World (δ ι : Type) where
  registry : Registry δ
  pc : Proc δ ι → Pc δ
  /-- the vdevices on which `vinput_unregister_vdevice` has run -/
  torn : List Ptr

/-- After module load, no call running. -/
def World.init : World δ ι := ⟨Registry.init, fun _ => .idle, []⟩

inductive Act (δ ι : Type) where
  /-- `export_store` up to the end of the section that resolves the device -/
  | exportStore (i : ι) (buf : List Byte)
  /-- `unexport_store` up to the end of the section that finds the vdevice -/
  | unexportStore (i : ι) (buf : List Byte)
  /-- `vinput_register` -/
  | register (dev : δ)
  /-- `vinput_unregister` up to the end of its locked section -/
  | unregister (dev : δ)
  /-- the next step of a running call -/
  | step (x : Proc δ ι) (ok : Bool) (junk : Option Ptr)

def Pc.tearsDown : Pc δ → List Ptr
  | .teardownInput p _ => [p]
  | _ => []

/-- Process `x` moves on to `pc` and leaves the registry `r`. -/
def World.goto (w : World δ ι) (x : Proc δ ι) (r : Registry δ) (pc : Pc δ) : World δ ι :=
  { w with registry := r, pc := Function.update w.pc x pc }

/-- The id of a vdevice does not change once it is listed, so the second test of
`vinput_get_vdevice_by_id` is taken together with its locked section. -/
def worldStep (name : δ → List Byte) (w : World δ ι) : Act δ ι → Option (World δ ι)
  | .exportStore i buf =>
      if w.pc (.task i) = .idle then
        match w.registry.vinputGetDeviceByType name buf with
        | .error _ => some w
        | .ok d => some (w.goto (.task i) w.registry (.exportAlloc d))
      else none
  | .unexportStore i buf =>
      if w.pc (.task i) = .idle then
        match CString.kstrtol buf with
        | .error _ => some w
        | .ok id =>
            match w.registry.vinputGetVdeviceById id with
            | .error _ => some w
            | .ok p => some (w.goto (.task i) w.registry (.teardownInput p .unexportStore))
      else none
  | .register d =>
      if w.pc (.client d) = .idle ∧ d ∉ w.registry.vinputDevices then
        some { w with registry :=
          { w.registry with vinputDevices := d :: w.registry.vinputDevices } }
      else none
  | .unregister d =>
      if w.pc (.client d) = .idle ∧ d ∈ w.registry.vinputDevices then
        some (w.goto (.client d)
          { w.registry with vinputDevices := w.registry.vinputDevices.erase d } (.walkHead d))
      else none
  | .step x ok junk =>
      (pcStep w.registry ok junk (w.pc x)).map fun next =>
        { w.goto x next.1 next.2 with torn := (w.pc x).tearsDown ++ w.torn }

/-! ### The start of a call -/

section Start

variable {name : δ → List Byte} {w w' : World δ ι} {i : ι} {d : δ} {buf : List Byte}

theorem worldStep_exportStore (h : worldStep name w (.exportStore i buf) = some w') :
    w.pc (.task i) = .idle ∧ (w' = w ∨ ∃ d, w.registry.vinputGetDeviceByType name buf = .ok d ∧
      w' = w.goto (.task i) w.registry (.exportAlloc d)) := by
  obtain ⟨hidle, hnext⟩ := Option.ite_none_right_eq_some.mp h
  refine ⟨hidle, ?_⟩
  split at hnext
  · exact Or.inl (Option.some.inj hnext).symm
  · rename_i d hget
    exact Or.inr ⟨d, hget, (Option.some.inj hnext).symm⟩

theorem worldStep_exportStore_eq (hidle : w.pc (.task i) = .idle)
    (h : w.registry.vinputGetDeviceByType name buf = .ok d) :
    worldStep name w (.exportStore i buf) =
      some (w.goto (.task i) w.registry (.exportAlloc d)) := by
  rw [worldStep, if_pos hidle, h]

/-- A name that is not registered. -/
theorem worldStep_exportStore_error {e : Errno} (hidle : w.pc (.task i) = .idle)
    (h : w.registry.vinputGetDeviceByType name buf = .error e) :
    worldStep name w (.exportStore i buf) = some w := by
  rw [worldStep, if_pos hidle, h]

theorem worldStep_unexportStore (h : worldStep name w (.unexportStore i buf) = some w') :
    w.pc (.task i) = .idle ∧ (w' = w ∨
      ∃ p, w' = w.goto (.task i) w.registry (.teardownInput p .unexportStore)) := by
  obtain ⟨hidle, hnext⟩ := Option.ite_none_right_eq_some.mp h
  refine ⟨hidle, ?_⟩
  split at hnext
  · exact Or.inl (Option.some.inj hnext).symm
  · split at hnext
    · exact Or.inl (Option.some.inj hnext).symm
    · rename_i p hget
      exact Or.inr ⟨p, (Option.some.inj hnext).symm⟩

theorem worldStep_unexportStore_eq {id : ℤ} {p : Ptr} (hidle : w.pc (.task i) = .idle)
    (hid : CString.kstrtol buf = .ok id) (h : w.registry.vinputGetVdeviceById id = .ok p) :
    worldStep name w (.unexportStore i buf) =
      some (w.goto (.task i) w.registry (.teardownInput p .unexportStore)) := by
  simp only [worldStep, if_pos hidle, hid, h]

/-- A text that is no number. -/
theorem worldStep_unexportStore_text {e : Errno} (hidle : w.pc (.task i) = .idle)
    (hid : CString.kstrtol buf = .error e) : worldStep name w (.unexportStore i buf) = some w := by
  rw [worldStep, if_pos hidle, hid]

/-- The id of no vdevice. -/
theorem worldStep_unexportStore_id {id : ℤ} {e : Errno} (hidle : w.pc (.task i) = .idle)
    (hid : CString.kstrtol buf = .ok id) (h : w.registry.vinputGetVdeviceById id = .error e) :
    worldStep name w (.unexportStore i buf) = some w := by
  simp only [worldStep, if_pos hidle, hid, h]

theorem worldStep_register (h : worldStep name w (.register d) = some w') :
    (w.pc (.client d) = .idle ∧ d ∉ w.registry.vinputDevices) ∧
      w' = { w with registry :=
        { w.registry with vinputDevices := d :: w.registry.vinputDevices } } := by
  obtain ⟨hidle, hnext⟩ := Option.ite_none_right_eq_some.mp h
  exact ⟨hidle, (Option.some.inj hnext).symm⟩

theorem worldStep_unregister (h : worldStep name w (.unregister d) = some w') :
    (w.pc (.client d) = .idle ∧ d ∈ w.registry.vinputDevices) ∧
      w' = w.goto (.client d)
        { w.registry with vinputDevices := w.registry.vinputDevices.erase d } (.walkHead d) := by
  obtain ⟨hidle, hnext⟩ := Option.ite_none_right_eq_some.mp h
  exact ⟨hidle, (Option.some.inj hnext).symm⟩

end Start

end Lkmpg.VinputDriver
