import Lkmpg.Vinput.State

/-!
# The vinput registry: whole functions

`export_store`, `unexport_store`, `vinput_register` and `vinput_unregister` executed without
interruption.  What the kernel decides, whether an allocation succeeds and what a registration
returns, is an `Outcomes` record, so every error path of `export_store` is a value of it.

`device_unregister` drops the last reference of `vinput->dev`, hence runs `vinput_release_dev` at
once.  A call returns `none` if it does not complete, which here means `list_del` of an entry that
is on no list.  `exportStore_eq` and `teardown_eq` say what a call leaves, in closed form.
-/

namespace Lkmpg.VinputDriver

/-- What the kernel answers to the calls of one `export_store`. -/
structure Outcomes where
  kzalloc : Bool
  inputAllocateDevice : Bool
  deviceRegister : Option Errno
  /-- the result of `ops->init`, which registers the input device -/
  init : Option Errno
  deriving DecidableEq, Repr

/-- Every allocation and registration succeeds. -/
def Outcomes.success : Outcomes := ⟨true, true, none, none⟩

namespace Registry

variable {δ : Type}

/-- `vinput_alloc_vdevice`; its failure path after `list_add` does not clear the bit of the id. -/
def vinputAllocVdevice (o : Outcomes) (r : Registry δ) : Except Errno Ptr × Registry δ :=
  if o.kzalloc = false then (.error .ENOMEM, r)
  else
    let p := r.brk
    let r := r.kzalloc
    match r.allocId p with
    | .error e => (.error e, r.kfree p)
    | .ok r =>
        if o.inputAllocateDevice then (.ok p, r.setInput p .allocated)
        else (.error .ENOMEM, (r.listDel p).kfree p)

/-- `vinput_unregister_vdevice` -/
def vinputUnregisterVdevice (r : Registry δ) (p : Ptr) : Registry δ := r.setInput p .released

/-- `device_unregister(&vinput->dev)`, which drops the last reference: `vinput_release_dev` runs
`vinput_destroy_vdevice`. -/
def deviceUnregister (r : Registry δ) (p : Ptr) : Registry δ :=
  (r.setDev p false).vinputDestroyVdevice p

/-- `export_store` -/
def exportStore (name : δ → List Byte) (o : Outcomes) (r : Registry δ) (buf : List Byte) (len : ℕ) :
    Except Errno ℕ × Registry δ :=
  match r.vinputGetDeviceByType name buf with
  | .error e => (.error e, r)
  | .ok device =>
      match r.vinputAllocVdevice o with
      | (.error e, r) => (.error e, r)
      | (.ok p, r) =>
          let r := r.setType p device
          match o.deviceRegister with
          | some e => (.error e, (r.setInput p .released).vinputDestroyVdevice p)
          | none =>
              let r := r.setDev p true
              match o.init with
              | some e => (.error e, (r.setInput p .released).deviceUnregister p)
              | none => (.ok len, r.setInput p .registered)

/-- `unexport_store` -/
def unexportStore (r : Registry δ) (buf : List Byte) (len : ℕ) : Except Errno ℕ × Registry δ :=
  match CString.kstrtol buf with
  | .error _ => (.error .EINVAL, r)
  | .ok id =>
      match r.vinputGetVdeviceById id with
      | .error e => (.error e, r)
      | .ok p => (.ok len, (r.vinputUnregisterVdevice p).deviceUnregister p)

/-- `vinput_register` -/
def vinputRegister (r : Registry δ) (d : δ) : Registry δ :=
  { r with vinputDevices := d :: r.vinputDevices }

variable [DecidableEq δ]

/-- The loop of `vinput_unregister` from a given node on.  The successor is read before the body
runs and the body unlinks at most the current node, so the nodes visited are those of the list. -/
def unregisterLoop (d : δ) : List Ptr → Registry δ → Registry δ
  | [], r => r
  | p :: ps, r =>
      unregisterLoop d ps
        (if r.typeOf p = some d then (r.vinputUnregisterVdevice p).deviceUnregister p else r)

/-- `vinput_unregister` -/
def vinputUnregister (r : Registry δ) (d : δ) : Registry δ :=
  unregisterLoop d r.vinputVdevices { r with vinputDevices := r.vinputDevices.erase d }

end Registry

/-- A call into the driver. -/
inductive Call (δ : Type) where
  | register (d : δ)
  | unregister (d : δ)
  | exportStore (o : Outcomes) (buf : List Byte) (len : ℕ)
  | unexportStore (buf : List Byte) (len : ℕ)
  deriving DecidableEq, Repr

/-- The state after a completed call.  A device is registered only while it is not registered, and
unregistered only while it is: otherwise `list_add` or `list_del` meets a node in the wrong state
and the call does not complete. -/
def callStep {δ : Type} [DecidableEq δ] (name : δ → List Byte) (r : Registry δ) :
    Call δ → Option (Registry δ)
  | .register d => if d ∈ r.vinputDevices then none else some (r.vinputRegister d)
  | .unregister d => if d ∈ r.vinputDevices then some (r.vinputUnregister d) else none
  | .exportStore o buf len => some (r.exportStore name o buf len).2
  | .unexportStore buf len => some (r.unexportStore buf len).2

namespace Registry

variable {δ : Type}

/-! ### What a call does, in closed form -/

/-- `kzalloc` followed by `kfree`. -/
def skip (r : Registry δ) : Registry δ :=
  { r with heap := Function.update r.heap r.brk none, brk := r.brk + 1 }

/-- The same with the bit of the id left set. -/
def leak (r : Registry δ) : Registry δ :=
  { r.skip with vinputIds := Bitmap.setBit r.vinputIds (Bitmap.findFirstZeroBit r.vinputIds) }

/-- A fully constructed vdevice of type `d` at the head of the list, under the least free id. -/
def add (r : Registry δ) (d : δ) : Registry δ :=
  let id := Bitmap.findFirstZeroBit r.vinputIds
  { r with
    vinputIds := Bitmap.setBit r.vinputIds id
    vinputVdevices := r.brk :: r.vinputVdevices
    heap := Function.update r.heap r.brk (some ⟨id, 0, some .registered, some d, true⟩)
    brk := r.brk + 1 }

/-- **`export_store` in closed form.**  Only the failure of `input_allocate_device` leaves a trace:
the bit of the id stays set. -/
theorem exportStore_eq (name : δ → List Byte) (o : Outcomes) (r : Registry δ) (buf : List Byte)
    (len : ℕ) :
    r.exportStore name o buf len =
      match r.vinputGetDeviceByType name buf with
      | .error e => (.error e, r)
      | .ok d =>
          if o.kzalloc = false then (.error .ENOMEM, r)
          else if vinputMinors ≤ Bitmap.findFirstZeroBit r.vinputIds then (.error .ENOBUFS, r.skip)
          else if o.inputAllocateDevice = false then (.error .ENOMEM, r.leak)
          else match o.deviceRegister, o.init with
            | some e, _ => (.error e, r.skip)
            | none, some e => (.error e, r.skip)
            | none, none => (.ok len, r.add d) := by
  unfold exportStore
  cases r.vinputGetDeviceByType name buf with
  | error e => rfl
  | ok d =>
      by_cases hk : o.kzalloc = false
      · simp [vinputAllocVdevice, hk]
      · by_cases hid : vinputMinors ≤ Bitmap.findFirstZeroBit r.vinputIds
        · simp [vinputAllocVdevice, allocId, hk, hid, kzalloc, kfree, skip]
        · have hclear : r.vinputIds.getLsbD (Bitmap.findFirstZeroBit r.vinputIds) = false :=
            Bitmap.getLsbD_findFirstZeroBit (not_le.mp hid)
          cases hi : o.inputAllocateDevice with
          | false =>
              simp [vinputAllocVdevice, allocId, link, hk, hid, hi, kzalloc, kfree, modify,
                listDel, leak, skip]
          | true =>
              cases hd : o.deviceRegister with
              | some e =>
                  simp [vinputAllocVdevice, allocId, link, hk, hid, hi, kzalloc, kfree, modify, listDel,
                    skip, setInput, setType, vinputDestroyVdevice, unlink, clearId, idOf,
                    Bitmap.clearBit_setBit hclear]
              | none =>
                  cases hn : o.init with
                  | some e =>
                      simp [vinputAllocVdevice, allocId, link, hk, hid, hi, kzalloc, kfree, modify,
                        listDel, skip, setInput, setType, setDev, deviceUnregister,
                        vinputDestroyVdevice, unlink, clearId, idOf,
                        Bitmap.clearBit_setBit hclear]
                  | none =>
                      simp [vinputAllocVdevice, allocId, link, hk, hid, hi, kzalloc, modify, add,
                        setInput, setType, setDev]

/-- **`unexport_store` of a vdevice in closed form.**  What is assigned to the vdevice before it is
freed cannot be seen afterwards. -/
theorem teardown_eq (r : Registry δ) (p : Ptr) :
    (r.vinputUnregisterVdevice p).deviceUnregister p = r.vinputDestroyVdevice p := by
  cases h : r.heap p with
  | none =>
      simp [vinputUnregisterVdevice, deviceUnregister, vinputDestroyVdevice, unlink, clearId, idOf,
        listDel, kfree, setDev, setInput, modify, h]
  | some v =>
      simp [vinputUnregisterVdevice, deviceUnregister, vinputDestroyVdevice, unlink, clearId, idOf,
        listDel, kfree, setDev, setInput, modify, h]

end Registry

end Lkmpg.VinputDriver
