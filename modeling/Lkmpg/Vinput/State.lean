import Lkmpg.Lib.Bitmap
import Lkmpg.Lib.CString

/-!
# The vinput registry: data and elementary sections

The global state of `vinput.c` and the pieces of code that run without interruption: the sections
under `vinput_lock` and the assignments to one `struct vinput`.  The whole functions of
`Lkmpg.Vinput.Registry` and the interleaved machine of `Lkmpg.Vinput.Concurrent` are built from the
same pieces.

A `struct vinput_device` lives in a client module and is only ever compared by address, so its
address is an element of an arbitrary type `δ`; `name` reads its name field.  A `struct vinput` is
allocated by `kzalloc`; an allocation gets an address that no earlier one had, so an address
identifies one allocation for ever, and `heap` maps it to `none` once it has been freed.
-/

namespace Lkmpg.VinputDriver

/-- `VINPUT_MINORS` -/
abbrev vinputMinors : ℕ := 32

/-- The address of a `struct vinput`. -/
abbrev Ptr := ℕ

/-- What has become of the input device behind `vinput->input`. -/
inductive InputDev where
  /-- returned by `input_allocate_device` -/
  | allocated
  /-- registered by `ops->init` -/
  | registered
  /-- given to `input_unregister_device` or `input_free_device` -/
  | released
  deriving DecidableEq, Repr

/-- `struct vinput`; `none` is the null pointer. -/
structure Vinput (δ : Type) where
  id : ℕ
  lastEntry : ℤ
  input : Option InputDev
  type : Option δ
  /-- whether `vinput->dev` is registered with the driver core -/
  devRegistered : Bool
  deriving DecidableEq, Repr

/-- The globals of `vinput.c` and the kernel heap. -/
structure Registry (δ : Type) where
  vinputIds : BitVec vinputMinors
  vinputDevices : List δ
  vinputVdevices : List Ptr
  heap : Ptr → Option (Vinput δ)
  /-- the next address `kzalloc` returns -/
  brk : Ptr

namespace Registry

variable {δ : Type}

/-- The state after module load. -/
def init : Registry δ := ⟨0, [], [], fun _ => none, 0⟩

/-- `vinput->id` -/
def idOf (r : Registry δ) (p : Ptr) : Option ℕ := (r.heap p).map Vinput.id

/-- `vinput->type` -/
def typeOf (r : Registry δ) (p : Ptr) : Option δ := (r.heap p).bind Vinput.type

/-- Assign to fields of `*p`. -/
def modify (r : Registry δ) (p : Ptr) (f : Vinput δ → Vinput δ) : Registry δ :=
  { r with heap := Function.update r.heap p ((r.heap p).map f) }

theorem heap_modify_of_ne (r : Registry δ) {p q : Ptr} (h : q ≠ p) (f : Vinput δ → Vinput δ) :
    (r.modify p f).heap q = r.heap q := Function.update_of_ne h _ _

theorem heap_modify_self (r : Registry δ) (p : Ptr) (f : Vinput δ → Vinput δ) :
    (r.modify p f).heap p = (r.heap p).map f := Function.update_self _ _ _

theorem idOf_modify (r : Registry δ) (p q : Ptr) {f : Vinput δ → Vinput δ}
    (hf : ∀ v, (f v).id = v.id) : (r.modify p f).idOf q = r.idOf q := by
  by_cases h : q = p
  · subst h
    rw [idOf, idOf, heap_modify_self]
    cases r.heap q with
    | none => rfl
    | some v => exact congrArg some (hf v)
  · rw [idOf, idOf, heap_modify_of_ne r h]

theorem typeOf_modify (r : Registry δ) (p q : Ptr) {f : Vinput δ → Vinput δ}
    (hf : ∀ v, (f v).type = v.type) : (r.modify p f).typeOf q = r.typeOf q := by
  by_cases h : q = p
  · subst h
    rw [typeOf, typeOf, heap_modify_self]
    cases r.heap q with
    | none => rfl
    | some v => exact hf v
  · rw [typeOf, typeOf, heap_modify_of_ne r h]

/-- `kzalloc(sizeof(struct vinput), GFP_KERNEL)`, when it succeeds; the result is `r.brk`. -/
def kzalloc (r : Registry δ) : Registry δ :=
  { r with heap := Function.update r.heap r.brk (some ⟨0, 0, none, none, false⟩), brk := r.brk + 1 }

def kfree (r : Registry δ) (p : Ptr) : Registry δ :=
  { r with heap := Function.update r.heap p none }

/-- `list_del(&vinput->list)` -/
def listDel (r : Registry δ) (p : Ptr) : Registry δ :=
  { r with vinputVdevices := r.vinputVdevices.erase p }

/-- `clear_bit(vinput->id, vinput_ids)` -/
def clearId (r : Registry δ) (p : Ptr) : Registry δ :=
  { r with vinputIds := (r.idOf p).elim r.vinputIds (Bitmap.clearBit r.vinputIds) }

/-- `vinput_get_device_by_type`: the first registered device whose name begins the string. -/
def vinputGetDeviceByType (name : δ → List Byte) (r : Registry δ) (type : List Byte) :
    Except Errno δ :=
  match r.vinputDevices.find? fun d =>
      CString.strncmp type (name d) (CString.strlen (name d)) = 0 with
  | some d => .ok d
  | none => .error .ENODEV

/-- The loop of `vinput_get_vdevice_by_id`: the cursor `vinput` after the loop, that is the first
vdevice with the given id, or else the last one of the list, or else its initial value. -/
def idCursor (r : Registry δ) (id : ℤ) : List Ptr → Option Ptr → Option Ptr
  | [], vinput => vinput
  | p :: ps, _ => if (r.idOf p).map Int.ofNat = some id then some p else r.idCursor id ps (some p)

/-- `vinput_get_vdevice_by_id`: the cursor is tested a second time after the loop. -/
def vinputGetVdeviceById (r : Registry δ) (id : ℤ) : Except Errno Ptr :=
  match r.idCursor id r.vinputVdevices none with
  | some p => if (r.idOf p).map Int.ofNat = some id then .ok p else .error .ENODEV
  | none => .error .ENODEV

/-- `vinput->id = id; set_bit(id, vinput_ids); list_add(&vinput->list, &vinput_vdevices)` -/
def link (r : Registry δ) (p : Ptr) (id : ℕ) : Registry δ :=
  { r.modify p fun v => { v with id := id } with
    vinputIds := Bitmap.setBit r.vinputIds id
    vinputVdevices := p :: r.vinputVdevices }

/-- The locked section of `vinput_alloc_vdevice` on a new vdevice. -/
def allocId (r : Registry δ) (p : Ptr) : Except Errno (Registry δ) :=
  if vinputMinors ≤ Bitmap.findFirstZeroBit r.vinputIds then .error .ENOBUFS
  else .ok (r.link p (Bitmap.findFirstZeroBit r.vinputIds))

/-- The locked section of `vinput_destroy_vdevice`. -/
def unlink (r : Registry δ) (p : Ptr) : Registry δ := (r.listDel p).clearId p

def vinputDestroyVdevice (r : Registry δ) (p : Ptr) : Registry δ := (r.unlink p).kfree p

/-- `vinput->type = device` -/
def setType (r : Registry δ) (p : Ptr) (d : δ) : Registry δ :=
  r.modify p fun v => { v with type := some d }

def setInput (r : Registry δ) (p : Ptr) (i : InputDev) : Registry δ :=
  r.modify p fun v => { v with input := some i }

def setDev (r : Registry δ) (p : Ptr) (b : Bool) : Registry δ :=
  r.modify p fun v => { v with devRegistered := b }

end Registry

end Lkmpg.VinputDriver
