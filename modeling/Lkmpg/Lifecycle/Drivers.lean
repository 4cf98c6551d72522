import Lkmpg.Lib.Lifetimes

/-!
# What the modules register and give back

The init functions of twelve modules, with every call into the kernel that can fail and the label to
which it jumps, and their exit functions.  `init` tells which of its calls has failed by releasing what
stands before it; the kernel needs some of these resources for others, so the order matters too: a
device is created in a class, a disk is added while its memory is there, an object lives in its cache.
-/

namespace Lkmpg.Lifecycle

open Transition Lifetimes

/-! ### The kernel -/

/-- `KERNEL_VERSION` -/
def kernelVersion (a b c : ℕ) : ℕ := a * 65536 + b * 256 + min c 255

inductive Resource
  /-- `register_chrdev` -/
  | chrdev
  /-- `alloc_chrdev_region`, `register_chrdev_region` -/
  | chrdevRegion
  | cdev
  | cls
  | device
  | gpio
  | blkdev
  /-- `struct blkram_dev` -/
  | blkram
  | data
  | tagSet
  | queue
  | disk
  /-- the disk after `add_disk` -/
  | addedDisk
  | platformDevice
  /-- the platform device after `platform_device_add` -/
  | addedDevice
  | platformDriver
  /-- `struct dma_demo_dev` -/
  | demo
  | coherentBuf
  | streamingBuf
  | streamingMapping
  | cache
  /-- `obj1` and `obj2` -/
  | object (i : Fin 2)
  | netdev
  | registeredNetdev
  | kobject
  | sysfsFile
  deriving DecidableEq

/-- What the kernel needs of the other resources while it has one of them. -/
def needs : Resource → List Resource
  | .cdev => [.chrdevRegion]
  | .device => [.cls]
  | .tagSet => [.blkram]
  | .queue => [.tagSet]
  | .disk => [.tagSet]
  | .addedDisk => [.disk, .data, .blkram, .blkdev]
  | .addedDevice => [.platformDevice]
  | .demo | .coherentBuf | .streamingBuf => [.addedDevice, .platformDriver]
  | .streamingMapping => [.streamingBuf]
  | .object _ => [.cache]
  | .registeredNetdev => [.netdev]
  | .sysfsFile => [.kobject]
  | _ => []

/-- The calls that can fail. -/
inductive Site
  | registerChrdev
  /-- `register_chrdev_region` or `alloc_chrdev_region` -/
  | chrdevRegion
  | cdevAdd
  /-- `class_create`, `class_register` -/
  | cls
  | deviceCreate
  | gpioRequest
  | gpioDirectionOutput
  | registerBlkdev
  | kzalloc
  | vzalloc
  | blkMqAllocTagSet
  | blkMqAllocDisk
  | blkMqInitQueue
  | allocDisk
  | addDisk
  | platformDeviceAlloc
  | platformDeviceAdd
  | platformDriverRegister
  | dmaSetMaskAndCoherent
  | devmKzallocDemo
  | dmamAllocCoherent
  | devmKzallocStreaming
  | dmaMapSingle
  | kmemCacheCreate
  | kmemCacheAlloc (i : Fin 2)
  | allocEtherdev
  | registerNetdev
  | kobjectCreateAndAdd
  | sysfsCreateFile
  deriving DecidableEq

/-- What the calls return when they are reached. -/
abbrev Calls := Site → Except Errno Unit

abbrev Kernel := Held Resource

def acquire (r : Resource) (h : Kernel) : Kernel := h.acquire needs r

def release (r : Resource) (h : Kernel) : Kernel := h.release needs r

/-- What an exit function depends on: the pointers `obj1` and `obj2` that are not `NULL`, and what the
driver core manages for a device that is bound (`devm_kzalloc`, `dmam_alloc_coherent`), the last one
first. -/
structure Globals where
  objects : Fin 2 → Bool
  devres : List Resource

def Globals.none : Globals := ⟨fun _ => false, []⟩

/-- A module, for the kernel with version `code` (`LINUX_VERSION_CODE`). -/
abbrev Module := Driver Calls Resource Globals

/-! ### `led.c` and `dht11.c` -/

namespace GpioDevice

def fail1 (h : Kernel) : Kernel := release .chrdevRegion h

def fail2 (h : Kernel) : Kernel := fail1 (release .cdev h)

def fail3 (h : Kernel) : Kernel := fail2 (release .cls h)

def fail4 (h : Kernel) : Kernel := fail3 (release .device h)

def fail5 (h : Kernel) : Kernel := fail4 (release .gpio h)

/-- `led_init`, `dht11_init` -/
def init (calls : Calls) : Init Kernel Globals :=
  call (calls .chrdevRegion) id (acquire .chrdevRegion) <|
  call (calls .cdevAdd) fail1 (acquire .cdev) <|
  call (calls .cls) fail2 (acquire .cls) <|
  call (calls .deviceCreate) fail3 (acquire .device) <|
  call (calls .gpioRequest) fail4 (acquire .gpio) <|
  call (calls .gpioDirectionOutput) fail5 id <|
  done Globals.none

/-- `led_exit`, `dht11_exit`, which set the GPIO to zero first. -/
def exit (_ : Globals) (h : Kernel) : Kernel :=
  h.use .gpio |> release .gpio |> release .device |> release .cls |> release .cdev
    |> release .chrdevRegion

end GpioDevice

def led : Module := ⟨GpioDevice.init, GpioDevice.exit⟩

def dht11 : Module := ⟨GpioDevice.init, GpioDevice.exit⟩

/-! ### `ioctl.c` -/

def ioctlInit (calls : Calls) : Init Kernel Globals :=
  call (calls .chrdevRegion) id (acquire .chrdevRegion) <|
  call (calls .cdevAdd) (release .chrdevRegion) (acquire .cdev) <|
  done Globals.none

def ioctlExit (_ : Globals) (h : Kernel) : Kernel := h |> release .cdev |> release .chrdevRegion

def ioctl : Module := ⟨ioctlInit, ioctlExit⟩

/-! ### `chardev.c`, `chardev2.c` and `static_key.c` -/

namespace Chardev

/-- `chardev_init`, `chardev2_init`, which do not look at what `device_create` returns. -/
def init (calls : Calls) : Init Kernel Globals :=
  call (calls .registerChrdev) id (acquire .chrdev) <|
  call (calls .cls) (release .chrdev) (acquire .cls) <|
  attempt (calls .deviceCreate) (acquire .device) <|
  done Globals.none

/-- `chardev_exit`, `chardev2_exit`; `device_destroy` looks for the device. -/
def exit (_ : Globals) (h : Kernel) : Kernel :=
  h.releaseIfHeld needs .device |> release .cls |> release .chrdev

end Chardev

def chardev : Module := ⟨Chardev.init, Chardev.exit⟩

def chardev2 : Module := ⟨Chardev.init, Chardev.exit⟩

def staticKey : Module := ⟨Chardev.init, Chardev.exit⟩

/-! ### `vinput.c` -/

def vinputInit (calls : Calls) : Init Kernel Globals :=
  call (calls .registerChrdev) id (acquire .chrdev) <|
  call (calls .cls) (release .chrdev) (acquire .cls) <|
  done Globals.none

def vinputEnd (_ : Globals) (h : Kernel) : Kernel := h |> release .chrdev |> release .cls

def vinput : Module := ⟨vinputInit, vinputEnd⟩

/-! ### `blkram.c` -/

namespace Blkram

def errUnreg (h : Kernel) : Kernel := release .blkdev h

def errFreeDev (h : Kernel) : Kernel := errUnreg (release .blkram h)

def errFreeData (h : Kernel) : Kernel := errFreeDev (release .data h)

def errTagSet (h : Kernel) : Kernel := errFreeData (release .tagSet h)

/-- Only kernels before 5.15 have this label. -/
def errCleanupQueue (h : Kernel) : Kernel := errTagSet (release .queue h)

/-- Only kernels from 5.16 on have this label, so it goes on to `err_tag_set`. -/
def errPutDisk (h : Kernel) : Kernel := errTagSet (release .disk h)

/-- `add_disk` returns nothing before 5.16. -/
def addDisk (code : ℕ) (calls : Calls) : Init Kernel Globals :=
  if kernelVersion 5 16 0 ≤ code then
    call (calls .addDisk) errPutDisk (acquire .addedDisk) <| done Globals.none
  else
    call (.ok ()) id (acquire .addedDisk) <| done Globals.none

/-- Before 5.15 the queue and the disk are allocated separately. -/
def allocDisk (code : ℕ) (calls : Calls) : Init Kernel Globals :=
  if kernelVersion 5 15 0 ≤ code then
    call (calls .blkMqAllocDisk) errTagSet (acquire .disk) <|
    addDisk code calls
  else
    call (calls .blkMqInitQueue) errTagSet (acquire .queue) <|
    call (nomem (calls .allocDisk)) errCleanupQueue (acquire .disk) <|
    addDisk code calls

def init (code : ℕ) (calls : Calls) : Init Kernel Globals :=
  call (calls .registerBlkdev) id (acquire .blkdev) <|
  call (nomem (calls .kzalloc)) errUnreg (acquire .blkram) <|
  call (nomem (calls .vzalloc)) errFreeDev (acquire .data) <|
  call (calls .blkMqAllocTagSet) errFreeData (acquire .tagSet) <|
  allocDisk code calls

def exit (code : ℕ) (_ : Globals) (h : Kernel) : Kernel :=
  let h := h |> release .addedDisk |> release .disk
  let h := if code < kernelVersion 5 15 0 then release .queue h else h
  h |> release .tagSet |> release .data |> release .blkram |> release .blkdev

end Blkram

def blkram (code : ℕ) : Module := ⟨Blkram.init code, Blkram.exit code⟩

/-! ### `dma.c` -/

namespace Dma

/-- The resources, and those of them that the driver core manages. -/
abbrev Probe := Kernel × List Resource

def Probe.acquire (r : Resource) (p : Probe) : Probe := (Lifecycle.acquire r p.1, p.2)

def Probe.release (r : Resource) (p : Probe) : Probe := (Lifecycle.release r p.1, p.2)

def Probe.use (r : Resource) (p : Probe) : Probe := (p.1.use r, p.2)

/-- `devm_kzalloc`, `dmam_alloc_coherent` -/
def Probe.manage (r : Resource) (p : Probe) : Probe := (Lifecycle.acquire r p.1, r :: p.2)

/-- `dma_demo_probe`, with `memset`, `dma_map_single` and `dma_unmap_single` of the streaming buffer. -/
def dmaDemoProbe (calls : Calls) : Init Probe Unit :=
  call (calls .dmaSetMaskAndCoherent) id id <|
  call (nomem (calls .devmKzallocDemo)) id (Probe.manage .demo) <|
  call (nomem (calls .dmamAllocCoherent)) id (Probe.manage .coherentBuf) <|
  call (nomem (calls .devmKzallocStreaming)) id
    (fun p => p.manage .streamingBuf |>.use .streamingBuf) <|
  call (calls .dmaMapSingle) id
    (fun p => p.acquire .streamingMapping |>.release .streamingMapping) <|
  done ()

/-- `devres_release_all` -/
def devresReleaseAll (devres : List Resource) (h : Kernel) : Kernel :=
  devres.foldl (fun h r => release r h) h

/-- The driver core gives back what it manages for a device that cannot be probed. -/
def settle : Probe × Except Errno Unit → Kernel × List Resource
  | ((h, devres), .error _) => (devresReleaseAll devres h, [])
  | ((h, devres), .ok ()) => (h, devres)

def bind (calls : Calls) (h : Kernel) : Kernel × List Resource := settle (dmaDemoProbe calls (h, []))

/-- `platform_device_unregister` -/
def platformDeviceUnregister (h : Kernel) : Kernel :=
  h |> release .addedDevice |> release .platformDevice

/-- A device that cannot be probed does not make `platform_driver_register` fail. -/
def init (calls : Calls) : Init Kernel Globals :=
  call (nomem (calls .platformDeviceAlloc)) id (acquire .platformDevice) <|
  call (calls .platformDeviceAdd) (release .platformDevice) (acquire .addedDevice) <|
  call (calls .platformDriverRegister) platformDeviceUnregister (acquire .platformDriver) <| fun h =>
  done ⟨fun _ => false, (bind calls h).2⟩ (bind calls h).1

/-- `platform_driver_unregister` unbinds the device: `dma_demo_remove` does nothing, and the driver
core gives back what it manages. -/
def exit (globals : Globals) (h : Kernel) : Kernel :=
  devresReleaseAll globals.devres h |> release .platformDriver |> platformDeviceUnregister

end Dma

def dma : Module := ⟨Dma.init, Dma.exit⟩

/-! ### `kmem_cache.c` -/

namespace KmemCache

/-- `if (obj) kmem_cache_free(my_cachep, obj);` -/
def freeObject (objects : Fin 2 → Bool) (i : Fin 2) (h : Kernel) : Kernel :=
  if objects i then release (.object i) h else h

/-- What both functions do in the end. -/
def destroy (objects : Fin 2 → Bool) (h : Kernel) : Kernel :=
  h |> freeObject objects 0 |> freeObject objects 1 |> release .cache

/-- The objects that `kmem_cache_alloc` has returned. -/
def objects (calls : Calls) (i : Fin 2) : Bool := (calls (.kmemCacheAlloc i)).isOk

/-- `if (!obj1 || !obj2)` -/
def checkObjects (objects : Fin 2 → Bool) : Except Errno Unit :=
  if !objects 0 || !objects 1 then .error .ENOMEM else .ok ()

def init (calls : Calls) : Init Kernel Globals :=
  call (nomem (calls .kmemCacheCreate)) id (acquire .cache) <|
  attempt (calls (.kmemCacheAlloc 0)) (acquire (.object 0)) <|
  attempt (calls (.kmemCacheAlloc 1)) (acquire (.object 1)) <|
  call (checkObjects (objects calls)) (destroy (objects calls))
    (fun h => h.use (.object 0) |>.use (.object 1)) <|
  done ⟨objects calls, []⟩

def exit (globals : Globals) (h : Kernel) : Kernel := destroy globals.objects h

end KmemCache

def kmemCache : Module := ⟨KmemCache.init, KmemCache.exit⟩

/-! ### `vnetloop.c` -/

def vnetloopInit (calls : Calls) : Init Kernel Globals :=
  call (nomem (calls .allocEtherdev)) id (acquire .netdev) <|
  call (calls .registerNetdev) (release .netdev) (acquire .registeredNetdev) <|
  done Globals.none

def vnetloopExit (_ : Globals) (h : Kernel) : Kernel :=
  h |> release .registeredNetdev |> release .netdev

def vnetloop : Module := ⟨vnetloopInit, vnetloopExit⟩

/-! ### `hello-sysfs.c` -/

/-- `kobject_put`, which removes the files of the object with it. -/
def kobjectPut (h : Kernel) : Kernel := h.releaseIfHeld needs .sysfsFile |> release .kobject

def mymoduleInit (calls : Calls) : Init Kernel Globals :=
  call (nomem (calls .kobjectCreateAndAdd)) id (acquire .kobject) <|
  call (calls .sysfsCreateFile) kobjectPut (acquire .sysfsFile) <|
  done Globals.none

def mymoduleExit (_ : Globals) (h : Kernel) : Kernel := kobjectPut h

def helloSysfs : Module := ⟨mymoduleInit, mymoduleExit⟩

/-! ### All modules -/

inductive Source
  | led
  | dht11
  | ioctl
  | chardev
  | chardev2
  | staticKey
  | vinput
  | blkram
  | dma
  | kmemCache
  | vnetloop
  | helloSysfs
  deriving DecidableEq

/-- `code` is `LINUX_VERSION_CODE`. -/
def driver (code : ℕ) : Source → Module
  | .led => led
  | .dht11 => dht11
  | .ioctl => ioctl
  | .chardev => chardev
  | .chardev2 => chardev2
  | .staticKey => staticKey
  | .vinput => vinput
  | .blkram => blkram code
  | .dma => dma
  | .kmemCache => kmemCache
  | .vnetloop => vnetloop
  | .helloSysfs => helloSysfs

/-! ### Each label undoes what stands before it -/

variable (calls : Calls)

theorem gpioDevice_unwinds : Unwinds GpioDevice.exit (GpioDevice.init calls Held.empty) := by
  unfold GpioDevice.init
  apply unwinds_call rfl
  apply unwinds_call rfl
  apply unwinds_call rfl
  apply unwinds_call rfl
  apply unwinds_call rfl
  apply unwinds_call rfl
  exact unwinds_done rfl rfl

theorem ioctl_unwinds : Unwinds ioctlExit (ioctlInit calls Held.empty) := by
  unfold ioctlInit
  apply unwinds_call rfl
  apply unwinds_call rfl
  exact unwinds_done rfl rfl

theorem chardev_unwinds : Unwinds Chardev.exit (Chardev.init calls Held.empty) := by
  unfold Chardev.init
  apply unwinds_call rfl
  apply unwinds_call rfl
  rw [attempt_eq]
  split
  · exact unwinds_done rfl rfl
  · exact unwinds_done rfl rfl

/-- The class outlives the region, although it has been registered later. -/
theorem vinput_unwinds : Unwinds vinputEnd (vinputInit calls Held.empty) := by
  unfold vinputInit
  apply unwinds_call rfl
  apply unwinds_call rfl
  exact unwinds_done rfl rfl

theorem vnetloop_unwinds : Unwinds vnetloopExit (vnetloopInit calls Held.empty) := by
  unfold vnetloopInit
  apply unwinds_call rfl
  apply unwinds_call rfl
  exact unwinds_done rfl rfl

theorem helloSysfs_unwinds : Unwinds mymoduleExit (mymoduleInit calls Held.empty) := by
  unfold mymoduleInit
  apply unwinds_call rfl
  apply unwinds_call rfl
  exact unwinds_done rfl rfl

theorem addDisk_unwinds {code : ℕ} {h : Kernel}
    (hlabel : kernelVersion 5 16 0 ≤ code → Blkram.errPutDisk h = Held.empty)
    (hfaults : (acquire .addedDisk h).faults = [])
    (hexit : Blkram.exit code Globals.none (acquire .addedDisk h) = Held.empty) :
    Unwinds (Blkram.exit code) (Blkram.addDisk code calls h) := by
  unfold Blkram.addDisk
  split
  · rename_i hcode
    apply unwinds_call (hlabel hcode)
    exact unwinds_done hfaults hexit
  · exact unwinds_done hfaults hexit

/-- Where there is a queue there is no `err_put_disk`, which would forget it. -/
theorem blkram_unwinds (code : ℕ) :
    Unwinds (Blkram.exit code) (Blkram.init code calls Held.empty) := by
  unfold Blkram.init
  apply unwinds_call rfl
  apply unwinds_call rfl
  apply unwinds_call rfl
  apply unwinds_call rfl
  unfold Blkram.allocDisk
  split
  · rename_i hcode
    apply unwinds_call rfl
    apply addDisk_unwinds calls (fun _ => rfl) rfl
    simp only [Blkram.exit, if_neg (Nat.not_lt.mpr hcode)]
    rfl
  · rename_i hcode
    apply unwinds_call rfl
    apply unwinds_call rfl
    apply addDisk_unwinds calls _ rfl
    · simp only [Blkram.exit, if_pos (Nat.lt_of_not_le hcode)]
      rfl
    · intro hnew
      simp only [kernelVersion] at hcode hnew
      omega

/-- A probe has made no fault, and `h` is left when the driver core gives back what it manages. -/
def Probed (h : Kernel) (r : Dma.Probe × Except Errno Unit) : Prop :=
  (Dma.settle r).1.faults = [] ∧ Dma.devresReleaseAll (Dma.settle r).2 (Dma.settle r).1 = h

/-- The mapping is gone when the probe returns, and with it what needs the buffer. -/
theorem dmaDemoProbe_probed {h : Kernel}
    (hh : h = ⟨[.platformDriver, .addedDevice, .platformDevice], []⟩) :
    Probed h (Dma.dmaDemoProbe calls (h, [])) := by
  subst hh
  unfold Dma.dmaDemoProbe
  apply call_of (fun _ => ⟨rfl, rfl⟩)
  apply call_of (fun _ => ⟨rfl, rfl⟩)
  apply call_of (fun _ => ⟨rfl, rfl⟩)
  apply call_of (fun _ => ⟨rfl, rfl⟩)
  apply call_of (fun _ => ⟨rfl, rfl⟩)
  exact ⟨rfl, rfl⟩

theorem dma_unwinds : Unwinds Dma.exit (Dma.init calls Held.empty) := by
  unfold Dma.init
  apply unwinds_call rfl
  apply unwinds_call rfl
  apply unwinds_call rfl
  obtain ⟨hfaults, hrelease⟩ := dmaDemoProbe_probed calls
    (h := acquire .platformDriver (acquire .addedDevice (acquire .platformDevice Held.empty))) rfl
  apply unwinds_done hfaults
  exact congrArg (fun h => Dma.platformDeviceUnregister (release .platformDriver h)) hrelease

/-- Whichever of the objects are missing, those that are there are freed before the cache. -/
theorem checkObjects_unwinds (objects : Fin 2 → Bool) {h h₀ h₁ : Kernel}
    (hh : h = acquire .cache Held.empty)
    (hh₀ : h₀ = if objects 0 then acquire (.object 0) h else h)
    (hh₁ : h₁ = if objects 1 then acquire (.object 1) h₀ else h₀) :
    Unwinds KmemCache.exit (call (KmemCache.checkObjects objects) (KmemCache.destroy objects)
      (fun h => h.use (.object 0) |>.use (.object 1)) (done ⟨objects, []⟩) h₁) := by
  subst hh hh₀ hh₁
  unfold KmemCache.checkObjects KmemCache.exit KmemCache.destroy KmemCache.freeObject
  cases hobj₀ : objects 0 with
  | false =>
      cases hobj₁ : objects 1 with
      | false => rfl
      | true => rfl
  | true =>
      cases hobj₁ : objects 1 with
      | false => rfl
      | true =>
          refine ⟨rfl, ?_⟩
          simp only [hobj₀, hobj₁]
          rfl

theorem kmemCache_unwinds : Unwinds KmemCache.exit (KmemCache.init calls Held.empty) := by
  unfold KmemCache.init
  apply unwinds_call rfl
  rw [attempt_eq, attempt_eq]
  exact checkObjects_unwinds (KmemCache.objects calls) rfl rfl rfl

theorem driver_unwinds (code : ℕ) (src : Source) :
    Unwinds (driver code src).exit ((driver code src).init calls Held.empty) := by
  cases src with
  | led => exact gpioDevice_unwinds calls
  | dht11 => exact gpioDevice_unwinds calls
  | ioctl => exact ioctl_unwinds calls
  | chardev => exact chardev_unwinds calls
  | chardev2 => exact chardev_unwinds calls
  | staticKey => exact chardev_unwinds calls
  | vinput => exact vinput_unwinds calls
  | blkram => exact blkram_unwinds calls code
  | dma => exact dma_unwinds calls
  | kmemCache => exact kmemCache_unwinds calls
  | vnetloop => exact vnetloop_unwinds calls
  | helloSysfs => exact helloSysfs_unwinds calls

/-- **Loads and unloads.**  Whichever calls fail, whatever is acquired has what it needs, nothing is
released that is not held or that is still needed, and a module that is not loaded holds nothing. -/
theorem modules_clean (code : ℕ) (src : Source) (acts : List (Act Calls)) :
    Throughout (step (driver code src)) Clean State.init acts :=
  clean_run (fun calls => driver_unwinds calls code src) acts

end Lkmpg.Lifecycle
