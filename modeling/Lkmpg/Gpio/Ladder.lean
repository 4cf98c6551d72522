import Mathlib.Data.Fin.VecNotation
import Lkmpg.Lib.Ledger
import Lkmpg.Lib.Transition

/-!
# The error ladders of `intrpt.c`, `bottomhalf.c` and `bh_threaded.c`

The three init functions request the GPIOs of an LED and two buttons and an interrupt for each
button; a call that fails jumps into a ladder of labels that give back what has been requested so
far.  Each file has two ladders, one for kernels with `gpio_request_array` and one for kernels
without it (`NO_GPIO_REQUEST_ARRAY`).

In the ladder with `gpio_request_array` a failing `gpio_to_irq` of the second button jumps one label
too far, past the `free_irq` of the first button.
-/

namespace Lkmpg.Gpio

open Transition Ledger

/-! ### The calls into the kernel -/

/-- The `dev_id` of a handler: `NULL` or `&buttons[i]`. -/
inductive DevId where
  | null
  | button (i : Fin 2)
  deriving DecidableEq

inductive Resource where
  | gpio (gpio : ℕ)
  | irq (irq : ℤ) (devId : DevId)
  deriving DecidableEq

structure Module where
  ledger : Ledger Resource
  /-- `button_irqs` -/
  buttonIrqs : Fin 2 → ℤ

/-- The calls of an init function that can fail. -/
inductive Site where
  /-- `gpio_request(led_gpio)`, `gpio_request_array(leds)` -/
  | requestLed
  /-- `gpio_direction_output(led_gpio)` -/
  | directionLed
  /-- `gpio_request_array(buttons)` -/
  | requestButtons
  /-- `gpio_request(button_gpios[i])` -/
  | requestButton (i : Fin 2)
  /-- `gpio_direction_input(button_gpios[i])` -/
  | directionButton (i : Fin 2)
  | gpioToIrq (i : Fin 2)
  /-- `request_irq`, `request_threaded_irq` -/
  | requestIrq (i : Fin 2)
  deriving DecidableEq

/-- What the calls return when they are reached: an error code, or a number (that of the interrupt
for `gpio_to_irq`, zero for the others). -/
abbrev Calls := Site → Except ℕ ℕ

namespace Module

variable (m : Module)

def gpioRequest (gpio : ℕ) : Module := { m with ledger := m.ledger.acquire (.gpio gpio) }

def gpioFree (gpio : ℕ) : Module := { m with ledger := m.ledger.release (.gpio gpio) }

/-- `gpio_request_array`, which requests all of the GPIOs or none. -/
def gpioRequestArray (gpios : List ℕ) : Module := gpios.foldl gpioRequest m

def gpioFreeArray (gpios : List ℕ) : Module := gpios.foldl gpioFree m

/-- `button_irqs[i] = ret` -/
def setIrq (i : Fin 2) (ret : ℕ) : Module :=
  { m with buttonIrqs := Function.update m.buttonIrqs i ret }

/-- `request_irq(button_irqs[i], …, dev_id)` -/
def requestIrq (i : Fin 2) (devId : DevId) : Module :=
  { m with ledger := m.ledger.acquire (.irq (m.buttonIrqs i) devId) }

/-- `free_irq(button_irqs[i], dev_id)` -/
def freeIrq (i : Fin 2) (devId : DevId) : Module :=
  { m with ledger := m.ledger.release (.irq (m.buttonIrqs i) devId) }

@[simp] theorem gpioFree_ledger (gpio : ℕ) :
    (m.gpioFree gpio).ledger = m.ledger.release (.gpio gpio) := rfl

@[simp] theorem gpioFreeArray_ledger (gpios : List ℕ) :
    (m.gpioFreeArray gpios).ledger = m.ledger.releaseAll (gpios.map .gpio) := by
  induction gpios generalizing m with
  | nil => rfl
  | cons gpio gpios ih => exact ih (m.gpioFree gpio)

@[simp] theorem freeIrq_ledger (i : Fin 2) (devId : DevId) :
    (m.freeIrq i devId).ledger = m.ledger.release (.irq (m.buttonIrqs i) devId) := rfl

@[simp] theorem freeIrq_buttonIrqs (i : Fin 2) (devId : DevId) :
    (m.freeIrq i devId).buttonIrqs = m.buttonIrqs := rfl

end Module

/-- An init function, with its return value. -/
abbrev Init := Module → Module × Except ℕ Unit

/-- `ret = …; if (ret) goto label;`, where the call does `grant` if it succeeds. -/
def call (ret : Except ℕ ℕ) (label : Module → Module) (grant : Module → ℕ → Module) (next : Init) :
    Init := fun m =>
  match ret with
  | .error e => (label m, .error e)
  | .ok v => next (grant m v)

/-- `return 0;` -/
def done : Init := fun m => (m, .ok ())

/-! ### The ladder with `gpio_request_array` -/

/-- `led_gpio`, `leds` -/
def ledGpio : ℕ := 4

/-- `button_gpios`, `buttons` -/
def buttonGpio : Fin 2 → ℕ := ![17, 18]

def leds : List ℕ := [ledGpio]

def buttons : List ℕ := [buttonGpio 0, buttonGpio 1]

namespace RequestArray

def fail1 (m : Module) : Module := m.gpioFreeArray leds

def fail2 (m : Module) : Module := fail1 (m.gpioFreeArray buttons)

def fail3 (dev : Fin 2 → DevId) (m : Module) : Module := fail2 (m.freeIrq 0 (dev 0))

/-- From the first `gpio_to_irq` on. -/
def initIrqs (dev : Fin 2 → DevId) (calls : Calls) : Init :=
  call (calls (.gpioToIrq 0)) fail2 (fun m ret => m.setIrq 0 ret) <|
  call (calls (.requestIrq 0)) fail2 (fun m _ => m.requestIrq 0 (dev 0)) <|
  call (calls (.gpioToIrq 1)) fail2 (fun m ret => m.setIrq 1 ret) <|
  call (calls (.requestIrq 1)) (fail3 dev) (fun m _ => m.requestIrq 1 (dev 1)) <|
  done

/-- The init functions of the three files, which differ in the `dev_id`s of the handlers. -/
def init (dev : Fin 2 → DevId) (calls : Calls) : Init :=
  call (calls .requestLed) id (fun m _ => m.gpioRequestArray leds) <|
  call (calls .requestButtons) fail1 (fun m _ => m.gpioRequestArray buttons) <|
  initIrqs dev calls

def exit (dev : Fin 2 → DevId) (m : Module) : Module :=
  ((m.freeIrq 0 (dev 0)).freeIrq 1 (dev 1)).gpioFreeArray leds |>.gpioFreeArray buttons

end RequestArray

/-! ### The ladders without it -/

namespace NoRequestArray

/-- The labels from the bottom up, `fail1` to `fail4` in `intrpt.c` and `fail2` to `fail5` in the
other two files. -/
def failLed (m : Module) : Module := m.gpioFree ledGpio

def failButton0 (m : Module) : Module := failLed (m.gpioFree (buttonGpio 0))

def failButton1 (m : Module) : Module := failButton0 (m.gpioFree (buttonGpio 1))

def failIrq0 (m : Module) : Module := failButton1 (m.freeIrq 0 .null)

/-- From the first `gpio_to_irq` on, where the three files agree. -/
def initIrqs (calls : Calls) : Init :=
  call (calls (.gpioToIrq 0)) failButton1 (fun m ret => m.setIrq 0 ret) <|
  call (calls (.requestIrq 0)) failButton1 (fun m _ => m.requestIrq 0 .null) <|
  call (calls (.gpioToIrq 1)) failIrq0 (fun m ret => m.setIrq 1 ret) <|
  call (calls (.requestIrq 1)) failIrq0 (fun m _ => m.requestIrq 1 .null) <|
  done

/-- `intrpt.c`, which does not set the directions. -/
def init (calls : Calls) : Init :=
  call (calls .requestLed) id (fun m _ => m.gpioRequest ledGpio) <|
  call (calls (.requestButton 0)) failLed (fun m _ => m.gpioRequest (buttonGpio 0)) <|
  call (calls (.requestButton 1)) failButton0 (fun m _ => m.gpioRequest (buttonGpio 1)) <|
  initIrqs calls

/-- `bottomhalf.c` and `bh_threaded.c` -/
def initDirections (calls : Calls) : Init :=
  call (calls .requestLed) id (fun m _ => m.gpioRequest ledGpio) <|
  call (calls .directionLed) failLed (fun m _ => m) <|
  call (calls (.requestButton 0)) failLed (fun m _ => m.gpioRequest (buttonGpio 0)) <|
  call (calls (.requestButton 1)) failButton0 (fun m _ => m.gpioRequest (buttonGpio 1)) <|
  call (calls (.directionButton 0)) failButton1 (fun m _ => m) <|
  call (calls (.directionButton 1)) failButton1 (fun m _ => m) <|
  initIrqs calls

def exit (m : Module) : Module :=
  ((m.freeIrq 0 .null).freeIrq 1 .null).gpioFree ledGpio
    |>.gpioFree (buttonGpio 0) |>.gpioFree (buttonGpio 1)

end NoRequestArray

/-! ### The three modules -/

/-- Whether `gpio_request_array` is there (`NO_GPIO_REQUEST_ARRAY` is not defined). -/
inductive Variant where
  | requestArray
  | noRequestArray
  deriving DecidableEq

structure Driver where
  init : Calls → Init
  exit : Module → Module

/-- `intrpt_init`, `intrpt_exit` -/
def intrpt : Variant → Driver
  | .requestArray => ⟨RequestArray.init fun _ => .null, RequestArray.exit fun _ => .null⟩
  | .noRequestArray => ⟨NoRequestArray.init, NoRequestArray.exit⟩

/-- `bottomhalf_init` and `bottomhalf_exit` of `bottomhalf.c` -/
def bottomhalf : Variant → Driver
  | .requestArray => ⟨RequestArray.init fun _ => .null, RequestArray.exit fun _ => .null⟩
  | .noRequestArray => ⟨NoRequestArray.initDirections, NoRequestArray.exit⟩

/-- `bottomhalf_init` and `bottomhalf_exit` of `bh_threaded.c` -/
def bhThreaded : Variant → Driver
  | .requestArray => ⟨RequestArray.init .button, RequestArray.exit .button⟩
  | .noRequestArray => ⟨NoRequestArray.initDirections, NoRequestArray.exit⟩

inductive Source where
  | intrpt
  | bottomhalf
  | bhThreaded
  deriving DecidableEq

def driver : Source → Variant → Driver
  | .intrpt => intrpt
  | .bottomhalf => bottomhalf
  | .bhThreaded => bhThreaded

structure State where
  module : Module
  loaded : Bool

def State.init : State := ⟨⟨Ledger.empty, fun _ => -1⟩, false⟩

inductive Act where
  /-- `insmod`, with what the kernel calls of the init function return -/
  | load (calls : Calls)
  /-- `rmmod` -/
  | unload

/-- The module is loaded if its init function returns zero, with `button_irqs` as declared. -/
def moduleStep (d : Driver) (s : State) : Act → Option State
  | .load calls =>
      if s.loaded then none
      else
        match d.init calls ⟨s.module.ledger, fun _ => -1⟩ with
        | (m, .ok ()) => some ⟨m, true⟩
        | (m, .error _) => some ⟨m, false⟩
  | .unload => if s.loaded then some ⟨d.exit s.module, false⟩ else none

/-- Nothing has been freed that was not held, and while the module is not loaded it holds
nothing. -/
structure Clean (s : State) : Prop where
  stray : s.module.ledger.stray = []
  held : s.loaded = false → s.module.ledger.held = 0

/-- In the ladder with `gpio_request_array` the `gpio_to_irq` of the second button is the first call
to fail. -/
def MissesFree (calls : Calls) : Prop :=
  (calls .requestLed).isOk ∧ (calls .requestButtons).isOk ∧ (calls (.gpioToIrq 0)).isOk ∧
    (calls (.requestIrq 0)).isOk ∧ ¬ (calls (.gpioToIrq 1)).isOk

def NoMissedFree (variant : Variant) (s : State) : Act → Prop
  | .load calls => s.loaded = false → variant = .requestArray → ¬ MissesFree calls
  | .unload => True

/-! ### The ladders match what has been requested -/

variable {dev : Fin 2 → DevId} {l : Ledger Resource} {m m' : Module} {calls : Calls}
  {rs rs' : List Resource}

def requestedGpios : List Resource :=
  [.gpio ledGpio, .gpio (buttonGpio 0), .gpio (buttonGpio 1)]

/-- What a loaded module holds. -/
def granted (dev : Fin 2 → DevId) (m : Module) : List Resource :=
  requestedGpios ++ [.irq (m.buttonIrqs 0) (dev 0), .irq (m.buttonIrqs 1) (dev 1)]

/-- An init function that succeeds holds everything, and one that fails nothing more than before. -/
def Settles (dev : Fin 2 → DevId) (l : Ledger Resource) (r : Module × Except ℕ Unit) : Prop :=
  r.1.ledger = if r.2.isOk then l.acquireAll (granted dev r.1) else l

/-- A call that fails leaves its label to be checked, one that succeeds the rest of the ladder. -/
theorem settles_call {ret : Except ℕ ℕ} {label : Module → Module} {grant : Module → ℕ → Module}
    {next : Init} (hfail : ∀ e, ret = .error e → (label m).ledger = l)
    (hnext : ∀ v, ret = .ok v → Settles dev l (next (grant m v))) :
    Settles dev l (call ret label grant next m) := by
  cases ret with
  | error e => exact hfail e rfl
  | ok v => exact hnext v rfl

theorem call_of_ok {ret : Except ℕ ℕ} (h : ret.isOk) :
    ∃ v, ∀ label grant next m, call ret label grant next m = next (grant m v) := by
  cases ret with
  | error e => cases h
  | ok v => exact ⟨v, fun _ _ _ _ => rfl⟩

theorem call_of_error {ret : Except ℕ ℕ} (h : ¬ ret.isOk) :
    ∃ e, ∀ label grant next m, call ret label grant next m = (label m, .error e) := by
  cases ret with
  | error e => exact ⟨e, fun _ _ _ _ => rfl⟩
  | ok v => exact absurd rfl h

theorem settles_done (hm : m.ledger = l.acquireAll (granted dev m)) : Settles dev l (done m) := hm

/-- A label is right if it frees what is held when it is reached. -/
theorem ledger_of_label (hlabel : m'.ledger = m.ledger.releaseAll rs)
    (hm : m.ledger = l.acquireAll rs') (h : rs.Perm rs') : m'.ledger = l := by
  rw [hlabel, hm, releaseAll_acquireAll l h]

theorem Module.requestIrq_ledger (hm : m.ledger = l.acquireAll rs) (i : Fin 2) (devId : DevId) :
    (m.requestIrq i devId).ledger = l.acquireAll (rs ++ [.irq (m.buttonIrqs i) devId]) := by
  rw [acquireAll_concat, ← hm]
  rfl

/-- Both handlers are there when the second `request_irq` succeeds. -/
theorem ledger_of_irqs (dev : Fin 2 → DevId) (irq : ℕ)
    (hm : m.ledger = l.acquireAll (requestedGpios ++ [.irq (m.buttonIrqs 0) (dev 0)])) :
    ((m.setIrq 1 irq).requestIrq 1 (dev 1)).ledger =
      l.acquireAll (granted dev ((m.setIrq 1 irq).requestIrq 1 (dev 1))) :=
  Module.requestIrq_ledger (m := m.setIrq 1 irq) hm 1 (dev 1)

namespace NoRequestArray

theorem failButton1_ledger (hm : m.ledger = l.acquireAll requestedGpios) :
    (failButton1 m).ledger = l :=
  ledger_of_label rfl hm (List.reverse_perm requestedGpios)

theorem failIrq0_ledger
    (hm : m.ledger = l.acquireAll (requestedGpios ++ [.irq (m.buttonIrqs 0) .null])) :
    (failIrq0 m).ledger = l :=
  ledger_of_label rfl hm (List.reverse_perm (requestedGpios ++ [_]))

theorem initIrqs_settles (calls : Calls) (hm : m.ledger = l.acquireAll requestedGpios) :
    Settles (fun _ => .null) l (initIrqs calls m) := by
  unfold initIrqs
  apply settles_call (fun _ _ => failButton1_ledger hm)
  intro irq₀ _
  have hset : (m.setIrq 0 irq₀).ledger = l.acquireAll requestedGpios := hm
  apply settles_call (fun _ _ => failButton1_ledger hset)
  intro _ _
  -- from here on the handler of the first button is held
  have hirq := Module.requestIrq_ledger hset 0 .null
  apply settles_call (fun _ _ => failIrq0_ledger hirq)
  intro irq₁ _
  have hirq' : (((m.setIrq 0 irq₀).requestIrq 0 .null).setIrq 1 irq₁).ledger = _ := hirq
  apply settles_call (fun _ _ => failIrq0_ledger hirq')
  intro _ _
  exact settles_done (ledger_of_irqs (fun _ => .null) irq₁ hirq)

theorem init_settles (calls : Calls) (m : Module) :
    Settles (fun _ => .null) m.ledger (init calls m) := by
  unfold init
  apply settles_call (fun _ _ => rfl)
  intro _ _
  apply settles_call (fun _ _ => release_acquire m.ledger _)
  intro _ _
  apply settles_call (fun _ _ => ledger_of_label rfl rfl (List.reverse_perm [_, _]))
  intro _ _
  exact initIrqs_settles calls rfl

theorem initDirections_settles (calls : Calls) (m : Module) :
    Settles (fun _ => .null) m.ledger (initDirections calls m) := by
  unfold initDirections
  apply settles_call (fun _ _ => rfl)
  intro _ _
  apply settles_call (fun _ _ => release_acquire m.ledger _)
  intro _ _
  apply settles_call (fun _ _ => release_acquire m.ledger _)
  intro _ _
  apply settles_call (fun _ _ => ledger_of_label rfl rfl (List.reverse_perm [_, _]))
  intro _ _
  apply settles_call (fun _ _ => failButton1_ledger rfl)
  intro _ _
  apply settles_call (fun _ _ => failButton1_ledger rfl)
  intro _ _
  exact initIrqs_settles calls rfl

theorem exit_ledger (hm : m.ledger = l.acquireAll (granted (fun _ => .null) m)) :
    (exit m).ledger = l := by
  have hexit : (exit m).ledger = m.ledger.releaseAll
      ([.irq (m.buttonIrqs 0) .null, .irq (m.buttonIrqs 1) .null] ++ requestedGpios) := by
    simp [exit, requestedGpios]
  exact ledger_of_label hexit hm List.perm_append_comm

end NoRequestArray

namespace RequestArray

theorem fail2_ledger (hm : m.ledger = l.acquireAll requestedGpios) : (fail2 m).ledger = l :=
  ledger_of_label rfl hm (List.perm_append_singleton (Resource.gpio ledGpio) _)

theorem fail3_ledger
    (hm : m.ledger = l.acquireAll (requestedGpios ++ [.irq (m.buttonIrqs 0) (dev 0)])) :
    (fail3 dev m).ledger = l := by
  have hirq : (m.freeIrq 0 (dev 0)).ledger = l.acquireAll requestedGpios := by
    rw [acquireAll_concat] at hm
    show m.ledger.release _ = _
    rw [hm, release_acquire]
  exact fail2_ledger hirq

/-- `fail2` forgets the handler of the first button. -/
theorem fail2_ledger_of_irq {r : Resource} (hm : m.ledger = l.acquireAll (requestedGpios ++ [r])) :
    (fail2 m).ledger = l.acquire r := by
  rw [acquireAll_concat, ← acquireAll_acquire] at hm
  exact fail2_ledger hm

theorem initIrqs_settles (dev : Fin 2 → DevId) (hm : m.ledger = l.acquireAll requestedGpios)
    (h : (calls (.gpioToIrq 0)).isOk → (calls (.requestIrq 0)).isOk → (calls (.gpioToIrq 1)).isOk) :
    Settles dev l (initIrqs dev calls m) := by
  unfold initIrqs
  apply settles_call (fun _ _ => fail2_ledger hm)
  intro irq₀ hto
  have hset : (m.setIrq 0 irq₀).ledger = l.acquireAll requestedGpios := hm
  apply settles_call (fun _ _ => fail2_ledger hset)
  intro _ hrequest
  have hirq := Module.requestIrq_ledger hset 0 (dev 0)
  -- the label of this call is the wrong one
  apply settles_call
  · intro e he
    have hok : (calls (.gpioToIrq 1)).isOk := h (by rw [hto]; rfl) (by rw [hrequest]; rfl)
    rw [he] at hok
    cases hok
  intro irq₁ _
  have hirq' : (((m.setIrq 0 irq₀).requestIrq 0 (dev 0)).setIrq 1 irq₁).ledger = _ := hirq
  apply settles_call (fun _ _ => fail3_ledger hirq')
  intro _ _
  exact settles_done (ledger_of_irqs dev irq₁ hirq)

/-- All labels but the one of the second `gpio_to_irq` are right. -/
theorem init_settles (dev : Fin 2 → DevId) (m : Module) (h : ¬ MissesFree calls) :
    Settles dev m.ledger (init dev calls m) := by
  unfold init
  apply settles_call (fun _ _ => rfl)
  intro _ hled
  apply settles_call (fun _ _ => release_acquire m.ledger _)
  intro _ hbuttons
  refine initIrqs_settles dev rfl fun hto hrequest => ?_
  by_contra hfail
  exact h ⟨by rw [hled]; rfl, by rw [hbuttons]; rfl, hto, hrequest, hfail⟩

/-- The handler of the first button stays when the second `gpio_to_irq` fails. -/
theorem init_of_missesFree (dev : Fin 2 → DevId) (m : Module) (h : MissesFree calls) :
    ∃ irq : ℤ, (init dev calls m).1.ledger = m.ledger.acquire (.irq irq (dev 0)) ∧
      (init dev calls m).2.isOk = false := by
  obtain ⟨hled, hbuttons, hto, hrequest, hfail⟩ := h
  unfold init initIrqs
  obtain ⟨_, hled⟩ := call_of_ok hled
  obtain ⟨_, hbuttons⟩ := call_of_ok hbuttons
  obtain ⟨irq₀, hto⟩ := call_of_ok hto
  obtain ⟨_, hrequest⟩ := call_of_ok hrequest
  obtain ⟨e, hfail⟩ := call_of_error hfail
  rw [hled, hbuttons, hto, hrequest, hfail]
  have hgpios : (((m.gpioRequestArray leds).gpioRequestArray buttons).setIrq 0 irq₀).ledger =
      m.ledger.acquireAll requestedGpios := rfl
  exact ⟨_, fail2_ledger_of_irq (Module.requestIrq_ledger hgpios 0 (dev 0)), rfl⟩

theorem exit_ledger (dev : Fin 2 → DevId) (hm : m.ledger = l.acquireAll (granted dev m)) :
    (exit dev m).ledger = l := by
  have hexit : (exit dev m).ledger = m.ledger.releaseAll
      ([.irq (m.buttonIrqs 0) (dev 0), .irq (m.buttonIrqs 1) (dev 1)] ++ requestedGpios) := by
    simp [exit, requestedGpios, leds, buttons]
  exact ledger_of_label hexit hm List.perm_append_comm

end RequestArray

/-! ### Runs of loads and unloads -/

/-- The `dev_id`s of the handlers. -/
def devId : Source → Variant → Fin 2 → DevId
  | .bhThreaded, .requestArray => .button
  | _, _ => fun _ => .null

variable {source : Source} {variant : Variant} {s t : State} {act : Act}

theorem driver_init_settles (m : Module) (h : variant = .requestArray → ¬ MissesFree calls) :
    Settles (devId source variant) m.ledger ((driver source variant).init calls m) := by
  cases variant with
  | requestArray => cases source <;> exact RequestArray.init_settles _ m (h rfl)
  | noRequestArray =>
      cases source with
      | intrpt => exact NoRequestArray.init_settles calls m
      | bottomhalf => exact NoRequestArray.initDirections_settles calls m
      | bhThreaded => exact NoRequestArray.initDirections_settles calls m

theorem driver_exit_ledger (hm : m.ledger = l.acquireAll (granted (devId source variant) m)) :
    ((driver source variant).exit m).ledger = l := by
  cases variant with
  | requestArray =>
      cases source with
      | intrpt => exact RequestArray.exit_ledger (fun _ => .null) hm
      | bottomhalf => exact RequestArray.exit_ledger (fun _ => .null) hm
      | bhThreaded => exact RequestArray.exit_ledger .button hm
  | noRequestArray =>
      cases source with
      | intrpt => exact NoRequestArray.exit_ledger hm
      | bottomhalf => exact NoRequestArray.exit_ledger hm
      | bhThreaded => exact NoRequestArray.exit_ledger hm

theorem driver_init_of_missesFree (source : Source) (m : Module) (h : MissesFree calls) :
    ∃ r : Resource, ((driver source .requestArray).init calls m).1.ledger = m.ledger.acquire r ∧
      ((driver source .requestArray).init calls m).2.isOk = false := by
  cases source with
  | intrpt => exact ⟨_, (RequestArray.init_of_missesFree _ m h).choose_spec⟩
  | bottomhalf => exact ⟨_, (RequestArray.init_of_missesFree _ m h).choose_spec⟩
  | bhThreaded => exact ⟨_, (RequestArray.init_of_missesFree _ m h).choose_spec⟩

theorem moduleStep_load {d : Driver} (h : moduleStep d s (.load calls) = some t) :
    s.loaded = false ∧ t.module = (d.init calls ⟨s.module.ledger, fun _ => -1⟩).1 ∧
      t.loaded = (d.init calls ⟨s.module.ledger, fun _ => -1⟩).2.isOk := by
  simp only [moduleStep] at h
  split at h
  · cases h
  · rename_i hloaded
    refine ⟨by simpa using hloaded, ?_⟩
    split at h
    · rename_i m heq
      obtain rfl := Option.some.inj h
      rw [heq]
      exact ⟨rfl, rfl⟩
    · rename_i m e heq
      obtain rfl := Option.some.inj h
      rw [heq]
      exact ⟨rfl, rfl⟩

theorem moduleStep_unload {d : Driver} (h : moduleStep d s .unload = some t) :
    s.loaded = true ∧ t = ⟨d.exit s.module, false⟩ := by
  simp only [moduleStep] at h
  split at h
  · rename_i hloaded
    exact ⟨hloaded, (Option.some.inj h).symm⟩
  · cases h

/-- What is held while the module is loaded, and while it is not. -/
def Holds (dev : Fin 2 → DevId) (l : Ledger Resource) (s : State) : Prop :=
  s.module.ledger = if s.loaded then l.acquireAll (granted dev s.module) else l

theorem clean_of_holds (h : Holds dev .empty s) : Clean s := by
  constructor
  · rw [h]
    split
    · exact stray_acquireAll _ _
    · rfl
  · intro hloaded
    rw [h, hloaded]
    rfl

theorem holds_step (hs : Holds (devId source variant) l s) (hact : NoMissedFree variant s act)
    (h : moduleStep (driver source variant) s act = some t) :
    Holds (devId source variant) l t := by
  cases act with
  | load calls =>
      obtain ⟨hloaded, hmodule, hok⟩ := moduleStep_load h
      have hl : s.module.ledger = l := by rw [hs, hloaded]; rfl
      have hsettles : Settles _ s.module.ledger ((driver source variant).init calls _) :=
        driver_init_settles ⟨s.module.ledger, fun _ => -1⟩ (hact hloaded)
      rw [Settles, ← hmodule, ← hok, hl] at hsettles
      exact hsettles
  | unload =>
      obtain ⟨hloaded, rfl⟩ := moduleStep_unload h
      rw [Holds, hloaded] at hs
      exact driver_exit_ledger hs

/-- A load that misses the `free_irq` leaves a handler behind. -/
theorem holds_of_missed (hs : Holds (devId source variant) l s)
    (h : moduleStep (driver source variant) s act = some t)
    (hact : ¬ NoMissedFree variant s act) :
    t.loaded = false ∧ ∃ r : Resource, Holds (devId source variant) (l.acquire r) t := by
  cases act with
  | unload => exact absurd trivial hact
  | load calls =>
      simp only [NoMissedFree, Classical.not_imp, not_not] at hact
      obtain ⟨hloaded, rfl, hmissed⟩ := hact
      obtain ⟨-, hmodule, hok⟩ := moduleStep_load h
      obtain ⟨r, hledger, hfailed⟩ := driver_init_of_missesFree source
        ⟨s.module.ledger, fun _ => -1⟩ hmissed
      have hl : s.module.ledger = l := by rw [hs, hloaded]; rfl
      rw [hfailed] at hok
      refine ⟨hok, r, ?_⟩
      rw [Holds, hmodule, hledger, hok, hl]
      rfl

theorem not_clean_of_missed (hs : Holds (devId source variant) l s)
    (h : moduleStep (driver source variant) s act = some t)
    (hact : ¬ NoMissedFree variant s act) : ¬ Clean t := by
  obtain ⟨hloaded, r, ht⟩ := holds_of_missed hs h hact
  intro hclean
  have hheld : t.module.ledger.held = 0 := hclean.held hloaded
  rw [ht, hloaded] at hheld
  exact held_acquire_ne_zero l r hheld

/-- A loaded module holds everything once, on top of handlers that have been left behind. -/
def OnTopOfLeaks (dev : Fin 2 → DevId) (s : State) : Prop :=
  ∃ l : Ledger Resource, l.stray = [] ∧ Holds dev l s

theorem OnTopOfLeaks.step (hs : OnTopOfLeaks (devId source variant) s)
    (h : moduleStep (driver source variant) s act = some t) :
    OnTopOfLeaks (devId source variant) t := by
  obtain ⟨l, hl, hs⟩ := hs
  by_cases hact : NoMissedFree variant s act
  · exact ⟨l, hl, holds_step hs hact h⟩
  · obtain ⟨-, r, ht⟩ := holds_of_missed hs h hact
    exact ⟨l.acquire r, hl, ht⟩

/-- No run frees what is not held, not even one that leaves handlers behind. -/
theorem stray_eq_nil_of_run {acts : List Act}
    (hrun : run (moduleStep (driver source variant)) State.init acts = some s) :
    s.module.ledger.stray = [] := by
  have hinit : OnTopOfLeaks (devId source variant) State.init := ⟨.empty, rfl, rfl⟩
  obtain ⟨l, hl, hs⟩ := run_invariant (fun _ _ _ hu h => OnTopOfLeaks.step hu h) hinit hrun
  rw [hs]
  split
  · rw [stray_acquireAll, hl]
  · exact hl

/-- **Acquisitions and releases.**  In each of the three files and both build variants: nothing is
held after a failed init or an exit, and nothing is freed that is not held, exactly in the runs in
which the `gpio_to_irq` of the second button is never the first call to fail under
`gpio_request_array`. -/
theorem resources_matched_iff (source : Source) (variant : Variant) (acts : List Act) :
    Throughout (moduleStep (driver source variant)) Clean State.init acts ↔
      Along (moduleStep (driver source variant)) (NoMissedFree variant) State.init acts := by
  have hinit : Holds (devId source variant) .empty State.init := rfl
  refine throughout_iff_along (I := Holds (devId source variant) .empty) ?_ ?_ ?_ hinit
    (clean_of_holds hinit)
  · intro s act hnone
    cases act with
    | unload => trivial
    | load calls =>
        intro hloaded
        rw [moduleStep, if_neg (by simp [hloaded])] at hnone
        split at hnone
        · cases hnone
        · cases hnone
  · intro s act t hs _ hact h
    exact holds_step hs hact h
  · intro s act t hs _ h
    refine ⟨fun hact => clean_of_holds (holds_step hs hact h), fun hclean => ?_⟩
    by_contra hact
    exact not_clean_of_missed hs h hact hclean

/-- The second `gpio_to_irq` fails. -/
def secondFails : Calls
  | .gpioToIrq 1 => .error 22
  | _ => .ok 0

theorem not_resources_matched :
    ¬ ∀ (source : Source) (variant : Variant) (acts : List Act),
      Throughout (moduleStep (driver source variant)) Clean State.init acts := by
  intro h
  have hrun : run (moduleStep (driver .intrpt .requestArray)) State.init [.load secondFails] =
      some _ := rfl
  have hclean : Clean _ := (h .intrpt .requestArray [.load secondFails]).last hrun
  exact absurd (hclean.held rfl) (by decide)

end Lkmpg.Gpio
