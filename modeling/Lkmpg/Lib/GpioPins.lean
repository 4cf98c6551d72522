import Mathlib.Data.Nat.Notation
import Mathlib.Logic.Function.Basic

/-!
# GPIO pins

A pin has a direction and a level.  A request leaves it as it is, unless it comes with flags
(`gpioRequestOne`, `gpioRequestArray`); a level is driven onto the line only while the pin is an
output (`gpioSetValue`).
-/

namespace GpioPins

structure Pin where
  output : Bool
  level : Bool
  deriving DecidableEq

abbrev Pins := ℕ → Pin

/-- The flags of a `struct gpio`: an input, or an output that starts at a level. -/
inductive Flags where
  | input
  | outInit (level : Bool)
  deriving DecidableEq

structure Gpio where
  gpio : ℕ
  flags : Flags

namespace Pins

variable (pins : Pins) {gpio gpio' : ℕ}

def gpioDirectionInput (gpio : ℕ) : Pins :=
  Function.update pins gpio ⟨false, (pins gpio).level⟩

def gpioDirectionOutput (gpio : ℕ) (value : Bool) : Pins :=
  Function.update pins gpio ⟨true, value⟩

def gpioGetValue (gpio : ℕ) : Bool := (pins gpio).level

def gpioSetValue (gpio : ℕ) (value : Bool) : Pins :=
  if (pins gpio).output then Function.update pins gpio ⟨true, value⟩ else pins

/-- `gpio_request_one` -/
def gpioRequestOne (g : Gpio) : Pins :=
  match g.flags with
  | .input => pins.gpioDirectionInput g.gpio
  | .outInit level => pins.gpioDirectionOutput g.gpio level

def gpioRequestArray (array : List Gpio) : Pins := array.foldl gpioRequestOne pins

theorem gpioDirectionInput_of_ne (h : gpio ≠ gpio') :
    pins.gpioDirectionInput gpio' gpio = pins gpio :=
  Function.update_of_ne h _ _

theorem gpioDirectionOutput_self (gpio : ℕ) (value : Bool) :
    pins.gpioDirectionOutput gpio value gpio = ⟨true, value⟩ :=
  Function.update_self _ _ _

/-- A level set on an output is the level of the line. -/
theorem gpioSetValue_of_output (h : (pins gpio).output = true) (value : Bool) :
    pins.gpioSetValue gpio value gpio = ⟨true, value⟩ := by
  rw [gpioSetValue, if_pos h]
  exact Function.update_self _ _ _

theorem gpioRequestOne_of_ne {g : Gpio} (h : gpio ≠ g.gpio) :
    pins.gpioRequestOne g gpio = pins gpio := by
  unfold gpioRequestOne
  cases g.flags with
  | input => exact Function.update_of_ne h _ _
  | outInit level => exact Function.update_of_ne h _ _

/-- A request leaves the pins that are not in the array alone. -/
theorem gpioRequestArray_of_notMem {array : List Gpio} (h : ∀ g ∈ array, gpio ≠ g.gpio) :
    pins.gpioRequestArray array gpio = pins gpio := by
  induction array generalizing pins with
  | nil => rfl
  | cons g array ih =>
      obtain ⟨hg, harray⟩ := List.forall_mem_cons.mp h
      show (pins.gpioRequestOne g).gpioRequestArray array gpio = pins gpio
      rw [ih _ harray]
      exact gpioRequestOne_of_ne pins hg

end Pins

end GpioPins
