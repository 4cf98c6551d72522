import Lkmpg.Dht11.Decode
import Lkmpg.Lib.Transition

/-!
# The start pulse

`dht11_read_data` starts the sensor by a low pulse, which reaches the line only while the pin is an
output, and makes the pin an input.  It makes it an output again when it has read the data, and so does
`device_open` when it has given up.  In between, a retry finds the pin an input.
-/

namespace Lkmpg.Dht11

open Transition

/-- The pin after `dht11_init`. -/
def initPin : Option Bool := some true

/-- What is done to the pin, and the return of `device_open`. -/
inductive Op where
  | gpioSetValue (level : Bool)
  | gpioDirectionInput
  | gpioDirectionOutput (level : Bool)
  | opened

/-- The level that the host puts on the line, or `none` while the pin is an input. -/
def gpioStep (pin : Option Bool) : Op → Option (Option Bool)
  | .gpioSetValue level => some (pin.map fun _ => level)
  | .gpioDirectionInput => some none
  | .gpioDirectionOutput level => some (some level)
  | .opened => some pin

/-- What `dht11_read_data` does to the pin, if it returns `result`. -/
def readDataOps (result : Except ReadError Unit) : List Op :=
  [.gpioSetValue false, .gpioSetValue true, .gpioDirectionInput] ++
    match result with
    | .ok _ => [.gpioDirectionOutput true]
    | .error _ => []

/-- The loop over `retry`, with what the attempts return. -/
def retryOps : List (Except ReadError Unit) → List Op
  | [] => [.gpioDirectionOutput true, .opened]
  | result :: results => readDataOps result ++
      match result with
      | .ok _ => [.opened]
      | .error _ => retryOps results

/-- `device_open`, with what its attempts return as far as it makes them. -/
def deviceOpenOps (attempts : Fin 5 → Except ReadError Unit) : List Op :=
  retryOps (List.ofFn attempts)

/-- The pulse is put on the line, and the pin is left as an output at high level. -/
def Proper (pin : Option Bool) : Op → Prop
  | .gpioSetValue _ => pin.isSome = true
  | .opened => pin = initPin
  | _ => True

instance (pin : Option Bool) : DecidablePred (Proper pin)
  | .gpioSetValue _ => inferInstanceAs (Decidable (pin.isSome = true))
  | .opened => inferInstanceAs (Decidable (pin = initPin))
  | .gpioDirectionInput => isTrue trivial
  | .gpioDirectionOutput _ => isTrue trivial

variable {line : ℕ → Bool} {t : ℕ} {d : Driver} {results : List (Except ReadError Unit)}
  {pin : Option Bool}

/-- The pin after a read. -/
theorem run_readDataOps (line : ℕ → Bool) (t : ℕ) (d : Driver) :
    run gpioStep d.drive (readDataOps (dht11ReadData line t d).2) =
      some (dht11ReadData line t d).1.drive := by
  rw [dht11ReadData]
  cases readSensor line (t + startSequence) with
  | none => rfl
  | some sensorData =>
      simp only
      split <;> rfl

/-- **Return of `device_open`.**  Whatever the attempts return, the pin is an output again. -/
theorem run_retryOps (pin : Option Bool) (results : List (Except ReadError Unit)) :
    run gpioStep pin (retryOps results) = some initPin := by
  induction results generalizing pin with
  | nil => rfl
  | cons result results ih =>
      cases result with
      | ok u => rfl
      | error e => exact ih none

theorem run_deviceOpenOps (pin : Option Bool) (attempts : Fin 5 → Except ReadError Unit) :
    run gpioStep pin (deviceOpenOps attempts) = some initPin :=
  run_retryOps pin (List.ofFn attempts)

/-- A retry starts with the pin as an input. -/
theorem not_proper_retry {e : ReadError} {result : Except ReadError Unit} :
    ¬Along gpioStep Proper pin (retryOps (.error e :: result :: results)) := by
  intro h
  have hfirst : run gpioStep pin (readDataOps (.error e)) = some none := rfl
  have hretry : Along gpioStep Proper none (retryOps (result :: results)) :=
    ((along_append hfirst).mp h).2
  exact absurd hretry.1 (by decide)

theorem proper_open_iff (attempts : Fin 5 → Except ReadError Unit) :
    Along gpioStep Proper initPin (deviceOpenOps attempts) ↔ attempts 0 = .ok () := by
  rw [deviceOpenOps, List.ofFn_succ, List.ofFn_succ]
  cases attempts 0 with
  | ok u =>
      refine iff_of_true ?_ rfl
      show Along gpioStep Proper initPin [.gpioSetValue false, .gpioSetValue true,
        .gpioDirectionInput, .gpioDirectionOutput true, .opened]
      decide
  | error e => exact iff_of_false not_proper_retry nofun

/-- **Start pulses.**  For every sequence of calls of `device_open` after `dht11_init` and every
sequence of results of their attempts: the pin is an output whenever it is set low and high, and an
output at high level after every call, if and only if the first attempt of each call succeeds. -/
theorem proper_iff (opens : List (Fin 5 → Except ReadError Unit)) :
    Along gpioStep Proper initPin (opens.flatMap deviceOpenOps) ↔
      ∀ attempts ∈ opens, attempts 0 = .ok () := by
  induction opens with
  | nil => exact iff_of_true trivial nofun
  | cons attempts opens ih =>
      rw [List.flatMap_cons, along_append (run_deviceOpenOps _ _), List.forall_mem_cons, ← ih]
      exact and_congr_left' (proper_open_iff attempts)

/-- The first attempt times out. -/
theorem not_proper : ¬∀ opens : List (Fin 5 → Except ReadError Unit),
    Along gpioStep Proper initPin (opens.flatMap deviceOpenOps) := by
  intro hall
  have hopen := hall [fun _ => .error .ETIMEDOUT]
  rw [List.flatMap_cons, along_append (run_deviceOpenOps _ _)] at hopen
  exact absurd ((proper_open_iff _).mp hopen.1) nofun

end Lkmpg.Dht11
