import Lkmpg.Lib.GpioPins
import Lkmpg.Gpio.Ladder
import Lkmpg.Bottomhalf.Work

/-!
# The LED and the two buttons of `intrpt.c` and `bottomhalf.c`

`button_isr` sets the LED when the first button has raised an interrupt and clears it when the second
one has.  A level is driven onto the line only if the pin is an output, so the init functions must
have made it one: `gpio_request_array` does so by the flags of `leds`, and without it
`bottomhalf_init` calls `gpio_direction_output`, but `intrpt_init` calls nothing of the kind.
-/

namespace Lkmpg.Gpio

open Transition GpioPins

/-! ### The pins after an init function -/

/-- The entries of `leds`, with their flags (`GPIOF_OUT_INIT_LOW`). -/
def ledEntries : List Gpio := [⟨ledGpio, .outInit false⟩]

/-- The entries of `buttons`, with their flags (`GPIOF_IN`). -/
def buttonEntries : List Gpio := [⟨buttonGpio 0, .input⟩, ⟨buttonGpio 1, .input⟩]

/-- What a call of an init function does to the pins if it succeeds.  `gpio_request` does not
configure a direction. -/
def Site.configure (variant : Variant) (pins : Pins) : Site → Pins
  | .requestLed =>
      match variant with
      | .requestArray => pins.gpioRequestArray ledEntries
      | .noRequestArray => pins
  | .directionLed => pins.gpioDirectionOutput ledGpio false
  | .requestButtons => pins.gpioRequestArray buttonEntries
  | .requestButton _ => pins
  | .directionButton i => pins.gpioDirectionInput (buttonGpio i)
  | .gpioToIrq _ => pins
  | .requestIrq _ => pins

def irqSites : List Site := [.gpioToIrq 0, .requestIrq 0, .gpioToIrq 1, .requestIrq 1]

/-- The calls of the init functions in their order. -/
def sites : Source → Variant → List Site
  | _, .requestArray => [.requestLed, .requestButtons] ++ irqSites
  | .intrpt, .noRequestArray => [.requestLed, .requestButton 0, .requestButton 1] ++ irqSites
  | _, .noRequestArray =>
      [.requestLed, .directionLed, .requestButton 0, .requestButton 1, .directionButton 0,
        .directionButton 1] ++ irqSites

/-- The calls up to the first one that fails. -/
def configureAll (variant : Variant) (calls : Calls) : List Site → Pins → Pins
  | [], pins => pins
  | site :: rest, pins =>
      match calls site with
      | .ok _ => configureAll variant calls rest (site.configure variant pins)
      | .error _ => pins

/-- The pins after the init function. -/
def initPins (source : Source) (variant : Variant) (calls : Calls) (pins : Pins) : Pins :=
  configureAll variant calls (sites source variant) pins

/-! ### The interrupt handlers -/

structure Board where
  pins : Pins
  /-- `bottomhalf_work` is pending -/
  workPending : Bool

def Board.scheduleWork (b : Board) : Board := { b with workPending := true }

/-- The value to which `button_isr` sets the LED, if it does. -/
def ledValue (m : Module) (irq : ℤ) (pins : Pins) : Option Bool :=
  if irq = m.buttonIrqs 0 ∧ ¬ pins.gpioGetValue ledGpio then some true
  else if irq = m.buttonIrqs 1 ∧ pins.gpioGetValue ledGpio then some false
  else none

def Board.setLed (m : Module) (irq : ℤ) (b : Board) : Board :=
  match ledValue m irq b.pins with
  | some value => { b with pins := b.pins.gpioSetValue ledGpio value }
  | none => b

/-- `button_isr`; the handlers of `bh_threaded.c` do not touch the LED. -/
def buttonIsr : Source → Module → ℤ → Board → Board
  | .intrpt, m, irq, b => b.setLed m irq
  | .bottomhalf, m, irq, b => (b.setLed m irq).scheduleWork
  | .bhThreaded, _, _, b => b

/-- An interrupt of button `k`, whose handler is registered under `button_irqs[k]`. -/
def pressStep (source : Source) (m : Module) (b : Board) (k : Fin 2) : Option Board :=
  some (buttonIsr source m (m.buttonIrqs k) b)

/-- The pin of the LED is an output whenever it is set, and in the end the LED is on if the last
interrupt came from the first button. -/
structure FollowsLast (source : Source) (m : Module) (b : Board) (presses : List (Fin 2)) : Prop where
  output : Along (pressStep source m)
    (fun b k => ledValue m (m.buttonIrqs k) b.pins ≠ none → (b.pins ledGpio).output = true)
    b presses
  level : ∀ b', run (pressStep source m) b presses = some b' →
    ((b'.pins ledGpio).level = true ↔ presses.getLast? = some 0)

/-- The init function that leaves the direction of the LED's pin as it finds it. -/
def LedUnconfigured (source : Source) (variant : Variant) : Prop :=
  source = .intrpt ∧ variant = .noRequestArray

instance (source : Source) (variant : Variant) : Decidable (LedUnconfigured source variant) := inferInstanceAs (Decidable (_ ∧ _))

/-- `request_irq` without `IRQF_SHARED` fails on an interrupt that has a handler. -/
def ExclusiveIrqs (calls : Calls) : Prop :=
  ∀ irq, calls (.gpioToIrq 0) = .ok irq → calls (.gpioToIrq 1) = .ok irq →
    ¬ (calls (.requestIrq 1)).isOk

/-! ### A successful init -/

variable {source : Source} {variant : Variant} {calls : Calls} {m m' : Module} {pins : Pins}
  {b : Board} {presses : List (Fin 2)} {k : Fin 2}

/-- A call that is passed has succeeded. -/
theorem isOk_of_call {ret : Except ℕ ℕ} {label : Module → Module} {grant : Module → ℕ → Module}
    {next : Init} (h : call ret label grant next m = (m', .ok ())) :
    ∃ v, ret = .ok v ∧ next (grant m v) = (m', .ok ()) := by
  cases ret with
  | error e => cases h
  | ok v => exact ⟨v, rfl, h⟩

theorem configureAll_of_ok {list : List Site} (h : ∀ site ∈ list, (calls site).isOk) :
    configureAll variant calls list pins = list.foldl (Site.configure variant) pins := by
  induction list generalizing pins with
  | nil => rfl
  | cons site rest ih =>
      obtain ⟨hsite, hrest⟩ := List.forall_mem_cons.mp h
      unfold configureAll
      cases hcall : calls site with
      | error e => rw [hcall] at hsite; cases hsite
      | ok v => exact ih hrest

/-- Each interrupt has been requested under the number that `gpio_to_irq` has returned. -/
structure IrqsGranted (calls : Calls) (m : Module) : Prop where
  gpioToIrq : ∀ i, ∃ irq : ℕ, calls (.gpioToIrq i) = .ok irq ∧ m.buttonIrqs i = irq
  requestIrq : ∀ i, (calls (.requestIrq i)).isOk

theorem IrqsGranted.sites (h : IrqsGranted calls m) : ∀ site ∈ irqSites, (calls site).isOk := by
  have hto : ∀ i, (calls (.gpioToIrq i)).isOk := by
    intro i
    obtain ⟨irq, hirq, -⟩ := h.gpioToIrq i
    rw [hirq]
    rfl
  intro site hsite
  simp only [irqSites, List.mem_cons, List.not_mem_nil, or_false] at hsite
  obtain rfl | rfl | rfl | rfl := hsite
  · exact hto 0
  · exact h.requestIrq 0
  · exact hto 1
  · exact h.requestIrq 1

/-- The calls from the first `gpio_to_irq` on, whatever their labels are. -/
theorem irqsGranted_of_calls {dev : Fin 2 → DevId} {label₁ label₂ label₃ label₄ : Module → Module}
    (h : (call (calls (.gpioToIrq 0)) label₁ (fun m ret => m.setIrq 0 ret) <|
      call (calls (.requestIrq 0)) label₂ (fun m _ => m.requestIrq 0 (dev 0)) <|
      call (calls (.gpioToIrq 1)) label₃ (fun m ret => m.setIrq 1 ret) <|
      call (calls (.requestIrq 1)) label₄ (fun m _ => m.requestIrq 1 (dev 1)) done) m = (m', .ok ())) :
    IrqsGranted calls m' := by
  obtain ⟨irq₀, hto₀, h⟩ := isOk_of_call h
  obtain ⟨_, hrequest₀, h⟩ := isOk_of_call h
  obtain ⟨irq₁, hto₁, h⟩ := isOk_of_call h
  obtain ⟨_, hrequest₁, h⟩ := isOk_of_call h
  obtain ⟨rfl, -⟩ := Prod.mk.inj h
  constructor
  · exact Fin.forall_fin_two.mpr ⟨⟨irq₀, hto₀, rfl⟩, ⟨irq₁, hto₁, rfl⟩⟩
  · exact Fin.forall_fin_two.mpr ⟨by rw [hrequest₀]; rfl, by rw [hrequest₁]; rfl⟩

theorem RequestArray.irqsGranted_of_ok {dev : Fin 2 → DevId}
    (h : RequestArray.initIrqs dev calls m = (m', .ok ())) : IrqsGranted calls m' :=
  irqsGranted_of_calls h

theorem NoRequestArray.irqsGranted_of_ok (h : NoRequestArray.initIrqs calls m = (m', .ok ())) :
    IrqsGranted calls m' :=
  @irqsGranted_of_calls calls m m' (fun _ => .null) _ _ _ _ h

theorem irqs_ne (hirqs : ExclusiveIrqs calls) (h : IrqsGranted calls m) :
    m.buttonIrqs 0 ≠ m.buttonIrqs 1 := by
  obtain ⟨irq₀, hto₀, hm₀⟩ := h.gpioToIrq 0
  obtain ⟨irq₁, hto₁, hm₁⟩ := h.gpioToIrq 1
  intro heq
  obtain rfl : irq₀ = irq₁ := by
    rw [hm₀, hm₁] at heq
    exact Int.ofNat.inj heq
  exact hirqs irq₀ hto₀ hto₁ (h.requestIrq 1)

/-- What is known of the calls and of `button_irqs` when an init function returns zero. -/
def Succeeded (list : List Site) (calls : Calls) (m : Module) : Prop :=
  (∀ site ∈ list ++ irqSites, (calls site).isOk) ∧ IrqsGranted calls m

theorem succeeded_nil (h : IrqsGranted calls m) : Succeeded [] calls m := ⟨h.sites, h⟩

theorem Succeeded.cons {site : Site} {list : List Site} {v : ℕ} (hsite : calls site = .ok v)
    (h : Succeeded list calls m) : Succeeded (site :: list) calls m := by
  refine ⟨List.forall_mem_cons.mpr ⟨?_, h.1⟩, h.2⟩
  rw [hsite]
  rfl

theorem RequestArray.succeeded_of_ok {dev : Fin 2 → DevId}
    (h : RequestArray.init dev calls m = (m', .ok ())) :
    Succeeded [.requestLed, .requestButtons] calls m' := by
  obtain ⟨_, hled, h⟩ := isOk_of_call h
  obtain ⟨_, hbuttons, h⟩ := isOk_of_call h
  exact ((succeeded_nil (irqsGranted_of_ok h)).cons hbuttons).cons hled

theorem NoRequestArray.succeeded_of_ok (h : NoRequestArray.init calls m = (m', .ok ())) :
    Succeeded [.requestLed, .requestButton 0, .requestButton 1] calls m' := by
  obtain ⟨_, hled, h⟩ := isOk_of_call h
  obtain ⟨_, hbutton₀, h⟩ := isOk_of_call h
  obtain ⟨_, hbutton₁, h⟩ := isOk_of_call h
  exact (((succeeded_nil (irqsGranted_of_ok h)).cons hbutton₁).cons hbutton₀).cons hled

theorem NoRequestArray.succeeded_of_directions_ok
    (h : NoRequestArray.initDirections calls m = (m', .ok ())) :
    Succeeded [.requestLed, .directionLed, .requestButton 0, .requestButton 1, .directionButton 0,
      .directionButton 1] calls m' := by
  obtain ⟨_, hled, h⟩ := isOk_of_call h
  obtain ⟨_, hdirection, h⟩ := isOk_of_call h
  obtain ⟨_, hbutton₀, h⟩ := isOk_of_call h
  obtain ⟨_, hbutton₁, h⟩ := isOk_of_call h
  obtain ⟨_, hdirection₀, h⟩ := isOk_of_call h
  obtain ⟨_, hdirection₁, h⟩ := isOk_of_call h
  have hdirections : Succeeded [.directionButton 0, .directionButton 1] calls m' :=
    ((succeeded_nil (irqsGranted_of_ok h)).cons hdirection₁).cons hdirection₀
  exact (((hdirections.cons hbutton₁).cons hbutton₀).cons hdirection).cons hled

/-- An init function that returns zero has made all of its calls. -/
theorem succeeded_of_init (h : (driver source variant).init calls m = (m', .ok ())) :
    (∀ site ∈ sites source variant, (calls site).isOk) ∧ IrqsGranted calls m' := by
  cases variant with
  | requestArray => cases source <;> exact RequestArray.succeeded_of_ok h
  | noRequestArray =>
      cases source with
      | intrpt => exact NoRequestArray.succeeded_of_ok h
      | bottomhalf => exact NoRequestArray.succeeded_of_directions_ok h
      | bhThreaded => exact NoRequestArray.succeeded_of_directions_ok h

theorem buttonGpio_ne_ledGpio (i : Fin 2) : ledGpio ≠ buttonGpio i := by
  revert i
  decide

theorem gpioRequestArray_buttons (pins : Pins) :
    pins.gpioRequestArray buttonEntries ledGpio = pins ledGpio := by
  apply Pins.gpioRequestArray_of_notMem
  intro g hg
  simp only [buttonEntries, List.mem_cons, List.not_mem_nil, or_false] at hg
  obtain rfl | rfl := hg
  · exact buttonGpio_ne_ledGpio 0
  · exact buttonGpio_ne_ledGpio 1

/-- The pin of the LED after the calls that concern the buttons. -/
theorem configure_led {site : Site} (hled : site ≠ .requestLed) (hdirection : site ≠ .directionLed) :
    site.configure variant pins ledGpio = pins ledGpio := by
  cases site with
  | requestLed => exact absurd rfl hled
  | directionLed => exact absurd rfl hdirection
  | requestButtons => exact gpioRequestArray_buttons pins
  | requestButton i => rfl
  | directionButton i => exact Pins.gpioDirectionInput_of_ne pins (buttonGpio_ne_ledGpio i)
  | gpioToIrq i => rfl
  | requestIrq i => rfl

theorem foldl_configure_led {list : List Site}
    (h : ∀ site ∈ list, site ≠ .requestLed ∧ site ≠ .directionLed) :
    list.foldl (Site.configure variant) pins ledGpio = pins ledGpio := by
  induction list generalizing pins with
  | nil => rfl
  | cons site list ih =>
      obtain ⟨⟨hled, hdirection⟩, hlist⟩ := List.forall_mem_cons.mp h
      show list.foldl (Site.configure variant) (site.configure variant pins) ledGpio = pins ledGpio
      rw [ih hlist, configure_led hled hdirection]

/-- `gpio_direction_output` and the calls after it. -/
theorem foldl_directionLed :
    ([Site.directionLed, .requestButton 0, .requestButton 1, .directionButton 0,
      .directionButton 1] ++ irqSites).foldl (Site.configure variant) pins ledGpio =
        ⟨true, false⟩ := by
  show ([Site.requestButton 0, .requestButton 1, .directionButton 0, .directionButton 1] ++
    irqSites).foldl _ (pins.gpioDirectionOutput ledGpio false) ledGpio = _
  rw [foldl_configure_led (by decide)]
  exact Pins.gpioDirectionOutput_self pins ledGpio false

/-- **Directions.**  After a successful init the LED's pin is an output that is low, except where
the init function does not configure it. -/
theorem initPins_led (hinit : (driver source variant).init calls m = (m', .ok ())) :
    initPins source variant calls pins ledGpio =
      if LedUnconfigured source variant then pins ledGpio else ⟨true, false⟩ := by
  rw [initPins, configureAll_of_ok (succeeded_of_init hinit).1]
  cases variant with
  | requestArray =>
      have hled : (sites source .requestArray).foldl (Site.configure .requestArray) pins =
          ([Site.requestButtons] ++ irqSites).foldl (Site.configure .requestArray)
            (pins.gpioDirectionOutput ledGpio false) := by
        cases source <;> rfl
      rw [hled, foldl_configure_led (by decide), if_neg (fun h => nomatch h.2)]
      exact Pins.gpioDirectionOutput_self pins ledGpio false
  | noRequestArray =>
      cases source with
      | intrpt =>
          show ([Site.requestButton 0, .requestButton 1] ++ irqSites).foldl _ pins ledGpio = _
          rw [foldl_configure_led (by decide), if_pos ⟨rfl, rfl⟩]
      | bottomhalf => exact foldl_directionLed
      | bhThreaded => exact foldl_directionLed

/-! ### The presses -/

/-- The handler sets the LED if its level is not yet the one that the button asks for. -/
theorem ledValue_of_press (hne : m.buttonIrqs 0 ≠ m.buttonIrqs 1) (k : Fin 2) (pins : Pins) :
    ledValue m (m.buttonIrqs k) pins =
      if (pins ledGpio).level = decide (k = 0) then none else some (decide (k = 0)) := by
  obtain rfl | rfl : k = 0 ∨ k = 1 := by omega
  · cases hlevel : (pins ledGpio).level with
    | false => simp [ledValue, Pins.gpioGetValue, hlevel]
    | true => simp [ledValue, Pins.gpioGetValue, hlevel, hne]
  · cases hlevel : (pins ledGpio).level with
    | false => simp [ledValue, Pins.gpioGetValue, hlevel, hne.symm]
    | true => simp [ledValue, Pins.gpioGetValue, hlevel]

theorem buttonIsr_pins (hsource : source = .intrpt ∨ source = .bottomhalf) (irq : ℤ) (b : Board) :
    (buttonIsr source m irq b).pins = (b.setLed m irq).pins := by
  obtain rfl | rfl := hsource
  · rfl
  · rfl

theorem setLed_of_level (hne : m.buttonIrqs 0 ≠ m.buttonIrqs 1)
    (h : (b.pins ledGpio).level = decide (k = 0)) : b.setLed m (m.buttonIrqs k) = b := by
  rw [Board.setLed, ledValue_of_press hne, if_pos h]

/-- **Step.**  A press on an output leaves the level that the button asks for. -/
theorem setLed_of_output (hne : m.buttonIrqs 0 ≠ m.buttonIrqs 1)
    (h : (b.pins ledGpio).output = true) (k : Fin 2) :
    (b.setLed m (m.buttonIrqs k)).pins ledGpio = ⟨true, decide (k = 0)⟩ := by
  by_cases hlevel : (b.pins ledGpio).level = decide (k = 0)
  · rw [setLed_of_level hne hlevel, ← h, ← hlevel]
  · rw [Board.setLed, ledValue_of_press hne, if_neg hlevel]
    exact Pins.gpioSetValue_of_output b.pins h _

/-- On an output the handler does with the level what the account of `bottomhalf.c` says that it does
with the LED. -/
theorem buttonIsr_level (hne : m.buttonIrqs 0 ≠ m.buttonIrqs 1)
    (h : (b.pins ledGpio).output = true) (k : Fin 2) :
    ((buttonIsr .bottomhalf m (m.buttonIrqs k) b).pins ledGpio).level =
      Bottomhalf.isrLed k (b.pins ledGpio).level := by
  rw [buttonIsr_pins (Or.inr rfl), setLed_of_output hne h]
  obtain rfl | rfl : k = 0 ∨ k = 1 := by omega
  · cases (b.pins ledGpio).level with
    | false => rfl
    | true => rfl
  · cases (b.pins ledGpio).level with
    | false => rfl
    | true => rfl

/-- The pin of the LED is an output, at the level that the last press asks for. -/
def ShowsLast (presses : List (Fin 2)) (b : Board) : Prop :=
  (b.pins ledGpio).output = true ∧
    ∀ k, presses.getLast? = some k → (b.pins ledGpio).level = decide (k = 0)

section Presses

variable (hsource : source = .intrpt ∨ source = .bottomhalf)
  (hne : m.buttonIrqs 0 ≠ m.buttonIrqs 1)

include hsource hne

theorem pressStep_of_output {b b' : Board} (hb : (b.pins ledGpio).output = true)
    (h : pressStep source m b k = some b') : b'.pins ledGpio = ⟨true, decide (k = 0)⟩ := by
  obtain rfl := Option.some.inj h
  rw [buttonIsr_pins hsource]
  exact setLed_of_output hne hb k

/-- A press that asks for the level that is there changes nothing. -/
theorem pressStep_of_input {level : Bool} {b b' : Board} (hb : b.pins ledGpio = ⟨false, level⟩)
    (hk : level = decide (k = 0)) (h : pressStep source m b k = some b') :
    b'.pins ledGpio = ⟨false, level⟩ := by
  obtain rfl := Option.some.inj h
  rw [buttonIsr_pins hsource, setLed_of_level hne (by rw [hb]; exact hk), hb]

/-- On an output the LED shows the last press, if there has been one. -/
theorem showsLast_of_run {b' : Board} (hb : (b.pins ledGpio).output = true)
    (hrun : run (pressStep source m) b presses = some b') : ShowsLast presses b' := by
  have hstep : ∀ ls c k c', run (pressStep source m) b ls = some c → ShowsLast ls c →
      True → pressStep source m c k = some c' → ShowsLast (ls ++ [k]) c' := by
    intro ls c k c' _ hc _ h
    have hled : c'.pins ledGpio = ⟨true, decide (k = 0)⟩ := pressStep_of_output hsource hne hc.1 h
    refine ⟨by rw [hled], fun l hl => ?_⟩
    rw [List.getLast?_concat] at hl
    obtain rfl := Option.some.inj hl
    rw [hled]
  exact run_induction_history hstep ⟨hb, fun k hk => nomatch hk⟩
    (Along.of_forall fun _ _ => trivial) hrun

/-- **Run.**  On an output every sequence of presses is followed. -/
theorem followsLast_of_output (hb : (b.pins ledGpio).output = true) (hpresses : presses ≠ []) :
    FollowsLast source m b presses := by
  constructor
  · have hstep : ∀ b k b', (b.pins ledGpio).output = true → True →
        pressStep source m b k = some b' → (b'.pins ledGpio).output = true := by
      intro b k b' hb _ h
      rw [pressStep_of_output hsource hne hb h]
    have hset : ∀ (b : Board) (k : Fin 2), (b.pins ledGpio).output = true → True →
        ledValue m (m.buttonIrqs k) b.pins ≠ none → (b.pins ledGpio).output = true :=
      fun _ _ hb _ _ => hb
    exact along_of_invariant hstep hset hb (Along.of_forall fun _ _ => trivial)
  · intro b' hrun
    obtain ⟨k, hk⟩ := Option.isSome_iff_exists.mp (List.getLast?_isSome.mpr hpresses)
    rw [(showsLast_of_run hsource hne hb hrun).2 k hk, hk, decide_eq_true_iff, Option.some_inj]

/-- On an input the handler may not set the LED, so all presses ask for the level that is there. -/
theorem output_iff_of_input {level : Bool} (hb : b.pins ledGpio = ⟨false, level⟩) :
    Along (pressStep source m)
        (fun b k => ledValue m (m.buttonIrqs k) b.pins ≠ none → (b.pins ledGpio).output = true)
        b presses ↔
      ∀ k ∈ presses, level = decide (k = 0) := by
  rw [← along_iff_forall (fun _ _ => ⟨_, rfl⟩)]
  refine along_iff_along (fun _ _ _ hb hk h => pressStep_of_input hsource hne hb hk h)
    (fun b k hb => ?_) hb
  rw [ledValue_of_press hne, hb]
  by_cases hk : level = decide (k = 0)
  · exact iff_of_true (fun hset => absurd (if_pos hk) hset) hk
  · refine iff_of_false (fun hset => ?_) hk
    have hsome : (if level = decide (k = 0) then none else some (decide (k = 0))) ≠ none := by
      rw [if_neg hk]
      exact Option.some_ne_none _
    exact Bool.false_ne_true (hset hsome)

/-- On an input the presses that are followed are those that ask for the level that is there. -/
theorem followsLast_iff_of_input {level : Bool} (hb : b.pins ledGpio = ⟨false, level⟩)
    (hpresses : presses ≠ []) :
    FollowsLast source m b presses ↔ ∀ k ∈ presses, level = decide (k = 0) := by
  refine ⟨fun h => (output_iff_of_input hsource hne hb).mp h.output, fun h => ?_⟩
  refine ⟨(output_iff_of_input hsource hne hb).mpr h, fun b' hrun => ?_⟩
  have hb' : b'.pins ledGpio = ⟨false, level⟩ :=
    run_induction (fun _ _ _ hb hk h => pressStep_of_input hsource hne hb hk h) hb
      (Along.of_forall h) hrun
  obtain ⟨k, hk⟩ := Option.isSome_iff_exists.mp (List.getLast?_isSome.mpr hpresses)
  rw [hb', hk, Option.some_inj, h k (List.mem_of_getLast? hk), decide_eq_true_iff]

end Presses

/-- **The LED follows the last button** after every successful init, whatever the pins were before,
except in `intrpt.c` without `gpio_request_array`.  There it does if the LED's pin happens to be an
output, or if no press asks for another level than the one that is there. -/
theorem led_follows_last_iff (hsource : source = .intrpt ∨ source = .bottomhalf)
    (hirqs : ExclusiveIrqs calls) (hinit : (driver source variant).init calls m = (m', .ok ()))
    (pins : Pins) (workPending : Bool) (hpresses : presses ≠ []) :
    FollowsLast source m' ⟨initPins source variant calls pins, workPending⟩ presses ↔
      ¬ LedUnconfigured source variant ∨ (pins ledGpio).output = true ∨
        ∀ k ∈ presses, (pins ledGpio).level = decide (k = 0) := by
  have hne : m'.buttonIrqs 0 ≠ m'.buttonIrqs 1 := irqs_ne hirqs (succeeded_of_init hinit).2
  have hled : initPins source variant calls pins ledGpio =
      if LedUnconfigured source variant then pins ledGpio else ⟨true, false⟩ := initPins_led hinit
  by_cases hunconfigured : LedUnconfigured source variant
  · rw [if_pos hunconfigured] at hled
    rw [or_iff_right (not_not.mpr hunconfigured)]
    cases hout : (pins ledGpio).output with
    | true =>
        refine iff_of_true (followsLast_of_output hsource hne ?_ hpresses) (Or.inl rfl)
        show (initPins source variant calls pins ledGpio).output = true
        rw [hled, hout]
    | false =>
        rw [or_iff_right Bool.false_ne_true]
        refine followsLast_iff_of_input hsource hne ?_ hpresses
        show initPins source variant calls pins ledGpio = _
        rw [hled, ← hout]
  · rw [if_neg hunconfigured] at hled
    refine iff_of_true (followsLast_of_output hsource hne ?_ hpresses) (Or.inl hunconfigured)
    show (initPins source variant calls pins ledGpio).output = true
    rw [hled]

/-- All calls succeed, and the interrupts of the buttons are 0 and 1. -/
def allSucceed : Calls
  | .gpioToIrq i => .ok i
  | _ => .ok 0

theorem exclusiveIrqs_allSucceed : ExclusiveIrqs allSucceed := by
  intro irq h₀ h₁
  obtain rfl : 0 = irq := Except.ok.inj h₀
  cases h₁

theorem led_follows_last_intrpt :
    FollowsLast .intrpt ((driver .intrpt .noRequestArray).init allSucceed ⟨.empty, fun _ => -1⟩).1
      ⟨initPins .intrpt .noRequestArray allSucceed fun _ => ⟨true, true⟩, false⟩ [0, 1] :=
  (led_follows_last_iff (Or.inl rfl) exclusiveIrqs_allSucceed rfl _ false (by decide)).mpr
    (Or.inr (Or.inl rfl))

/-- The LED's pin is an input when `intrpt.c` is loaded, and the first button is pressed. -/
theorem not_led_follows_last :
    ¬ ∀ (source : Source) (variant : Variant) (calls : Calls) (m m' : Module) (pins : Pins)
        (workPending : Bool) (presses : List (Fin 2)),
      (source = .intrpt ∨ source = .bottomhalf) → ExclusiveIrqs calls →
      (driver source variant).init calls m = (m', .ok ()) → presses ≠ [] →
      FollowsLast source m' ⟨initPins source variant calls pins, workPending⟩ presses := by
  intro h
  have hfollows := h .intrpt .noRequestArray allSucceed ⟨.empty, fun _ => -1⟩ _
    (fun _ => ⟨false, false⟩) false [0] (Or.inl rfl) exclusiveIrqs_allSucceed rfl (by decide)
  have hlevel := (hfollows.level _ rfl).mpr rfl
  exact absurd hlevel (by decide)

end Lkmpg.Gpio
