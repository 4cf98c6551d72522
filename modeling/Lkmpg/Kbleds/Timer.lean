import Mathlib.Data.List.Basic
import Lkmpg.Lib.Transition

/-!
# The blinking LEDs of `kbleds.c`

`my_timer_func` switches the LEDs of the console in the foreground on, or back to what the keyboard
says, and adds its timer again.  `kbleds_cleanup` deletes the timer, which waits for a function that
is running, and so also takes back a timer that the function has just added; then it restores the
LEDs of the console that is in the foreground at that time.

The consoles are any type, and the user may go to another one at any moment.
-/

namespace Lkmpg.Kbleds

open Transition

/-- `ALL_LEDS_ON` -/
def allLedsOn : ℕ := 0x07

/-- `RESTORE_LEDS` -/
def restoreLeds : ℕ := 0xFF

/-- Where `my_timer_func` is. -/
inductive Handler (κ : Type)
  | idle
  | called
  /-- it has the tty of console `c` and has changed `kbledstatus` -/
  | switched (c : κ)
  /-- after the call of `ioctl` -/
  | commanded
  /-- after `add_timer` -/
  | added

/-- Where `kbleds_cleanup` is. -/
inductive Exit
  | loaded
  /-- in `timer_delete_sync` -/
  | deleting
  | deleted
  /-- it has returned -/
  | gone
  deriving DecidableEq

structure State (κ : Type) where
  /-- `timer_pending(&my_timer)` -/
  pending : Bool
  handler : Handler κ
  exit : Exit
  kbledstatus : ℕ
  fgConsole : κ
  /-- the LEDs that are lit by `KDSETLED` (`LED_SHOW_IOCTL`), or none (`LED_SHOW_FLAGS`) -/
  ledMode : κ → Option ℕ
  /-- the calls of `ioctl` -/
  commands : List (κ × ℕ)
  /-- `add_timer` has found the timer pending, which is a bug -/
  doubled : Bool

/-- After `kbleds_init`. -/
def State.init {κ : Type} (fgConsole : κ) : State κ :=
  ⟨true, .idle, .loaded, 0, fgConsole, fun _ => none, [], false⟩

inductive Act (κ : Type)
  /-- the user goes to console `c` -/
  | switchConsole (c : κ)
  /-- the timer expires -/
  | expire
  /-- the next step of `my_timer_func` -/
  | timerFunc
  | cleanup
  /-- the next step of `kbleds_cleanup` -/
  | cleanupStep

/-- `kbledstatus` after a turn of `my_timer_func`. -/
def toggle (kbledstatus : ℕ) : ℕ := if kbledstatus = allLedsOn then restoreLeds else allLedsOn

variable {κ : Type} [DecidableEq κ]

/-- `ioctl(t, KDSETLED, arg)`: any argument above 7 goes back to the flags of the keyboard. -/
def State.ioctl (s : State κ) (c : κ) (arg : ℕ) : State κ :=
  { s with
    ledMode := Function.update s.ledMode c (if arg ≤ 7 then some arg else none)
    commands := s.commands ++ [(c, arg)] }

def ledStep (s : State κ) : Act κ → Option (State κ)
  | .switchConsole c => some { s with fgConsole := c }
  | .expire =>
      match s.pending, s.handler with
      | true, .idle => some { s with pending := false, handler := .called }
      | _, _ => none
  | .timerFunc =>
      match s.handler with
      | .idle => none
      | .called => some { s with
          kbledstatus := toggle s.kbledstatus, handler := .switched s.fgConsole }
      | .switched c => some { s.ioctl c s.kbledstatus with handler := .commanded }
      | .commanded => some { s with
          pending := true, doubled := s.doubled || s.pending, handler := .added }
      | .added => some { s with handler := .idle }
  | .cleanup =>
      match s.exit with
      | .loaded => some { s with exit := .deleting }
      | _ => none
  | .cleanupStep =>
      match s.exit, s.handler with
      -- a function that is running is waited for
      | .deleting, .idle => some { s with pending := false, exit := .deleted }
      | .deleted, _ => some { s.ioctl s.fgConsole restoreLeds with exit := .gone }
      | _, _ => none

/-! ### What each step can do -/

section Steps

variable {s t : State κ}

theorem expire_eq_some (h : ledStep s .expire = some t) :
    s.pending = true ∧ s.handler = .idle ∧ t = { s with pending := false, handler := .called } := by
  simp only [ledStep] at h
  split at h
  · rename_i hpending hidle
    exact ⟨hpending, hidle, (Option.some.inj h).symm⟩
  · cases h

theorem timerFunc_eq_some (h : ledStep s .timerFunc = some t) :
    (s.handler = .called ∧ t = { s with
      kbledstatus := toggle s.kbledstatus, handler := .switched s.fgConsole }) ∨
    (∃ c, s.handler = .switched c ∧ t = { s.ioctl c s.kbledstatus with handler := .commanded }) ∨
    (s.handler = .commanded ∧ t = { s with
      pending := true, doubled := s.doubled || s.pending, handler := .added }) ∨
    (s.handler = .added ∧ t = { s with handler := .idle }) := by
  simp only [ledStep] at h
  cases hhandler : s.handler with
  | idle =>
      rw [hhandler] at h
      cases h
  | called =>
      rw [hhandler] at h
      exact Or.inl ⟨rfl, (Option.some.inj h).symm⟩
  | switched c =>
      rw [hhandler] at h
      exact Or.inr (Or.inl ⟨c, rfl, (Option.some.inj h).symm⟩)
  | commanded =>
      rw [hhandler] at h
      exact Or.inr (Or.inr (Or.inl ⟨rfl, (Option.some.inj h).symm⟩))
  | added =>
      rw [hhandler] at h
      exact Or.inr (Or.inr (Or.inr ⟨rfl, (Option.some.inj h).symm⟩))

theorem cleanup_eq_some (h : ledStep s .cleanup = some t) :
    s.exit = .loaded ∧ t = { s with exit := .deleting } := by
  simp only [ledStep] at h
  split at h
  · rename_i hexit
    exact ⟨hexit, (Option.some.inj h).symm⟩
  · cases h

theorem cleanupStep_eq_some (h : ledStep s .cleanupStep = some t) :
    (s.exit = .deleting ∧ s.handler = .idle ∧ t = { s with pending := false, exit := .deleted }) ∨
    (s.exit = .deleted ∧ t = { s.ioctl s.fgConsole restoreLeds with exit := .gone }) := by
  simp only [ledStep] at h
  split at h
  · rename_i hexit hidle
    exact Or.inl ⟨hexit, hidle, (Option.some.inj h).symm⟩
  · rename_i hexit
    exact Or.inr ⟨hexit, (Option.some.inj h).symm⟩
  · cases h

end Steps

/-! ### The timer -/

/-- The timer is pending only while the function is not at work, and neither is there after it has
been deleted. -/
structure TimerOk (s : State κ) : Prop where
  doubled : s.doubled = false
  working : s.pending = true → s.handler = .idle ∨ s.handler = .added
  quiet : s.exit = .deleted ∨ s.exit = .gone → s.pending = false ∧ s.handler = .idle

omit [DecidableEq κ] in
theorem timerOk_init (c : κ) : TimerOk (State.init c) where
  doubled := rfl
  working _ := Or.inl rfl
  quiet h := by
    rcases h with h | h <;> cases h

omit [DecidableEq κ] in
/-- A function that is running keeps `timer_delete_sync` from returning. -/
theorem TimerOk.not_quiet {s : State κ} (h : TimerOk s) (hhandler : s.handler ≠ .idle) :
    ¬(s.exit = .deleted ∨ s.exit = .gone) := fun hexit => hhandler (h.quiet hexit).2

omit [DecidableEq κ] in
/-- The timer is not pending while the function has yet to add it. -/
theorem TimerOk.not_pending {s : State κ} (h : TimerOk s) (hidle : s.handler ≠ .idle)
    (hadded : s.handler ≠ .added) : s.pending ≠ true :=
  fun hpending => (h.working hpending).elim hidle hadded

/-- **Step.** -/
theorem TimerOk.step {s t : State κ} {a : Act κ} (h : TimerOk s) (hstep : ledStep s a = some t) :
    TimerOk t := by
  cases a with
  | switchConsole c =>
      obtain rfl := Option.some.inj hstep
      exact ⟨h.doubled, h.working, h.quiet⟩
  | expire =>
      obtain ⟨hpending, hidle, rfl⟩ := expire_eq_some hstep
      refine ⟨h.doubled, nofun, fun hexit => ?_⟩
      have hfalse := (h.quiet hexit).1
      rw [hpending] at hfalse
      cases hfalse
  | timerFunc =>
      rcases timerFunc_eq_some hstep with ⟨hs, rfl⟩ | ⟨c, hs, rfl⟩ | ⟨hs, rfl⟩ | ⟨hs, rfl⟩
      · have hnot := h.not_quiet (by rw [hs]; nofun)
        have hfree := h.not_pending (by rw [hs]; nofun) (by rw [hs]; nofun)
        exact ⟨h.doubled, fun hpending => absurd hpending hfree, fun hexit => absurd hexit hnot⟩
      · have hnot := h.not_quiet (by rw [hs]; nofun)
        have hfree := h.not_pending (by rw [hs]; nofun) (by rw [hs]; nofun)
        exact ⟨h.doubled, fun hpending => absurd hpending hfree, fun hexit => absurd hexit hnot⟩
      · have hnot := h.not_quiet (by rw [hs]; nofun)
        have hfree := h.not_pending (by rw [hs]; nofun) (by rw [hs]; nofun)
        refine ⟨?_, fun _ => Or.inr rfl, fun hexit => absurd hexit hnot⟩
        show (s.doubled || s.pending) = false
        rw [h.doubled, Bool.false_or, Bool.eq_false_iff]
        exact hfree
      · have hnot := h.not_quiet (by rw [hs]; nofun)
        exact ⟨h.doubled, fun _ => Or.inl rfl, fun hexit => absurd hexit hnot⟩
  | cleanup =>
      obtain ⟨hexit, rfl⟩ := cleanup_eq_some hstep
      exact ⟨h.doubled, h.working, fun h => by rcases h with h | h <;> cases h⟩
  | cleanupStep =>
      rcases cleanupStep_eq_some hstep with ⟨hexit, hidle, rfl⟩ | ⟨hexit, rfl⟩
      · exact ⟨h.doubled, nofun, fun _ => ⟨rfl, hidle⟩⟩
      · exact ⟨h.doubled, h.working, fun _ => h.quiet (Or.inl hexit)⟩

/-! ### The calls of `ioctl` -/

/-- The argument of the call number `k` of `my_timer_func`. -/
def blink (k : ℕ) : ℕ := if k % 2 = 0 then allLedsOn else restoreLeds

/-- `kbledstatus` after `n` turns. -/
def statusAfter : ℕ → ℕ
  | 0 => 0
  | n + 1 => blink n

theorem toggle_statusAfter (n : ℕ) : toggle (statusAfter n) = statusAfter (n + 1) := by
  cases n with
  | zero => rfl
  | succ k =>
      rcases Nat.mod_two_eq_zero_or_one k with hk | hk
      · have hsucc : (k + 1) % 2 = 1 := by omega
        simp [statusAfter, blink, toggle, hk, hsucc]
      · have hsucc : (k + 1) % 2 = 0 := by omega
        simp [statusAfter, blink, toggle, hk, hsucc, allLedsOn, restoreLeds]

/-- The argument of the call that `my_timer_func` is about to make. -/
def State.due (s : State κ) : List ℕ :=
  match s.handler with
  | .switched _ => [s.kbledstatus]
  | _ => []

/-- The call of `kbleds_cleanup`. -/
def State.farewell (s : State κ) : List ℕ :=
  match s.exit with
  | .gone => [restoreLeds]
  | _ => []

/-- The LEDs have been switched on and back in turn, `n` times in all. -/
structure Blinked (n : ℕ) (s : State κ) : Prop where
  status : s.kbledstatus = statusAfter n
  commands : s.commands.map Prod.snd ++ s.due = (List.range n).map blink ++ s.farewell

omit [DecidableEq κ] in
theorem State.farewell_of_ne {s : State κ} (h : s.exit ≠ .gone) : s.farewell = [] := by
  rw [State.farewell]
  split
  · rename_i hgone
    exact absurd hgone h
  · rfl

omit [DecidableEq κ] in
theorem Blinked.of_eq {s t : State κ} {n : ℕ} (h : Blinked n s)
    (hstatus : t.kbledstatus = s.kbledstatus) (hcommands : t.commands = s.commands)
    (hdue : t.due = s.due) (hfarewell : t.farewell = s.farewell) : Blinked n t where
  status := hstatus.trans h.status
  commands := by rw [hcommands, hdue, hfarewell, h.commands]

/-- **Step.** -/
theorem Blinked.step {s t : State κ} {a : Act κ} {n : ℕ} (h : Blinked n s) (htimer : TimerOk s)
    (hstep : ledStep s a = some t) : ∃ m, Blinked m t := by
  cases a with
  | switchConsole c =>
      obtain rfl := Option.some.inj hstep
      exact ⟨n, h.of_eq rfl rfl rfl rfl⟩
  | expire =>
      obtain ⟨-, hidle, rfl⟩ := expire_eq_some hstep
      refine ⟨n, h.of_eq rfl rfl ?_ rfl⟩
      simp only [State.due, hidle]
  | timerFunc =>
      rcases timerFunc_eq_some hstep with ⟨hs, rfl⟩ | ⟨c, hs, rfl⟩ | ⟨hs, rfl⟩ | ⟨hs, rfl⟩
      · -- one more turn, whose call is due
        have hnot := htimer.not_quiet (by rw [hs]; nofun)
        have hstatus : toggle s.kbledstatus = statusAfter (n + 1) := by
          rw [h.status, toggle_statusAfter]
        have hgone : s.exit ≠ .gone := fun hgone => hnot (Or.inr hgone)
        have hcommands := h.commands
        simp only [State.due, hs, State.farewell_of_ne hgone, List.append_nil] at hcommands
        refine ⟨n + 1, hstatus, ?_⟩
        rw [State.farewell_of_ne (by exact hgone), hcommands, List.range_succ, List.map_append]
        show _ ++ [toggle s.kbledstatus] = _
        rw [hstatus, List.append_nil]
        rfl
      · -- the call that was due is made
        refine ⟨n, h.status, ?_⟩
        have hcommands := h.commands
        simp only [State.due, hs] at hcommands
        simpa [State.due, State.ioctl, State.farewell] using hcommands
      · refine ⟨n, h.of_eq rfl rfl ?_ rfl⟩
        simp only [State.due, hs]
      · refine ⟨n, h.of_eq rfl rfl ?_ rfl⟩
        simp only [State.due, hs]
  | cleanup =>
      obtain ⟨hexit, rfl⟩ := cleanup_eq_some hstep
      refine ⟨n, h.of_eq rfl rfl rfl ?_⟩
      simp only [State.farewell, hexit]
  | cleanupStep =>
      rcases cleanupStep_eq_some hstep with ⟨hexit, hidle, rfl⟩ | ⟨hexit, rfl⟩
      · refine ⟨n, h.of_eq rfl rfl rfl ?_⟩
        simp only [State.farewell, hexit]
      · refine ⟨n, h.status, ?_⟩
        have hidle := (htimer.quiet (Or.inl hexit)).2
        have hcommands := h.commands
        simp only [State.due, hidle, State.farewell_of_ne (show s.exit ≠ .gone by rw [hexit]; nofun),
          List.append_nil] at hcommands
        simp [State.due, State.ioctl, State.farewell, hidle, hcommands]

/-! ### The lit consoles -/

/-- The user goes to another console only when the LEDs of the one in the foreground are not lit by
the module and not about to be. -/
def SwitchedDark (s : State κ) : Act κ → Prop
  | .switchConsole _ =>
      s.exit = .gone ∨ (s.due = [] ∧ s.kbledstatus ≠ allLedsOn)
  | _ => True

instance SwitchedDark.decidable (s : State κ) : ∀ a, Decidable (SwitchedDark s a)
  | .switchConsole _ =>
      inferInstanceAs (Decidable (s.exit = .gone ∨ (s.due = [] ∧ s.kbledstatus ≠ allLedsOn)))
  | .expire | .timerFunc | .cleanup | .cleanupStep => isTrue trivial

/-- Only the console in the foreground is ever lit, and not between the turns that restore it and
the next ones. -/
structure LitOnlyInFront (s : State κ) : Prop where
  others : ∀ c, c ≠ s.fgConsole → s.ledMode c = none
  target : ∀ c, s.handler = .switched c → c = s.fgConsole
  dark : s.due = [] → s.kbledstatus ≠ allLedsOn → s.ledMode s.fgConsole = none
  gone : s.exit = .gone → s.ledMode s.fgConsole = none

omit [DecidableEq κ] in
theorem litOnlyInFront_init (c : κ) : LitOnlyInFront (State.init c) where
  others _ _ := rfl
  target _ h := by cases h
  dark _ _ := rfl
  gone h := by cases h

theorem statusAfter_le {n : ℕ} (hn : n ≠ 0) (h : statusAfter n ≤ 7) :
    statusAfter n = allLedsOn := by
  obtain ⟨k, rfl⟩ := Nat.exists_eq_succ_of_ne_zero hn
  rcases Nat.mod_two_eq_zero_or_one k with hk | hk
  · simp only [statusAfter, blink, hk, if_true]
  · simp only [statusAfter, blink, hk] at h
    exact absurd h (by decide)

omit [DecidableEq κ] in
/-- A call that does not light the LEDs leaves them to the keyboard. -/
theorem Blinked.restores {s : State κ} {n : ℕ} {c : κ} (h : Blinked n s)
    (hhandler : s.handler = .switched c) (hgone : s.exit ≠ .gone)
    (hdark : s.kbledstatus ≠ allLedsOn) : ¬s.kbledstatus ≤ 7 := by
  intro hle
  have hn : n ≠ 0 := by
    rintro rfl
    have hcommands := h.commands
    simp [State.due, hhandler, State.farewell_of_ne hgone] at hcommands
  rw [h.status] at hle hdark
  exact hdark (statusAfter_le hn hle)

/-- **Step.** -/
theorem LitOnlyInFront.step {s t : State κ} {a : Act κ} {n : ℕ} (h : LitOnlyInFront s)
    (htimer : TimerOk s) (hblinked : Blinked n s) (hdark : SwitchedDark s a)
    (hstep : ledStep s a = some t) : LitOnlyInFront t := by
  cases a with
  | switchConsole c =>
      obtain rfl := Option.some.inj hstep
      have hfront : s.ledMode s.fgConsole = none := by
        rcases hdark with hgone | ⟨hhandler, hstatus⟩
        · exact h.gone hgone
        · exact h.dark hhandler hstatus
      have hall : ∀ d, s.ledMode d = none := by
        intro d
        by_cases hd : d = s.fgConsole
        · rw [hd, hfront]
        · exact h.others d hd
      refine ⟨fun d _ => hall d, fun d hd => ?_, fun _ _ => hall c, fun _ => hall c⟩
      -- the function is not at work on a console
      rcases hdark with hgone | ⟨hhandler, -⟩
      · have hidle := (htimer.quiet (Or.inr hgone)).2
        rw [show s.handler = .switched d from hd] at hidle
        cases hidle
      · rw [State.due, show s.handler = .switched d from hd] at hhandler
        cases hhandler
  | expire =>
      obtain ⟨-, hidle, rfl⟩ := expire_eq_some hstep
      exact ⟨h.others, nofun, fun _ => h.dark (by rw [State.due, hidle]), h.gone⟩
  | timerFunc =>
      rcases timerFunc_eq_some hstep with ⟨hs, rfl⟩ | ⟨c, hs, rfl⟩ | ⟨hs, rfl⟩ | ⟨hs, rfl⟩
      · refine ⟨h.others, fun c hc => ?_, nofun, h.gone⟩
        cases hc
        rfl
      · have hgone : s.exit ≠ .gone := fun hgone => htimer.not_quiet (by rw [hs]; nofun) (Or.inr hgone)
        obtain rfl := h.target c hs
        refine ⟨fun d hd => ?_, nofun, fun _ hstatus => ?_, fun h => absurd h hgone⟩
        · exact (Function.update_of_ne hd _ _).trans (h.others d hd)
        · refine (Function.update_self _ _ _).trans (if_neg ?_)
          exact hblinked.restores hs hgone hstatus
      · exact ⟨h.others, nofun, fun _ => h.dark (by rw [State.due, hs]), h.gone⟩
      · exact ⟨h.others, nofun, fun _ => h.dark (by rw [State.due, hs]), h.gone⟩
  | cleanup =>
      obtain ⟨hexit, rfl⟩ := cleanup_eq_some hstep
      exact ⟨h.others, h.target, h.dark, nofun⟩
  | cleanupStep =>
      rcases cleanupStep_eq_some hstep with ⟨hexit, hidle, rfl⟩ | ⟨hexit, rfl⟩
      · exact ⟨h.others, h.target, h.dark, nofun⟩
      · have hrestored : Function.update s.ledMode s.fgConsole
            (if restoreLeds ≤ 7 then some restoreLeds else none) s.fgConsole = none := by
          rw [Function.update_self, if_neg (by decide)]
        refine ⟨fun d hd => ?_, h.target, fun _ _ => hrestored, fun _ => hrestored⟩
        exact (Function.update_of_ne hd _ _).trans (h.others d hd)

/-! ### Runs -/

/-- Nothing that happens after `kbleds_cleanup` reaches the LEDs. -/
theorem TimerOk.gone_run {s t : State κ} {acts : List (Act κ)} (h : TimerOk s)
    (hexit : s.exit = .gone) (hrun : run ledStep s acts = some t) :
    t.commands = s.commands ∧ t.ledMode = s.ledMode := by
  have hkept : ∀ u a v, (TimerOk u ∧ u.exit = .gone ∧ u.commands = s.commands ∧
      u.ledMode = s.ledMode) → ledStep u a = some v →
      TimerOk v ∧ v.exit = .gone ∧ v.commands = s.commands ∧ v.ledMode = s.ledMode := by
    rintro u a v ⟨hu, hgone, hcommands, hmode⟩ huv
    have hv := hu.step huv
    obtain ⟨hpending, hidle⟩ := hu.quiet (Or.inr hgone)
    cases a with
    | switchConsole c =>
        obtain rfl := Option.some.inj huv
        exact ⟨hv, hgone, hcommands, hmode⟩
    | expire =>
        have h := (expire_eq_some huv).1
        rw [hpending] at h
        cases h
    | timerFunc =>
        rcases timerFunc_eq_some huv with ⟨h, -⟩ | ⟨c, h, -⟩ | ⟨h, -⟩ | ⟨h, -⟩ <;>
          rw [hidle] at h <;> cases h
    | cleanup =>
        have h := (cleanup_eq_some huv).1
        rw [hgone] at h
        cases h
    | cleanupStep =>
        rcases cleanupStep_eq_some huv with ⟨h, -⟩ | ⟨h, -⟩ <;> rw [hgone] at h <;> cases h
  exact (run_invariant hkept ⟨h, hexit, rfl, rfl⟩ hrun).2.2

theorem blinked_run {c₀ : κ} {acts : List (Act κ)} {s : State κ}
    (hrun : run ledStep (State.init c₀) acts = some s) : TimerOk s ∧ ∃ n, Blinked n s := by
  have hkept : ∀ (u : State κ) a v, (TimerOk u ∧ ∃ n, Blinked n u) → ledStep u a = some v →
      TimerOk v ∧ ∃ n, Blinked n v := by
    rintro u a v ⟨hu, n, hn⟩ huv
    exact ⟨hu.step huv, hn.step hu huv⟩
  exact run_invariant hkept ⟨timerOk_init c₀, 0, rfl, by rfl⟩ hrun

theorem litOnlyInFront_run {c₀ : κ} {acts : List (Act κ)} {s : State κ}
    (hdark : Along ledStep SwitchedDark (State.init c₀) acts)
    (hrun : run ledStep (State.init c₀) acts = some s) : LitOnlyInFront s := by
  have hkept : ∀ (u : State κ) a v, ((TimerOk u ∧ ∃ n, Blinked n u) ∧ LitOnlyInFront u) →
      SwitchedDark u a →
      ledStep u a = some v → (TimerOk v ∧ ∃ n, Blinked n v) ∧ LitOnlyInFront v := by
    rintro u a v ⟨⟨hu, n, hn⟩, hlit⟩ ha huv
    exact ⟨⟨hu.step huv, hn.step hu huv⟩, hlit.step hu hn ha huv⟩
  exact (run_induction hkept ⟨⟨timerOk_init c₀, 0, rfl, rfl⟩, litOnlyInFront_init c₀⟩ hdark hrun).2

/-- What comes before the call that is due is a blinking of its own. -/
theorem blink_take {l d : List ℕ} {n : ℕ} (h : l ++ d = (List.range n).map blink) :
    l = (List.range l.length).map blink := by
  have hlength : l.length ≤ n := by
    have hall := congrArg List.length h
    rw [List.length_append, List.length_map, List.length_range] at hall
    omega
  calc l = (l ++ d).take l.length := List.take_left.symm
    _ = ((List.range n).take l.length).map blink := by rw [h, List.map_take]
    _ = (List.range l.length).map blink := by rw [List.take_range, Nat.min_eq_left hlength]

/-- **Run.**  The timer is never added twice, the calls of `ioctl` switch the LEDs on and back in
turn, and from the return of `kbleds_cleanup` on, whose call is the last one, nothing reaches the
LEDs any more.  If the user has gone to another console only while the LEDs were not lit, no
console is left with lit LEDs. -/
theorem cleanup_restores {c₀ : κ} {acts later : List (Act κ)} {s t : State κ}
    (hrun : run ledStep (State.init c₀) acts = some s) (hlater : run ledStep s later = some t) :
    s.doubled = false ∧
      (s.exit ≠ .gone →
        s.commands.map Prod.snd = (List.range s.commands.length).map blink) ∧
      (s.exit = .gone →
        (∃ n, t.commands.map Prod.snd = (List.range n).map blink ++ [restoreLeds]) ∧
        t.ledMode = s.ledMode ∧
        (Along ledStep SwitchedDark (State.init c₀) acts → ∀ c, t.ledMode c = none)) := by
  obtain ⟨htimer, n, hn⟩ := blinked_run hrun
  have hcommands := hn.commands
  refine ⟨htimer.doubled, fun hgone => ?_, fun hgone => ?_⟩
  · rw [State.farewell_of_ne hgone, List.append_nil] at hcommands
    simpa using blink_take hcommands
  · obtain ⟨hsame, hmode⟩ := htimer.gone_run hgone hlater
    have hidle := (htimer.quiet (Or.inr hgone)).2
    simp only [State.due, hidle, State.farewell, hgone, List.append_nil] at hcommands
    refine ⟨⟨n, by rw [hsame, hcommands]⟩, hmode, fun hdark c => ?_⟩
    have hlit := litOnlyInFront_run hdark hrun
    rw [hmode]
    by_cases hc : c = s.fgConsole
    · rw [hc]
      exact hlit.gone hgone
    · exact hlit.others c hc

/-- The function runs once more while `timer_delete_sync` waits for it, and adds the timer again;
then the user goes from console 0 to console 1. -/
theorem cleanup_restores_waited :
    ∃ s t : State ℕ,
      run ledStep (State.init 0)
        [.expire, .timerFunc, .timerFunc, .timerFunc, .timerFunc, .expire, .cleanup, .timerFunc,
          .timerFunc, .timerFunc, .timerFunc, .switchConsole 1, .cleanupStep, .cleanupStep]
        = some s ∧
      run ledStep s [.switchConsole 0] = some t ∧
      t.commands = [(0, 7), (0, 255), (1, 255)] ∧ t.ledMode 0 = none ∧ t.ledMode 1 = none := by
  obtain ⟨s, hrun⟩ : ∃ s, run ledStep (State.init 0)
      [.expire, .timerFunc, .timerFunc, .timerFunc, .timerFunc, .expire, .cleanup, .timerFunc,
        .timerFunc, .timerFunc, .timerFunc, .switchConsole 1, .cleanupStep, .cleanupStep]
      = some s := ⟨_, rfl⟩
  obtain ⟨t, hlater⟩ : ∃ t, run ledStep s [.switchConsole 0] = some t := ⟨_, rfl⟩
  have hgone : s.exit = .gone := by
    obtain rfl := Option.some.inj hrun
    rfl
  have hdark : Along ledStep SwitchedDark (State.init 0)
      [.expire, .timerFunc, .timerFunc, .timerFunc, .timerFunc, .expire, .cleanup, .timerFunc,
        .timerFunc, .timerFunc, .timerFunc, .switchConsole 1, .cleanupStep, .cleanupStep] := by
    decide
  obtain ⟨-, hmode, hall⟩ := (cleanup_restores hrun hlater).2.2 hgone
  refine ⟨s, t, hrun, hlater, ?_, hall hdark 0, hall hdark 1⟩
  obtain rfl := Option.some.inj hrun
  obtain rfl := Option.some.inj hlater
  rfl

end Lkmpg.Kbleds
