import Lkmpg.Lib.CString
import Lkmpg.Lib.Lines

/-!
# The test run of `devtools`

`guest-test.sh` loads and unloads each module in the guest and prints a record for it; `init` starts
it, ignores how it ends, and powers the guest off; `test-modules.sh` counts the records in what has
been printed and looks at the exit status of QEMU.  The guest also prints how many modules it has
tested and how it ends, but the host reads neither line.

Next to the records the console shows what the kernel and the commands print: any lines that do not
begin with the prefix of the records.  The directory listing and the outcome of each command are
data of the run, and so is the point at which `guest-test.sh` is killed, if it is.
-/

namespace Lkmpg.Devtools

open CString Lines

/-- A line that is no record. -/
structure Noise extends Line where
  noRecord : ¬bytes "LKMPG:" <+: text

/-- An entry of `"$MODULE_DIR"/*.ko`, and what its commands do. -/
structure Module where
  /-- `basename "$ko" .ko` -/
  mod : Line
  /-- `[ -f "$ko" ]` -/
  isFile : Bool
  insmod₁ : Bool
  rmmod₁ : Bool
  insmod₂ : Bool
  rmmod₂ : Bool
  /-- what is printed while its commands run -/
  noise : List Noise
  /-- what is printed from its record to the next entry -/
  cleanup : List Noise

/-- `insmod && rmmod && insmod && rmmod` -/
def Module.works (m : Module) : Bool := m.insmod₁ && m.rmmod₁ && m.insmod₂ && m.rmmod₂

/-- `guest-test.sh` is killed after the iterations for so many entries. -/
structure Kill where
  after : ℕ
  /-- the exit status that the shell sees -/
  status : ℕ

/-- One run of `test-modules.sh`. -/
structure TestRun where
  modules : List Module
  /-- the lines of `.ci/non-working`, if the file exists -/
  nonWorking : Option (List (List Byte))
  /-- the lines of `devtools/non-working`, if the file exists -/
  nonWorkingQemu : Option (List (List Byte))
  stop : Option Kill
  boot : List Noise
  halt : List Noise
  /-- the exit status of QEMU, or of `timeout` -/
  qemuExit : ℕ

/-! ### The guest -/

/-- A line of the source followed by text. -/
def line (s : String) (rest : Line) (h : 0x0a ∉ bytes s) : Line where
  text := bytes s ++ rest.text
  noNewline := fun hmem => (List.mem_append.mp hmem).elim h rest.noNewline

theorem newline_notMem_decimalNat (n : ℕ) : 0x0a ∉ decimalNat n := by
  intro h
  rw [decimalNat] at h
  have hdigit : ∀ d < 10, digitChar d ≠ 0x0a := by
    intro d hd hsame
    have hnat : (digitChar d).toNat = 0x0a := congrArg BitVec.toNat hsame
    rw [toNat_digitChar hd] at hnat
    omega
  split at h
  · exact hdigit 0 (by omega) (List.mem_singleton.mp h).symm
  · obtain ⟨d, hd, hchar⟩ := List.mem_map.mp h
    exact hdigit d (Nat.digits_lt_base (by omega) (List.mem_reverse.mp hd)) hchar

/-- A number as `echo` prints it. -/
def number (n : ℕ) : Line where
  text := decimalNat n
  noNewline := newline_notMem_decimalNat n

def passLine (mod : Line) : Line := line "LKMPG:PASS " mod (by decide)

def failLine (mod : Line) : Line := line "LKMPG:FAIL " mod (by decide)

def skipLine (mod : Line) : Line := line "LKMPG:SKIP " mod (by decide)

/-- `PASS`, `FAIL` and `SKIP` -/
structure Counts where
  pass : ℕ
  fail : ℕ
  skip : ℕ

def resultsLine (c : Counts) : Line where
  text := bytes "LKMPG:RESULTS " ++ (number c.pass).text ++ bytes " passed, " ++
    (number c.fail).text ++ bytes " failed, " ++ (number c.skip).text ++ bytes " skipped"
  noNewline := by
    have hpass := (number c.pass).noNewline
    have hfail := (number c.fail).noNewline
    have hskip := (number c.skip).noNewline
    have h₁ : 0x0a ∉ bytes "LKMPG:RESULTS " := by decide
    have h₂ : 0x0a ∉ bytes " passed, " := by decide
    have h₃ : 0x0a ∉ bytes " failed, " := by decide
    have h₄ : 0x0a ∉ bytes " skipped" := by decide
    simp only [List.mem_append, not_or]
    exact ⟨⟨⟨⟨⟨⟨h₁, hpass⟩, h₂⟩, hfail⟩, h₃⟩, hskip⟩, h₄⟩

def exitLine (status : ℕ) : Line := line "LKMPG:EXIT " (number status) (by decide)

namespace TestRun

/-- The loop over the two lists, with `grep -qFx`. -/
def excluded (run : TestRun) (mod : Line) : Bool :=
  [run.nonWorking, run.nonWorkingQemu].any fun nw => nw.elim false (·.contains mod.text)

/-- The body of the loop of `guest-test.sh`: what it prints, and the counters after it. -/
def testModule (run : TestRun) (c : Counts) (m : Module) : List Line × Counts :=
  if m.isFile = false then ([], c)
  else if run.excluded m.mod then ([skipLine m.mod], { c with skip := c.skip + 1 })
  else if m.works then
    (m.noise.map Noise.toLine ++ passLine m.mod :: m.cleanup.map Noise.toLine,
      { c with pass := c.pass + 1 })
  else
    (m.noise.map Noise.toLine ++ failLine m.mod :: m.cleanup.map Noise.toLine,
      { c with fail := c.fail + 1 })

def testLoop (run : TestRun) : Counts → List Module → List Line × Counts
  | c, [] => ([], c)
  | c, m :: ms =>
      let first := run.testModule c m
      let rest := testLoop run first.2 ms
      (first.1 ++ rest.1, rest.2)

/-- The entries for which the loop has run. -/
def processed (run : TestRun) : List Module :=
  match run.stop with
  | none => run.modules
  | some kill => run.modules.take kill.after

/-- `guest-test.sh`: what it prints, and its exit status. -/
def guestTest (run : TestRun) : List Line × ℕ :=
  let loop := run.testLoop ⟨0, 0, 0⟩ run.processed
  match run.stop with
  | some kill => (loop.1, kill.status)
  | none =>
      let status := if loop.2.fail = 0 then 0 else 1
      (loop.1 ++ [Line.empty, resultsLine loop.2, exitLine status], status)

/-- `init` in test mode, on the console. -/
def init (run : TestRun) : List Line :=
  run.boot.map Noise.toLine ++ [line "=== lkmpg test mode ===" Line.empty (by decide)] ++
    run.guestTest.1 ++
    [line "=== test exited with code " (line "" (number run.guestTest.2) (by decide)) (by decide)] ++
    run.halt.map Noise.toLine

/-! ### The host -/

/-- `test-modules.sh` after QEMU has ended: its exit status. -/
def testModules (logfile : List Byte) (qemuExit : ℕ) : ℕ :=
  let totalPass := grepCount (bytes "LKMPG:PASS ") logfile
  let totalFail := grepCount (bytes "LKMPG:FAIL ") logfile
  if 0 < totalFail then 1
  else if totalPass = 0 then 1
  else if qemuExit ≠ 0 then 1
  else 0

/-- The exit status of `test-modules.sh`. -/
def hostExit (run : TestRun) : ℕ := testModules (unlines run.init) run.qemuExit

end TestRun

/-! ### Records -/

/-- What a record that the host counts begins with. -/
def recordStart : Bool → List Byte
  | true => bytes "LKMPG:PASS "
  | false => bytes "LKMPG:FAIL "

def records (works : Bool) (ls : List Line) : ℕ := ls.countP fun l => recordStart works <+: l.text

theorem recordStart_ne_nil (works : Bool) : recordStart works ≠ [] := by
  cases works with
  | false => decide
  | true => decide

theorem length_recordStart (works : Bool) : (recordStart works).length = 11 := by
  cases works with
  | false => rfl
  | true => rfl

theorem lkmpg_isPrefix_recordStart (works : Bool) : bytes "LKMPG:" <+: recordStart works := by
  cases works with
  | false => decide
  | true => decide

theorem grepCount_recordStart (works : Bool) (ls : List Line) :
    grepCount (recordStart works) (unlines ls) = records works ls :=
  grepCount_unlines (recordStart_ne_nil works) ls

@[simp]
theorem records_nil (works : Bool) : records works [] = 0 := rfl

theorem records_cons (works : Bool) (l : Line) (ls : List Line) :
    records works (l :: ls) = records works ls + if recordStart works <+: l.text then 1 else 0 := by
  simp [records, List.countP_cons]

theorem records_append (works : Bool) (ls ls' : List Line) :
    records works (ls ++ ls') = records works ls + records works ls' :=
  List.countP_append

@[simp]
theorem records_noise (works : Bool) (ns : List Noise) : records works (ns.map Noise.toLine) = 0 := by
  refine List.countP_eq_zero.mpr fun l hl hrecord => ?_
  obtain ⟨n, -, rfl⟩ := List.mem_map.mp hl
  exact n.noRecord ((lkmpg_isPrefix_recordStart works).trans (of_decide_eq_true hrecord))

/-- The text of the source decides, if it is long enough. -/
theorem recordStart_isPrefix_iff {works : Bool} {t l : List Byte} (ht : t <+: l)
    (hlong : 11 ≤ t.length) : recordStart works <+: l ↔ recordStart works <+: t := by
  constructor
  · intro h
    refine List.prefix_of_prefix_length_le h ht ?_
    rw [length_recordStart]
    exact hlong
  · intro h
    exact h.trans ht

theorem recordStart_isPrefix_passLine (works : Bool) (mod : Line) :
    recordStart works <+: (passLine mod).text ↔ works = true := by
  have hstart : bytes "LKMPG:PASS " <+: (passLine mod).text := List.prefix_append ..
  rw [recordStart_isPrefix_iff hstart (by decide)]
  cases works with
  | false => decide
  | true => decide

theorem recordStart_isPrefix_failLine (works : Bool) (mod : Line) :
    recordStart works <+: (failLine mod).text ↔ works = false := by
  have hstart : bytes "LKMPG:FAIL " <+: (failLine mod).text := List.prefix_append ..
  rw [recordStart_isPrefix_iff hstart (by decide)]
  cases works with
  | false => decide
  | true => decide

/-- The lines of the two scripts that the host does not count. -/
theorem not_recordStart_isPrefix {l : List Byte} (works : Bool)
    (h : ∃ t ∈ [bytes "LKMPG:SKIP ", bytes "LKMPG:RESULTS ", bytes "LKMPG:EXIT ",
      bytes "=== lkmpg test mode ===", bytes "=== test exited with code "], t <+: l) :
    ¬recordStart works <+: l := by
  obtain ⟨t, hmem, ht⟩ := h
  have hall : ∀ works, ∀ t ∈ [bytes "LKMPG:SKIP ", bytes "LKMPG:RESULTS ", bytes "LKMPG:EXIT ",
      bytes "=== lkmpg test mode ===", bytes "=== test exited with code "],
      11 ≤ t.length ∧ ¬recordStart works <+: t := by
    decide
  obtain ⟨hlong, hnot⟩ := hall works t hmem
  rw [recordStart_isPrefix_iff ht hlong]
  exact hnot

theorem not_recordStart_isPrefix_skipLine (works : Bool) (mod : Line) :
    ¬recordStart works <+: (skipLine mod).text :=
  not_recordStart_isPrefix works ⟨bytes "LKMPG:SKIP ", by decide, List.prefix_append ..⟩

theorem not_recordStart_isPrefix_resultsLine (works : Bool) (c : Counts) :
    ¬recordStart works <+: (resultsLine c).text := by
  refine not_recordStart_isPrefix works ⟨bytes "LKMPG:RESULTS ", by decide, ?_⟩
  simp only [resultsLine, List.append_assoc]
  exact List.prefix_append ..

theorem not_recordStart_isPrefix_exitLine (works : Bool) (status : ℕ) :
    ¬recordStart works <+: (exitLine status).text :=
  not_recordStart_isPrefix works ⟨bytes "LKMPG:EXIT ", by decide, List.prefix_append ..⟩

namespace TestRun

variable {run : TestRun}

/-- `guest-test.sh` reaches the commands. -/
def tested (run : TestRun) (m : Module) : Bool := m.isFile && !run.excluded m.mod

/-- One entry prints the record of its outcome, once. -/
theorem records_testModule (works : Bool) (c : Counts) (m : Module) :
    records works (run.testModule c m).1 = if run.tested m && m.works == works then 1 else 0 := by
  rw [testModule, tested]
  cases hfile : m.isFile with
  | false => simp
  | true =>
      cases hexcluded : run.excluded m.mod with
      | true => simp [records_cons, not_recordStart_isPrefix_skipLine]
      | false =>
          cases hworks : m.works with
          | true =>
              cases works with
              | true => simp [records_append, records_cons, recordStart_isPrefix_passLine]
              | false => simp [records_append, records_cons, recordStart_isPrefix_passLine]
          | false =>
              cases works with
              | true => simp [records_append, records_cons, recordStart_isPrefix_failLine]
              | false => simp [records_append, records_cons, recordStart_isPrefix_failLine]

theorem records_testLoop (works : Bool) (ms : List Module) (c : Counts) :
    records works (run.testLoop c ms).1 = ms.countP fun m => run.tested m && m.works == works := by
  induction ms generalizing c with
  | nil => rfl
  | cons m ms ih =>
      show records works ((run.testModule c m).1 ++ (run.testLoop (run.testModule c m).2 ms).1) = _
      rw [records_append, records_testModule, ih, List.countP_cons, Nat.add_comm]

theorem records_guestTest (works : Bool) :
    records works run.guestTest.1 =
      run.processed.countP fun m => run.tested m && m.works == works := by
  rw [guestTest]
  cases run.stop with
  | some kill => exact records_testLoop works run.processed ⟨0, 0, 0⟩
  | none =>
      have hempty : ¬recordStart works <+: Line.empty.text := by
        rw [Line.empty, List.prefix_nil]
        exact recordStart_ne_nil works
      show records works ((run.testLoop ⟨0, 0, 0⟩ run.processed).1 ++ _) = _
      rw [records_append, records_testLoop]
      simp [records_cons, hempty, not_recordStart_isPrefix_resultsLine,
        not_recordStart_isPrefix_exitLine]

/-- Only `guest-test.sh` prints records. -/
theorem records_init (works : Bool) :
    records works run.init =
      run.processed.countP fun m => run.tested m && m.works == works := by
  have hmode : ¬recordStart works <+:
      (line "=== lkmpg test mode ===" Line.empty (by decide)).text :=
    not_recordStart_isPrefix works
      ⟨bytes "=== lkmpg test mode ===", by decide, List.prefix_append ..⟩
  have hcode : ¬recordStart works <+: (line "=== test exited with code "
      (line "" (number run.guestTest.2) (by decide)) (by decide)).text :=
    not_recordStart_isPrefix works
      ⟨bytes "=== test exited with code ", by decide, List.prefix_append ..⟩
  simp [init, records_append, records_cons, hmode, hcode, records_guestTest]

theorem testModules_eq_zero_iff (logfile : List Byte) (qemuExit : ℕ) :
    testModules logfile qemuExit = 0 ↔
      qemuExit = 0 ∧ grepCount (bytes "LKMPG:FAIL ") logfile = 0 ∧
        0 < grepCount (bytes "LKMPG:PASS ") logfile := by
  simp only [testModules]
  split_ifs with hfail hpass hqemu
  · exact ⟨False.elim, fun h => absurd h.2.1 hfail.ne'⟩
  · exact ⟨False.elim, fun h => absurd hpass h.2.2.ne'⟩
  · exact ⟨False.elim, fun h => absurd h.1 hqemu⟩
  · exact ⟨fun _ => ⟨not_not.mp hqemu, by omega, by omega⟩, fun _ => rfl⟩

/-- **What the host looks at.** -/
theorem hostExit_eq_zero_iff :
    run.hostExit = 0 ↔
      run.qemuExit = 0 ∧ (∀ m ∈ run.processed, run.tested m → m.works) ∧
        ∃ m ∈ run.processed, run.tested m ∧ m.works := by
  have hfail : grepCount (bytes "LKMPG:FAIL ") (unlines run.init) = 0 ↔
      ∀ m ∈ run.processed, run.tested m → m.works := by
    have hcount := grepCount_recordStart false run.init
    rw [records_init] at hcount
    rw [show bytes "LKMPG:FAIL " = recordStart false from rfl, hcount, List.countP_eq_zero]
    simp
  have hpass : 0 < grepCount (bytes "LKMPG:PASS ") (unlines run.init) ↔
      ∃ m ∈ run.processed, run.tested m ∧ m.works := by
    have hcount := grepCount_recordStart true run.init
    rw [records_init] at hcount
    rw [show bytes "LKMPG:PASS " = recordStart true from rfl, hcount, List.countP_pos_iff]
    simp
  rw [← hfail, ← hpass, hostExit, testModules_eq_zero_iff]

/-! ### A run that is not killed -/

/-- The counters of the guest are the records that it has printed. -/
theorem testModule_counts (run : TestRun) (c : Counts) (m : Module) :
    (run.testModule c m).2.pass = c.pass + records true (run.testModule c m).1 ∧
      (run.testModule c m).2.fail = c.fail + records false (run.testModule c m).1 := by
  rw [records_testModule, records_testModule, testModule, tested]
  cases hfile : m.isFile with
  | false => simp
  | true =>
      cases hexcluded : run.excluded m.mod with
      | true => simp
      | false =>
          cases hworks : m.works with
          | true => simp
          | false => simp

theorem testLoop_counts (run : TestRun) (ms : List Module) (c : Counts) :
    (run.testLoop c ms).2.pass = c.pass + records true (run.testLoop c ms).1 ∧
      (run.testLoop c ms).2.fail = c.fail + records false (run.testLoop c ms).1 := by
  induction ms generalizing c with
  | nil => exact ⟨rfl, rfl⟩
  | cons m ms ih =>
      obtain ⟨hpass, hfail⟩ := testModule_counts run c m
      obtain ⟨ihpass, ihfail⟩ := ih (run.testModule c m).2
      simp only [testLoop, records_append]
      exact ⟨by omega, by omega⟩

/-- The guest and the host agree on a run that is not killed. -/
theorem hostExit_eq_zero_iff_of_stop (hstop : run.stop = none) :
    run.hostExit = 0 ↔
      run.qemuExit = 0 ∧ run.guestTest.2 = 0 ∧ ∃ m ∈ run.modules, run.tested m ∧ m.works := by
  have hprocessed : run.processed = run.modules := by rw [processed, hstop]
  have hstatus : run.guestTest.2 = 0 ↔ ∀ m ∈ run.modules, run.tested m → m.works := by
    obtain ⟨-, hfail⟩ := testLoop_counts run run.modules ⟨0, 0, 0⟩
    rw [records_testLoop, Nat.zero_add] at hfail
    rw [guestTest, hstop, hprocessed]
    simp [hfail]
  rw [hostExit_eq_zero_iff, hprocessed, hstatus]

/-! ### A run that is killed -/

/-- The iteration for the entry prints `LKMPG:PASS`. -/
def PrintsPass (run : TestRun) (m : Module) : Prop := ∃ c, passLine m.mod ∈ (run.testModule c m).1

/-- What success means: `guest-test.sh` has finished its loop, and every module that is not excluded
has passed, of which there is one. -/
structure Complete (run : TestRun) : Prop where
  finished : run.processed = run.modules
  passed : ∀ m ∈ run.modules, run.tested m → run.PrintsPass m
  tested : ∃ m ∈ run.modules, run.tested m

theorem printsPass_iff {m : Module} (htested : run.tested m) : run.PrintsPass m ↔ m.works := by
  constructor
  · rintro ⟨c, hmem⟩
    have hrecord : 0 < records true (run.testModule c m).1 :=
      List.countP_pos_iff.mpr
        ⟨passLine m.mod, hmem, decide_eq_true ((recordStart_isPrefix_passLine true m.mod).mpr rfl)⟩
    rw [records_testModule] at hrecord
    by_contra hworks
    simp [hworks] at hrecord
  · intro hworks
    rw [TestRun.tested, Bool.and_eq_true, Bool.not_eq_true'] at htested
    refine ⟨⟨0, 0, 0⟩, ?_⟩
    simp [testModule, htested.1, htested.2, hworks]

theorem processed_eq_modules_iff :
    run.processed = run.modules ↔ ∀ kill, run.stop = some kill → run.modules.length ≤ kill.after := by
  rw [processed]
  cases run.stop with
  | none => simp
  | some kill => simp [List.take_eq_self_iff]

/-- **The host reports success only for a complete run, exactly where** QEMU has failed,
`guest-test.sh` is not killed before its last entry, one of the entries before that has failed, or
none has passed. -/
theorem successComplete_iff :
    (run.hostExit = 0 → run.Complete) ↔
      run.qemuExit ≠ 0 ∨ (∀ kill, run.stop = some kill → run.modules.length ≤ kill.after) ∨
        (∃ m ∈ run.processed, run.tested m ∧ ¬m.works) ∨
          ∀ m ∈ run.processed, run.tested m → ¬m.works := by
  rw [← processed_eq_modules_iff, hostExit_eq_zero_iff]
  constructor
  · intro h
    by_contra! hnot
    obtain ⟨hqemu, hkilled, hworks, hpass⟩ := hnot
    exact hkilled (h ⟨hqemu, hworks, hpass⟩).finished
  · rintro hwhen ⟨hqemu, hworks, m, hmem, htested, hpass⟩
    obtain hexit | hfinished | ⟨m', hmem', htested', hfails⟩ | hnone := hwhen
    · exact absurd hqemu hexit
    · rw [hfinished] at hworks hmem
      exact ⟨hfinished, fun m hm ht => (printsPass_iff ht).mpr (hworks m hm ht), m, hmem, htested⟩
    · exact absurd (hworks m' hmem' htested') hfails
    · exact absurd hpass (hnone m hmem htested)

/-- Two modules, and `guest-test.sh` is killed after the first has passed: `init` powers the guest
off, and QEMU ends as it does after a complete run. -/
theorem not_successComplete_killed :
    ¬∀ run : TestRun, run.hostExit = 0 → run.Complete := by
  intro h
  have hfirst : (0x0a : Byte) ∉ bytes "hello-1" := by decide
  have hsecond : (0x0a : Byte) ∉ bytes "hello-2" := by decide
  let first : Module := ⟨⟨bytes "hello-1", hfirst⟩, true, true, true, true, true, [], []⟩
  let second : Module := ⟨⟨bytes "hello-2", hsecond⟩, true, true, true, true, true, [], []⟩
  let run : TestRun := ⟨[first, second], none, none, some ⟨1, 137⟩, [], [], 0⟩
  have hexit : run.hostExit = 0 :=
    hostExit_eq_zero_iff.mpr ⟨rfl, by simp [run, processed, first, Module.works],
      first, by simp [run, processed], rfl, rfl⟩
  have hfinished : [first] = [first, second] := (h run hexit).finished
  exact absurd hfinished (by simp)

end TestRun

end Lkmpg.Devtools
