import Lkmpg.Devtools.TestRun

/-!
# One test in two places

`build-n-run.sh` loads and unloads every module twice on the host, and `guest-test.sh` does it in the
guest, by "same logic".  The first is a list of commands under `set -e`, and so ends with the first
one that fails, in whichever module; the second has them in an `if`, counts the module as failed,
and goes on with the next one.  Each command finds the kernel as the ones before have left it.

The kernel is any state that `insmod` and `rmmod` change.  Both scripts go through the modules in the
same order, every entry is a file, and `tee` can write its logs.
-/

namespace Lkmpg.Devtools

open CString Lines

/-- What the two commands do to the kernel, and if they succeed. -/
structure Kernel (κ : Type) where
  insmod : Line → κ → κ × Bool
  rmmod : Line → κ → κ × Bool

/-- A module file, and what the console shows while `guest-test.sh` is at it. -/
structure Entry where
  mod : Line
  noise : List Noise
  cleanup : List Noise

variable {κ : Type}

/-- Commands under `set -e`, or with `&&` between them: up to the first one that fails. -/
def upToFailure : List (κ → κ × Bool) → κ → κ × Bool
  | [], s => (s, true)
  | c :: cs, s => if (c s).2 then upToFailure cs (c s).1 else ((c s).1, false)

namespace Kernel

/-- The commands of both scripts for a module. -/
def commands (k : Kernel κ) (mod : Line) : List (κ → κ × Bool) :=
  [k.insmod mod, k.rmmod mod, k.insmod mod, k.rmmod mod]

/-! ### `build-n-run.sh` -/

/-- `grep -vFxf` with the lines of `.ci/non-working`, if the file exists -/
def listMod (nonWorking : Option (List (List Byte))) (mods : List Line) : List Line :=
  mods.filter fun mod => !nonWorking.elim false (·.contains mod.text)

/-- `run_mod`, whose status is that of the commands -/
def runMod (k : Kernel κ) (mod : Line) (s : κ) : κ × Bool := upToFailure (k.commands mod) s

/-- The loop of `run_examples`: what it leaves, and the module that ends the script, if one does. -/
def runExamples (k : Kernel κ) : List Line → κ → κ × Option Line
  | [], s => (s, none)
  | mod :: mods, s =>
      let r := k.runMod mod s
      if r.2 then k.runExamples mods r.1 else (r.1, some mod)

/-- The loop over what `list_mod` prints. -/
def buildNRun (k : Kernel κ) (nonWorking : Option (List (List Byte))) (mods : List Line) (s : κ) :
    κ × Option Line :=
  k.runExamples (listMod nonWorking mods) s

/-! ### `guest-test.sh` -/

/-- The commands of `guest-test.sh` for a module, and `rmmod` once more if one has failed. -/
def testEntry (k : Kernel κ) (e : Entry) (s : κ) : κ × Module :=
  let r₁ := k.insmod e.mod s
  let r₂ := if r₁.2 then k.rmmod e.mod r₁.1 else (r₁.1, false)
  let r₃ := if r₂.2 then k.insmod e.mod r₂.1 else (r₂.1, false)
  let r₄ := if r₃.2 then k.rmmod e.mod r₃.1 else (r₃.1, false)
  (if r₄.2 then r₄.1 else (k.rmmod e.mod r₄.1).1,
    ⟨e.mod, true, r₁.2, r₂.2, r₃.2, r₄.2, e.noise, e.cleanup⟩)

/-- The entries one after the other; a module that is skipped runs no command. -/
def testEntries (k : Kernel κ) (skip : Line → Bool) : List Entry → κ → κ × List Module
  | [], s => (s, [])
  | e :: es, s =>
      let first :=
        if skip e.mod then (s, ⟨e.mod, true, false, false, false, false, e.noise, e.cleanup⟩)
        else k.testEntry e s
      let rest := k.testEntries skip es first.1
      (rest.1, first.2 :: rest.2)

/-- A run of `test-modules.sh` whose guest has this kernel, and is not killed. -/
structure Guest where
  entries : List Entry
  nonWorking : Option (List (List Byte))
  nonWorkingQemu : Option (List (List Byte))
  boot : List Noise
  halt : List Noise
  qemuExit : ℕ

/-- One of the two lists has the module. -/
def Guest.skip (g : Guest) (mod : Line) : Bool :=
  [g.nonWorking, g.nonWorkingQemu].any fun nw => nw.elim false (·.contains mod.text)

/-- What the guest leaves, and what the host looks at. -/
def testRun (k : Kernel κ) (g : Guest) (s : κ) : κ × TestRun :=
  let r := k.testEntries g.skip g.entries s
  (r.1, ⟨r.2, g.nonWorking, g.nonWorkingQemu, none, g.boot, g.halt, g.qemuExit⟩)

/-! ### One module -/

/-- The `if` of `guest-test.sh` is about the commands of `run_mod`. -/
theorem works_testEntry (k : Kernel κ) (e : Entry) (s : κ) :
    (k.testEntry e s).2.works = (k.runMod e.mod s).2 := by
  cases h₁ : (k.insmod e.mod s).2 with
  | false => simp [testEntry, runMod, commands, upToFailure, Module.works, h₁]
  | true =>
      cases h₂ : (k.rmmod e.mod (k.insmod e.mod s).1).2 with
      | false => simp [testEntry, runMod, commands, upToFailure, Module.works, h₁, h₂]
      | true =>
          cases h₃ : (k.insmod e.mod (k.rmmod e.mod (k.insmod e.mod s).1).1).2 with
          | false => simp [testEntry, runMod, commands, upToFailure, Module.works, h₁, h₂, h₃]
          | true =>
              cases h₄ : (k.rmmod e.mod (k.insmod e.mod (k.rmmod e.mod (k.insmod e.mod s).1).1).1).2 <;>
                simp [testEntry, runMod, commands, upToFailure, Module.works, h₁, h₂, h₃, h₄]

/-- A module that works leaves the same kernel to what follows. -/
theorem testEntry_fst_of_works {k : Kernel κ} {e : Entry} {s : κ}
    (h : (k.runMod e.mod s).2 = true) : (k.testEntry e s).1 = (k.runMod e.mod s).1 := by
  simp only [runMod, commands, upToFailure] at h ⊢
  split at h
  · rename_i h₁
    split at h
    · rename_i h₂
      split at h
      · rename_i h₃
        split at h
        · rename_i h₄
          simp [testEntry, h₁, h₂, h₃, h₄]
        · cases h
      · cases h
    · cases h
  · cases h

/-! ### All modules -/

/-- The first module of the guest that does not work, among those that it does not skip. -/
def firstFailure (skip : Line → Bool) (ms : List Module) : Option Line :=
  (ms.find? fun m => !skip m.mod && !m.works).map Module.mod

theorem mod_testEntry (k : Kernel κ) (e : Entry) (s : κ) : (k.testEntry e s).2.mod = e.mod := rfl

/-- **Loop.**  Up to the first failure both scripts run the same commands. -/
theorem firstFailure_testEntries (k : Kernel κ) (skip : Line → Bool) (es : List Entry) (s : κ) :
    firstFailure skip (k.testEntries skip es s).2 =
      (k.runExamples ((es.map Entry.mod).filter fun mod => !skip mod) s).2 := by
  induction es generalizing s with
  | nil => rfl
  | cons e es ih =>
      cases hskip : skip e.mod with
      | true => simpa [testEntries, firstFailure, hskip] using ih s
      | false =>
          cases hworks : (k.runMod e.mod s).2 with
          | true =>
              have hsame := testEntry_fst_of_works hworks
              simpa [testEntries, firstFailure, runExamples, hskip, works_testEntry, mod_testEntry,
                hworks, hsame] using ih (k.runMod e.mod s).1
          | false =>
              simp [testEntries, firstFailure, runExamples, hskip, works_testEntry, mod_testEntry,
                hworks]

/-- If nothing fails, they leave the same kernel. -/
theorem testEntries_fst (k : Kernel κ) (skip : Line → Bool) (es : List Entry) (s : κ)
    (h : (k.runExamples ((es.map Entry.mod).filter fun mod => !skip mod) s).2 = none) :
    (k.testEntries skip es s).1 =
      (k.runExamples ((es.map Entry.mod).filter fun mod => !skip mod) s).1 := by
  induction es generalizing s with
  | nil => rfl
  | cons e es ih =>
      cases hskip : skip e.mod with
      | true =>
          have hrest : (k.runExamples ((es.map Entry.mod).filter fun mod => !skip mod) s).2 =
              none := by simpa [hskip] using h
          simpa [testEntries, hskip] using ih s hrest
      | false =>
          cases hworks : (k.runMod e.mod s).2 with
          | true =>
              have hsame := testEntry_fst_of_works hworks
              have hrest : (k.runExamples ((es.map Entry.mod).filter fun mod => !skip mod)
                  (k.runMod e.mod s).1).2 = none := by simpa [hskip, runExamples, hworks] using h
              simpa [testEntries, runExamples, hskip, hworks, hsame] using ih _ hrest
          | false =>
              simp [hskip, runExamples, hworks] at h

theorem mods_testEntries (k : Kernel κ) (skip : Line → Bool) (es : List Entry) (s : κ) :
    (k.testEntries skip es s).2.map Module.mod = es.map Entry.mod := by
  induction es generalizing s with
  | nil => rfl
  | cons e es ih =>
      simp only [testEntries, List.map_cons, ih]
      split <;> rfl

theorem isFile_testEntries (k : Kernel κ) (skip : Line → Bool) (es : List Entry) (s : κ) :
    ∀ m ∈ (k.testEntries skip es s).2, m.isFile = true := by
  induction es generalizing s with
  | nil => simp [testEntries]
  | cons e es ih =>
      simp only [testEntries, List.forall_mem_cons]
      refine ⟨?_, ih _⟩
      split <;> rfl

/-- A list that only the guest has excludes nothing more. -/
theorem listMod_eq {g : Guest} {mods : List Line}
    (hqemu : ∀ mod ∈ mods, g.skip mod = g.nonWorking.elim false (·.contains mod.text)) :
    listMod g.nonWorking mods = mods.filter fun mod => !g.skip mod :=
  List.filter_congr fun mod hmod => by rw [hqemu mod hmod]

theorem tested_testRun (k : Kernel κ) (g : Guest) (s : κ) :
    ∀ m ∈ (k.testRun g s).2.modules, (k.testRun g s).2.tested m = !g.skip m.mod := by
  intro m hm
  rw [TestRun.tested, isFile_testEntries k g.skip g.entries s m hm, Bool.true_and]
  rfl

/-- **The same logic.**  Whatever the commands do to the kernel, the first module that fails in the
guest is the one at which `build-n-run.sh` ends.  So `test-modules.sh` reports success exactly if
`build-n-run.sh` does, QEMU does, and there is a module to test; and then both leave the same
kernel. -/
theorem same_logic (k : Kernel κ) (g : Guest) (s : κ)
    (hqemu : ∀ mod ∈ g.entries.map Entry.mod,
      g.skip mod = g.nonWorking.elim false (·.contains mod.text)) :
    firstFailure g.skip (k.testRun g s).2.modules =
        (k.buildNRun g.nonWorking (g.entries.map Entry.mod) s).2 ∧
      ((k.testRun g s).2.hostExit = 0 ↔
        (k.buildNRun g.nonWorking (g.entries.map Entry.mod) s).2 = none ∧ g.qemuExit = 0 ∧
          ∃ e ∈ g.entries, g.skip e.mod = false) ∧
      ((k.buildNRun g.nonWorking (g.entries.map Entry.mod) s).2 = none →
        (k.testRun g s).1 = (k.buildNRun g.nonWorking (g.entries.map Entry.mod) s).1) := by
  rw [buildNRun, listMod_eq hqemu]
  have hfirst := firstFailure_testEntries k g.skip g.entries s
  refine ⟨hfirst, ?_, testEntries_fst k g.skip g.entries s⟩
  have htested := tested_testRun k g s
  have hnone : firstFailure g.skip (k.testRun g s).2.modules = none ↔
      ∀ m ∈ (k.testRun g s).2.modules, (k.testRun g s).2.tested m → m.works := by
    rw [firstFailure, Option.map_eq_none_iff, List.find?_eq_none]
    refine forall₂_congr fun m hm => ?_
    rw [htested m hm]
    cases g.skip m.mod <;> cases m.works <;> simp
  have hexists : (∃ m ∈ (k.testRun g s).2.modules, (k.testRun g s).2.tested m) ↔
      ∃ e ∈ g.entries, g.skip e.mod = false := by
    have hmods := mods_testEntries k g.skip g.entries s
    have hmap : (∃ mod ∈ (k.testRun g s).2.modules.map Module.mod, g.skip mod = false) ↔
        ∃ mod ∈ g.entries.map Entry.mod, g.skip mod = false := by
      rw [← hmods]
      rfl
    simp only [List.mem_map, exists_exists_and_eq_and] at hmap
    rw [← hmap]
    refine exists_congr fun m => and_congr_right fun hm => ?_
    rw [htested m hm]
    simp
  have hstop : (k.testRun g s).2.processed = (k.testRun g s).2.modules := rfl
  rw [TestRun.hostExit_eq_zero_iff, hstop, ← hfirst, ← hexists]
  constructor
  · rintro ⟨hqemu, hworks, m, hm, htest, -⟩
    exact ⟨hnone.mpr hworks, hqemu, m, hm, htest⟩
  · rintro ⟨hfail, hqemu, m, hm, htest⟩
    exact ⟨hqemu, hnone.mp hfail, m, hm, htest, hnone.mp hfail m hm htest⟩

/-- A kernel that has a module once, and takes `vkbd` only beside `vinput`. -/
def vkbdAfterVinput : Kernel (List (List Byte)) where
  insmod mod s :=
    if s.contains mod.text || (mod.text == bytes "vkbd" && !s.contains (bytes "vinput")) then (s, false)
    else (mod.text :: s, true)
  rmmod mod s := if s.contains mod.text then (s.erase mod.text, true) else (s, false)

/-- Three modules, of which the last one works only if another one stays loaded. -/
def threeModules : Guest where
  entries := [⟨⟨bytes "hello-1", by decide⟩, [], []⟩, ⟨⟨bytes "vinput", by decide⟩, [], []⟩,
    ⟨⟨bytes "vkbd", by decide⟩, [], []⟩]
  nonWorking := some [bytes "intrpt", bytes "vkbd"]
  nonWorkingQemu := some [bytes "kbleds"]
  boot := []
  halt := []
  qemuExit := 0

theorem same_logic_threeModules : (vkbdAfterVinput.testRun threeModules []).2.hostExit = 0 := by
  have hlogic := same_logic vkbdAfterVinput threeModules [] (by decide)
  exact hlogic.2.1.mpr ⟨by decide, rfl, _, List.mem_cons_self, by decide⟩

end Kernel

end Lkmpg.Devtools
