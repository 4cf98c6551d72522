import Lkmpg.Lib.Base64
import Lkmpg.Lib.ShellText

/-!
# The command that `boot.sh` hands to the guest

`boot.sh --test CMD` has to carry a command through the command line of the kernel, which the guest
splits into words again.  It therefore hands it over in base64, without ends of lines, in an argument
`lkmpg.cmd64=`; `init` looks for the argument, decodes it and runs it with `/bin/sh -c`.

The command arrives as it was given, but for ends of lines at its end, which the substitution in
`init` takes away; a command of nothing but ends of lines is therefore no command for the guest.  This
supposes that what follows `--`, which `boot.sh` puts behind its own arguments of QEMU, does not set
`-append` again: QEMU boots with the last one.
-/

namespace Lkmpg.Devtools

open Base64 CString ShellText

/-! ### The host -/

/-- What `boot.sh` reads from its arguments. -/
structure BootOptions where
  /-- `GDB_MODE` -/
  gdbMode : Bool
  /-- `TEST_CMD` -/
  testCmd : List Byte
  /-- `EXTRA_QEMU_ARGS` -/
  extraQemuArgs : List Arg
  deriving DecidableEq

/-- How `boot.sh` ends while it reads them. -/
inductive BootEnd where
  /-- `-h`, `--help` -/
  | usage
  /-- `--test requires a command` -/
  | testRequiresCommand
  /-- `Unknown option` -/
  | unknownOption (arg : Arg)
  deriving DecidableEq

def gdbFlag : Arg := ⟨bytes "--gdb", by decide⟩

def testFlag : Arg := ⟨bytes "--test", by decide⟩

def endFlag : Arg := ⟨bytes "--", by decide⟩

def helpFlags : List Arg := [⟨bytes "-h", by decide⟩, ⟨bytes "--help", by decide⟩]

/-- The loop over the arguments. -/
def parseBoot : List Arg → BootOptions → Except BootEnd BootOptions
  | [], o => .ok o
  | arg :: args, o =>
      if arg = gdbFlag then parseBoot args { o with gdbMode := true }
      else if arg = testFlag then
        match args with
        | [] => .error .testRequiresCommand
        | cmd :: args =>
            if cmd.text = [] then .error .testRequiresCommand
            else parseBoot args { o with testCmd := cmd.text }
      else if arg = endFlag then .ok { o with extraQemuArgs := args }
      else if arg ∈ helpFlags then .error .usage
      else .error (.unknownOption arg)

def bootArgs (args : List Arg) : Except BootEnd BootOptions := parseBoot args ⟨false, [], []⟩

/-- `base64 | tr -d '\n'`, where `base64` writes lines of `cols` characters. -/
def base64Nowrap (cols : ℕ) (text : List Byte) : List Byte :=
  (wrap cols text).filter (· ≠ newline)

/-- `lkmpg.cmd64=` -/
def cmd64 : List Byte := bytes "lkmpg.cmd64="

/-- `KCMD` -/
def kcmd (cols : ℕ) (o : BootOptions) : List Byte :=
  if o.testCmd = [] then bytes "console=ttyS0 loglevel=7 nokaslr"
  else bytes "console=ttyS0 loglevel=7 nokaslr" ++ 0x20 :: (cmd64 ++ base64Nowrap cols o.testCmd)

/-- What `boot.sh` has from its configuration and the host. -/
structure HostConfig where
  bzImage : List Byte
  initramfsCpio : List Byte
  qemuMem : List Byte
  qemuSmp : List Byte
  projectRoot : List Byte
  qemuGdbPort : List Byte
  /-- `/dev/kvm` is writable -/
  kvm : Bool

/-- `QEMU_ARGS` -/
def qemuArgs (host : HostConfig) (cols : ℕ) (o : BootOptions) : List (List Byte) :=
  [bytes "-kernel", host.bzImage, bytes "-initrd", host.initramfsCpio, bytes "-nographic",
    bytes "-m", host.qemuMem, bytes "-smp", host.qemuSmp, bytes "-no-reboot", bytes "-virtfs",
    bytes "local,id=lkmpg,path=" ++ host.projectRoot ++ bytes ",security_model=none,mount_tag=lkmpg",
    bytes "-append", kcmd cols o] ++
  (if host.kvm then [bytes "-enable-kvm", bytes "-cpu", bytes "host"] else []) ++
  (if o.gdbMode then [bytes "-gdb", bytes "tcp::" ++ host.qemuGdbPort, bytes "-S"] else []) ++
  o.extraQemuArgs.map Arg.text

/-- What QEMU boots. -/
structure Machine where
  kernel : List Byte
  initrd : List Byte
  append : List Byte
  deriving DecidableEq

/-- What is relied on of QEMU, where `qemu` tells what it boots with a list of arguments. -/
structure Boots (qemu : List (List Byte) → Option Machine) (host : HostConfig) (cols : ℕ)
    (o : BootOptions) : Prop where
  /-- `-kernel`, `-initrd` and `-append` say what is booted where each of them is given once. -/
  own : qemu (qemuArgs host cols { o with extraQemuArgs := [] }) =
    some ⟨host.bzImage, host.initramfsCpio, kcmd cols { o with extraQemuArgs := [] }⟩
  /-- The extra arguments do not change what is booted. -/
  extra : qemu (qemuArgs host cols o) = qemu (qemuArgs host cols { o with extraQemuArgs := [] })

/-! ### The guest -/

/-- `COMMAND_LINE_SIZE`, with the terminator. -/
def commandLineSize : ℕ := 2048

/-- `/proc/cmdline` -/
def procCmdline (kcmd : List Byte) : List Byte := kcmd.take (commandLineSize - 1) ++ [newline]

/-- `echo` -/
def echo (text : List Byte) : List Byte := text ++ [newline]

/-- The body of the loop of `init` over the arguments. -/
def initArg (testcmd arg : List Byte) : List Byte :=
  if cmd64 <+: arg then substitute (decode (echo (arg.drop cmd64.length))) else testcmd

/-- `TESTCMD` -/
def testcmd (g : Glob) (cmdline : List Byte) : List Byte := (g.words cmdline).foldl initArg []

/-- What `init` does after it has read the command line. -/
inductive GuestMode where
  /-- `/bin/sh -c "$TESTCMD"` -/
  | test (cmd : List Byte)
  | interactive
  deriving DecidableEq

def guestMode (g : Glob) (cmdline : List Byte) : GuestMode :=
  if testcmd g cmdline = [] then .interactive else .test (testcmd g cmdline)

/-! ### The arguments that `boot.sh` accepts -/

/-- An option of `boot.sh`. -/
inductive BootItem where
  | gdb
  | test (cmd : Arg)

def BootItem.args : BootItem → List Arg
  | .gdb => [gdbFlag]
  | .test cmd => [testFlag, cmd]

def BootItem.command? : BootItem → Option Arg
  | .gdb => none
  | .test cmd => some cmd

/-- A command line of `boot.sh`. -/
structure BootLine where
  items : List BootItem
  /-- what follows `--` -/
  extra : Option (List Arg)
  nonempty : ∀ cmd ∈ items.filterMap BootItem.command?, cmd.text ≠ []

namespace BootLine

def args (l : BootLine) : List Arg :=
  l.items.flatMap BootItem.args ++ l.extra.elim [] (endFlag :: ·)

/-- The command of the last `--test`. -/
def lastTest (l : BootLine) : Option Arg := (l.items.filterMap BootItem.command?).getLast?

end BootLine

/-- What an option does. -/
def BootOptions.apply (o : BootOptions) : BootItem → BootOptions
  | .gdb => { o with gdbMode := true }
  | .test cmd => { o with testCmd := cmd.text }

def BootOptions.withExtra (o : BootOptions) : Option (List Arg) → BootOptions
  | none => o
  | some args => { o with extraQemuArgs := args }

/-- What the arguments of a command line ask for. -/
def BootLine.options (l : BootLine) : BootOptions :=
  (l.items.foldl BootOptions.apply ⟨false, [], []⟩).withExtra l.extra

section Parse

variable {args : List Arg} {o : BootOptions}

theorem flags_ne : testFlag ≠ gdbFlag ∧ endFlag ≠ gdbFlag ∧ endFlag ≠ testFlag := by decide

theorem parseBoot_gdb :
    parseBoot (gdbFlag :: args) o = parseBoot args (o.apply .gdb) := by
  rw [parseBoot.eq_def]
  simp [BootOptions.apply]

theorem parseBoot_test {cmd : Arg} (h : cmd.text ≠ []) :
    parseBoot (testFlag :: cmd :: args) o = parseBoot args (o.apply (.test cmd)) := by
  rw [parseBoot.eq_def]
  simp [BootOptions.apply, flags_ne.1, h]

theorem parseBoot_end :
    parseBoot (endFlag :: args) o = .ok (o.withExtra (some args)) := by
  rw [parseBoot.eq_def]
  simp [BootOptions.withExtra, flags_ne.2.1, flags_ne.2.2]

/-- The loop reads off the options one after the other. -/
theorem parseBoot_items {items : List BootItem} {extra : Option (List Arg)}
    (h : ∀ cmd ∈ items.filterMap BootItem.command?, cmd.text ≠ []) :
    parseBoot (items.flatMap BootItem.args ++ extra.elim [] (endFlag :: ·)) o =
      .ok ((items.foldl BootOptions.apply o).withExtra extra) := by
  induction items generalizing o with
  | nil =>
      cases extra with
      | none => rw [parseBoot.eq_def]; rfl
      | some args => exact parseBoot_end
  | cons item items ih =>
      cases item with
      | gdb => exact parseBoot_gdb.trans (ih h)
      | test cmd =>
          have hcmds : ∀ c ∈ cmd :: items.filterMap BootItem.command?, c.text ≠ [] := h
          rw [List.forall_mem_cons] at hcmds
          exact (parseBoot_test hcmds.1).trans (ih hcmds.2)

/-- And it accepts nothing else. -/
theorem exists_items_of_parseBoot {o' : BootOptions} (h : parseBoot args o = .ok o') :
    ∃ l : BootLine, l.args = args ∧ (l.items.foldl BootOptions.apply o).withExtra l.extra = o' := by
  induction args, o using parseBoot.induct with
  | case1 o =>
      rw [parseBoot.eq_def] at h
      obtain rfl := Except.ok.inj h
      exact ⟨⟨[], none, by simp⟩, rfl, rfl⟩
  | case2 args o ih =>
      rw [parseBoot_gdb] at h
      obtain ⟨l, rfl, hl⟩ := ih h
      exact ⟨⟨.gdb :: l.items, l.extra, l.nonempty⟩, rfl, hl⟩
  | case3 o hne =>
      rw [parseBoot.eq_def] at h
      simp [hne] at h
  | case4 o cmd args hcmd hne =>
      rw [parseBoot.eq_def] at h
      simp [hne, hcmd] at h
  | case5 o cmd args hcmd hne ih =>
      rw [parseBoot_test hcmd] at h
      obtain ⟨l, rfl, hl⟩ := ih h
      exact ⟨⟨.test cmd :: l.items, l.extra, List.forall_mem_cons.mpr ⟨hcmd, l.nonempty⟩⟩, rfl, hl⟩
  | case6 args o =>
      rw [parseBoot_end] at h
      obtain rfl := Except.ok.inj h
      exact ⟨⟨[], some args, by simp⟩, rfl, rfl⟩
  | case7 arg args o hgdb htest hend hhelp =>
      rw [parseBoot.eq_def] at h
      simp [hgdb, htest, hend, hhelp] at h
  | case8 arg args o hgdb htest hend hhelp =>
      rw [parseBoot.eq_def] at h
      simp [hgdb, htest, hend, hhelp] at h

/-- **Accepted arguments.**  `boot.sh` goes on to start QEMU exactly with the arguments of a command
line, and with what it asks for. -/
theorem bootArgs_eq_ok_iff : bootArgs args = .ok o ↔ ∃ l : BootLine, l.args = args ∧ l.options = o := by
  constructor
  · exact exists_items_of_parseBoot
  · rintro ⟨l, rfl, rfl⟩
    exact parseBoot_items l.nonempty

end Parse

/-- Only the last `--test` counts. -/
theorem foldl_apply_testCmd (items : List BootItem) (o : BootOptions) :
    (items.foldl BootOptions.apply o).testCmd =
      ((items.filterMap BootItem.command?).getLast?.map Arg.text).getD o.testCmd := by
  induction items generalizing o with
  | nil => rfl
  | cons item items ih =>
      rw [List.foldl_cons, ih]
      cases item with
      | gdb => rfl
      | test cmd =>
          show _ = ((cmd :: items.filterMap BootItem.command?).getLast?.map Arg.text).getD _
          rw [List.getLast?_cons]
          cases (items.filterMap BootItem.command?).getLast? <;> rfl

theorem BootLine.options_testCmd (l : BootLine) :
    l.options.testCmd = (l.lastTest.map Arg.text).getD [] := by
  have hitems := foldl_apply_testCmd l.items ⟨false, [], []⟩
  rw [BootLine.options]
  cases l.extra with
  | none => exact hitems
  | some args => exact hitems

/-! ### What the guest decodes -/

section Guest

variable {g : Glob} {cols : ℕ} {cmd : List Byte}

theorem base64Nowrap_eq (cols : ℕ) (cmd : List Byte) : base64Nowrap cols cmd = encode cmd :=
  filter_wrap cols cmd

/-- `lkmpg.cmd64=` and base64 make a word, and one that is no pattern. -/
theorem cmd64_chars (cmd : List Byte) :
    ∀ c ∈ cmd64 ++ encode cmd, isBlank c = false ∧ c ∉ patternChars := by
  have hall : ∀ c ∈ cmd64 ++ (alphabet ++ [pad]), isBlank c = false ∧ c ∉ patternChars := by decide
  intro c hc
  refine hall c ?_
  rcases List.mem_append.mp hc with hprefix | hcode
  · exact List.mem_append_left _ hprefix
  · refine List.mem_append_right _ ?_
    rcases mem_encode hcode with hchar | hpad
    · exact List.mem_append_left _ hchar
    · exact List.mem_append_right _ (List.mem_singleton.mpr hpad)

/-- The words of the command line. -/
theorem fields_kcmd (cols : ℕ) (o : BootOptions) :
    fields (kcmd cols o ++ [newline]) =
      [bytes "console=ttyS0", bytes "loglevel=7", bytes "nokaslr"] ++
        if o.testCmd = [] then [] else [cmd64 ++ encode o.testCmd] := by
  have hfixed : fields (bytes "console=ttyS0 loglevel=7 nokaslr") =
      [bytes "console=ttyS0", bytes "loglevel=7", bytes "nokaslr"] := by decide
  have hend : isBlank newline = true := by decide
  rw [kcmd]
  split
  · rw [fields_append_cons _ [] hend, hfixed, fields_nil]
  · have hword : fields (cmd64 ++ encode o.testCmd) = [cmd64 ++ encode o.testCmd] := by
      refine fields_word (fun c hc => (cmd64_chars o.testCmd c hc).1) ?_
      exact List.append_ne_nil_of_left_ne_nil (by decide) _
    rw [List.append_assoc, List.cons_append, fields_append_cons _ _ (by decide), hfixed,
      fields_append_cons _ [] hend, fields_nil, base64Nowrap_eq, hword]
    rfl

/-- None of them is a pattern. -/
theorem words_kcmd (g : Glob) (cols : ℕ) (o : BootOptions) :
    g.words (kcmd cols o ++ [newline]) = fields (kcmd cols o ++ [newline]) := by
  refine Glob.words_eq fun word hword => ?_
  have hfixed : ∀ word ∈ [bytes "console=ttyS0", bytes "loglevel=7", bytes "nokaslr"],
      ∀ c ∈ word, c ∉ patternChars := by decide
  rw [fields_kcmd] at hword
  rcases List.mem_append.mp hword with hin | hcmd
  · exact hfixed word hin
  · split at hcmd
    · cases hcmd
    · rw [List.mem_singleton.mp hcmd]
      exact fun c hc => (cmd64_chars o.testCmd c hc).2

/-- **One argument.**  The loop of `init` takes the command out of the argument that carries it. -/
theorem initArg_cmd64 (before : List Byte) (hnul : 0 ∉ cmd) :
    initArg before (cmd64 ++ encode cmd) = cmd.rdropWhile (· = newline) := by
  have hecho : (echo (encode cmd)).filter (· ≠ newline) = encode cmd := by
    rw [echo, List.filter_append, filter_encode]
    simp
  rw [initArg, if_pos (List.prefix_append _ _), List.drop_left, decode_of_filter hecho,
    substitute_of_noNul hnul]
  rfl

/-- The command that `init` has found when it has read the whole command line. -/
theorem testcmd_kcmd (g : Glob) (cols : ℕ) {o : BootOptions} (hnul : 0 ∉ o.testCmd) :
    testcmd g (kcmd cols o ++ [newline]) = o.testCmd.rdropWhile (· = newline) := by
  have hfixed : [bytes "console=ttyS0", bytes "loglevel=7", bytes "nokaslr"].foldl initArg [] = [] := by
    decide
  rw [testcmd, words_kcmd, fields_kcmd, List.foldl_append, hfixed]
  split
  · rename_i hnone
    rw [hnone]
    rfl
  · exact initArg_cmd64 [] hnul

end Guest

/-- What the guest is to do with a command line of `boot.sh`: run the command of the last `--test`,
without the ends of lines at its end. -/
def BootLine.mode (l : BootLine) : GuestMode :=
  match l.lastTest with
  | none => .interactive
  | some cmd =>
      if ∀ c ∈ cmd.text, c = newline then .interactive
      else .test (cmd.text.rdropWhile (· = newline))

/-- The longest command that the command line of the kernel has room for. -/
def maxCommand : ℕ := 1500

theorem length_kcmd_lt_iff (cols : ℕ) (o : BootOptions) :
    (kcmd cols o).length < commandLineSize ↔ o.testCmd.length ≤ maxCommand := by
  have hfixed : (bytes "console=ttyS0 loglevel=7 nokaslr").length = 32 := by decide
  have hprefix : cmd64.length = 12 := by decide
  rw [kcmd, commandLineSize, maxCommand]
  split
  · rename_i hnone
    rw [hfixed, hnone, List.length_nil]
    omega
  · rw [List.length_append, List.length_cons, List.length_append, hfixed, hprefix, base64Nowrap_eq,
      length_encode]
    omega

theorem guestMode_kcmd (g : Glob) (cols : ℕ) {l : BootLine}
    (hshort : ∀ cmd, l.lastTest = some cmd → cmd.text.length ≤ maxCommand) :
    guestMode g (procCmdline (kcmd cols l.options)) = l.mode := by
  have hnul : 0 ∉ l.options.testCmd := by
    rw [BootLine.options_testCmd]
    cases l.lastTest with
    | none => exact List.not_mem_nil
    | some cmd => exact cmd.noNul
  have hfits : (kcmd cols l.options).length < commandLineSize := by
    rw [length_kcmd_lt_iff, BootLine.options_testCmd]
    cases hlast : l.lastTest with
    | none => exact Nat.zero_le _
    | some cmd => exact hshort cmd hlast
  have hwhole : procCmdline (kcmd cols l.options) = kcmd cols l.options ++ [newline] := by
    rw [procCmdline, List.take_of_length_le (by omega)]
  rw [hwhole, guestMode, testcmd_kcmd g cols hnul, BootLine.options_testCmd, BootLine.mode]
  cases l.lastTest with
  | none => rfl
  | some cmd => simp [List.rdropWhile_eq_nil_iff]

/-- **The command arrives.**  `boot.sh` accepts the arguments of its command lines and no others; and
whatever the width of the lines that `base64` writes and whatever the files of the guest, QEMU boots a
guest whose `init` runs the command of the last `--test` without the ends of lines at its end, and
without a command is interactive, unless the command is too long for the command line of the kernel
or an extra argument of QEMU changes what is booted. -/
theorem guestMode_boot (g : Glob) (cols : ℕ) (host : HostConfig)
    (qemu : List (List Byte) → Option Machine) :
    (∀ args o, bootArgs args = .ok o ↔ ∃ l : BootLine, l.args = args ∧ l.options = o) ∧
    ∀ l : BootLine, Boots qemu host cols l.options →
      (∀ cmd, l.lastTest = some cmd → cmd.text.length ≤ maxCommand) →
      ∃ m, qemu (qemuArgs host cols l.options) = some m ∧ guestMode g (procCmdline m.append) = l.mode := by
  refine ⟨fun args o => bootArgs_eq_ok_iff, fun l hboots hshort => ?_⟩
  refine ⟨_, hboots.extra.trans hboots.own, ?_⟩
  exact guestMode_kcmd g cols hshort

/-- `boot.sh --gdb --test "/mnt/lkmpg/devtools/guest-test.sh" -- -name lkmpg` -/
def guestTestLine : BootLine where
  items := [.gdb, .test ⟨bytes "/mnt/lkmpg/devtools/guest-test.sh", by decide⟩]
  extra := some [⟨bytes "-name", by decide⟩, ⟨bytes "lkmpg", by decide⟩]
  nonempty := by decide

/-- A host without KVM. -/
def plainHost : HostConfig :=
  ⟨bytes "bzImage", bytes "initramfs.cpio.gz", bytes "512M", bytes "2", bytes "/lkmpg", bytes "1234",
    false⟩

/-- Arguments read as QEMU reads those of `guestTestLine`: the last value of an option counts. -/
def readArgs : List (List Byte) → Machine → Option Machine
  | [], m => some m
  | [opt], m => if opt ∈ [bytes "-nographic", bytes "-no-reboot", bytes "-S"] then some m else none
  | opt :: value :: args, m =>
      if opt ∈ [bytes "-nographic", bytes "-no-reboot", bytes "-S"] then readArgs (value :: args) m
      else if opt = bytes "-kernel" then readArgs args { m with kernel := value }
      else if opt = bytes "-initrd" then readArgs args { m with initrd := value }
      else if opt = bytes "-append" then readArgs args { m with append := value }
      else if opt ∈ [bytes "-m", bytes "-smp", bytes "-virtfs", bytes "-gdb", bytes "-name"] then
        readArgs args m
      else none

theorem guestMode_boot_guestTest :
    ∃ m, readArgs (qemuArgs plainHost 76 guestTestLine.options) ⟨[], [], []⟩ = some m ∧
      guestMode .none (procCmdline m.append) =
        .test (bytes "/mnt/lkmpg/devtools/guest-test.sh") := by
  have hboots : Boots (fun args => readArgs args ⟨[], [], []⟩) plainHost 76 guestTestLine.options :=
    ⟨by decide +kernel, by decide +kernel⟩
  have hshort : ∀ cmd, guestTestLine.lastTest = some cmd → cmd.text.length ≤ maxCommand := by
    intro cmd hcmd
    obtain rfl := Option.some.inj hcmd
    decide
  have hmode : guestTestLine.mode = .test (bytes "/mnt/lkmpg/devtools/guest-test.sh") := by decide
  rw [← hmode]
  exact (guestMode_boot .none 76 plainHost fun args => readArgs args ⟨[], [], []⟩).2 guestTestLine
    hboots hshort

end Lkmpg.Devtools
