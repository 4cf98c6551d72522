import Lkmpg.Lib.DecimalText
import Lkmpg.Lib.Transition

/-!
# The attribute of `hello-sysfs.c`

`myvariable_show` prints the variable into the page of the file that is read, when it is read for the
first time, and `myvariable_store` scans a text for a number.  `sscanf` takes what the text starts with,
keeps 32 bits of it, and leaves the variable alone if there is no number; the writer is told the same
in each case.

Any number of files are open, and are read in pieces while others write.
-/

namespace Lkmpg.Sysfs

open CString Transition

/-! ### `%d` -/

/-- `isspace` of the kernel -/
def isspace (c : Byte) : Bool := (9 ≤ c.toNat && c.toNat ≤ 13) || c == 0x20 || c == 0xa0

/-- `simple_strntoll` in base 10: the digits are added up in 64 bits. -/
def simpleStrtoll (str : List Byte) : BitVec 64 :=
  if str.headD 0 = 0x2d then -BitVec.ofNat 64 (parseInteger str.tail 0 0).1
  else BitVec.ofNat 64 (parseInteger str 0 0).1

/-- `sscanf(buf, "%d", &n)`: what it stores into `n`, if it does. -/
def sscanf (buf : List Byte) : Option (BitVec 32) :=
  let str := buf.dropWhile isspace
  let digit := if str.headD 0 = 0x2d then str.tail.headD 0 else str.headD 0
  if isDigit digit then some ((simpleStrtoll str).setWidth 32) else none

/-- What `buf` holds. -/
def myvariableShow (myvariable : BitVec 32) : List Byte := decimal myvariable.toInt ++ [0x0a]

/-- The variable after a write, and what the write returns. -/
def myvariableStore (myvariable : BitVec 32) (buf : List Byte) : BitVec 32 × ℕ :=
  ((sscanf buf).getD myvariable, buf.length)

/-- The text starts with the number, after spaces. -/
inductive Starts : List Byte → ℤ → Prop where
  | space {c : Byte} {t : List Byte} {n : ℤ} (hc : isspace c = true) (h : Starts t n) :
      Starts (c :: t) n
  | number {t : List Byte} (h : isDigit (t.headD 0) = true) :
      Starts t (digitsValue 0 (t.takeWhile isDigit))
  | minus {t : List Byte} (h : isDigit (t.headD 0) = true) :
      Starts (0x2d :: t) (-digitsValue 0 (t.takeWhile isDigit))

section Scan

variable {c : Byte} {t : List Byte} {n : ℤ}

theorem isspace_of_isDigit (h : isDigit c = true) : isspace c = false ∧ c ≠ 0x2d := by
  revert h
  revert c
  decide

theorem sscanf_space (hc : isspace c = true) : sscanf (c :: t) = sscanf t := by
  simp only [sscanf, List.dropWhile_cons_of_pos hc]

/-- A text that does not start with a space or a sign. -/
theorem sscanf_bare (hspace : isspace (t.headD 0) = false) (hminus : t.headD 0 ≠ 0x2d) :
    sscanf t = if isDigit (t.headD 0) then
      some (BitVec.ofInt 32 (digitsValue 0 (t.takeWhile isDigit))) else none := by
  have hdrop : t.dropWhile isspace = t := by
    cases t with
    | nil => rfl
    | cons c t => exact List.dropWhile_cons_of_neg (by simpa using hspace)
  have hwidth : ∀ m : ℕ, (BitVec.ofNat 64 m).setWidth 32 = BitVec.ofInt 32 m := by
    intro m
    rw [BitVec.ofInt_natCast, BitVec.setWidth_ofNat_of_le (by decide)]
  simp only [sscanf, hdrop, simpleStrtoll, if_neg hminus, parseInteger_eq, hwidth]

theorem sscanf_minus : sscanf (0x2d :: t) = if isDigit (t.headD 0) then
    some (BitVec.ofInt 32 (-digitsValue 0 (t.takeWhile isDigit))) else none := by
  have hdrop : (0x2d :: t).dropWhile isspace = 0x2d :: t :=
    List.dropWhile_cons_of_neg (by decide)
  have hwidth : ∀ m : ℕ, (-BitVec.ofNat 64 m).setWidth 32 = BitVec.ofInt 32 (-m) := by
    intro m
    rw [BitVec.setWidth_neg_of_le (by decide), BitVec.setWidth_ofNat_of_le (by decide)]
    exact BitVec.neg_ofNat_eq_ofInt_neg
  simp only [sscanf, hdrop, simpleStrtoll, List.headD_cons, List.tail_cons, if_true, parseInteger_eq,
    hwidth]

/-- A number at the start is what is stored, but for the bits above the low 32. -/
theorem Starts.sscanf (h : Starts t n) : sscanf t = some (BitVec.ofInt 32 n) := by
  induction h with
  | space hc _ ih => rw [sscanf_space hc, ih]
  | number h =>
      obtain ⟨hspace, hminus⟩ := isspace_of_isDigit h
      rw [sscanf_bare hspace hminus, if_pos h]
  | minus h => rw [sscanf_minus, if_pos h]

/-- And nothing else is stored. -/
theorem exists_starts {v : BitVec 32} (h : Sysfs.sscanf t = some v) :
    ∃ n, Starts t n ∧ v = BitVec.ofInt 32 n := by
  induction t with
  | nil => simp [Sysfs.sscanf, isDigit, digit?] at h
  | cons c t ih =>
      by_cases hspace : isspace c = true
      · rw [sscanf_space hspace] at h
        obtain ⟨n, hn, hv⟩ := ih h
        exact ⟨n, .space hspace hn, hv⟩
      · by_cases hminus : c = 0x2d
        · rw [hminus, sscanf_minus] at h
          split at h
          · rename_i hdigit
            exact ⟨_, hminus ▸ .minus hdigit, (Option.some.inj h).symm⟩
          · cases h
        · rw [sscanf_bare (t := c :: t) (by simpa using hspace) hminus] at h
          split at h
          · rename_i hdigit
            exact ⟨_, .number hdigit, (Option.some.inj h).symm⟩
          · cases h

/-- A printed number in front of a character that is none. -/
theorem digitsValue_decimalNat (m : ℕ) :
    isDigit ((decimalNat m ++ [0x0a]).headD 0) = true ∧
      digitsValue 0 ((decimalNat m ++ [0x0a]).takeWhile isDigit) = m := by
  constructor
  · obtain ⟨d, s, hd, hhead⟩ := digit_head_decimalNat m
    rw [hhead, List.cons_append, List.headD_cons, isDigit, digit?_digitChar hd]
    rfl
  · obtain ⟨rv, -, hparse⟩ : ∃ rv, rv ≠ 0 ∧
        parseInteger (decimalNat m ++ [0x0a]) 0 0 = (m, rv, [0x0a]) :=
      parseInteger_decimalNat (by decide)
    rw [parseInteger_eq] at hparse
    exact (Prod.mk.inj hparse).1

/-- **Round trip.**  What is shown starts with the variable. -/
theorem starts_myvariableShow (v : BitVec 32) : Starts (myvariableShow v) v.toInt := by
  rw [myvariableShow, decimal]
  split
  · rename_i hneg
    obtain ⟨hdigit, hvalue⟩ := digitsValue_decimalNat v.toInt.natAbs
    have hminus := Starts.minus hdigit
    rw [hvalue, show -(v.toInt.natAbs : ℤ) = v.toInt by omega] at hminus
    exact hminus
  · rename_i hpos
    obtain ⟨hdigit, hvalue⟩ := digitsValue_decimalNat v.toInt.toNat
    have hnumber := Starts.number hdigit
    rw [hvalue, show (v.toInt.toNat : ℤ) = v.toInt by omega] at hnumber
    exact hnumber

theorem myvariableStore_show (v w : BitVec 32) :
    (myvariableStore w (myvariableShow v)).1 = v := by
  rw [myvariableStore, (starts_myvariableShow v).sscanf, BitVec.ofInt_toInt]
  rfl

end Scan

/-! ### Files -/

variable {φ : Type}

/-- An open file: what is left of its page from the first read on, and what it has delivered. -/
structure File where
  page : Option (List Byte)
  got : List Byte

def File.opened : File := ⟨none, []⟩

structure State (φ : Type) where
  myvariable : BitVec 32
  files : φ → File

def State.init : State φ := ⟨0, fun _ => File.opened⟩

inductive Act (φ : Type) where
  | reopen (f : φ)
  | read (f : φ) (size : ℕ)
  | write (buf : List Byte)

/-- A read with the variable: the page is printed by the first one. -/
def File.read (file : File) (myvariable : BitVec 32) (size : ℕ) : File :=
  if size = 0 then file
  else
    let page := file.page.getD (myvariableShow myvariable)
    ⟨some (page.drop size), file.got ++ page.take size⟩

variable [DecidableEq φ]

def attrStep (s : State φ) : Act φ → Option (State φ)
  | .reopen f => some { s with files := Function.update s.files f File.opened }
  | .read f size =>
      some { s with files := Function.update s.files f ((s.files f).read s.myvariable size) }
  | .write buf => some { s with myvariable := (myvariableStore s.myvariable buf).1 }

/-- The texts that have been written. -/
def written : List (Act φ) → List (List Byte)
  | [] => []
  | .write buf :: acts => buf :: written acts
  | _ :: acts => written acts

/-- The number of the last text that starts with one. -/
inductive Names : List (List Byte) → ℤ → Prop where
  | start : Names [] 0
  | number {texts : List (List Byte)} {text : List Byte} {n : ℤ} (h : Starts text n) :
      Names (texts ++ [text]) n
  | other {texts : List (List Byte)} {text : List Byte} {n : ℤ} (h : Names texts n)
      (hnone : ∀ m, ¬Starts text m) : Names (texts ++ [text]) n

omit [DecidableEq φ] in
theorem written_append (acts acts' : List (Act φ)) :
    written (acts ++ acts') = written acts ++ written acts' := by
  induction acts with
  | nil => rfl
  | cons act acts ih => cases act <;> simp [written, ih]

/-- **Run.**  The variable is the number of the last text that has one. -/
theorem names_run {acts : List (Act φ)} {s : State φ} (hrun : run attrStep State.init acts = some s) :
    ∃ n, Names (written acts) n ∧ s.myvariable = BitVec.ofInt 32 n := by
  induction acts using List.reverseRecOn generalizing s with
  | nil =>
      obtain rfl := Option.some.inj hrun
      exact ⟨0, .start, rfl⟩
  | append_singleton acts act ih =>
      rw [run_append] at hrun
      obtain ⟨u, hu, hlast⟩ := Option.bind_eq_some_iff.mp hrun
      obtain ⟨v, hv, hend⟩ := run_cons_eq_some.mp hlast
      obtain rfl := Option.some.inj hend
      obtain ⟨n, hn, hvalue⟩ := ih hu
      rw [written_append]
      cases act with
      | reopen f =>
          obtain rfl := Option.some.inj hv
          exact ⟨n, by simpa [written] using hn, hvalue⟩
      | read f size =>
          obtain rfl := Option.some.inj hv
          exact ⟨n, by simpa [written] using hn, hvalue⟩
      | write buf =>
          obtain rfl := Option.some.inj hv
          cases hscan : Sysfs.sscanf buf with
          | some w =>
              obtain ⟨m, hm, rfl⟩ := exists_starts hscan
              exact ⟨m, .number hm, by simp [myvariableStore, hscan]⟩
          | none =>
              refine ⟨n, .other hn fun m hm => ?_, by simpa [myvariableStore, hscan] using hvalue⟩
              rw [hm.sscanf] at hscan
              cases hscan

/-- The file delivers the text piece by piece. -/
def File.Delivers (file : File) (text : List Byte) : Prop :=
  ∃ rest, file.page = some rest ∧ file.got ++ rest = text

theorem File.delivers_first {size : ℕ} (hsize : size ≠ 0) (v : BitVec 32) :
    (File.opened.read v size).Delivers (myvariableShow v) := by
  simp [File.read, File.opened, File.Delivers, hsize]

theorem File.Delivers.read {file : File} {text : List Byte} (h : file.Delivers text) (v : BitVec 32)
    (size : ℕ) : (file.read v size).Delivers text := by
  obtain ⟨rest, hpage, htext⟩ := h
  rw [File.read]
  split
  · exact ⟨rest, hpage, htext⟩
  · refine ⟨rest.drop size, by simp [hpage], ?_⟩
    simp [hpage, ← htext]

/-- Whatever is written in the meantime, and read from other files. -/
theorem File.Delivers.run {acts : List (Act φ)} {s t : State φ} {f : φ} {text : List Byte}
    (h : (s.files f).Delivers text) (hopen : ∀ act ∈ acts, act ≠ .reopen f)
    (hrun : run attrStep s acts = some t) : (t.files f).Delivers text := by
  have hstep : ∀ (u : State φ) (act : Act φ) (v : State φ), (u.files f).Delivers text →
      act ≠ .reopen f → attrStep u act = some v → (v.files f).Delivers text := by
    intro u act v hu hact huv
    cases act with
    | reopen g =>
        obtain rfl := Option.some.inj huv
        have hgf : f ≠ g := fun hgf => hact (hgf ▸ rfl)
        simpa [Function.update_of_ne hgf] using hu
    | read g size =>
        obtain rfl := Option.some.inj huv
        by_cases hgf : f = g
        · subst hgf
          simpa using hu.read u.myvariable size
        · simpa [Function.update_of_ne hgf] using hu
    | write buf =>
        obtain rfl := Option.some.inj huv
        exact hu
  exact run_induction hstep h (Along.of_forall hopen) hrun

/-- **Session.**  A file delivers the number of the last text that had one when it was first read, in
decimal if it fits into an `int`, and in one piece with itself however it is read; and if it is written
back as it has been read, the variable is that number again. -/
theorem attribute_session {acts₁ acts₂ : List (Act φ)} {s t : State φ} {f : φ} {size : ℕ}
    (h₁ : run attrStep State.init acts₁ = some s) (hfile : s.files f = File.opened)
    (hsize : size ≠ 0) (hopen : ∀ act ∈ acts₂, act ≠ .reopen f)
    (h₂ : run attrStep s (.read f size :: acts₂) = some t) :
    ∃ n rest, Names (written acts₁) n ∧ (t.files f).page = some rest ∧
      (t.files f).got ++ rest = myvariableShow (BitVec.ofInt 32 n) ∧
      (-2 ^ 31 ≤ n ∧ n < 2 ^ 31 → (t.files f).got ++ rest = decimal n ++ [0x0a]) ∧
      (rest = [] → ∀ w, (myvariableStore w (t.files f).got).1 = BitVec.ofInt 32 n) := by
  obtain ⟨n, hn, hvalue⟩ := names_run h₁
  obtain ⟨u, hu, hrest⟩ := run_cons_eq_some.mp h₂
  have hfirst : (u.files f).Delivers (myvariableShow (BitVec.ofInt 32 n)) := by
    obtain rfl := Option.some.inj hu
    rw [← hvalue]
    simpa [hfile] using File.delivers_first hsize s.myvariable
  obtain ⟨rest, hpage, htext⟩ := hfirst.run hopen hrest
  refine ⟨n, rest, hn, hpage, htext, fun hrange => ?_, fun hend w => ?_⟩
  · rw [htext, myvariableShow, BitVec.toInt_ofInt_eq_self (by decide) hrange.1 hrange.2]
  · rw [hend, List.append_nil] at htext
    rw [htext, myvariableStore_show]

/-- `-7`, and a text without a number; then another number is written while the file is read byte by
byte. -/
theorem attribute_session_bytewise :
    ∃ (s t : State (Fin 2)) (n : ℤ) (rest : List Byte),
      run attrStep State.init [.write (bytes "-7 of 9"), .write (bytes "none")] = some s ∧
        run attrStep s [.read 0 1, .write (bytes "8"), .read 1 4096, .read 0 1, .read 0 1] = some t ∧
        Names [bytes "-7 of 9", bytes "none"] n ∧
        (t.files 0).got ++ rest = myvariableShow (BitVec.ofInt 32 n) := by
  obtain ⟨s, h₁⟩ : ∃ s : State (Fin 2),
      run attrStep State.init [.write (bytes "-7 of 9"), .write (bytes "none")] = some s := ⟨_, rfl⟩
  obtain ⟨t, h₂⟩ : ∃ t, run attrStep s
      [.read 0 1, .write (bytes "8"), .read 1 4096, .read 0 1, .read 0 1] = some t := ⟨_, rfl⟩
  have hfile : s.files 0 = File.opened := by
    obtain rfl := Option.some.inj h₁
    rfl
  obtain ⟨n, rest, hn, -, htext, -, -⟩ :=
    attribute_session h₁ hfile Nat.one_ne_zero (by simp) h₂
  exact ⟨s, t, n, rest, h₁, h₂, hn, htext⟩

end Lkmpg.Sysfs
