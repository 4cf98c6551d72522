import Lkmpg.Lib.KernelTypes
import Lkmpg.Lib.LinearMem
import Mathlib.Data.List.TakeWhile
import Mathlib.Data.Nat.Digits.Lemmas

/-!
# C strings and number parsing

Memory read through a `char *` is a `List Byte`; past its end the list reads as NUL, so a list
without a NUL is a string with its terminator left implicit.  `strlen` and `strncmp` are the kernel
loops, `kstrtol` is base-10 parsing with one optional sign, at least one digit and one optional
newline at the end, and `decimal` is the `%d` conversion of `sprintf`.
-/

namespace CString

/-- A string constant of the source. -/
def bytes (s : String) : List Byte := s.toList.map fun c => BitVec.ofNat 8 c.toNat

def strlen (s : List Byte) : ℕ := (s.takeWhile (· ≠ 0)).length

/-- The characters before the terminator. -/
def content (s : List Byte) : List Byte := s.takeWhile (· ≠ 0)

theorem content_append_nul (s rest : List Byte) : content (s ++ 0 :: rest) = content s := by
  induction s with
  | nil => rfl
  | cons c s ih =>
      rw [List.cons_append, content, content, List.takeWhile_cons, List.takeWhile_cons]
      exact if_congr Iff.rfl (congrArg (c :: ·) ih) rfl

theorem content_ne_zero {s : List Byte} : ∀ c ∈ content s, c ≠ 0 := by
  intro c hc
  simpa using List.mem_takeWhile_imp hc

/-- `strncmp(s, t, n)`: stops at the first difference and at a common terminator. -/
def strncmp : List Byte → List Byte → ℕ → ℤ
  | _, _, 0 => 0
  | s, t, n + 1 =>
      if s.headD 0 ≠ t.headD 0 then (if s.headD 0 < t.headD 0 then -1 else 1)
      else if s.headD 0 = 0 then 0
      else strncmp s.tail t.tail n

/-- **Prefix test.**  With the length of the second string as its bound, `strncmp` asks whether the
first string begins with the second. -/
theorem strncmp_strlen_eq_zero_iff (s t : List Byte) :
    strncmp s t (strlen t) = 0 ↔ content t <+: content s := by
  rw [strlen]
  induction t generalizing s with
  | nil => exact iff_of_true rfl List.nil_prefix
  | cons c t ih =>
      by_cases hc : c = 0
      · subst hc
        exact iff_of_true rfl List.nil_prefix
      · have hcontent : content (c :: t) = c :: content t :=
          List.takeWhile_cons_of_pos (by simpa using hc)
        show strncmp s (c :: t) (content (c :: t)).length = 0 ↔ _
        rw [hcontent, List.length_cons, strncmp, List.headD_cons, List.tail_cons]
        by_cases hhead : s.headD 0 = c
        · -- the first characters agree, so the string is not at its end
          obtain ⟨s', rfl⟩ : ∃ s', s = c :: s' := by
            cases s with
            | nil => exact absurd hhead.symm hc
            | cons b s' => exact ⟨s', congrArg (· :: s') hhead⟩
          have hcontent' : content (c :: s') = c :: content s' :=
            List.takeWhile_cons_of_pos (by simpa using hc)
          rw [if_neg (not_not.mpr hhead), if_neg (by rw [hhead]; exact hc), List.tail_cons, hcontent',
            List.cons_prefix_cons, and_iff_right rfl]
          exact ih s'
        · rw [if_pos hhead]
          refine iff_of_false (by split <;> decide) fun hprefix => ?_
          cases s with
          | nil => exact absurd (List.prefix_nil.mp hprefix) nofun
          | cons b s' =>
              by_cases hb : b = 0
              · subst hb
                exact absurd (List.prefix_nil.mp hprefix) nofun
              · rw [show content (b :: s') = b :: content s' from
                  List.takeWhile_cons_of_pos (by simpa using hb), List.cons_prefix_cons] at hprefix
                exact hhead hprefix.1.symm

def digit? (c : Byte) : Option ℕ :=
  if 0x30 ≤ c.toNat ∧ c.toNat ≤ 0x39 then some (c.toNat - 0x30) else none

/-- `_parse_integer` in base 10: the value of the longest run of digits, their number and the rest
of the string. -/
def parseInteger : List Byte → ℕ → ℕ → ℕ × ℕ × List Byte
  | [], acc, rv => (acc, rv, [])
  | c :: s, acc, rv =>
      match digit? c with
      | some d => parseInteger s (acc * 10 + d) (rv + 1)
      | none => (acc, rv, c :: s)

/-- `_kstrtoull(s, 10, res)` -/
def kstrtoullDigits (s : List Byte) : Except Errno ℕ :=
  let (res, rv, rest) := parseInteger s 0 0
  if 2 ^ 64 ≤ res then .error .ERANGE
  else if rv = 0 then .error .EINVAL
  else
    let rest := if rest.headD 0 = 0x0a then rest.tail else rest
    if rest.headD 0 ≠ 0 then .error .EINVAL else .ok res

/-- `kstrtol(s, 10, res)` with a 64-bit `long`. -/
def kstrtol (s : List Byte) : Except Errno ℤ :=
  if s.headD 0 = 0x2d then
    match kstrtoullDigits s.tail with
    | .error e => .error e
    | .ok n => if 2 ^ 63 < n then .error .ERANGE else .ok (-(n : ℤ))
  else
    match kstrtoullDigits (if s.headD 0 = 0x2b then s.tail else s) with
    | .error e => .error e
    | .ok n => if 2 ^ 63 ≤ n then .error .ERANGE else .ok n

/-! ### The `%d` conversion -/

/-- A digit as a character -/
def digitChar (d : ℕ) : Byte := BitVec.ofNat 8 (0x30 + d)

def decimalNat (n : ℕ) : List Byte :=
  if n = 0 then [digitChar 0] else (Nat.digits 10 n).reverse.map digitChar

/-- `%+d` -/
def decimalSigned (n : ℤ) : List Byte :=
  if n < 0 then 0x2d :: decimalNat n.natAbs else 0x2b :: decimalNat n.toNat

/-- `snprintf(buf, size, ...)` of a text: the memory after it, and what it returns. -/
def snprintf (buf : ℕ → Byte) (size : ℕ) (text : List Byte) : (ℕ → Byte) × ℕ :=
  (if size = 0 then buf else LinearMem.write buf 0 (text.take (size - 1) ++ [0]), text.length)

/-- `%d` -/
def decimal (n : ℤ) : List Byte := if n < 0 then 0x2d :: decimalNat n.natAbs else decimalNat n.toNat

theorem digitChar_ne_zero {d : ℕ} (h : d < 10) : digitChar d ≠ 0 := by
  intro hzero
  have hnat : (0x30 + d) % 2 ^ 8 = 0 := congrArg BitVec.toNat hzero
  omega

theorem decimalNat_ne_zero {n : ℕ} {c : Byte} (h : c ∈ decimalNat n) : c ≠ 0 := by
  rw [decimalNat] at h
  split at h
  · rw [List.mem_singleton.mp h]
    exact digitChar_ne_zero (by omega)
  · obtain ⟨d, hd, rfl⟩ := List.mem_map.mp h
    exact digitChar_ne_zero (Nat.digits_lt_base (by omega) (List.mem_reverse.mp hd))

theorem length_decimalNat_le {n k : ℕ} (hk : 0 < k) (h : n < 10 ^ k) :
    (decimalNat n).length ≤ k := by
  rw [decimalNat]
  split
  · exact hk
  · rw [List.length_map, List.length_reverse, Nat.digits_length_le_iff (by omega)]
    exact h

theorem decimal_natCast (n : ℕ) : decimal n = decimalNat n := by
  rw [decimal, if_neg (by omega), Int.toNat_natCast]

/-- With room for the text and its terminator, the text is what is in the buffer. -/
theorem read_snprintf (buf : ℕ → Byte) {size : ℕ} {text : List Byte}
    (h : (snprintf buf size text).2 < size) :
    LinearMem.read (snprintf buf size text).1 0 (snprintf buf size text).2 = text := by
  replace h : text.length < size := h
  have htake : text.take (size - 1) = text := List.take_of_length_le (by omega)
  show LinearMem.read (if size = 0 then buf else
    LinearMem.write buf 0 (text.take (size - 1) ++ [0])) 0 text.length = text
  rw [if_neg (by omega), htake, LinearMem.write_append]
  refine (LinearMem.read_congr fun i _ hi => ?_).trans (LinearMem.read_write buf 0 text)
  exact LinearMem.write_of_lt _ _ hi

/-! ### Parsing what has been printed -/

section Parse

variable {n d : ℕ} {rest : List Byte}

theorem toNat_digitChar (h : d < 10) : (digitChar d).toNat = 0x30 + d := by
  rw [digitChar, BitVec.toNat_ofNat]
  omega

theorem digit?_digitChar (h : d < 10) : digit? (digitChar d) = some d := by
  rw [digit?, toNat_digitChar h, if_pos (by omega)]
  exact congrArg some (by omega)

/-- Digits, the least significant one first, are read back to front. -/
theorem parseInteger_digits {ds : List ℕ} (hds : ∀ d ∈ ds, d < 10) (acc rv : ℕ) :
    parseInteger (ds.reverse.map digitChar ++ rest) acc rv =
      parseInteger rest (acc * 10 ^ ds.length + Nat.ofDigits 10 ds) (rv + ds.length) := by
  induction ds generalizing rest with
  | nil => simp
  | cons d ds ih =>
      have hd : d < 10 := hds d List.mem_cons_self
      rw [List.reverse_cons, List.map_append, List.append_assoc,
        ih fun d' hd' => hds d' (List.mem_cons_of_mem _ hd')]
      show parseInteger (digitChar d :: rest) _ _ = _
      rw [parseInteger, digit?_digitChar hd]
      show parseInteger rest _ _ = _
      rw [Nat.ofDigits_cons, List.length_cons, Nat.pow_succ]
      congr 1
      ring

/-- **Digits.**  A printed number is read back up to the first character that is no digit. -/
theorem parseInteger_decimalNat (hrest : ∀ c ∈ rest.head?, digit? c = none) :
    ∃ rv, rv ≠ 0 ∧ parseInteger (decimalNat n ++ rest) 0 0 = (n, rv, rest) := by
  have hstop : ∀ acc rv, parseInteger rest acc rv = (acc, rv, rest) := by
    intro acc rv
    cases rest with
    | nil => rfl
    | cons c rest => rw [parseInteger, hrest c rfl]
  rw [decimalNat]
  split
  · rename_i hzero
    refine ⟨1, by omega, ?_⟩
    show parseInteger (digitChar 0 :: rest) 0 0 = _
    rw [parseInteger, digit?_digitChar (by omega), hzero]
    exact hstop 0 1
  · rename_i hne
    have hlt : ∀ d ∈ Nat.digits 10 n, d < 10 := fun d hd => Nat.digits_lt_base (by omega) hd
    refine ⟨(Nat.digits 10 n).length, ?_, ?_⟩
    · rw [Ne, List.length_eq_zero_iff]
      exact Nat.digits_ne_nil_iff_ne_zero.mpr hne
    · rw [parseInteger_digits hlt, hstop, Nat.ofDigits_digits, Nat.zero_mul, Nat.zero_add,
        Nat.zero_add]

/-- A printed number, a newline and a terminator. -/
theorem kstrtoullDigits_decimalNat (h : n < 2 ^ 64) (hrest : rest.headD 0 = 0) :
    kstrtoullDigits (decimalNat n ++ 0x0a :: rest) = .ok n := by
  obtain ⟨rv, hrv, hparse⟩ : ∃ rv, rv ≠ 0 ∧
      parseInteger (decimalNat n ++ 0x0a :: rest) 0 0 = (n, rv, 0x0a :: rest) := by
    refine parseInteger_decimalNat fun c hc => ?_
    obtain rfl := Option.some.inj hc
    rfl
  have hnewline : (if (0x0a :: rest).headD (0 : Byte) = 0x0a then (0x0a :: rest).tail
      else 0x0a :: rest) = rest := if_pos rfl
  rw [kstrtoullDigits, hparse]
  simp only [hnewline, if_neg hrv, if_neg (Nat.not_le.mpr h), if_neg (not_not.mpr hrest)]

/-- The first character of a printed number is a digit. -/
theorem digit_head_decimalNat (n : ℕ) :
    ∃ d s, d < 10 ∧ decimalNat n = digitChar d :: s := by
  rw [decimalNat]
  split
  · exact ⟨0, [], by omega, rfl⟩
  · rename_i hne
    have hnil : (Nat.digits 10 n).reverse ≠ [] := by
      rw [Ne, List.reverse_eq_nil_iff]
      exact Nat.digits_ne_nil_iff_ne_zero.mpr hne
    obtain ⟨d, ds, hds⟩ := List.exists_cons_of_ne_nil hnil
    have hmem : d ∈ Nat.digits 10 n := by
      rw [← List.mem_reverse, hds]
      exact List.mem_cons_self
    exact ⟨d, ds.map digitChar, Nat.digits_lt_base (by omega) hmem, by rw [hds]; rfl⟩

/-- `kstrtol` without a sign. -/
theorem kstrtol_decimalNat (h : n < 2 ^ 63) (hrest : rest.headD 0 = 0) :
    kstrtol (decimalNat n ++ 0x0a :: rest) = .ok n := by
  obtain ⟨d, s, hd, hhead⟩ := digit_head_decimalNat n
  have hchar := toNat_digitChar hd
  have hminus : (decimalNat n ++ 0x0a :: rest).headD 0 ≠ 0x2d := by
    rw [hhead]
    intro hsame
    have hnat : (digitChar d).toNat = 0x2d := congrArg BitVec.toNat hsame
    omega
  have hplus : (decimalNat n ++ 0x0a :: rest).headD 0 ≠ 0x2b := by
    rw [hhead]
    intro hsame
    have hnat : (digitChar d).toNat = 0x2b := congrArg BitVec.toNat hsame
    omega
  rw [kstrtol, if_neg hminus, if_neg hplus, kstrtoullDigits_decimalNat (by omega) hrest]
  exact if_neg (by omega)

/-- `kstrtol` of a negative number. -/
theorem kstrtol_minus_decimalNat (h : n ≤ 2 ^ 63) (hrest : rest.headD 0 = 0) :
    kstrtol (0x2d :: (decimalNat n ++ 0x0a :: rest)) = .ok (-(n : ℤ)) := by
  rw [kstrtol, List.headD_cons, if_pos rfl, List.tail_cons,
    kstrtoullDigits_decimalNat (by omega) hrest]
  exact if_neg (by omega)

end Parse

end CString
