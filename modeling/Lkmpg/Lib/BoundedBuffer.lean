import Lkmpg.Lib.CString

/-!
# Accesses to a buffer of a fixed size

The copies of `LinearMem` and the string functions of `CString` reach as far as they are told to.
Here they are done on a buffer of `size` cells, and `none` is an access outside of it: a copy past
the end, or a string function that runs into the end without having found a NUL.  A copy of nothing
accesses nothing.

An access that stays inside does what the one without bounds does (`loadIn_of_le`, `storeIn_of_le`,
`snprintfIn_of_lt`), and number parsing stays inside as soon as there is a NUL (`kstrtolIn_of_nul`).
-/

namespace BoundedBuffer

open LinearMem CString

variable {size off n : ℕ} {m : ℕ → Byte} {bs s text : List Byte}

/-! ### Copies -/

def loadIn (size : ℕ) (m : ℕ → Byte) (off n : ℕ) : Option (List Byte) :=
  if n = 0 ∨ off + n ≤ size then some (read m off n) else none

def storeIn (size : ℕ) (m : ℕ → Byte) (off : ℕ) (bs : List Byte) : Option (ℕ → Byte) :=
  if bs = [] ∨ off + bs.length ≤ size then some (write m off bs) else none

def snprintfIn (size : ℕ) (m : ℕ → Byte) (n : ℕ) (text : List Byte) : Option ((ℕ → Byte) × ℕ) :=
  (storeIn size m 0 (if n = 0 then [] else text.take (n - 1) ++ [0])).map fun m' => (m', text.length)

theorem loadIn_of_le (h : n = 0 ∨ off + n ≤ size) : loadIn size m off n = some (read m off n) :=
  if_pos h

theorem storeIn_of_le (h : off + bs.length ≤ size) :
    storeIn size m off bs = some (write m off bs) :=
  if_pos (Or.inr h)

/-- A list that is copied to the front of a buffer of one value leaves that value behind it. -/
theorem read_write_replicate (m : ℕ → Byte) (c : Byte) (h : bs.length ≤ size) :
    read (write (write m 0 (List.replicate size c)) 0 bs) 0 size =
      bs ++ List.replicate (size - bs.length) c := by
  have hsplit : size = bs.length + (size - bs.length) := by omega
  have hrest : read (write (write m 0 (List.replicate size c)) 0 bs) (0 + bs.length)
      (size - bs.length) = List.replicate (size - bs.length) c := by
    rw [List.eq_replicate_iff]
    refine ⟨length_read _ _ _, fun b hb => ?_⟩
    obtain ⟨i, hi, rfl⟩ := List.mem_map.mp hb
    have hlt : i < size - bs.length := List.mem_range.mp hi
    rw [write_of_ge _ _ (by omega), write_replicate, if_pos (by omega)]
  conv_lhs => rw [hsplit, read_add, ← hsplit, read_write, hrest]

/-- The text and its terminator are all that is stored, whatever size is passed. -/
theorem snprintfIn_of_lt (h : text.length < size) :
    snprintfIn size m n text = some (snprintf m n text) := by
  rw [snprintfIn, snprintf]
  by_cases hn : n = 0
  · rw [if_pos hn, if_pos hn, storeIn, if_pos (Or.inl rfl), write_nil]
    rfl
  · have hlen : (text.take (n - 1) ++ [0]).length ≤ size := by
      rw [List.length_append, List.length_take, List.length_singleton]
      omega
    rw [if_neg hn, if_neg hn, storeIn_of_le (by rwa [Nat.zero_add])]
    rfl

/-! ### Strings

The list is what is left of the buffer. -/

/-- `_parse_integer` in base 10 -/
def parseIntegerIn : List Byte → ℕ → ℕ → Option (ℕ × ℕ × List Byte)
  | [], _, _ => none
  | c :: s, acc, rv =>
      match digit? c with
      | some d => parseIntegerIn s (acc * 10 + d) (rv + 1)
      | none => some (acc, rv, c :: s)

/-- `_kstrtoull` after `_parse_integer` -/
def finishIn (res rv : ℕ) (rest : List Byte) : Option (Except Errno ℕ) :=
  if 2 ^ 64 ≤ res then some (.error .ERANGE)
  else if rv = 0 then some (.error .EINVAL)
  else
    rest.head?.bind fun c =>
      (if c = 0x0a then rest.tail else rest).head?.map fun c' =>
        if c' ≠ 0 then .error .EINVAL else .ok res

/-- `_kstrtoull(s, 10, res)` -/
def kstrtoullIn (s : List Byte) : Option (Except Errno ℕ) :=
  (parseIntegerIn s 0 0).bind fun (res, rv, rest) => finishIn res rv rest

/-- `kstrtol(s, 10, res)` with a 64-bit `long`. -/
def kstrtolIn (s : List Byte) : Option (Except Errno ℤ) :=
  s.head?.bind fun c =>
    if c = 0x2d then
      (kstrtoullIn s.tail).map fun
        | .error e => .error e
        | .ok n => if 2 ^ 63 < n then .error .ERANGE else .ok (-(n : ℤ))
    else
      (kstrtoullIn (if c = 0x2b then s.tail else s)).map fun
        | .error e => .error e
        | .ok n => if 2 ^ 63 ≤ n then .error .ERANGE else .ok n

/-- What follows a character that is no NUL still has the NUL. -/
theorem nul_mem_tail {c : Byte} (h : 0 ∈ c :: s) (hc : c ≠ 0) : 0 ∈ s := by
  rcases List.mem_cons.mp h with hzero | hmem
  · exact absurd hzero.symm hc
  · exact hmem

theorem digit?_nul : digit? 0 = none := by decide

/-- Parsing stops at the first NUL at the latest, and leaves it there. -/
theorem parseIntegerIn_of_nul (h : 0 ∈ s) (acc rv : ℕ) :
    parseIntegerIn s acc rv = some (parseInteger s acc rv) ∧ 0 ∈ (parseInteger s acc rv).2.2 := by
  induction s generalizing acc rv with
  | nil => cases h
  | cons c s ih =>
      rw [parseIntegerIn, parseInteger]
      cases hdigit : digit? c with
      | none => exact ⟨rfl, h⟩
      | some d =>
          have hc : c ≠ 0 := by
            rintro rfl
            rw [digit?_nul] at hdigit
            cases hdigit
          exact ih (nul_mem_tail h hc) (acc * 10 + d) (rv + 1)

theorem head?_of_nul (h : 0 ∈ s) : s.head? = some (s.headD 0) := by
  cases s with
  | nil => cases h
  | cons c s => rfl

/-- Skipping a character that is no NUL. -/
theorem nul_mem_skip {c : Byte} (h : 0 ∈ s) (hc : c ≠ 0) :
    0 ∈ if s.headD 0 = c then s.tail else s := by
  split
  · rename_i hhead
    cases s with
    | nil => cases h
    | cons b s =>
        refine nul_mem_tail h fun hb => hc ?_
        rw [← hhead, ← hb]
        rfl
  · exact h

theorem kstrtoullIn_of_nul (h : 0 ∈ s) : kstrtoullIn s = some (kstrtoullDigits s) := by
  obtain ⟨hparse, hnul⟩ := parseIntegerIn_of_nul h 0 0
  rw [kstrtoullIn, hparse, kstrtoullDigits, Option.bind_some]
  obtain ⟨⟨res, rv, rest⟩, hparsed⟩ : ∃ parsed, parseInteger s 0 0 = parsed := ⟨_, rfl⟩
  rw [hparsed] at hnul ⊢
  replace hnul : 0 ∈ rest := hnul
  have hskip := nul_mem_skip hnul (c := 0x0a) (by decide)
  show finishIn res rv rest = _
  rw [finishIn, head?_of_nul hnul, Option.bind_some, head?_of_nul hskip]
  show (if _ then _ else if _ then _ else _) = some (if _ then _ else if _ then _ else _)
  split
  · rfl
  · split
    · rfl
    · rfl

/-- **Parsing.**  `kstrtol` of a string that ends inside the buffer reads nothing behind it. -/
theorem kstrtolIn_of_nul (h : 0 ∈ s) : kstrtolIn s = some (kstrtol s) := by
  rw [kstrtolIn, kstrtol, head?_of_nul h, Option.bind_some]
  by_cases hminus : s.headD 0 = 0x2d
  · have htail := nul_mem_skip h (c := 0x2d) (by decide)
    rw [if_pos hminus] at htail
    rw [if_pos hminus, if_pos hminus, kstrtoullIn_of_nul htail]
    rfl
  · have hplus := nul_mem_skip h (c := 0x2b) (by decide)
    rw [if_neg hminus, if_neg hminus, kstrtoullIn_of_nul hplus]
    rfl

end BoundedBuffer
