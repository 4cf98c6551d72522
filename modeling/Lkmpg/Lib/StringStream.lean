import Lkmpg.Lib.KernelTypes
import Lkmpg.Lib.LinearMem

/-!
# Strings in memory and the reads that walk them

`StringAt m text` says that a `char` array holds the C string `text`.  A device whose `read` copies
bytes from a position on, stops at the terminator and goes back to the start when it is called
there delivers a list of chunks in which the empty ones mark the ends of the rounds; `Streams` says
that each of the rounds was the whole string.
-/

namespace StringStream

/-! ### A string in memory -/

/-- The memory holds `text` and its terminator, from address 0 on. -/
structure StringAt (m : ℕ → Byte) (text : List Byte) : Prop where
  cell : ∀ n, n < text.length → text[n]? = some (m n)
  nul : m text.length = 0
  nonzero : ∀ c ∈ text, c ≠ 0

section StringAt

variable {m : ℕ → Byte} {text : List Byte} {n : ℕ}

/-- Copying a string with its terminator. -/
theorem stringAt_write (m : ℕ → Byte) (h : ∀ c ∈ text, c ≠ 0) :
    StringAt (LinearMem.write m 0 (text ++ [0])) text where
  cell n hn := by
    have hcell := LinearMem.getElem?_write m (text ++ [0]) (Nat.zero_le n)
      (by rw [List.length_append]; omega)
    rw [Nat.sub_zero, List.getElem?_append_left hn] at hcell
    exact hcell
  nul := by
    have hcell := LinearMem.getElem?_write m (text ++ [0]) (Nat.zero_le text.length)
      (by rw [List.length_append, List.length_singleton]; omega)
    rw [Nat.sub_zero, List.getElem?_append_right (Nat.le_refl _), Nat.sub_self] at hcell
    exact (Option.some.inj hcell).symm
  nonzero := h

/-- Copying a string to where a NUL follows it. -/
theorem stringAt_write_of_nul {m : ℕ → Byte} (hnul : m text.length = 0) (h : ∀ c ∈ text, c ≠ 0) :
    StringAt (LinearMem.write m 0 text) text where
  cell n hn := LinearMem.getElem?_write m text (Nat.zero_le n) (by omega)
  nul := (LinearMem.write_of_ge m text (by omega)).trans hnul
  nonzero := h

theorem StringAt.ne_zero (h : StringAt m text) (hn : n < text.length) : m n ≠ 0 :=
  h.nonzero _ (List.mem_of_getElem? (h.cell n hn))

/-- Up to the terminator, the terminator is the only NUL. -/
theorem StringAt.eq_zero_iff (h : StringAt m text) (hn : n ≤ text.length) :
    m n = 0 ↔ n = text.length := by
  refine ⟨fun hzero => ?_, fun hend => hend ▸ h.nul⟩
  by_contra hne
  exact h.ne_zero (by omega) hzero

/-- One more byte of the string is the next cell. -/
theorem StringAt.take_succ (h : StringAt m text) (hn : n < text.length) :
    text.take (n + 1) = text.take n ++ [m n] := by
  rw [List.take_add_one, h.cell n hn]
  rfl

/-- A piece of the string, and what is left of it. -/
theorem StringAt.read_append_drop (h : StringAt m text) (off n : ℕ)
    (hle : off + n ≤ text.length) :
    LinearMem.read m off n ++ text.drop (off + n) = text.drop off := by
  induction n with
  | zero => rfl
  | succ n ih =>
      have hcell : text.drop (off + n) = m (off + n) :: text.drop (off + n + 1) := by
        have hlt : off + n < text.length := by omega
        have hget := h.cell (off + n) hlt
        rw [List.getElem?_eq_getElem hlt] at hget
        rw [List.drop_eq_getElem_cons hlt, Option.some.inj hget]
      rw [← ih (by omega), hcell, LinearMem.read_succ, List.append_assoc]
      rfl

theorem StringAt.read_take (h : StringAt m text) (hle : n ≤ text.length) :
    LinearMem.read m 0 n = text.take n := by
  have happ := h.read_append_drop 0 n (by omega)
  rw [Nat.zero_add, List.drop_zero] at happ
  rw [← happ, List.take_append_of_le_length (by rw [LinearMem.length_read]),
    List.take_of_length_le (by rw [LinearMem.length_read])]

theorem StringAt.read (h : StringAt m text) : LinearMem.read m 0 text.length = text := by
  rw [h.read_take (Nat.le_refl _), List.take_length]

/-- A memory that reads as a string and its terminator. -/
theorem stringAt_of_read (h : ∀ c ∈ text, c ≠ 0)
    (hread : LinearMem.read m 0 (text.length + 1) = text ++ [0]) : StringAt m text where
  cell n hn := by
    have hget := congrArg (·[n]?) hread
    rw [List.getElem?_append_left hn, LinearMem.getElem?_read m 0 (by omega), Nat.zero_add] at hget
    exact hget.symm
  nul := by
    have hget := congrArg (·[text.length]?) hread
    rw [List.getElem?_append_right (Nat.le_refl _), Nat.sub_self,
      LinearMem.getElem?_read m 0 (by omega), Nat.zero_add] at hget
    exact Option.some.inj hget
  nonzero := h

/-- A memory with a NUL in it holds a string. -/
theorem exists_stringAt {m : ℕ → Byte} {n : ℕ} (h : m n = 0) :
    ∃ text, StringAt m text ∧ text.length ≤ n := by
  have hex : ∃ i, m i = 0 := ⟨n, h⟩
  obtain ⟨k, hk⟩ : ∃ k, k = Nat.find hex := ⟨_, rfl⟩
  have hlen : (LinearMem.read m 0 k).length = k := LinearMem.length_read m 0 k
  refine ⟨LinearMem.read m 0 k, ⟨fun i hi => ?_, ?_, fun c hc => ?_⟩, ?_⟩
  · rw [LinearMem.getElem?_read m 0 (hlen ▸ hi), Nat.zero_add]
  · rw [hlen, hk]
    exact Nat.find_spec hex
  · obtain ⟨i, hi, rfl⟩ := List.mem_map.mp hc
    rw [Nat.zero_add]
    exact Nat.find_min hex (hk ▸ List.mem_range.mp hi)
  · rw [hlen, hk]
    exact Nat.find_min' hex h

end StringAt

/-! ### The length of a string -/

/-- The number of bytes from `off` on before the first NUL, but at most `n`. -/
def strnlen (m : ℕ → Byte) : ℕ → ℕ → ℕ
  | _, 0 => 0
  | off, n + 1 => if m off = 0 then 0 else strnlen m (off + 1) n + 1

section Strnlen

variable {m : ℕ → Byte} {text : List Byte} {n off i : ℕ}

theorem strnlen_le (m : ℕ → Byte) (off n : ℕ) : strnlen m off n ≤ n := by
  induction n generalizing off with
  | zero => exact Nat.le_refl 0
  | succ n ih =>
      rw [strnlen]
      split
      · exact Nat.zero_le _
      · exact Nat.succ_le_succ (ih (off + 1))

theorem ne_zero_of_lt_strnlen (h : i < strnlen m off n) : m (off + i) ≠ 0 := by
  induction n generalizing off i with
  | zero => exact absurd h (Nat.not_lt_zero i)
  | succ n ih =>
      rw [strnlen] at h
      split at h
      · exact absurd h (Nat.not_lt_zero i)
      · rename_i hoff
        cases i with
        | zero => exact hoff
        | succ i =>
            rw [show off + (i + 1) = off + 1 + i by omega]
            exact ih (Nat.lt_of_succ_lt_succ h)

/-- It stops at its bound or at a NUL. -/
theorem strnlen_stop (m : ℕ → Byte) (off n : ℕ) :
    strnlen m off n = n ∨ m (off + strnlen m off n) = 0 := by
  induction n generalizing off with
  | zero => exact Or.inl rfl
  | succ n ih =>
      rw [strnlen]
      split
      · rename_i hoff
        exact Or.inr hoff
      · refine (ih (off + 1)).imp (congrArg (· + 1)) fun hnul => ?_
        rw [show off + (strnlen m (off + 1) n + 1) = off + 1 + strnlen m (off + 1) n by omega]
        exact hnul

theorem StringAt.strnlen (h : StringAt m text) (n : ℕ) :
    strnlen m 0 n = min text.length n := by
  have hle := strnlen_le m 0 n
  have hshort : StringStream.strnlen m 0 n ≤ text.length := by
    by_contra hlong
    have hne := ne_zero_of_lt_strnlen (Nat.not_le.mp hlong)
    rw [Nat.zero_add] at hne
    exact hne h.nul
  rcases strnlen_stop m 0 n with hend | hnul
  · omega
  · rw [Nat.zero_add, h.eq_zero_iff hshort] at hnul
    omega

end Strnlen

/-! ### Rounds of chunks -/

/-- Add a chunk to the rounds completed so far and the bytes of the current one. -/
def addChunk (rounds : List (List Byte) × List Byte) (chunk : List Byte) :
    List (List Byte) × List Byte :=
  if chunk = [] then (rounds.1 ++ [rounds.2], []) else (rounds.1, rounds.2 ++ chunk)

/-- The concatenations of the chunks up to each empty one, and of the chunks after the last. -/
def rounds (chunks : List (List Byte)) : List (List Byte) × List Byte :=
  chunks.foldl addChunk ([], [])

/-- What has been read is the string, over and over, and then its first `offset` bytes. -/
structure Streams (text : List Byte) (offset : ℕ) (chunks : List (List Byte)) : Prop where
  offset_le : offset ≤ text.length
  completed : ∀ round ∈ (rounds chunks).1, round = text
  current : (rounds chunks).2 = text.take offset

section Streams

variable {text : List Byte} {offset : ℕ} {chunks : List (List Byte)}

theorem rounds_concat (chunks : List (List Byte)) (chunk : List Byte) :
    rounds (chunks ++ [chunk]) = addChunk (rounds chunks) chunk := by
  rw [rounds, List.foldl_append]
  rfl

theorem streams_start (text : List Byte) : Streams text 0 [] where
  offset_le := Nat.zero_le _
  completed := fun _ h => absurd h List.not_mem_nil
  current := rfl

/-- A read that finds the terminator ends a round. -/
theorem Streams.endOfFile (h : Streams text offset chunks) (hend : offset = text.length) :
    Streams text 0 (chunks ++ [[]]) := by
  have hrounds : rounds (chunks ++ [[]]) = ((rounds chunks).1 ++ [(rounds chunks).2], []) :=
    rounds_concat chunks []
  refine ⟨Nat.zero_le _, fun round hround => ?_, ?_⟩
  · rw [hrounds] at hround
    rcases List.mem_append.mp hround with hold | hnew
    · exact h.completed round hold
    · rw [List.mem_singleton.mp hnew, h.current, hend, List.take_length]
  · rw [hrounds, List.take_zero]

/-- Any other read adds to the current round. -/
theorem Streams.chunk {chunk : List Byte} (h : Streams text offset chunks) (hne : chunk ≠ [])
    (hle : offset + chunk.length ≤ text.length)
    (htake : text.take (offset + chunk.length) = text.take offset ++ chunk) :
    Streams text (offset + chunk.length) (chunks ++ [chunk]) := by
  have hrounds : rounds (chunks ++ [chunk]) = ((rounds chunks).1, (rounds chunks).2 ++ chunk) := by
    rw [rounds_concat, addChunk, if_neg hne]
  refine ⟨hle, fun round hround => ?_, ?_⟩
  · rw [hrounds] at hround
    exact h.completed round hround
  · rw [hrounds, htake, ← h.current]

end Streams

end StringStream
