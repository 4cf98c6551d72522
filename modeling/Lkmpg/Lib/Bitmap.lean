import Mathlib.Tactic

/-!
# Bitmaps

A bitmap of `n` bits is a `BitVec n`.  `setBit`, `clearBit` and `findFirstZeroBit` are the kernel's
`set_bit`, `clear_bit` and `find_first_zero_bit`; the last returns `n` when every bit is set.
-/

namespace Bitmap

variable {n : ℕ}

/-- `set_bit(i, b)` -/
def setBit (b : BitVec n) (i : ℕ) : BitVec n := b ||| BitVec.twoPow n i

/-- `clear_bit(i, b)` -/
def clearBit (b : BitVec n) (i : ℕ) : BitVec n := b &&& ~~~BitVec.twoPow n i

/-- `find_first_zero_bit(b, n)` -/
def findFirstZeroBit (b : BitVec n) : ℕ := (List.range n).findIdx fun i => !b.getLsbD i

theorem getLsbD_setBit (b : BitVec n) (i j : ℕ) :
    (setBit b i).getLsbD j = (b.getLsbD j || (decide (i < n) && decide (i = j))) := by
  rw [setBit, BitVec.getLsbD_or, BitVec.getLsbD_twoPow]

theorem getLsbD_clearBit (b : BitVec n) (i j : ℕ) :
    (clearBit b i).getLsbD j = (b.getLsbD j && !decide (i = j)) := by
  rw [clearBit, BitVec.getLsbD_and, BitVec.getLsbD_not, BitVec.getLsbD_twoPow]
  by_cases hj : j < n
  · by_cases h : i = j
    · simp [h, hj]
    · simp [h, hj]
  · simp [BitVec.getLsbD_of_ge b j (by omega)]

/-- Setting and then clearing a bit that was clear restores the bitmap. -/
theorem clearBit_setBit {b : BitVec n} {i : ℕ} (h : b.getLsbD i = false) :
    clearBit (setBit b i) i = b := by
  apply BitVec.eq_of_getLsbD_eq
  intro j _
  rw [getLsbD_clearBit, getLsbD_setBit]
  by_cases hj : i = j
  · subst hj
    simp [h]
  · simp [hj]

/-- The bit found is clear. -/
theorem getLsbD_findFirstZeroBit {b : BitVec n} (h : findFirstZeroBit b < n) :
    b.getLsbD (findFirstZeroBit b) = false := by
  unfold findFirstZeroBit at h ⊢
  have hlen : (List.range n).findIdx (fun i => !b.getLsbD i) < (List.range n).length := by
    simpa using h
  have hget := List.findIdx_getElem (p := fun i => !b.getLsbD i) (w := hlen)
  simpa only [List.getElem_range, Bool.not_eq_true'] using hget

/-- Every bit below the bit found is set. -/
theorem getLsbD_of_lt_findFirstZeroBit {b : BitVec n} {i : ℕ} (h : i < findFirstZeroBit b) :
    b.getLsbD i = true := by
  have hset := List.not_of_lt_findIdx h
  simpa using hset

/-- No bit is found exactly when every bit is set. -/
theorem le_findFirstZeroBit_iff (b : BitVec n) :
    n ≤ findFirstZeroBit b ↔ ∀ i < n, b.getLsbD i = true := by
  constructor
  · intro h i hi
    exact getLsbD_of_lt_findFirstZeroBit (lt_of_lt_of_le hi h)
  · intro h
    by_contra hlt
    have hlt' : findFirstZeroBit b < n := not_le.mp hlt
    have hclear := getLsbD_findFirstZeroBit hlt'
    rw [h _ hlt'] at hclear
    exact absurd hclear (by decide)

end Bitmap
