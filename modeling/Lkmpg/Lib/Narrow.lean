import Lkmpg.Lib.KernelTypes

/-!
# Storing a wide value in a narrow variable

An assignment to an unsigned type of fewer bits keeps the low bits.  What is lost is nothing exactly
if the value is small enough, and the variable is zero exactly if the low bits are.
-/

namespace Narrow

variable {w m : ℕ}

theorem setWidth_eq_zero_iff (x : BitVec w) :
    x.setWidth m = 0 ↔ ∀ k < m, x.getLsbD k = false := by
  constructor
  · intro h k hk
    have hbit := congrArg (fun y => y.getLsbD k) h
    simpa [BitVec.getLsbD_setWidth, hk] using hbit
  · intro h
    apply BitVec.eq_of_getLsbD_eq
    intro k hk
    rw [BitVec.getLsbD_setWidth, h k hk]
    simp

/-- **Lossless store.**  Reading the variable back gives the value exactly if it fits. -/
theorem setWidth_setWidth_eq_self_iff (x : BitVec w) :
    (x.setWidth m).setWidth w = x ↔ x.toNat < 2 ^ m := by
  rw [← BitVec.toNat_inj, BitVec.toNat_setWidth, BitVec.toNat_setWidth]
  constructor
  · intro h
    calc x.toNat = x.toNat % 2 ^ m % 2 ^ w := h.symm
      _ ≤ x.toNat % 2 ^ m := Nat.mod_le _ _
      _ < 2 ^ m := Nat.mod_lt _ (Nat.two_pow_pos m)
  · intro h
    rw [Nat.mod_eq_of_lt h, Nat.mod_eq_of_lt x.isLt]

end Narrow
