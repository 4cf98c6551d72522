import Lkmpg.Lib.Transition
import Lkmpg.Lib.Uninterrupted
import Lkmpg.Lib.UserCopy

/-!
# The file of `procfs3.c`

`procfs_read` and `procfs_write` share the two globals `procfs_buffer` and `procfs_buffer_size` and
take no lock.  `procfs_read` is a step function, one step for each access to the globals:
it reads the size four times and stores it once, cut down to the length that its caller asks for.
-/

namespace Lkmpg.Procfs3

open LinearMem UserCopy Uninterrupted

/-- `PROCFS_MAX_SIZE` -/
def procfsMaxSize : ℕ := 2048

structure Globals where
  procfsBuffer : ℕ → Byte
  procfsBufferSize : ℕ

/-- The stored content. -/
def Globals.content (g : Globals) : List Byte := read g.procfsBuffer 0 g.procfsBufferSize

/-! ### `procfs_read` -/

/-- Where a call of `procfs_read` is. -/
inductive ReadPc where
  /-- `if (*offset || procfs_buffer_size == 0)` -/
  | test
  /-- the arguments of `min` -/
  | load
  /-- the assignment to `procfs_buffer_size`, with the size that `min` has got -/
  | store (size : ℕ)
  /-- `copy_to_user` -/
  | copy
  /-- `*offset += procfs_buffer_size` -/
  | advance (bytes : List Byte)
  /-- `return procfs_buffer_size`, with the new `*offset` -/
  | ret (offset : ℕ) (bytes : List Byte)
  /-- what is returned, with `*offset` and the bytes that have been copied -/
  | done (result : Except Errno ℕ) (offset : ℕ) (bytes : List Byte)

def readStep (length offset : ℕ) (faults : Bool) (g : Globals) : ReadPc → Option (Globals × ReadPc)
  | .test => some (g, if offset ≠ 0 ∨ g.procfsBufferSize = 0 then .done (.ok 0) 0 [] else .load)
  | .load => some (g, .store g.procfsBufferSize)
  | .store size => some ({ g with procfsBufferSize := min size length }, .copy)
  | .copy => some (g, if faults then .done (.error .EFAULT) offset [] else .advance g.content)
  | .advance bytes => some (g, .ret (offset + g.procfsBufferSize) bytes)
  | .ret offset bytes => some (g, .done (.ok g.procfsBufferSize) offset bytes)
  | .done _ _ _ => none

def ReadPc.cost : ReadPc → ℕ
  | .test => 6
  | .load => 5
  | .store _ => 4
  | .copy => 3
  | .advance _ => 2
  | .ret _ _ => 1
  | .done _ _ _ => 0

theorem readStep_decreasing (length offset : ℕ) (faults : Bool) :
    Decreasing (readStep length offset faults) ReadPc.cost := by
  intro g pc g' pc' h
  cases pc with
  | done result offset bytes => cases h
  | test =>
      obtain ⟨-, rfl⟩ := Prod.mk.inj (Option.some.inj h)
      split <;> simp only [ReadPc.cost] <;> omega
  | copy =>
      obtain ⟨-, rfl⟩ := Prod.mk.inj (Option.some.inj h)
      split <;> simp only [ReadPc.cost] <;> omega
  | _ =>
      obtain ⟨-, rfl⟩ := Prod.mk.inj (Option.some.inj h)
      simp only [ReadPc.cost]
      omega

/-! ### `procfs_write` -/

/-- `procfs_write`, with how far `copy_from_user` gets: what it leaves and returns, and `*off`. -/
def procfsWrite (g : Globals) (buffer : ℕ → Byte) (copied len off : ℕ) :
    Globals × Except Errno ℕ × ℕ :=
  let size := min procfsMaxSize len
  let copy := copyFromUser g.procfsBuffer 0 buffer copied size
  if copy.2 ≠ 0 then (⟨copy.1, size⟩, .error .EFAULT, off)
  else (⟨copy.1, size⟩, .ok size, off + size)

end Lkmpg.Procfs3
