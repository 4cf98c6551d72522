import Lkmpg.Lib.KernelTypes
import Lkmpg.Lib.LinearMem

/-!
# Copies out of user memory that may fail half way

`copy_from_user` copies the bytes of the source as far as it gets, fills what is left of the
destination with zeros, and returns the number of bytes that it has not copied.
-/

namespace UserCopy

open LinearMem

/-- The `n` bytes that a copy leaves in its destination, if it gets as far as `copied`. -/
def arrived (src : ℕ → Byte) (copied n : ℕ) : List Byte :=
  read src 0 (min copied n) ++ List.replicate (n - copied) 0

/-- `copy_from_user` of `n` bytes to `off`. -/
def copyFromUser (m : ℕ → Byte) (off : ℕ) (src : ℕ → Byte) (copied n : ℕ) : (ℕ → Byte) × ℕ :=
  (write m off (arrived src copied n), n - copied)

variable {src : ℕ → Byte} {copied n : ℕ}

@[simp] theorem length_arrived (src : ℕ → Byte) (copied n : ℕ) :
    (arrived src copied n).length = n := by
  simp only [arrived, List.length_append, length_read, List.length_replicate]
  omega

/-- A copy that gets to the end. -/
theorem arrived_of_le (h : n ≤ copied) : arrived src copied n = read src 0 n := by
  simp [arrived, Nat.min_eq_right h, Nat.sub_eq_zero_of_le h]

/-- The bytes that are compared one by one. -/
theorem read_eq_arrived_iff {m : ℕ → Byte} {size : ℕ} :
    read m 0 size = arrived src copied n ↔
      size = n ∧ (∀ i, i < min copied n → m i = src i) ∧ ∀ i, copied ≤ i → i < n → m i = 0 := by
  constructor
  · intro hsame
    have hsize : size = n := by
      have hlen := congrArg List.length hsame
      rw [length_read, length_arrived] at hlen
      exact hlen
    subst hsize
    have hcell : ∀ i, i < size → some (m i) = (arrived src copied size)[i]? := by
      intro i hi
      rw [← hsame, getElem?_read _ _ hi, Nat.zero_add]
    refine ⟨rfl, fun i hi => ?_, fun i hle hi => ?_⟩
    · have hget := hcell i (by omega)
      rw [arrived, List.getElem?_append_left (by rw [length_read]; exact hi), getElem?_read _ _ hi,
        Nat.zero_add] at hget
      exact Option.some.inj hget
    · have hget := hcell i hi
      rw [arrived, List.getElem?_append_right (by rw [length_read]; omega), length_read,
        List.getElem?_replicate_of_lt (by omega)] at hget
      exact Option.some.inj hget
  · rintro ⟨rfl, hsrc, hzero⟩
    have hsplit : size = min copied size + (size - copied) := by omega
    have htail : read m (0 + min copied size) (size - copied) =
        List.replicate (size - copied) 0 := by
      rw [List.eq_replicate_iff]
      refine ⟨length_read _ _ _, fun c hc => ?_⟩
      obtain ⟨i, hi, rfl⟩ := List.mem_map.mp hc
      have hlt := List.mem_range.mp hi
      exact hzero _ (by omega) (by omega)
    rw [arrived, ← htail]
    conv_lhs => rw [hsplit, read_add]
    congr 1
    exact read_inj.mpr fun i hi => by rw [Nat.zero_add]; exact hsrc i hi

/-! ### Buffers with a position -/

/-- `simple_write_to_buffer`: what it leaves, what it returns, and the new position. -/
def simpleWriteToBuffer (m : ℕ → Byte) (available pos : ℕ) (src : ℕ → Byte) (copied count : ℕ) :
    (ℕ → Byte) × Except Errno ℕ × ℕ :=
  if available ≤ pos ∨ count = 0 then (m, .ok 0, pos)
  else
    let n := min count (available - pos)
    let copy := copyFromUser m pos src copied n
    if copy.2 = n then (copy.1, .error .EFAULT, pos)
    else (copy.1, .ok (n - copy.2), pos + (n - copy.2))

/-- `simple_read_from_buffer`: what it returns, what it has copied, and the new position. -/
def simpleReadFromBuffer (m : ℕ → Byte) (available pos copied count : ℕ) :
    Except Errno ℕ × List Byte × ℕ :=
  if available ≤ pos ∨ count = 0 then (.ok 0, [], pos)
  else
    let n := min copied (min count (available - pos))
    if n = 0 then (.error .EFAULT, [], pos) else (.ok n, read m pos n, pos + n)

section Buffer

variable {m : ℕ → Byte} {available pos count : ℕ}

theorem simpleWriteToBuffer_of_not (h : available ≤ pos ∨ count = 0) :
    simpleWriteToBuffer m available pos src copied count = (m, .ok 0, pos) := if_pos h

/-- A copy that gets nowhere leaves zeros. -/
theorem simpleWriteToBuffer_of_fault (hpos : pos < available) (hcount : 0 < count) :
    simpleWriteToBuffer m available pos src 0 count =
      (write m pos (List.replicate (min count (available - pos)) 0), .error .EFAULT, pos) := by
  have harrived : arrived src 0 (min count (available - pos)) =
      List.replicate (min count (available - pos)) 0 := by
    simp [arrived, LinearMem.read]
  rw [simpleWriteToBuffer, if_neg (by omega)]
  simp only [copyFromUser, Nat.sub_zero, if_true, harrived]

theorem simpleWriteToBuffer_of_copied (hpos : pos < available) (hcount : 0 < count)
    (hcopied : 0 < copied) :
    simpleWriteToBuffer m available pos src copied count =
      (write m pos (arrived src copied (min count (available - pos))),
        .ok (min copied (min count (available - pos))),
        pos + min copied (min count (available - pos))) := by
  obtain ⟨n, hn⟩ : ∃ n, n = min count (available - pos) := ⟨_, rfl⟩
  have hsome : n - copied ≠ n := by omega
  have hsub : n - (n - copied) = min copied n := by omega
  rw [simpleWriteToBuffer, if_neg (by omega), ← hn]
  simp only [copyFromUser, if_neg hsome, hsub]

/-- What is read is a piece of the content. -/
theorem simpleReadFromBuffer_bytes (m : ℕ → Byte) (available pos copied count : ℕ) :
    (simpleReadFromBuffer m available pos copied count).2.1 =
      ((read m 0 available).drop pos).take (min copied count) := by
  rw [drop_read, take_read, Nat.zero_add, simpleReadFromBuffer]
  split
  · rw [show min (min copied count) (available - pos) = 0 by omega]
    rfl
  · rw [← Nat.min_assoc]
    simp only
    split
    · rename_i hnone
      rw [hnone]
      rfl
    · rfl

end Buffer

/-- The first bytes that arrive are those of the source. -/
theorem take_arrived (src : ℕ → Byte) (copied n : ℕ) :
    (arrived src copied n).take (min copied n) = read src 0 (min copied n) := by
  rw [arrived, List.take_append_of_le_length (by rw [length_read]),
    List.take_of_length_le (by rw [length_read])]

/-- The byte that arrives at one place. -/
theorem getElem?_arrived (src : ℕ → Byte) (copied : ℕ) {n i : ℕ} (h : i < n) :
    (arrived src copied n)[i]? = some (if i < copied then src i else 0) := by
  have hall : read (fun i => if i < copied then src i else 0) 0 n = arrived src copied n :=
    read_eq_arrived_iff.mpr ⟨rfl, fun i hi => if_pos (by omega), fun i hle _ => if_neg (by omega)⟩
  rw [← hall, getElem?_read _ _ h, Nat.zero_add]

/-- A copy that is done byte by byte. -/
theorem write_take_arrived_succ (m : ℕ → Byte) (off : ℕ) (src : ℕ → Byte) (copied : ℕ) {n k : ℕ}
    (h : k < n) :
    write m off ((arrived src copied n).take (k + 1)) =
      Function.update (write m off ((arrived src copied n).take k)) (off + k)
        (if k < copied then src k else 0) := by
  rw [List.take_add_one, getElem?_arrived src copied h, write_append, List.length_take,
    length_arrived, Nat.min_eq_left (Nat.le_of_lt h)]
  exact write_singleton _ _ _

end UserCopy
