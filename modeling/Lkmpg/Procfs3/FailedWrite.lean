import Lkmpg.Procfs3.Device

/-!
# A write to `/proc/buffer2k` that fails

`procfs_write` sets the size and copies into `procfs_buffer` itself.  When `copy_from_user` fails, the
size is that of the write, and the buffer holds what has been copied and zeros.  Two files that differ
in what is stored are told apart by a single read that asks for enough.
-/

namespace Lkmpg.Procfs3

open LinearMem UserCopy Uninterrupted

/-! ### Reading on -/

/-- A call of `procfs_read` that nobody disturbs. -/
def procfsRead (g : Globals) (length offset : ℕ) (faults : Bool) : Globals × ReadPc :=
  complete (readStep length offset faults) ReadPc.cost g .test

/-- What a process sees of a call: what it returns and the bytes that it delivers. -/
def ReadPc.seen : ReadPc → Except Errno ℕ × List Byte
  | .done result _ bytes => (result, bytes)
  | _ => (.ok 0, [])

/-- `*offset` after the call. -/
def ReadPc.position : ReadPc → ℕ
  | .done _ offset _ => offset
  | _ => 0

/-- A read of one of the open files. -/
structure ReadOf where
  file : ℕ
  length : ℕ
  /-- `copy_to_user` fails -/
  faults : Bool

/-- What a sequence of reads returns and delivers. -/
def readAll : Globals → (ℕ → ℕ) → List ReadOf → List (Except Errno ℕ × List Byte)
  | _, _, [] => []
  | g, fPos, r :: rs =>
      let call := procfsRead g r.length (fPos r.file) r.faults
      call.2.seen :: readAll call.1 (Function.update fPos r.file call.2.position) rs

/-- No sequence of reads of any files tells the two apart. -/
def SameReads (g g' : Globals) : Prop :=
  ∀ (fPos : ℕ → ℕ) (reads : List ReadOf), readAll g fPos reads = readAll g' fPos reads

/-- If the write returns `-EFAULT`, the reads that follow are those that would have followed had it not
been attempted. -/
def Unharmed (g : Globals) (buffer : ℕ → Byte) (copied len off : ℕ) : Prop :=
  (procfsWrite g buffer copied len off).2.1 = .error .EFAULT →
    SameReads g (procfsWrite g buffer copied len off).1

/-- If the copy fails, as many bytes were stored as the write has room for, and they are those that
have been copied, and zeros. -/
def SameAsBefore (g : Globals) (buffer : ℕ → Byte) (copied len : ℕ) : Prop :=
  copied < min procfsMaxSize len →
    g.procfsBufferSize = min procfsMaxSize len ∧
      (∀ i, i < copied → g.procfsBuffer i = buffer i) ∧
      ∀ i, copied ≤ i → i < min procfsMaxSize len → g.procfsBuffer i = 0

/-! ### The file as a list of bytes -/

/-- A read of a file that is the list `b`: what it leaves, and the end of the call. -/
def contentRead (b : List Byte) (length offset : ℕ) (faults : Bool) : List Byte × ReadPc :=
  if offset ≠ 0 ∨ b = [] then (b, .done (.ok 0) 0 [])
  else (b.take length, if faults then .done (.error .EFAULT) offset []
    else .done (.ok (b.take length).length) (offset + (b.take length).length) (b.take length))

section Content

variable {g g' : Globals} {b : List Byte} {length offset : ℕ} {faults : Bool}

theorem content_cut (g : Globals) (length : ℕ) :
    { g with procfsBufferSize := min g.procfsBufferSize length }.content =
      g.content.take length := by
  rw [Globals.content, Globals.content, take_read, Nat.min_comm]

theorem content_eq_nil_iff : g.content = [] ↔ g.procfsBufferSize = 0 := by
  rw [← List.length_eq_zero_iff, Globals.content, length_read]

/-- **Refinement.**  What a read returns, delivers and leaves depends on the content alone. -/
theorem procfsRead_content (g : Globals) (length offset : ℕ) (faults : Bool) :
    ((procfsRead g length offset faults).1.content, (procfsRead g length offset faults).2) =
      contentRead g.content length offset faults := by
  simp only [contentRead, content_eq_nil_iff]
  by_cases hend : offset ≠ 0 ∨ g.procfsBufferSize = 0
  · have hread : procfsRead g length offset faults = (g, .done (.ok 0) 0 []) := by
      simp only [procfsRead, complete, ReadPc.cost, finish, readStep, if_pos hend]
    rw [hread, if_pos hend]
  · obtain ⟨cut, hcut⟩ : ∃ cut : Globals,
        cut = { g with procfsBufferSize := min g.procfsBufferSize length } := ⟨_, rfl⟩
    have hcontent : cut.content = g.content.take length := hcut ▸ content_cut g length
    have hsize : cut.procfsBufferSize = (g.content.take length).length := by
      rw [← hcontent, Globals.content, length_read]
    have hread : procfsRead g length offset faults =
        (cut, if faults then .done (.error .EFAULT) offset []
          else .done (.ok cut.procfsBufferSize) (offset + cut.procfsBufferSize) cut.content) := by
      cases faults with
      | false =>
          simp only [procfsRead, complete, ReadPc.cost, finish, readStep, if_neg hend, ← hcut,
            Bool.false_eq_true, if_false]
      | true =>
          simp only [procfsRead, complete, ReadPc.cost, finish, readStep, if_neg hend, ← hcut,
            if_true]
    rw [hread, if_neg hend, hcontent, hsize]

/-- What is seen of a read from the start. -/
theorem seen_contentRead (b : List Byte) (length : ℕ) :
    (contentRead b length 0 false).2.seen = (.ok (b.take length).length, b.take length) := by
  rw [contentRead]
  split
  · rename_i hnil
    rw [hnil.resolve_left (not_not.mpr rfl)]
    simp [ReadPc.seen]
  · rfl

/-- Reads see the content, and nothing else. -/
theorem sameReads_iff : SameReads g g' ↔ g.content = g'.content := by
  constructor
  · intro hsame
    obtain ⟨length, hlength⟩ : ∃ length, length = max g.content.length g'.content.length :=
      ⟨_, rfl⟩
    have hseen : ∀ g : Globals, (procfsRead g length 0 false).2.seen =
        (.ok (g.content.take length).length, g.content.take length) := by
      intro g
      rw [← seen_contentRead, ← procfsRead_content]
    have hread := hsame (fun _ => 0) [⟨0, length, false⟩]
    simp only [readAll, hseen, List.cons.injEq, and_true, Prod.mk.injEq] at hread
    rw [List.take_of_length_le (by omega), List.take_of_length_le (by omega)] at hread
    exact hread.2
  · intro hcontent fPos reads
    induction reads generalizing g g' fPos with
    | nil => rfl
    | cons r rs ih =>
        have hone := procfsRead_content g r.length (fPos r.file) r.faults
        rw [hcontent, ← procfsRead_content] at hone
        obtain ⟨hleft, hcall⟩ := Prod.mk.inj hone
        simp only [readAll]
        rw [hcall, ih hleft]

end Content

/-- **A write that fails.**  For every stored content, every size and every write: if it returns
`-EFAULT`, the reads that follow are as if it had not been attempted, if and only if what it leaves is
what was stored before. -/
theorem unharmed_iff (g : Globals) (buffer : ℕ → Byte) (copied len off : ℕ) :
    Unharmed g buffer copied len off ↔ SameAsBefore g buffer copied len := by
  obtain ⟨size, hsize⟩ : ∃ size, size = min procfsMaxSize len := ⟨_, rfl⟩
  rw [Unharmed, SameAsBefore, ← hsize]
  by_cases hfails : copied < size
  · have hwrite : procfsWrite g buffer copied len off =
        (⟨write g.procfsBuffer 0 (arrived buffer copied size), size⟩, .error .EFAULT, off) := by
      have hcopy : (copyFromUser g.procfsBuffer 0 buffer copied size).2 ≠ 0 := by
        show size - copied ≠ 0
        omega
      rw [procfsWrite, ← hsize]
      exact if_pos hcopy
    have hcontent : (procfsWrite g buffer copied len off).1.content =
        arrived buffer copied size := by
      have hback := read_write g.procfsBuffer 0 (arrived buffer copied size)
      rw [length_arrived] at hback
      rw [hwrite]
      exact hback
    rw [sameReads_iff, hcontent, Globals.content, read_eq_arrived_iff,
      Nat.min_eq_left (Nat.le_of_lt hfails), hwrite]
    simp [hfails]
  · have hwrite : (procfsWrite g buffer copied len off).2.1 = .ok size := by
      have hcopy : (copyFromUser g.procfsBuffer 0 buffer copied size).2 = 0 := by
        show size - copied = 0
        omega
      rw [procfsWrite, ← hsize]
      simp [hcopy]
    rw [hwrite]
    exact iff_of_true nofun fun h => absurd h hfails

/-- One byte is stored, and a write of two fails at its first byte. -/
theorem not_unharmed : ¬∀ (g : Globals) (buffer : ℕ → Byte) (copied len off : ℕ),
    Unharmed g buffer copied len off := by
  intro hall
  have hsame := sameReads_iff.mp (hall ⟨fun _ => 0x61, 1⟩ (fun _ => 0x62) 0 2 0 rfl)
  have hsize := congrArg List.length hsame
  exact absurd hsize (by decide)

end Lkmpg.Procfs3
