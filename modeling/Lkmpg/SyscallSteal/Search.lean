import Lkmpg.Lib.Loop
import Mathlib.Algebra.Group.Nat.Defs
import Mathlib.Data.Nat.Find
import Mathlib.Data.Set.Basic
import Mathlib.Order.Bounds.Defs

/-!
# The search for the system call table in `syscall-steal.c`

Where `ksys_close` is exported, `acquire_sys_call_table` looks for the table from `PAGE_OFFSET`
upwards, one pointer at a time, as long as the address is below `ULLONG_MAX`.  The address is always
a multiple of eight, so it never is `ULLONG_MAX`: after the last pointer of the address space the
search goes on at address zero.
-/

namespace Lkmpg.SyscallSteal

open Loop

/-- What the search depends on. -/
structure Kernel where
  /-- the pointer at an address -/
  mem : BitVec 64 → BitVec 64
  /-- `__NR_close` -/
  nrClose : BitVec 64
  /-- the address of `ksys_close` -/
  ksysClose : BitVec 64

/-- `ULLONG_MAX` -/
def ullongMax : BitVec 64 := BitVec.allOnes 64

/-- `sizeof(void *)` -/
def sizeofPtr : BitVec 64 := 8

/-- `sct[index]` -/
def Kernel.entry (kernel : Kernel) (sct index : BitVec 64) : BitVec 64 :=
  kernel.mem (sct + sizeofPtr * index)

/-- An iteration of the `while` loop. -/
def searchBody (kernel : Kernel) (offset : BitVec 64) : BitVec 64 ⊕ BitVec 64 :=
  if offset < ullongMax then
    if kernel.entry offset kernel.nrClose = kernel.ksysClose then .inl offset
    else .inr (offset + sizeofPtr)
  else .inl 0

/-- `acquire_sys_call_table` returns `sct`. -/
def AcquireSysCallTable (kernel : Kernel) (pageOffset sct : BitVec 64) : Prop :=
  Returns (searchBody kernel) pageOffset sct

/-- A multiple of the size of a pointer. -/
def Aligned (a : BitVec 64) : Prop := a.toNat % 8 = 0

instance : DecidablePred Aligned := fun a => inferInstanceAs (Decidable (a.toNat % 8 = 0))

/-- The addresses that can be taken for that of the table. -/
def tables (kernel : Kernel) : Set (BitVec 64) :=
  {a | Aligned a ∧ kernel.entry a kernel.nrClose = kernel.ksysClose}

/-- Those from `PAGE_OFFSET` upwards. -/
def tablesFrom (kernel : Kernel) (pageOffset : BitVec 64) : Set (BitVec 64) :=
  {a | a ∈ tables kernel ∧ pageOffset ≤ a}

/-- The search ends, with the first address from `PAGE_OFFSET` upwards or, if there is none, with
`NULL`. -/
def FindsTable (kernel : Kernel) (pageOffset : BitVec 64) : Prop :=
  ∃ sct, AcquireSysCallTable kernel pageOffset sct ∧
    (IsLeast (tablesFrom kernel pageOffset) sct ∨ tablesFrom kernel pageOffset = ∅ ∧ sct = 0)

/-! ### The addresses that are tried -/

variable {kernel : Kernel} {offset pageOffset a sct : BitVec 64}

theorem Aligned.add (h : Aligned offset) : Aligned (offset + sizeofPtr) := by
  have hsize : sizeofPtr.toNat = 8 := rfl
  unfold Aligned at h ⊢
  rw [BitVec.toNat_add, hsize]
  omega

/-- The bound of the loop is never reached. -/
theorem Aligned.lt_ullongMax (h : Aligned offset) : offset < ullongMax := by
  have hmax : ullongMax.toNat = 2 ^ 64 - 1 := rfl
  unfold Aligned at h
  rw [BitVec.lt_def, hmax]
  have hlt : offset.toNat < 2 ^ 64 := offset.isLt
  omega

theorem searchBody_of_mem (h : a ∈ tables kernel) : searchBody kernel a = .inl a := by
  rw [searchBody, if_pos h.1.lt_ullongMax, if_pos h.2]

theorem searchBody_of_notMem (halign : Aligned offset) (h : offset ∉ tables kernel) :
    searchBody kernel offset = .inr (offset + sizeofPtr) := by
  have hentry : ¬ kernel.entry offset kernel.nrClose = kernel.ksysClose :=
    fun hentry => h ⟨halign, hentry⟩
  rw [searchBody, if_pos halign.lt_ullongMax, if_neg hentry]

/-- `offset` after `n` iterations. -/
def cursor (pageOffset : BitVec 64) (n : ℕ) : BitVec 64 := pageOffset + BitVec.ofNat 64 (8 * n)

theorem cursor_zero (pageOffset : BitVec 64) : cursor pageOffset 0 = pageOffset :=
  BitVec.add_zero pageOffset

theorem cursor_succ (pageOffset : BitVec 64) (n : ℕ) :
    cursor pageOffset (n + 1) = cursor pageOffset n + sizeofPtr := by
  rw [cursor, cursor, BitVec.add_assoc]
  congr 1
  rw [sizeofPtr, Nat.mul_succ]
  exact BitVec.ofNat_add (8 * n) 8

theorem toNat_cursor (pageOffset : BitVec 64) (n : ℕ) :
    (cursor pageOffset n).toNat = (pageOffset.toNat + 8 * n) % 2 ^ 64 := by
  rw [cursor, BitVec.toNat_add, BitVec.toNat_ofNat, Nat.add_mod_mod]

theorem Aligned.cursor (h : Aligned pageOffset) (n : ℕ) : Aligned (cursor pageOffset n) := by
  induction n with
  | zero => rwa [cursor_zero]
  | succ n ih =>
      rw [cursor_succ]
      exact ih.add

/-- Every multiple of eight is tried, those below `PAGE_OFFSET` after the others. -/
theorem exists_cursor_eq (halign : Aligned pageOffset) (ha : Aligned a) :
    ∃ n, cursor pageOffset n = a ∧ (pageOffset ≤ a → pageOffset.toNat + 8 * n = a.toNat) := by
  have hpage : pageOffset.toNat < 2 ^ 64 := pageOffset.isLt
  have hlt : a.toNat < 2 ^ 64 := a.isLt
  unfold Aligned at halign ha
  by_cases hle : pageOffset.toNat ≤ a.toNat
  · refine ⟨(a.toNat - pageOffset.toNat) / 8, BitVec.eq_of_toNat_eq ?_, fun _ => ?_⟩
    · rw [toNat_cursor]
      omega
    · omega
  · refine ⟨(2 ^ 64 - pageOffset.toNat + a.toNat) / 8, BitVec.eq_of_toNat_eq ?_, fun h => ?_⟩
    · rw [toNat_cursor]
      omega
    · exact absurd (BitVec.le_def.mp h) hle

/-- **Step.**  The search passes over the addresses that are not that of a table. -/
theorem acquire_iff_of_clear (halign : Aligned pageOffset) {n : ℕ}
    (h : ∀ i < n, cursor pageOffset i ∉ tables kernel) :
    AcquireSysCallTable kernel pageOffset sct ↔
      AcquireSysCallTable kernel (cursor pageOffset n) sct := by
  have hstep : ∀ i < n, searchBody kernel (cursor pageOffset i) = .inr (cursor pageOffset (i + 1)) := by
    intro i hi
    rw [cursor_succ]
    exact searchBody_of_notMem (halign.cursor i) (h i hi)
  have hsteps : Returns (searchBody kernel) (cursor pageOffset 0) sct ↔ _ :=
    returns_iff_of_steps hstep
  rwa [cursor_zero] at hsteps

/-- What the search returns is the address of a table. -/
theorem mem_tables_of_acquire (halign : Aligned pageOffset)
    (h : AcquireSysCallTable kernel pageOffset sct) : sct ∈ tables kernel := by
  refine h.rule (I := Aligned) halign ?_ ?_
  · intro s t hs hbody
    by_cases hmem : s ∈ tables kernel
    · cases (searchBody_of_mem hmem).symm.trans hbody
    · obtain rfl := Sum.inr.inj ((searchBody_of_notMem hs hmem).symm.trans hbody)
      exact hs.add
  · intro s r hs hbody
    by_cases hmem : s ∈ tables kernel
    · obtain rfl := Sum.inl.inj ((searchBody_of_mem hmem).symm.trans hbody)
      exact hmem
    · cases (searchBody_of_notMem hs hmem).symm.trans hbody

/-! ### When the search does what it is for -/

/-- **Search.**  The first table on the way of the cursor is returned. -/
theorem acquire_of_first (halign : Aligned pageOffset) {n : ℕ}
    (hn : cursor pageOffset n ∈ tables kernel) (h : ∀ i < n, cursor pageOffset i ∉ tables kernel) :
    AcquireSysCallTable kernel pageOffset (cursor pageOffset n) :=
  (acquire_iff_of_clear halign h).mpr (returns_of_done (searchBody_of_mem hn))

/-- If there is a table somewhere, the cursor reaches one. -/
theorem exists_first (halign : Aligned pageOffset) (h : (tables kernel).Nonempty) :
    ∃ n, cursor pageOffset n ∈ tables kernel ∧ ∀ i < n, cursor pageOffset i ∉ tables kernel := by
  classical
  obtain ⟨a, ha⟩ := h
  have htable : ∃ n, cursor pageOffset n ∈ tables kernel := by
    obtain ⟨n, rfl, -⟩ := exists_cursor_eq halign ha.1
    exact ⟨n, ha⟩
  exact ⟨Nat.find htable, Nat.find_spec htable, fun i hi => Nat.find_min htable hi⟩

/-- The search ends exactly if there is a table somewhere in the address space. -/
theorem acquire_ends_iff (halign : Aligned pageOffset) :
    (∃ sct, AcquireSysCallTable kernel pageOffset sct) ↔ (tables kernel).Nonempty := by
  constructor
  · rintro ⟨sct, h⟩
    exact ⟨sct, mem_tables_of_acquire halign h⟩
  · intro h
    obtain ⟨n, hn, hfirst⟩ := exists_first halign h
    exact ⟨_, acquire_of_first halign hn hfirst⟩

/-- A table from `PAGE_OFFSET` upwards is found before the cursor wraps. -/
theorem findsTable_of_nonempty (halign : Aligned pageOffset)
    (h : (tablesFrom kernel pageOffset).Nonempty) : FindsTable kernel pageOffset := by
  obtain ⟨n, hn, hfirst⟩ := exists_first halign (h.mono fun a ha => ha.1)
  -- every table from `PAGE_OFFSET` upwards comes at or after the first one
  have hbound : ∀ a ∈ tablesFrom kernel pageOffset, pageOffset.toNat + 8 * n ≤ a.toNat := by
    rintro a ⟨ha, hle⟩
    obtain ⟨k, rfl, hdistance⟩ := exists_cursor_eq halign ha.1
    have hmin : n ≤ k := Nat.le_of_not_lt fun hlt => hfirst k hlt ha
    rw [← hdistance hle]
    omega
  have hcursor : (cursor pageOffset n).toNat = pageOffset.toNat + 8 * n := by
    obtain ⟨a, ha⟩ := h
    have hle := hbound a ha
    have hlt : a.toNat < 2 ^ 64 := a.isLt
    rw [toNat_cursor]
    omega
  refine ⟨_, acquire_of_first halign hn hfirst, Or.inl ⟨⟨hn, ?_⟩, ?_⟩⟩
  · rw [BitVec.le_def, hcursor]
    exact Nat.le_add_right _ _
  · intro a ha
    rw [BitVec.le_def, hcursor]
    exact hbound a ha

/-- If there is none, the cursor wraps, and at address zero the result may be mistaken for `NULL`. -/
theorem findsTable_of_zero (halign : Aligned pageOffset) (hnone : tablesFrom kernel pageOffset = ∅)
    (hzero : 0 ∈ tables kernel) : FindsTable kernel pageOffset := by
  have hpage : pageOffset.toNat < 2 ^ 64 := pageOffset.isLt
  have hwrap : cursor pageOffset ((2 ^ 64 - pageOffset.toNat) / 8) = 0 := by
    apply BitVec.eq_of_toNat_eq
    unfold Aligned at halign
    rw [toNat_cursor]
    show _ = 0
    omega
  refine ⟨0, ?_, Or.inr ⟨hnone, rfl⟩⟩
  have hclear : ∀ i < (2 ^ 64 - pageOffset.toNat) / 8, cursor pageOffset i ∉ tables kernel := by
    intro i hi hmem
    have hle : pageOffset ≤ cursor pageOffset i := by
      rw [BitVec.le_def, toNat_cursor]
      omega
    exact Set.eq_empty_iff_forall_notMem.mp hnone _ ⟨hmem, hle⟩
  rw [acquire_iff_of_clear halign hclear, hwrap]
  exact returns_of_done (searchBody_of_mem hzero)

/-- **The search for the table** ends, with the first address from `PAGE_OFFSET` upwards or with
`NULL`, exactly if there is such an address or address zero passes for one. -/
theorem findsTable_iff (halign : Aligned pageOffset) :
    FindsTable kernel pageOffset ↔
      (tablesFrom kernel pageOffset).Nonempty ∨ 0 ∈ tables kernel := by
  constructor
  · rintro ⟨sct, hacquire, hleast | ⟨-, rfl⟩⟩
    · exact Or.inl ⟨sct, hleast.1⟩
    · exact Or.inr (mem_tables_of_acquire halign hacquire)
  · intro h
    rcases Set.eq_empty_or_nonempty (tablesFrom kernel pageOffset) with hnone | htable
    · obtain htable | hzero := h
      · exact findsTable_of_nonempty halign htable
      · exact findsTable_of_zero halign hnone hzero
    · exact findsTable_of_nonempty halign htable

/-- Memory that is zero except for the entry `__NR_close` of one table. -/
def oneTable : Kernel := ⟨fun a => if a = 0xffff888000000018 then 7 else 0, 3, 7⟩

theorem findsTable_oneTable : FindsTable oneTable 0xffff888000000000 :=
  (findsTable_iff (by decide)).mpr
    (Or.inl ⟨0xffff888000000000, ⟨⟨by decide, by decide⟩, by decide⟩⟩)

/-- The address of `ksys_close` is nowhere in memory, and the search goes round forever. -/
theorem not_findsTable :
    ¬ ∀ (kernel : Kernel) (pageOffset : BitVec 64), Aligned pageOffset →
      FindsTable kernel pageOffset := by
  intro h
  obtain ⟨sct, hacquire, -⟩ := h ⟨fun _ => 0, 3, 7⟩ 0xffff888000000000 (by decide)
  have hentry : (0 : BitVec 64) = 7 := (mem_tables_of_acquire (by decide) hacquire).2
  exact absurd hentry (by decide)

end Lkmpg.SyscallSteal
