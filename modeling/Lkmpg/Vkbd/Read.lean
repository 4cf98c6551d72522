import Lkmpg.Lib.StringStream
import Lkmpg.Lib.Transition
import Lkmpg.Vkbd.Text

/-!
# Reading the last event

`vinput_read` lets `vinput_vkbd_read` print into a buffer on its stack, with the caller's count as
the size, and chooses how much of the buffer it copies: nothing beyond the text, the rest of the
text if count and offset together exceed the buffer, and otherwise as much as the caller asks for,
however long the text is.  A caller who asks for little gets the terminator that `snprintf` puts in
the place of a character, and a caller who asks for a little more than the text gets the stack.

`count` is a `size_t`, which the reading function takes as an `int`; `*offset` is a `loff_t`.  User
memory does not fault.
-/

namespace Lkmpg.Vkbd

open CString LinearMem Transition

/-- `ops->read(vinput, buff, count)`: the buffer after it, and what it returns.  As an `int`, `count`
can be negative; `snprintf` refuses sizes above `INT_MAX`. -/
def opsRead (lastEntry : BitVec 64) (stack : ℕ → Byte) (count : BitVec 64) : (ℕ → Byte) × ℕ :=
  if (count.setWidth 32).toInt < 0 then (stack, 0)
  else vinputVkbdRead lastEntry stack (count.setWidth 32).toNat

/-- `count` before it is copied to the user. -/
def readCount (len : ℕ) (count offset : BitVec 64) : BitVec 64 :=
  if (len : ℤ) < offset.toInt then 0
  else if vinputMaxLen < (count + offset).toNat then BitVec.ofInt 64 (len - offset.toInt)
  else count

/-- `vinput_read`: the bytes it copies to the user, whose number it returns, and `*offset` after it.
`stack` is what `buff` and the stack behind it hold. -/
def vinputRead (lastEntry : BitVec 64) (stack : ℕ → Byte) (count offset : BitVec 64) :
    List Byte × BitVec 64 :=
  let (buff, len) := opsRead lastEntry stack count
  (read buff offset.toNat (readCount len count offset).toNat, offset + readCount len count offset)

/-- A call with a positive count. -/
structure ReadCall where
  count : BitVec 64
  pos : count ≠ 0
  stack : ℕ → Byte

/-- One call on an open file, whose state is `*offset`. -/
def readStep (lastEntry offset : BitVec 64) (call : ReadCall) : Option (BitVec 64) :=
  some (vinputRead lastEntry call.stack call.count offset).2

/-- Whatever is on the stack, the call copies the text of the last event from the offset on, as much
of it as is asked for. -/
def ReadsText (lastEntry offset : BitVec 64) (call : ReadCall) : Prop :=
  ∀ stack, (vinputRead lastEntry stack call.count offset).1 =
    ((entryText lastEntry).drop offset.toNat).take call.count.toNat

/-- The first call asks for more than the buffer has, and for more than the text also as an `int`;
a later one asks for more than what is left of the buffer, or is negative as an `int`. -/
def AsksEnough (lastEntry offset : BitVec 64) (call : ReadCall) : Prop :=
  if offset = 0 then
    0 ≤ (call.count.setWidth 32).toInt ∧ vinputMaxLen < call.count.toNat ∧
      (entryText lastEntry).length < (call.count.setWidth 32).toNat
  else (call.count.setWidth 32).toInt < 0 ∨ vinputMaxLen < (call.count + offset).toNat

/-! ### The text -/

section Text

variable {v : BitVec 64}

theorem entryText_ne_zero : ∀ c ∈ entryText v, c ≠ 0 := by
  intro c hc
  rw [entryText, decimalSigned] at hc
  rcases List.mem_append.mp hc with hc | hc
  · split at hc
    · rcases List.mem_cons.mp hc with rfl | hc
      · decide
      · exact decimalNat_ne_zero hc
    · rcases List.mem_cons.mp hc with rfl | hc
      · decide
      · exact decimalNat_ne_zero hc
  · rw [List.mem_singleton.mp hc]
    decide

theorem length_entryText_pos : 0 < (entryText v).length := by
  rw [entryText, List.length_append, List.length_singleton]
  omega

/-- The offset behind the text. -/
def endOffset (v : BitVec 64) : BitVec 64 := BitVec.ofNat 64 (entryText v).length

theorem toNat_endOffset : (endOffset v).toNat = (entryText v).length := by
  have hlen := length_entryText_le v
  rw [endOffset, BitVec.toNat_ofNat, Nat.mod_eq_of_lt (by omega)]

theorem toInt_endOffset : (endOffset v).toInt = (entryText v).length := by
  have hlen := length_entryText_le v
  rw [BitVec.toInt_eq_toNat_of_lt (by rw [toNat_endOffset]; omega), toNat_endOffset]

theorem endOffset_ne_zero : endOffset v ≠ 0 := by
  intro h
  have hlen := length_entryText_pos (v := v)
  rw [← toNat_endOffset, h] at hlen
  exact absurd hlen (by decide)

end Text

/-! ### One call -/

section Call

variable {v count : BitVec 64} {stack : ℕ → Byte}

theorem opsRead_of_neg (h : (count.setWidth 32).toInt < 0) : opsRead v stack count = (stack, 0) :=
  if_pos h

theorem opsRead_of_nonneg (h : 0 ≤ (count.setWidth 32).toInt) :
    opsRead v stack count = vinputVkbdRead v stack (count.setWidth 32).toNat :=
  if_neg (not_lt.mpr h)

theorem vinputRead_fst (offset : BitVec 64) : (vinputRead v stack count offset).1 =
    read (opsRead v stack count).1 offset.toNat
      (readCount (opsRead v stack count).2 count offset).toNat := rfl

theorem vinputRead_snd (offset : BitVec 64) : (vinputRead v stack count offset).2 =
    offset + readCount (opsRead v stack count).2 count offset := rfl

/-- A count that is negative as an `int` is large. -/
theorem vinputMaxLen_lt_of_neg (h : (count.setWidth 32).toInt < 0) : vinputMaxLen < count.toNat := by
  have hmod : count.toNat % 2 ^ 32 ≤ count.toNat := Nat.mod_le _ _
  rw [BitVec.toInt_neg_iff, BitVec.toNat_setWidth] at h
  rw [vinputMaxLen]
  omega

/-- If the text does not fit, there is a NUL in the place of one of its characters. -/
theorem snprintf_nul {text : List Byte} {size : ℕ} (h : size ≤ text.length) :
    (snprintf (fun _ => 0) size text).1 (size - 1) = 0 := by
  show (if size = 0 then fun _ => (0 : Byte) else
    write (fun _ => 0) 0 (text.take (size - 1) ++ [0])) (size - 1) = 0
  split
  · rfl
  · have hlen : (text.take (size - 1)).length = size - 1 := by
      rw [List.length_take]
      omega
    have hcell := getElem?_write (fun _ => (0 : Byte)) (text.take (size - 1) ++ [0])
      (Nat.zero_le (size - 1)) (by rw [List.length_append, hlen, List.length_singleton]; omega)
    rw [Nat.sub_zero, List.getElem?_append_right (by omega), hlen, Nat.sub_self] at hcell
    exact (Option.some.inj hcell).symm

/-- A large count at the start: the rest of the text is all of it. -/
theorem readCount_zero_of_large (h : vinputMaxLen < count.toNat) :
    readCount (entryText v).length count 0 = endOffset v := by
  have hadd : count + 0 = count := by simp
  rw [readCount, if_neg (by simp), hadd, if_pos h]
  simp [endOffset, BitVec.ofInt_natCast]

/-- A small count at the start is what is copied. -/
theorem readCount_zero_of_small (len : ℕ) (h : ¬vinputMaxLen < count.toNat) :
    readCount len count 0 = count := by
  have hadd : count + 0 = count := by simp
  rw [readCount, if_neg (by simp), hadd, if_neg h]

/-- As an `int`, a count below `2 ^ 31` is itself. -/
theorem int_of_small (h : ¬vinputMaxLen < count.toNat) :
    0 ≤ (count.setWidth 32).toInt ∧ (count.setWidth 32).toNat = count.toNat := by
  rw [vinputMaxLen] at h
  have hmod : (count.setWidth 32).toNat = count.toNat := by
    rw [BitVec.toNat_setWidth, Nat.mod_eq_of_lt (by omega)]
  refine ⟨?_, hmod⟩
  rw [BitVec.toInt_eq_toNat_of_lt (by omega)]
  omega

end Call

section Calls

variable {v : BitVec 64} {call : ReadCall}

/-- **The first call.** -/
theorem readsText_zero_iff : ReadsText v 0 call ↔
    0 ≤ (call.count.setWidth 32).toInt ∧ vinputMaxLen < call.count.toNat ∧
      (entryText v).length < (call.count.setWidth 32).toNat := by
  have hpos := length_entryText_pos (v := v)
  have hle := length_entryText_le v
  have hmax : vinputMaxLen = 128 := rfl
  constructor
  · intro h
    replace h : (vinputRead v (fun _ => 0) call.count 0).1 =
      (entryText v).take call.count.toNat := h fun _ => 0
    by_cases hneg : (call.count.setWidth 32).toInt < 0
    · -- `snprintf` refuses, and nothing is copied
      have hlarge := vinputMaxLen_lt_of_neg hneg
      have hcount : readCount 0 call.count 0 = 0 := by
        have hadd : call.count + 0 = call.count := by simp
        rw [readCount, if_neg (by simp), hadd, if_pos hlarge]
        rfl
      rw [vinputRead_fst, opsRead_of_neg hneg] at h
      replace h : read (fun _ => 0) 0 (readCount 0 call.count 0).toNat =
        (entryText v).take call.count.toNat := h
      have hlen := congrArg List.length h
      rw [hcount, length_read, List.length_take] at hlen
      replace hlen : 0 = min call.count.toNat (entryText v).length := hlen
      omega
    · replace hneg : 0 ≤ (call.count.setWidth 32).toInt := not_lt.mp hneg
      rw [vinputRead_fst, opsRead_of_nonneg hneg] at h
      replace h : read (vinputVkbdRead v (fun _ => 0) (call.count.setWidth 32).toNat).1 0
        (readCount (entryText v).length call.count 0).toNat =
          (entryText v).take call.count.toNat := h
      by_contra hwrong
      -- the text does not fit the size that `snprintf` is given, and its last cell is copied
      obtain ⟨hsize, hcopied⟩ : (call.count.setWidth 32).toNat ≤ (entryText v).length ∧
          (call.count.setWidth 32).toNat - 1 <
            (readCount (entryText v).length call.count 0).toNat := by
        by_cases hlarge : vinputMaxLen < call.count.toNat
        · rw [readCount_zero_of_large hlarge, toNat_endOffset]
          have hsize : ¬(entryText v).length < (call.count.setWidth 32).toNat :=
            fun hlt => hwrong ⟨hneg, hlarge, hlt⟩
          omega
        · have hcount := readCount_zero_of_small (entryText v).length hlarge
          have hlen := congrArg List.length h
          rw [hcount, length_read, List.length_take] at hlen
          have hne : call.count.toNat ≠ 0 := fun hzero => call.pos (BitVec.eq_of_toNat_eq hzero)
          rw [hcount, (int_of_small hlarge).2]
          omega
      have hcell := congrArg (fun bs => bs[(call.count.setWidth 32).toNat - 1]?) h
      simp only [getElem?_read _ _ hcopied, Nat.zero_add] at hcell
      have hmem := List.mem_of_mem_take (List.mem_of_getElem? hcell.symm)
      exact entryText_ne_zero _ hmem (snprintf_nul hsize)
  · rintro ⟨hneg, hlarge, hsize⟩ stack
    have htext := @read_snprintf stack _ (entryText v) hsize
    have htake : ((entryText v).drop (0 : BitVec 64).toNat).take call.count.toNat = entryText v :=
      List.take_of_length_le (by show (entryText v).length ≤ _; omega)
    rw [vinputRead_fst, opsRead_of_nonneg hneg, htake]
    show read _ 0 (readCount (entryText v).length call.count 0).toNat = _
    rw [readCount_zero_of_large hlarge, toNat_endOffset]
    exact htext

/-- Behind the text nothing is to be copied. -/
theorem readCount_end_eq_zero_iff :
    readCount (opsRead v call.stack call.count).2 call.count (endOffset v) = 0 ↔
      (call.count.setWidth 32).toInt < 0 ∨ vinputMaxLen < (call.count + endOffset v).toNat := by
  have hpos := length_entryText_pos (v := v)
  rw [readCount, toInt_endOffset]
  by_cases hneg : (call.count.setWidth 32).toInt < 0
  · rw [opsRead_of_neg hneg, if_pos (by exact_mod_cast hpos)]
    exact iff_of_true rfl (Or.inl hneg)
  · rw [opsRead_of_nonneg (not_lt.mp hneg), or_iff_right hneg]
    show (if ((entryText v).length : ℤ) < (entryText v).length then (0 : BitVec 64)
      else if vinputMaxLen < (call.count + endOffset v).toNat then
        BitVec.ofInt 64 ((entryText v).length - (entryText v).length) else call.count) = 0 ↔ _
    rw [if_neg (lt_irrefl _), Int.sub_self]
    by_cases hlarge : vinputMaxLen < (call.count + endOffset v).toNat
    · rw [if_pos hlarge]
      exact iff_of_true rfl hlarge
    · rw [if_neg hlarge]
      exact iff_of_false call.pos hlarge

/-- **A later call.** -/
theorem readsText_end_iff : ReadsText v (endOffset v) call ↔
    (call.count.setWidth 32).toInt < 0 ∨ vinputMaxLen < (call.count + endOffset v).toNat := by
  have hdrop : ((entryText v).drop (endOffset v).toNat).take call.count.toNat = [] := by
    rw [toNat_endOffset, List.drop_length, List.take_nil]
  have hlen : ∀ stack, (opsRead v stack call.count).2 = (opsRead v call.stack call.count).2 := by
    intro stack
    rw [opsRead, opsRead]
    split <;> rfl
  rw [← readCount_end_eq_zero_iff, ReadsText, hdrop]
  constructor
  · intro h
    have hnil := congrArg List.length (h call.stack)
    rw [vinputRead_fst, length_read, List.length_nil] at hnil
    exact BitVec.eq_of_toNat_eq hnil
  · intro h stack
    rw [vinputRead_fst, hlen stack, h]
    rfl

end Calls

/-! ### All calls on a file -/

/-- The offsets that occur. -/
def AtEnd (v offset : BitVec 64) : Prop := offset = 0 ∨ offset = endOffset v

theorem AtEnd.readsText_call {v offset : BitVec 64} {call : ReadCall} (h : AtEnd v offset) :
    ReadsText v offset call ↔ AsksEnough v offset call := by
  rw [AsksEnough]
  rcases h with rfl | rfl
  · rw [if_pos rfl]
    exact readsText_zero_iff
  · rw [if_neg endOffset_ne_zero]
    exact readsText_end_iff

/-- A call that asks for enough goes behind the text. -/
theorem AtEnd.next {v offset : BitVec 64} {call : ReadCall} (h : AtEnd v offset)
    (hC : AsksEnough v offset call) :
    (vinputRead v call.stack call.count offset).2 = endOffset v := by
  rw [AsksEnough] at hC
  rw [vinputRead_snd]
  rcases h with rfl | rfl
  · rw [if_pos rfl] at hC
    obtain ⟨hneg, hlarge, -⟩ := hC
    rw [opsRead_of_nonneg hneg]
    show 0 + readCount (entryText v).length call.count 0 = endOffset v
    rw [readCount_zero_of_large hlarge]
    simp
  · rw [if_neg endOffset_ne_zero] at hC
    rw [readCount_end_eq_zero_iff.mpr hC]
    simp

theorem AtEnd.step {v offset offset' : BitVec 64} {call : ReadCall} (h : AtEnd v offset)
    (hC : AsksEnough v offset call) (hstep : readStep v offset call = some offset') :
    AtEnd v offset' := by
  obtain rfl := Option.some.inj hstep
  exact Or.inr (h.next hC)

/-- **The last event is read exactly**, by every sequence of calls with positive counts on a file
that starts at offset 0, if and only if the first call asks for more than the buffer has and each
later one for more than what the text leaves of it. -/
theorem readsText_iff (lastEntry : BitVec 64) (calls : List ReadCall) :
    Along (readStep lastEntry) (ReadsText lastEntry) 0 calls ↔
      Along (readStep lastEntry) (AsksEnough lastEntry) 0 calls :=
  along_iff_along (I := AtEnd lastEntry) (fun _ _ _ h hC hstep => h.step hC hstep)
    (fun _ _ h => h.readsText_call) (Or.inl rfl)

/-- For the counts that fit an `int`, the condition is that count and offset together exceed the
buffer. -/
theorem AtEnd.asksEnough_iff {v offset : BitVec 64} {call : ReadCall} (h : AtEnd v offset)
    (hint : call.count.toNat < 2 ^ 31) :
    AsksEnough v offset call ↔ vinputMaxLen < call.count.toNat + offset.toNat := by
  have hle := length_entryText_le v
  have hmax : vinputMaxLen = 128 := rfl
  have hnat : (call.count.setWidth 32).toNat = call.count.toNat := by
    rw [BitVec.toNat_setWidth, Nat.mod_eq_of_lt (by omega)]
  have hnonneg : 0 ≤ (call.count.setWidth 32).toInt := by
    rw [BitVec.toInt_eq_toNat_of_lt (by omega)]
    omega
  rw [AsksEnough]
  rcases h with rfl | rfl
  · have hzero : (0 : BitVec 64).toNat = 0 := rfl
    rw [if_pos rfl, hnat, hzero, Nat.add_zero]
    constructor
    · exact fun hC => hC.2.1
    · exact fun hlarge => ⟨hnonneg, hlarge, by omega⟩
  · have hsum : (call.count + endOffset v).toNat = call.count.toNat + (endOffset v).toNat := by
      rw [BitVec.toNat_add, toNat_endOffset, Nat.mod_eq_of_lt (by omega)]
    rw [if_neg endOffset_ne_zero, hsum, or_iff_right (not_lt.mpr hnonneg)]

/-- What one call copies is what its step passes over. -/
theorem AtEnd.take_append {v offset offset' : BitVec 64} {call : ReadCall} (h : AtEnd v offset)
    (hC : AsksEnough v offset call) (hstep : readStep v offset call = some offset') :
    (entryText v).take offset.toNat ++ (vinputRead v call.stack call.count offset).1 =
      (entryText v).take offset'.toNat := by
  have hle := length_entryText_le v
  have hmax : vinputMaxLen = 128 := rfl
  obtain rfl := Option.some.inj hstep
  rw [h.next hC, h.readsText_call.mpr hC call.stack, toNat_endOffset, List.take_length]
  rw [AsksEnough] at hC
  rcases h with rfl | rfl
  · rw [if_pos rfl] at hC
    obtain ⟨-, hlarge, -⟩ := hC
    exact List.take_of_length_le (by show (entryText v).length ≤ _; omega)
  · rw [toNat_endOffset, List.take_length, List.drop_length, List.take_nil, List.append_nil]

/-- **Chunks.**  If every call asks for enough, what the calls copy concatenates to the text up to
the offset that has been reached. -/
theorem flatten_chunks {v offset : BitVec 64} {calls : List ReadCall}
    (hC : Along (readStep v) (AsksEnough v) 0 calls)
    (hrun : run (readStep v) 0 calls = some offset) :
    (events (readStep v) (fun o call => [(vinputRead v call.stack call.count o).1]) 0
      calls).flatten = (entryText v).take offset.toNat := by
  have hfrom : ∀ (calls : List ReadCall) (o : BitVec 64), AtEnd v o →
      Along (readStep v) (AsksEnough v) o calls → run (readStep v) o calls = some offset →
      (entryText v).take o.toNat ++ (events (readStep v)
        (fun o call => [(vinputRead v call.stack call.count o).1]) o calls).flatten =
          (entryText v).take offset.toNat := by
    intro calls
    induction calls with
    | nil =>
        intro o _ _ hrun
        obtain rfl := Option.some.inj hrun
        exact List.append_nil _
    | cons call calls ih =>
        intro o ho hC hrun
        obtain ⟨o', ho', hrest⟩ := run_cons_eq_some.mp hrun
        rw [events, ho', Option.elim_some, List.flatten_append, List.flatten_singleton,
          ← List.append_assoc, ho.take_append hC.1 ho']
        exact ih o' (ho.step hC.1 ho') (hC.2 o' ho') hrest
  exact hfrom calls 0 (Or.inl rfl) hC hrun

/-- The key 34 has been pressed, and 16 bytes are asked for. -/
theorem not_readsText_sixteen :
    ¬Along (readStep 34) (ReadsText 34) 0 [⟨16, by decide, fun _ => 0⟩] := by
  intro h
  have hlen := congrArg List.length (h.1 fun _ => 0)
  exact absurd hlen (by decide +kernel)

end Lkmpg.Vkbd
