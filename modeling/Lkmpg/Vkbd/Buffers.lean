import Lkmpg.Lib.BoundedBuffer
import Lkmpg.Vkbd.Read

/-!
# The buffers of `vinput_read` and `vinput_write`

Both functions work on a buffer of 129 bytes on their stack.  `vinput_read` lets the printing function
believe that the buffer has the size that the caller asks for, and copies from an offset that the
caller chooses; `vinput_write` copies as many bytes into it as the caller passes, and the parser reads
up to the first NUL.  Here every access is checked against the size of the buffer, and none fails: a
printed value is short, and what is copied in leaves at least one of the zeros.
-/

namespace Lkmpg.Vkbd

open CString LinearMem BoundedBuffer

/-- `char buff[VINPUT_MAX_LEN + 1]` -/
def buffSize : ℕ := vinputMaxLen + 1

/-! ### Reading -/

/-- `vinput_vkbd_read` -/
def vinputVkbdReadIn (lastEntry : BitVec 64) (buff : ℕ → Byte) (len : ℕ) :
    Option ((ℕ → Byte) × ℕ) :=
  snprintfIn buffSize buff len (entryText lastEntry)

/-- `ops->read(vinput, buff, count)` -/
def opsReadIn (lastEntry : BitVec 64) (stack : ℕ → Byte) (count : BitVec 64) :
    Option ((ℕ → Byte) × ℕ) :=
  if (count.setWidth 32).toInt < 0 then some (stack, 0)
  else vinputVkbdReadIn lastEntry stack (count.setWidth 32).toNat

/-- What `vinput_read` returns, what it has copied to the user, and `*offset` after it. -/
structure ReadOutcome where
  ret : Except Errno (BitVec 64)
  copied : List Byte
  offset : BitVec 64

/-- `vinput_read`; `raw_copy_to_user` gets as far as `copied`. -/
def vinputReadIn (lastEntry : BitVec 64) (stack : ℕ → Byte) (copied : ℕ)
    (count offset : BitVec 64) : Option ReadOutcome :=
  (opsReadIn lastEntry stack count).bind fun (buff, len) =>
    (loadIn buffSize buff offset.toNat (readCount len count offset).toNat).map fun bytes =>
      if copied < (readCount len count offset).toNat then ⟨.error .EFAULT, bytes.take copied, offset⟩
      else ⟨.ok (readCount len count offset), bytes, offset + readCount len count offset⟩

/-- The counts and offsets that the VFS admits. -/
structure VfsRead where
  count : BitVec 64
  offset : BitVec 64
  count_le : count.toNat ≤ 0x7ffff000
  offset_nonneg : 0 ≤ offset.toInt

/-! ### Writing -/

/-- The call of `kstrtol` -/
def parseKeyIn (buff : List Byte) : Option (Except Errno ℤ) :=
  buff.head?.bind fun c => if c = 0x2b then kstrtolIn buff.tail else kstrtolIn buff

/-- `vinput_vkbd_send` -/
def vinputVkbdSendIn (buff : List Byte) (len : ℕ) : Option Sent :=
  (parseKeyIn buff).map fun
    | .error e => ⟨some e, 0, keyReport 0, len⟩
    | .ok key => ⟨none, BitVec.ofInt 64 key, keyReport (BitVec.ofInt 64 key), len⟩

/-- What `vinput_write` returns, what it has copied from the user, and the buffer that it has handed
to `vinput_vkbd_send`. -/
structure WriteOutcome where
  ret : Except Errno Sent
  copied : List Byte
  handed : Option (List Byte)

/-- `vinput_write`; `raw_copy_from_user` gets as far as `copied`. -/
def vinputWriteIn (stack user : ℕ → Byte) (copied : ℕ) (count : BitVec 64) : Option WriteOutcome :=
  (storeIn buffSize stack 0 (List.replicate buffSize 0)).bind fun buff =>
    if vinputMaxLen < count.toNat then some ⟨.error .EINVAL, [], none⟩
    else
      (storeIn buffSize buff 0 (read user 0 (min copied count.toNat))).bind fun buff =>
        if copied < count.toNat then
          some ⟨.error .EFAULT, read user 0 (min copied count.toNat), none⟩
        else
          (vinputVkbdSendIn (read buff 0 buffSize) count.toNat).map fun sent =>
            ⟨.ok sent, read user 0 (min copied count.toNat), some (read buff 0 buffSize)⟩

/-! ### What is promised -/

/-- The read returns at most as much as is asked for, and advances the offset by it. -/
def ReadOutcome.Advances (out : ReadOutcome) (call : VfsRead) : Prop :=
  ∃ n : BitVec 64, out.ret = .ok n ∧ n.toNat ≤ call.count.toNat ∧
    out.offset.toNat = call.offset.toNat + n.toNat ∧ out.copied.length = n.toNat

/-- The read has failed in `raw_copy_to_user`. -/
def ReadOutcome.Faults (out : ReadOutcome) (call : VfsRead) (copied : ℕ) : Prop :=
  out.ret = .error .EFAULT ∧ copied < call.count.toNat ∧ out.offset = call.offset ∧
    out.copied.length ≤ copied

/-- The write returns `-EINVAL` without copying, or hands over a string that ends inside the
buffer. -/
def WriteOutcome.Refuses (out : WriteOutcome) : Prop :=
  out.ret = .error .EINVAL ∧ out.copied = [] ∧ out.handed = none

def WriteOutcome.Hands (out : WriteOutcome) : Prop :=
  ∃ buff, out.handed = some buff ∧ buff.length = buffSize ∧ 0 ∈ buff

/-- The write has failed in `raw_copy_from_user`. -/
def WriteOutcome.Faults (out : WriteOutcome) (count : BitVec 64) (copied : ℕ) : Prop :=
  out.ret = .error .EFAULT ∧ copied < count.toNat ∧ out.handed = none

/-! ### One read -/

section Read

variable {v : BitVec 64} {stack : ℕ → Byte}

/-- The printing function stays inside the buffer, for any count. -/
theorem opsReadIn_eq (v : BitVec 64) (stack : ℕ → Byte) (count : BitVec 64) :
    opsReadIn v stack count = some (opsRead v stack count) := by
  have htext := length_entryText_le v
  rw [opsReadIn, opsRead]
  split
  · rfl
  · exact snprintfIn_of_lt (Nat.lt_of_le_of_lt htext (by decide))

theorem VfsRead.toInt_count (call : VfsRead) : 0 ≤ (call.count.setWidth 32).toInt := by
  have hcount := call.count_le
  have hmod : (call.count.setWidth 32).toNat = call.count.toNat := by
    rw [BitVec.toNat_setWidth, Nat.mod_eq_of_lt (by omega)]
  rw [BitVec.toInt_eq_toNat_of_lt (by omega)]
  omega

theorem VfsRead.offset_lt (call : VfsRead) : call.offset.toNat < 2 ^ 63 := by
  have hneg : ¬ call.offset.toInt < 0 := not_lt.mpr call.offset_nonneg
  rw [BitVec.toInt_neg_iff] at hneg
  omega

theorem VfsRead.toInt_offset (call : VfsRead) : call.offset.toInt = call.offset.toNat := by
  have hlt := call.offset_lt
  exact BitVec.toInt_eq_toNat_of_lt (by omega)

theorem opsRead_snd (call : VfsRead) : (opsRead v stack call.count).2 = (entryText v).length := by
  rw [opsRead_of_nonneg call.toInt_count]
  rfl

/-- **The three branches.**  What is copied is not more than is asked for, and ends inside the
buffer. -/
theorem readCount_within {len : ℕ} (hlen : len ≤ vinputMaxLen) (call : VfsRead) :
    (readCount len call.count call.offset).toNat ≤ call.count.toNat ∧
      ((readCount len call.count call.offset).toNat = 0 ∨
        call.offset.toNat + (readCount len call.count call.offset).toNat ≤ buffSize) := by
  have hcount := call.count_le
  have hoffset := call.toInt_offset
  have hlt := call.offset_lt
  have hadd : (call.count + call.offset).toNat = call.count.toNat + call.offset.toNat := by
    rw [BitVec.toNat_add, Nat.mod_eq_of_lt (by omega)]
  have hsize : buffSize = vinputMaxLen + 1 := rfl
  rw [readCount, hadd]
  split
  · exact ⟨Nat.zero_le _, Or.inl rfl⟩
  · rename_i hle
    rw [hoffset, Int.not_lt, Int.ofNat_le] at hle
    split
    · -- what is left of the text, which is less than what is left of the buffer
      rename_i hlarge
      have hmax : vinputMaxLen = 128 := rfl
      have hrest : (BitVec.ofInt 64 (len - call.offset.toInt)).toNat = len - call.offset.toNat := by
        rw [hoffset, ← Int.ofNat_sub hle, BitVec.ofInt_natCast, BitVec.toNat_ofNat,
          Nat.mod_eq_of_lt (by omega)]
      rw [hrest]
      omega
    · rename_i hsmall
      omega

/-- The checked read does what the one without checks does, as long as user memory does not fault. -/
theorem vinputReadIn_eq (v : BitVec 64) (stack : ℕ → Byte) (copied : ℕ) (call : VfsRead) :
    vinputReadIn v stack copied call.count call.offset =
      some (if copied < (readCount (entryText v).length call.count call.offset).toNat then
          ⟨.error .EFAULT, (vinputRead v stack call.count call.offset).1.take copied, call.offset⟩
        else
          ⟨.ok (readCount (entryText v).length call.count call.offset),
            (vinputRead v stack call.count call.offset).1,
            (vinputRead v stack call.count call.offset).2⟩) := by
  have hwithin := readCount_within (Nat.le_trans (length_entryText_le v) (by decide)) call
  obtain ⟨⟨buff, len⟩, hops⟩ : ∃ out, opsRead v stack call.count = out := ⟨_, rfl⟩
  obtain rfl : len = (entryText v).length := by
    rw [← @opsRead_snd v stack call, hops]
  rw [vinputReadIn, opsReadIn_eq, vinputRead_fst, vinputRead_snd, hops, Option.bind_some]
  show (loadIn buffSize buff _ _).map _ = _
  rw [loadIn_of_le hwithin.2, Option.map_some]

/-- **Read.**  No access is outside of the buffer, and the offset goes along with what is returned,
unless `raw_copy_to_user` fails. -/
theorem read_within (v : BitVec 64) (stack : ℕ → Byte) (copied : ℕ) (call : VfsRead) :
    ∃ out, vinputReadIn v stack copied call.count call.offset = some out ∧
      (out.Advances call ∨ out.Faults call copied) := by
  obtain ⟨hle, hinside⟩ := readCount_within (Nat.le_trans (length_entryText_le v) (by decide)) call
  have hsnd : (opsRead v stack call.count).2 = (entryText v).length := opsRead_snd call
  refine ⟨_, vinputReadIn_eq v stack copied call, ?_⟩
  split
  · rename_i hfault
    refine Or.inr ⟨rfl, Nat.lt_of_lt_of_le hfault hle, rfl, ?_⟩
    exact List.length_take_le _ _
  · refine Or.inl ⟨_, rfl, hle, ?_, ?_⟩
    · show (vinputRead v stack call.count call.offset).2.toNat = _
      have hoffset := call.offset_lt
      have hcount := call.count_le
      rw [vinputRead_snd, hsnd, BitVec.toNat_add, Nat.mod_eq_of_lt (by omega)]
    · show (vinputRead v stack call.count call.offset).1.length = _
      rw [vinputRead_fst, hsnd, length_read]

end Read

/-! ### One write -/

section Write

variable {buff : List Byte}

theorem parseKeyIn_of_nul (h : 0 ∈ buff) : parseKeyIn buff = some (parseKey buff) := by
  rw [parseKeyIn, parseKey, head?_of_nul h, Option.bind_some]
  by_cases hplus : buff.headD 0 = 0x2b
  · -- the string that begins at `buff + 1` has the same terminator
    have htail := nul_mem_skip h (c := 0x2b) (by decide)
    rw [if_pos hplus] at htail
    rw [if_pos hplus, if_pos hplus, kstrtolIn_of_nul htail]
  · rw [if_neg hplus, if_neg hplus, kstrtolIn_of_nul h]

/-- With a terminator in the buffer, sending does what it does without checks. -/
theorem vinputVkbdSendIn_of_nul (h : 0 ∈ buff) (len : ℕ) :
    vinputVkbdSendIn buff len = some (vinputVkbdSend buff len) := by
  rw [vinputVkbdSendIn, parseKeyIn_of_nul h]
  rfl

/-- What is handed over: the bytes of the user and the zeros behind them. -/
def padded (bs : List Byte) : List Byte := bs ++ List.replicate (buffSize - bs.length) 0

theorem length_padded {bs : List Byte} (h : bs.length ≤ vinputMaxLen) :
    (padded bs).length = buffSize := by
  have hsize : buffSize = vinputMaxLen + 1 := rfl
  rw [padded, List.length_append, List.length_replicate]
  omega

theorem nul_mem_padded {bs : List Byte} (h : bs.length ≤ vinputMaxLen) : 0 ∈ padded bs := by
  have hsize : buffSize = vinputMaxLen + 1 := rfl
  refine List.mem_append_right bs (List.mem_replicate.mpr ⟨?_, rfl⟩)
  omega

/-- The checked write does what the one without checks does. -/
theorem vinputWriteIn_eq (stack user : ℕ → Byte) (copied : ℕ) (count : BitVec 64) :
    vinputWriteIn stack user copied count =
      some (if vinputMaxLen < count.toNat then ⟨.error .EINVAL, [], none⟩
        else if copied < count.toNat then
          ⟨.error .EFAULT, read user 0 (min copied count.toNat), none⟩
        else
          ⟨.ok (vinputVkbdSend (padded (read user 0 count.toNat)) count.toNat),
            read user 0 count.toNat, some (padded (read user 0 count.toNat))⟩) := by
  have hsize : buffSize = vinputMaxLen + 1 := rfl
  have hmemset : storeIn buffSize stack 0 (List.replicate buffSize 0) =
      some (write stack 0 (List.replicate buffSize 0)) :=
    storeIn_of_le (by rw [List.length_replicate, Nat.zero_add])
  rw [vinputWriteIn, hmemset, Option.bind_some]
  by_cases hlarge : vinputMaxLen < count.toNat
  · rw [if_pos hlarge, if_pos hlarge]
  · have hfits : (read user 0 (min copied count.toNat)).length ≤ buffSize := by
      rw [length_read]
      omega
    rw [if_neg hlarge, if_neg hlarge, storeIn_of_le (by rwa [Nat.zero_add]), Option.bind_some]
    by_cases hfault : copied < count.toNat
    · rw [if_pos hfault, if_pos hfault]
    · have hall : min copied count.toNat = count.toNat := by omega
      have hlen : (read user 0 count.toNat).length ≤ vinputMaxLen := by
        rw [length_read]
        omega
      rw [hall] at hfits
      rw [if_neg hfault, if_neg hfault, hall, read_write_replicate _ _ hfits]
      show (vinputVkbdSendIn (padded (read user 0 count.toNat)) count.toNat).map _ = _
      rw [vinputVkbdSendIn_of_nul (nul_mem_padded hlen)]
      rfl

/-- What it returns is what `vinputWrite` says. -/
theorem vinputWriteIn_ret {stack user : ℕ → Byte} {copied : ℕ} {count : BitVec 64}
    {out : WriteOutcome} (h : vinputWriteIn stack user copied count = some out) :
    out.ret = vinputWrite (read user 0 count.toNat) (decide (copied < count.toNat)) := by
  rw [vinputWriteIn_eq] at h
  obtain rfl := Option.some.inj h
  rw [vinputWrite, length_read]
  split
  · rfl
  · by_cases hfault : copied < count.toNat
    · rw [if_pos hfault, if_pos (decide_eq_true hfault)]
    · rw [if_neg hfault, if_neg (by simpa using hfault)]
      rw [padded, length_read]
      rfl

/-- **Write.**  No access is outside of the buffer, and what is handed over ends inside it, unless
`raw_copy_from_user` fails. -/
theorem write_within (stack user : ℕ → Byte) (copied : ℕ) (count : BitVec 64) :
    ∃ out, vinputWriteIn stack user copied count = some out ∧
      (out.Refuses ∨ out.Hands ∨ out.Faults count copied) := by
  refine ⟨_, vinputWriteIn_eq stack user copied count, ?_⟩
  split
  · exact Or.inl ⟨rfl, rfl, rfl⟩
  · rename_i hsmall
    split
    · rename_i hfault
      exact Or.inr (Or.inr ⟨rfl, hfault, rfl⟩)
    · have hlen : (read user 0 count.toNat).length ≤ vinputMaxLen := by
        rw [length_read]
        omega
      exact Or.inr (Or.inl ⟨_, rfl, length_padded hlen, nul_mem_padded hlen⟩)

end Write

/-- **Buffers.**  For every value, count and offset that the VFS admits, whatever is on the stack and
however far the copies to and from the user get: all accesses are inside of the buffers; a read
advances the offset by what it returns, or fails in its copy; and a write refuses, fails in its copy,
or hands over a string that ends inside the buffer. -/
theorem buffers_within :
    (∀ (v : BitVec 64) (stack : ℕ → Byte) (copied : ℕ) (call : VfsRead),
      ∃ out, vinputReadIn v stack copied call.count call.offset = some out ∧
        (out.Advances call ∨ out.Faults call copied)) ∧
    ∀ (stack user : ℕ → Byte) (copied : ℕ) (count : BitVec 64),
      ∃ out, vinputWriteIn stack user copied count = some out ∧
        (out.Refuses ∨ out.Hands ∨ out.Faults count copied) :=
  ⟨read_within, write_within⟩

/-- The first 16 bytes. -/
def firstRead : VfsRead := ⟨16, 0, by decide, by decide⟩

theorem buffers_within_firstRead :
    ∃ out, vinputReadIn 34 (fun _ => 0) 16 firstRead.count firstRead.offset = some out ∧
      out.Advances firstRead := by
  obtain ⟨out, hout, hadvances | hfaults⟩ := buffers_within.1 34 (fun _ => 0) 16 firstRead
  · exact ⟨out, hout, hadvances⟩
  · exact absurd hfaults.2.1 (by decide)

/-- A write of one byte that cannot be copied. -/
theorem not_all_handed :
    ¬ ((∀ (v : BitVec 64) (stack : ℕ → Byte) (copied : ℕ) (call : VfsRead),
        ∃ out, vinputReadIn v stack copied call.count call.offset = some out ∧
          out.Advances call) ∧
      ∀ (stack user : ℕ → Byte) (copied : ℕ) (count : BitVec 64),
        ∃ out, vinputWriteIn stack user copied count = some out ∧ (out.Refuses ∨ out.Hands)) := by
  rintro ⟨-, h⟩
  obtain ⟨out, hout, hcase⟩ := h (fun _ => 0) (fun _ => 0) 0 1
  rw [vinputWriteIn_eq, if_neg (by decide), if_pos (by decide)] at hout
  obtain rfl := Option.some.inj hout
  obtain ⟨hret, -⟩ | ⟨buff, hbuff, -⟩ := hcase
  · cases hret
  · cases hbuff

end Lkmpg.Vkbd
