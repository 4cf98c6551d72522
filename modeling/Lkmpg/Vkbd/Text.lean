import Lkmpg.Lib.CString

/-!
# The text of `vkbd.c`

`vinput_vkbd_read` prints `last_entry` with its sign and a newline; `vinput_vkbd_send` reads such a
text back, taking a `+` off itself and leaving a `-` to `kstrtol`.  In between is `vinput_write`,
which pads what has been written with NULs.
-/

namespace Lkmpg.Vkbd

open CString LinearMem

/-- `VINPUT_MAX_LEN` -/
def vinputMaxLen : ℕ := 128

/-- `VINPUT_RELEASE` -/
def vinputRelease : ℕ := 0

/-- `VINPUT_PRESS` -/
def vinputPress : ℕ := 1

/-! ### Reading -/

/-- The text for a value of `last_entry`. -/
def entryText (lastEntry : BitVec 64) : List Byte := decimalSigned lastEntry.toInt ++ [0x0a]

/-- `vinput_vkbd_read`: the buffer after it, and what it returns. -/
def vinputVkbdRead (lastEntry : BitVec 64) (buff : ℕ → Byte) (len : ℕ) : (ℕ → Byte) × ℕ :=
  snprintf buff len (entryText lastEntry)

/-! ### Sending -/

/-- The arguments of `input_report_key`; `code` is an `unsigned int`. -/
structure KeyReport where
  code : BitVec 32
  value : ℕ
  deriving DecidableEq

/-- The report for a value of the local variable `key`. -/
def keyReport (key : BitVec 64) : KeyReport :=
  if key.toInt < 0 then ⟨(-key).setWidth 32, vinputRelease⟩ else ⟨key.setWidth 32, vinputPress⟩

/-- What one `vinput_vkbd_send` does. -/
structure Sent where
  /-- the error of `kstrtol`, which is only logged -/
  error : Option Errno
  lastEntry : BitVec 64
  report : KeyReport
  /-- what it returns -/
  len : ℕ
  deriving DecidableEq

/-- The call of `kstrtol` -/
def parseKey (buff : List Byte) : Except Errno ℤ :=
  if buff.headD 0 = 0x2b then kstrtol buff.tail else kstrtol buff

/-- `vinput_vkbd_send`; where `kstrtol` fails `key` keeps its initial value 0. -/
def vinputVkbdSend (buff : List Byte) (len : ℕ) : Sent :=
  match parseKey buff with
  | .error e => ⟨some e, 0, keyReport 0, len⟩
  | .ok key => ⟨none, BitVec.ofInt 64 key, keyReport (BitVec.ofInt 64 key), len⟩

/-- `vinput_write` of the bytes that a process passes; `fault` is whether `raw_copy_from_user` fails
to copy all of them. -/
def vinputWrite (buffer : List Byte) (fault : Bool) : Except Errno Sent :=
  if vinputMaxLen < buffer.length then .error .EINVAL
  else if fault then .error .EFAULT
  else .ok (vinputVkbdSend (buffer ++ List.replicate (vinputMaxLen + 1 - buffer.length) 0)
    buffer.length)

/-! ### The round trip -/

theorem length_entryText_le (v : BitVec 64) : (entryText v).length ≤ 21 := by
  have hlt := BitVec.toInt_lt (x := v)
  have hle := BitVec.le_toInt (x := v)
  rw [entryText, List.length_append, List.length_singleton, decimalSigned]
  split <;> rw [List.length_cons]
  · have hlen : (decimalNat v.toInt.natAbs).length ≤ 19 := length_decimalNat_le (by omega) (by omega)
    omega
  · have hlen : (decimalNat v.toInt.toNat).length ≤ 19 := length_decimalNat_le (by omega) (by omega)
    omega

/-- A printed value, followed by NULs, is parsed. -/
theorem parseKey_entryText (v : BitVec 64) {pad : List Byte} (hpad : pad.headD 0 = 0) :
    parseKey (entryText v ++ pad) = .ok v.toInt := by
  have hlt := BitVec.toInt_lt (x := v)
  have hle := BitVec.le_toInt (x := v)
  rw [parseKey, entryText, List.append_assoc]
  show (if (decimalSigned v.toInt ++ 0x0a :: pad).headD 0 = 0x2b then
    kstrtol (decimalSigned v.toInt ++ 0x0a :: pad).tail
      else kstrtol (decimalSigned v.toInt ++ 0x0a :: pad)) = _
  by_cases hneg : v.toInt < 0
  · rw [decimalSigned, if_pos hneg, List.cons_append, List.headD_cons, if_neg (by decide),
      kstrtol_minus_decimalNat (by omega) hpad]
    exact congrArg Except.ok (by omega)
  · rw [decimalSigned, if_neg hneg, List.cons_append, List.headD_cons, if_pos rfl, List.tail_cons,
      kstrtol_decimalNat (by omega) hpad]
    exact congrArg Except.ok (by omega)

/-- What writing a printed value back does. -/
theorem vinputWrite_entryText (v : BitVec 64) :
    vinputWrite (entryText v) false = .ok ⟨none, v, keyReport v, (entryText v).length⟩ := by
  have hlen := length_entryText_le v
  have hmax : vinputMaxLen = 128 := rfl
  have hpad : (List.replicate (vinputMaxLen + 1 - (entryText v).length) (0 : Byte)).headD 0 = 0 := by
    cases vinputMaxLen + 1 - (entryText v).length <;> rfl
  rw [vinputWrite, if_neg (by omega), if_neg Bool.false_ne_true, vinputVkbdSend,
    parseKey_entryText v hpad]
  simp only [BitVec.ofInt_toInt]

/-- **Round trip.**  Where the buffer is large enough, the text that `vinput_vkbd_read` produces for
a value of `last_entry` is taken by `vinput_write` without a conversion error, and sets `last_entry`
to that value again; so the next read produces the same text. -/
theorem vkbd_round_trip (v : BitVec 64) (buff buff' : ℕ → Byte) {len len' : ℕ}
    (h : (vinputVkbdRead v buff len).2 < len) (h' : (vinputVkbdRead v buff' len').2 < len') :
    ∃ sent, vinputWrite (read (vinputVkbdRead v buff len).1 0 (vinputVkbdRead v buff len).2) false =
        .ok sent ∧
      sent.error = none ∧ sent.lastEntry = v ∧
      sent.len = (vinputVkbdRead v buff len).2 ∧
      read (vinputVkbdRead sent.lastEntry buff' len').1 0
          (vinputVkbdRead sent.lastEntry buff' len').2 =
        read (vinputVkbdRead v buff len).1 0 (vinputVkbdRead v buff len).2 := by
  have htext := read_snprintf buff h
  have htext' := read_snprintf buff' h'
  refine ⟨⟨none, v, keyReport v, (entryText v).length⟩, ?_, rfl, rfl, rfl, htext'.trans htext.symm⟩
  rw [← vinputWrite_entryText v]
  exact congrArg (vinputWrite · false) htext

/-- The least value of `last_entry`, in the buffer of `vinput_read`. -/
theorem vkbd_round_trip_min :
    ∃ sent, vinputWrite (read (vinputVkbdRead (BitVec.intMin 64) (fun _ => 0) 129).1 0
        (vinputVkbdRead (BitVec.intMin 64) (fun _ => 0) 129).2) false = .ok sent ∧
      sent.lastEntry = BitVec.intMin 64 := by
  have hroom : (vinputVkbdRead (BitVec.intMin 64) (fun _ => 0) 129).2 < 129 :=
    Nat.lt_of_le_of_lt (length_entryText_le _) (by decide)
  obtain ⟨sent, hsent, -, hentry, -⟩ := vkbd_round_trip (BitVec.intMin 64) _ _ hroom hroom
  exact ⟨sent, hsent, hentry⟩

end Lkmpg.Vkbd
