import Lkmpg.Chardev2.Bounds
import Lkmpg.Chardev2.Readback
import Lkmpg.Lib.CString

/-!
# The message byte by byte

`ioctl_get_nth_byte` of `userspace_ioctl.c` asks for `message[0]`, `message[1]`, ... until it is
given 0 or a negative number.  The handler returns the byte as a `long`, so where `char` is signed
half of the bytes look like errors; and the loop prints each byte before it tests it, the terminator
included.
-/

namespace Lkmpg.Chardev2

open CString LinearMem StringStream Transition Uninterrupted

variable {σ : Type} [DecidableEq σ]

/-! ### `ioctl_get_nth_byte` -/

/-- The text of `printf` when the call for the `i`'th byte has failed. -/
def nthByteFailed (i : ℕ) : List Byte :=
  bytes "\nioctl_get_nth_byte failed at the " ++ decimal i ++ bytes "'th byte:\n"

/-- The loop of `ioctl_get_nth_byte`, at most `fuel` rounds of it: what it has printed, and what it
returns.  `ioctlResult` is what `ioctl(2)` makes of the result of the handler. -/
def nthByteLoop (ioctlResult : ℤ → ℤ) (signedChar : Bool) (space : σ) :
    ℕ → Data σ → ℕ → List Byte → Option (List Byte × ℤ)
  | 0, _, _, _ => none
  | fuel + 1, d, i, out =>
      let after := ioctlAtomic signedChar ⟨space, BitVec.ofNat 64 i⟩ d (ioctlSwitch ioctlGetNthByte)
      let c := ioctlResult after.2
      if c < 0 then some (out ++ nthByteFailed (i + 1), c)
      else if c ≠ 0 then
        nthByteLoop ioctlResult signedChar space fuel after.1 (i + 1) (out ++ [BitVec.ofInt 8 c])
      else some (out ++ [BitVec.ofInt 8 c], 0)

def nthByteHeader : List Byte := bytes "get_nth_byte message:"

/-- `ioctl_get_nth_byte`, at most `fuel` rounds of it -/
def ioctlGetNthByteUser (ioctlResult : ℤ → ℤ) (signedChar : Bool) (space : σ) (fuel : ℕ)
    (d : Data σ) : Option (List Byte × ℤ) :=
  nthByteLoop ioctlResult signedChar space fuel d 0 nthByteHeader

/-- `ioctl(2)` hands on what the handler returns, except that it may return another negative number
for a negative one. -/
structure HandsOn (ioctlResult : ℤ → ℤ) : Prop where
  neg : ∀ ret, ret < 0 → ioctlResult ret < 0
  byte : ∀ ret, 0 ≤ ret → ret < 256 → ioctlResult ret = ret

/-- The byte is not negative as a `char`. -/
def Plain (signedChar : Bool) (c : Byte) : Prop := signedChar = true → c.toNat < 128

section Loop

variable {ioctlResult : ℤ → ℤ} {signedChar : Bool} {space : σ} {d : Data σ} {t out : List Byte}
  {c : Byte} {fuel i : ℕ}

/-! ### One round -/

theorem charToLong_of_plain (h : Plain signedChar c) : charToLong signedChar c = c.toNat := by
  rw [charToLong]
  split
  · rename_i hsigned
    have hlt := h hsigned
    rw [BitVec.toInt_eq_toNat_cond, if_pos (by omega)]
  · rfl

theorem charToLong_neg (h : ¬Plain signedChar c) : charToLong signedChar c < 0 := by
  rw [Plain, Classical.not_imp] at h
  rw [charToLong, if_pos h.1, BitVec.toInt_eq_toNat_cond, if_neg (by omega)]
  have hlt := c.isLt
  omega

theorem ioctlAtomic_getNthByte (hi : i < 2 ^ 64) :
    ioctlAtomic signedChar ⟨space, BitVec.ofNat 64 i⟩ d (ioctlSwitch ioctlGetNthByte) =
      (d, charToLong signedChar (d.message i)) := by
  have hcost := ioctlStep_decreasing signedChar ⟨space, BitVec.ofNat 64 i⟩
  have hstep : ioctlStep signedChar ⟨space, BitVec.ofNat 64 i⟩ d .getNthByte =
      some (d, .done (charToLong signedChar (d.message i))) := by
    rw [ioctlStep, BitVec.toNat_ofNat, Nat.mod_eq_of_lt hi]
  have hall : complete (ioctlStep signedChar ⟨space, BitVec.ofNat 64 i⟩) IoctlPc.cost d
      (ioctlSwitch ioctlGetNthByte) = (d, .done (charToLong signedChar (d.message i))) := by
    show complete _ _ d IoctlPc.getNthByte = _
    rw [← complete_of_step hcost hstep]
    exact complete_of_none rfl
  rw [ioctlAtomic, hall]
  rfl

/-- What `ioctl(2)` returns for a byte that is not negative. -/
theorem HandsOn.plain (h : HandsOn ioctlResult) (hc : Plain signedChar c) :
    ioctlResult (charToLong signedChar c) = c.toNat := by
  rw [charToLong_of_plain hc]
  have hlt := c.isLt
  exact h.byte _ (by omega) (by omega)

theorem nthByteLoop_plain (h : HandsOn ioctlResult) (hi : i < 2 ^ 64)
    (hc : Plain signedChar (d.message i)) :
    nthByteLoop ioctlResult signedChar space (fuel + 1) d i out =
      if d.message i ≠ 0 then
        nthByteLoop ioctlResult signedChar space fuel d (i + 1) (out ++ [d.message i])
      else some (out ++ [d.message i], 0) := by
  have hput : BitVec.ofInt 8 ((d.message i).toNat : ℤ) = d.message i := by
    rw [BitVec.ofInt_natCast, BitVec.ofNat_toNat, BitVec.setWidth_eq]
  have hzero : ((d.message i).toNat : ℤ) ≠ 0 ↔ d.message i ≠ 0 := by
    rw [Ne, Int.natCast_eq_zero, Ne, ← BitVec.toNat_inj]
    rfl
  rw [nthByteLoop, ioctlAtomic_getNthByte hi]
  simp only [h.plain hc, hput, hzero, if_neg (show ¬((d.message i).toNat : ℤ) < 0 by omega)]

theorem nthByteLoop_negative (h : HandsOn ioctlResult) (hi : i < 2 ^ 64)
    (hc : ¬Plain signedChar (d.message i)) :
    nthByteLoop ioctlResult signedChar space (fuel + 1) d i out =
      some (out ++ nthByteFailed (i + 1), ioctlResult (charToLong signedChar (d.message i))) := by
  rw [nthByteLoop, ioctlAtomic_getNthByte hi]
  exact if_pos (h.neg _ (charToLong_neg hc))

/-! ### The loop -/

/-- More rounds than enough change nothing. -/
theorem nthByteLoop_mono {res : List Byte × ℤ}
    (h : nthByteLoop ioctlResult signedChar space fuel d i out = some res) {more : ℕ}
    (hle : fuel ≤ more) : nthByteLoop ioctlResult signedChar space more d i out = some res := by
  induction fuel generalizing d i out more with
  | zero => cases h
  | succ fuel ih =>
      obtain ⟨more, rfl⟩ : ∃ n, more = n + 1 := ⟨more - 1, by omega⟩
      rw [nthByteLoop] at h ⊢
      split
      · rename_i hneg
        rw [if_pos hneg] at h
        exact h
      · rename_i hneg
        rw [if_neg hneg] at h
        split
        · rename_i hzero
          rw [if_pos hzero] at h
          exact ih h (by omega)
        · rename_i hzero
          rw [if_neg hzero] at h
          exact h

theorem nthByteLoop_unique {res res' : List Byte × ℤ} {fuel' : ℕ}
    (h : nthByteLoop ioctlResult signedChar space fuel d i out = some res)
    (h' : nthByteLoop ioctlResult signedChar space fuel' d i out = some res') : res = res' := by
  have hle := nthByteLoop_mono h (Nat.le_max_left fuel fuel')
  have hle' := nthByteLoop_mono h' (Nat.le_max_right fuel fuel')
  exact Option.some.inj (hle.symm.trans hle')

theorem plain_zero : Plain signedChar 0 := fun _ => by decide

/-- Where no byte is negative the loop prints the string and its terminator. -/
theorem nthByteLoop_all_plain (h : HandsOn ioctlResult) (ht : StringAt d.message t)
    (hsmall : t.length < 2 ^ 64) (hplain : ∀ c ∈ t, Plain signedChar c) (hi : i ≤ t.length) :
    nthByteLoop ioctlResult signedChar space (t.length - i + 1) d i out =
      some (out ++ t.drop i ++ [0], 0) := by
  induction hn : t.length - i generalizing i out with
  | zero =>
      obtain rfl : i = t.length := by omega
      have hc : Plain signedChar (d.message t.length) := by
        rw [ht.nul]
        exact plain_zero
      rw [nthByteLoop_plain h hsmall hc, if_neg (not_not.mpr ht.nul), ht.nul, List.drop_length,
        List.append_nil]
  | succ n ih =>
      have hlt : i < t.length := by omega
      have hmem : d.message i ∈ t := List.mem_of_getElem? (ht.cell i hlt)
      have happ := ht.read_append_drop i 1 (by omega)
      rw [nthByteLoop_plain h (by omega) (hplain _ hmem), if_pos (ht.nonzero _ hmem),
        ih (by omega) (by omega), ← happ, List.append_assoc out]
      rfl

/-- Where one is, the loop returns an error. -/
theorem nthByteLoop_some_negative (h : HandsOn ioctlResult) (ht : StringAt d.message t)
    (hsmall : t.length < 2 ^ 64) {k : ℕ} (hk : k < t.length)
    (hneg : ¬Plain signedChar (d.message k)) (hi : i ≤ k) :
    ∃ out' ret, nthByteLoop ioctlResult signedChar space (k - i + 1) d i out = some (out', ret) ∧
      ret < 0 := by
  induction hn : k - i generalizing i out with
  | zero =>
      obtain rfl : i = k := by omega
      exact ⟨_, _, nthByteLoop_negative h (by omega) hneg, h.neg _ (charToLong_neg hneg)⟩
  | succ n ih =>
      by_cases hc : Plain signedChar (d.message i)
      · rw [nthByteLoop_plain h (by omega) hc, if_pos (ht.ne_zero (by omega))]
        exact ih (by omega) (by omega)
      · exact ⟨_, _, nthByteLoop_negative h (by omega) hc, h.neg _ (charToLong_neg hc)⟩

end Loop

/-! ### Byte by byte against the whole message -/

/-- The data after `IOCTL_SET_MSG`. -/
def Data.setMsg (d : Data σ) (signedChar : Bool) (q : UserPtr σ) : Data σ :=
  (ioctlAtomic signedChar q d (ioctlSwitch ioctlSetMsg)).1

section Compare

variable {ι : Type} [DecidableEq ι] {ioctlResult : ℤ → ℤ} {signedChar : Bool} {s : State σ ι}
  {user : UserPtr σ → Cell} {acts : List (Act σ ι)} {d : Data σ} {q : UserPtr σ} {t b : List Byte}

/-- `IOCTL_SET_MSG` of `b` leaves the first `BUF_LEN` bytes of `b`, or the old message if `b` is
empty. -/
theorem exists_text_setMsg (hd : d.Terminated) (hq : StringAt (d.userBytes q) b) :
    ∃ t, StringAt (d.setMsg signedChar q).message t ∧ t.length ≤ bufLen ∧
      (b ≠ [] → t = b.take bufLen) := by
  by_cases hnil : b = []
  · obtain ⟨t, ht, hlen⟩ := exists_stringAt (hd bufLen (Nat.le_refl _))
    refine ⟨t, ?_, hlen, fun hne => absurd hnil hne⟩
    rw [Data.setMsg, ioctlAtomic_setMsg hq, scanned, if_pos hnil]
    show StringAt (write d.message 0 []) t
    rw [write_nil]
    exact ht
  · exact ⟨b.take bufLen, stringAt_setMsg hq hnil (Or.inr (hd bufLen (Nat.le_refl _))),
      List.length_take_le _ _, fun _ => rfl⟩

/-- The outcome, with enough fuel, for a message `t`. -/
theorem ioctlGetNthByteUser_plain (h : HandsOn ioctlResult) (ht : StringAt d.message t)
    (hsmall : t.length < 2 ^ 64) (space : σ) (hplain : ∀ c ∈ t, Plain signedChar c) :
    ioctlGetNthByteUser ioctlResult signedChar space (t.length + 1) d =
      some (nthByteHeader ++ t ++ [0], 0) :=
  nthByteLoop_all_plain h ht hsmall hplain (Nat.zero_le _)

theorem ioctlGetNthByteUser_negative (h : HandsOn ioctlResult) (ht : StringAt d.message t)
    (hsmall : t.length < 2 ^ 64) (space : σ) (hneg : ¬∀ c ∈ t, Plain signedChar c) :
    ∃ fuel out ret, ioctlGetNthByteUser ioctlResult signedChar space fuel d = some (out, ret) ∧
      ret < 0 := by
  rw [not_forall] at hneg
  obtain ⟨c, hc⟩ := hneg
  rw [Classical.not_imp] at hc
  obtain ⟨k, hk, hget⟩ := List.getElem_of_mem hc.1
  have hcell := ht.cell k hk
  rw [List.getElem?_eq_getElem hk, hget] at hcell
  have hneg : ¬Plain signedChar (d.message k) := Option.some.inj hcell ▸ hc.2
  exact ⟨_, nthByteLoop_some_negative h ht hsmall hk hneg (Nat.zero_le k)⟩

/-- **Byte by byte.**  In every reachable state, after `IOCTL_SET_MSG` of any string, let `t` be what
`IOCTL_GET_MSG` delivers before its terminator.  `ioctl_get_nth_byte` never prints exactly `t`: it
terminates without an error if and only if `char` is unsigned or no byte of `t` is above 127, and
then it prints `t` and a NUL; otherwise it terminates with an error. -/
theorem nth_byte_against_getMsg (hresult : HandsOn ioctlResult)
    (hrun : run (chardevStep signedChar) (State.init user) acts = some s)
    (hq : StringAt (s.data.userBytes q) b) (space : σ) :
    ∃ t, GetsBack (σ := σ) signedChar (s.data.setMsg signedChar q).message t ∧
      (b ≠ [] → t = b.take bufLen) ∧
      (∀ fuel, ioctlGetNthByteUser ioctlResult signedChar space fuel
        (s.data.setMsg signedChar q) ≠ some (nthByteHeader ++ t, 0)) ∧
      ((∃ fuel out, ioctlGetNthByteUser ioctlResult signedChar space fuel
        (s.data.setMsg signedChar q) = some (out, 0)) ↔
          signedChar = false ∨ ∀ c ∈ t, c.toNat < 128) ∧
      ((signedChar = false ∨ ∀ c ∈ t, c.toNat < 128) →
        ∃ fuel, ioctlGetNthByteUser ioctlResult signedChar space fuel
          (s.data.setMsg signedChar q) = some (nthByteHeader ++ t ++ [0], 0)) ∧
      (¬(signedChar = false ∨ ∀ c ∈ t, c.toNat < 128) →
        ∃ fuel out ret, ioctlGetNthByteUser ioctlResult signedChar space fuel
          (s.data.setMsg signedChar q) = some (out, ret) ∧ ret < 0) := by
  obtain ⟨t, ht, hlen, htake⟩ : ∃ t, StringAt (s.data.setMsg signedChar q).message t ∧
      t.length ≤ bufLen ∧ (b ≠ [] → t = b.take bufLen) :=
    exists_text_setMsg (terminated_of_run hrun) hq
  have hbuf : bufLen = 80 := rfl
  have hcond : (signedChar = false ∨ ∀ c ∈ t, c.toNat < 128) ↔ ∀ c ∈ t, Plain signedChar c := by
    cases signedChar with
    | false => exact iff_of_true (Or.inl rfl) fun _ _ hsigned => nomatch hsigned
    | true =>
        refine ⟨fun h c hc _ => h.resolve_left nofun c hc, fun h => Or.inr fun c hc => h c hc rfl⟩
  refine ⟨t, (messageIs_of_stringAt ht hlen).2, htake, ?_⟩
  rw [hcond]
  by_cases hplain : ∀ c ∈ t, Plain signedChar c
  · have hout := ioctlGetNthByteUser_plain hresult ht (by omega) space hplain
    refine ⟨fun fuel hexact => ?_, iff_of_true ⟨_, _, hout⟩ hplain, fun _ => ⟨_, hout⟩,
      fun hnot => absurd hplain hnot⟩
    have hsame := congrArg (fun res => res.1.length) (nthByteLoop_unique hexact hout)
    simp only [List.length_append, List.length_singleton] at hsame
    omega
  · obtain ⟨fuel, out, ret, herror, hret⟩ :=
      ioctlGetNthByteUser_negative hresult ht (by omega) space hplain
    have hnever : ∀ fuel' out', ioctlGetNthByteUser ioctlResult signedChar space fuel'
        (s.data.setMsg signedChar q) ≠ some (out', 0) := by
      intro fuel' out' hzero
      have hsame : (0 : ℤ) = ret := congrArg Prod.snd (nthByteLoop_unique hzero herror)
      omega
    refine ⟨fun fuel' => hnever fuel' _, iff_of_false ?_ hplain, fun hall => absurd hall hplain,
      fun _ => ⟨fuel, out, ret, herror, hret⟩⟩
    rintro ⟨fuel', out', hzero⟩
    exact hnever fuel' out' hzero

end Compare

/-! ### A byte above 127 -/

/-- `ioctl(2)` of the C library: -1 for every error. -/
def ioctlErrno (ret : ℤ) : ℤ := if ret < 0 then -1 else ret

theorem handsOn_ioctlErrno : HandsOn ioctlErrno where
  neg ret h := by
    rw [ioctlErrno, if_pos h]
    omega
  byte ret h _ := if_neg (by omega)

theorem nth_byte_against_getMsg_letters :
    ∃ fuel, ioctlGetNthByteUser ioctlErrno true 0 fuel (fresh.setMsg true ⟨1, 0⟩) =
      some (nthByteHeader ++ [0x61] ++ [0], 0) := by
  have hrun : run (chardevStep true) (State.init letters : State (Fin 2) Unit) [] =
      some (State.init letters) := rfl
  obtain ⟨t, -, htake, -, -, hplain, -⟩ :=
    nth_byte_against_getMsg handsOn_ioctlErrno hrun (stringAt_letters _) 0
  obtain rfl : t = [0x61] := htake (by decide)
  exact hplain (Or.inr (by decide))

/-- The string of the one byte 128. -/
def highByte (p : UserPtr (Fin 2)) : Cell := ⟨if p.addr = 0 then 0x80 else 0, true, true⟩

theorem stringAt_highByte :
    StringAt (Data.userBytes ⟨fun _ => 0, highByte⟩ (⟨0, 0⟩ : UserPtr (Fin 2))) [0x80] where
  cell n hn := by
    obtain rfl : n = 0 := Nat.lt_one_iff.mp hn
    rfl
  nul := rfl
  nonzero := by decide

/-- With a signed `char` the loop returns an error for this message. -/
theorem not_nth_byte_agrees :
    ¬∀ (user : UserPtr (Fin 2) → Cell) (acts : List (Act (Fin 2) Unit)) (s : State (Fin 2) Unit)
      (q : UserPtr (Fin 2)) (b : List Byte),
      run (chardevStep true) (State.init user) acts = some s → StringAt (s.data.userBytes q) b →
      ∃ t fuel, GetsBack (σ := Fin 2) true (s.data.setMsg true q).message t ∧
        ioctlGetNthByteUser ioctlErrno true 0 fuel (s.data.setMsg true q) =
          some (nthByteHeader ++ t, 0) := by
  intro hall
  obtain ⟨t, fuel, -, hout⟩ := hall highByte [] (State.init highByte) ⟨0, 0⟩ [0x80] rfl
    stringAt_highByte
  obtain ⟨t', ht', -, htake⟩ : ∃ t', StringAt (Data.setMsg ⟨fun _ => 0, highByte⟩ true
      (⟨0, 0⟩ : UserPtr (Fin 2))).message t' ∧ t'.length ≤ bufLen ∧
        (([0x80] : List Byte) ≠ [] → t' = ([0x80] : List Byte).take bufLen) :=
    exists_text_setMsg (fun _ _ => rfl) stringAt_highByte
  obtain rfl : t' = [0x80] := htake (by decide)
  have hneg : ¬∀ c ∈ ([0x80] : List Byte), Plain true c :=
    fun hplain => absurd (hplain 0x80 List.mem_cons_self rfl) (by decide)
  obtain ⟨fuel', out, ret, herror, hret⟩ :=
    ioctlGetNthByteUser_negative handsOn_ioctlErrno ht' (by decide) 0 hneg
  have hsame : (0 : ℤ) = ret := congrArg Prod.snd (nthByteLoop_unique hout herror)
  omega

end Lkmpg.Chardev2
