import Lkmpg.Chardev2.Serial
import Lkmpg.Lib.LinearMem
import Lkmpg.Lib.StringStream

/-!
# What the calls of `chardev2.c` do when nobody disturbs them

The loops of `device_write`, of `IOCTL_SET_MSG` and of `device_read` in closed form: what they leave
in `message` and in the memory of their callers, for every length, every address and every
protection of the pages.
-/

namespace Lkmpg.Chardev2

open LinearMem StringStream Uninterrupted

variable {σ : Type} {d d' : Data σ} {buffer param : UserPtr σ} {length offset n : ℕ}

/-! ### User memory -/

/-- What `get_user` yields from `buffer` on. -/
def Data.userBytes (d : Data σ) (buffer : UserPtr σ) (i : ℕ) : Byte := d.getUser (buffer.add i)

/-- What a process finds in its memory from `buffer` on. -/
def Data.received (d : Data σ) (buffer : UserPtr σ) (i : ℕ) : Byte := (d.user (buffer.add i)).value

/-- The process may write to the `n` cells from `buffer` on. -/
def Writable (user : UserPtr σ → Cell) (buffer : UserPtr σ) (n : ℕ) : Prop :=
  ∀ i, i < n → (user (buffer.add i)).writable = true

theorem UserPtr.add_zero (p : UserPtr σ) : p.add 0 = p := by
  show { p with addr := p.addr + 0#64 } = p
  rw [BitVec.add_zero]

/-- Within the size of the address space the cells of a buffer are distinct. -/
theorem UserPtr.add_inj {p : UserPtr σ} {i j : ℕ} (hi : i < 2 ^ 64) (hj : j < 2 ^ 64)
    (h : p.add i = p.add j) : i = j := by
  have haddr : p.addr + BitVec.ofNat 64 i = p.addr + BitVec.ofNat 64 j := congrArg UserPtr.addr h
  have hnat := congrArg BitVec.toNat ((BitVec.add_right_inj _).mp haddr)
  rw [BitVec.toNat_ofNat, BitVec.toNat_ofNat, Nat.mod_eq_of_lt hi, Nat.mod_eq_of_lt hj] at hnat
  exact hnat

/-! ### `device_write` -/

/-- What the first `i` rounds of the loop of `device_write` have made of the data. -/
def Data.stored (d : Data σ) (buffer : UserPtr σ) (i : ℕ) : Data σ :=
  { d with message := write d.message 0 (read (d.userBytes buffer) 0 i) }

theorem stored_zero (d : Data σ) (buffer : UserPtr σ) : d.stored buffer 0 = d := by
  show { d with message := write d.message 0 [] } = d
  rw [write_nil]

theorem stored_succ (d : Data σ) (buffer : UserPtr σ) (i : ℕ) :
    d.stored buffer (i + 1) = { d.stored buffer i with
      message := Function.update (d.stored buffer i).message i (d.getUser (buffer.add i)) } := by
  have hwrite : write d.message 0 (read (d.userBytes buffer) 0 (i + 1)) =
      Function.update (write d.message 0 (read (d.userBytes buffer) 0 i)) i
        (d.getUser (buffer.add i)) := by
    rw [read_succ, write_append, length_read, Nat.zero_add, write_singleton]
    rfl
  rw [Data.stored, hwrite]
  rfl

/-- The loop of `device_write`. -/
theorem complete_get (hn : n ≤ min length bufLen) :
    complete (writeStep buffer length) WritePc.cost d (.get 0) =
      complete (writeStep buffer length) WritePc.cost (d.stored buffer n) (.get n) := by
  induction n with
  | zero => rw [stored_zero]
  | succ n ih =>
      have hcost := writeStep_decreasing buffer length
      have hmore : n < length ∧ n < bufLen := by omega
      have hget : writeStep buffer length (d.stored buffer n) (.get n) =
          some (d.stored buffer n, .store n (d.getUser (buffer.add n))) := by
        rw [writeStep, if_pos hmore]
        rfl
      rw [ih (by omega), ← complete_of_step hcost hget]
      refine (complete_of_step hcost ?_).symm
      rw [writeStep, ← stored_succ]

/-- **`device_write`.**  It stores as many bytes as there are and fit, and nothing after them. -/
theorem complete_write (d : Data σ) (buffer : UserPtr σ) (length : ℕ) :
    complete (writeStep buffer length) WritePc.cost d (.get 0) =
      (d.stored buffer (min length bufLen), .done (min length bufLen)) := by
  have hcost := writeStep_decreasing buffer length
  have hend : writeStep buffer length (d.stored buffer (min length bufLen))
      (.get (min length bufLen)) =
        some (d.stored buffer (min length bufLen), .done (min length bufLen)) := by
    rw [writeStep, if_neg (by omega)]
  rw [complete_get (Nat.le_refl _), ← complete_of_step hcost hend]
  exact complete_of_none rfl

/-! ### `IOCTL_SET_MSG` -/

section SetMsg

variable [DecidableEq σ] {signedChar : Bool} {b : List Byte}

/-- The number of bytes that the scan of `IOCTL_SET_MSG` finds: it counts the NUL, if it gets
there, unless the string is empty. -/
def scanned (b : List Byte) : ℕ := if b = [] then 0 else min (b.length + 1) bufLen

/-- What the scan counts, in whatever memory. -/
def scanCount (m : ℕ → Byte) : ℕ := if m 0 = 0 then 0 else min (strnlen m 0 bufLen + 1) bufLen

theorem scanCount_of_stringAt {m : ℕ → Byte} (hb : StringAt m b) : scanCount m = scanned b := by
  have hzero := hb.eq_zero_iff (Nat.zero_le _)
  rw [scanCount, scanned, hb.strnlen]
  by_cases hnil : b = []
  · rw [if_pos hnil, if_pos (hzero.mpr (by rw [hnil]; rfl))]
  · have hlen := List.length_pos_iff.mpr hnil
    rw [if_neg hnil, if_neg fun h => by rw [hzero] at h; omega]
    omega

/-- The loop that looks for the end of the message. -/
theorem complete_scan (hpos : 0 < n) (hn : n ≤ scanCount (d.userBytes param)) :
    complete (ioctlStep signedChar param) IoctlPc.cost d .scanFirst =
      complete (ioctlStep signedChar param) IoctlPc.cost d (.scan n (d.userBytes param (n - 1))) := by
  have hcost := ioctlStep_decreasing signedChar param
  have hfirst : d.userBytes param 0 ≠ 0 := fun hzero => by
    rw [scanCount, if_pos hzero] at hn
    omega
  rw [scanCount, if_neg hfirst] at hn
  induction n with
  | zero => omega
  | succ n ih =>
      have hscan : ioctlStep signedChar param d (.scan n (d.userBytes param (n - 1))) =
          some (d, .scan (n + 1) (d.userBytes param n)) := by
        have hchar : d.userBytes param (n - 1) ≠ 0 := by
          by_cases hzero : n = 0
          · rw [hzero]
            exact hfirst
          · rw [← Nat.zero_add (n - 1)]
            exact ne_zero_of_lt_strnlen (n := bufLen) (by omega)
        rw [ioctlStep, if_pos ⟨hchar, by omega⟩]
        rfl
      rcases Nat.eq_zero_or_pos n with hzero | hpos'
      · subst hzero
        have hstart : ioctlStep signedChar param d .scanFirst =
            some (d, .scan 0 (d.userBytes param 0)) := by
          rw [ioctlStep, Data.userBytes, UserPtr.add_zero]
        rw [← complete_of_step hcost hstart]
        exact (complete_of_step hcost hscan).symm
      · rw [ih hpos' (by omega)]
        exact (complete_of_step hcost hscan).symm

/-- **`IOCTL_SET_MSG`.**  The scan, and then `device_write` of what it has counted. -/
theorem ioctlAtomic_setMsg_scanCount (d : Data σ) (param : UserPtr σ) :
    ioctlAtomic signedChar param d (ioctlSwitch ioctlSetMsg) =
      (d.stored param (scanCount (d.userBytes param)), 0) := by
  have hcost := ioctlStep_decreasing signedChar param
  obtain ⟨count, hcount⟩ : ∃ count, count = scanCount (d.userBytes param) := ⟨_, rfl⟩
  rw [← hcount]
  have hscan : complete (ioctlStep signedChar param) IoctlPc.cost d .scanFirst =
      complete (ioctlStep signedChar param) IoctlPc.cost d (.setMsg count (.get 0)) := by
    by_cases hzero : d.userBytes param 0 = 0
    · have hget : d.getUser param = 0 := by
        rw [Data.userBytes, UserPtr.add_zero] at hzero
        exact hzero
      have hfirst : ioctlStep signedChar param d .scanFirst = some (d, .scan 0 0) := by
        rw [ioctlStep, hget]
      rw [← complete_of_step hcost hfirst, hcount, scanCount, if_pos hzero]
      exact (complete_of_step hcost rfl).symm
    · have hmin : count = min (strnlen (d.userBytes param) 0 bufLen + 1) bufLen := by
        rw [hcount, scanCount, if_neg hzero]
      have hbuf : 0 < bufLen := by decide
      rw [complete_scan (n := count) (by omega) (Nat.le_of_eq hcount)]
      refine (complete_of_step hcost ?_).symm
      rw [ioctlStep, if_neg]
      rintro ⟨hchar, hlt⟩
      rw [show count - 1 = 0 + strnlen (d.userBytes param) 0 bufLen by omega] at hchar
      exact (strnlen_stop _ 0 bufLen).elim (fun hend => by omega) hchar
  have hwrite := complete_part (f := IoctlPc.setMsg count)
    (writeStep_decreasing param count) hcost
    (fun d pc d' pc' h => by rw [ioctlStep, h]) d (.get 0)
  have hend : ioctlStep signedChar param (d.stored param count) (.setMsg count (.done count)) =
      some (d.stored param count, .done 0) := rfl
  have hmin : min count bufLen = count := by
    rw [hcount, scanCount]
    split <;> omega
  have hdone : complete (ioctlStep signedChar param) IoctlPc.cost (d.stored param count)
      (.done 0) = (d.stored param count, .done 0) := complete_of_none rfl
  rw [complete_write, hmin, ← complete_of_step hcost hend, hdone] at hwrite
  have hall : complete (ioctlStep signedChar param) IoctlPc.cost d (ioctlSwitch ioctlSetMsg) =
      (d.stored param count, .done 0) := hscan.trans hwrite
  rw [ioctlAtomic, hall]
  rfl

/-- `IOCTL_SET_MSG` of a string. -/
theorem ioctlAtomic_setMsg (hb : StringAt (d.userBytes param) b) :
    ioctlAtomic signedChar param d (ioctlSwitch ioctlSetMsg) =
      (d.stored param (scanned b), 0) := by
  rw [ioctlAtomic_setMsg_scanCount, scanCount_of_stringAt hb]

end SetMsg

/-! ### `device_read` -/

section Read

variable [DecidableEq σ] {cs : List Byte} {c : Byte}

/-- `put_user` has stored the bytes from `buffer` on, where it may. -/
structure Delivered (d d' : Data σ) (buffer : UserPtr σ) (cs : List Byte) : Prop where
  message : d'.message = d.message
  writable : ∀ p, (d'.user p).writable = (d.user p).writable
  received : Writable d.user buffer cs.length → read (d'.received buffer) 0 cs.length = cs

theorem putUser_writable (d : Data σ) (p q : UserPtr σ) (c : Byte) :
    ((d.putUser p c).user q).writable = (d.user q).writable := by
  rw [Data.putUser]
  split
  · show (Function.update d.user p _ q).writable = _
    by_cases hqp : q = p
    · rw [hqp, Function.update_self]
    · rw [Function.update_of_ne hqp]
  · rfl

theorem putUser_value_self {p : UserPtr σ} (h : (d.user p).writable = true) :
    ((d.putUser p c).user p).value = c := by
  rw [Data.putUser, if_pos h]
  show (Function.update d.user p _ p).value = c
  rw [Function.update_self]

theorem putUser_user_of_ne {p q : UserPtr σ} (h : q ≠ p) :
    (d.putUser p c).user q = d.user q := by
  rw [Data.putUser]
  split
  · exact Function.update_of_ne h _ _
  · rfl

/-- `put_user` of the bytes one after another, from `buffer` on. -/
def Data.putAll (d : Data σ) (buffer : UserPtr σ) (cs : List Byte) : Data σ :=
  cs.zipIdx.foldl (fun d ci => d.putUser (buffer.add ci.2) ci.1) d

theorem putAll_concat (d : Data σ) (buffer : UserPtr σ) (cs : List Byte) (c : Byte) :
    d.putAll buffer (cs ++ [c]) = (d.putAll buffer cs).putUser (buffer.add cs.length) c := by
  rw [Data.putAll, List.zipIdx_append, List.foldl_append, Nat.zero_add]
  rfl

theorem putAll_writable (d : Data σ) (buffer p : UserPtr σ) (cs : List Byte) :
    ((d.putAll buffer cs).user p).writable = (d.user p).writable := by
  induction cs using List.reverseRecOn with
  | nil => rfl
  | append_singleton cs c ih => rw [putAll_concat, putUser_writable, ih]

/-- **Frame.**  Only the cells from `buffer` on are changed. -/
theorem putAll_user_of_ne {p : UserPtr σ} (h : ∀ i, i < cs.length → p ≠ buffer.add i) :
    (d.putAll buffer cs).user p = d.user p := by
  induction cs using List.reverseRecOn with
  | nil => rfl
  | append_singleton cs c ih =>
      rw [List.length_append, List.length_singleton] at h
      rw [putAll_concat, putUser_user_of_ne (h cs.length (Nat.lt_succ_self _))]
      exact ih fun i hi => h i (by omega)

/-- A byte arrives if it may be stored. -/
theorem putAll_value {i : ℕ} (hlen : cs.length ≤ 2 ^ 64) (hi : i < cs.length)
    (hw : (d.user (buffer.add i)).writable = true) :
    cs[i]? = some ((d.putAll buffer cs).user (buffer.add i)).value := by
  induction cs using List.reverseRecOn with
  | nil => exact absurd hi (Nat.not_lt_zero i)
  | append_singleton cs c ih =>
      rw [List.length_append, List.length_singleton] at hlen hi
      rw [putAll_concat]
      by_cases hlast : i = cs.length
      · rw [hlast] at hw ⊢
        rw [putUser_value_self (by rw [putAll_writable]; exact hw), List.getElem?_concat_length]
      · have hne : buffer.add i ≠ buffer.add cs.length :=
          fun hsame => hlast (UserPtr.add_inj (by omega) (by omega) hsame)
        rw [putUser_user_of_ne hne, List.getElem?_append_left (by omega)]
        exact ih (by omega) (by omega)

theorem putAll_message (d : Data σ) (buffer : UserPtr σ) (cs : List Byte) :
    (d.putAll buffer cs).message = d.message := by
  induction cs using List.reverseRecOn with
  | nil => rfl
  | append_singleton cs c ih => rw [putAll_concat, putUser_message, ih]

/-- Where they may be stored, the bytes arrive. -/
theorem delivered_putAll (d : Data σ) (buffer : UserPtr σ) (hlen : cs.length ≤ 2 ^ 64) :
    Delivered d (d.putAll buffer cs) buffer cs := by
  refine ⟨putAll_message d buffer cs, fun p => putAll_writable d buffer p cs, fun hw => ?_⟩
  apply List.ext_getElem?
  intro i
  by_cases hi : i < cs.length
  · rw [getElem?_read _ _ hi, Nat.zero_add, putAll_value hlen hi (hw i hi)]
    rfl
  · rw [List.getElem?_eq_none (by rw [length_read]; omega), List.getElem?_eq_none (by omega)]

/-- The loop of `device_read`. -/
theorem complete_test (hn : n ≤ length) (hne : ∀ i, i < n → d.message (offset + i) ≠ 0) :
    complete (readStep buffer offset) ReadPc.cost d (.test length []) =
      complete (readStep buffer offset) ReadPc.cost (d.putAll buffer (read d.message offset n))
        (.test (length - n) (read d.message offset n)) := by
  induction n with
  | zero => rfl
  | succ n ih =>
      obtain ⟨d', hd'⟩ : ∃ d', d' = d.putAll buffer (read d.message offset n) := ⟨_, rfl⟩
      have hmessage : d'.message = d.message := hd' ▸ putAll_message d buffer _
      have hcost := readStep_decreasing buffer offset
      have hlen : (read d.message offset n).length = n := length_read _ _ _
      have htest : readStep buffer offset d' (.test (length - n) (read d.message offset n)) =
          some (d', .load (length - n) (read d.message offset n)) := by
        rw [readStep, hlen, hmessage, if_pos ⟨by omega, hne n (by omega)⟩]
      have hload : readStep buffer offset d' (.load (length - n) (read d.message offset n)) =
          some (d', .put (length - n) (read d.message offset n) (d.message (offset + n))) := by
        rw [readStep, hlen, hmessage]
      have hput : d'.putUser (buffer.add n) (d.message (offset + n)) =
          d.putAll buffer (read d.message offset n ++ [d.message (offset + n)]) := by
        rw [putAll_concat, hlen, hd']
      rw [ih (by omega) fun i hi => hne i (by omega), ← hd', ← complete_of_step hcost htest,
        ← complete_of_step hcost hload, read_succ, ← hput,
        show length - (n + 1) = length - n - 1 by omega]
      refine (complete_of_step hcost ?_).symm
      rw [readStep, hlen]

/-- **`device_read`.**  It delivers the bytes up to the first NUL, as far as the buffer goes, and
goes back to the start of the message when there are none. -/
theorem complete_read (hn : n ≤ length) (hne : ∀ i, i < n → d.message (offset + i) ≠ 0)
    (hstop : n = length ∨ d.message (offset + n) = 0) :
    complete (readStep buffer offset) ReadPc.cost d (.first length) =
      (d.putAll buffer (read d.message offset n),
        .done (if d.message offset = 0 then 0 else offset + n) (read d.message offset n)) := by
  have hcost := readStep_decreasing buffer offset
  by_cases hzero : d.message offset = 0
  · obtain rfl : n = 0 := by
      by_contra hpos
      exact hne 0 (by omega) hzero
    have hfirst : readStep buffer offset d (.first length) = some (d, .done 0 []) := by
      rw [readStep, if_pos hzero]
    rw [← complete_of_step hcost hfirst, if_pos hzero]
    exact complete_of_none rfl
  · obtain ⟨d', hd'⟩ : ∃ d', d' = d.putAll buffer (read d.message offset n) := ⟨_, rfl⟩
    have hmessage : d'.message = d.message := hd' ▸ putAll_message d buffer _
    have hfirst : readStep buffer offset d (.first length) = some (d, .test length []) := by
      rw [readStep, if_neg hzero]
    have hlast : readStep buffer offset d' (.test (length - n) (read d.message offset n)) =
        some (d', .done (offset + n) (read d.message offset n)) := by
      rw [readStep, length_read, hmessage, if_neg]
      rintro ⟨hmore, hchar⟩
      exact hstop.elim (fun h => hmore (by omega)) hchar
    rw [← complete_of_step hcost hfirst, complete_test hn hne, ← hd',
      ← complete_of_step hcost hlast, if_neg hzero]
    exact complete_of_none rfl

/-- The bytes up to the first NUL, however many there are. -/
theorem complete_read_strnlen (d : Data σ) (buffer : UserPtr σ) (length offset : ℕ) :
    complete (readStep buffer offset) ReadPc.cost d (.first length) =
      (d.putAll buffer (read d.message offset (strnlen d.message offset length)),
        .done (if d.message offset = 0 then 0 else offset + strnlen d.message offset length)
          (read d.message offset (strnlen d.message offset length))) :=
  complete_read (strnlen_le d.message offset length) (fun _ hi => ne_zero_of_lt_strnlen hi)
    (strnlen_stop d.message offset length)

/-- **`IOCTL_GET_MSG`.**  It delivers at most 99 bytes and a NUL. -/
theorem ioctlAtomic_getMsg_strnlen {signedChar : Bool} (d : Data σ) (param : UserPtr σ) :
    ioctlAtomic signedChar param d (ioctlSwitch ioctlGetMsg) =
      (d.putAll param (read d.message 0 (strnlen d.message 0 99) ++ [0]), 0) := by
  have hcost := ioctlStep_decreasing signedChar param
  obtain ⟨b, hb⟩ : ∃ b, b = read d.message 0 (strnlen d.message 0 99) := ⟨_, rfl⟩
  have hread := complete_read_strnlen d param 99 0
  obtain ⟨offset, hoffset⟩ : ∃ offset,
      offset = if d.message 0 = 0 then 0 else 0 + strnlen d.message 0 99 := ⟨_, rfl⟩
  rw [← hb, ← hoffset] at hread
  have hpart := complete_part (f := IoctlPc.getMsg) (readStep_decreasing param 0) hcost
    (fun d pc d' pc' h => by rw [ioctlStep, h]) d (.first 99)
  have hend : ioctlStep signedChar param (d.putAll param b) (.getMsg (.done offset b)) =
      some (d.putAll param (b ++ [0]), .done 0) := by
    rw [putAll_concat]
    rfl
  have hdone : complete (ioctlStep signedChar param) IoctlPc.cost
      (d.putAll param (b ++ [0])) (.done 0) = (d.putAll param (b ++ [0]), .done 0) :=
    complete_of_none rfl
  rw [hread, ← complete_of_step hcost hend, hdone] at hpart
  have hall : complete (ioctlStep signedChar param) IoctlPc.cost d (ioctlSwitch ioctlGetMsg) =
      (d.putAll param (b ++ [0]), .done 0) := hpart
  rw [ioctlAtomic, hall, hb]
  rfl

/-- It delivers a string and a NUL after it. -/
theorem ioctlAtomic_getMsg {signedChar : Bool} {b : List Byte} (hb : StringAt d.message b)
    (hlen : b.length ≤ 99) :
    ioctlAtomic signedChar param d (ioctlSwitch ioctlGetMsg) = (d.putAll param (b ++ [0]), 0) := by
  rw [ioctlAtomic_getMsg_strnlen, hb.strnlen, Nat.min_eq_left hlen, hb.read]

end Read

end Lkmpg.Chardev2
