import Lkmpg.Chardev2.Message

/-!
# The two ways of setting the message

`device_write` stores the bytes it is given and no NUL, so that what a longer message left behind
them stays readable; `IOCTL_SET_MSG` counts the NUL in.  A message is what `read(2)` from offset 0
to end of file and `IOCTL_GET_MSG` return.
-/

namespace Lkmpg.Chardev2

open LinearMem StringStream Uninterrupted

variable {σ : Type} [DecidableEq σ]

/-! ### Reading a message back -/

/-- The new `*offset`. -/
def ReadPc.offset : ReadPc → ℕ
  | .done offset _ => offset
  | _ => 0

/-- `read(2)` on one open file, with the given buffers and lengths, until a call returns 0: the
bytes that the process has found in its buffers. -/
def readFile : Data σ → ℕ → List (UserPtr σ × ℕ) → Option (List Byte)
  | _, _, [] => none
  | d, offset, (buffer, length) :: reqs =>
      let after := complete (readStep buffer offset) ReadPc.cost d (.first length)
      if after.2.taken = [] then some []
      else (readFile after.1 after.2.offset reqs).map
        (read (after.1.received buffer) 0 after.2.taken.length ++ ·)

/-- Every request asks for at least one byte, and its buffer is there. -/
def Valid (user : UserPtr σ → Cell) (reqs : List (UserPtr σ × ℕ)) : Prop :=
  ∀ req ∈ reqs, 0 < req.2 ∧ Writable user req.1 req.2

/-- Reading from offset 0 to end of file returns the string and comes to an end, whatever the
buffers and the lengths. -/
def ReadsBack (message : ℕ → Byte) (b : List Byte) : Prop :=
  ∀ (user : UserPtr σ → Cell) (reqs : List (UserPtr σ × ℕ)), Valid user reqs →
    (∀ out, readFile ⟨message, user⟩ 0 reqs = some out → out = b) ∧
      (b.length < reqs.length → ∃ out, readFile ⟨message, user⟩ 0 reqs = some out)

/-- `IOCTL_GET_MSG` fills the buffer with the string and its terminator. -/
def GetsBack (signedChar : Bool) (message : ℕ → Byte) (b : List Byte) : Prop :=
  ∀ (user : UserPtr σ → Cell) (param : UserPtr σ), Writable user param (b.length + 1) →
    StringAt ((ioctlAtomic signedChar param ⟨message, user⟩
      (ioctlSwitch ioctlGetMsg)).1.received param) b

/-- The readable message is `b`. -/
def MessageIs (σ : Type) [DecidableEq σ] (signedChar : Bool) (message : ℕ → Byte) (b : List Byte) :
    Prop :=
  ReadsBack (σ := σ) message b ∧ GetsBack (σ := σ) signedChar message b

/-! ### A string in `message` reads back -/

section String

variable {d d' : Data σ} {p q buffer : UserPtr σ} {b cs : List Byte} {message : ℕ → Byte}
  {reqs : List (UserPtr σ × ℕ)} {signedChar : Bool} {offset length : ℕ}

omit [DecidableEq σ] in
theorem Delivered.valid (h : Delivered d d' buffer cs) (hreqs : Valid d.user reqs) :
    Valid d'.user reqs := by
  intro req hreq
  obtain ⟨hpos, hw⟩ := hreqs req hreq
  exact ⟨hpos, fun i hi => (h.writable _).trans (hw i hi)⟩

theorem readFile_of_stringAt (hb : StringAt d.message b) (hsmall : b.length ≤ 2 ^ 64)
    (hle : offset ≤ b.length) (hreqs : Valid d.user reqs) :
    (∀ out, readFile d offset reqs = some out → out = b.drop offset) ∧
      (b.length - offset < reqs.length → ∃ out, readFile d offset reqs = some out) := by
  induction reqs generalizing d offset with
  | nil => exact ⟨nofun, fun h => absurd h (Nat.not_lt_zero _)⟩
  | cons req reqs ih =>
      obtain ⟨buffer, length⟩ := req
      obtain ⟨hpos, hw⟩ := hreqs _ List.mem_cons_self
      obtain ⟨n, hn⟩ : ∃ n, n = min length (b.length - offset) := ⟨_, rfl⟩
      obtain ⟨d', hd'⟩ : ∃ d', d' = d.putAll buffer (read d.message offset n) := ⟨_, rfl⟩
      have hd : Delivered d d' buffer (read d.message offset n) := by
        rw [hd']
        exact delivered_putAll d buffer (by rw [length_read]; omega)
      have hread : complete (readStep buffer offset) ReadPc.cost d (.first length) =
          (d', .done (if d.message offset = 0 then 0 else offset + n)
            (read d.message offset n)) := by
        rw [hd']
        refine complete_read (by omega) (fun i hi => hb.ne_zero (by omega)) ?_
        by_cases hend : offset + n = b.length
        · exact Or.inr (hend ▸ hb.nul)
        · exact Or.inl (by omega)
      rw [readFile, hread]
      by_cases hend : offset = b.length
      · -- at the terminator: the call returns 0
        obtain rfl : n = 0 := by omega
        rw [hend, List.drop_length]
        exact ⟨fun out hout => (Option.some.inj hout).symm, fun _ => ⟨[], rfl⟩⟩
      · have hne : d.message offset ≠ 0 := hb.ne_zero (by omega)
        have hlen : (read d.message offset n).length = n := length_read _ _ _
        have htaken : read d.message offset n ≠ [] := List.ne_nil_of_length_pos (by omega)
        have hreceived : read (d'.received buffer) 0 n = read d.message offset n := by
          have hcells := hd.received fun i hi => hw i (by omega)
          rw [hlen] at hcells
          exact hcells
        have hle' : offset + n ≤ b.length := by omega
        obtain ⟨hout, hends⟩ := ih (hd.message ▸ hb) hle'
          (hd.valid fun req hreq => hreqs req (List.mem_cons_of_mem _ hreq))
        simp only [ReadPc.taken, ReadPc.offset, if_neg htaken, if_neg hne, hlen, hreceived]
        constructor
        · intro out hsome
          obtain ⟨rest, hrest, rfl⟩ := Option.map_eq_some_iff.mp hsome
          rw [hout rest hrest]
          exact hb.read_append_drop offset n (by omega)
        · intro hmany
          rw [List.length_cons] at hmany
          obtain ⟨rest, hrest⟩ := hends (by omega)
          exact ⟨_, by rw [hrest]; rfl⟩

/-- **A string reads back.** -/
theorem messageIs_of_stringAt (hb : StringAt message b) (hlen : b.length ≤ bufLen) :
    MessageIs σ signedChar message b := by
  have hbuf : bufLen = 80 := rfl
  constructor
  · intro user reqs hreqs
    have hread := readFile_of_stringAt (d := ⟨message, user⟩) hb (by omega) (Nat.zero_le _) hreqs
    rw [List.drop_zero, Nat.sub_zero] at hread
    exact hread
  · intro user param hw
    have hall : (b ++ [0]).length ≤ 2 ^ 64 := by
      rw [List.length_append, List.length_singleton]
      omega
    have hreceived := (delivered_putAll ⟨message, user⟩ param hall).received
    rw [List.length_append, List.length_singleton] at hreceived
    have hget : ioctlAtomic signedChar param ⟨message, user⟩ (ioctlSwitch ioctlGetMsg) =
        (Data.putAll ⟨message, user⟩ param (b ++ [0]), 0) := ioctlAtomic_getMsg hb (by omega)
    rw [hget]
    exact stringAt_of_read hb.nonzero (hreceived hw)

/-- Where `b` is followed by another byte, reading to end of file does not return `b`. -/
theorem not_readsBack (p : UserPtr σ) (hsmall : b.length < 2 ^ 64)
    (hne : ∀ i, i ≤ b.length → message i ≠ 0) : ¬ReadsBack (σ := σ) message b := by
  intro hback
  obtain ⟨user, huser⟩ : ∃ user : UserPtr σ → Cell, user = fun _ => ⟨0, true, true⟩ := ⟨_, rfl⟩
  have hvalid : Valid user (List.replicate (b.length + 1) (p, b.length + 1)) := by
    intro req hreq
    rw [List.eq_of_mem_replicate hreq, huser]
    exact ⟨Nat.succ_pos _, fun _ _ => rfl⟩
  obtain ⟨honly, hends⟩ := hback user _ hvalid
  obtain ⟨out, hout⟩ := hends (by rw [List.length_replicate]; omega)
  have hsame := honly out hout
  obtain ⟨d', hd'⟩ : ∃ d', d' = Data.putAll ⟨message, user⟩ p (read message 0 (b.length + 1)) :=
    ⟨_, rfl⟩
  have hread : complete (readStep p 0) ReadPc.cost ⟨message, user⟩ (.first (b.length + 1)) =
      (d', .done (if message 0 = 0 then 0 else 0 + (b.length + 1))
        (read message 0 (b.length + 1))) := by
    rw [hd']
    refine complete_read (Nat.le_refl _) (fun i hi => ?_) (Or.inl rfl)
    rw [Nat.zero_add]
    exact hne i (by omega)
  have hlen : (read message 0 (b.length + 1)).length = b.length + 1 := length_read _ _ _
  have htaken : read message 0 (b.length + 1) ≠ [] := List.ne_nil_of_length_pos (by omega)
  rw [List.replicate_succ, readFile, hread] at hout
  replace hout := (if_neg htaken).symm.trans hout
  -- the first chunk is longer than `b` already
  obtain ⟨rest, -, hrest⟩ := Option.map_eq_some_iff.mp hout
  have hlong : (read (d'.received p) 0 (read message 0 (b.length + 1)).length ++ rest).length =
      out.length := congrArg List.length hrest
  rw [hsame, List.length_append, length_read, hlen] at hlong
  omega

end String

/-! ### The two ways compared -/

section Compare

variable {d : Data σ} {p q : UserPtr σ} {b : List Byte} {signedChar : Bool}

/-- `IOCTL_SET_MSG` of `b` leaves as much of `b` as there is room for, and a terminator after it. -/
theorem stringAt_setMsg (hq : StringAt (d.userBytes q) b) (hne : b ≠ [])
    (hend : b.length < bufLen ∨ d.message bufLen = 0) :
    StringAt (ioctlAtomic signedChar q d (ioctlSwitch ioctlSetMsg)).1.message
      (b.take bufLen) := by
  rw [ioctlAtomic_setMsg hq, scanned, if_neg hne]
  show StringAt (write d.message 0 (read (d.userBytes q) 0 (min (b.length + 1) bufLen))) _
  by_cases hshort : b.length < bufLen
  · -- the NUL is copied with the string
    rw [List.take_of_length_le (Nat.le_of_lt hshort), Nat.min_eq_left hshort, read_succ, hq.read,
      Nat.zero_add, hq.nul]
    exact stringAt_write _ hq.nonzero
  · have hlen : (b.take bufLen).length = bufLen := by
      rw [List.length_take, Nat.min_eq_left (by omega)]
    rw [Nat.min_eq_right (by omega), hq.read_take (by omega)]
    refine stringAt_write_of_nul ?_ fun c hc => hq.nonzero c (List.mem_of_mem_take hc)
    rw [hlen]
    exact hend.resolve_left hshort

/-- The message after `IOCTL_SET_MSG` of `b`. -/
theorem messageIs_setMsg (hq : StringAt (d.userBytes q) b) (hne : b ≠ []) (hlen : b.length ≤ bufLen)
    (hend : b.length < bufLen ∨ d.message b.length = 0) :
    MessageIs σ signedChar
      (ioctlAtomic signedChar q d (ioctlSwitch ioctlSetMsg)).1.message b := by
  have hnul : b.length < bufLen ∨ d.message bufLen = 0 := by
    refine (Nat.lt_or_eq_of_le hlen).imp_right fun hfull => ?_
    rw [← hfull]
    exact hend.resolve_left (by omega)
  have hstring : StringAt (ioctlAtomic signedChar q d _).1.message _ := stringAt_setMsg hq hne hnul
  rw [List.take_of_length_le hlen] at hstring
  exact messageIs_of_stringAt hstring hlen

/-- The message after `device_write` of exactly the bytes of `b`. -/
theorem messageIs_write_iff (hp : read (d.userBytes p) 0 b.length = b) (h0 : ∀ c ∈ b, c ≠ 0)
    (hlen : b.length ≤ bufLen) :
    MessageIs σ signedChar
        (complete (writeStep p b.length) WritePc.cost d (.get 0)).1.message b ↔
      d.message b.length = 0 := by
  have hbuf : bufLen = 80 := rfl
  rw [complete_write, Nat.min_eq_left hlen]
  show MessageIs σ signedChar (write d.message 0 (read (d.userBytes p) 0 b.length)) b ↔ _
  rw [hp]
  constructor
  · intro hmessage
    by_contra hold
    refine not_readsBack p (by omega) (fun i hi => ?_) hmessage.1
    by_cases hlast : i = b.length
    · rw [hlast, write_of_ge _ _ (by omega)]
      exact hold
    · have hcell := getElem?_write d.message b (Nat.zero_le i) (by omega)
      exact h0 _ (List.mem_of_getElem? hcell)
  · intro hnul
    exact messageIs_of_stringAt (stringAt_write_of_nul hnul h0) hlen

/-- **`write(2)` against `IOCTL_SET_MSG`.**  For every non-empty string of at most `BUF_LEN` bytes
and every prior content of `message`: both leave the string as the readable message if and only if
the byte after its last one was NUL before. -/
theorem write_agrees_setMsg_iff (hne : b ≠ []) (hlen : b.length ≤ bufLen)
    (hp : read (d.userBytes p) 0 b.length = b) (hq : StringAt (d.userBytes q) b) :
    (MessageIs σ signedChar
        (complete (writeStep p b.length) WritePc.cost d (.get 0)).1.message b ∧
      MessageIs σ signedChar
        (ioctlAtomic signedChar q d (ioctlSwitch ioctlSetMsg)).1.message b) ↔
      d.message b.length = 0 := by
  rw [messageIs_write_iff hp hq.nonzero hlen]
  exact and_iff_left_of_imp fun hnul => messageIs_setMsg hq hne hlen (Or.inr hnul)

end Compare

/-! ### A short message over a long one -/

/-- Address space 0 is full of `b`, and the others begin with the string `a`. -/
def letters (p : UserPtr (Fin 2)) : Cell :=
  ⟨if p.space = 0 then 0x62 else if p.addr = 0 then 0x61 else 0, true, true⟩

/-- The device after module load. -/
def fresh : Data (Fin 2) := ⟨fun _ => 0, letters⟩

theorem stringAt_letters (m : ℕ → Byte) :
    StringAt (Data.userBytes ⟨m, letters⟩ (⟨1, 0⟩ : UserPtr (Fin 2))) [0x61] where
  cell n hn := by
    obtain rfl : n = 0 := Nat.lt_one_iff.mp hn
    rfl
  nul := rfl
  nonzero := by decide

theorem write_agrees_setMsg_iff_fresh :
    MessageIs (Fin 2) true (complete (writeStep ⟨1, 0⟩ 1) WritePc.cost fresh (.get 0)).1.message
        [0x61] ∧
      MessageIs (Fin 2) true
        (ioctlAtomic true ⟨1, 0⟩ fresh (ioctlSwitch ioctlSetMsg)).1.message [0x61] :=
  (write_agrees_setMsg_iff (by decide) (by decide) rfl (stringAt_letters _)).mpr rfl

/-- After `bb` the string `a` stored by `device_write` reads back as `ab`. -/
theorem not_write_agrees_setMsg :
    ¬∀ (d : Data (Fin 2)) (p q : UserPtr (Fin 2)) (b : List Byte), b ≠ [] → b.length ≤ bufLen →
      read (d.userBytes p) 0 b.length = b → StringAt (d.userBytes q) b →
      MessageIs (Fin 2) true
          (complete (writeStep p b.length) WritePc.cost d (.get 0)).1.message b ∧
        MessageIs (Fin 2) true
          (ioctlAtomic true q d (ioctlSwitch ioctlSetMsg)).1.message b := by
  intro hall
  obtain ⟨d, hd⟩ : ∃ d : Data (Fin 2),
      d = (complete (writeStep ⟨0, 0⟩ 2) WritePc.cost fresh (.get 0)).1 := ⟨_, rfl⟩
  rw [complete_write] at hd
  obtain ⟨hwrite, -⟩ := hall d ⟨1, 0⟩ ⟨1, 0⟩ [0x61] (by decide) (by decide) (by rw [hd]; rfl)
    (by rw [hd]; exact stringAt_letters _)
  have hnul : d.message 1 = 0 :=
    (messageIs_write_iff (b := [0x61]) (by rw [hd]; rfl) (by decide) (by decide)).mp hwrite
  rw [hd] at hnul
  exact absurd hnul (by decide +kernel)

end Lkmpg.Chardev2
