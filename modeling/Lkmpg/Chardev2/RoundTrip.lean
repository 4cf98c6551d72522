import Lkmpg.Chardev2.Bounds
import Lkmpg.Chardev2.Readback

/-!
# From `IOCTL_SET_MSG` to `IOCTL_GET_MSG`

The loop that looks for the end of a message reads the first character a second time, so that it
counts the NUL of a string, but not that of the empty string.  The NUL is stored with the string,
unless there is no room for it, where `message` has one of its own; the empty string stores nothing,
and the old message stays.
-/

namespace Lkmpg.Chardev2

open LinearMem StringStream Transition Uninterrupted

variable {σ : Type} [DecidableEq σ] {signedChar : Bool}

/-- `message` with the given content: the byte after it is never written. -/
def messageOf (content : Fin bufLen → Byte) (i : ℕ) : Byte :=
  if h : i < bufLen then content ⟨i, h⟩ else 0

theorem messageOf_bufLen (content : Fin bufLen → Byte) : messageOf content bufLen = 0 :=
  dif_neg (Nat.lt_irrefl _)

/-- In every state the message is one of these. -/
theorem exists_messageOf {ι : Type} [DecidableEq ι] {user : UserPtr σ → Cell}
    {acts : List (Act σ ι)} {s : State σ ι}
    (hrun : run (chardevStep signedChar) (State.init user) acts = some s) :
    ∃ content, s.data.message = messageOf content := by
  refine ⟨fun k => s.data.message k, funext fun i => ?_⟩
  rw [messageOf]
  split
  · rfl
  · rename_i hend
    exact terminated_of_run hrun i (Nat.not_lt.mp hend)

/-- The process has the string in its memory, and may read it. -/
structure HasString (user : UserPtr σ → Cell) (q : UserPtr σ) (m : List Byte) : Prop where
  readable : ∀ i, i ≤ m.length → (user (q.add i)).readable = true
  string : StringAt (fun i => (user (q.add i)).value) m

/-- `IOCTL_SET_MSG` with the argument `q`, and then `IOCTL_GET_MSG` with the argument `p`. -/
def setThenGet (signedChar : Bool) (d : Data σ) (q p : UserPtr σ) : Data σ × ℤ × ℤ :=
  let set := ioctlAtomic signedChar q d (ioctlSwitch ioctlSetMsg)
  let get := ioctlAtomic signedChar p set.1 (ioctlSwitch ioctlGetMsg)
  (get.1, set.2, get.2)

/-- Both calls return 0, the process finds the first `BUF_LEN` bytes of the string and a NUL, and
nothing else in user memory is changed. -/
structure RoundTrip (signedChar : Bool) (d : Data σ) (q p : UserPtr σ) (m : List Byte) : Prop where
  returns : (setThenGet signedChar d q p).2 = (0, 0)
  received : read ((setThenGet signedChar d q p).1.received p) 0 (min m.length bufLen + 1) =
    m.take bufLen ++ [0]
  frame : ∀ r, (∀ i, i ≤ min m.length bufLen → r ≠ p.add i) →
    (setThenGet signedChar d q p).1.user r = d.user r

section Calls

variable {d : Data σ} {q p : UserPtr σ} {m text : List Byte}

omit [DecidableEq σ] in
theorem HasString.userBytes (h : HasString d.user q m) : StringAt (d.userBytes q) m := by
  have hcell : ∀ i, i ≤ m.length → d.userBytes q i = (d.user (q.add i)).value :=
    fun i hi => if_pos (h.readable i hi)
  refine ⟨fun i hi => ?_, ?_, h.string.nonzero⟩
  · rw [hcell i (Nat.le_of_lt hi)]
    exact h.string.cell i hi
  · rw [hcell m.length (Nat.le_refl _)]
    exact h.string.nul

/-- What the process gets is the string that is in `message` after the first call. -/
theorem setThenGet_eq (hq : StringAt (d.userBytes q) m)
    (htext : StringAt (d.stored q (scanned m)).message text) (hlen : text.length ≤ bufLen) :
    setThenGet signedChar d q p =
      ((d.stored q (scanned m)).putAll p (text ++ [0]), 0, 0) := by
  have hbuf : bufLen = 80 := rfl
  simp only [setThenGet, ioctlAtomic_setMsg hq, ioctlAtomic_getMsg htext (by omega)]

/-- A string that is not empty comes back. -/
theorem roundTrip_of_ne_nil (hq : StringAt (d.userBytes q) m) (hne : m ≠ [])
    (hend : d.message bufLen = 0) (hp : Writable d.user p (min m.length bufLen + 1)) :
    RoundTrip signedChar d q p m := by
  have hlen : (m.take bufLen ++ [0]).length = min m.length bufLen + 1 := by
    rw [List.length_append, List.length_take, List.length_singleton, Nat.min_comm]
  have htext : StringAt (d.stored q (scanned m)).message (m.take bufLen) := by
    have hset : StringAt (ioctlAtomic signedChar q d (ioctlSwitch ioctlSetMsg)).1.message
        (m.take bufLen) := stringAt_setMsg hq hne (Or.inr hend)
    rw [ioctlAtomic_setMsg hq] at hset
    exact hset
  have hcalls : setThenGet signedChar d q p =
      ((d.stored q (scanned m)).putAll p (m.take bufLen ++ [0]), 0, 0) :=
    setThenGet_eq hq htext (List.length_take_le _ _)
  refine ⟨by rw [hcalls], ?_, fun r hr => ?_⟩
  · rw [hcalls, ← hlen]
    have hsmall : (m.take bufLen ++ [0]).length ≤ 2 ^ 64 := by
      have hmin := Nat.min_le_right m.length bufLen
      have hbuf : bufLen = 80 := rfl
      omega
    refine (delivered_putAll (d.stored q (scanned m)) p hsmall).received ?_
    rw [hlen]
    exact hp
  · rw [hcalls, putAll_user_of_ne fun i hi => hr i (by omega)]
    rfl

/-- The empty string leaves the message as it was, and so it comes back only as an empty message. -/
theorem roundTrip_nil_iff (hq : StringAt (d.userBytes q) []) (hend : d.message bufLen = 0)
    (hp : (d.user p).writable = true) : RoundTrip signedChar d q p [] ↔ d.message 0 = 0 := by
  have hstored : d.stored q (scanned []) = d := stored_zero d q
  obtain ⟨text, htext, hlen⟩ := exists_stringAt hend
  have hcalls : setThenGet signedChar d q p = (d.putAll p (text ++ [0]), 0, 0) := by
    have hall : setThenGet signedChar d q p =
        ((d.stored q (scanned [])).putAll p (text ++ [0]), 0, 0) :=
      setThenGet_eq hq (hstored ▸ htext) hlen
    rw [hall, hstored]
  have hbuf : bufLen = 80 := rfl
  have hsmall : (text ++ [0]).length ≤ 2 ^ 64 := by
    rw [List.length_append, List.length_singleton]
    omega
  have hfirst : (text ++ [0])[0]? = some ((d.putAll p (text ++ [0])).received p 0) :=
    putAll_value hsmall (by simp) (by rw [UserPtr.add_zero]; exact hp)
  constructor
  · intro h
    -- the first byte that is delivered is that of the old message
    have hreceived : [(d.putAll p (text ++ [0])).received p 0] = [0] := by
      have hread := h.received
      rw [hcalls] at hread
      exact hread
    rw [(List.cons.inj hreceived).1] at hfirst
    cases text with
    | nil => exact htext.nul
    | cons c cs => exact absurd (Option.some.inj hfirst) (htext.nonzero c List.mem_cons_self)
  · intro hzero
    obtain rfl : text = [] := by
      cases text with
      | nil => rfl
      | cons c cs => exact absurd hzero (htext.ne_zero (Nat.succ_pos _))
    refine ⟨by rw [hcalls], ?_, fun r hr => ?_⟩
    · rw [hcalls]
      show [(d.putAll p [0]).received p 0] = [0]
      exact congrArg (fun c => [c]) (Option.some.inj hfirst).symm
    · rw [hcalls]
      refine putAll_user_of_ne fun i hi => hr i ?_
      rw [List.nil_append, List.length_singleton] at hi
      omega

end Calls

/-- **Set and get.**  For every content of the message, every string in readable memory and every
buffer that is writable as far as the string needs it, `IOCTL_GET_MSG` delivers what `IOCTL_SET_MSG`
has been given if and only if the string is not empty or the message was empty before. -/
theorem roundTrip_iff (content : Fin bufLen → Byte) {user : UserPtr σ → Cell} {q p : UserPtr σ}
    {m : List Byte} (hq : HasString user q m) (hp : Writable user p (min m.length bufLen + 1)) :
    RoundTrip signedChar ⟨messageOf content, user⟩ q p m ↔
      m ≠ [] ∨ messageOf content 0 = 0 := by
  obtain ⟨d, hd⟩ : ∃ d : Data σ, d = ⟨messageOf content, user⟩ := ⟨_, rfl⟩
  have hend : d.message bufLen = 0 := by
    rw [hd]
    exact messageOf_bufLen content
  have hstring : StringAt (d.userBytes q) m := by
    rw [hd]
    exact HasString.userBytes hq
  have hwritable : Writable d.user p (min m.length bufLen + 1) := by
    rw [hd]
    exact hp
  rw [show messageOf content 0 = d.message 0 by rw [hd], ← hd]
  by_cases hne : m = []
  · subst hne
    rw [or_iff_right (not_not.mpr rfl)]
    have hfirst := hwritable 0 (Nat.succ_pos _)
    rw [UserPtr.add_zero] at hfirst
    exact roundTrip_nil_iff hstring hend hfirst
  · exact iff_of_true (roundTrip_of_ne_nil hstring hne hend hwritable) (Or.inl hne)

/-! ### The empty string -/

/-- Address space 0 is full of NULs, and the others begin with the string `a`. -/
def nuls (p : UserPtr (Fin 2)) : Cell :=
  ⟨if p.space ≠ 0 ∧ p.addr = 0 then 0x61 else 0, true, true⟩

theorem hasString_nuls : HasString nuls ⟨1, 0⟩ [0x61] where
  readable _ _ := rfl
  string := by
    refine ⟨fun i hi => ?_, rfl, by decide⟩
    obtain rfl : i = 0 := Nat.lt_one_iff.mp hi
    rfl

theorem roundTrip_iff_letter :
    RoundTrip true ⟨messageOf fun _ => 0x62, nuls⟩ ⟨1, 0⟩ ⟨0, 0⟩ [0x61] :=
  (roundTrip_iff _ hasString_nuls fun _ _ => rfl).mpr (Or.inl (by decide))

/-- The message is not empty, and the empty string is set. -/
theorem not_roundTrip_empty :
    ¬∀ (content : Fin bufLen → Byte) (user : UserPtr (Fin 2) → Cell) (q p : UserPtr (Fin 2))
      (m : List Byte), HasString user q m → Writable user p (min m.length bufLen + 1) →
      RoundTrip true ⟨messageOf content, user⟩ q p m := by
  intro hall
  have hnil : HasString nuls ⟨0, 0⟩ [] := ⟨fun _ _ => rfl, ⟨nofun, rfl, nofun⟩⟩
  have hround := hall (fun _ => 0x62) nuls ⟨0, 0⟩ ⟨0, 0⟩ [] hnil fun _ _ => rfl
  have hend : messageOf (fun _ => 0x62) bufLen = 0 := messageOf_bufLen _
  have hzero : messageOf (fun _ => 0x62) 0 = 0 :=
    (roundTrip_nil_iff hnil.userBytes hend rfl).mp hround
  exact absurd hzero (by decide)

end Lkmpg.Chardev2
