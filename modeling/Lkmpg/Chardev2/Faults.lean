import Lkmpg.Chardev2.Message

/-!
# Faults in user memory

A call goes through the bytes of its caller's buffer one after another, and one of them may not be
there.  What the call would have to return then, and what it may have stored, is stated for the four
loops at once.  None of them looks at what `get_user` and `put_user` return.
-/

namespace Lkmpg.Chardev2

open LinearMem StringStream Uninterrupted

variable {σ : Type}

/-- `EFAULT` -/
def efault : ℤ := 14

inductive Call (σ : Type) where
  | write (buffer : UserPtr σ) (length : ℕ)
  | read (buffer : UserPtr σ) (length offset : ℕ)
  /-- `IOCTL_SET_MSG` -/
  | setMsg (param : UserPtr σ)
  /-- `IOCTL_GET_MSG` -/
  | getMsg (param : UserPtr σ)

/-- What the call leaves and what it returns, when nobody disturbs it. -/
def Call.run [DecidableEq σ] (signedChar : Bool) (d : Data σ) : Call σ → Data σ × ℤ
  | .write buffer length =>
      let result := complete (writeStep buffer length) WritePc.cost d (.get 0)
      (result.1, result.2.count)
  | .read buffer length offset =>
      let result := complete (readStep buffer offset) ReadPc.cost d (.first length)
      (result.1, result.2.taken.length)
  | .setMsg param => ioctlAtomic signedChar param d (ioctlSwitch ioctlSetMsg)
  | .getMsg param => ioctlAtomic signedChar param d (ioctlSwitch ioctlGetMsg)

/-! ### What a call should do -/

/-- The number of bytes of user memory that the call goes through, up to the first that is not
there: for `IOCTL_SET_MSG`, the string with its NUL, as far as it fits. -/
def Call.span (d : Data σ) : Call σ → ℕ
  | .write _ length => min length bufLen
  | .read _ length offset => strnlen d.message offset length
  | .setMsg param => min (strnlen (d.userBytes param) 0 bufLen + 1) bufLen
  | .getMsg _ => strnlen d.message 0 99 + 1

/-- The access to the byte does not fault. -/
def Call.accessible (d : Data σ) : Call σ → ℕ → Bool
  | .write buffer _, k => (d.user (buffer.add k)).readable
  | .read buffer _ _, k => (d.user (buffer.add k)).writable
  | .setMsg param, k => (d.user (param.add k)).readable
  | .getMsg param, k => (d.user (param.add k)).writable

/-- The first access that faults. -/
def Call.firstFault (d : Data σ) (call : Call σ) : Option ℕ :=
  (List.range (call.span d)).find? fun k => !call.accessible d k

/-- The bytes moved before the first fault, or `-EFAULT`. -/
def transferred (span : ℕ) : Option ℕ → ℤ
  | none => span
  | some 0 => -efault
  | some p => p

/-- What the call should return. -/
def Call.expected (d : Data σ) (call : Call σ) : ℤ :=
  match call with
  | .write _ _ => transferred (call.span d) (call.firstFault d)
  | .read _ _ _ => transferred (call.span d) (call.firstFault d)
  | .setMsg _ => if call.firstFault d = none then 0 else -efault
  | .getMsg _ => if call.firstFault d = none then 0 else -efault

/-- The byte is the one that the user has at this place. -/
def Call.Supplied (d : Data σ) : Call σ → ℕ → Byte → Prop
  | .write buffer _, k, c =>
      (d.user (buffer.add k)).readable = true ∧ (d.user (buffer.add k)).value = c
  | .setMsg param, k, c =>
      (d.user (param.add k)).readable = true ∧ (d.user (param.add k)).value = c
  | _, _, _ => False

/-- The call returns what it should, and each byte of the message that it has changed is one that
the user has supplied. -/
structure Faithful [DecidableEq σ] (signedChar : Bool) (d : Data σ) (call : Call σ) : Prop where
  returns : (call.run signedChar d).2 = call.expected d
  message : ∀ k, (call.run signedChar d).1.message k = d.message k ∨
    call.Supplied d k ((call.run signedChar d).1.message k)

/-- No access of the call faults. -/
def NoFault (d : Data σ) (call : Call σ) : Prop :=
  ∀ k, k < call.span d → call.accessible d k = true

/-! ### What it does -/

section Faithful

variable {d : Data σ} {call : Call σ} {buffer param : UserPtr σ} {length offset n k : ℕ}
  {signedChar : Bool}

theorem firstFault_eq_none_iff : call.firstFault d = none ↔ NoFault d call := by
  simp [Call.firstFault, NoFault]

theorem firstFault_lt {p : ℕ} (h : call.firstFault d = some p) : p < call.span d :=
  List.mem_range.mp (List.mem_of_find?_eq_some h)

theorem span_eq_iff (d : Data σ) (call : Call σ) :
    (call.span d : ℤ) = transferred (call.span d) (call.firstFault d) ↔ call.firstFault d = none := by
  cases hfault : call.firstFault d with
  | none => simp [transferred]
  | some p =>
      have hp := firstFault_lt hfault
      cases p with
      | zero => simp [transferred, efault]
      | succ p => simp [transferred]; omega

theorem zero_eq_iff {fault : Option ℕ} :
    (0 : ℤ) = (if fault = none then 0 else -efault) ↔ fault = none := by
  cases fault with
  | none => simp
  | some p => simp [efault]

/-- What is stored of readable bytes has been supplied. -/
theorem stored_supplied (hread : ∀ i, i < n → (d.user (buffer.add i)).readable = true) (k : ℕ) :
    (d.stored buffer n).message k = d.message k ∨
      (d.user (buffer.add k)).readable = true ∧
        (d.user (buffer.add k)).value = (d.stored buffer n).message k := by
  show write d.message 0 (read (d.userBytes buffer) 0 n) k = _ ∨
    _ ∧ _ = write d.message 0 (read (d.userBytes buffer) 0 n) k
  by_cases hk : k < n
  · have hcell := getElem?_write d.message (read (d.userBytes buffer) 0 n) (Nat.zero_le k)
      (by rw [length_read]; omega)
    rw [Nat.sub_zero, getElem?_read _ _ hk, Nat.zero_add] at hcell
    rw [← Option.some.inj hcell, Data.userBytes, Data.getUser, if_pos (hread k hk)]
    exact Or.inr ⟨hread k hk, rfl⟩
  · left
    exact write_of_ge _ _ (by rw [length_read]; omega)

variable [DecidableEq σ]

theorem faithful_of_returns
    (hreturns : (call.run signedChar d).2 = call.expected d ↔ call.firstFault d = none)
    (hmessage : NoFault d call → ∀ k, (call.run signedChar d).1.message k = d.message k ∨
      call.Supplied d k ((call.run signedChar d).1.message k)) :
    Faithful signedChar d call ↔ NoFault d call := by
  rw [← firstFault_eq_none_iff] at hmessage ⊢
  constructor
  · intro h
    exact hreturns.mp h.returns
  · intro hnone
    exact ⟨hreturns.mpr hnone, hmessage hnone⟩

/-- **Faults.**  For every message, every user memory and every call: the call reports faults as it
should and stores only what it has been given if and only if none of its accesses faults. -/
theorem faithful_iff (signedChar : Bool) (d : Data σ) (call : Call σ) :
    Faithful signedChar d call ↔ NoFault d call := by
  cases call with
  | write buffer length =>
      have hrun : (Call.write buffer length).run signedChar d =
          (d.stored buffer (min length bufLen), ↑(min length bufLen)) := by
        simp only [Call.run, complete_write, WritePc.count]
      apply faithful_of_returns
      · rw [hrun]
        exact span_eq_iff d (.write buffer length)
      · rw [hrun]
        exact stored_supplied
  | read buffer length offset =>
      have hread := complete_read_strnlen d buffer length offset
      have hrun : (Call.read buffer length offset).run signedChar d =
          (d.putAll buffer (read d.message offset (strnlen d.message offset length)),
            ↑(strnlen d.message offset length)) := by
        simp only [Call.run, hread, ReadPc.taken, length_read]
      apply faithful_of_returns
      · rw [hrun]
        exact span_eq_iff d (.read buffer length offset)
      · intro _ k
        rw [hrun, putAll_message]
        exact Or.inl rfl
  | setMsg param =>
      have hrun : (Call.setMsg param).run signedChar d =
          (d.stored param (scanCount (d.userBytes param)), 0) :=
        ioctlAtomic_setMsg_scanCount d param
      have hcount : scanCount (d.userBytes param) ≤ (Call.setMsg param).span d := by
        rw [scanCount]
        split
        · exact Nat.zero_le _
        · exact Nat.le_refl _
      apply faithful_of_returns
      · rw [hrun]
        exact zero_eq_iff
      · intro hnone
        rw [hrun]
        exact stored_supplied fun i hi => hnone i (Nat.lt_of_lt_of_le hi hcount)
  | getMsg param =>
      have hrun : (Call.getMsg param).run signedChar d =
          (d.putAll param (read d.message 0 (strnlen d.message 0 99) ++ [0]), 0) :=
        ioctlAtomic_getMsg_strnlen d param
      apply faithful_of_returns
      · rw [hrun]
        exact zero_eq_iff
      · intro _ k
        rw [hrun, putAll_message]
        exact Or.inl rfl

end Faithful

/-- A `write(2)` of one byte that is not there. -/
theorem not_faithful : ¬∀ (d : Data Unit) (call : Call Unit), Faithful true d call := by
  intro hall
  obtain ⟨d, hd⟩ : ∃ d : Data Unit, d = ⟨fun _ => 0, fun _ => ⟨0, false, false⟩⟩ := ⟨_, rfl⟩
  have hreturns := (hall d (.write ⟨(), 0⟩ 1)).returns
  rw [Call.run, complete_write, hd] at hreturns
  exact absurd hreturns (by decide)

end Lkmpg.Chardev2
