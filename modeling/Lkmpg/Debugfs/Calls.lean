import Lkmpg.Debugfs.Message
import Lkmpg.Lib.Locked

/-!
# `message_read` and `message_write` byte by byte

The copies between `message` and user memory take one step a byte, and `message_len` and the NUL are
stores of their own.  Calls of any number of processes may come in any order; `message_lock` keeps
each of these steps away from those of the others.
-/

namespace Lkmpg.Debugfs

open Atomic LinearMem Locked Transition UserCopy

/-- A call with `*ppos`.  A copy gets as far as `copied`. -/
inductive Op where
  | messageRead (copied len ppos : ℕ)
  | messageWrite (buffer : ℕ → Byte) (copied len ppos : ℕ)

/-- What is returned, what is in the buffer of the reader, and `*ppos`. -/
abbrev Ret : Type := Except Errno ℕ × List Byte × ℕ

/-- A call alone. -/
def Message.apply (m : Message) : Op → Option (Message × Ret)
  | .messageRead copied len ppos => some (m, messageRead m copied len ppos)
  | .messageWrite buffer copied len ppos =>
      let call := messageWrite m buffer copied len ppos
      some (call.1, call.2.1, [], call.2.2)

/-- Where a call is that has `message_lock`, and its variables. -/
inductive Vars where
  /-- `simple_read_from_buffer` -/
  | readStart (copied len ppos : ℕ)
  /-- `copy_to_user`, which gets as far as `count` bytes; those of `got` are there -/
  | reading (pos count : ℕ) (got : List Byte)
  /-- `simple_write_to_buffer` -/
  | writeStart (buffer : ℕ → Byte) (copied len ppos : ℕ)
  /-- `copy_from_user` of `count` bytes, of which `k` are there; what does not arrive is zero -/
  | writing (buffer : ℕ → Byte) (copied pos count k : ℕ)
  /-- before `message_len = *ppos` -/
  | setLen (copied ppos : ℕ)
  /-- before `message[message_len] = '\\0'` -/
  | setNul (copied ppos : ℕ)

/-- A step under the lock. -/
def micro (m : Message) : Vars → Message × (Vars ⊕ Ret)
  | .readStart copied len ppos =>
      if m.messageLen ≤ ppos ∨ len = 0 then (m, .inr (.ok 0, [], ppos))
      else (m, .inl (.reading ppos (min copied (min len (m.messageLen - ppos))) []))
  | .reading pos count got =>
      if got.length < count then
        (m, .inl (.reading pos count (got ++ [m.message (pos + got.length)])))
      else if count = 0 then (m, .inr (.error .EFAULT, [], pos))
      else (m, .inr (.ok count, got, pos + count))
  | .writeStart buffer copied len ppos =>
      if messageMaxLen - 1 ≤ ppos ∨ len = 0 then (m, .inr (.ok 0, [], ppos))
      else (m, .inl (.writing buffer copied ppos (min len (messageMaxLen - 1 - ppos)) 0))
  | .writing buffer copied pos count k =>
      if k < count then
        ({ m with message := Function.update m.message (pos + k) (if k < copied then buffer k else 0) },
          .inl (.writing buffer copied pos count (k + 1)))
      else
        let res := count - copied
        if res = count then (m, .inr (.error .EFAULT, [], pos))
        else if 0 < count - res then (m, .inl (.setLen (count - res) (pos + (count - res))))
        else (m, .inr (.ok (count - res), [], pos + (count - res)))
  | .setLen copied ppos => ({ m with messageLen := ppos }, .inl (.setNul copied ppos))
  | .setNul copied ppos =>
      ({ m with message := Function.update m.message m.messageLen 0 }, .inr (.ok copied, [], ppos))

/-- The two functions: `message_write` looks at `*ppos` before it locks. -/
def code : Code Message Op Ret Vars where
  enter
    | .messageRead copied len ppos => .ok (.readStart copied len ppos)
    | .messageWrite buffer copied len ppos =>
        if ppos ≠ 0 then .error (.error .EINVAL, [], ppos)
        else .ok (.writeStart buffer copied len ppos)
  micro := micro

/-! ### A call alone -/

section Alone

variable {m : Message} {buffer : ℕ → Byte} {copied len pos count k : ℕ}

theorem exec_reading_end (m : Message) (pos count : ℕ) :
    Exec code m (.reading pos count (read m.message pos count)) m
      (if count = 0 then (.error .EFAULT, [], pos)
        else (.ok count, read m.message pos count, pos + count)) := by
  refine .last ?_
  simp only [code, micro, length_read, Nat.lt_irrefl, if_false]
  split <;> rfl

/-- The loop of the copy: what is there is the beginning of what is to come. -/
theorem exec_reading (m : Message) (pos : ℕ) {count k : ℕ} (hk : k ≤ count) :
    Exec code m (.reading pos count (read m.message pos k)) m
      (if count = 0 then (.error .EFAULT, [], pos)
        else (.ok count, read m.message pos count, pos + count)) := by
  induction hk using Nat.decreasingInduction with
  | self => exact exec_reading_end m pos count
  | of_succ k hk ih =>
      refine .next ?_ ih
      simp only [code, micro, length_read, if_pos hk, read_succ]

theorem exec_readStart (m : Message) (copied len ppos : ℕ) :
    Exec code m (.readStart copied len ppos) m (messageRead m copied len ppos) := by
  rw [messageRead, simpleReadFromBuffer]
  by_cases hnot : m.messageLen ≤ ppos ∨ len = 0
  · refine .last ?_
    simp only [code, micro, if_pos hnot]
  · have hloop := exec_reading m ppos (Nat.zero_le (min copied (min len (m.messageLen - ppos))))
    rw [if_neg hnot]
    refine .next ?_ hloop
    simp only [code, micro, if_neg hnot]
    rfl

/-- What `message_write` returns. -/
def writeRet (call : Message × Except Errno ℕ × ℕ) : Ret := (call.2.1, [], call.2.2)

/-- After the copy. -/
theorem exec_writing_end (m : Message) (buffer : ℕ → Byte) (copied : ℕ) {len count : ℕ}
    (hlen : 0 < len) (hcount : count = min len (messageMaxLen - 1)) :
    Exec code { m with message := write m.message 0 (arrived buffer copied count) }
      (.writing buffer copied 0 count count) (messageWrite m buffer copied len 0).1
      (writeRet (messageWrite m buffer copied len 0)) := by
  have hpos : 0 < count := by
    rw [hcount]
    exact Nat.lt_min.mpr ⟨hlen, by decide⟩
  rcases Nat.eq_zero_or_pos copied with rfl | hcopied
  · rw [messageWrite_of_fault hlen, ← hcount]
    refine .last ?_
    have harrived : arrived buffer 0 count = List.replicate count 0 := by
      simp [arrived, LinearMem.read]
    simp only [code, micro, Nat.lt_irrefl, if_false, Nat.sub_zero, if_true, harrived]
    rfl
  · obtain ⟨n, hn⟩ : ∃ n, n = min copied count := ⟨_, rfl⟩
    have hsub : count - (count - copied) = n := by omega
    have hfault : ¬count - copied = count := by omega
    have hsome : 0 < n := by omega
    rw [messageWrite_of_copied hlen hcopied (hcount ▸ hn), ← hcount]
    obtain ⟨full, hfull⟩ : ∃ full, full = write m.message 0 (arrived buffer copied count) := ⟨_, rfl⟩
    rw [← hfull]
    have hstores : Exec code ⟨full, m.messageLen⟩ (.setLen n n) ⟨Function.update full n 0, n⟩
        (.ok n, [], n) := .next rfl (.last rfl)
    refine .next ?_ hstores
    simp only [code, micro, Nat.lt_irrefl, if_false, hfault, hsub, hsome, if_true, Nat.zero_add]

/-- The loop of the copy. -/
theorem exec_writing (m : Message) (buffer : ℕ → Byte) (copied : ℕ) {len count k : ℕ}
    (hlen : 0 < len) (hcount : count = min len (messageMaxLen - 1)) (hk : k ≤ count) :
    Exec code { m with message := write m.message 0 ((arrived buffer copied count).take k) }
      (.writing buffer copied 0 count k) (messageWrite m buffer copied len 0).1
      (writeRet (messageWrite m buffer copied len 0)) := by
  induction hk using Nat.decreasingInduction with
  | self =>
      rw [List.take_of_length_le (Nat.le_of_eq (length_arrived _ _ _))]
      exact exec_writing_end m buffer copied hlen hcount
  | of_succ k hk ih =>
      rw [write_take_arrived_succ _ _ _ _ hk] at ih
      refine .next ?_ ih
      simp only [code, micro, if_pos hk]

theorem exec_writeStart (m : Message) (buffer : ℕ → Byte) (copied len : ℕ) :
    Exec code m (.writeStart buffer copied len 0) (messageWrite m buffer copied len 0).1
      (writeRet (messageWrite m buffer copied len 0)) := by
  rcases Nat.eq_zero_or_pos len with rfl | hlen
  · refine .last ?_
    rw [messageWrite, if_neg (not_not.mpr rfl), simpleWriteToBuffer_of_not (Or.inr rfl)]
    rfl
  · have hloop := exec_writing m buffer copied hlen rfl (Nat.zero_le _)
    rw [List.take_zero, write_nil] at hloop
    refine .next ?_ hloop
    have hgo : ¬(messageMaxLen - 1 ≤ 0 ∨ len = 0) := by
      rw [messageMaxLen]
      omega
    simp only [code, micro, if_neg hgo, Nat.sub_zero]

end Alone

/-- Byte by byte the two functions do what they do. -/
theorem implements : Implements code Message.apply where
  returned op r henter m := by
    cases op with
    | messageRead copied len ppos => cases henter
    | messageWrite buffer copied len ppos =>
        simp only [code] at henter
        split at henter
        · rename_i hpos
          obtain rfl := Except.error.inj henter
          rw [Message.apply, messageWrite, if_pos hpos]
        · cases henter
  ended op k henter m := by
    cases op with
    | messageRead copied len ppos =>
        obtain rfl := Except.ok.inj henter
        exact ⟨_, _, exec_readStart m copied len ppos, rfl⟩
    | messageWrite buffer copied len ppos =>
        simp only [code] at henter
        split at henter
        · cases henter
        · rename_i hpos
          obtain rfl := not_not.mp hpos
          obtain rfl := Except.ok.inj henter
          exact ⟨_, _, exec_writeStart m buffer copied len, rfl⟩

/-! ### Texts stay whole -/

section History

variable {ι : Type} {h : List (Event ι Op Ret)} {m : Message}

/-- The text after module load, or the one that a call of `message_write` has brought. -/
def Brought (h : List (Event ι Op Ret)) (text : List Byte) : Prop :=
  text = Message.init.content ∨
    ∃ i buffer copied len, .call i (.messageWrite buffer copied len 0) ∈ h ∧
      text = read buffer 0 (min copied (min len (messageMaxLen - 1)))

/-- No `copy_from_user` fails at its first byte. -/
def FirstByteArrives (h : List (Event ι Op Ret)) : Prop :=
  ∀ i buffer copied len, .call i (.messageWrite buffer copied len 0) ∈ h → 0 < len → 0 < copied

/-- A call of `message_read` gets a piece of one text. -/
def Delivers (h : List (Event ι Op Ret)) : Op → Ret → Prop
  | .messageRead copied len ppos, r =>
      ∃ text, Brought h text ∧ r.2.1 = (text.drop ppos).take (min copied len)
  | .messageWrite _ _ _ _, r => r.2.1 = []

theorem Brought.write {i : ι} {buffer : ℕ → Byte} {copied len ppos : ℕ} (hm : Brought h m.content)
    (hcall : .call i (.messageWrite buffer copied len ppos) ∈ h) (harrives : FirstByteArrives h) :
    Brought h (messageWrite m buffer copied len ppos).1.content := by
  by_cases hnot : ppos ≠ 0 ∨ len = 0
  · rw [(messageWrite_of_not m buffer copied hnot).1]
    exact hm
  · simp only [not_or, not_not] at hnot
    obtain ⟨rfl, hzero⟩ := hnot
    have hlen : 0 < len := Nat.pos_of_ne_zero hzero
    have hcopied := harrives i buffer copied len hcall hlen
    rw [messageWrite_of_copied hlen hcopied rfl, content_of_copied (m := m) rfl buffer]
    exact Or.inr ⟨i, buffer, copied, len, hcall, rfl⟩

/-- One call of the history, alone. -/
theorem delivers_of_apply {v w : Message} {i : ι} {op : Op} {r : Ret} (hv : Brought h v.content)
    (hcall : .call i op ∈ h) (harrives : FirstByteArrives h) (happly : v.apply op = some (w, r)) :
    Brought h w.content ∧ Delivers h op r := by
  cases op with
  | messageRead copied len ppos =>
      obtain ⟨rfl, rfl⟩ := Prod.mk.inj (Option.some.inj happly)
      exact ⟨hv, v.content, hv, messageRead_bytes v copied len ppos⟩
  | messageWrite buffer copied len ppos =>
      obtain ⟨rfl, rfl⟩ := Prod.mk.inj (Option.some.inj happly)
      exact ⟨hv.write hcall harrives, rfl⟩

end History

/-- **One message for all.**  In every interleaving of the single steps of the calls of any number of
processes: each call does in one moment between its beginning and its return what it does alone; if
no copy fails at its first byte, each read gets a piece of one whole text, of those that were written
or the first one; and whoever has `message_lock` comes to release it. -/
theorem message_atomic {ι : Type} [DecidableEq ι] (acts : List (Locked.Act ι Op))
    {t : Locked.State Message Vars ι} (hrun : run (step code) (.init Message.init) acts = some t) :
    Linearizable Message.apply Message.init (history code Message.init acts) ∧
      (FirstByteArrives (history code Message.init acts) →
        ∀ i r, .ret i r ∈ history code Message.init acts →
          ∃ op, .call i op ∈ history code Message.init acts ∧
            Delivers (history code Message.init acts) op r) ∧
      ∀ i, t.owner = some i →
        ∃ n u, run (step code) t (List.replicate n (.micro i)) = some u ∧ u.owner = none := by
  have hlin := linearizable implements hrun
  refine ⟨hlin, fun harrives => ?_, fun i howner => released implements hrun howner⟩
  exact hlin.replies
    (fun v i op w r hv hcall happly => delivers_of_apply hv hcall harrives happly)
    (Or.inl rfl) fun i op hcall => hcall

/-- A byte is written while another process waits to read. -/
def writeAndRead : List (Locked.Act Bool Op) :=
  [.call true (.messageRead 1 1 0), .call false (.messageWrite (fun _ => 65) 1 1 0), .lock false,
    .micro false, .micro false, .micro false, .micro false, .micro false, .lock true, .micro true,
    .micro true, .micro true]

theorem message_atomic_writeAndRead : Linearizable Message.apply Message.init
    [.call true (.messageRead 1 1 0), .call false (.messageWrite (fun _ => 65) 1 1 0),
      .ret false (.ok 1, [], 1), .ret true (.ok 1, [65], 1)] :=
  (message_atomic writeAndRead (t := _) rfl).1

end Lkmpg.Debugfs
