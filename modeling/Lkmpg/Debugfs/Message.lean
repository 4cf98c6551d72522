import Lkmpg.Lib.CString
import Lkmpg.Lib.Transition
import Lkmpg.Lib.UserCopy

/-!
# The message of `hello-debugfs-file.c`

`message_read` and `message_write` hold `message_lock` while they are at the message, so a history is
one call after another, each at the position of its file or, with `pread(2)` and `pwrite(2)`, at a
position of its own.  `message_write` sets the length and the NUL after the copy and only if it has
copied something; the copy fills what it does not get with zeros even then.
-/

namespace Lkmpg.Debugfs

open LinearMem Transition UserCopy

/-- `MESSAGE_MAX_LEN` -/
def messageMaxLen : ℕ := 128

structure Message where
  message : ℕ → Byte
  messageLen : ℕ

/-- What can be read. -/
def Message.content (m : Message) : List Byte := read m.message 0 m.messageLen

/-- The message has an end, inside of the array. -/
def Message.Terminated (m : Message) : Prop :=
  m.messageLen ≤ messageMaxLen - 1 ∧ m.message m.messageLen = 0

/-- After module load. -/
def Message.init : Message :=
  ⟨fun i => (CString.bytes "debugfs says hello\n").getD i 0, 19⟩

/-- `message_read`: what it returns, what it has copied, and `*ppos`. -/
def messageRead (m : Message) (copied len ppos : ℕ) : Except Errno ℕ × List Byte × ℕ :=
  simpleReadFromBuffer m.message m.messageLen ppos copied len

/-- `message_write`: what it leaves, what it returns, and `*ppos`. -/
def messageWrite (m : Message) (buffer : ℕ → Byte) (copied len ppos : ℕ) :
    Message × Except Errno ℕ × ℕ :=
  if ppos ≠ 0 then (m, .error .EINVAL, ppos)
  else
    let result := simpleWriteToBuffer m.message (messageMaxLen - 1) ppos buffer copied len
    match result.2.1 with
    | .ok n =>
        if 0 < n then
          (⟨Function.update result.1 result.2.2 0, result.2.2⟩, .ok n, result.2.2)
        else ({ m with message := result.1 }, .ok n, result.2.2)
    | .error e => ({ m with message := result.1 }, .error e, result.2.2)

/-! ### Histories -/

variable {φ : Type}

structure State (φ : Type) where
  message : Message
  /-- `f_pos` -/
  fPos : φ → ℕ

def State.init (fPos : φ → ℕ) : State φ := ⟨.init, fPos⟩

/-- Where a call reads or writes. -/
inductive Place (φ : Type) where
  /-- at the position of the file -/
  | file (f : φ)
  /-- `pread(2)` and `pwrite(2)` -/
  | pos (n : ℕ)

inductive Act (φ : Type) where
  /-- `lseek(2)`, or `open(2)` with the position 0 -/
  | seek (f : φ) (pos : ℕ)
  | read (place : Place φ) (copied len : ℕ)
  | write (place : Place φ) (buffer : ℕ → Byte) (copied len : ℕ)

/-- `*ppos` at the start of a call. -/
def State.ppos (s : State φ) : Place φ → ℕ
  | .file f => s.fPos f
  | .pos n => n

variable [DecidableEq φ]

/-- The positions after a call that returns `result`. -/
def State.moved (s : State φ) (place : Place φ) (result : Except Errno ℕ) (ppos : ℕ) : φ → ℕ :=
  match place, result with
  | .file f, .ok _ => Function.update s.fPos f ppos
  | _, _ => s.fPos

def messageStep (s : State φ) : Act φ → Option (State φ)
  | .seek f pos => some { s with fPos := Function.update s.fPos f pos }
  | .read place copied len =>
      let call := messageRead s.message copied len (s.ppos place)
      some { s with fPos := s.moved place call.1 call.2.2 }
  | .write place buffer copied len =>
      let call := messageWrite s.message buffer copied len (s.ppos place)
      some ⟨call.1, s.moved place call.2.1 call.2.2⟩

/-- A call that returns `n > 0` has made the first `n` bytes of its caller what can be read, and one
that returns 0 or an error has left what can be read as it was. -/
def AllOrReported (s : State φ) : Act φ → Prop
  | .write place buffer copied len =>
      match (messageWrite s.message buffer copied len (s.ppos place)).2.1 with
      | .ok 0 => (messageWrite s.message buffer copied len (s.ppos place)).1.content =
          s.message.content
      | .ok n => n ≤ len ∧
          (messageWrite s.message buffer copied len (s.ppos place)).1.content = read buffer 0 n
      | .error _ => (messageWrite s.message buffer copied len (s.ppos place)).1.content =
          s.message.content
  | _ => True

/-- A write at position 0 whose copy fails at the first byte finds nothing but NULs where it would
have written. -/
def NothingErased (s : State φ) : Act φ → Prop
  | .write place _ copied len => s.ppos place = 0 → 0 < len → copied = 0 →
      ∀ i, i < s.message.messageLen → i < min len (messageMaxLen - 1) → s.message.message i = 0
  | _ => True

/-! ### One call -/

section Call

variable {m : Message} {buffer : ℕ → Byte} {copied len ppos : ℕ}

/-- A read delivers a piece of what can be read. -/
theorem messageRead_bytes (m : Message) (copied len ppos : ℕ) :
    (messageRead m copied len ppos).2.1 = (m.content.drop ppos).take (min copied len) :=
  simpleReadFromBuffer_bytes _ _ _ _ _

/-- A write that does not come to the copy. -/
theorem messageWrite_of_not (m : Message) (buffer : ℕ → Byte) (copied : ℕ)
    (h : ppos ≠ 0 ∨ len = 0) :
    (messageWrite m buffer copied len ppos).1 = m ∧
      ∀ n, (messageWrite m buffer copied len ppos).2.1 ≠ .ok (n + 1) := by
  rw [messageWrite]
  by_cases hpos : ppos = 0
  · have hlen : len = 0 := h.resolve_left (not_not.mpr hpos)
    rw [if_neg (not_not.mpr hpos), simpleWriteToBuffer_of_not (Or.inr hlen)]
    exact ⟨rfl, nofun⟩
  · rw [if_pos hpos]
    exact ⟨rfl, nofun⟩

/-- A write whose copy fails at the first byte. -/
theorem messageWrite_of_fault (hlen : 0 < len) :
    messageWrite m buffer 0 len 0 =
      (⟨write m.message 0 (List.replicate (min len (messageMaxLen - 1)) 0), m.messageLen⟩,
        .error .EFAULT, 0) := by
  rw [messageWrite, if_neg (not_not.mpr rfl), simpleWriteToBuffer_of_fault (by decide) hlen]
  rfl

/-- A write that copies something. -/
theorem messageWrite_of_copied (hlen : 0 < len) (hcopied : 0 < copied) {n : ℕ}
    (hn : n = min copied (min len (messageMaxLen - 1))) :
    messageWrite m buffer copied len 0 =
      (⟨Function.update
          (write m.message 0 (arrived buffer copied (min len (messageMaxLen - 1)))) n 0, n⟩,
        .ok n, n) := by
  have hpos : 0 < n := by
    rw [hn]
    exact Nat.lt_min.mpr ⟨hcopied, Nat.lt_min.mpr ⟨hlen, by decide⟩⟩
  rw [messageWrite, if_neg (not_not.mpr rfl),
    simpleWriteToBuffer_of_copied (by decide) hlen hcopied, Nat.sub_zero, Nat.zero_add, ← hn]
  exact if_pos hpos

theorem content_of_copied {n : ℕ} (hn : n = min copied (min len (messageMaxLen - 1)))
    (buffer : ℕ → Byte) :
    Message.content ⟨Function.update
      (write m.message 0 (arrived buffer copied (min len (messageMaxLen - 1)))) n 0, n⟩ =
        read buffer 0 n := by
  obtain ⟨size, hsize⟩ : ∃ size, size = min len (messageMaxLen - 1) := ⟨_, rfl⟩
  rw [← hsize] at hn ⊢
  have hback := read_write m.message 0 (arrived buffer copied size)
  rw [length_arrived] at hback
  have hread : read (write m.message 0 (arrived buffer copied size)) 0 n =
      (arrived buffer copied size).take n := by
    rw [← hback, take_read, hback, Nat.min_eq_left (by omega)]
  have htake := take_arrived buffer copied size
  rw [← hn] at htake
  have hnul : read (Function.update (write m.message 0 (arrived buffer copied size)) n 0) 0 n =
      read (write m.message 0 (arrived buffer copied size)) 0 n :=
    read_congr fun i _ hi => Function.update_of_ne (by omega) _ _
  exact (hnul.trans hread).trans htake

/-- Zeros over the start of the message. -/
theorem content_replicate_iff {n : ℕ} :
    Message.content ⟨write m.message 0 (List.replicate n 0), m.messageLen⟩ = m.content ↔
      ∀ i, i < m.messageLen → i < n → m.message i = 0 := by
  show read (write m.message 0 (List.replicate n 0)) 0 m.messageLen =
    read m.message 0 m.messageLen ↔ _
  simp only [read_inj, Nat.zero_add, write_replicate, Nat.zero_le, true_and]
  refine forall₂_congr fun i _ => ?_
  by_cases hi : i < n
  · rw [if_pos hi, forall_prop_of_true hi, eq_comm]
  · rw [if_neg hi]
    exact iff_of_true rfl fun hin => absurd hin hi

theorem terminated_init : Message.init.Terminated := ⟨by decide, by decide⟩

/-- Whatever a write does, the message has an end. -/
theorem Message.Terminated.write (hm : m.Terminated) :
    (messageWrite m buffer copied len ppos).1.Terminated := by
  by_cases hnot : ppos ≠ 0 ∨ len = 0
  · rw [(messageWrite_of_not m buffer copied hnot).1]
    exact hm
  · simp only [not_or, not_not] at hnot
    obtain ⟨rfl, hlen⟩ := hnot
    rcases Nat.eq_zero_or_pos copied with rfl | hcopied
    · rw [messageWrite_of_fault (Nat.pos_of_ne_zero hlen)]
      refine ⟨hm.1, ?_⟩
      show LinearMem.write m.message 0 (List.replicate _ 0) m.messageLen = 0
      rw [write_replicate]
      split
      · rfl
      · exact hm.2
    · rw [messageWrite_of_copied (Nat.pos_of_ne_zero hlen) hcopied rfl]
      exact ⟨(Nat.min_le_right _ _).trans (Nat.min_le_right _ _), Function.update_self _ _ _⟩

end Call

section History

variable {s t : State φ} {act : Act φ}

/-- **Step.** -/
theorem terminated_step (hs : s.message.Terminated) (h : messageStep s act = some t) :
    t.message.Terminated := by
  cases act with
  | seek f pos =>
      obtain rfl := Option.some.inj h
      exact hs
  | read place copied len =>
      obtain rfl := Option.some.inj h
      exact hs
  | write place buffer copied len =>
      obtain rfl := Option.some.inj h
      exact hs.write

omit [DecidableEq φ] in
/-- A write does as it reports, unless it erases something. -/
theorem allOrReported_iff (s : State φ) (act : Act φ) : AllOrReported s act ↔ NothingErased s act := by
  cases act with
  | seek f pos => exact Iff.rfl
  | read place copied len => exact Iff.rfl
  | write place buffer copied len =>
      rw [AllOrReported, NothingErased]
      obtain ⟨ppos, hppos⟩ : ∃ ppos, ppos = s.ppos place := ⟨_, rfl⟩
      rw [← hppos]
      by_cases hnot : ppos ≠ 0 ∨ len = 0
      · obtain ⟨hsame, hnone⟩ := messageWrite_of_not s.message buffer copied hnot
        rw [hsame]
        refine iff_of_true ?_ fun hpos hlen => absurd hnot (by omega)
        split
        · rfl
        · rename_i n hne hok
          cases n with
          | zero => exact absurd rfl hne
          | succ n => exact absurd hok (hnone n)
        · rfl
      · simp only [not_or, not_not] at hnot
        obtain ⟨rfl, hzero⟩ := hnot
        have hlen : 0 < len := Nat.pos_of_ne_zero hzero
        rcases Nat.eq_zero_or_pos copied with rfl | hcopied
        · rw [messageWrite_of_fault hlen]
          simp only [content_replicate_iff, hlen, forall_const]
        · obtain ⟨n, hn⟩ : ∃ n, n = min copied (min len (messageMaxLen - 1)) := ⟨_, rfl⟩
          rw [messageWrite_of_copied hlen hcopied hn]
          refine iff_of_true ?_ fun _ _ h => absurd h (Nat.ne_of_gt hcopied)
          have hmax : messageMaxLen = 128 := rfl
          have hcontent := content_of_copied (m := s.message) hn buffer
          cases n with
          | zero => omega
          | succ n => exact ⟨by omega, hcontent⟩

end History

/-- **Writes.**  For every history of calls on any files, at any positions, with any lengths and any
faults: the message has an end inside of the array in every state, and each write does to what can be
read what it reports, if and only if none whose copy fails at the first byte erases something. -/
theorem writes_iff (fPos : φ → ℕ) (acts : List (Act φ)) :
    Throughout messageStep (fun s => s.message.Terminated) (State.init fPos) acts ∧
      (Along messageStep AllOrReported (State.init fPos) acts ↔
        Along messageStep NothingErased (State.init fPos) acts) := by
  constructor
  · have hstep : ∀ (s : State φ) act t, s.message.Terminated → messageStep s act = some t →
        t.message.Terminated := fun _ _ _ hs h => terminated_step hs h
    exact throughout_of_invariant hstep (fun _ hs => hs) terminated_init
  · exact along_iff_along (I := fun _ => True) (fun _ _ _ _ _ _ => trivial)
      (fun s act _ => allOrReported_iff s act) trivial

/-- A write of one byte that fails, after module load. -/
theorem not_writes : ¬∀ acts : List (Act Unit),
    Along messageStep AllOrReported (State.init fun _ => 0) acts := by
  intro hall
  have hreported := (hall [.write (.pos 0) (fun _ => 0) 0 1]).1
  rw [allOrReported_iff] at hreported
  exact absurd (hreported rfl (by decide) rfl 0 (by decide) (by decide)) (by decide)

end Lkmpg.Debugfs
