import Lkmpg.Lib.CString
import Lkmpg.Lib.Transition

/-!
# Reading `/proc/helloworld` of `procfs1.c` and `/proc/buffer1k` of `procfs2.c`

Both files have the same `procfile_read`: it copies the whole of `s`, whatever the length of the
caller's buffer, and `s` includes the terminating NUL of the greeting.
-/

namespace Lkmpg.Procfs

open CString Transition

inductive Source where
  | procfs1
  | procfs2
  deriving DecidableEq

/-- The text of `s`. -/
def greeting : List Byte := bytes "HelloWorld!\n"

/-- `char s[13]` -/
def s : List Byte := greeting ++ [0]

/-- `sizeof(s)` -/
def len : ℕ := 13

theorem length_greeting : greeting.length = 12 := by decide

theorem length_s : s.length = len := by decide

theorem len_ne_zero : len ≠ 0 := by decide

/-- What a call returns, what it has stored in the buffer, and the new `*offset`. -/
structure ReadResult where
  ret : ℕ
  written : List Byte
  offset : ℕ

/-- `copy_to_user` gets as far as `copied`. -/
def readWhole (_bufferLength copied offset : ℕ) : ReadResult :=
  if len ≤ offset then ⟨0, [], offset⟩
  else if copied < len then ⟨0, s.take copied, offset⟩
  else ⟨len, s, offset + len⟩

def procfileRead : Source → (bufferLength copied offset : ℕ) → ReadResult
  | .procfs1 => readWhole
  | .procfs2 => readWhole

/-! ### Sequences of calls -/

structure ReadCall where
  bufferLength : ℕ
  copied : ℕ

structure State where
  offset : ℕ
  /-- what has been delivered since the file was at position 0, by reads of positive lengths -/
  got : Option (List Byte)
  /-- what has been delivered from position 0 until a return of 0 -/
  rounds : List (List Byte)

def State.init (offset : ℕ) : State := ⟨offset, none, []⟩

/-- What has been delivered when a call begins. -/
def State.begin (st : State) (bufferLength : ℕ) : Option (List Byte) :=
  if bufferLength = 0 then none else if st.offset = 0 then some [] else st.got

/-- The call on the file as it is. -/
def State.read (source : Source) (st : State) (c : ReadCall) : ReadResult :=
  procfileRead source c.bufferLength c.copied st.offset

/-- The call returns. -/
def State.ret (st : State) (got : Option (List Byte)) (r : ReadResult) : State :=
  if r.ret = 0 then ⟨r.offset, none, st.rounds ++ got.toList⟩
  else ⟨r.offset, got.map (· ++ r.written.take r.ret), st.rounds⟩

def readsStep (source : Source) (st : State) (c : ReadCall) : Option State :=
  some (st.ret (st.begin c.bufferLength) (st.read source c))

/-- A call keeps to the buffer and delivers bytes of the greeting, and each round delivers all of
it. -/
structure Honours (source : Source) (st : State) (c : ReadCall) : Prop where
  written : (st.read source c).written.length ≤ c.bufferLength
  ret : (st.read source c).ret ≤ c.bufferLength
  stored : (st.read source c).ret ≤ (st.read source c).written.length
  bytes : (st.read source c).written.take (st.read source c).ret =
    (greeting.drop st.offset).take (st.read source c).ret
  rounds : ∀ t, readsStep source st c = some t → ∀ round ∈ t.rounds, round = greeting

/-- A call at the end of `s`; or one that fails in `copy_to_user` before it leaves the buffer, and
does not begin to read the file. -/
def Harmless (st : State) (c : ReadCall) : Prop :=
  len ≤ st.offset ∨
    c.copied < len ∧ c.copied ≤ c.bufferLength ∧ (st.offset = 0 → c.bufferLength = 0)

/-! ### One call -/

variable {source : Source} {st t : State} {c : ReadCall}

theorem read_eq (source : Source) (st : State) (c : ReadCall) :
    st.read source c = readWhole c.bufferLength c.copied st.offset := by
  cases source with
  | procfs1 => rfl
  | procfs2 => rfl

theorem read_of_end (h : len ≤ st.offset) : st.read source c = ⟨0, [], st.offset⟩ := by
  rw [read_eq, readWhole, if_pos h]

theorem read_of_fault (h : st.offset < len) (hcopied : c.copied < len) :
    st.read source c = ⟨0, s.take c.copied, st.offset⟩ := by
  rw [read_eq, readWhole, if_neg (Nat.not_le.mpr h), if_pos hcopied]

theorem read_of_copied (h : st.offset < len) (hcopied : len ≤ c.copied) :
    st.read source c = ⟨len, s, st.offset + len⟩ := by
  rw [read_eq, readWhole, if_neg (Nat.not_le.mpr h), if_neg (Nat.not_lt.mpr hcopied)]

/-- No position of the greeting is followed by as many bytes as `s` has. -/
theorem take_s_ne (offset : ℕ) : s.take len ≠ (greeting.drop offset).take len := by
  intro h
  have hlength := congrArg List.length h
  rw [List.length_take, length_s, Nat.min_self, List.length_take, List.length_drop,
    length_greeting, len] at hlength
  omega

/-- No round has been begun, and none has ended. -/
def Idle (st : State) : Prop := st.got = none ∧ st.rounds = []

theorem idle_init (offset : ℕ) : Idle (State.init offset) := ⟨rfl, rfl⟩

/-- A round that begins with a return of 0 has delivered nothing. -/
theorem ret_of_zero {r : ReadResult} (hst : Idle st) (hret : r.ret = 0) :
    st.ret (st.begin c.bufferLength) r =
      ⟨r.offset, none, if st.offset = 0 ∧ c.bufferLength ≠ 0 then [[]] else []⟩ := by
  rw [State.ret, if_pos hret, hst.2, List.nil_append, State.begin, hst.1]
  by_cases hlength : c.bufferLength = 0
  · rw [if_pos hlength, if_neg fun h => h.2 hlength]
    rfl
  · rw [if_neg hlength]
    by_cases hoffset : st.offset = 0
    · rw [if_pos hoffset, if_pos ⟨hoffset, hlength⟩]
      rfl
    · rw [if_neg hoffset, if_neg fun h => hoffset h.1]
      rfl

/-- The rounds after a return of 0 are those of the greeting if no round has begun with it. -/
theorem rounds_iff_of_zero (hst : Idle st) (hret : (st.read source c).ret = 0) :
    (∀ t, readsStep source st c = some t → ∀ round ∈ t.rounds, round = greeting) ↔
      (st.offset = 0 → c.bufferLength = 0) := by
  rw [readsStep, ret_of_zero hst hret]
  constructor
  · intro h hoffset
    by_contra hlength
    have hround : [] = greeting := by
      refine h _ rfl [] ?_
      rw [if_pos ⟨hoffset, hlength⟩]
      exact List.mem_singleton_self []
    exact absurd hround (by decide)
  · intro h t ht
    obtain rfl := Option.some.inj ht
    show ∀ round ∈ (if st.offset = 0 ∧ c.bufferLength ≠ 0 then [[]] else []), round = greeting
    rw [if_neg fun hboth => hboth.2 (h hboth.1)]
    exact nofun

/-- **Step.**  The calls that do what they should are the harmless ones. -/
theorem honours_iff_harmless (hst : Idle st) : Honours source st c ↔ Harmless st c := by
  by_cases hend : len ≤ st.offset
  · have hread : st.read source c = ⟨0, [], st.offset⟩ := read_of_end hend
    have hrounds := rounds_iff_of_zero (c := c) hst (congrArg ReadResult.ret hread)
    refine iff_of_true ⟨?_, ?_, ?_, ?_, hrounds.mpr fun h => ?_⟩ (Or.inl hend)
    · rw [hread]
      exact Nat.zero_le _
    · rw [hread]
      exact Nat.zero_le _
    · rw [hread]
      exact Nat.zero_le _
    · rw [hread]
      rfl
    · rw [h, len] at hend
      omega
  · rw [Harmless, or_iff_right hend]
    by_cases hcopied : c.copied < len
    · have hread : st.read source c = ⟨0, s.take c.copied, st.offset⟩ :=
        read_of_fault (Nat.not_le.mp hend) hcopied
      have hrounds := rounds_iff_of_zero (c := c) hst (congrArg ReadResult.ret hread)
      have hwritten : (st.read source c).written.length = c.copied := by
        rw [hread]
        show (s.take c.copied).length = c.copied
        rw [List.length_take, length_s, Nat.min_eq_left (Nat.le_of_lt hcopied)]
      rw [and_iff_right hcopied]
      constructor
      · intro h
        exact ⟨hwritten ▸ h.written, hrounds.mp h.rounds⟩
      · rintro ⟨hfits, hbegin⟩
        refine ⟨hwritten.trans_le hfits, ?_, ?_, ?_, hrounds.mpr hbegin⟩
        · rw [hread]
          exact Nat.zero_le _
        · rw [hread]
          exact Nat.zero_le _
        · rw [hread]
          rfl
    · have hread : st.read source c = ⟨len, s, st.offset + len⟩ :=
        read_of_copied (Nat.not_le.mp hend) (Nat.not_lt.mp hcopied)
      refine iff_of_false (fun h => ?_) fun h => hcopied h.1
      have hbytes := h.bytes
      rw [hread] at hbytes
      exact take_s_ne st.offset hbytes

theorem Idle.step (hst : Idle st) (hc : Harmless st c) (h : readsStep source st c = some t) :
    Idle t := by
  have hret : (st.read source c).ret = 0 ∧ (st.offset = 0 → c.bufferLength = 0) := by
    rcases hc with hend | ⟨hcopied, -, hbegin⟩
    · refine ⟨congrArg ReadResult.ret (read_of_end hend), fun h => ?_⟩
      rw [h, len] at hend
      omega
    · refine ⟨?_, hbegin⟩
      by_cases hend : len ≤ st.offset
      · exact congrArg ReadResult.ret (read_of_end hend)
      · exact congrArg ReadResult.ret (read_of_fault (Nat.not_le.mp hend) hcopied)
  rw [readsStep, ret_of_zero hst hret.1, if_neg fun hboth => hboth.2 (hret.2 hboth.1)] at h
  obtain rfl := Option.some.inj h
  exact ⟨rfl, rfl⟩

/-- **Reads of the greeting.**  From every position, whatever calls are made, with buffers of any
lengths: all of them keep to the buffer and deliver the greeting if and only if all of them are
harmless. -/
theorem honours_iff (source : Source) (offset : ℕ) (calls : List ReadCall) :
    Along (readsStep source) (Honours source) (State.init offset) calls ↔
      Along (readsStep source) Harmless (State.init offset) calls :=
  along_iff_along (I := Idle) (fun _ _ _ hst hc h => hst.step hc h)
    (fun _ _ hst => honours_iff_harmless hst) (idle_init offset)

/-- A buffer of five bytes at position 0. -/
theorem not_honours :
    ¬ ∀ (source : Source) (offset : ℕ) (calls : List ReadCall),
      Along (readsStep source) (Honours source) (State.init offset) calls := by
  intro h
  have hwritten : 13 ≤ 5 := (h .procfs1 0 [⟨5, 13⟩]).1.written
  omega

/-! ### Readers whose buffers are large enough -/

/-- What is delivered by calls that do not fail. -/
structure Whole (st : State) : Prop where
  first : st.offset = 0 → st.got = none
  later : st.offset ≠ 0 → len ≤ st.offset ∧ ∀ got, st.got = some got → got = s
  rounds : ∀ round ∈ st.rounds, round = s

theorem Whole.step (hst : Whole st) (hc : len ≤ c.copied) (h : readsStep source st c = some t) :
    Whole t := by
  rw [readsStep] at h
  obtain rfl := Option.some.inj h
  by_cases hoffset : st.offset = 0
  · have hread : st.read source c = ⟨len, s, st.offset + len⟩ :=
      read_of_copied (by rw [hoffset]; decide) hc
    rw [hread, State.ret, if_neg len_ne_zero, hoffset, Nat.zero_add]
    refine ⟨fun h => absurd h len_ne_zero, fun _ => ⟨Nat.le_refl _, ?_⟩, hst.rounds⟩
    intro got hgot
    obtain ⟨begun, hbegun, rfl⟩ := Option.map_eq_some_iff.mp hgot
    rw [State.begin, if_pos hoffset] at hbegun
    split at hbegun
    · cases hbegun
    · obtain rfl := Option.some.inj hbegun
      rfl
  · obtain ⟨hend, hgot⟩ := hst.later hoffset
    have hread : st.read source c = ⟨0, [], st.offset⟩ := read_of_end hend
    rw [hread, State.ret, if_pos rfl]
    refine ⟨fun _ => rfl, fun _ => ⟨hend, nofun⟩, fun round hround => ?_⟩
    rcases List.mem_append.mp hround with hold | hnew
    · exact hst.rounds round hold
    · rw [State.begin, if_neg hoffset] at hnew
      split at hnew
      · cases hnew
      · exact hgot round (Option.mem_toList.mp hnew)

/-- A reader from position 0 whose calls do not fail gets the greeting and its terminator in each
round, whatever the lengths of the buffers. -/
theorem rounds_eq_s {calls : List ReadCall} (hcopied : ∀ c ∈ calls, len ≤ c.copied)
    (hrun : run (readsStep source) (State.init 0) calls = some t) : ∀ round ∈ t.rounds, round = s := by
  have hinit : Whole (State.init 0) := ⟨fun _ => rfl, fun h => absurd rfl h, nofun⟩
  have hwhole : Whole t :=
    run_induction (fun _ _ _ hst hc h => Whole.step hst hc h) hinit (Along.of_forall hcopied) hrun
  exact hwhole.rounds

end Lkmpg.Procfs
