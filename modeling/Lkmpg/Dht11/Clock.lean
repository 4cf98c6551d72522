import Lkmpg.Dht11.Samples

/-!
# The samples in time

When the samples are taken is decided by `udelay`: 1 µs after a sample that did not end a wait, 50 µs
after the one that ended the low phase of a bit, and at once otherwise.  On the samples that it takes
so, the machine returns what `dht11ReadData` returns, and sets `msg` to the same text.
-/

namespace Lkmpg.Dht11

open Waveform

/-- The time until the next sample. -/
def ReadState.delay (s : ReadState) (value : Bool) : ℕ :=
  match s.pc with
  | .poll wait timeout =>
      if value = wait.level then (if timeout ≠ 0 then 1 else 0)
      else if wait = .bitLow then 50 else 0
  | _ => 0

/-- A sample of the line, at the time at which it is taken. -/
def tick (line : ℕ → Bool) (c : ReadState × ℕ) : ReadState × ℕ :=
  (c.1.sample (line c.2), c.2 + c.1.delay (line c.2))

/-- The samples that are taken of the line from time `t` on. -/
def samplesOf (line : ℕ → Bool) (msg : List Byte) (t n : ℕ) : Bool :=
  line ((tick line)^[n] (.start msg, t)).2

variable {line : ℕ → Bool} {msg : List Byte} {s : ReadState} {t n timeout : ℕ}
  {data : Option (List Byte)} {c : ReadState × ℕ}

theorem after_samplesOf (line : ℕ → Bool) (msg : List Byte) (t n : ℕ) :
    after (samplesOf line msg t) msg n = ((tick line)^[n] (.start msg, t)).1 := by
  induction n with
  | zero => rfl
  | succ n ih =>
      rw [after, ih, Function.iterate_succ_apply']
      rfl

/-- The result and the text for the bytes that have been read, if no wait timed out. -/
def conclude (msg : List Byte) : Option (List Byte) → Except ReadError Unit × List Byte
  | none => (.error .ETIMEDOUT, msg)
  | some sensorData =>
      if sensorData.getD 4 0 ≠ checksum sensorData then (.error ReadError.EIO, msg)
      else (.ok (), message (sensorData.getD 0 0) (sensorData.getD 2 0))

/-- The call goes on to its end, with these bytes. -/
def EndsWith (line : ℕ → Bool) (c : ReadState × ℕ) (msg : List Byte) (data : Option (List Byte)) :
    Prop :=
  ∃ n, ((tick line)^[n] c).1.pc = .done (conclude msg data).1 ∧
    ((tick line)^[n] c).1.msg = (conclude msg data).2

theorem EndsWith.tick (h : EndsWith line (tick line c) msg data) : EndsWith line c msg data := by
  obtain ⟨n, hn⟩ := h
  exact ⟨n + 1, hn⟩

/-- **A wait.**  It ends with the edge that `waitWhile` finds, or the call does. -/
theorem endsWith_wait (wait : Wait) {f : ℕ → Option (List Byte)} (hpc : s.pc = .poll wait timeout)
    (h : ∀ t', EndsWith line ({ s with pc := wait.next }, t' + if wait = .bitLow then 50 else 0)
      s.msg (f t')) :
    EndsWith line (s, t) s.msg ((waitWhile line wait.level timeout t).bind f) := by
  induction timeout generalizing s t with
  | zero =>
      rw [waitWhile]
      split
      · rename_i hlevel
        refine EndsWith.tick ⟨0, ?_⟩
        simp [Lkmpg.Dht11.tick, sample_timeout hpc hlevel, conclude]
      · rename_i hedge
        refine EndsWith.tick ?_
        rw [Lkmpg.Dht11.tick]
        simp only [sample_edge hpc hedge (Int.natCast_nonneg 0), ReadState.delay, hpc, if_neg hedge]
        exact h t
  | succ timeout ih =>
      rw [waitWhile]
      split
      · rename_i hlevel
        refine EndsWith.tick ?_
        rw [Lkmpg.Dht11.tick]
        have hmore : ((timeout + 1 : ℕ) : ℤ) ≠ 0 := by omega
        simp only [sample_again hpc hlevel hmore, ReadState.delay, hpc, if_pos hlevel, if_pos hmore]
        refine ih ?_ h
        exact congrArg (SamplePc.poll wait) (by push_cast; omega)
      · rename_i hedge
        refine EndsWith.tick ?_
        rw [Lkmpg.Dht11.tick]
        simp only [sample_edge hpc hedge (Int.natCast_nonneg _), ReadState.delay, hpc, if_neg hedge]
        exact h t

/-- **A bit.** -/
theorem endsWith_bit {f : Bool × ℕ → Option (List Byte)} (hpc : s.pc = Wait.bitHigh.enter)
    (h : ∀ bit t', EndsWith line (s.endBit bit, t') s.msg (f (bit, t'))) :
    EndsWith line (s, t) s.msg ((readBit line t).bind f) := by
  rw [readBit, Option.bind_assoc]
  refine endsWith_wait .bitHigh hpc fun t₁ => ?_
  rw [Option.bind_map]
  refine endsWith_wait (s := { s with pc := Wait.bitLow.enter }) .bitLow rfl fun t₂ => ?_
  exact EndsWith.tick (h (line (t₂ + 50)) (t₂ + 50))

/-- The inner loop has ended with this byte. -/
def ReadState.endByte (s : ReadState) (byte : Byte) : ReadState :=
  let sensorData := s.sensorData ++ [byte]
  if sensorData.length < 5 then ⟨sensorData, 0, 0, s.msg, Wait.bitHigh.enter⟩
  else if sensorData.getD 4 0 ≠ checksum sensorData then
    ⟨sensorData, byte, 8, s.msg, .done (.error ReadError.EIO)⟩
  else ⟨sensorData, byte, 8, message (sensorData.getD 0 0) (sensorData.getD 2 0), .done (.ok ())⟩

/-- **A byte.** -/
theorem endsWith_byte {f : Byte × ℕ → Option (List Byte)} (hpc : s.pc = Wait.bitHigh.enter)
    (hi : s.i + (n + 1) = 8) (h : ∀ byte t', EndsWith line (s.endByte byte, t') s.msg (f (byte, t'))) :
    EndsWith line (s, t) s.msg ((readByte line (n + 1) s.byte t).bind f) := by
  induction n generalizing s t with
  | zero =>
      rw [readByte, Option.bind_assoc]
      refine endsWith_bit hpc fun bit t' => ?_
      have hend : s.endBit bit = s.endByte (pushBit s.byte bit) := by
        have hlast : s.i + 1 = 8 := by omega
        simp only [ReadState.endBit, ReadState.endByte, hlast, Nat.lt_irrefl, if_false]
      rw [hend]
      exact h (pushBit s.byte bit) t'
  | succ n ih =>
      rw [readByte, Option.bind_assoc]
      refine endsWith_bit hpc fun bit t' => ?_
      have hend : s.endBit bit =
          { s with byte := pushBit s.byte bit, i := s.i + 1, pc := Wait.bitHigh.enter } := by
        simp only [ReadState.endBit, if_pos (show s.i + 1 < 8 by omega)]
      rw [hend]
      exact ih rfl (show s.i + 1 + (n + 1) = 8 by omega) h

/-- **Bytes.** -/
theorem endsWith_bytes (hpc : s.pc = Wait.bitHigh.enter) (hi : s.i = 0) (hbyte : s.byte = 0)
    (hlength : s.sensorData.length + (n + 1) = 5) :
    EndsWith line (s, t) s.msg (readBytes line (n + 1) s.sensorData t) := by
  induction n generalizing s t with
  | zero =>
      rw [readBytes, ← hbyte]
      refine endsWith_byte hpc (by omega) fun byte t' => ⟨0, ?_⟩
      have hlast : ¬(s.sensorData ++ [byte]).length < 5 := by
        rw [List.length_append, List.length_singleton]
        omega
      simp only [ReadState.endByte, if_neg hlast, Function.iterate_zero, id_eq, readBytes, conclude]
      split <;> exact ⟨rfl, rfl⟩
  | succ n ih =>
      rw [readBytes, ← hbyte]
      refine endsWith_byte hpc (by omega) fun byte t' => ?_
      have hlen : (s.sensorData ++ [byte]).length = s.sensorData.length + 1 := by
        rw [List.length_append, List.length_singleton]
      have hend : s.endByte byte = ⟨s.sensorData ++ [byte], 0, 0, s.msg, Wait.bitHigh.enter⟩ := by
        simp only [ReadState.endByte, if_pos (show (s.sensorData ++ [byte]).length < 5 by omega)]
      rw [hend]
      exact ih rfl rfl rfl (by simp only [hlen]; omega)

/-- **In time.**  On the samples that it takes of a line, the machine ends as the read does that has
been called at time `t`. -/
theorem dht11ReadData_samples (line : ℕ → Bool) (t : ℕ) (d : Driver) :
    ∃ n, (after (samplesOf line d.msg (t + startSequence)) d.msg n).pc =
        .done (dht11ReadData line t d).2 ∧
      (after (samplesOf line d.msg (t + startSequence)) d.msg n).msg =
        (dht11ReadData line t d).1.msg := by
  have hends : EndsWith line (.start d.msg, t + startSequence) d.msg
      (readSensor line (t + startSequence)) := by
    refine endsWith_wait .first rfl fun t₁ => ?_
    refine endsWith_wait (s := { ReadState.start d.msg with pc := Wait.second.enter }) .second rfl
      fun t₂ => ?_
    refine endsWith_wait (s := { ReadState.start d.msg with pc := Wait.third.enter }) .third rfl
      fun t₃ => ?_
    exact endsWith_bytes (s := { ReadState.start d.msg with pc := Wait.bitHigh.enter }) rfl rfl rfl rfl
  obtain ⟨n, hpc, hmsg⟩ := hends
  refine ⟨n, ?_⟩
  rw [after_samplesOf, hpc, hmsg, dht11ReadData]
  cases readSensor line (t + startSequence) with
  | none => exact ⟨rfl, rfl⟩
  | some sensorData =>
      simp only [conclude]
      split <;> exact ⟨rfl, rfl⟩

end Lkmpg.Dht11
