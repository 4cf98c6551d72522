import Lkmpg.Dht11.Decode

/-!
# The samples of `dht11_read_data`

`dht11_read_data` one `gpio_get_value` at a time, on a line that may do anything.  A wait counts down
from 300 and takes a sample more than it counts, so it gives up at the 301st; the counter is then -1,
which it is at no other end of the loop.
-/

namespace Lkmpg.Dht11

/-! ### The machine -/

/-- The loops that wait for an edge. -/
inductive Wait where
  | first
  | second
  | third
  | bitHigh
  | bitLow
  deriving DecidableEq

/-- The level that the loop waits to end. -/
def Wait.level : Wait → Bool
  | .first => true
  | .second => false
  | .third => true
  | .bitHigh => true
  | .bitLow => false

/-- What the next `gpio_get_value` is for. -/
inductive SamplePc where
  | poll (wait : Wait) (timeout : ℤ)
  /-- the bit itself, after `udelay(50)` -/
  | bit
  /-- `dht11_read_data` has returned -/
  | done (result : Except ReadError Unit)

/-- `timeout = 300`, and the loop. -/
def Wait.enter (wait : Wait) : SamplePc := .poll wait 300

/-- What comes after the loop. -/
def Wait.next : Wait → SamplePc
  | .first => Wait.second.enter
  | .second => Wait.third.enter
  | .third => Wait.bitHigh.enter
  | .bitHigh => Wait.bitLow.enter
  | .bitLow => .bit

structure ReadState where
  /-- `sensor_data[0]` to `sensor_data[j - 1]` -/
  sensorData : List Byte
  byte : Byte
  i : ℕ
  msg : List Byte
  pc : SamplePc

def ReadState.start (msg : List Byte) : ReadState := ⟨[], 0, 0, msg, Wait.first.enter⟩

/-- `if (timeout == -1) return -ETIMEDOUT;` -/
def ReadState.leave (s : ReadState) (wait : Wait) (timeout : ℤ) : ReadState :=
  if timeout = -1 then { s with pc := .done (.error .ETIMEDOUT) } else { s with pc := wait.next }

/-- The end of the inner loop, that of the outer one, and what comes after them. -/
def ReadState.endBit (s : ReadState) (value : Bool) : ReadState :=
  let byte := pushBit s.byte value
  if s.i + 1 < 8 then { s with byte := byte, i := s.i + 1, pc := Wait.bitHigh.enter }
  else
    let sensorData := s.sensorData ++ [byte]
    if sensorData.length < 5 then ⟨sensorData, 0, 0, s.msg, Wait.bitHigh.enter⟩
    else if sensorData.getD 4 0 ≠ checksum sensorData then
      ⟨sensorData, byte, s.i + 1, s.msg, .done (.error ReadError.EIO)⟩
    else
      ⟨sensorData, byte, s.i + 1, message (sensorData.getD 0 0) (sensorData.getD 2 0), .done (.ok ())⟩

/-- What is done with the value of the next `gpio_get_value`. -/
def ReadState.sample (s : ReadState) (value : Bool) : ReadState :=
  match s.pc with
  | .poll wait timeout =>
      -- `timeout--` is evaluated if the level is still there
      if value = wait.level then
        if timeout ≠ 0 then { s with pc := .poll wait (timeout - 1) } else s.leave wait (timeout - 1)
      else s.leave wait timeout
  | .bit => s.endBit value
  | .done _ => s

/-- After `n` samples. -/
def after (line : ℕ → Bool) (msg : List Byte) : ℕ → ReadState
  | 0 => .start msg
  | n + 1 => (after line msg n).sample (line n)

/-- The first `n` samples, as far as they are bits. -/
def sampledBits (line : ℕ → Bool) (msg : List Byte) : ℕ → List Bool
  | 0 => []
  | n + 1 => sampledBits line msg n ++
      match (after line msg n).pc with
      | .bit => [line n]
      | _ => []

/-- How many waits have ended with their edge after the first `n` samples. -/
def edges (line : ℕ → Bool) (msg : List Byte) : ℕ → ℕ
  | 0 => 0
  | n + 1 => edges line msg n +
      match (after line msg n).pc with
      | .poll wait _ => if line n = wait.level then 0 else 1
      | _ => 0

/-- The byte that eight of the bits make up. -/
def byteAt (bits : List Bool) (j : ℕ) : Byte := ((bits.drop (8 * j)).take 8).foldl pushBit 0

/-- `dht11_read_data` returns after exactly `n` samples. -/
def Returns (line : ℕ → Bool) (msg : List Byte) (n : ℕ) (result : Except ReadError Unit) : Prop :=
  (after line msg n).pc = .done result ∧ ∀ k, k < n → ∀ result', (after line msg k).pc ≠ .done result'

/-- Some wait begins with 301 samples at the level that it waits to end. -/
def WaitTimesOut (line : ℕ → Bool) (msg : List Byte) : Prop :=
  ∃ k wait, (after line msg k).pc = Wait.enter wait ∧ ∀ i, i < 301 → line (k + i) = wait.level

/-- The fifth byte is the sum of the others modulo 256. -/
def ChecksumHolds (bits : List Bool) : Prop :=
  (byteAt bits 4).toNat = ((byteAt bits 0).toNat + (byteAt bits 1).toNat + (byteAt bits 2).toNat +
    (byteAt bits 3).toNat) % 256

variable {line : ℕ → Bool} {msg : List Byte} {s : ReadState} {wait : Wait} {timeout : ℤ}
  {value : Bool} {n k m : ℕ} {result result' : Except ReadError Unit} {bits : List Bool}

/-! ### One sample -/

theorem sample_again (hpc : s.pc = .poll wait timeout) (hvalue : value = wait.level)
    (hmore : timeout ≠ 0) : s.sample value = { s with pc := .poll wait (timeout - 1) } := by
  simp only [ReadState.sample, hpc, if_pos hvalue, if_pos hmore]

/-- The 301st sample at the level. -/
theorem sample_timeout (hpc : s.pc = .poll wait 0) (hvalue : value = wait.level) :
    s.sample value = { s with pc := .done (.error .ETIMEDOUT) } := by
  simp only [ReadState.sample, hpc, if_pos hvalue, ne_eq, not_true_eq_false, if_false]
  exact if_pos rfl

/-- The edge, at the 301st sample at the latest. -/
theorem sample_edge (hpc : s.pc = .poll wait timeout) (hvalue : value ≠ wait.level)
    (hpos : 0 ≤ timeout) : s.sample value = { s with pc := wait.next } := by
  simp only [ReadState.sample, hpc, if_neg hvalue]
  exact if_neg (by omega)

theorem sample_bit (hpc : s.pc = .bit) (value : Bool) : s.sample value = s.endBit value := by
  simp only [ReadState.sample, hpc]

theorem sample_done (hpc : s.pc = .done result) (value : Bool) : s.sample value = s := by
  simp only [ReadState.sample, hpc]

/-- The next sample after a bit is for the next bit, or there is none. -/
theorem pc_endBit (s : ReadState) (value : Bool) :
    (s.endBit value).pc = Wait.bitHigh.enter ∨ (s.endBit value).pc = .done (.error ReadError.EIO) ∨
      (s.endBit value).pc = .done (.ok ()) := by
  simp only [ReadState.endBit]
  split
  · exact Or.inl rfl
  · split
    · exact Or.inl rfl
    · split
      · exact Or.inr (Or.inl rfl)
      · exact Or.inr (Or.inr rfl)

/-- A call that has returned takes no more samples. -/
theorem after_done (hdone : (after line msg n).pc = .done result) (k : ℕ) :
    after line msg (n + k) = after line msg n := by
  induction k with
  | zero => rfl
  | succ k ih =>
      have hpc : (after line msg (n + k)).pc = .done result := by rw [ih, hdone]
      rw [← Nat.add_assoc, after, sample_done hpc, ih]

theorem Returns.unique (h : Returns line msg n result) (hdone : (after line msg k).pc = .done result') :
    result' = result := by
  have hle : n ≤ k := by
    by_contra hlt
    exact h.2 k (Nat.not_le.mp hlt) result' hdone
  obtain ⟨d, rfl⟩ := Nat.exists_eq_add_of_le hle
  rw [after_done h.1, h.1] at hdone
  exact (SamplePc.done.inj hdone).symm

/-! ### Waits -/

/-- The wait began with the sample `k`, and all samples since have been at its level. -/
def Since (line : ℕ → Bool) (msg : List Byte) (n : ℕ) (wait : Wait) (timeout : ℤ) : Prop :=
  ∃ k m : ℕ, n = k + m ∧ timeout = 300 - m ∧ m ≤ 300 ∧
    (after line msg k).pc = Wait.enter wait ∧ ∀ i, i < m → line (k + i) = wait.level

structure Polled (line : ℕ → Bool) (msg : List Byte) (n : ℕ) : Prop where
  waits : ∀ wait timeout, (after line msg n).pc = .poll wait timeout → Since line msg n wait timeout
  timedOut : (after line msg n).pc = .done (.error .ETIMEDOUT) → WaitTimesOut line msg

/-- A wait is about to begin. -/
theorem polled_enter (hpc : (after line msg n).pc = Wait.enter wait) : Polled line msg n where
  waits wait' timeout hpc' := by
    obtain ⟨rfl, rfl⟩ := SamplePc.poll.inj (hpc.symm.trans hpc')
    exact ⟨n, 0, rfl, by simp, by omega, hpc, nofun⟩
  timedOut hpc' := by cases hpc.symm.trans hpc'

theorem polled_bit (hpc : (after line msg n).pc = .bit) : Polled line msg n where
  waits wait timeout hpc' := by cases hpc.symm.trans hpc'
  timedOut hpc' := by cases hpc.symm.trans hpc'

theorem polled_done (hpc : (after line msg n).pc = .done result)
    (h : result = .error .ETIMEDOUT → WaitTimesOut line msg) : Polled line msg n where
  waits wait timeout hpc' := by cases hpc.symm.trans hpc'
  timedOut hpc' := h (SamplePc.done.inj (hpc.symm.trans hpc'))

/-- **One more sample.** -/
theorem Polled.succ (h : Polled line msg n) : Polled line msg (n + 1) := by
  cases hpc : (after line msg n).pc with
  | done result =>
      have hnext : after line msg (n + 1) = after line msg n := sample_done hpc _
      refine polled_done (hnext ▸ hpc) fun hresult => h.timedOut ?_
      rw [hpc, hresult]
  | bit =>
      have hnext : after line msg (n + 1) = (after line msg n).endBit (line n) := sample_bit hpc _
      rcases pc_endBit (after line msg n) (line n) with henter | herror | hok
      · exact polled_enter (hnext ▸ henter)
      · have hpc' : (after line msg (n + 1)).pc = .done (.error ReadError.EIO) := hnext ▸ herror
        exact polled_done hpc' nofun
      · have hpc' : (after line msg (n + 1)).pc = .done (.ok ()) := hnext ▸ hok
        exact polled_done hpc' nofun
  | poll wait timeout =>
      obtain ⟨k, m, hn, htimeout, hm, hk, hlevel⟩ := h.waits wait timeout hpc
      by_cases hvalue : line n = wait.level
      · have hlevel' : ∀ i, i < m + 1 → line (k + i) = wait.level := by
          intro i hi
          by_cases hlast : i = m
          · rw [hlast, ← hn]
            exact hvalue
          · exact hlevel i (by omega)
        by_cases hmore : timeout = 0
        · -- 301 samples at the level
          subst hmore
          have hnext : after line msg (n + 1) = _ := sample_timeout hpc hvalue
          refine polled_done (congrArg ReadState.pc hnext) fun _ => ?_
          exact ⟨k, wait, hk, fun i hi => hlevel' i (by omega)⟩
        · have hnext : after line msg (n + 1) = _ := sample_again hpc hvalue hmore
          replace hnext := congrArg ReadState.pc hnext
          constructor
          · intro wait' timeout' hpc'
            obtain ⟨rfl, rfl⟩ := SamplePc.poll.inj (hnext.symm.trans hpc')
            exact ⟨k, m + 1, by omega, by push_cast; omega, by omega, hk, hlevel'⟩
          · intro hpc'
            cases hnext.symm.trans hpc'
      · have hnext : after line msg (n + 1) = _ := sample_edge hpc hvalue (by omega)
        replace hnext := congrArg ReadState.pc hnext
        cases wait with
        | bitLow => exact polled_bit hnext
        | first => exact polled_enter hnext
        | second => exact polled_enter hnext
        | third => exact polled_enter hnext
        | bitHigh => exact polled_enter hnext

theorem polled (line : ℕ → Bool) (msg : List Byte) (n : ℕ) : Polled line msg n := by
  induction n with
  | zero => exact polled_enter rfl
  | succ n ih => exact ih.succ

/-- A wait that begins with 301 samples at its level ends the call. -/
theorem done_of_waitTimesOut (h : WaitTimesOut line msg) :
    ∃ n, (after line msg n).pc = .done (.error .ETIMEDOUT) := by
  obtain ⟨k, wait, hk, hlevel⟩ := h
  have hpoll : ∀ m : ℕ, m ≤ 300 → (after line msg (k + m)).pc = .poll wait (300 - m) := by
    intro m
    induction m with
    | zero =>
        intro _
        rw [Nat.cast_zero, sub_zero]
        exact hk
    | succ m ih =>
        intro hm
        have hpc := ih (by omega)
        have hnext : after line msg (k + m + 1) = _ :=
          sample_again hpc (hlevel m (by omega)) (by omega)
        rw [← Nat.add_assoc, hnext]
        exact congrArg (SamplePc.poll wait) (by push_cast; omega)
  obtain ⟨m, hm⟩ : ∃ m, m = 300 := ⟨300, rfl⟩
  have hlast : (after line msg (k + m)).pc = .poll wait 0 := by
    rw [hpoll m (by omega), show (300 : ℤ) - m = 0 by omega]
  have hnext : after line msg (k + m + 1) = _ := sample_timeout hlast (hlevel m (by omega))
  exact ⟨k + m + 1, congrArg ReadState.pc hnext⟩

/-! ### Bits -/

/-- While the bits come in, the variables hold them. -/
structure Reading (bits : List Bool) (msg : List Byte) (s : ReadState) : Prop where
  count : bits.length = 8 * s.sensorData.length + s.i
  inner : s.i < 8
  outer : s.sensorData.length < 5
  bytes : s.sensorData = (List.range s.sensorData.length).map (byteAt bits)
  byte : s.byte = (bits.drop (8 * s.sensorData.length)).foldl pushBit 0
  msg : s.msg = msg

/-- What has become of the bits. -/
structure Decoded (bits : List Bool) (msg : List Byte) (s : ReadState) : Prop where
  reading : (∀ result, s.pc ≠ .done result) → Reading bits msg s
  ok : s.pc = .done (.ok ()) → ChecksumHolds bits ∧ s.msg = message (byteAt bits 0) (byteAt bits 2)
  eio : s.pc = .done (.error ReadError.EIO) → ¬ChecksumHolds bits
  error : ∀ e, s.pc = .done (.error e) → s.msg = msg
  whole : ∀ result, s.pc = .done result → result ≠ .error .ETIMEDOUT → bits.length = 40

/-- The complete bytes do not change. -/
theorem byteAt_concat {j : ℕ} (hj : 8 * (j + 1) ≤ bits.length) (value : Bool) :
    byteAt (bits ++ [value]) j = byteAt bits j := by
  rw [byteAt, byteAt, List.drop_append_of_le_length (by omega),
    List.take_append_of_le_length (by rw [List.length_drop]; omega)]

/-- Another place in the loops, with the same bits. -/
theorem Reading.decoded {pc : SamplePc} (hs : Reading bits msg s)
    (hpc : ∀ result, pc = .done result → result = .error .ETIMEDOUT) :
    Decoded bits msg { s with pc := pc } where
  reading _ := ⟨hs.count, hs.inner, hs.outer, hs.bytes, hs.byte, hs.msg⟩
  ok h := by cases hpc _ h
  eio h := by cases hpc _ h
  error _ _ := hs.msg
  whole result h hresult := absurd (hpc result h) hresult

/-- **One more bit.** -/
theorem Reading.endBit (hs : Reading bits msg s) (value : Bool) :
    Decoded (bits ++ [value]) msg (s.endBit value) := by
  have hcount := hs.count
  have hinner := hs.inner
  have houter := hs.outer
  have hlength : (bits ++ [value]).length = bits.length + 1 := by
    rw [List.length_append, List.length_singleton]
  have hbyte : pushBit s.byte value =
      ((bits ++ [value]).drop (8 * s.sensorData.length)).foldl pushBit 0 := by
    rw [hs.byte, List.drop_append_of_le_length (by omega), List.foldl_append]
    rfl
  have hbytes : s.sensorData = (List.range s.sensorData.length).map (byteAt (bits ++ [value])) := by
    conv_lhs => rw [hs.bytes]
    apply List.map_congr_left
    intro j hj
    have hlt := List.mem_range.mp hj
    exact (byteAt_concat (by omega) value).symm
  simp only [ReadState.endBit]
  split
  · rename_i hmore
    have hmany : (bits ++ [value]).length = 8 * s.sensorData.length + (s.i + 1) := by omega
    exact ⟨fun _ => ⟨hmany, hmore, houter, hbytes, hbyte, hs.msg⟩, nofun, nofun, nofun, nofun⟩
  · rename_i hlast
    -- the byte is complete
    have hnew : pushBit s.byte value = byteAt (bits ++ [value]) s.sensorData.length := by
      rw [hbyte, byteAt, List.take_of_length_le (by rw [List.length_drop]; omega)]
    have hlen : (s.sensorData ++ [pushBit s.byte value]).length = s.sensorData.length + 1 := by
      rw [List.length_append, List.length_singleton]
    have hall : s.sensorData ++ [pushBit s.byte value] =
        (List.range (s.sensorData.length + 1)).map (byteAt (bits ++ [value])) := by
      rw [List.range_succ, List.map_append, ← hbytes, hnew]
      rfl
    split
    · rename_i hbytesLeft
      rw [hlen] at hbytesLeft
      have hmany : (bits ++ [value]).length =
          8 * (s.sensorData ++ [pushBit s.byte value]).length := by omega
      have hnone : (0 : Byte) = ((bits ++ [value]).drop
          (8 * (s.sensorData ++ [pushBit s.byte value]).length)).foldl pushBit 0 := by
        rw [List.drop_of_length_le (Nat.le_of_eq hmany)]
        rfl
      refine ⟨fun _ => ⟨hmany, (by decide : 0 < 8), hlen ▸ hbytesLeft, ?_, hnone, hs.msg⟩,
        nofun, nofun, nofun, nofun⟩
      rw [hlen]
      exact hall
    · rename_i hbytesLeft
      rw [hlen] at hbytesLeft
      have hforty : (bits ++ [value]).length = 40 := by omega
      have hfive : s.sensorData ++ [pushBit s.byte value] =
          [byteAt (bits ++ [value]) 0, byteAt (bits ++ [value]) 1, byteAt (bits ++ [value]) 2,
            byteAt (bits ++ [value]) 3, byteAt (bits ++ [value]) 4] := by
        rw [hall, show s.sensorData.length + 1 = 5 by omega]
        rfl
      have hsum : (s.sensorData ++ [pushBit s.byte value]).getD 4 0 =
          checksum (s.sensorData ++ [pushBit s.byte value]) ↔ ChecksumHolds (bits ++ [value]) := by
        rw [hfive]
        exact checksum_iff
      split
      · rename_i hwrong
        exact ⟨fun h => absurd rfl (h _), nofun, fun _ hholds => hwrong (hsum.mpr hholds),
          fun _ _ => hs.msg, fun _ _ _ => hforty⟩
      · rename_i hright
        refine ⟨fun h => absurd rfl (h _), fun _ => ⟨hsum.mp (not_not.mp hright), ?_⟩, nofun, nofun,
          fun _ _ _ => hforty⟩
        rw [hfive]
        rfl

/-- A sample of a wait changes no variable but the place. -/
theorem sample_poll (hpc : s.pc = .poll wait timeout) (hpos : 0 ≤ timeout) (value : Bool) :
    ∃ pc, s.sample value = { s with pc := pc } ∧
      ∀ result, pc = .done result → result = .error .ETIMEDOUT := by
  by_cases hvalue : value = wait.level
  · by_cases hmore : timeout = 0
    · subst hmore
      exact ⟨_, sample_timeout hpc hvalue, fun _ h => (SamplePc.done.inj h).symm⟩
    · exact ⟨_, sample_again hpc hvalue hmore, nofun⟩
  · refine ⟨_, sample_edge hpc hvalue hpos, ?_⟩
    cases wait <;> exact nofun

theorem timeout_nonneg (hpc : (after line msg n).pc = .poll wait timeout) : 0 ≤ timeout := by
  obtain ⟨k, m, -, htimeout, hm, -, -⟩ := (polled line msg n).waits wait timeout hpc
  omega

theorem decoded (line : ℕ → Bool) (msg : List Byte) (n : ℕ) :
    Decoded (sampledBits line msg n) msg (after line msg n) := by
  induction n with
  | zero =>
      have hstart : Reading [] msg (ReadState.start msg) :=
        ⟨rfl, (by decide : 0 < 8), (by decide : 0 < 5), rfl, rfl, rfl⟩
      exact hstart.decoded nofun
  | succ n ih =>
      rw [sampledBits, after]
      cases hpc : (after line msg n).pc with
      | done result =>
          rw [sample_done hpc]
          exact (List.append_nil _).symm ▸ ih
      | bit =>
          rw [sample_bit hpc]
          exact (ih.reading (by rw [hpc]; exact nofun)).endBit (line n)
      | poll wait timeout =>
          obtain ⟨pc, hnext, hpc'⟩ := sample_poll hpc (timeout_nonneg hpc) (line n)
          rw [hnext]
          have hreading := (ih.reading (by rw [hpc]; exact nofun)).decoded hpc'
          exact (List.append_nil _).symm ▸ hreading

/-! ### The number of waits -/

/-- The waits that come before this one, for the same bit or before the bits. -/
def Wait.rank : Wait → ℕ
  | .first => 0
  | .second => 1
  | .third => 2
  | .bitHigh => 3
  | .bitLow => 4

/-- The waits that have ended, when there are `bits` bits. -/
def SamplePc.ended (bits : ℕ) : SamplePc → ℕ
  | .poll wait _ => wait.rank + 2 * bits
  | .bit => 5 + 2 * bits
  | .done _ => 3 + 2 * bits

theorem ended_next (wait : Wait) (bits : ℕ) : wait.next.ended bits = wait.rank + 2 * bits + 1 := by
  cases wait with
  | bitLow => exact Nat.add_right_comm 4 1 (2 * bits)
  | first => exact Nat.add_right_comm 0 1 (2 * bits)
  | second => exact Nat.add_right_comm 1 1 (2 * bits)
  | third => exact Nat.add_right_comm 2 1 (2 * bits)
  | bitHigh => exact Nat.add_right_comm 3 1 (2 * bits)

/-- Three waits, two for each bit, and those of the bit that is coming. -/
theorem edges_eq (line : ℕ → Bool) (msg : List Byte) (n : ℕ)
    (h : (after line msg n).pc ≠ .done (.error .ETIMEDOUT)) :
    edges line msg n = (after line msg n).pc.ended (sampledBits line msg n).length := by
  induction n with
  | zero => rfl
  | succ n ih =>
      rw [edges, sampledBits]
      cases hpc : (after line msg n).pc with
      | done result =>
          have hnext : after line msg (n + 1) = after line msg n := sample_done hpc _
          rw [hnext] at h ⊢
          rw [ih h, List.append_nil, Nat.add_zero]
      | bit =>
          have hnext : after line msg (n + 1) = (after line msg n).endBit (line n) := sample_bit hpc _
          rw [ih (by rw [hpc]; exact nofun), hpc, hnext, List.length_append, List.length_singleton]
          show 5 + 2 * (sampledBits line msg n).length = _
          rcases pc_endBit (after line msg n) (line n) with henter | herror | hok
          · rw [henter, Wait.enter, SamplePc.ended, Wait.rank]
            omega
          · rw [herror, SamplePc.ended]
            omega
          · rw [hok, SamplePc.ended]
            omega
      | poll wait timeout =>
          rw [ih (by rw [hpc]; exact nofun), hpc, List.append_nil]
          show wait.rank + 2 * (sampledBits line msg n).length +
            (if line n = wait.level then 0 else 1) = _
          by_cases hvalue : line n = wait.level
          · by_cases hmore : timeout = 0
            · subst hmore
              have hnext : after line msg (n + 1) = _ := sample_timeout hpc hvalue
              exact absurd (congrArg ReadState.pc hnext) h
            · have hnext : after line msg (n + 1) = _ := sample_again hpc hvalue hmore
              rw [if_pos hvalue, congrArg ReadState.pc hnext]
              rfl
          · have hnext : after line msg (n + 1) = _ :=
              sample_edge hpc hvalue (timeout_nonneg hpc)
            rw [if_neg hvalue, congrArg ReadState.pc hnext, ended_next]

/-! ### The number of samples -/

/-- The number of samples that may be left after the loop, with `left` bits to go. -/
def Wait.budget (left : ℕ) : Wait → ℕ
  | .first => 301 + (301 + 603 * left)
  | .second => 301 + 603 * left
  | .third => 603 * left
  | .bitHigh => 301 + (1 + 603 * (left - 1))
  | .bitLow => 1 + 603 * (left - 1)

/-- The number of samples that may be left. -/
def SamplePc.budget (left : ℕ) : SamplePc → ℕ
  | .poll wait timeout => (timeout + 1).toNat + wait.budget left
  | .bit => 1 + 603 * (left - 1)
  | .done _ => 0

theorem budget_next (wait : Wait) {left : ℕ} (hleft : 0 < left) :
    wait.next.budget left = wait.budget left := by
  cases wait with
  | third =>
      show 301 + (301 + (1 + 603 * (left - 1))) = 603 * left
      omega
  | _ => rfl

theorem length_sampledBits_lt (h : ∀ result, (after line msg n).pc ≠ .done result) :
    (sampledBits line msg n).length < 40 := by
  have hreading := (decoded line msg n).reading h
  have hcount := hreading.count
  have hinner := hreading.inner
  have houter := hreading.outer
  omega

theorem budget_pos (h : ∀ result, (after line msg n).pc ≠ .done result) (left : ℕ) :
    0 < (after line msg n).pc.budget left := by
  cases hpc : (after line msg n).pc with
  | done result => exact absurd hpc (h result)
  | bit => exact Nat.add_pos_left Nat.one_pos _
  | poll wait timeout =>
      have hpos := timeout_nonneg hpc
      exact Nat.add_pos_left (by omega) _

/-- **One more sample.** -/
theorem budget_succ (h : ∀ result, (after line msg n).pc ≠ .done result) :
    (after line msg (n + 1)).pc.budget (40 - (sampledBits line msg (n + 1)).length) <
      (after line msg n).pc.budget (40 - (sampledBits line msg n).length) := by
  have hmany := length_sampledBits_lt h
  cases hpc : (after line msg n).pc with
  | done result => exact absurd hpc (h result)
  | bit =>
      have hnext : after line msg (n + 1) = (after line msg n).endBit (line n) := sample_bit hpc _
      have hbits : (sampledBits line msg (n + 1)).length = (sampledBits line msg n).length + 1 := by
        rw [sampledBits, hpc, List.length_append, List.length_singleton]
      have hend := pc_endBit (after line msg n) (line n)
      rw [← hnext] at hend
      rcases hend with henter | herror | hok
      · have hmany' := length_sampledBits_lt (n := n + 1) (by rw [henter]; exact nofun)
        rw [henter, hbits]
        show 301 + (301 + (1 + 603 * (40 - ((sampledBits line msg n).length + 1) - 1))) <
          1 + 603 * (40 - (sampledBits line msg n).length - 1)
        omega
      · rw [herror]
        exact Nat.add_pos_left Nat.one_pos _
      · rw [hok]
        exact Nat.add_pos_left Nat.one_pos _
  | poll wait timeout =>
      have hpos := timeout_nonneg hpc
      have hbits : sampledBits line msg (n + 1) = sampledBits line msg n := by
        rw [sampledBits, hpc, List.append_nil]
      rw [hbits, after]
      by_cases hvalue : line n = wait.level
      · by_cases hmore : timeout = 0
        · subst hmore
          rw [sample_timeout hpc hvalue]
          exact Nat.add_pos_left Nat.one_pos _
        · rw [sample_again hpc hvalue hmore]
          show (timeout - 1 + 1).toNat + wait.budget _ < (timeout + 1).toNat + wait.budget _
          omega
      · rw [sample_edge hpc hvalue hpos]
        show wait.next.budget _ < (timeout + 1).toNat + wait.budget _
        rw [budget_next wait (by omega)]
        omega

theorem done_or_budget (line : ℕ → Bool) (msg : List Byte) (n : ℕ) :
    (∃ result, (after line msg n).pc = .done result) ∨
      (after line msg n).pc.budget (40 - (sampledBits line msg n).length) + n ≤ 83 * 301 + 40 := by
  induction n with
  | zero =>
      right
      show 301 + (301 + (301 + 603 * 40)) + 0 ≤ 83 * 301 + 40
      omega
  | succ n ih =>
      by_cases hdone : ∃ result, (after line msg n).pc = .done result
      · obtain ⟨result, hresult⟩ := hdone
        refine Or.inl ⟨result, ?_⟩
        rw [after_done hresult 1, hresult]
      · have hless := budget_succ (not_exists.mp hdone)
        have hle := ih.resolve_left hdone
        exact Or.inr (by omega)

/-- **Termination.**  After 83 waits of 301 samples and 40 bits the call has returned. -/
theorem exists_done (hn : 83 * 301 + 40 ≤ n) : ∃ result, (after line msg n).pc = .done result := by
  by_contra hnone
  have hpos := budget_pos (not_exists.mp hnone) (40 - (sampledBits line msg n).length)
  have hle := (done_or_budget line msg n).resolve_left hnone
  omega

/-! ### The call -/

theorem exists_returns (line : ℕ → Bool) (msg : List Byte) :
    ∃ n result, n ≤ 83 * 301 + 40 ∧ Returns line msg n result := by
  classical
  have hdone : ∃ n result, (after line msg n).pc = .done result := by
    obtain ⟨n, hn⟩ : ∃ n, 83 * 301 + 40 ≤ n := ⟨_, Nat.le_refl _⟩
    exact ⟨n, exists_done hn⟩
  obtain ⟨n, hfind⟩ : ∃ n, n = Nat.find hdone := ⟨_, rfl⟩
  obtain ⟨result, hresult⟩ := Nat.find_spec hdone
  rw [← hfind] at hresult
  refine ⟨n, result, ?_, hresult, fun k hk result' hpc => ?_⟩
  · by_contra hlong
    obtain ⟨m, hm⟩ : ∃ m, m = 83 * 301 + 40 := ⟨_, rfl⟩
    have hlt : m < n := by omega
    rw [hfind] at hlt
    exact Nat.find_min hdone hlt (exists_done (by omega))
  · rw [hfind] at hk
    exact Nat.find_min hdone hk ⟨result', hpc⟩

/-- A timeout is exactly a wait that begins with 301 samples at its level. -/
theorem Returns.etimedout_iff (h : Returns line msg n result) :
    result = .error .ETIMEDOUT ↔ WaitTimesOut line msg := by
  constructor
  · rintro rfl
    exact (polled line msg n).timedOut h.1
  · intro hwait
    obtain ⟨k, hk⟩ := done_of_waitTimesOut hwait
    exact (h.unique hk).symm

/-- Success is exactly the right checksum at the end of all waits. -/
theorem Returns.ok_iff (h : Returns line msg n result) :
    result = .ok () ↔ ¬WaitTimesOut line msg ∧ ChecksumHolds (sampledBits line msg n) := by
  have hdecoded := decoded line msg n
  rw [← h.etimedout_iff]
  constructor
  · rintro rfl
    exact ⟨nofun, (hdecoded.ok h.1).1⟩
  · rintro ⟨hwaits, hsum⟩
    cases result with
    | ok u => rfl
    | error e =>
        cases e with
        | ETIMEDOUT => exact absurd rfl hwaits
        | EIO => exact absurd hsum (hdecoded.eio h.1)

/-- Any other end comes after all waits. -/
theorem Returns.all_waits (h : Returns line msg n result) (hresult : result ≠ .error .ETIMEDOUT) :
    edges line msg n = 83 ∧ (sampledBits line msg n).length = 40 := by
  have hbits := (decoded line msg n).whole result h.1 hresult
  have hpc : (after line msg n).pc ≠ .done (.error .ETIMEDOUT) := by
    rw [h.1]
    exact fun hdone => hresult (SamplePc.done.inj hdone)
  refine ⟨?_, hbits⟩
  rw [edges_eq line msg n hpc, h.1, hbits]
  rfl

/-- The text is there when the call returns 0, and not before. -/
theorem Returns.msg_eq (h : Returns line msg n result) (k : ℕ) :
    (after line msg k).msg = if n ≤ k ∧ result = .ok () then
      message (byteAt (sampledBits line msg n) 0) (byteAt (sampledBits line msg n) 2) else msg := by
  by_cases hk : n ≤ k
  · obtain ⟨d, rfl⟩ := Nat.exists_eq_add_of_le hk
    rw [after_done h.1]
    cases result with
    | ok u =>
        rw [if_pos ⟨hk, rfl⟩]
        exact ((decoded line msg n).ok h.1).2
    | error e =>
        rw [if_neg (fun hok => nomatch hok.2)]
        exact (decoded line msg n).error e h.1
  · rw [if_neg (fun hok => hk hok.1)]
    exact ((decoded line msg k).reading (h.2 k (Nat.not_le.mp hk))).msg

/-- **Any line.**  For every sequence of samples: `dht11_read_data` returns after at most
`83 * 301 + 40` of them; it returns `-ETIMEDOUT` if and only if some wait begins with 301 samples at the
level that it waits to end, and anything else after the edges of all 83 waits and the samples of 40
bits; it returns 0 if and only if no wait times out and the fifth byte is the sum of the others modulo
256; and `msg` changes when it returns 0, and only then. -/
theorem dht11_samples (line : ℕ → Bool) (msg : List Byte) :
    ∃ n result, n ≤ 83 * 301 + 40 ∧ Returns line msg n result ∧
      (result = .error .ETIMEDOUT ↔ WaitTimesOut line msg) ∧
      (result ≠ .error .ETIMEDOUT → edges line msg n = 83 ∧ (sampledBits line msg n).length = 40) ∧
      (result = .ok () ↔ ¬WaitTimesOut line msg ∧ ChecksumHolds (sampledBits line msg n)) ∧
      ∀ k, (after line msg k).msg = if n ≤ k ∧ result = .ok () then
        message (byteAt (sampledBits line msg n) 0) (byteAt (sampledBits line msg n) 2) else msg := by
  obtain ⟨n, result, hn, h⟩ := exists_returns line msg
  exact ⟨n, result, hn, h, h.etimedout_iff, h.all_waits, h.ok_iff, h.msg_eq⟩

end Lkmpg.Dht11
