import Lkmpg.Lib.CString
import Lkmpg.Lib.Waveform

/-!
# Decoding the DHT11 sensor

`dht11_read_data` samples the line in polling loops and reads each bit 50 µs after a rising edge.
After a 0 bit it is then in the next low phase already, and its next loop falls through; after a 1
bit it still has to wait for the end of the high phase.  Time is in microseconds, and only `udelay`
and `mdelay` take any.
-/

namespace Lkmpg.Dht11

open CString Waveform

/-! ### `dht11_read_data` -/

inductive ReadError where
  | ETIMEDOUT
  | EIO
  deriving DecidableEq

/-- What a read leaves behind. -/
structure Driver where
  /-- `msg` -/
  msg : List Byte
  /-- the level that the host puts on the line; `none` while it is an input -/
  drive : Option Bool
  deriving DecidableEq

/-- The start sequence: `mdelay(20)` at low level, `udelay(30)` at high level, and `udelay(2)` as an
input. -/
def startSequence : ℕ := 20 * 1000 + 30 + 2

/-- The bit, and the time after it. -/
def readBit (line : ℕ → Bool) (t : ℕ) : Option (Bool × ℕ) :=
  (waitWhile line true 300 t).bind fun t =>
    (waitWhile line false 300 t).map fun t => (line (t + 50), t + 50)

/-- `byte <<= 1`, and `byte |= 0x01` for a high level. -/
def pushBit (byte : Byte) (bit : Bool) : Byte := (byte <<< 1) ||| (if bit then 1 else 0)

/-- The loop over `i`, with `n` rounds to go. -/
def readByte (line : ℕ → Bool) : ℕ → Byte → ℕ → Option (Byte × ℕ)
  | 0, byte, t => some (byte, t)
  | n + 1, byte, t =>
      (readBit line t).bind fun (bit, t) => readByte line n (pushBit byte bit) t

/-- The loop over `j`, with `n` rounds to go. -/
def readBytes (line : ℕ → Bool) : ℕ → List Byte → ℕ → Option (List Byte)
  | 0, sensorData, _ => some sensorData
  | n + 1, sensorData, t =>
      (readByte line 8 0 t).bind fun (byte, t) => readBytes line n (sensorData ++ [byte]) t

/-- The three waits for the sensor, and the data; `none` if a wait times out. -/
def readSensor (line : ℕ → Bool) (t : ℕ) : Option (List Byte) :=
  (waitWhile line true 300 t).bind fun t =>
    (waitWhile line false 300 t).bind fun t =>
      (waitWhile line true 300 t).bind fun t => readBytes line 5 [] t

/-- `(uint8_t)(sensor_data[0] + sensor_data[1] + sensor_data[2] + sensor_data[3])` -/
def checksum (sensorData : List Byte) : Byte :=
  BitVec.ofNat 8 ((sensorData.getD 0 0).toNat + (sensorData.getD 1 0).toNat +
    (sensorData.getD 2 0).toNat + (sensorData.getD 3 0).toNat)

/-- The text of the `sprintf`. -/
def message (humidity temperature : Byte) : List Byte :=
  bytes "Humidity: " ++ decimal humidity.toNat ++ bytes "%\nTemperature: " ++
    decimal temperature.toNat ++ bytes " deg C\n"

/-- `dht11_read_data`, called at time `t`. -/
def dht11ReadData (line : ℕ → Bool) (t : ℕ) (d : Driver) : Driver × Except ReadError Unit :=
  match readSensor line (t + startSequence) with
  | none => ({ d with drive := none }, .error .ETIMEDOUT)
  | some sensorData =>
      if sensorData.getD 4 0 ≠ checksum sensorData then ({ d with drive := none }, .error ReadError.EIO)
      else (⟨message (sensorData.getD 0 0) (sensorData.getD 2 0), some true⟩, .ok ())

/-! ### What the sensor sends -/

/-- The bits of a byte, the most significant one first. -/
def byteBits (b : Byte) : List Bool := (List.range 8).map fun i => b.getMsbD i

/-- The two phases of a bit. -/
structure BitPhases where
  low : ℕ
  high : ℕ

/-- The low phase that comes next. -/
def nextLow (final : ℕ) : List BitPhases → ℕ
  | [] => final
  | p :: _ => p.low

/-- The durations encode the bits; `final` is that of the last low phase. -/
def Encodes (final : ℕ) : List Bool → List BitPhases → Prop
  | [], [] => True
  | bit :: bits, p :: ps =>
      (1 ≤ p.low ∧ p.low ≤ 300) ∧
      (if bit then 51 ≤ p.high ∧ p.high ≤ 350
        else 1 ≤ p.high ∧ p.high ≤ 50 ∧ 50 < p.high + nextLow final ps) ∧
      Encodes final bits ps
  | _, _ => False

/-- The phases of the bits. -/
def bitPhases (final : ℕ) : List BitPhases → List Phase
  | [] => [⟨false, final⟩]
  | p :: ps => ⟨false, p.low⟩ :: ⟨true, p.high⟩ :: bitPhases final ps

/-- All phases of a transmission: the three of the response, and those of the bits. -/
def transmission (high₀ low₀ high₁ final : ℕ) (ps : List BitPhases) : List Phase :=
  ⟨true, high₀⟩ :: ⟨false, low₀⟩ :: ⟨true, high₁⟩ :: bitPhases final ps

/-! ### Between two bits -/

/-- The phases after the first low phase. -/
def afterLow (final : ℕ) : List BitPhases → List Phase
  | [] => []
  | p :: ps => ⟨true, p.high⟩ :: bitPhases final ps

theorem bitPhases_eq (final : ℕ) (ps : List BitPhases) :
    bitPhases final ps = ⟨false, nextLow final ps⟩ :: afterLow final ps := by
  cases ps <;> rfl

/-- The code is about to wait for the next bit: at most in the rest of a high phase, and then in the
rest of the low phase of that bit. -/
def Ready (line : ℕ → Bool) (t final : ℕ) (ps : List BitPhases) : Prop :=
  ∃ high low, high ≤ 300 ∧ (ps ≠ [] → 1 ≤ low ∧ low ≤ 300) ∧
    Follows line t (⟨true, high⟩ :: ⟨false, low⟩ :: afterLow final ps)

variable {line : ℕ → Bool} {t final : ℕ} {bit : Bool} {bits bits' : List Bool} {p : BitPhases}
  {ps : List BitPhases}

/-- The next low phase is long enough to be polled. -/
theorem Encodes.nextLow_bounds (h : Encodes final bits ps) (hne : ps ≠ []) :
    1 ≤ nextLow final ps ∧ nextLow final ps ≤ 300 := by
  cases ps with
  | nil => exact absurd rfl hne
  | cons p ps =>
      cases bits with
      | nil => exact absurd h id
      | cons bit bits => exact h.1

/-- **One bit.**  The sample falls into the high phase of a 1 bit, and into the low phase after a 0
bit. -/
theorem readBit_eq (hready : Ready line t final (p :: ps))
    (h : Encodes final (bit :: bits) (p :: ps)) :
    ∃ t', readBit line t = some (bit, t') ∧ Ready line t' final ps := by
  obtain ⟨high, low, hhigh, hlow, hline⟩ := hready
  obtain ⟨hlow₁, hlow₂⟩ := hlow (List.cons_ne_nil p ps)
  obtain ⟨-, hbit, hrest⟩ := h
  have hpos : 0 < p.high := by
    cases bit with
    | true => exact Nat.lt_of_lt_of_le (by decide) hbit.1
    | false => exact hbit.1
  have hwaitHigh : waitWhile line true 300 t = some (t + high) :=
    waitWhile_phase hline hhigh hlow₁
  have hwaitLow : waitWhile line false 300 (t + high) = some (t + high + low) :=
    waitWhile_phase hline.next hlow₂ hpos
  have hedge : Follows line (t + high + low)
      (⟨true, p.high⟩ :: ⟨false, nextLow final ps⟩ :: afterLow final ps) := by
    rw [← bitPhases_eq]
    exact hline.next.next
  have hread : readBit line t = some (line (t + high + low + 50), t + high + low + 50) := by
    rw [readBit, hwaitHigh, Option.bind_some, hwaitLow]
    rfl
  refine ⟨t + high + low + 50, ?_, ?_⟩
  · cases bit with
    | true =>
        rw [hread, hedge.level_eq (Nat.lt_of_lt_of_le (by decide) hbit.1)]
    | false =>
        -- the sample is `50 - p.high` into the next low phase
        obtain ⟨-, hle, hlong⟩ := hbit
        have hsample := hedge.next.level_eq (show 50 - p.high < nextLow final ps by omega)
        rw [show t + high + low + p.high + (50 - p.high) = t + high + low + 50 by omega] at hsample
        rw [hread, hsample]
  · cases bit with
    | true =>
        obtain ⟨hge, hle⟩ := hbit
        exact ⟨p.high - 50, nextLow final ps, by omega, hrest.nextLow_bounds, hedge.drop (by omega)⟩
    | false =>
        obtain ⟨-, hle, hlong⟩ := hbit
        refine ⟨0, nextLow final ps - (50 - p.high), by omega, fun hne => ?_, ?_⟩
        · have hbounds := hrest.nextLow_bounds hne
          omega
        · have hdrop := hedge.next.drop (show 50 - p.high ≤ nextLow final ps by omega)
          rw [show t + high + low + p.high + (50 - p.high) = t + high + low + 50 by omega] at hdrop
          exact hdrop.cons_zero

/-! ### Bytes -/

/-- **Some bits.**  The bits are pushed into the byte one after another. -/
theorem readByte_eq (hready : Ready line t final ps) (h : Encodes final (bits ++ bits') ps)
    (byte : Byte) :
    ∃ t' ps', readByte line bits.length byte t = some (bits.foldl pushBit byte, t') ∧
      Ready line t' final ps' ∧ Encodes final bits' ps' := by
  induction bits generalizing t ps byte with
  | nil => exact ⟨t, ps, rfl, hready, h⟩
  | cons bit bits ih =>
      cases ps with
      | nil => exact absurd h id
      | cons p ps =>
          obtain ⟨t₁, hbit, hready₁⟩ := readBit_eq hready h
          obtain ⟨t', ps', hread, hready', hrest⟩ := ih hready₁ h.2.2 (pushBit byte bit)
          refine ⟨t', ps', ?_, hready', hrest⟩
          rw [List.length_cons, readByte, hbit]
          exact hread

/-- The eight bits of a byte make up the byte. -/
theorem foldl_byteBits (b : Byte) : (byteBits b).foldl pushBit 0 = b := by
  revert b
  decide +kernel

theorem length_byteBits (b : Byte) : (byteBits b).length = 8 := rfl

/-- **Some bytes.** -/
theorem readBytes_eq {bs : List Byte} (hready : Ready line t final ps)
    (h : Encodes final (bs.flatMap byteBits) ps) (sensorData : List Byte) :
    readBytes line bs.length sensorData t = some (sensorData ++ bs) := by
  induction bs generalizing t ps sensorData with
  | nil => rw [List.append_nil]; rfl
  | cons b bs ih =>
      rw [List.flatMap_cons] at h
      obtain ⟨t', ps', hbyte, hready', hrest⟩ := readByte_eq hready h 0
      rw [foldl_byteBits, length_byteBits] at hbyte
      rw [List.length_cons, readBytes, hbyte]
      show readBytes line bs.length (sensorData ++ [b]) t' = _
      rw [ih hready' hrest, List.append_assoc]
      rfl

/-! ### The read -/

/-- The waveform of the five bytes: after the start sequence a high phase of at most 300, a low and a
high phase of 1 to 300, and the bits. -/
structure Sends (line : ℕ → Bool) (t : ℕ) (bs : List Byte) (high₀ low₀ high₁ final : ℕ)
    (ps : List BitPhases) : Prop where
  firstHigh : high₀ ≤ 300
  firstLow : 1 ≤ low₀ ∧ low₀ ≤ 300
  secondHigh : 1 ≤ high₁ ∧ high₁ ≤ 300
  bits : Encodes final (bs.flatMap byteBits) ps
  line : Follows line t (transmission high₀ low₀ high₁ final ps)

variable {b₀ b₁ b₂ b₃ b₄ : Byte} {high₀ low₀ high₁ : ℕ}

theorem readSensor_eq (h : Sends line t [b₀, b₁, b₂, b₃, b₄] high₀ low₀ high₁ final ps) :
    readSensor line t = some [b₀, b₁, b₂, b₃, b₄] := by
  have hline := h.line
  rw [transmission, bitPhases_eq] at hline
  have hne : ps ≠ [] := by
    rintro rfl
    exact h.bits
  have hfirst : waitWhile line true 300 t = some (t + high₀) :=
    waitWhile_phase hline h.firstHigh h.firstLow.1
  have hsecond : waitWhile line false 300 (t + high₀) = some (t + high₀ + low₀) :=
    waitWhile_phase hline.next h.firstLow.2 h.secondHigh.1
  have hbounds := h.bits.nextLow_bounds hne
  have hthird : waitWhile line true 300 (t + high₀ + low₀) = some (t + high₀ + low₀ + high₁) :=
    waitWhile_phase hline.next.next h.secondHigh.2 hbounds.1
  have hready : Ready line (t + high₀ + low₀ + high₁) final ps :=
    ⟨0, nextLow final ps, Nat.zero_le _, fun _ => hbounds, hline.next.next.next.cons_zero⟩
  rw [readSensor, hfirst, Option.bind_some, hsecond, Option.bind_some, hthird, Option.bind_some]
  exact readBytes_eq hready h.bits []

theorem dht11ReadData_eq (d : Driver)
    (h : Sends line (t + startSequence) [b₀, b₁, b₂, b₃, b₄] high₀ low₀ high₁ final ps) :
    dht11ReadData line t d =
      if b₄ ≠ checksum [b₀, b₁, b₂, b₃, b₄] then ({ d with drive := none }, .error ReadError.EIO)
      else (⟨message b₀ b₂, some true⟩, .ok ()) := by
  rw [dht11ReadData, readSensor_eq h]
  rfl

theorem checksum_iff :
    b₄ = checksum [b₀, b₁, b₂, b₃, b₄] ↔
      b₄.toNat = (b₀.toNat + b₁.toNat + b₂.toNat + b₃.toNat) % 256 := by
  rw [checksum, ← BitVec.toNat_inj, BitVec.toNat_ofNat]
  rfl

/-- **Decoding.**  For every five bytes and every waveform that encodes them, `sensor_data` is these
bytes; the read returns 0 and sets `msg` to the text for the humidity and the temperature if and only
if the last byte is the sum of the others modulo 256, and otherwise it returns `-EIO` and leaves `msg`
as it was. -/
theorem dht11_decode (d : Driver)
    (h : Sends line (t + startSequence) [b₀, b₁, b₂, b₃, b₄] high₀ low₀ high₁ final ps) :
    readSensor line (t + startSequence) = some [b₀, b₁, b₂, b₃, b₄] ∧
    (((dht11ReadData line t d).2 = .ok () ∧ (dht11ReadData line t d).1.msg = message b₀ b₂) ↔
      b₄.toNat = (b₀.toNat + b₁.toNat + b₂.toNat + b₃.toNat) % 256) ∧
    (b₄.toNat ≠ (b₀.toNat + b₁.toNat + b₂.toNat + b₃.toNat) % 256 →
      (dht11ReadData line t d).2 = .error ReadError.EIO ∧ (dht11ReadData line t d).1.msg = d.msg) := by
  refine ⟨readSensor_eq h, ?_⟩
  rw [Ne, ← checksum_iff, dht11ReadData_eq d h]
  by_cases hsum : b₄ = checksum [b₀, b₁, b₂, b₃, b₄]
  · rw [if_neg (not_not.mpr hsum)]
    exact ⟨iff_of_true ⟨rfl, rfl⟩ hsum, fun hne => absurd hsum hne⟩
  · rw [if_pos hsum]
    exact ⟨iff_of_false (fun hok => nomatch hok.1) hsum, fun _ => ⟨rfl, rfl⟩⟩

/-! ### A reading -/

/-- The phases of a sensor that keeps to the middle of its ranges. -/
def regular (bits : List Bool) : List BitPhases := bits.map fun bit => ⟨50, if bit then 70 else 26⟩

theorem encodes_regular (bits : List Bool) : Encodes 50 bits (regular bits) := by
  induction bits with
  | nil => trivial
  | cons bit bits ih =>
      have hnext : nextLow 50 (regular bits) = 50 := by cases bits <;> rfl
      refine ⟨⟨show 1 ≤ 50 by decide, show 50 ≤ 300 by decide⟩, ?_, ih⟩
      show if bit then 51 ≤ (if bit then 70 else 26) ∧ (if bit then 70 else 26) ≤ 350
        else 1 ≤ (if bit then 70 else 26) ∧ (if bit then 70 else 26) ≤ 50 ∧
          50 < (if bit then 70 else 26) + nextLow 50 (regular bits)
      rw [hnext]
      cases bit <;> decide

/-- 45 % and 23 °C. -/
def reading : List Byte := [45, 0, 23, 0, 68]

/-- The line during that reading. -/
def readingLine (u : ℕ) : Bool :=
  levelAt (transmission 20 80 80 50 (regular (reading.flatMap byteBits))) (u - startSequence)

theorem dht11_decode_reading :
    (dht11ReadData readingLine 0 ⟨[], none⟩).2 = .ok () ∧
      (dht11ReadData readingLine 0 ⟨[], none⟩).1.msg = message 45 23 := by
  have hsends : Sends readingLine (0 + startSequence) reading 20 80 80 50
      (regular (reading.flatMap byteBits)) :=
    ⟨by decide, by decide, by decide, encodes_regular _, by
      rw [Nat.zero_add]
      exact follows_levelAt _ _⟩
  exact (dht11_decode ⟨[], none⟩ hsends).2.1.mpr (by decide)

end Lkmpg.Dht11
