import Mathlib.Data.List.Induction
import Mathlib.Data.Nat.GCD.Basic
import Lkmpg.Lib.WrapCounter

/-!
# The counters of `vnetloop.c`

`vnetloop_xmit` counts each frame as sent and, if it can be copied, loops the copy back and counts it
as received.  The length that is counted as sent is that of the frame; the one counted as received is
taken from the copy after `eth_type_trans` has removed its Ethernet header.
-/

namespace Lkmpg.Vnetloop

open WrapCounter

/-- The length of a buffer, `skb->len`. -/
structure Skb where
  len : BitVec 32
  deriving DecidableEq

/-- `ETH_HLEN` -/
def ethHlen : BitVec 32 := 14

/-- `eth_type_trans`, which removes the Ethernet header. -/
def ethTypeTrans (skb : Skb) : Skb := ⟨skb.len - ethHlen⟩

/-- `struct vnetloop_priv` -/
structure Priv where
  txPackets : BitVec 64
  txBytes : BitVec 64
  rxPackets : BitVec 64
  rxBytes : BitVec 64
  deriving DecidableEq

/-- The private area of a new device is zero. -/
def Priv.init : Priv := ⟨0, 0, 0, 0⟩

/-- `copied` is whether `skb_copy` succeeds. -/
def vnetloopXmit (priv : Priv) (skb : Skb) (copied : Bool) : Priv :=
  let len := skb.len
  if copied then
    let rxSkb := ethTypeTrans skb
    { priv with
      txPackets := priv.txPackets + 1
      txBytes := priv.txBytes + len.setWidth 64
      rxPackets := priv.rxPackets + 1
      rxBytes := priv.rxBytes + rxSkb.len.setWidth 64 }
  else
    { priv with
      txPackets := priv.txPackets + 1
      txBytes := priv.txBytes + len.setWidth 64 }

/-- The fields of `struct rtnl_link_stats64` that are filled in. -/
structure Stats where
  txPackets : BitVec 64
  txBytes : BitVec 64
  rxPackets : BitVec 64
  rxBytes : BitVec 64

/-- `vnetloop_get_stats64`, from an iteration of its loop that no update has disturbed. -/
def vnetloopGetStats64 (priv : Priv) : Stats :=
  ⟨priv.txPackets, priv.txBytes, priv.rxPackets, priv.rxBytes⟩

/-- A call of `vnetloop_xmit`, with a frame that has an Ethernet header. -/
structure Call where
  skb : Skb
  copied : Bool
  header : ethHlen.toNat ≤ skb.len.toNat

/-- The calls from the registration of the device on. -/
def transmit (calls : List Call) : Priv :=
  calls.foldl (fun priv c => vnetloopXmit priv c.skb c.copied) Priv.init

/-- The calls whose frames are looped back. -/
def looped (calls : List Call) : List Call := calls.filter Call.copied

def failed (calls : List Call) : List Call := calls.filter fun c => !c.copied

/-- The counters tell how many frames there have been, how many of them have not been copied, and how
long these were. -/
structure Accounted (calls : List Call) : Prop where
  packets : (vnetloopGetStats64 (transmit calls)).txPackets = BitVec.ofNat 64 calls.length
  failedPackets : (vnetloopGetStats64 (transmit calls)).txPackets -
    (vnetloopGetStats64 (transmit calls)).rxPackets = BitVec.ofNat 64 (failed calls).length
  failedBytes : (vnetloopGetStats64 (transmit calls)).txBytes -
    (vnetloopGetStats64 (transmit calls)).rxBytes =
      BitVec.ofNat 64 ((failed calls).map fun c => c.skb.len.toNat).sum

/-! ### The counters as sums -/

/-- What a call counts as sent. -/
def Call.txLen (c : Call) : ℕ := c.skb.len.toNat

/-- What it counts as received, if the frame is copied. -/
def Call.rxLen (c : Call) : ℕ := (ethTypeTrans c.skb).len.toNat

structure Counts (calls : List Call) (priv : Priv) : Prop where
  txPackets : priv.txPackets = counted 64 (fun _ => 1) calls
  txBytes : priv.txBytes = counted 64 Call.txLen calls
  rxPackets : priv.rxPackets = counted 64 (fun _ => 1) (looped calls)
  rxBytes : priv.rxBytes = counted 64 Call.rxLen (looped calls)

variable {calls : List Call} {priv : Priv} {c : Call}

theorem Call.txLen_eq (c : Call) : c.txLen = c.rxLen + 14 := by
  have hrx : c.rxLen = c.skb.len.toNat - ethHlen.toNat := BitVec.toNat_sub_of_le c.header
  have hheader : 14 ≤ c.skb.len.toNat := c.header
  have hlen : ethHlen.toNat = 14 := rfl
  rw [hrx, Call.txLen, hlen]
  omega

theorem setWidth_len (skb : Skb) : skb.len.setWidth 64 = BitVec.ofNat 64 skb.len.toNat :=
  (BitVec.ofNat_toNat 64 skb.len).symm

theorem looped_concat_of_copied (hc : c.copied = true) (calls : List Call) :
    looped (calls ++ [c]) = looped calls ++ [c] := by
  rw [looped, List.filter_append, List.filter_cons_of_pos hc]
  rfl

theorem looped_concat_of_failed (hc : c.copied = false) (calls : List Call) :
    looped (calls ++ [c]) = looped calls := by
  rw [looped, List.filter_append, List.filter_cons_of_neg (by rw [hc]; exact Bool.false_ne_true)]
  exact List.append_nil _

/-- **Step.** -/
theorem Counts.xmit (h : Counts calls priv) (c : Call) :
    Counts (calls ++ [c]) (vnetloopXmit priv c.skb c.copied) := by
  have htxPackets : priv.txPackets + 1 = counted 64 (fun _ => 1) (calls ++ [c]) := by
    rw [counted_concat, ← h.txPackets]
    rfl
  have htxBytes : priv.txBytes + c.skb.len.setWidth 64 = counted 64 Call.txLen (calls ++ [c]) := by
    rw [counted_concat, ← h.txBytes, Call.txLen, setWidth_len]
  cases hc : c.copied with
  | true =>
      refine ⟨htxPackets, htxBytes, ?_, ?_⟩
      · rw [looped_concat_of_copied hc, counted_concat, ← h.rxPackets]
        rfl
      · rw [looped_concat_of_copied hc, counted_concat, ← h.rxBytes, Call.rxLen, ← setWidth_len]
        rfl
  | false =>
      refine ⟨htxPackets, htxBytes, ?_, ?_⟩
      · rw [looped_concat_of_failed hc]
        exact h.rxPackets
      · rw [looped_concat_of_failed hc]
        exact h.rxBytes

/-- **Run.** -/
theorem counts_transmit (calls : List Call) : Counts calls (transmit calls) := by
  induction calls using List.reverseRecOn with
  | nil => exact ⟨rfl, rfl, rfl, rfl⟩
  | append_singleton calls c ih =>
      rw [transmit, List.foldl_append]
      exact ih.xmit c

/-! ### Sent and received -/

/-- What has been sent and not received is what could not be copied. -/
theorem packets_sub_packets (calls : List Call) :
    (transmit calls).txPackets - (transmit calls).rxPackets =
      BitVec.ofNat 64 (failed calls).length := by
  have hcounts := counts_transmit calls
  rw [hcounts.txPackets, hcounts.rxPackets, counted_filter Call.copied, looped, BitVec.add_comm,
    BitVec.add_sub_cancel, counted_const, Nat.one_mul]
  rfl

/-- In bytes it is 14 more for each frame that has been looped back. -/
theorem bytes_sub_bytes (calls : List Call) :
    (transmit calls).txBytes - (transmit calls).rxBytes =
      BitVec.ofNat 64 (14 * (looped calls).length) +
        BitVec.ofNat 64 ((failed calls).map Call.txLen).sum := by
  have hcounts := counts_transmit calls
  have hsent : (transmit calls).txBytes =
      counted 64 Call.txLen (looped calls) + counted 64 Call.txLen (failed calls) :=
    hcounts.txBytes.trans (counted_filter Call.copied Call.txLen calls)
  have hheaders : counted 64 Call.txLen (looped calls) =
      counted 64 Call.rxLen (looped calls) + counted 64 (fun _ => 14) (looped calls) :=
    counted_add fun c _ => c.txLen_eq
  rw [hsent, hheaders, hcounts.rxBytes, BitVec.add_assoc, BitVec.add_comm, BitVec.add_sub_cancel,
    counted_const]
  rfl

theorem dvd_headers_iff (n : ℕ) : 2 ^ 64 ∣ 14 * n ↔ 2 ^ 63 ∣ n := by
  have hcoprime : Nat.Coprime (2 ^ 63) 7 := Nat.Coprime.pow_left 63 (by decide)
  calc 2 ^ 64 ∣ 14 * n ↔ 2 * 2 ^ 63 ∣ 2 * (7 * n) := by rw [← Nat.pow_succ', ← Nat.mul_assoc]
    _ ↔ 2 ^ 63 ∣ 7 * n := Nat.mul_dvd_mul_iff_left (by decide)
    _ ↔ 2 ^ 63 ∣ n := hcoprime.dvd_mul_left

/-- **Conservation.**  The counters tell what they should exactly if the number of frames that have
been looped back is a multiple of `2 ^ 63`. -/
theorem accounted_iff (calls : List Call) : Accounted calls ↔ 2 ^ 63 ∣ (looped calls).length := by
  have hbytes : (transmit calls).txBytes - (transmit calls).rxBytes =
        BitVec.ofNat 64 ((failed calls).map Call.txLen).sum ↔ 2 ^ 63 ∣ (looped calls).length := by
    rw [bytes_sub_bytes, BitVec.add_left_eq_self, ofNat_eq_zero_iff, dvd_headers_iff]
  constructor
  · intro h
    exact hbytes.mp h.failedBytes
  · intro h
    refine ⟨?_, packets_sub_packets calls, hbytes.mpr h⟩
    show (transmit calls).txPackets = _
    rw [(counts_transmit calls).txPackets, counted_const, Nat.one_mul]

/-- A frame of 60 bytes is looped back. -/
theorem not_accounted : ¬ ∀ calls : List Call, Accounted calls := by
  intro h
  exact absurd (h [⟨⟨60⟩, true, by decide⟩]).failedBytes (by decide)

end Lkmpg.Vnetloop
