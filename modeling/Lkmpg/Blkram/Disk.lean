import Lkmpg.Blkram.Transfer

/-!
# `blkram.c` is a byte-exact disk

The disk as its users see it: a position holds the byte that was last written there, or 0
(`lastWritten`).  `blkram_byte_exact`: for requests served one after another, each read delivers
exactly these bytes, and neither the data delivered nor the disk depends on how a request is cut
into segments.
-/

namespace Lkmpg.Blkram

open LinearMem

variable {w : ℕ}

/-- The byte most recently written at a position by the requests of a history, newest first. -/
def lastWritten : List Request → ℕ → Byte
  | [], _ => 0
  | rq :: earlier, p =>
      if rq.dir = .WRITE ∧ rq.start ≤ p ∧ p < rq.start + rq.total then
        rq.segs.flatten.getD (p - rq.start) 0
      else lastWritten earlier p

/-- Two requests for the same transfer, cut in two ways: a write of the same bytes, or a read of as
many. -/
def SameTransfer (rq rq' : Request) : Prop :=
  rq.pos = rq'.pos ∧ rq.dir = rq'.dir ∧ rq.passthrough = rq'.passthrough ∧ rq.total = rq'.total ∧
    (rq.dir = .WRITE → rq.segs.flatten = rq'.segs.flatten)

/-- The status of a request and its data, without the cuts. -/
def Completion.data (c : Completion) : BlkStatus × List Byte := (c.status, c.segs.flatten)

/-- An ordinary request within the capacity. -/
def Request.Ordinary (rq : Request) (size : ℕ) : Prop := rq.passthrough = false ∧ rq.InRange size

theorem blkramQueueRq_eq {rq : Request} {dev : BlkramDev w} (h : rq.Ordinary dev.size) :
    blkramQueueRq rq dev =
      (⟨.BLK_STS_OK, delivered rq.dir dev.data rq.start rq.segs⟩,
        dev.store rq.dir rq.start rq.segs.flatten) := by
  rw [blkramQueueRq, h.1]
  exact blkramTransfer_eq h.2

/-- **Step.**  A request that is served becomes the newest of the history. -/
theorem stored_lastWritten {rq : Request} {earlier : List Request} {m : ℕ → Byte}
    (hm : m = lastWritten earlier) :
    stored rq.dir m rq.start rq.segs.flatten = lastWritten (rq :: earlier) := by
  funext p
  rw [lastWritten]
  cases hdir : rq.dir with
  | READ => simp [stored, hm]
  | WRITE =>
      show write m rq.start rq.segs.flatten p = _
      by_cases hlt : p < rq.start
      · rw [write_of_lt _ _ hlt, if_neg (by omega), hm]
      · by_cases hge : rq.start + rq.total ≤ p
        · rw [write_of_ge _ _ hge, if_neg (by omega), hm]
        · have hmem := getElem?_write m rq.segs.flatten (show rq.start ≤ p by omega)
            (show p < rq.start + rq.segs.flatten.length by rw [Request.total] at hge; omega)
          rw [if_pos ⟨rfl, by omega, by omega⟩, List.getD_eq_getElem?_getD, hmem]
          rfl

/-- The reads of a history deliver what was last written, whatever came before. -/
theorem serve_spec {reqs earlier : List Request} {dev : BlkramDev w}
    (hdata : dev.data = lastWritten earlier) (hin : ∀ rq ∈ reqs, rq.Ordinary dev.size)
    {i : ℕ} {rq : Request} (hi : reqs[i]? = some rq) :
    ∃ c, (serve reqs dev).1[i]? = some c ∧ c.status = .BLK_STS_OK ∧
      (rq.dir = .READ → c.segs.flatten =
        (List.range rq.total).map fun j =>
          lastWritten ((reqs.take i).reverse ++ earlier) (rq.start + j)) := by
  induction reqs generalizing earlier dev i with
  | nil => cases hi
  | cons first reqs ih =>
      have hfirst := hin first List.mem_cons_self
      have hserve := blkramQueueRq_eq hfirst
      cases i with
      | zero =>
          obtain rfl : first = rq := Option.some.inj hi
          refine ⟨(blkramQueueRq first dev).1, rfl, by rw [hserve], fun hdir => ?_⟩
          rw [hserve, hdir]
          show (gather dev.data first.start first.segs).flatten = _
          rw [flatten_gather, hdata]
          rfl
      | succ i =>
          have hdata' : (blkramQueueRq first dev).2.data = lastWritten (first :: earlier) := by
            rw [hserve]
            exact stored_lastWritten hdata
          have hin' : ∀ rq ∈ reqs, rq.Ordinary (blkramQueueRq first dev).2.size := by
            intro rq hrq
            rw [hserve]
            exact hin rq (List.mem_cons_of_mem first hrq)
          rw [List.take_succ_cons, List.reverse_cons, List.append_assoc]
          exact ih hdata' hin' hi

/-! ### Cuts do not matter -/

theorem SameTransfer.ordinary {rq rq' : Request} {size : ℕ} (h : SameTransfer rq rq')
    (hrq : rq.Ordinary size) : rq'.Ordinary size := by
  obtain ⟨hpos, _, hpass, htotal, _⟩ := h
  refine ⟨hpass ▸ hrq.1, ?_⟩
  have hle : rq.start + rq.total ≤ size := hrq.2
  rw [Request.start, hpos, htotal] at hle
  exact hle

/-- One request: the data delivered and the disk depend on the transfer alone. -/
theorem SameTransfer.blkramQueueRq {rq rq' : Request} {dev : BlkramDev w}
    (h : SameTransfer rq rq') (hrq : rq.Ordinary dev.size) :
    (blkramQueueRq rq dev).1.data = (blkramQueueRq rq' dev).1.data ∧
      (blkramQueueRq rq dev).2 = (blkramQueueRq rq' dev).2 := by
  rw [blkramQueueRq_eq hrq, blkramQueueRq_eq (h.ordinary hrq)]
  obtain ⟨hpos, hdir, _, htotal, hbytes⟩ := h
  have hstart : rq.start = rq'.start := by rw [Request.start, hpos, Request.start]
  rw [← hdir, ← hstart]
  cases hd : rq.dir with
  | READ =>
      refine ⟨?_, rfl⟩
      show (BlkStatus.BLK_STS_OK, (gather dev.data rq.start rq.segs).flatten) =
        (BlkStatus.BLK_STS_OK, (gather dev.data rq.start rq'.segs).flatten)
      rw [flatten_gather, flatten_gather, show rq.segs.flatten.length = _ from htotal]
      rfl
  | WRITE =>
      have hsame := hbytes hd
      refine ⟨congrArg (Prod.mk BlkStatus.BLK_STS_OK) hsame, ?_⟩
      rw [hsame]

theorem serve_of_sameTransfer {reqs reqs' : List Request} (h : List.Forall₂ SameTransfer reqs reqs')
    {dev : BlkramDev w} (hin : ∀ rq ∈ reqs, rq.Ordinary dev.size) :
    (serve reqs dev).1.map Completion.data = (serve reqs' dev).1.map Completion.data ∧
      (serve reqs dev).2 = (serve reqs' dev).2 := by
  induction h generalizing dev with
  | nil => exact ⟨rfl, rfl⟩
  | @cons rq rq' reqs reqs' hsame _ ih =>
      have hrq := hin rq List.mem_cons_self
      obtain ⟨hdata, hdev⟩ := hsame.blkramQueueRq hrq
      have hsize : (blkramQueueRq rq dev).2.size = dev.size := by
        rw [blkramQueueRq_eq hrq, BlkramDev.store]
      obtain ⟨hrest, hlast⟩ := @ih (blkramQueueRq rq dev).2
        (fun r hr => hsize ▸ hin r (List.mem_cons_of_mem rq hr))
      rw [serve, serve, List.map_cons, List.map_cons, ← hdev]
      exact ⟨by rw [hdata, hrest], hlast⟩

/-- The disk after module load holds zeros. -/
theorem blkramInit_data {vzalloc : ℕ → Bool} {mb : ℕ} {dev : BlkramDev w}
    (h : blkramInit w vzalloc mb = some dev) : dev.data = fun _ => 0 := by
  unfold blkramInit at h
  split at h
  · rw [← Option.some.inj h]
  · cases h

/-- **`blkram.c` is a byte-exact disk.**  On a disk of any size that holds zeros, every request of a
history within the capacity completes with `BLK_STS_OK`, a read delivers for each position the byte
last written there, and cutting the requests otherwise changes neither data nor disk. -/
theorem blkram_byte_exact {dev : BlkramDev w} (hzero : dev.data = fun _ => 0)
    {reqs : List Request} (hin : ∀ rq ∈ reqs, rq.Ordinary dev.size) :
    (∀ i rq, reqs[i]? = some rq → ∃ c, (serve reqs dev).1[i]? = some c ∧
      c.status = .BLK_STS_OK ∧
      (rq.dir = .READ → c.segs.flatten =
        (List.range rq.total).map fun j => lastWritten (reqs.take i).reverse (rq.start + j))) ∧
    ∀ reqs', List.Forall₂ SameTransfer reqs reqs' →
      (serve reqs dev).1.map Completion.data = (serve reqs' dev).1.map Completion.data ∧
        (serve reqs dev).2 = (serve reqs' dev).2 := by
  refine ⟨fun i rq hi => ?_, fun reqs' h => serve_of_sameTransfer h hin⟩
  obtain ⟨c, hc, hok, hread⟩ := @serve_spec _ reqs [] dev hzero hin i rq hi
  refine ⟨c, hc, hok, fun hdir => ?_⟩
  rw [hread hdir, List.append_nil]

/-- Three bytes written at sector 1 as 2 + 1 and read back as 1 + 2. -/
def writeThenRead : List Request :=
  [⟨1, .WRITE, false, [[1, 2], [3]], by decide⟩, ⟨1, .READ, false, [[0], [0, 0]], by decide⟩]

theorem blkram_byte_exact_read :
    ∃ dev c, blkramInit 64 (fun size => 0 < size) 8 = some dev ∧
      (serve writeThenRead dev).1[1]? = some c ∧ c.segs.flatten = [1, 2, 3] := by
  have hinit : ∃ dev, blkramInit 64 (fun size => 0 < size) 8 = some dev ∧
      dev.size = 8 * 1024 * 1024 := ⟨_, rfl, rfl⟩
  obtain ⟨dev, hdev, hsize⟩ := hinit
  have hin : ∀ rq ∈ writeThenRead, rq.Ordinary dev.size := by
    rw [hsize]
    simp [writeThenRead, Request.Ordinary, Request.InRange, Request.start, Request.total,
      sectorSize]
  obtain ⟨c, hc, _, hread⟩ := (blkram_byte_exact (blkramInit_data hdev) hin).1 1 _ rfl
  exact ⟨dev, c, hdev, hc, (hread rfl).trans (by decide)⟩

end Lkmpg.Blkram
