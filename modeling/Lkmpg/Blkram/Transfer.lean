import Lkmpg.Lib.KernelTypes
import Lkmpg.Lib.LinearMem

/-!
# The RAM disk `blkram.c`

`blkram_transfer` copies the segments of a request between their pages and `dev->data`, with a
running offset.  `unsigned long` and `size_t` have `w` bits, so every sum is taken modulo `2 ^ w`;
`sector_t` is cut to `w` bits by the cast.

`copySegment` is the body of the loop.  `blkramTransfer` runs it over the segments of one request,
and the concurrent machine of `Lkmpg.Blkram.Interleaving` over those of many.
-/

namespace Lkmpg.Blkram

open LinearMem

/-- `BLKRAM_SECTOR_SIZE` -/
abbrev sectorSize : ℕ := 512

inductive BlkStatus where
  | BLK_STS_OK
  | BLK_STS_IOERR
  deriving DecidableEq, Repr

/-- `rq_data_dir` -/
inductive Dir where
  | READ
  | WRITE
  deriving DecidableEq, Repr

/-- `struct request`: the start sector, and for each `bio_vec` the bytes of its page, as many as
`bv_len` says. -/
structure Request where
  pos : ℕ
  dir : Dir
  passthrough : Bool
  segs : List (List Byte)
  /-- `bv_len` is an `unsigned int` -/
  short : ∀ seg ∈ segs, seg.length < 2 ^ 32

/-- `struct blkram_dev`; `data` has `size` bytes. -/
@[ext]
structure BlkramDev (w : ℕ) where
  data : ℕ → Byte
  size : ℕ
  /-- `size` is a `size_t` -/
  fits : size < 2 ^ w

/-- How a request ends, with what its segments hold afterwards. -/
structure Completion where
  status : BlkStatus
  segs : List (List Byte)
  deriving DecidableEq, Repr

variable {w : ℕ}

/-- The disk that `blkram_init` sets up; `vzalloc` says for which sizes the allocation succeeds. -/
def blkramInit (w : ℕ) (vzalloc : ℕ → Bool) (blkramMb : ℕ) : Option (BlkramDev w) :=
  if vzalloc (blkramMb * 1024 * 1024 % 2 ^ w) then
    some ⟨fun _ => 0, blkramMb * 1024 * 1024 % 2 ^ w, Nat.mod_lt _ (Nat.two_pow_pos w)⟩
  else none

/-- `offset` before the loop of `blkram_transfer` -/
def startOffset (w : ℕ) (sector : ℕ) : ℕ := sector % 2 ^ w * sectorSize % 2 ^ w

/-- The body of the loop: `none` if the bounds check fails, else the disk and the segment after the
`memcpy`. -/
def copySegment (dir : Dir) (offset : ℕ) (seg : List Byte) (dev : BlkramDev w) :
    Option (BlkramDev w × List Byte) :=
  if dev.size < (offset + seg.length) % 2 ^ w then none
  else match dir with
    | .WRITE => some ({ dev with data := write dev.data offset seg }, seg)
    | .READ => some (dev, read dev.data offset seg.length)

/-- `rq_for_each_segment` from a given offset on. -/
def transferLoop (dir : Dir) : ℕ → List (List Byte) → BlkramDev w → Completion × BlkramDev w
  | _, [], dev => (⟨.BLK_STS_OK, []⟩, dev)
  | offset, seg :: segs, dev =>
      match copySegment dir offset seg dev with
      | none => (⟨.BLK_STS_IOERR, seg :: segs⟩, dev)
      | some (dev', seg') =>
          let rest := transferLoop dir ((offset + seg.length) % 2 ^ w) segs dev'
          (⟨rest.1.status, seg' :: rest.1.segs⟩, rest.2)

/-- `blkram_transfer` -/
def blkramTransfer (rq : Request) (dev : BlkramDev w) : Completion × BlkramDev w :=
  transferLoop rq.dir (startOffset w rq.pos) rq.segs dev

/-- `blkram_queue_rq`: the status goes to `blk_mq_end_request`. -/
def blkramQueueRq (rq : Request) (dev : BlkramDev w) : Completion × BlkramDev w :=
  if rq.passthrough then (⟨.BLK_STS_IOERR, rq.segs⟩, dev) else blkramTransfer rq dev

/-- Requests served one after another. -/
def serve : List Request → BlkramDev w → List Completion × BlkramDev w
  | [], dev => ([], dev)
  | rq :: rqs, dev =>
      let rest := serve rqs (blkramQueueRq rq dev).2
      ((blkramQueueRq rq dev).1 :: rest.1, rest.2)

/-! ### One request within the capacity -/

/-- The first byte of a request on the disk. -/
def Request.start (rq : Request) : ℕ := rq.pos * sectorSize

/-- The number of bytes of a request. -/
def Request.total (rq : Request) : ℕ := rq.segs.flatten.length

/-- The request lies within the first `size` bytes. -/
def Request.InRange (rq : Request) (size : ℕ) : Prop := rq.start + rq.total ≤ size

/-- What the segments hold after a transfer of data found in `m` at `off`. -/
def delivered (dir : Dir) (m : ℕ → Byte) (off : ℕ) (segs : List (List Byte)) : List (List Byte) :=
  match dir with
  | .WRITE => segs
  | .READ => gather m off segs

/-- What a transfer of the bytes `bs` leaves on the disk. -/
def stored (dir : Dir) (m : ℕ → Byte) (off : ℕ) (bs : List Byte) : ℕ → Byte :=
  match dir with
  | .WRITE => write m off bs
  | .READ => m

/-- The disk after a transfer of the bytes `bs`. -/
def BlkramDev.store (dev : BlkramDev w) (dir : Dir) (off : ℕ) (bs : List Byte) : BlkramDev w :=
  { dev with data := stored dir dev.data off bs }

theorem startOffset_of_inRange {rq : Request} {dev : BlkramDev w} (h : rq.InRange dev.size) :
    startOffset w rq.pos = rq.start := by
  have hfits := dev.fits
  have hlt : rq.pos * sectorSize < 2 ^ w := by
    have hle : rq.start + rq.total ≤ dev.size := h
    rw [Request.start] at hle
    omega
  have hpos : rq.pos < 2 ^ w := by
    rw [sectorSize] at hlt
    omega
  rw [startOffset, Nat.mod_eq_of_lt hpos, Nat.mod_eq_of_lt hlt, Request.start]

/-- The bounds check passes and no sum wraps. -/
theorem copySegment_of_le {dir : Dir} {off : ℕ} {seg : List Byte} {dev : BlkramDev w}
    (h : off + seg.length ≤ dev.size) :
    copySegment dir off seg dev =
      some (dev.store dir off seg,
        match dir with
        | .WRITE => seg
        | .READ => read dev.data off seg.length) := by
  have hfits := dev.fits
  unfold copySegment
  rw [Nat.mod_eq_of_lt (by omega), if_neg (by omega)]
  cases dir <;> rfl

/-- **The segment loop.**  Whatever the cuts, the loop is one copy of the concatenated data. -/
theorem transferLoop_eq {dir : Dir} {segs : List (List Byte)} {off : ℕ} {dev : BlkramDev w}
    (h : off + segs.flatten.length ≤ dev.size) :
    transferLoop dir off segs dev =
      (⟨.BLK_STS_OK, delivered dir dev.data off segs⟩, dev.store dir off segs.flatten) := by
  induction segs generalizing off dev with
  | nil => cases dir <;> simp [transferLoop, delivered, BlkramDev.store, stored, gather, write_nil]
  | cons seg segs ih =>
      rw [List.flatten_cons, List.length_append] at h
      have hfits := dev.fits
      have hle : off + seg.length ≤ dev.size := by omega
      have hmod : (off + seg.length) % 2 ^ w = off + seg.length := Nat.mod_eq_of_lt (by omega)
      have hrest := @ih (off + seg.length) (dev.store dir off seg)
        (show off + seg.length + segs.flatten.length ≤ dev.size by omega)
      rw [transferLoop, copySegment_of_le hle]
      simp only [hmod, hrest]
      cases dir with
      | WRITE => simp only [delivered, BlkramDev.store, stored, List.flatten_cons, write_append]
      | READ => simp only [delivered, BlkramDev.store, stored, gather]

theorem blkramTransfer_eq {rq : Request} {dev : BlkramDev w} (h : rq.InRange dev.size) :
    blkramTransfer rq dev =
      (⟨.BLK_STS_OK, delivered rq.dir dev.data rq.start rq.segs⟩,
        dev.store rq.dir rq.start rq.segs.flatten) := by
  rw [blkramTransfer, startOffset_of_inRange h]
  exact transferLoop_eq h

end Lkmpg.Blkram
