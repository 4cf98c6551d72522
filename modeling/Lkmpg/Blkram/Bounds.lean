import Lkmpg.Blkram.Transfer

/-!
# The bounds check of `blkram_transfer`

Three unsigned expressions can wrap: the size `blkram_mb * 1024 * 1024`, the offset
`sector * 512`, and the sum `offset + len` that is compared with the size.  The check is made for
each segment on the wrapped sum, and what is then accessed begins at the offset before it.

* `inside_iff`: the transfer stays inside of the allocated bytes exactly if the first sum beyond the
  size does not wrap back below it;
* `status_eq_ok_iff`: then it ends with `BLK_STS_OK` exactly if it has no segments or the wrapped
  start and the total length stay within the wrapped size;
* `boundsExact_iff` puts the two together with the exact start and the exact capacity.
-/

namespace Lkmpg.Blkram

variable {w : ℕ}

/-- The ranges of `dev->data` that the loop gives to `memcpy`, each with its offset and length. -/
def accesses (dir : Dir) : ℕ → List (List Byte) → BlkramDev w → List (ℕ × ℕ)
  | _, [], _ => []
  | offset, seg :: segs, dev =>
      match copySegment dir offset seg dev with
      | none => []
      | some (dev', _) =>
          (offset, seg.length) :: accesses dir ((offset + seg.length) % 2 ^ w) segs dev'

/-- Each byte that is read or written lies in the first `size` bytes. -/
def Inside (size : ℕ) (ranges : List (ℕ × ℕ)) : Prop :=
  ∀ range ∈ ranges, range.2 ≠ 0 → range.1 + range.2 ≤ size

/-- The first end of a segment beyond `size`, if there is one, is beyond it also modulo `2 ^ w`. -/
def NoWrapBack (w size : ℕ) : ℕ → List ℕ → Prop
  | _, [] => True
  | offset, len :: lens =>
      if offset + len ≤ size then NoWrapBack w size (offset + len) lens
      else size < (offset + len) % 2 ^ w

instance NoWrapBack.decidable (w size : ℕ) : ∀ offset lens, Decidable (NoWrapBack w size offset lens)
  | _, [] => isTrue trivial
  | offset, len :: lens =>
      if h : offset + len ≤ size then
        letI := NoWrapBack.decidable w size (offset + len) lens
        decidable_of_iff (NoWrapBack w size (offset + len) lens) (by rw [NoWrapBack, if_pos h])
      else decidable_of_iff (size < (offset + len) % 2 ^ w) (by rw [NoWrapBack, if_neg h])

/-! ### The loop -/

section Loop

variable {dir : Dir} {off : ℕ} {seg : List Byte} {segs : List (List Byte)} {dev : BlkramDev w}

theorem copySegment_eq_none_iff :
    copySegment dir off seg dev = none ↔ dev.size < (off + seg.length) % 2 ^ w := by
  unfold copySegment
  by_cases h : dev.size < (off + seg.length) % 2 ^ w
  · rw [if_pos h]
    exact iff_of_true rfl h
  · rw [if_neg h]
    refine iff_of_false ?_ h
    cases dir <;> exact nofun

theorem size_of_copySegment {dev' : BlkramDev w} {seg' : List Byte}
    (h : copySegment dir off seg dev = some (dev', seg')) : dev'.size = dev.size := by
  unfold copySegment at h
  split at h
  · cases h
  · cases dir with
    | READ =>
        obtain ⟨rfl, -⟩ := Prod.mk.inj (Option.some.inj h)
        rfl
    | WRITE =>
        obtain ⟨rfl, -⟩ := Prod.mk.inj (Option.some.inj h)
        rfl

/-- A segment that ends within the size is copied. -/
theorem exists_copySegment_of_le (dir : Dir) (h : off + seg.length ≤ dev.size) :
    ∃ dev' seg', copySegment dir off seg dev = some (dev', seg') :=
  ⟨_, _, copySegment_of_le h⟩

/-- A segment that ends beyond the size, seen from an offset that is an `unsigned long`. -/
theorem ne_nil_of_wraps (hoff : off < 2 ^ w) (hout : dev.size < off + seg.length)
    (hwraps : (off + seg.length) % 2 ^ w ≤ dev.size) : seg.length ≠ 0 := by
  intro hzero
  rw [hzero, Nat.add_zero] at hout hwraps
  rw [Nat.mod_eq_of_lt hoff] at hwraps
  omega

variable (dir segs dev) in
/-- **Accesses.**  They stay inside exactly if the first sum beyond the size is not wrapped back. -/
theorem inside_iff (hoff : off < 2 ^ w) :
    Inside dev.size (accesses dir off segs dev) ↔
      NoWrapBack w dev.size off (segs.map List.length) := by
  induction segs generalizing off dev with
  | nil => exact iff_of_true nofun trivial
  | cons seg segs ih =>
      have hfits := dev.fits
      rw [List.map_cons, NoWrapBack, accesses]
      by_cases hle : off + seg.length ≤ dev.size
      · -- the segment ends inside, so its sum does not wrap
        have hmod : (off + seg.length) % 2 ^ w = off + seg.length := Nat.mod_eq_of_lt (by omega)
        rw [if_pos hle]
        obtain ⟨dev', seg', hcopy⟩ := exists_copySegment_of_le dir hle
        have hrest : Inside dev'.size (accesses dir (off + seg.length) segs dev') ↔
            NoWrapBack w dev'.size (off + seg.length) (segs.map List.length) :=
          ih dev' (by omega)
        rw [size_of_copySegment hcopy] at hrest
        rw [hcopy, ← hrest]
        show Inside dev.size ((off, seg.length) :: accesses dir _ segs dev') ↔ _
        rw [hmod, Inside, List.forall_mem_cons]
        exact and_iff_right fun _ => hle
      · rw [if_neg hle]
        cases hcopy : copySegment dir off seg dev with
        | none => exact iff_of_true nofun (copySegment_eq_none_iff.mp hcopy)
        | some next =>
            have hwraps : ¬dev.size < (off + seg.length) % 2 ^ w := fun h => by
              rw [copySegment_eq_none_iff.mpr h] at hcopy
              cases hcopy
            have hne : seg.length ≠ 0 :=
              ne_nil_of_wraps hoff (Nat.not_le.mp hle) (Nat.not_lt.mp hwraps)
            refine iff_of_false (fun hinside => hle ?_) hwraps
            exact hinside (off, seg.length) List.mem_cons_self hne

variable (dir segs dev) in
/-- **Status.**  If no sum is wrapped back, the loop ends well exactly if there is nothing to do or
everything is within the size. -/
theorem status_eq_ok_iff (hoff : off < 2 ^ w)
    (hnowrap : NoWrapBack w dev.size off (segs.map List.length)) :
    (transferLoop dir off segs dev).1.status = .BLK_STS_OK ↔
      segs = [] ∨ off + segs.flatten.length ≤ dev.size := by
  induction segs generalizing off dev with
  | nil => exact iff_of_true rfl (Or.inl rfl)
  | cons seg segs ih =>
      have hfits := dev.fits
      rw [List.map_cons, NoWrapBack] at hnowrap
      rw [List.flatten_cons, List.length_append, transferLoop]
      by_cases hle : off + seg.length ≤ dev.size
      · have hmod : (off + seg.length) % 2 ^ w = off + seg.length := Nat.mod_eq_of_lt (by omega)
        rw [if_pos hle] at hnowrap
        obtain ⟨dev', seg', hcopy⟩ := exists_copySegment_of_le dir hle
        have hsize := size_of_copySegment hcopy
        have hrest : (transferLoop dir (off + seg.length) segs dev').1.status = .BLK_STS_OK ↔
            segs = [] ∨ off + seg.length + segs.flatten.length ≤ dev'.size :=
          ih dev' (by omega) (by rwa [hsize])
        rw [hcopy]
        show (transferLoop dir ((off + seg.length) % 2 ^ w) segs dev').1.status = _ ↔ _
        rw [hmod, hrest, hsize, or_iff_right (List.cons_ne_nil seg segs), ← Nat.add_assoc,
          or_iff_right_of_imp]
        rintro rfl
        exact hle
      · rw [if_neg hle] at hnowrap
        rw [copySegment_eq_none_iff.mpr hnowrap]
        refine iff_of_false (show BlkStatus.BLK_STS_IOERR ≠ .BLK_STS_OK by decide) ?_
        rintro (hnil | htotal)
        · cases hnil
        · omega

end Loop

/-! ### Requests on the disk -/

/-- No request changes the size. -/
theorem size_transferLoop {dir : Dir} {off : ℕ} {segs : List (List Byte)} {dev : BlkramDev w} :
    (transferLoop dir off segs dev).2.size = dev.size := by
  induction segs generalizing off dev with
  | nil => rfl
  | cons seg segs ih =>
      rw [transferLoop]
      cases hcopy : copySegment dir off seg dev with
      | none => rfl
      | some next => exact ih.trans (size_of_copySegment hcopy)

theorem size_serve {rqs : List Request} {dev : BlkramDev w} :
    (serve rqs dev).2.size = dev.size := by
  induction rqs generalizing dev with
  | nil => rfl
  | cons rq rqs ih =>
      rw [serve, ih, blkramQueueRq]
      split
      · rfl
      · exact size_transferLoop

/-- `blkram_mb` in bytes. -/
def capacity (blkramMb : ℕ) : ℕ := blkramMb * 2 ^ 20

theorem size_blkramInit {vzalloc : ℕ → Bool} {blkramMb : ℕ} {dev : BlkramDev w}
    (h : blkramInit w vzalloc blkramMb = some dev) : dev.size = capacity blkramMb % 2 ^ w := by
  rw [blkramInit] at h
  split at h
  · obtain rfl := Option.some.inj h
    exact congrArg (· % 2 ^ w) (Nat.mul_assoc blkramMb 1024 1024)
  · cases h

/-- The casts in `offset` cut the exact start of the request. -/
theorem startOffset_eq (rq : Request) : startOffset w rq.pos = rq.start % 2 ^ w := by
  rw [startOffset, Nat.mod_mul_mod, Request.start]

/-- The request is answered with `BLK_STS_OK` exactly if it lies in the capacity, and nothing outside
of the allocated bytes is accessed. -/
structure BoundsExact (blkramMb : ℕ) (dev : BlkramDev w) (rq : Request) : Prop where
  status : (blkramTransfer rq dev).1.status = .BLK_STS_OK ↔ rq.start + rq.total ≤ capacity blkramMb
  inside : Inside dev.size (accesses rq.dir (startOffset w rq.pos) rq.segs dev)

/-- The same comparison on what is left of start and capacity in an `unsigned long` gives the same
answer, and no sum is wrapped back. -/
structure WrapsHarmless (w blkramMb : ℕ) (rq : Request) : Prop where
  comparison : (rq.segs = [] ∨ rq.start % 2 ^ w + rq.total ≤ capacity blkramMb % 2 ^ w) ↔
    rq.start + rq.total ≤ capacity blkramMb
  sums : NoWrapBack w (capacity blkramMb % 2 ^ w) (rq.start % 2 ^ w) (rq.segs.map List.length)

/-- **Bounds.**  On the disk that `blkram_init` has set up, after any requests, a transfer is
answered exactly and stays inside of the allocated bytes if and only if what wraps is harmless. -/
theorem boundsExact_iff {vzalloc : ℕ → Bool} {blkramMb : ℕ} {dev : BlkramDev w}
    (hinit : blkramInit w vzalloc blkramMb = some dev) (rqs : List Request) (rq : Request) :
    BoundsExact blkramMb (serve rqs dev).2 rq ↔ WrapsHarmless w blkramMb rq := by
  have hsize : (serve rqs dev).2.size = capacity blkramMb % 2 ^ w := by
    rw [size_serve, size_blkramInit hinit]
  have hoff : rq.start % 2 ^ w < 2 ^ w := Nat.mod_lt _ (Nat.two_pow_pos w)
  have hinside := inside_iff rq.dir rq.segs (serve rqs dev).2 hoff
  have hstatus := status_eq_ok_iff rq.dir rq.segs (serve rqs dev).2 hoff
  rw [hsize] at hinside hstatus
  constructor
  · rintro ⟨hok, hin⟩
    rw [hsize, startOffset_eq] at hin
    rw [blkramTransfer, startOffset_eq] at hok
    have hsums := hinside.mp hin
    exact ⟨(hstatus hsums).symm.trans hok, hsums⟩
  · rintro ⟨hcomparison, hsums⟩
    refine ⟨?_, ?_⟩
    · rw [blkramTransfer, startOffset_eq]
      exact (hstatus hsums).trans hcomparison
    · rw [hsize, startOffset_eq]
      exact hinside.mpr hsums

/-- A disk of 8 MiB and a request at its end. -/
theorem boundsExact_iff_end :
    BoundsExact 8 (serve [] (⟨fun _ => 0, 8388608, by decide⟩ : BlkramDev 64)).2
        ⟨16383, .READ, false, [[0]], by decide⟩ ↔
      WrapsHarmless 64 8 ⟨16383, .READ, false, [[0]], by decide⟩ :=
  @boundsExact_iff 64 (fun size => size ≠ 0) 8 _ rfl [] _

/-- **Enough.**  Nothing is harmed if the capacity and the end of the request fit an
`unsigned long`. -/
theorem wrapsHarmless_of_lt {blkramMb : ℕ} {rq : Request} (hcapacity : capacity blkramMb < 2 ^ w)
    (hend : rq.start + rq.total < 2 ^ w) (hsegs : rq.segs ≠ []) : WrapsHarmless w blkramMb rq := by
  have hstart : rq.start % 2 ^ w = rq.start := Nat.mod_eq_of_lt (by omega)
  have hmod : capacity blkramMb % 2 ^ w = capacity blkramMb := Nat.mod_eq_of_lt hcapacity
  have hsums : ∀ (segs : List (List Byte)) (off : ℕ), off + segs.flatten.length < 2 ^ w →
      NoWrapBack w (capacity blkramMb) off (segs.map List.length) := by
    intro segs
    induction segs with
    | nil => exact fun _ _ => trivial
    | cons seg segs ih =>
        intro off hlt
        rw [List.flatten_cons, List.length_append] at hlt
        rw [List.map_cons, NoWrapBack]
        by_cases hle : off + seg.length ≤ capacity blkramMb
        · rw [if_pos hle]
          exact ih _ (by omega)
        · rw [if_neg hle, Nat.mod_eq_of_lt (by omega)]
          omega
  constructor
  · rw [hstart, hmod]
    exact or_iff_right hsegs
  · rw [hstart, hmod]
    exact hsums rq.segs rq.start hend

/-- The start sector `2 ^ 55` of a disk of 8 MiB, whose offset wraps to 0. -/
def wrappedStart : Request := ⟨2 ^ 55, .READ, false, [[0]], by decide⟩

/-- It is answered with `BLK_STS_OK`. -/
theorem not_boundsExact_wrappedStart :
    ∃ dev : BlkramDev 64, blkramInit 64 (fun size => size ≠ 0) 8 = some dev ∧
      ¬BoundsExact 8 dev wrappedStart := by
  refine ⟨_, rfl, fun h => ?_⟩
  exact absurd (h.status.mp rfl) (by decide)

end Lkmpg.Blkram
