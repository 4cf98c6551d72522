import Lkmpg.Blkram.Disk
import Lkmpg.Lib.Transition
import Mathlib.Tactic.FinCases

/-!
# Overlapping requests of `blkram.c`

The driver takes no lock, so requests that cover common positions may copy at the same time, and
`memcpy` moves the bytes of a segment one after another.  A step of this machine moves one byte, or is
the bounds check before a segment, the end of a segment or the end of a request.

A sector may then have bytes of several writes, but each of its bytes is still one that somebody wrote
there, and not an old one: what had been completed before a write of the position began is gone when
that write has completed, for the disk and for every read that begins later.
-/

namespace Lkmpg.Blkram

open LinearMem Transition

variable {w : ℕ} {ι : Type}

/-- How far a `blkram_queue_rq` has come: the offset of the segment, the segments that it has copied,
the one that `memcpy` is in (the bytes that it has moved, and the others) and those that follow. -/
structure ByteProgress where
  offset : ℕ
  done : List (List Byte)
  seg : Option (List Byte × List Byte)
  todo : List (List Byte)
  status : Option BlkStatus

/-- `blkram_queue_rq` before the segment loop; a passthrough request has completed. -/
def Request.beginBytes (w : ℕ) (rq : Request) : ByteProgress :=
  ⟨startOffset w rq.pos, [], none, rq.segs, if rq.passthrough then some .BLK_STS_IOERR else none⟩

def byteStep (dir : Dir) (dev : BlkramDev w) (p : ByteProgress) :
    Option (BlkramDev w × ByteProgress) :=
  match p.status, p.seg, p.todo with
  | some _, _, _ => none
  | none, none, [] => some (dev, { p with status := some .BLK_STS_OK })
  | none, none, seg :: rest =>
      if dev.size < (p.offset + seg.length) % 2 ^ w then
        some (dev, { p with status := some .BLK_STS_IOERR })
      else some (dev, { p with seg := some ([], seg), todo := rest })
  | none, some (moved, []), _ =>
      some (dev, { p with
        offset := (p.offset + moved.length) % 2 ^ w, done := p.done ++ [moved], seg := none })
  | none, some (moved, b :: left), _ =>
      match dir with
      | .WRITE => some ({ dev with data := write dev.data (p.offset + moved.length) [b] },
          { p with seg := some (moved ++ [b], left) })
      | .READ => some (dev, { p with seg := some (moved ++ [dev.data (p.offset + moved.length)], left) })

structure Racing (w : ℕ) (ι : Type) where
  dev : BlkramDev w
  prog : ι → ByteProgress

/-- All requests have been handed to the driver. -/
def Racing.start (reqs : ι → Request) (dev : BlkramDev w) : Racing w ι :=
  ⟨dev, fun i => (reqs i).beginBytes w⟩

def raceStep [DecidableEq ι] (reqs : ι → Request) (s : Racing w ι) (i : ι) : Option (Racing w ι) :=
  (byteStep (reqs i).dir s.dev (s.prog i)).map fun n => ⟨n.1, Function.update s.prog i n.2⟩

/-- The bytes that a request has moved so far. -/
def ByteProgress.moved (p : ByteProgress) : List Byte :=
  p.done.flatten ++ (p.seg.map Prod.fst).getD []

/-- The bytes that its segments hold where it has not moved any. -/
def ByteProgress.left (p : ByteProgress) : List Byte :=
  (p.seg.map Prod.snd).getD [] ++ p.todo.flatten

/-- The positions that a request moves data from or to. -/
def Request.Spans (rq : Request) (q : ℕ) : Prop :=
  rq.passthrough = false ∧ rq.start ≤ q ∧ q < rq.start + rq.total

/-- The byte that a write has for a position. -/
def Request.Offers (rq : Request) (q : ℕ) (b : Byte) : Prop :=
  rq.dir = .WRITE ∧ rq.passthrough = false ∧ rq.start ≤ q ∧
    rq.segs.flatten[q - rq.start]? = some b

/-! ### One turn -/

/-- The progress of a request that lies on the disk. -/
structure ByteOk (rq : Request) (p : ByteProgress) : Prop where
  offset_eq : p.offset = rq.start + p.done.flatten.length
  length_eq : p.moved.length + p.left.length = rq.total
  writes : rq.dir = .WRITE → p.moved ++ p.left = rq.segs.flatten
  status : p.status = none ∨ p.status = some .BLK_STS_OK ∧ p.left = []

/-- What a step of a request does: nothing with bytes, or the transfer of the next one. -/
inductive Turn (rq : Request) (dev : BlkramDev w) (p : ByteProgress) (dev' : BlkramDev w)
    (p' : ByteProgress) : Prop
  | quiet (hdata : dev'.data = dev.data) (h : p'.moved = p.moved)
  | store (b : Byte) (hdata : dev'.data = write dev.data (rq.start + p.moved.length) [b])
      (hb : rq.Offers (rq.start + p.moved.length) b) (h : p'.moved = p.moved ++ [b])
  | fetch (hdata : dev'.data = dev.data) (hdir : rq.dir = .READ)
      (h : p'.moved = p.moved ++ [dev.data (rq.start + p.moved.length)])

section Turns

variable {rq : Request} {dev dev' : BlkramDev w} {p p' : ByteProgress}

@[simp] theorem moved_beginBytes (rq : Request) : (rq.beginBytes w).moved = [] := by
  simp [Request.beginBytes, ByteProgress.moved]

theorem byteOk_begin (hin : rq.InRange dev.size) (hpass : rq.passthrough = false) :
    ByteOk rq (rq.beginBytes w) where
  offset_eq := by
    simp only [Request.beginBytes, List.flatten_nil, List.length_nil, Nat.add_zero]
    exact startOffset_of_inRange hin
  length_eq := by
    simp [Request.beginBytes, ByteProgress.moved, ByteProgress.left, Request.total]
  writes := by
    simp [Request.beginBytes, ByteProgress.moved, ByteProgress.left]
  status := by
    simp [Request.beginBytes, hpass]

/-- `memcpy` moves one byte. -/
theorem ByteOk.transfer {offset : ℕ} {done todo : List (List Byte)} {moved left : List Byte} {b : Byte}
    (h : ByteOk rq ⟨offset, done, some (moved, b :: left), todo, none⟩)
    (hpass : rq.passthrough = false)
    (hstep : byteStep rq.dir dev ⟨offset, done, some (moved, b :: left), todo, none⟩ =
      some (dev', p')) :
    ByteOk rq p' ∧ Turn rq dev ⟨offset, done, some (moved, b :: left), todo, none⟩ dev' p' ∧
      dev'.size = dev.size := by
  have hoffset : offset = rq.start + done.flatten.length := h.offset_eq
  have hlength := h.length_eq
  simp only [ByteProgress.moved, ByteProgress.left, Option.map_some, Option.getD_some,
    List.length_append, List.length_cons] at hlength
  have hpos : offset + moved.length = rq.start + (done.flatten ++ moved).length := by
    rw [List.length_append]
    omega
  unfold byteStep at hstep
  cases hdir : rq.dir with
  | WRITE =>
      rw [hdir] at hstep
      obtain ⟨rfl, rfl⟩ := Prod.mk.inj (Option.some.inj hstep)
      have hflat := h.writes hdir
      simp only [ByteProgress.moved, ByteProgress.left, Option.map_some, Option.getD_some] at hflat
      refine ⟨⟨hoffset, ?_, fun _ => ?_, Or.inl rfl⟩, .store b ?_ ⟨hdir, hpass, ?_, ?_⟩ ?_, rfl⟩
      · simp only [ByteProgress.moved, ByteProgress.left, Option.map_some, Option.getD_some,
          List.length_append, List.length_singleton]
        omega
      · simpa [ByteProgress.moved, ByteProgress.left] using hflat
      · exact congrArg (write dev.data · [b]) hpos
      · exact Nat.le_add_right _ _
      · rw [Nat.add_sub_cancel_left, ← hflat]
        simp [ByteProgress.moved]
      · simp [ByteProgress.moved]
  | READ =>
      rw [hdir] at hstep
      obtain ⟨rfl, rfl⟩ := Prod.mk.inj (Option.some.inj hstep)
      refine ⟨⟨hoffset, ?_, ?_, Or.inl rfl⟩, .fetch rfl hdir ?_, rfl⟩
      · simp only [ByteProgress.moved, ByteProgress.left, Option.map_some, Option.getD_some,
          List.length_append, List.length_singleton]
        omega
      · intro hwrite
        rw [hdir] at hwrite
        cases hwrite
      · simp [ByteProgress.moved, hpos]

/-- **Step.**  A request that lies on the disk passes its bounds checks, and its running offset does
not wrap. -/
theorem ByteOk.step (h : ByteOk rq p) (hin : rq.InRange dev.size) (hpass : rq.passthrough = false)
    (hstep : byteStep rq.dir dev p = some (dev', p')) :
    ByteOk rq p' ∧ Turn rq dev p dev' p' ∧ dev'.size = dev.size := by
  obtain ⟨offset, done, seg, todo, status⟩ := p
  have hfits := dev.fits
  have hrange : rq.start + rq.total ≤ dev.size := hin
  have hoffset : offset = rq.start + done.flatten.length := h.offset_eq
  have hlength := h.length_eq
  have hwrites := h.writes
  simp only [ByteProgress.moved, ByteProgress.left] at hlength hwrites
  unfold byteStep at hstep
  split at hstep
  · cases hstep
  · -- all segments are copied
    rename_i hstatus hseg htodo
    obtain ⟨rfl, rfl⟩ := Prod.mk.inj (Option.some.inj hstep)
    simp only at hseg htodo
    subst hseg htodo
    exact ⟨⟨hoffset, h.length_eq, h.writes, Or.inr ⟨rfl, rfl⟩⟩, .quiet rfl rfl, rfl⟩
  · -- the check before a segment
    rename_i seg rest hstatus hseg htodo
    simp only at hseg htodo hstatus hstep
    subst hseg htodo hstatus
    simp only [Option.map_none, Option.getD_none, List.append_nil, List.nil_append,
      List.flatten_cons, List.length_append] at hlength hwrites
    rw [Nat.mod_eq_of_lt (by omega), if_neg (by omega)] at hstep
    obtain ⟨rfl, rfl⟩ := Prod.mk.inj (Option.some.inj hstep)
    refine ⟨⟨hoffset, ?_, ?_, Or.inl rfl⟩, .quiet rfl ?_, rfl⟩
    · simpa [ByteProgress.moved, ByteProgress.left] using hlength
    · simpa [ByteProgress.moved, ByteProgress.left] using hwrites
    · simp [ByteProgress.moved]
  · -- the end of a segment
    rename_i moved hstatus hseg
    simp only at hseg hstatus hstep
    subst hseg hstatus
    simp only [Option.map_some, Option.getD_some, List.nil_append, List.length_append] at hlength
    rw [Nat.mod_eq_of_lt (by omega)] at hstep
    obtain ⟨rfl, rfl⟩ := Prod.mk.inj (Option.some.inj hstep)
    refine ⟨⟨?_, ?_, ?_, Or.inl rfl⟩, .quiet rfl ?_, rfl⟩
    · simp only [List.flatten_append, List.flatten_singleton, List.length_append]
      omega
    · simpa [ByteProgress.moved, ByteProgress.left, Nat.add_assoc] using hlength
    · simpa [ByteProgress.moved, ByteProgress.left] using hwrites
    · simp [ByteProgress.moved]
  · -- one byte
    rename_i moved b left hstatus hseg
    simp only at hseg hstatus
    subst hseg hstatus
    refine h.transfer hpass ?_
    unfold byteStep
    exact hstep

/-- A request that has completed has moved all its bytes. -/
theorem ByteOk.length_moved (h : ByteOk rq p) (hdone : p.status ≠ none) :
    p.moved.length = rq.total := by
  have hleft := (h.status.resolve_left hdone).2
  have hlength := h.length_eq
  rw [hleft, List.length_nil] at hlength
  exact hlength

end Turns

/-! ### All requests -/

/-- The state after some steps. -/
structure RaceOk (reqs : ι → Request) (size : ℕ) (s : Racing w ι) : Prop where
  size : s.dev.size = size
  passthrough : ∀ i, (reqs i).passthrough = true → s.prog i = (reqs i).beginBytes w
  ok : ∀ i, (reqs i).passthrough = false → ByteOk (reqs i) (s.prog i)

/-- From `s₁` on the requests that have completed there have not moved, and everything is in order. -/
structure Since (reqs : ι → Request) (size : ℕ) (s₁ s : Racing w ι) : Prop where
  raceOk : RaceOk reqs size s
  completed : ∀ i, (s₁.prog i).status ≠ none → s.prog i = s₁.prog i

/-- A byte of a write that has not completed at `s₁`. -/
def Fresh (reqs : ι → Request) (s₁ : Racing w ι) (q : ℕ) (b : Byte) : Prop :=
  ∃ k, (s₁.prog k).status = none ∧ (reqs k).Offers q b

section Races

variable [DecidableEq ι] {reqs : ι → Request} {size : ℕ} {s₁ s₂ s t : Racing w ι} {i : ι}
  {ls : List ι} {q : ℕ}

omit [DecidableEq ι] in
theorem raceOk_start {dev : BlkramDev w} (hin : ∀ i, (reqs i).InRange dev.size) :
    RaceOk reqs dev.size (Racing.start reqs dev) :=
  ⟨rfl, fun _ _ => rfl, fun i hpass => byteOk_begin (hin i) hpass⟩

/-- **Step.**  The request that moves has not completed, and the others stay where they are. -/
theorem RaceOk.step (h : RaceOk reqs size s) (hin : ∀ i, (reqs i).InRange size)
    (hstep : raceStep reqs s i = some t) :
    RaceOk reqs size t ∧ (s.prog i).status = none ∧
      Turn (reqs i) s.dev (s.prog i) t.dev (t.prog i) ∧ ∀ j, j ≠ i → t.prog j = s.prog j := by
  obtain ⟨⟨dev', p'⟩, hbyte, rfl⟩ := Option.map_eq_some_iff.mp hstep
  have hstatus : (s.prog i).status = none := by
    cases hs : (s.prog i).status with
    | none => rfl
    | some status =>
        rw [byteStep, hs] at hbyte
        cases hbyte
  have hpass : (reqs i).passthrough = false := by
    cases hp : (reqs i).passthrough with
    | false => rfl
    | true =>
        rw [h.passthrough i hp] at hstatus
        simp [Request.beginBytes, hp] at hstatus
  obtain ⟨hok, hturn, hsize⟩ := (h.ok i hpass).step (h.size ▸ hin i) hpass hbyte
  -- the state after the step
  generalize ht : (⟨dev', Function.update s.prog i p'⟩ : Racing w ι) = t
  have hdev : t.dev = dev' := by rw [← ht]
  have hself : t.prog i = p' := by
    rw [← ht]
    exact Function.update_self i p' s.prog
  have hother : ∀ j, j ≠ i → t.prog j = s.prog j := by
    intro j hj
    rw [← ht]
    exact Function.update_of_ne hj p' s.prog
  refine ⟨⟨hdev ▸ hsize.trans h.size, fun j hj => ?_, fun j hj => ?_⟩, hstatus, ?_, hother⟩
  · have hji : j ≠ i := by
      rintro rfl
      rw [hpass] at hj
      cases hj
    exact (hother j hji).trans (h.passthrough j hj)
  · by_cases hji : j = i
    · rw [hji, hself]
      exact hok
    · rw [hother j hji]
      exact h.ok j hj
  · rw [hdev, hself]
    exact hturn

theorem Since.step (h : Since reqs size s₁ s) (hin : ∀ i, (reqs i).InRange size)
    (hstep : raceStep reqs s i = some t) :
    Since reqs size s₁ t ∧ (s₁.prog i).status = none ∧
      Turn (reqs i) s.dev (s.prog i) t.dev (t.prog i) ∧ ∀ j, j ≠ i → t.prog j = s.prog j := by
  obtain ⟨hok, hstatus, hturn, hother⟩ := h.raceOk.step hin hstep
  have hfirst : (s₁.prog i).status = none := by
    by_contra hdone
    rw [h.completed i hdone] at hstatus
    exact hdone hstatus
  refine ⟨⟨hok, fun j hj => ?_⟩, hfirst, hturn, hother⟩
  have hji : j ≠ i := by
    rintro rfl
    exact hj hfirst
  rw [hother j hji, h.completed j hj]

omit [DecidableEq ι] in
/-- A fresh byte is only replaced by a fresh one. -/
theorem Fresh.turn (h : Fresh reqs s₁ q (s.dev.data q)) (hi : (s₁.prog i).status = none)
    (hturn : Turn (reqs i) s.dev (s.prog i) t.dev (t.prog i)) : Fresh reqs s₁ q (t.dev.data q) := by
  cases hturn with
  | quiet hdata _ => exact hdata ▸ h
  | fetch hdata _ _ => exact hdata ▸ h
  | store b hdata hb _ =>
      rw [hdata, write_singleton]
      by_cases hq : q = (reqs i).start + (s.prog i).moved.length
      · subst hq
        rw [Function.update_self]
        exact ⟨i, hi, hb⟩
      · rw [Function.update_of_ne hq]
        exact h

/-! ### Writes -/

/-- Every position that a write has reached since `s₁` has a fresh byte. -/
def Raced (reqs : ι → Request) (s₁ s : Racing w ι) : Prop :=
  ∀ i q, (reqs i).dir = .WRITE → (reqs i).start + (s₁.prog i).moved.length ≤ q →
    q < (reqs i).start + (s.prog i).moved.length → Fresh reqs s₁ q (s.dev.data q)

omit [DecidableEq ι] in
theorem Raced.turn (h : Raced reqs s₁ s) (hi : (s₁.prog i).status = none)
    (hturn : Turn (reqs i) s.dev (s.prog i) t.dev (t.prog i))
    (hother : ∀ j, j ≠ i → t.prog j = s.prog j) : Raced reqs s₁ t := by
  intro j q hdir hle hlt
  by_cases hji : j = i
  · subst hji
    cases hturn with
    | quiet hdata hmoved =>
        rw [hmoved] at hlt
        exact hdata ▸ h j q hdir hle hlt
    | fetch _ hread _ =>
        rw [hdir] at hread
        cases hread
    | store b hdata hb hmoved =>
        rw [hmoved, List.length_append, List.length_singleton] at hlt
        by_cases hq : q = (reqs j).start + (s.prog j).moved.length
        · rw [hdata, write_singleton, ← hq, Function.update_self]
          exact ⟨j, hi, hq ▸ hb⟩
        · exact (h j q hdir hle (by omega)).turn hi (.store b hdata hb hmoved)
  · rw [hother j hji] at hlt
    exact (h j q hdir hle hlt).turn hi hturn

/-- **Run.** -/
theorem since_run (h₁ : RaceOk reqs size s₁) (hin : ∀ i, (reqs i).InRange size)
    (hrun : run (raceStep reqs) s₁ ls = some s) : Since reqs size s₁ s ∧ Raced reqs s₁ s := by
  have hstep : ∀ s i t, Since reqs size s₁ s ∧ Raced reqs s₁ s → raceStep reqs s i = some t →
      Since reqs size s₁ t ∧ Raced reqs s₁ t := by
    rintro s i t ⟨hsince, hraced⟩ hstep
    obtain ⟨hnext, hi, hturn, hother⟩ := hsince.step hin hstep
    exact ⟨hnext, hraced.turn hi hturn hother⟩
  refine run_invariant hstep ⟨⟨h₁, fun _ _ => rfl⟩, fun i q _ hle hlt => ?_⟩ hrun
  omega

/-! ### Reads -/

/-- The position `q` has a fresh byte, and every read that has come to it since `s₂` has moved one. -/
structure Settled (reqs : ι → Request) (s₁ s₂ : Racing w ι) (q : ℕ) (s : Racing w ι) : Prop where
  data : Fresh reqs s₁ q (s.dev.data q)
  reads : ∀ r, (reqs r).dir = .READ → (reqs r).start + (s₂.prog r).moved.length ≤ q →
    q < (reqs r).start + (s.prog r).moved.length →
    ∃ b, (s.prog r).moved[q - (reqs r).start]? = some b ∧ Fresh reqs s₁ q b

omit [DecidableEq ι] in
theorem Settled.turn (h : Settled reqs s₁ s₂ q s) (hi : (s₁.prog i).status = none)
    (hturn : Turn (reqs i) s.dev (s.prog i) t.dev (t.prog i))
    (hother : ∀ j, j ≠ i → t.prog j = s.prog j) : Settled reqs s₁ s₂ q t := by
  refine ⟨h.data.turn hi hturn, fun r hdir hle hlt => ?_⟩
  by_cases hri : r = i
  · subst hri
    cases hturn with
    | quiet _ hmoved =>
        rw [hmoved] at hlt ⊢
        exact h.reads r hdir hle hlt
    | store _ _ hb _ =>
        have hwrite := hb.1
        rw [hdir] at hwrite
        cases hwrite
    | fetch _ _ hmoved =>
        rw [hmoved, List.length_append, List.length_singleton] at hlt
        rw [hmoved]
        by_cases hq : q = (reqs r).start + (s.prog r).moved.length
        · refine ⟨s.dev.data q, ?_, h.data⟩
          rw [hq, Nat.add_sub_cancel_left]
          exact List.getElem?_concat_length
        · obtain ⟨b, hb, hfresh⟩ := h.reads r hdir hle (by omega)
          refine ⟨b, ?_, hfresh⟩
          rw [List.getElem?_append_left (by omega)]
          exact hb
  · rw [hother r hri] at hlt ⊢
    exact h.reads r hdir hle hlt

/-- **Overlapping requests.**  The bytes of requests that lie on the disk are moved in any order, one
at a time.  Let the write `i` cover `q`, begin after `s₁` and complete before `s₂`.  Then from `s₂` on
the disk has at `q` the byte of a write that had not completed at `s₁`, and so has every read that
begins after `s₂` when it has completed. -/
theorem overlapping_requests {dev : BlkramDev w} (hin : ∀ i, (reqs i).InRange dev.size)
    {ls₁ ls₂ ls₃ : List ι} {s₃ : Racing w ι}
    (h₁ : run (raceStep reqs) (Racing.start reqs dev) ls₁ = some s₁)
    (h₂ : run (raceStep reqs) s₁ ls₂ = some s₂) (h₃ : run (raceStep reqs) s₂ ls₃ = some s₃)
    (hdir : (reqs i).dir = .WRITE) (hspans : (reqs i).Spans q)
    (hbegin : s₁.prog i = (reqs i).beginBytes w) (hdone : (s₂.prog i).status ≠ none) :
    Fresh reqs s₁ q (s₃.dev.data q) ∧
      ∀ r, (reqs r).dir = .READ → (reqs r).Spans q → s₂.prog r = (reqs r).beginBytes w →
        (s₃.prog r).status ≠ none →
        ∃ b, (s₃.prog r).moved[q - (reqs r).start]? = some b ∧ Fresh reqs s₁ q b := by
  have hok₁ := (since_run (raceOk_start hin) hin h₁).1.raceOk
  obtain ⟨hsince, hraced⟩ := since_run hok₁ hin h₂
  have hmoved := (hsince.raceOk.ok i hspans.1).length_moved hdone
  have hfresh : Fresh reqs s₁ q (s₂.dev.data q) := by
    apply hraced i q hdir
    · rw [hbegin, moved_beginBytes, List.length_nil, Nat.add_zero]
      exact hspans.2.1
    · rw [hmoved]
      exact hspans.2.2
  have hstep : ∀ s j t, Since reqs dev.size s₁ s ∧ Settled reqs s₁ s₂ q s →
      raceStep reqs s j = some t → Since reqs dev.size s₁ t ∧ Settled reqs s₁ s₂ q t := by
    rintro s j t ⟨hs, hsettled⟩ hstep
    obtain ⟨hnext, hj, hturn, hother⟩ := hs.step hin hstep
    exact ⟨hnext, hsettled.turn hj hturn hother⟩
  have hstart : Settled reqs s₁ s₂ q s₂ := by
    refine ⟨hfresh, fun r _ hle hlt => ?_⟩
    omega
  obtain ⟨hend, hsettled⟩ := run_invariant hstep ⟨hsince, hstart⟩ h₃
  refine ⟨hsettled.data, fun r hread hr hnew hcompleted => ?_⟩
  apply hsettled.reads r hread
  · rw [hnew, moved_beginBytes, List.length_nil, Nat.add_zero]
    exact hr.2.1
  · rw [(hend.raceOk.ok r hr.1).length_moved hcompleted]
    exact hr.2.2

end Races

/-- Two writes of two bytes and a read, all at sector 0. -/
def sameSector : Fin 3 → Request
  | 0 => ⟨0, .WRITE, false, [[1, 2]], by decide⟩
  | 1 => ⟨0, .WRITE, false, [[3, 4]], by decide⟩
  | 2 => ⟨0, .READ, false, [[7, 7]], by decide⟩

/-- The requests on a disk of 2048 zeros. -/
def sameSectorStart : Racing 64 (Fin 3) := Racing.start sameSector ⟨fun _ => 0, 2048, by decide⟩

/-- The two writes move their bytes in opposite orders of the requests, and then the read follows. -/
theorem overlapping_requests_sameSector :
    ∃ s₂ s₃, run (raceStep sameSector) sameSectorStart [0, 1, 0, 1, 1, 0, 0, 1, 0, 1] = some s₂ ∧
      run (raceStep sameSector) s₂ [2, 2, 2, 2, 2] = some s₃ ∧
      Fresh sameSector sameSectorStart 0 (s₃.dev.data 0) ∧
      ∃ b, (s₃.prog 2).moved[0]? = some b ∧ Fresh sameSector sameSectorStart 0 b := by
  obtain ⟨s₂, h₂⟩ : ∃ s₂, run (raceStep sameSector) sameSectorStart [0, 1, 0, 1, 1, 0, 0, 1, 0, 1] =
      some s₂ := ⟨_, rfl⟩
  have hdone : (s₂.prog 0).status ≠ none ∧ s₂.prog 2 = (sameSector 2).beginBytes 64 := by
    obtain rfl := Option.some.inj h₂
    exact ⟨by decide, rfl⟩
  obtain ⟨s₃, h₃⟩ : ∃ s₃, run (raceStep sameSector) s₂ [2, 2, 2, 2, 2] = some s₃ := by
    obtain rfl := Option.some.inj h₂
    exact ⟨_, rfl⟩
  have hread : (s₃.prog 2).status ≠ none := by
    obtain rfl := Option.some.inj h₂
    obtain rfl := Option.some.inj h₃
    decide
  have hspans : ∀ i, (sameSector i).Spans 0 := by
    intro i
    fin_cases i <;> simp [sameSector, Request.Spans, Request.start, Request.total]
  have hin : ∀ i, (sameSector i).InRange sameSectorStart.dev.size := by
    have hsize : sameSectorStart.dev.size = 2048 := rfl
    intro i
    fin_cases i <;> simp [sameSector, Request.InRange, Request.start, Request.total, hsize]
  have h₁ : run (raceStep sameSector) (Racing.start sameSector sameSectorStart.dev) [] =
      some sameSectorStart := rfl
  obtain ⟨hdata, hreads⟩ :=
    overlapping_requests hin h₁ h₂ h₃ (i := 0) rfl (hspans 0) rfl hdone.1
  exact ⟨s₂, s₃, h₂, h₃, hdata, hreads 2 rfl (hspans 2) hdone.2 hread⟩

end Lkmpg.Blkram
