import Lkmpg.Blkram.Disk
import Lkmpg.Lib.Transition
import Mathlib.Tactic.FinCases

/-!
# Concurrent requests of `blkram.c`

The block layer may run `blkram_queue_rq` for several requests at once, and the driver takes no
lock.  A state is the disk and the progress of every request; a step copies one segment of one
request.

`Disjoint` is what the layers above promise: of two requests of which one is a write, no disk
position is covered by both.  `independent_requests_commute`: then every interleaving ends with the
disk and the completions of every serial execution.
-/

namespace Lkmpg.Blkram

open LinearMem Transition

variable {w : ℕ} {ι : Type}

/-- How far a `blkram_queue_rq` has come: the running offset, the segments it has copied and those
it has not, and its status once it has completed. -/
structure Progress where
  offset : ℕ
  done : List (List Byte)
  todo : List (List Byte)
  status : Option BlkStatus

/-- The status and the segments as they are left. -/
def Progress.completion (p : Progress) : Completion :=
  ⟨p.status.getD .BLK_STS_OK, p.done ++ p.todo⟩

/-- `blkram_queue_rq` before the segment loop; a passthrough request has completed. -/
def Request.begin (w : ℕ) (rq : Request) : Progress :=
  ⟨startOffset w rq.pos, [], rq.segs, if rq.passthrough then some .BLK_STS_IOERR else none⟩

/-- The next turn of the segment loop. -/
def progStep (dir : Dir) (dev : BlkramDev w) (p : Progress) : Option (BlkramDev w × Progress) :=
  match p.status, p.todo with
  | some _, _ => none
  | none, [] => some (dev, { p with status := some .BLK_STS_OK })
  | none, seg :: rest =>
      match copySegment dir p.offset seg dev with
      | none => some (dev, { p with status := some .BLK_STS_IOERR })
      | some (dev', seg') =>
          some (dev', ⟨(p.offset + seg.length) % 2 ^ w, p.done ++ [seg'], rest, none⟩)

structure Disk (w : ℕ) (ι : Type) where
  dev : BlkramDev w
  prog : ι → Progress

/-- All requests have been handed to the driver. -/
def Disk.start (reqs : ι → Request) (dev : BlkramDev w) : Disk w ι :=
  ⟨dev, fun i => (reqs i).begin w⟩

def diskStep [DecidableEq ι] (reqs : ι → Request) (s : Disk w ι) (i : ι) : Option (Disk w ι) :=
  (progStep (reqs i).dir s.dev (s.prog i)).map fun n => ⟨n.1, Function.update s.prog i n.2⟩

/-- The positions that a request moves data from or to. -/
def Request.Covers (rq : Request) (p : ℕ) : Prop :=
  rq.passthrough = false ∧ rq.start ≤ p ∧ p < rq.start + rq.total

/-- Two requests of which at least one is a write cover no common position. -/
def Disjoint (reqs : ι → Request) : Prop :=
  ∀ i j, i ≠ j → (reqs i).dir = .WRITE ∨ (reqs j).dir = .WRITE →
    ∀ p, ¬((reqs i).Covers p ∧ (reqs j).Covers p)

/-! ### What is written so far -/

/-- The bytes that a request puts on the disk. -/
def Request.outgoing (rq : Request) : List Byte :=
  if rq.passthrough = false ∧ rq.dir = .WRITE then rq.segs.flatten else []

/-- How many bytes a request has put on the disk. -/
def Progress.written (dir : Dir) (p : Progress) : ℕ :=
  match dir with
  | .WRITE => p.done.flatten.length
  | .READ => 0

/-- The progress of a request whose data were read from the disk content `m`. -/
structure ProgressOk (w : ℕ) (rq : Request) (m : ℕ → Byte) (p : Progress) : Prop where
  passthrough : rq.passthrough = true → p = rq.begin w
  copied : rq.passthrough = false → ∃ pre, rq.segs = pre ++ p.todo ∧
    p.done = delivered rq.dir m rq.start pre ∧ p.offset = rq.start + pre.flatten.length ∧
    (p.status = none ∨ p.status = some .BLK_STS_OK ∧ p.todo = [])

/-- The state after some steps from the disk content `m`. -/
structure DiskOk (reqs : ι → Request) (m : ℕ → Byte) (size : ℕ) (s : Disk w ι) : Prop where
  size : s.dev.size = size
  prog : ∀ i, ProgressOk w (reqs i) m (s.prog i)
  disk : Merged (fun i => (reqs i).start) (fun i => (reqs i).outgoing) m s.dev.data
    fun i => (s.prog i).written (reqs i).dir

theorem length_flatten_delivered (dir : Dir) (m : ℕ → Byte) (off : ℕ) (segs : List (List Byte)) :
    (delivered dir m off segs).flatten.length = segs.flatten.length := by
  cases dir with
  | READ => rw [delivered, flatten_gather, length_read]
  | WRITE => rfl

theorem delivered_append (dir : Dir) (m : ℕ → Byte) (off : ℕ) (as bs : List (List Byte)) :
    delivered dir m off (as ++ bs) =
      delivered dir m off as ++ delivered dir m (off + as.flatten.length) bs := by
  cases dir with
  | READ => exact gather_append m off as bs
  | WRITE => rfl

/-- What a request has written lies in the positions it covers. -/
theorem ProgressOk.covers {rq : Request} {m : ℕ → Byte} {p : Progress} (h : ProgressOk w rq m p)
    {q : ℕ} (hle : rq.start ≤ q) (hlt : q < rq.start + p.written rq.dir) :
    rq.dir = .WRITE ∧ rq.Covers q := by
  cases hdir : rq.dir with
  | READ =>
      have hzero : p.written .READ = 0 := rfl
      rw [hdir, hzero] at hlt
      omega
  | WRITE =>
      refine ⟨rfl, ?_⟩
      rw [hdir] at hlt
      cases hpass : rq.passthrough with
      | true =>
          have hzero : (rq.begin w).written .WRITE = 0 := rfl
          rw [h.passthrough hpass, hzero] at hlt
          omega
      | false =>
          obtain ⟨pre, hsegs, hdone, _⟩ := h.copied hpass
          rw [Progress.written, hdone, length_flatten_delivered] at hlt
          refine ⟨hpass, hle, ?_⟩
          rw [Request.total, hsegs, List.flatten_append, List.length_append]
          omega

/-! ### One step -/

section Step

variable {reqs : ι → Request} {m : ℕ → Byte} {size : ℕ} {s : Disk w ι} {i : ι}

/-- What a request reads of the positions it covers is the original content. -/
theorem DiskOk.read_eq (hs : DiskOk reqs m size s) (hdisj : Disjoint reqs)
    (hread : (reqs i).dir = .READ) {off n : ℕ}
    (hcov : ∀ p, off ≤ p → p < off + n → (reqs i).Covers p) :
    LinearMem.read s.dev.data off n = LinearMem.read m off n := by
  refine hs.disk.read fun p hle hlt j hj => ?_
  obtain ⟨hwrite, hcovj⟩ := (hs.prog j).covers hj.1 hj.2
  have hij : i ≠ j := by
    rintro rfl
    rw [hread] at hwrite
    cases hwrite
  exact hdisj i j hij (Or.inr hwrite) p ⟨hcov p hle hlt, hcovj⟩

/-- What a turn of the loop does to a request in progress. -/
theorem DiskOk.progStep_eq (hs : DiskOk reqs m size s) (hin : (reqs i).InRange size)
    (hpass : (reqs i).passthrough = false) {seg : List Byte} {rest : List (List Byte)}
    (hstatus : (s.prog i).status = none) (htodo : (s.prog i).todo = seg :: rest) :
    ∃ pre, (reqs i).segs = pre ++ seg :: rest ∧
      (s.prog i).done = delivered (reqs i).dir m (reqs i).start pre ∧
      progStep (reqs i).dir s.dev (s.prog i) =
        some (s.dev.store (reqs i).dir ((reqs i).start + pre.flatten.length) seg,
          ⟨(reqs i).start + (pre ++ [seg]).flatten.length, (s.prog i).done ++
            delivered (reqs i).dir s.dev.data ((reqs i).start + pre.flatten.length) [seg],
            rest, none⟩) := by
  obtain ⟨pre, hsegs, hdone, hoff, _⟩ := (hs.prog i).copied hpass
  rw [htodo] at hsegs
  refine ⟨pre, hsegs, hdone, ?_⟩
  have hfits := s.dev.fits
  have hle : (reqs i).start + pre.flatten.length + seg.length ≤ s.dev.size := by
    have hrange : (reqs i).start + (reqs i).segs.flatten.length ≤ size := hin
    rw [hsegs, List.flatten_append, List.flatten_cons, List.length_append,
      List.length_append] at hrange
    rw [hs.size]
    omega
  have hmod : ((reqs i).start + pre.flatten.length + seg.length) % 2 ^ w =
      (reqs i).start + (pre ++ [seg]).flatten.length := by
    rw [Nat.mod_eq_of_lt (by omega), List.flatten_append, List.length_append,
      List.flatten_singleton, Nat.add_assoc]
  unfold progStep
  rw [hstatus, htodo]
  simp only [hoff, copySegment_of_le hle, hmod]
  cases (reqs i).dir <;> rfl

/-- Copying one segment of one request keeps the invariant. -/
theorem DiskOk.copy [DecidableEq ι] (hs : DiskOk reqs m size s) (hdisj : Disjoint reqs)
    (hpass : (reqs i).passthrough = false) {seg : List Byte} {pre rest : List (List Byte)}
    (hsegs : (reqs i).segs = pre ++ seg :: rest)
    (hdone : (s.prog i).done = delivered (reqs i).dir m (reqs i).start pre) :
    DiskOk reqs m size
      (⟨s.dev.store (reqs i).dir ((reqs i).start + pre.flatten.length) seg,
        Function.update s.prog i
          ⟨(reqs i).start + (pre ++ [seg]).flatten.length, (s.prog i).done ++
            delivered (reqs i).dir s.dev.data ((reqs i).start + pre.flatten.length) [seg],
            rest, none⟩⟩ : Disk w ι) := by
  have hsegs' : (reqs i).segs = (pre ++ [seg]) ++ rest := by
    rw [hsegs, List.append_assoc, List.singleton_append]
  have htotal : (reqs i).total = pre.flatten.length + seg.length + rest.flatten.length := by
    rw [Request.total, hsegs, List.flatten_append, List.flatten_cons, List.length_append,
      List.length_append, Nat.add_assoc]
  have hcov : ∀ p, (reqs i).start + pre.flatten.length ≤ p →
      p < (reqs i).start + pre.flatten.length + seg.length → (reqs i).Covers p :=
    fun p h₁ h₂ => ⟨hpass, by omega, by omega⟩
  have hdeliver : (s.prog i).done ++
      delivered (reqs i).dir s.dev.data ((reqs i).start + pre.flatten.length) [seg] =
        delivered (reqs i).dir m (reqs i).start (pre ++ [seg]) := by
    rw [delivered_append, hdone]
    cases hdir : (reqs i).dir with
    | WRITE => rfl
    | READ =>
        simp only [delivered, gather]
        rw [hs.read_eq hdisj hdir hcov]
  refine ⟨hs.size, fun j => ?_, ?_⟩
  · show ProgressOk w (reqs j) m (Function.update s.prog i _ j)
    by_cases hji : j = i
    · rw [hji, Function.update_self]
      refine ⟨fun hp => ?_, fun _ => ⟨pre ++ [seg], hsegs', hdeliver, rfl, Or.inl rfl⟩⟩
      rw [hpass] at hp
      cases hp
    · rw [Function.update_of_ne hji]
      exact hs.prog j
  · have hwritten : ∀ q : Progress,
        (fun j => (Function.update s.prog i q j).written (reqs j).dir) =
          Function.update (fun j => (s.prog j).written (reqs j).dir) i (q.written (reqs i).dir) := by
      intro q
      funext j
      by_cases hji : j = i
      · rw [hji, Function.update_self, Function.update_self]
      · rw [Function.update_of_ne hji, Function.update_of_ne hji]
    show Merged _ _ m (stored (reqs i).dir s.dev.data _ seg) fun j =>
      (Function.update s.prog i _ j).written (reqs j).dir
    rw [hwritten, hdeliver]
    cases hdir : (reqs i).dir with
    | READ =>
        have hold : (s.prog i).written (reqs i).dir = 0 := by rw [hdir]; rfl
        have hsame : Function.update (fun j => (s.prog j).written (reqs j).dir) i 0 =
            fun j => (s.prog j).written (reqs j).dir := by
          rw [← hold, Function.update_eq_self]
        show Merged _ _ m s.dev.data (Function.update _ i 0)
        rw [hsame]
        exact hs.disk
    | WRITE =>
        have hold : (s.prog i).written (reqs i).dir = pre.flatten.length := by
          rw [hdir, Progress.written, hdone, hdir]
          rfl
        have hout : (reqs i).outgoing = pre.flatten ++ seg ++ rest.flatten := by
          rw [Request.outgoing, if_pos ⟨hpass, hdir⟩, hsegs, List.flatten_append,
            List.flatten_cons, List.append_assoc]
        have hcopy := hs.disk.copy hout hold fun j hji p hle hlt hp => by
          obtain ⟨_, hcovj⟩ := (hs.prog j).covers hle hlt
          exact hdisj i j (fun h => hji h.symm) (Or.inl hdir) p ⟨hcov p hp.1 hp.2, hcovj⟩
        have hlen : (⟨(reqs i).start + (pre ++ [seg]).flatten.length,
            delivered .WRITE m (reqs i).start (pre ++ [seg]), rest, none⟩ : Progress).written
              .WRITE = pre.flatten.length + seg.length := by
          show (pre ++ [seg]).flatten.length = _
          rw [List.flatten_append, List.flatten_singleton, List.length_append]
        rw [hlen]
        exact hcopy

/-- A request whose segments are all copied completes. -/
theorem DiskOk.complete [DecidableEq ι] (hs : DiskOk reqs m size s)
    (hpass : (reqs i).passthrough = false) (htodo : (s.prog i).todo = []) :
    DiskOk reqs m size
      (⟨s.dev, Function.update s.prog i
        ⟨(s.prog i).offset, (s.prog i).done, (s.prog i).todo, some .BLK_STS_OK⟩⟩ : Disk w ι) := by
  obtain ⟨pre, hsegs, hdone, hoff, _⟩ := (hs.prog i).copied hpass
  refine ⟨hs.size, fun j => ?_, ?_⟩
  · show ProgressOk w (reqs j) m (Function.update s.prog i _ j)
    by_cases hji : j = i
    · rw [hji, Function.update_self]
      refine ⟨fun hp => ?_, fun _ => ⟨pre, hsegs, hdone, hoff, Or.inr ⟨rfl, htodo⟩⟩⟩
      rw [hpass] at hp
      cases hp
    · rw [Function.update_of_ne hji]
      exact hs.prog j
  · have hwritten : ∀ j, (Function.update s.prog i ⟨(s.prog i).offset, (s.prog i).done,
        (s.prog i).todo, some .BLK_STS_OK⟩ j).written (reqs j).dir =
          (s.prog j).written (reqs j).dir := by
      intro j
      by_cases hji : j = i
      · rw [hji, Function.update_self]
        rfl
      · rw [Function.update_of_ne hji]
    show Merged _ _ m s.dev.data fun j => (Function.update s.prog i _ j).written (reqs j).dir
    simp only [hwritten]
    exact hs.disk

/-- **Step.**  Every step keeps the invariant. -/
theorem DiskOk.step [DecidableEq ι] (hs : DiskOk reqs m size s) (hdisj : Disjoint reqs)
    (hin : ∀ i, (reqs i).InRange size) {t : Disk w ι} (h : diskStep reqs s i = some t) :
    DiskOk reqs m size t := by
  obtain ⟨⟨dev', p'⟩, hstep, rfl⟩ := Option.map_eq_some_iff.mp h
  cases hpass : (reqs i).passthrough with
  | true =>
      rw [(hs.prog i).passthrough hpass, progStep, Request.begin, hpass] at hstep
      cases hstep
  | false =>
      obtain ⟨pre, hsegs, hdone, hoff, hstatus | ⟨hstatus, _⟩⟩ := (hs.prog i).copied hpass
      · cases htodo : (s.prog i).todo with
        | nil =>
            unfold progStep at hstep
            rw [hstatus, htodo] at hstep
            cases hstep
            have hcomplete := hs.complete hpass htodo
            rw [htodo] at hcomplete
            exact hcomplete
        | cons seg rest =>
            obtain ⟨pre, hsegs, hdone, heq⟩ := hs.progStep_eq (hin i) hpass hstatus htodo
            rw [heq] at hstep
            cases hstep
            exact hs.copy hdisj hpass hsegs hdone
      · unfold progStep at hstep
        rw [hstatus] at hstep
        cases hstep

end Step

/-! ### Runs and serial executions -/

/-- The completion of a request that finds the disk content `m`. -/
def Request.outcome (rq : Request) (m : ℕ → Byte) : Completion :=
  if rq.passthrough then ⟨.BLK_STS_IOERR, rq.segs⟩
  else ⟨.BLK_STS_OK, delivered rq.dir m rq.start rq.segs⟩

theorem Request.covers_of_outgoing {rq : Request} {p : ℕ} (hle : rq.start ≤ p)
    (hlt : p < rq.start + rq.outgoing.length) : rq.dir = .WRITE ∧ rq.Covers p := by
  rw [Request.outgoing] at hlt
  split at hlt
  · rename_i h
    exact ⟨h.2, h.1, hle, hlt⟩
  · rw [List.length_nil] at hlt
    omega

/-- A request that has completed has the completion it has when it runs alone, and all its bytes are
on the disk. -/
theorem ProgressOk.finished {rq : Request} {m : ℕ → Byte} {p : Progress}
    (h : ProgressOk w rq m p) (hdone : p.status ≠ none) :
    p.completion = rq.outcome m ∧ p.written rq.dir = rq.outgoing.length := by
  cases hpass : rq.passthrough with
  | true =>
      have hout : rq.outgoing = [] := by rw [Request.outgoing, hpass]; rfl
      rw [h.passthrough hpass, Request.outcome, hpass, hout]
      refine ⟨?_, by cases rq.dir <;> rfl⟩
      rw [Progress.completion, Request.begin, hpass]
      rfl
  | false =>
      obtain ⟨pre, hsegs, hdeliver, _, hstatus⟩ := h.copied hpass
      obtain ⟨hok, htodo⟩ := hstatus.resolve_left hdone
      rw [htodo, List.append_nil] at hsegs
      rw [Request.outcome, hpass, Progress.completion, hok, htodo, hdeliver, hsegs]
      refine ⟨by rw [List.append_nil]; rfl, ?_⟩
      cases hdir : rq.dir with
      | READ => rw [Request.outgoing, if_neg (by simp [hdir])]; rfl
      | WRITE =>
          rw [Request.outgoing, if_pos ⟨hpass, hdir⟩, Progress.written, hdeliver, hdir, hsegs]
          rfl

section Serial

variable [DecidableEq ι] {reqs : ι → Request} {dev : BlkramDev w} {m : ℕ → Byte}

/-- One request of a serial execution. -/
theorem blkramQueueRq_merged {i : ι} (hdisj : Disjoint reqs) (hin : (reqs i).InRange dev.size)
    {upto : ι → ℕ}
    (hmerged : Merged (fun i => (reqs i).start) (fun i => (reqs i).outgoing) m dev.data upto)
    (hi : upto i = 0) (hle : ∀ j, upto j ≤ (reqs j).outgoing.length) :
    (blkramQueueRq (reqs i) dev).1 = (reqs i).outcome m ∧
      (blkramQueueRq (reqs i) dev).2.size = dev.size ∧
      Merged (fun i => (reqs i).start) (fun i => (reqs i).outgoing) m
        (blkramQueueRq (reqs i) dev).2.data
        (Function.update upto i (reqs i).outgoing.length) := by
  have hcovers : ∀ j p, (reqs j).start ≤ p → p < (reqs j).start + upto j →
      (reqs j).dir = .WRITE ∧ (reqs j).Covers p := fun j p h₁ h₂ =>
    Request.covers_of_outgoing h₁ (by have := hle j; omega)
  cases hpass : (reqs i).passthrough with
  | true =>
      have hout : (reqs i).outgoing = [] := by rw [Request.outgoing, hpass]; rfl
      rw [blkramQueueRq, hpass, Request.outcome, hpass, hout, List.length_nil, ← hi,
        Function.update_eq_self]
      exact ⟨rfl, rfl, hmerged⟩
  | false =>
      have hown : ∀ p, (reqs i).start ≤ p → p < (reqs i).start + (reqs i).segs.flatten.length →
          (reqs i).Covers p := by
        intro p h₁ h₂
        refine ⟨hpass, h₁, ?_⟩
        rw [Request.total]
        exact h₂
      rw [blkramQueueRq_eq ⟨hpass, hin⟩, Request.outcome, hpass, BlkramDev.store]
      cases hdir : (reqs i).dir with
      | READ =>
          have hout : (reqs i).outgoing = [] := by
            rw [Request.outgoing, if_neg (by simp [hdir])]
          rw [hout, List.length_nil, ← hi, Function.update_eq_self]
          refine ⟨congrArg (Completion.mk _) (gather_congr fun p h₁ h₂ => ?_), rfl, hmerged⟩
          refine hmerged.2 p fun j hj => ?_
          obtain ⟨hwrite, hcov⟩ := hcovers j p hj.1 hj.2
          have hij : i ≠ j := by
            rintro rfl
            rw [hdir] at hwrite
            cases hwrite
          exact hdisj i j hij (Or.inr hwrite) p ⟨hown p h₁ h₂, hcov⟩
      | WRITE =>
          have hout : (reqs i).outgoing = (reqs i).segs.flatten := by
            rw [Request.outgoing, if_pos ⟨hpass, hdir⟩]
          have hparts : (reqs i).outgoing = [] ++ (reqs i).segs.flatten ++ [] := by
            rw [List.append_nil, List.nil_append, hout]
          have hclear : ∀ j, j ≠ i → ∀ p, (reqs j).start ≤ p → p < (reqs j).start + upto j →
              ¬((reqs i).start + ([] : List Byte).length ≤ p ∧
                p < (reqs i).start + ([] : List Byte).length + (reqs i).segs.flatten.length) := by
            intro j hji p h₁ h₂ hp
            rw [List.length_nil, Nat.add_zero] at hp
            obtain ⟨_, hcov⟩ := hcovers j p h₁ h₂
            exact hdisj i j (fun h => hji h.symm) (Or.inl hdir) p ⟨hown p hp.1 hp.2, hcov⟩
          have hcopy := hmerged.copy hparts hi hclear
          rw [List.length_nil, Nat.zero_add, Nat.add_zero] at hcopy
          rw [hout]
          exact ⟨rfl, rfl, hcopy⟩

/-- **Serial executions.**  Served one after another in any order, independent requests have the
completions they have on the original disk. -/
theorem serve_merged {order : List ι} (hdisj : Disjoint reqs) (hnodup : order.Nodup)
    (hin : ∀ i, (reqs i).InRange dev.size) {upto : ι → ℕ}
    (hmerged : Merged (fun i => (reqs i).start) (fun i => (reqs i).outgoing) m dev.data upto)
    (hupto : ∀ i, upto i = if i ∈ order then 0 else (reqs i).outgoing.length) :
    (serve (order.map reqs) dev).1 = order.map (fun i => (reqs i).outcome m) ∧
      (serve (order.map reqs) dev).2.size = dev.size ∧
      Merged (fun i => (reqs i).start) (fun i => (reqs i).outgoing) m
        (serve (order.map reqs) dev).2.data fun i => (reqs i).outgoing.length := by
  induction order generalizing dev upto with
  | nil =>
      have hall : upto = fun i => (reqs i).outgoing.length := by
        funext i
        rw [hupto i, if_neg List.not_mem_nil]
      exact ⟨rfl, rfl, hall ▸ hmerged⟩
  | cons i order ih =>
      obtain ⟨hi, hnodup⟩ := List.nodup_cons.mp hnodup
      have hzero : upto i = 0 := by rw [hupto i, if_pos List.mem_cons_self]
      have hle : ∀ j, upto j ≤ (reqs j).outgoing.length := by
        intro j
        rw [hupto j]
        split <;> omega
      obtain ⟨hfirst, hsize, hnext⟩ := blkramQueueRq_merged hdisj (hin i) hmerged hzero hle
      have hupto' : ∀ j, Function.update upto i (reqs i).outgoing.length j =
          if j ∈ order then 0 else (reqs j).outgoing.length := by
        intro j
        by_cases hji : j = i
        · rw [hji, Function.update_self, if_neg hi]
        · rw [Function.update_of_ne hji, hupto j]
          simp only [List.mem_cons, hji, false_or]
      obtain ⟨hrest, hsize', hlast⟩ := ih hnodup (fun j => hsize ▸ hin j) hnext hupto'
      rw [List.map_cons, serve, List.map_cons]
      exact ⟨by rw [hfirst, hrest], hsize'.trans hsize, hlast⟩

end Serial

section Runs

variable [DecidableEq ι] {reqs : ι → Request} {dev : BlkramDev w}

theorem written_begin (rq : Request) : (rq.begin w).written rq.dir = 0 := by
  cases rq.dir <;> rfl

omit [DecidableEq ι] in
theorem diskOk_start (hin : ∀ i, (reqs i).InRange dev.size) :
    DiskOk reqs dev.data dev.size (Disk.start reqs dev) := by
  refine ⟨rfl, fun i => ⟨fun _ => rfl, fun hpass => ?_⟩, ?_⟩
  · refine ⟨[], rfl, by cases (reqs i).dir <;> rfl, ?_, Or.inl ?_⟩
    · rw [List.flatten_nil, List.length_nil, Nat.add_zero]
      exact startOffset_of_inRange (hin i)
    · show (if (reqs i).passthrough then some BlkStatus.BLK_STS_IOERR else none) = none
      rw [hpass]
      rfl
  · show Merged _ _ dev.data dev.data fun i => ((reqs i).begin w).written (reqs i).dir
    simp only [written_begin]
    exact merged_start

/-- **Independent requests commute.**  Whatever the interleaving of their segment copies, requests
that are in range and cover disjoint ranges (two reads excepted) end with the disk, the data and the
statuses of an execution one at a time, in any order. -/
theorem independent_requests_commute (hdisj : Disjoint reqs) (hin : ∀ i, (reqs i).InRange dev.size)
    {ls : List ι} {s : Disk w ι} (hrun : run (diskStep reqs) (Disk.start reqs dev) ls = some s)
    (hdone : ∀ i, (s.prog i).status ≠ none) {order : List ι} (hnodup : order.Nodup)
    (hall : ∀ i, i ∈ order) :
    serve (order.map reqs) dev = (order.map fun i => (s.prog i).completion, s.dev) := by
  have hs : DiskOk reqs dev.data dev.size s :=
    run_invariant (fun _ _ _ hu h => hu.step hdisj hin h) (diskOk_start hin) hrun
  have hfinished : ∀ i, (s.prog i).completion = (reqs i).outcome dev.data ∧
      (s.prog i).written (reqs i).dir = (reqs i).outgoing.length :=
    fun i => (hs.prog i).finished (hdone i)
  obtain ⟨hcompletions, hsize, hserial⟩ := serve_merged hdisj hnodup hin merged_start
    fun i => (if_pos (hall i)).symm
  have hdisk := hs.disk
  simp only [fun i => (hfinished i).2] at hdisk
  have hdata : (serve (order.map reqs) dev).2.data = s.dev.data := hserial.unique hdisk
  have hdev : (serve (order.map reqs) dev).2 = s.dev :=
    BlkramDev.ext hdata (hsize.trans hs.size.symm)
  rw [← hdev]
  refine Prod.ext ?_ rfl
  rw [hcompletions]
  exact List.map_congr_left fun i _ => (hfinished i).1.symm

/-- A write of two segments to sector 0 and a read of one from sector 1. -/
def twoRequests : Fin 2 → Request
  | 0 => ⟨0, .WRITE, false, [[1], [2]], by decide⟩
  | 1 => ⟨1, .READ, false, [[7]], by decide⟩

/-- The two requests on a disk of 1024 zeros. -/
def twoStart : Disk 64 (Fin 2) := Disk.start twoRequests ⟨fun _ => 0, 1024, by decide⟩

theorem independent_requests_commute_two :
    ∃ s, run (diskStep twoRequests) twoStart [0, 1, 0, 1, 0] = some s ∧
      serve ([1, 0].map twoRequests) twoStart.dev =
        ([1, 0].map fun i => (s.prog i).completion, s.dev) := by
  have hstatus : ∀ i, (run (diskStep twoRequests) twoStart [0, 1, 0, 1, 0]).map
      (fun s => (s.prog i).status) = some (some .BLK_STS_OK) := by decide +kernel
  obtain ⟨s, hrun⟩ : ∃ s, run (diskStep twoRequests) twoStart [0, 1, 0, 1, 0] = some s := ⟨_, rfl⟩
  have hdone : ∀ i, (s.prog i).status ≠ none := by
    intro i
    have hi := hstatus i
    rw [hrun] at hi
    rw [show (s.prog i).status = some .BLK_STS_OK from Option.some.inj hi]
    exact Option.some_ne_none _
  have hcovers : ∀ i p, (twoRequests i).Covers p → i = 0 ∧ p < 2 ∨ i = 1 ∧ 512 ≤ p := by
    intro i p hp
    fin_cases i
    · exact Or.inl ⟨rfl, by simpa [twoRequests, Request.start, Request.total] using hp.2.2⟩
    · exact Or.inr ⟨rfl, by simpa [twoRequests, Request.start, sectorSize] using hp.2.1⟩
  refine ⟨s, hrun, independent_requests_commute ?_ ?_ hrun hdone (by decide) (by decide)⟩
  · intro i j hij _ p hp
    rcases hcovers i p hp.1 with ⟨rfl, hi⟩ | ⟨rfl, hi⟩ <;>
      rcases hcovers j p hp.2 with ⟨rfl, hj⟩ | ⟨rfl, hj⟩
    · exact hij rfl
    · omega
    · omega
    · exact hij rfl
  · intro i
    fin_cases i
    · simp [twoRequests, Request.InRange, Request.start, Request.total]
    · simp [twoRequests, Request.InRange, Request.start, Request.total,
        sectorSize]

end Runs

end Lkmpg.Blkram
