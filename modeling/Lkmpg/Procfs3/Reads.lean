import Lkmpg.Procfs3.Device

/-!
# Reading `/proc/buffer2k`

Any number of open files are read, each by one call at a time, and the steps of the calls come in any
order.  Each file has its own position; the size is everybody's.  A read that asks for fewer bytes
than are stored leaves only as many behind.

A file that is at position 0 is read from the start: what it delivers until a call returns 0 is a
round.  A call with a length of 0 does not count as reading the file.
-/

namespace Lkmpg.Procfs3

open LinearMem Transition

variable {φ : Type}

structure State (φ : Type) where
  globals : Globals
  /-- `f_pos` -/
  fPos : φ → ℕ
  /-- the call that is reading the file, with its length -/
  pc : φ → Option (ℕ × ReadPc)
  /-- what the file has delivered since it was at position 0 -/
  got : φ → Option (List Byte)
  /-- what the files have delivered from position 0 until a return of 0 -/
  rounds : List (φ × List Byte)

/-- No file is being read. -/
def State.init (g : Globals) (fPos : φ → ℕ) : State φ :=
  ⟨g, fPos, fun _ => none, fun _ => none, []⟩

inductive Act (φ : Type) where
  | read (f : φ) (length : ℕ)
  /-- the next step of the call that is reading the file; `copy_to_user` may fail -/
  | step (f : φ) (faults : Bool)

variable [DecidableEq φ]

/-- The call returns: a position is set if there was no error. -/
def State.ret (s : State φ) (f : φ) : ReadPc → State φ
  | .done (.ok 0) offset _ =>
      { s with
        fPos := Function.update s.fPos f offset
        pc := Function.update s.pc f none
        got := Function.update s.got f none
        rounds := s.rounds ++ ((s.got f).map fun got => (f, got)).toList }
  | .done (.ok _) offset bytes =>
      { s with
        fPos := Function.update s.fPos f offset
        pc := Function.update s.pc f none
        got := Function.update s.got f ((s.got f).map (· ++ bytes)) }
  | _ => { s with pc := Function.update s.pc f none }

def readsStep (s : State φ) : Act φ → Option (State φ)
  | .read f length =>
      if s.pc f = none then
        some { s with
          pc := Function.update s.pc f (some (length, .test))
          got := Function.update s.got f
            (if length = 0 then none else if s.fPos f = 0 then some [] else s.got f) }
      else none
  | .step f faults =>
      match s.pc f with
      | none => none
      | some (length, pc) =>
          match readStep length (s.fPos f) faults s.globals pc with
          | some (g, pc') => some { s with globals := g, pc := Function.update s.pc f (some (length, pc')) }
          | none => some (s.ret f pc)

/-- The stored content is still `b`, and so is what each file has delivered in a round. -/
structure Kept (b : List Byte) (s : State φ) : Prop where
  content : s.globals.content = b
  rounds : ∀ round ∈ s.rounds, round.2 = b

/-- A call that is about to store the size asks for at least as many bytes as are stored. -/
def LongEnough (s : State φ) : Act φ → Prop
  | .step f _ => ∀ length size, s.pc f = some (length, .store size) →
      s.globals.procfsBufferSize ≤ length
  | _ => True

/-! ### One call -/

/-- Where a call is while the content is `b`, at the position `pos`. -/
def ReadPc.Fits (b : List Byte) (pos : ℕ) : ReadPc → Prop
  | .test => True
  | .load => pos = 0 ∧ b ≠ []
  | .store size => pos = 0 ∧ b ≠ [] ∧ size = b.length
  | .copy => pos = 0 ∧ b ≠ []
  | .advance bytes => pos = 0 ∧ b ≠ [] ∧ bytes = b
  | .ret offset bytes => pos = 0 ∧ b ≠ [] ∧ bytes = b ∧ offset = b.length
  | .done (.ok 0) offset _ => offset = 0 ∧ (pos = 0 → b = [])
  | .done (.ok _) offset bytes => pos = 0 ∧ bytes = b ∧ offset = b.length
  | .done (.error _) _ _ => True

section Call

variable {b : List Byte} {g g' : Globals} {pc pc' : ReadPc} {length pos size : ℕ} {faults : Bool}

theorem length_content (g : Globals) : g.content.length = g.procfsBufferSize := length_read _ _ _

/-- A shorter size is another content. -/
theorem content_min_iff (hg : g.content = b) (hsize : size = b.length) :
    { g with procfsBufferSize := min size length }.content = b ↔ g.procfsBufferSize ≤ length := by
  have hlen : b.length = g.procfsBufferSize := by rw [← hg, length_content]
  constructor
  · intro hsame
    have hmin := congrArg List.length hsame
    rw [length_content] at hmin
    replace hmin : min size length = b.length := hmin
    omega
  · intro hle
    rw [hsize, hlen, Nat.min_eq_left hle]
    exact hg

/-- **Step of a call.**  If it asks for enough, the globals stay as they are. -/
theorem ReadPc.Fits.step (hfits : pc.Fits b pos) (hg : g.content = b)
    (hlong : ∀ size, pc = .store size → g.procfsBufferSize ≤ length)
    (h : readStep length pos faults g pc = some (g', pc')) : g'.content = b ∧ pc'.Fits b pos := by
  have hlen : b.length = g.procfsBufferSize := by rw [← hg, length_content]
  cases pc with
  | test =>
      obtain ⟨rfl, rfl⟩ := Prod.mk.inj (Option.some.inj h)
      refine ⟨hg, ?_⟩
      split
      · rename_i hend
        refine ⟨rfl, fun hpos => ?_⟩
        exact List.length_eq_zero_iff.mp (hlen.trans (hend.resolve_left (not_not.mpr hpos)))
      · rename_i hmore
        simp only [not_or, not_not] at hmore
        refine ⟨hmore.1, fun hnil => hmore.2 ?_⟩
        rw [← hlen, hnil, List.length_nil]
  | load =>
      obtain ⟨rfl, rfl⟩ := Prod.mk.inj (Option.some.inj h)
      exact ⟨hg, hfits.1, hfits.2, hlen.symm⟩
  | store size =>
      obtain ⟨rfl, rfl⟩ := Prod.mk.inj (Option.some.inj h)
      exact ⟨(content_min_iff hg hfits.2.2).mpr (hlong size rfl), hfits.1, hfits.2.1⟩
  | copy =>
      obtain ⟨rfl, rfl⟩ := Prod.mk.inj (Option.some.inj h)
      refine ⟨hg, ?_⟩
      split
      · trivial
      · exact ⟨hfits.1, hfits.2, hg⟩
  | advance bytes =>
      obtain ⟨rfl, rfl⟩ := Prod.mk.inj (Option.some.inj h)
      obtain ⟨rfl, hne, hbytes⟩ := hfits
      exact ⟨hg, rfl, hne, hbytes, by rw [Nat.zero_add, hlen]⟩
  | ret offset bytes =>
      obtain ⟨rfl, rfl⟩ := Prod.mk.inj (Option.some.inj h)
      obtain ⟨hpos, hne, hbytes, hoffset⟩ := hfits
      refine ⟨hg, ?_⟩
      cases hsize : g.procfsBufferSize with
      | zero => exact absurd (List.length_eq_zero_iff.mp (hlen.trans hsize)) hne
      | succ n => exact ⟨hpos, hbytes, hoffset⟩
  | done result offset bytes => cases h

theorem readStep_eq_none (h : readStep length pos faults g pc = none) :
    ∃ result offset bytes, pc = .done result offset bytes := by
  cases pc with
  | done result offset bytes => exact ⟨result, offset, bytes, rfl⟩
  | _ => cases h

end Call

/-! ### The runs -/

/-- The calls are where they should be, and what a file has delivered is what its position says. -/
structure Reading (b : List Byte) (s : State φ) : Prop where
  calls : ∀ f length pc, s.pc f = some (length, pc) → pc.Fits b (s.fPos f)
  got : ∀ f got, s.got f = some got → got = if s.fPos f = 0 then [] else b

section Run

variable {b : List Byte} {s t : State φ} {act : Act φ}

omit [DecidableEq φ] in
theorem reading_init (g : Globals) (fPos : φ → ℕ) : Reading b (State.init g fPos) where
  calls := nofun
  got := nofun

/-- One file is at another place. -/
theorem Reading.move {f : φ} {fPos : ℕ} {pc : Option (ℕ × ReadPc)} {got : Option (List Byte)}
    (hs : Reading b s) (hfPos : t.fPos = Function.update s.fPos f fPos)
    (hpc : t.pc = Function.update s.pc f pc) (hgot : t.got = Function.update s.got f got)
    (hcall : ∀ length part, pc = some (length, part) → part.Fits b fPos)
    (hbytes : ∀ bytes, got = some bytes → bytes = if fPos = 0 then [] else b) : Reading b t where
  calls f' length part := by
    rw [hpc, hfPos]
    by_cases hf : f' = f
    · rw [hf, Function.update_self, Function.update_self]
      exact hcall length part
    · rw [Function.update_of_ne hf, Function.update_of_ne hf]
      exact hs.calls f' length part
  got f' bytes := by
    rw [hgot, hfPos]
    by_cases hf : f' = f
    · rw [hf, Function.update_self, Function.update_self]
      exact hbytes bytes
    · rw [Function.update_of_ne hf, Function.update_of_ne hf]
      exact hs.got f' bytes

/-- **Return.** -/
theorem Reading.ret {f : φ} {length : ℕ} {result : Except Errno ℕ} {offset : ℕ} {bytes : List Byte}
    (hs : Reading b s) (hk : Kept b s) (hpc : s.pc f = some (length, .done result offset bytes)) :
    Reading b (s.ret f (.done result offset bytes)) ∧ Kept b (s.ret f (.done result offset bytes)) := by
  have hfits := hs.calls f length _ hpc
  have hgot := hs.got f
  cases result with
  | error e =>
      refine ⟨hs.move (Function.update_eq_self f s.fPos).symm rfl
        (Function.update_eq_self f s.got).symm nofun hgot, hk.content, hk.rounds⟩
  | ok n =>
      cases n with
      | zero =>
          obtain ⟨-, hempty⟩ := hfits
          refine ⟨hs.move rfl rfl rfl nofun nofun, hk.content, fun round hround => ?_⟩
          rcases List.mem_append.mp hround with hold | hnew
          · exact hk.rounds round hold
          · obtain ⟨got, hsome, rfl⟩ := Option.map_eq_some_iff.mp (Option.mem_toList.mp hnew)
            have hdue := hgot got hsome
            split at hdue
            · rename_i hpos
              rw [hdue, hempty hpos]
            · exact hdue
      | succ n =>
          obtain ⟨hpos, rfl, rfl⟩ := hfits
          refine ⟨hs.move rfl rfl rfl nofun fun all hall => ?_, hk.content, hk.rounds⟩
          obtain ⟨got, hsome, rfl⟩ := Option.map_eq_some_iff.mp hall
          have hdue := hgot got hsome
          rw [if_pos hpos] at hdue
          rw [hdue, List.nil_append]
          split
          · rename_i hnil
            exact List.length_eq_zero_iff.mp hnil
          · rfl

/-- **Step.** -/
theorem Reading.step (hs : Reading b s) (hk : Kept b s) (hC : LongEnough s act)
    (h : readsStep s act = some t) : Reading b t ∧ Kept b t := by
  cases act with
  | read f length =>
      simp only [readsStep] at h
      split at h
      · obtain rfl := Option.some.inj h
        refine ⟨hs.move (Function.update_eq_self f s.fPos).symm rfl rfl ?_ ?_, hk.content, hk.rounds⟩
        · intro length' part hpart
          obtain ⟨-, rfl⟩ := Prod.mk.inj (Option.some.inj hpart)
          trivial
        · intro bytes hbytes
          split at hbytes
          · cases hbytes
          · split at hbytes
            · rename_i hpos
              obtain rfl := Option.some.inj hbytes
              rw [if_pos hpos]
            · exact hs.got f bytes hbytes
      · cases h
  | step f faults =>
      simp only [readsStep] at h
      split at h
      · cases h
      · rename_i length pc hpc
        split at h
        · rename_i g pc' hread
          obtain rfl := Option.some.inj h
          have hlong : ∀ size, pc = .store size → s.globals.procfsBufferSize ≤ length := by
            rintro size rfl
            exact hC length size hpc
          obtain ⟨hg, hfits⟩ := (hs.calls f length pc hpc).step hk.content hlong hread
          refine ⟨hs.move (Function.update_eq_self f s.fPos).symm rfl
            (Function.update_eq_self f s.got).symm ?_ (hs.got f), hg, hk.rounds⟩
          intro length' part hpart
          obtain ⟨-, rfl⟩ := Prod.mk.inj (Option.some.inj hpart)
          exact hfits
        · rename_i hread
          obtain rfl := Option.some.inj h
          obtain ⟨result, offset, bytes, rfl⟩ := readStep_eq_none hread
          exact hs.ret hk hpc

/-- A call that has stored the size without cutting it down asks for enough. -/
theorem longEnough_of_kept (hs : Reading b s) (hk : Kept b s) (h : readsStep s act = some t)
    (ht : Kept b t) : LongEnough s act := by
  cases act with
  | read f length => trivial
  | step f faults =>
      intro length size hpc
      obtain ⟨-, -, hsize⟩ := hs.calls f length _ hpc
      simp only [readsStep, hpc, readStep] at h
      obtain rfl := Option.some.inj h
      exact (content_min_iff hk.content hsize).mp ht.content

end Run

/-- **Reads.**  For every stored content and every position of the files, whatever calls are made on
them, in whatever order their steps come: the content stays as it is, and each file delivers all of
it in each round, if and only if each call that stores the size asks for at least as much. -/
theorem kept_iff (g : Globals) (fPos : φ → ℕ) (acts : List (Act φ)) :
    Throughout readsStep (Kept g.content) (State.init g fPos) acts ↔
      Along readsStep LongEnough (State.init g fPos) acts := by
  refine throughout_iff_along (I := Reading g.content) ?_ ?_ ?_ (reading_init g fPos) ⟨rfl, nofun⟩
  · intro s act hnone
    cases act with
    | read f length => trivial
    | step f faults =>
        intro length size hpc
        simp only [readsStep, hpc, readStep] at hnone
        cases hnone
  · intro s act t hs hk hC h
    exact (hs.step hk hC h).1
  · intro s act t hs hk h
    constructor
    · intro hC
      exact (hs.step hk hC h).2
    · exact longEnough_of_kept hs hk h

/-- A read of one byte, where two are stored. -/
theorem not_kept : ¬∀ (g : Globals) (acts : List (Act Unit)),
    Throughout readsStep (Kept g.content) (State.init g fun _ => 0) acts := by
  intro hall
  have hrun := hall ⟨fun _ => 0x61, 2⟩
    [.read () 1, .step () false, .step () false, .step () false]
  have hsize := congrArg List.length (hrun.last rfl).content
  exact absurd hsize (by decide)

end Lkmpg.Procfs3
