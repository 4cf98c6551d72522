import Lkmpg.Lib.Transition

/-!
# Data under a sequence count

A writer that stores its data word by word adds one to a sequence before it begins and one after it
has finished, so the sequence is odd while the data is between two contents.  A reader waits for an
even sequence, loads the words one after another and starts again if the sequence is not what it was.
There is one writer at a time and any number of readers.

The sequence has 32 bits.  A reader that is not overtaken by `2 ^ 31` updates between its two looks at
the sequence returns the words of one content, that after the updates so far.
-/

namespace SeqCount

open Transition

variable {δ υ ι β ρ : Type*}

/-- Data with its stores and loads: what an update stores into a content, one store at a time, and the
words that a reader loads, in their order. -/
structure Protected (δ υ ι β : Type*) where
  init : δ
  stores : υ → δ → List (δ → δ)
  load : δ → ι → β
  order : List ι

/-- Stores one after another. -/
def storeAll (fs : List (δ → δ)) (d : δ) : δ := fs.foldl (fun d f => f d) d

theorem storeAll_append (fs gs : List (δ → δ)) (d : δ) :
    storeAll (fs ++ gs) d = storeAll gs (storeAll fs d) := by
  simp [storeAll]

def Protected.update (p : Protected δ υ ι β) (d : δ) (u : υ) : δ := storeAll (p.stores u d) d

/-- The content after complete updates. -/
def Protected.content (p : Protected δ υ ι β) (us : List υ) : δ := us.foldl p.update p.init

/-- All words of a content. -/
def Protected.words (p : Protected δ υ ι β) (d : δ) : List β := p.order.map (p.load d)

/-- Where a reader is.  `before` counts the updates that had begun when it read `start`; the program
does not look at it. -/
inductive Reader (ι β : Type*)
  | outside
  | waiting
  | loading (start : BitVec 32) (before : ℕ) (todo : List ι) (got : List β)

/-- `pending` has the stores that are left to the update that is going on, the last of `begun`. -/
structure State (δ υ ι β ρ : Type*) where
  data : δ
  sequence : BitVec 32
  pending : Option (List (δ → δ))
  begun : List υ
  reader : ρ → Reader ι β

inductive Label (υ ρ : Type*)
  | beginUpdate (u : υ)
  | store
  | endUpdate
  | call (r : ρ)
  | fetchBegin (r : ρ)
  | load (r : ρ)
  | fetchRetry (r : ρ)

/-- Nothing has been written and nobody reads. -/
def Protected.start (p : Protected δ υ ι β) : State δ υ ι β ρ :=
  ⟨p.init, 0, none, [], fun _ => .outside⟩

variable [DecidableEq ρ]

def State.setReader (s : State δ υ ι β ρ) (r : ρ) (a : Reader ι β) : State δ υ ι β ρ :=
  { s with reader := Function.update s.reader r a }

/-- A writer begins only where no other is.  `fetchBegin` waits until the sequence is even. -/
def step (p : Protected δ υ ι β) (s : State δ υ ι β ρ) : Label υ ρ → Option (State δ υ ι β ρ)
  | .beginUpdate u =>
      match s.pending with
      | none => some { s with
          sequence := s.sequence + 1, pending := some (p.stores u s.data), begun := s.begun ++ [u] }
      | some _ => none
  | .store =>
      match s.pending with
      | some (f :: fs) => some { s with data := f s.data, pending := some fs }
      | _ => none
  | .endUpdate =>
      match s.pending with
      | some [] => some { s with sequence := s.sequence + 1, pending := none }
      | _ => none
  | .call r =>
      match s.reader r with
      | .outside => some (s.setReader r .waiting)
      | _ => none
  | .fetchBegin r =>
      match s.reader r with
      | .waiting =>
          if s.sequence.toNat % 2 = 0 then
            some (s.setReader r (.loading s.sequence s.begun.length p.order []))
          else none
      | _ => none
  | .load r =>
      match s.reader r with
      | .loading start before (i :: todo) got =>
          some (s.setReader r (.loading start before todo (got ++ [p.load s.data i])))
      | _ => none
  | .fetchRetry r =>
      match s.reader r with
      | .loading start _ [] _ =>
          some (s.setReader r (if s.sequence = start then .outside else .waiting))
      | _ => none

/-- What a reader returns with if it does not have to start again. -/
def returns (s : State δ υ ι β ρ) (r : ρ) : Option (List β) :=
  match s.reader r with
  | .loading start _ [] got => if s.sequence = start then some got else none
  | _ => none

/-- The updates that had begun when a reader looked at the sequence. -/
def Reader.before : Reader ι β → Option ℕ
  | .loading _ before _ _ => some before
  | _ => none

/-- The reader that looks at the sequence again. -/
def Label.retrying : Label υ ρ → Option ρ
  | .fetchRetry r => some r
  | _ => none

/-- Where a reader looks at the sequence again, fewer than `2 ^ 31` updates have begun since it has
looked first. -/
def NotOvertaken (s : State δ υ ι β ρ) (l : Label υ ρ) : Prop :=
  ∀ r ∈ l.retrying, ∀ before ∈ (s.reader r).before, s.begun.length < before + 2 ^ 31

instance (s : State δ υ ι β ρ) (l : Label υ ρ) : Decidable (NotOvertaken s l) :=
  inferInstanceAs (Decidable (∀ r ∈ l.retrying, ∀ before ∈ (s.reader r).before, _ < _))

/-! ### What each step can do -/

section Steps

variable {p : Protected δ υ ι β} {s t : State δ υ ι β ρ} {u : υ} {r : ρ}

omit [DecidableEq ρ] in
theorem returns_eq_some {got : List β} (h : returns s r = some got) :
    ∃ start before, s.reader r = .loading start before [] got ∧ s.sequence = start := by
  rw [returns] at h
  split at h
  · rename_i start before got' hreader
    obtain ⟨hseq, hgot⟩ := Option.ite_none_right_eq_some.mp h
    exact ⟨start, before, hreader.trans (by rw [Option.some.inj hgot]), hseq⟩
  · cases h

theorem step_beginUpdate (h : step p s (.beginUpdate u) = some t) :
    s.pending = none ∧ t = { s with
      sequence := s.sequence + 1, pending := some (p.stores u s.data), begun := s.begun ++ [u] } := by
  simp only [step] at h
  split at h
  · rename_i hpending
    exact ⟨hpending, (Option.some.inj h).symm⟩
  · cases h

theorem step_store (h : step p s .store = some t) :
    ∃ f fs, s.pending = some (f :: fs) ∧ t = { s with data := f s.data, pending := some fs } := by
  simp only [step] at h
  split at h
  · rename_i f fs hpending
    exact ⟨f, fs, hpending, (Option.some.inj h).symm⟩
  · cases h

theorem step_endUpdate (h : step p s .endUpdate = some t) :
    s.pending = some [] ∧ t = { s with sequence := s.sequence + 1, pending := none } := by
  simp only [step] at h
  split at h
  · rename_i hpending
    exact ⟨hpending, (Option.some.inj h).symm⟩
  · cases h

theorem step_call (h : step p s (.call r) = some t) : t = s.setReader r .waiting := by
  simp only [step] at h
  split at h
  · exact (Option.some.inj h).symm
  · cases h

theorem step_fetchBegin (h : step p s (.fetchBegin r) = some t) :
    s.sequence.toNat % 2 = 0 ∧
      t = s.setReader r (.loading s.sequence s.begun.length p.order []) := by
  simp only [step] at h
  split at h
  · obtain ⟨heven, ht⟩ := Option.ite_none_right_eq_some.mp h
    exact ⟨heven, (Option.some.inj ht).symm⟩
  · cases h

theorem step_load (h : step p s (.load r) = some t) :
    ∃ start before i todo got, s.reader r = .loading start before (i :: todo) got ∧
      t = s.setReader r (.loading start before todo (got ++ [p.load s.data i])) := by
  simp only [step] at h
  split at h
  · rename_i start before i todo got hreader
    exact ⟨start, before, i, todo, got, hreader, (Option.some.inj h).symm⟩
  · cases h

theorem step_fetchRetry (h : step p s (.fetchRetry r) = some t) :
    ∃ a, (a = .outside ∨ a = .waiting) ∧ t = s.setReader r a := by
  simp only [step] at h
  split at h
  · refine ⟨_, ?_, (Option.some.inj h).symm⟩
    split
    · exact Or.inl rfl
    · exact Or.inr rfl
  · cases h

end Steps

/-! ### The invariant -/

/-- How often the sequence has been increased. -/
def State.increments (s : State δ υ ι β ρ) : ℕ :=
  match s.pending with
  | none => 2 * s.begun.length
  | some _ => 2 * s.begun.length - 1

/-- A reader that has begun when `before` updates had been made.  As long as these are all, none is
going on and what the reader has loaded are words of the content. -/
structure Attempt (p : Protected δ υ ι β) (s : State δ υ ι β ρ) (start : BitVec 32) (before : ℕ)
    (todo : List ι) (got : List β) : Prop where
  le : before ≤ s.begun.length
  start_eq : start = BitVec.ofNat 32 (2 * before)
  undisturbed : s.begun.length = before →
    s.pending = none ∧ got ++ todo.map (p.load s.data) = p.words s.data

structure Inv (p : Protected δ υ ι β) (s : State δ υ ι β ρ) : Prop where
  sequence : s.sequence = BitVec.ofNat 32 s.increments
  /-- An update that is going on has begun. -/
  begun : ∀ fs, s.pending = some fs → 0 < s.begun.length
  /-- The stores that are left lead to the content after all updates that have begun. -/
  data : storeAll (s.pending.getD []) s.data = p.content s.begun
  attempt : ∀ r start before todo got, s.reader r = .loading start before todo got →
    Attempt p s start before todo got

section Invariant

variable {p : Protected δ υ ι β} {s t : State δ υ ι β ρ} {u : υ} {r : ρ} {start : BitVec 32}
  {before : ℕ} {todo : List ι} {got : List β}

omit [DecidableEq ρ] in
theorem increments_of_none (h : s.pending = none) : s.increments = 2 * s.begun.length := by
  simp [State.increments, h]

omit [DecidableEq ρ] in
theorem increments_of_some {fs : List (δ → δ)} (h : s.pending = some fs) :
    s.increments = 2 * s.begun.length - 1 := by
  simp [State.increments, h]

omit [DecidableEq ρ] in
theorem Protected.content_concat (us : List υ) :
    p.content (us ++ [u]) = p.update (p.content us) u := by
  simp [Protected.content]

omit [DecidableEq ρ] in
theorem Inv.data_eq (h : Inv p s) (hpending : s.pending = none) : s.data = p.content s.begun := by
  have hdata := h.data
  rw [hpending] at hdata
  exact hdata

omit [DecidableEq ρ] in
theorem inv_start : Inv p (p.start : State δ υ ι β ρ) where
  sequence := rfl
  begun := by
    intro fs h
    cases h
  data := rfl
  attempt := by
    intro r start before todo got h
    cases h

omit [DecidableEq ρ] in
/-- An attempt is not concerned by a step after which more updates have begun. -/
theorem Attempt.overtaken (h : Attempt p s start before todo got)
    (hlt : s.begun.length < t.begun.length) : Attempt p t start before todo got where
  le := Nat.le_of_lt (Nat.lt_of_le_of_lt h.le hlt)
  start_eq := h.start_eq
  undisturbed := by
    intro heq
    have hle := h.le
    omega

omit [DecidableEq ρ] in
/-- While an update is going on, every attempt has been overtaken, and stays so. -/
theorem Attempt.while {fs : List (δ → δ)} (h : Attempt p s start before todo got)
    (hpending : s.pending = some fs) (hbegun : t.begun = s.begun) :
    Attempt p t start before todo got where
  le := hbegun ▸ h.le
  start_eq := h.start_eq
  undisturbed := by
    intro heq
    rw [hbegun] at heq
    have hnone := (h.undisturbed heq).1
    rw [hpending] at hnone
    cases hnone

theorem Inv.beginUpdate (h : Inv p s) (hstep : step p s (.beginUpdate u) = some t) : Inv p t := by
  obtain ⟨hpending, rfl⟩ := step_beginUpdate hstep
  refine ⟨?_, ?_, ?_, ?_⟩
  · rw [h.sequence, increments_of_none hpending, increments_of_some rfl, List.length_append,
      List.length_singleton]
    apply BitVec.eq_of_toNat_eq
    simp
    omega
  · intro fs _
    simp
  · rw [Protected.content_concat, ← h.data_eq hpending]
    rfl
  · intro r start before todo got hreader
    apply (h.attempt r start before todo got hreader).overtaken
    simp

theorem Inv.store (h : Inv p s) (hstep : step p s .store = some t) : Inv p t := by
  obtain ⟨f, fs, hpending, rfl⟩ := step_store hstep
  refine ⟨?_, ?_, ?_, ?_⟩
  · rw [h.sequence, increments_of_some hpending, increments_of_some rfl]
  · intro gs _
    exact h.begun _ hpending
  · have hdata := h.data
    rw [hpending] at hdata
    exact hdata
  · intro r start before todo got hreader
    exact (h.attempt r start before todo got hreader).while hpending rfl

theorem Inv.endUpdate (h : Inv p s) (hstep : step p s .endUpdate = some t) : Inv p t := by
  obtain ⟨hpending, rfl⟩ := step_endUpdate hstep
  have hpos := h.begun _ hpending
  refine ⟨?_, ?_, ?_, ?_⟩
  · rw [h.sequence, increments_of_some hpending, increments_of_none rfl]
    apply BitVec.eq_of_toNat_eq
    simp
    omega
  · intro fs hfs
    cases hfs
  · have hdata := h.data
    rw [hpending] at hdata
    exact hdata
  · intro r start before todo got hreader
    exact (h.attempt r start before todo got hreader).while hpending rfl

@[simp] theorem setReader_self (a : Reader ι β) : (s.setReader r a).reader r = a := by
  simp [State.setReader]

theorem setReader_of_ne {q : ρ} (hq : q ≠ r) (a : Reader ι β) :
    (s.setReader r a).reader q = s.reader q := by
  simp [State.setReader, hq]

/-- A step of a reader leaves the data, the sequence and the other readers alone. -/
theorem Inv.setReader (h : Inv p s) {a : Reader ι β}
    (ha : ∀ start before todo got, a = .loading start before todo got →
      Attempt p s start before todo got) : Inv p (s.setReader r a) where
  sequence := h.sequence
  begun := h.begun
  data := h.data
  attempt := by
    intro q start before todo got hreader
    by_cases hq : q = r
    · subst hq
      rw [setReader_self] at hreader
      have hself := ha start before todo got hreader
      exact ⟨hself.le, hself.start_eq, hself.undisturbed⟩
    · rw [setReader_of_ne hq] at hreader
      have hother := h.attempt q start before todo got hreader
      exact ⟨hother.le, hother.start_eq, hother.undisturbed⟩

omit [DecidableEq ρ] in
/-- An even sequence means that no update is going on. -/
theorem Inv.pending_of_even (h : Inv p s) (heven : s.sequence.toNat % 2 = 0) : s.pending = none := by
  cases hpending : s.pending with
  | none => rfl
  | some fs =>
      have hpos := h.begun fs hpending
      rw [h.sequence, increments_of_some hpending, BitVec.toNat_ofNat] at heven
      omega

theorem Inv.fetchBegin (h : Inv p s) (hstep : step p s (.fetchBegin r) = some t) : Inv p t := by
  obtain ⟨heven, rfl⟩ := step_fetchBegin hstep
  have hpending := h.pending_of_even heven
  apply h.setReader
  intro start before todo got ha
  obtain ⟨rfl, rfl, rfl, rfl⟩ := Reader.loading.inj ha
  refine ⟨Nat.le_refl _, ?_, fun _ => ⟨hpending, rfl⟩⟩
  rw [h.sequence, increments_of_none hpending]

theorem Inv.load (h : Inv p s) (hstep : step p s (.load r) = some t) : Inv p t := by
  obtain ⟨start, before, i, todo, got, hreader, rfl⟩ := step_load hstep
  have hattempt := h.attempt r start before (i :: todo) got hreader
  apply h.setReader
  intro start' before' todo' got' ha
  obtain ⟨rfl, rfl, rfl, rfl⟩ := Reader.loading.inj ha
  refine ⟨hattempt.le, hattempt.start_eq, fun heq => ?_⟩
  obtain ⟨hpending, hgot⟩ := hattempt.undisturbed heq
  refine ⟨hpending, ?_⟩
  rw [List.append_assoc]
  exact hgot

/-- **Step.** -/
theorem Inv.step {l : Label υ ρ} (h : Inv p s) (hstep : step p s l = some t) : Inv p t := by
  cases l with
  | beginUpdate u => exact h.beginUpdate hstep
  | store => exact h.store hstep
  | endUpdate => exact h.endUpdate hstep
  | call r =>
      rw [step_call hstep]
      apply h.setReader
      intro start before todo got ha
      cases ha
  | fetchBegin r => exact h.fetchBegin hstep
  | load r => exact h.load hstep
  | fetchRetry r =>
      obtain ⟨a, ha, rfl⟩ := step_fetchRetry hstep
      apply h.setReader
      intro start before todo got hloading
      rcases ha with rfl | rfl <;> cases hloading

omit [DecidableEq ρ] in
/-- The sequence can be the same only if no update has begun. -/
theorem Attempt.begun_of_sequence (h : Inv p s) (ha : Attempt p s start before todo got)
    (hlt : s.begun.length < before + 2 ^ 31) (hseq : s.sequence = start) :
    s.begun.length = before := by
  have hle := ha.le
  rw [h.sequence, ha.start_eq, ← BitVec.toNat_inj, BitVec.toNat_ofNat, BitVec.toNat_ofNat] at hseq
  cases hpending : s.pending with
  | none =>
      rw [increments_of_none hpending] at hseq
      omega
  | some fs =>
      have hpos := h.begun fs hpending
      rw [increments_of_some hpending] at hseq
      omega

omit [DecidableEq ρ] in
/-- What a reader returns are the words of the content after all updates, none of which is going on. -/
theorem Inv.returns (h : Inv p s) (hnot : NotOvertaken s (.fetchRetry r : Label υ ρ))
    (hreturns : returns s r = some got) :
    s.pending = none ∧ got = p.words (p.content s.begun) := by
  obtain ⟨start, before, hreader, hseq⟩ := returns_eq_some hreturns
  have ha := h.attempt r start before [] got hreader
  have hlt : s.begun.length < before + 2 ^ 31 :=
    hnot r rfl before (congrArg Reader.before hreader)
  have heq := ha.begun_of_sequence h hlt hseq
  obtain ⟨hpending, hgot⟩ := ha.undisturbed heq
  refine ⟨hpending, ?_⟩
  rw [← h.data_eq hpending, ← hgot]
  simp

end Invariant

/-- **Run.**  Every reader that returns without having been overtaken returns the words of the content
at that instant, which is the content after complete updates. -/
theorem returns_content (p : Protected δ υ ι β) (ls : List (Label υ ρ)) :
    Along (step p) (fun s l => NotOvertaken s l → ∀ r got, l = .fetchRetry r →
      returns s r = some got → s.pending = none ∧ got = p.words (p.content s.begun)) p.start ls := by
  refine along_of_invariant' (fun s l t h hstep => h.step hstep) (fun s l h hnot r got hl => ?_)
    inv_start
  rw [hl] at hnot
  exact h.returns hnot

end SeqCount
