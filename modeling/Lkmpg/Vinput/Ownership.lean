import Lkmpg.Vinput.Concurrent
import Lkmpg.Vinput.Listed

/-!
# Who owns a vdevice

Between two steps a vdevice is either held by exactly one running call, which builds it or tears it
down, or it is listed and fully constructed.  `Pc.holds` is the vdevice a call holds, `Stage` the
stages a vdevice goes through, and `PcOk` the stage at each program counter.

A `vinput_unregister_vdevice` takes a vdevice over without asking whether another call holds it.
`Clean` says that none does; `Base`, the invariant, is kept by every step that is `Clean`.
-/

namespace Lkmpg.VinputDriver

open Registry Transition

variable {δ ι : Type}

/-- The vdevice that a call builds or tears down.  At `teardownInput` a vdevice is about to be
taken over but not yet held. -/
def Pc.holds : Pc δ → Option Ptr
  | .exportId _ p => some p
  | .exportInput _ p => some p
  | .exportUnlist _ p => some p
  | .exportType _ p => some p
  | .exportRegister _ p => some p
  | .exportInit _ p => some p
  | .exportFreeInput _ p _ => some p
  | .exportUnregister _ p => some p
  | .teardownDevice p _ => some p
  | .destroy p _ => some p
  | .kfree p _ => some p
  | _ => none

theorem After.holds_pc (k : After δ) : k.pc.holds = none := by
  rcases k with d | (_ | ⟨d, n⟩) <;> rfl

/-- A stage in the life of a vdevice: whether it is listed, its fields, and whether
`vinput_unregister_vdevice` has run on it. -/
structure Stage (δ : Type) where
  listed : Bool
  input : Option InputDev
  type : Option δ
  dev : Bool
  torn : Bool

/-- Fully constructed, and not torn down. -/
def Stage.whole (d : δ) : Stage δ := ⟨true, some .registered, some d, true, false⟩

def AtStage (r : Registry δ) (torn : List Ptr) (p : Ptr) (s : Stage δ) : Prop :=
  (∃ v, r.heap p = some v ∧ v.input = s.input ∧ v.type = s.type ∧ v.devRegistered = s.dev) ∧
    (p ∈ r.vinputVdevices ↔ s.listed = true) ∧ (p ∈ torn ↔ s.torn = true)

def Whole (r : Registry δ) (torn : List Ptr) (p : Ptr) : Prop :=
  ∃ d, AtStage r torn p (Stage.whole d)

/-- The type of a vdevice whose export fails. -/
def After.Fits : After δ → δ → Prop
  | .exportFailed d, t => t = d
  | _, _ => True

/-- The stages at which a call may hold its vdevice. -/
def Pc.Allows : Pc δ → Stage δ → Prop
  | .exportId _ _, s => s = ⟨false, none, none, false, false⟩
  | .exportInput _ _, s => s = ⟨true, none, none, false, false⟩
  | .exportUnlist _ _, s => s = ⟨true, none, none, false, false⟩
  | .exportType _ _, s => s = ⟨true, some .allocated, none, false, false⟩
  | .exportRegister d _, s => s = ⟨true, some .allocated, some d, false, false⟩
  | .exportInit d _, s => s = ⟨true, some .allocated, some d, true, false⟩
  | .exportFreeInput d _ b, s => s = ⟨true, some .allocated, some d, b, false⟩
  | .exportUnregister d _, s => s = ⟨true, some .released, some d, true, false⟩
  | .teardownDevice _ _, s => ∃ t, s = ⟨true, some .released, some t, true, true⟩
  | .destroy _ k, s => ∃ t b, k.Fits t ∧ s = ⟨true, some .released, some t, false, b⟩
  | .kfree _ _, s => s.input ≠ some .registered ∧ s.listed = false
  | _, _ => False

def PcOk (r : Registry δ) (torn : List Ptr) (pc : Pc δ) : Prop :=
  ∀ p, pc.holds = some p → ∃ s, pc.Allows s ∧ AtStage r torn p s

structure Base (w : World δ ι) : Prop where
  listed : Listed w.registry
  pcOk : ∀ x, PcOk w.registry w.torn (w.pc x)
  excl : ∀ x y p, (w.pc x).holds = some p → (w.pc y).holds = some p → x = y
  /-- what no call holds is fully constructed -/
  free : ∀ p, w.registry.heap p ≠ none → (∀ x, (w.pc x).holds ≠ some p) →
    Whole w.registry w.torn p
  tornOld : ∀ p ∈ w.torn, p < w.registry.brk
  tornOnce : w.torn.Nodup

/-! ### Stages -/

section Stages

variable {r r' : Registry δ} {torn torn' : List Ptr} {p : Ptr} {s : Stage δ}

theorem AtStage.heap_ne_none (h : AtStage r torn p s) : r.heap p ≠ none := by
  obtain ⟨⟨v, hv, _⟩, _⟩ := h
  rw [hv]
  exact Option.some_ne_none v

theorem AtStage.typeOf (h : AtStage r torn p s) : r.typeOf p = s.type := by
  obtain ⟨⟨v, hv, _, ht, _⟩, _⟩ := h
  rw [Registry.typeOf, hv]
  exact ht

theorem AtStage.listed (h : AtStage r torn p s) (hs : s.listed = true := by rfl) :
    p ∈ r.vinputVdevices := h.2.1.mpr hs

theorem AtStage.not_listed (h : AtStage r torn p s) (hs : s.listed = false := by rfl) :
    p ∉ r.vinputVdevices := by
  intro hp
  rw [h.2.1.mp hp] at hs
  cases hs

/-- A vdevice is at one stage. -/
theorem AtStage.unique {s' : Stage δ} (h : AtStage r torn p s) (h' : AtStage r torn p s') :
    s = s' := by
  obtain ⟨l, i, t, b, g⟩ := s
  obtain ⟨l', i', t', b', g'⟩ := s'
  obtain ⟨⟨v, hv, rfl, rfl, rfl⟩, hl, hg⟩ := h
  obtain ⟨⟨v', hv', rfl, rfl, rfl⟩, hl', hg'⟩ := h'
  obtain rfl : v = v' := Option.some.inj (hv.symm.trans hv')
  obtain rfl : l = l' := Bool.eq_iff_iff.mpr (hl.symm.trans hl')
  obtain rfl : g = g' := Bool.eq_iff_iff.mpr (hg.symm.trans hg')
  rfl

theorem AtStage.congr (hheap : r'.heap p = r.heap p)
    (hlist : p ∈ r'.vinputVdevices ↔ p ∈ r.vinputVdevices) (htorn : p ∈ torn' ↔ p ∈ torn)
    (h : AtStage r torn p s) : AtStage r' torn' p s := by
  rw [AtStage, hheap, hlist, htorn]
  exact h

theorem AtStage.setInput (h : AtStage r torn p s) (x : InputDev) :
    AtStage (r.setInput p x) torn p { s with input := some x } := by
  obtain ⟨⟨v, hv, _, ht, hb⟩, hrest⟩ := h
  refine ⟨⟨{ v with input := some x }, ?_, rfl, ht, hb⟩, hrest⟩
  rw [Registry.setInput, heap_modify_self, hv]
  rfl

theorem AtStage.setType (h : AtStage r torn p s) (d : δ) :
    AtStage (r.setType p d) torn p { s with type := some d } := by
  obtain ⟨⟨v, hv, hi, _, hb⟩, hrest⟩ := h
  refine ⟨⟨{ v with type := some d }, ?_, hi, rfl, hb⟩, hrest⟩
  rw [Registry.setType, heap_modify_self, hv]
  rfl

theorem AtStage.setDev (h : AtStage r torn p s) (b : Bool) :
    AtStage (r.setDev p b) torn p { s with dev := b } := by
  obtain ⟨⟨v, hv, hi, ht, _⟩, hrest⟩ := h
  refine ⟨⟨{ v with devRegistered := b }, ?_, hi, ht, rfl⟩, hrest⟩
  rw [Registry.setDev, heap_modify_self, hv]
  rfl

theorem AtStage.link (h : AtStage r torn p s) (id : ℕ) :
    AtStage (r.link p id) torn p { s with listed := true } := by
  obtain ⟨⟨v, hv, hi, ht, hb⟩, _, hg⟩ := h
  refine ⟨⟨{ v with id := id }, ?_, hi, ht, hb⟩, ?_, hg⟩
  · rw [heap_link_self, hv]
    rfl
  · exact ⟨fun _ => rfl, fun _ => List.mem_cons_self⟩

theorem AtStage.listDel (hr : Listed r) (h : AtStage r torn p s) :
    AtStage (r.listDel p) torn p { s with listed := false } :=
  ⟨h.1, ⟨fun hp => absurd rfl (hr.mem_listDel.mp hp).1, fun hp => absurd hp Bool.false_ne_true⟩, h.2.2⟩

theorem AtStage.unlink (hr : Listed r) (h : AtStage r torn p s) :
    AtStage (r.unlink p) torn p { s with listed := false } := h.listDel hr

/-- `kzalloc` returns a vdevice at the first stage. -/
theorem AtStage.kzalloc (hr : Listed r) (htorn : ∀ q ∈ torn, q < r.brk) :
    AtStage r.kzalloc torn r.brk ⟨false, none, none, false, false⟩ := by
  refine ⟨⟨⟨0, 0, none, none, false⟩, Function.update_self _ _ _, rfl, rfl, rfl⟩, ?_, ?_⟩
  · exact ⟨fun hp => absurd rfl (hr.ne_brk hp), fun hp => absurd hp Bool.false_ne_true⟩
  · exact ⟨fun hp => absurd (htorn _ hp) (lt_irrefl r.brk), fun hp => absurd hp Bool.false_ne_true⟩

/-- `vinput_unregister_vdevice` is recorded. -/
theorem AtStage.tear (h : AtStage r torn p s) :
    AtStage r ([p] ++ torn) p { s with torn := true } :=
  ⟨h.1, h.2.1, fun _ => rfl, fun _ => List.mem_cons_self⟩

/-- What a call requires of the vdevice it holds depends on nothing else. -/
theorem PcOk.congr {pc : Pc δ} (h : PcOk r torn pc)
    (hheap : ∀ p, pc.holds = some p → r'.heap p = r.heap p)
    (hlist : ∀ p, pc.holds = some p → (p ∈ r'.vinputVdevices ↔ p ∈ r.vinputVdevices))
    (htorn : ∀ p, pc.holds = some p → (p ∈ torn' ↔ p ∈ torn)) : PcOk r' torn' pc := by
  intro p hp
  obtain ⟨s, hs, hst⟩ := h p hp
  exact ⟨s, hs, hst.congr (hheap p hp) (hlist p hp) (htorn p hp)⟩

theorem PcOk.of_holds_none {pc : Pc δ} (h : pc.holds = none) : PcOk r torn pc := by
  intro p hp
  rw [h] at hp
  cases hp

theorem PcOk.heap_ne_none {pc : Pc δ} (h : PcOk r torn pc) (hp : pc.holds = some p) :
    r.heap p ≠ none := by
  obtain ⟨s, _, hst⟩ := h p hp
  exact hst.heap_ne_none

/-- A vdevice in the hands of a call is not whole. -/
theorem PcOk.not_whole {pc : Pc δ} (h : PcOk r torn pc) (hp : pc.holds = some p) :
    ¬Whole r torn p := by
  rintro ⟨d, hwhole⟩
  obtain ⟨s, hs, hst⟩ := h p hp
  obtain rfl := hst.unique hwhole
  cases pc <;> simp [Pc.Allows, Stage.whole] at hs

end Stages

/-! ### Frames -/

/-- `r'` differs from `r` at most in the vdevice `p`. -/
structure Frame (r : Registry δ) (p : Ptr) (r' : Registry δ) : Prop where
  heap : ∀ q, q ≠ p → r'.heap q = r.heap q
  list : ∀ q, q ≠ p → (q ∈ r'.vinputVdevices ↔ q ∈ r.vinputVdevices)
  brk : r.brk ≤ r'.brk

section Frames

variable {r : Registry δ} {p : Ptr}

theorem Frame.refl (r : Registry δ) (p : Ptr) : Frame r p r :=
  ⟨fun _ _ => rfl, fun _ _ => Iff.rfl, le_rfl⟩

theorem Frame.modify (r : Registry δ) (p : Ptr) (f : Vinput δ → Vinput δ) :
    Frame r p (r.modify p f) :=
  ⟨fun _ h => heap_modify_of_ne r h f, fun _ _ => Iff.rfl, le_rfl⟩

theorem Frame.kzalloc (r : Registry δ) : Frame r r.brk r.kzalloc :=
  ⟨fun _ h => heap_kzalloc_of_ne h, fun _ _ => Iff.rfl, Nat.le_succ r.brk⟩

theorem Frame.link (r : Registry δ) (p : Ptr) (id : ℕ) : Frame r p (r.link p id) :=
  ⟨fun _ h => heap_link_of_ne h, fun _ h => List.mem_cons.trans (or_iff_right h), le_rfl⟩

theorem Frame.listDel (hr : Listed r) (p : Ptr) : Frame r p (r.listDel p) :=
  ⟨fun _ _ => rfl, fun _ h => hr.mem_listDel.trans (and_iff_right h), le_rfl⟩

theorem Frame.unlink (hr : Listed r) (p : Ptr) : Frame r p (r.unlink p) :=
  ⟨fun _ _ => rfl, fun _ h => hr.mem_listDel.trans (and_iff_right h), le_rfl⟩

theorem Frame.kfree (r : Registry δ) (p : Ptr) : Frame r p (r.kfree p) :=
  ⟨fun _ h => heap_kfree_of_ne h, fun _ _ => Iff.rfl, le_rfl⟩

end Frames

end Lkmpg.VinputDriver
