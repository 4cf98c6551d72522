import Lkmpg.Vinput.Teardown

/-!
# No vdevice outlives its type

`vinput_unregister(dev)` takes the type out of `vinput_devices` and then walks `vinput_vdevices`
without the lock, to tear down the vdevices of that type.  `Orderly` is the condition under which
the walk does its work: no `export_store` that resolved the type is still running when the walk
starts, and nothing takes out of the list the nodes the cursor of a walk and its saved successor
point at.  In an orderly run of exports, registrations and unregistrations no vdevice outlives its
type (`no_vdevice_outlives_type`).

The invariant `Tracked` says where the vdevices of an unregistered type are: all of them lie ahead
of the cursor of the walk that has been started for the type.
-/

namespace Lkmpg.VinputDriver

open Registry Transition

variable {δ ι : Type}

/-! ### Program counters of exports and of walks -/

/-- The device that a running `export_store` resolved. -/
def Pc.exports : Pc δ → Option δ
  | .exportAlloc d => some d
  | .exportId d _ => some d
  | .exportInput d _ => some d
  | .exportUnlist d _ => some d
  | .exportType d _ => some d
  | .exportRegister d _ => some d
  | .exportInit d _ => some d
  | .exportFreeInput d _ _ => some d
  | .exportUnregister d _ => some d
  | .destroy _ (.exportFailed d) => some d
  | .kfree _ (.exportFailed d) => some d
  | _ => none

/-- The device that a running `vinput_unregister` has taken off its list. -/
def Pc.walks : Pc δ → Option δ
  | .walkHead d => some d
  | .walkNext d _ => some d
  | .walkTest d _ _ => some d
  | .teardownInput _ (.vinputUnregister d _) => some d
  | .teardownDevice _ (.vinputUnregister d _) => some d
  | .destroy _ (.tornDown (.vinputUnregister d _)) => some d
  | .kfree _ (.tornDown (.vinputUnregister d _)) => some d
  | _ => none

/-- The first node that the loop of a walk has not finished with. -/
def Pc.position : Pc δ → Option Ptr
  | .walkNext _ c => c
  | .walkTest _ p _ => some p
  | .teardownInput p (.vinputUnregister _ _) => some p
  | .teardownDevice p (.vinputUnregister _ _) => some p
  | .destroy p (.tornDown (.vinputUnregister _ _)) => some p
  | .kfree _ (.tornDown (.vinputUnregister _ n)) => n
  | _ => none

/-- The node in the body of the loop, with the `next` that was read from it. -/
def Pc.saved : Pc δ → Option (Ptr × Option Ptr)
  | .walkTest _ p n => some (p, n)
  | .teardownInput p (.vinputUnregister _ n) => some (p, n)
  | .teardownDevice p (.vinputUnregister _ n) => some (p, n)
  | .destroy p (.tornDown (.vinputUnregister _ n)) => some (p, n)
  | _ => none

/-- The node whose type a walk has compared, with that type. -/
def Pc.target : Pc δ → Option (Ptr × δ)
  | .teardownInput p (.vinputUnregister d _) => some (p, d)
  | .teardownDevice p (.vinputUnregister d _) => some (p, d)
  | .destroy p (.tornDown (.vinputUnregister d _)) => some (p, d)
  | _ => none

/-- The vdevice that the next step takes out of the list. -/
def Pc.unlinks : Pc δ → Option Ptr
  | .exportUnlist _ p => some p
  | .destroy p _ => some p
  | _ => none

/-- The cursor of a walk or its saved successor points at `p`. -/
def Pc.PointsAt (pc : Pc δ) (p : Ptr) : Prop :=
  pc.position = some p ∨ ∃ q, pc.saved = some (q, some p)

theorem Pc.position_of_saved {pc : Pc δ} {p : Ptr} {n : Option Ptr} (h : pc.saved = some (p, n)) :
    pc.position = some p := by
  revert h
  fun_cases Pc.saved pc <;> intro h <;> cases h <;> rfl

theorem Pc.position_of_target {pc : Pc δ} {p : Ptr} {d : δ} (h : pc.target = some (p, d)) :
    pc.position = some p := by
  revert h
  fun_cases Pc.target pc <;> intro h <;> cases h <;> rfl

/-- Tasks run `export_store` and clients `vinput_unregister`. -/
def RoleOk : Proc δ ι → Pc δ → Prop
  | .task _, pc => pc = .idle ∨ ∃ d, pc.exports = some d
  | .client d, pc => pc = .idle ∨ pc.walks = some d

/-! ### The conditions -/

/-- Not a call of `unexport_store`. -/
def Act.NoUnexport : Act δ ι → Prop
  | .unexportStore _ _ => False
  | _ => True

/-- A walk starts when no `export_store` that resolved its type is running, and a step takes out of
the list no vdevice that the walk of another call points at. -/
def Orderly (w : World δ ι) : Act δ ι → Prop
  | .step x _ _ =>
      (∀ d, w.pc x = .walkHead d → ∀ y, (w.pc y).exports ≠ some d) ∧
        ∀ p, (w.pc x).unlinks = some p → ∀ y, y ≠ x → ¬(w.pc y).PointsAt p
  | _ => True

/-- A type that is neither registered nor being unregistered has no vdevice in the list, and no
running `export_store` will add one; so the type of every fully exported vdevice is registered, or
its `vinput_unregister` is in progress. -/
def NoneOutlives (w : World δ ι) : Prop :=
  (∀ d, w.pc (.client d) = .idle → d ∉ w.registry.vinputDevices →
    (∀ p ∈ w.registry.vinputVdevices, w.registry.typeOf p ≠ some d) ∧
      ∀ x, (w.pc x).exports ≠ some d) ∧
  ∀ p, Unheld w p → ∃ d, w.registry.typeOf p = some d ∧
    (w.pc (.client d) = .idle → d ∈ w.registry.vinputDevices)

/-! ### What a step does to the list and to the types -/

inductive Effect (r : Registry δ) (pc : Pc δ) (r' : Registry δ) : Prop where
  | quiet (hlist : r'.vinputVdevices = r.vinputVdevices)
      (htype : ∀ q ∈ r.vinputVdevices, r'.typeOf q = r.typeOf q)
  | typed (d : δ) (p : Ptr) (hpc : pc = .exportType d p)
      (hlist : r'.vinputVdevices = r.vinputVdevices) (hold : r.typeOf p = none)
      (hnew : r'.typeOf p = some d) (htype : ∀ q, q ≠ p → r'.typeOf q = r.typeOf q)
  | linked (p : Ptr) (hp : p ∉ r.vinputVdevices)
      (hlist : r'.vinputVdevices = p :: r.vinputVdevices) (hnew : r'.typeOf p = none)
      (htype : ∀ q ∈ r.vinputVdevices, r'.typeOf q = r.typeOf q)
  | unlinked (p : Ptr) (hpc : pc.unlinks = some p) (hp : p ∈ r.vinputVdevices)
      (hlist : r'.vinputVdevices = r.vinputVdevices.erase p)
      (htype : ∀ q, r'.typeOf q = r.typeOf q)

section Step

variable [DecidableEq δ] {r r' : Registry δ} {pc pc' : Pc δ} {ok : Bool} {junk : Option Ptr}

theorem vinputDevices_pcStep (h : pcStep r ok junk pc = some (r', pc')) :
    r'.vinputDevices = r.vinputDevices := by
  cases pc with
  | idle => cases h
  | exportId d p =>
      simp only [pcStep] at h
      split at h
      · cases h; rfl
      · rename_i halloc
        cases h
        rw [(allocId_ok halloc).2]
        rfl
  | walkNext d c => cases c <;> cases h <;> rfl
  | exportAlloc d => simp only [pcStep] at h; split at h <;> cases h <;> rfl
  | exportInput d p => simp only [pcStep] at h; split at h <;> cases h <;> rfl
  | exportRegister d p => simp only [pcStep] at h; split at h <;> cases h <;> rfl
  | exportInit d p => simp only [pcStep] at h; split at h <;> cases h <;> rfl
  | walkTest d p n => simp only [pcStep] at h; split at h <;> cases h <;> rfl
  | _ => cases h; rfl

/-- A step of an `export_store` leads to one of the same, or ends it. -/
theorem exports_pcStep {d : δ} (hpc : pc.exports = some d)
    (h : pcStep r ok junk pc = some (r', pc')) : pc' = .idle ∨ pc'.exports = some d := by
  cases pc with
  | exportAlloc e =>
      simp only [pcStep] at h
      split at h <;> cases h
      · exact Or.inr hpc
      · exact Or.inl rfl
  | exportId e p => simp only [pcStep] at h; split at h <;> cases h <;> exact Or.inr hpc
  | exportInput e p => simp only [pcStep] at h; split at h <;> cases h <;> exact Or.inr hpc
  | exportUnlist e p => cases h; exact Or.inr hpc
  | exportType e p => cases h; exact Or.inr hpc
  | exportRegister e p => simp only [pcStep] at h; split at h <;> cases h <;> exact Or.inr hpc
  | exportInit e p =>
      simp only [pcStep] at h
      split at h <;> cases h
      · exact Or.inl rfl
      · exact Or.inr hpc
  | exportFreeInput e p b => cases b <;> cases h <;> exact Or.inr hpc
  | exportUnregister e p => cases h; exact Or.inr hpc
  | destroy p k =>
      cases k with
      | exportFailed e => cases h; exact Or.inr hpc
      | tornDown c => cases hpc
  | kfree p k =>
      cases k with
      | exportFailed e => cases h; exact Or.inl rfl
      | tornDown c => cases hpc
  | _ => cases hpc

/-- A step of a `vinput_unregister` leads to one of the same, or ends it. -/
theorem walks_pcStep {d : δ} (hpc : pc.walks = some d)
    (h : pcStep r ok junk pc = some (r', pc')) : pc' = .idle ∨ pc'.walks = some d := by
  cases pc with
  | walkHead e => cases h; exact Or.inr hpc
  | walkNext e c =>
      cases c with
      | none => cases h; exact Or.inl rfl
      | some p => cases h; exact Or.inr hpc
  | walkTest e p n => simp only [pcStep] at h; split at h <;> cases h <;> exact Or.inr hpc
  | teardownInput p k => cases k <;> cases h <;> exact Or.inr hpc
  | teardownDevice p k => cases k <;> cases h <;> exact Or.inr hpc
  | destroy p k =>
      rcases k with e | (_ | ⟨e, n⟩) <;> cases h <;> exact Or.inr hpc
  | kfree p k =>
      rcases k with e | (_ | ⟨e, n⟩) <;> cases h <;> exact Or.inr hpc
  | _ => cases hpc

theorem RoleOk.pcStep {x : Proc δ ι} (hx : RoleOk x pc) (h : pcStep r ok junk pc = some (r', pc')) :
    RoleOk x pc' := by
  cases x with
  | task i =>
      rcases hx with rfl | ⟨d, hd⟩
      · cases h
      · exact (exports_pcStep hd h).imp_right fun h => ⟨d, h⟩
  | client d =>
      rcases hx with rfl | hd
      · cases h
      · exact walks_pcStep hd h

/-- **What a step does to the list and to the types.** -/
theorem Base.effect [DecidableEq ι] {w : World δ ι} {x : Proc δ ι} (hw : Base w)
    (h : pcStep w.registry ok junk (w.pc x) = some (r', pc')) :
    Effect w.registry (w.pc x) r' := by
  have hL := hw.listed
  cases hpc : w.pc x with
  | idle => rw [hpc] at h; cases h
  | exportAlloc d =>
      rw [hpc, pcStep] at h
      split at h <;> cases h
      · exact .quiet rfl fun q hq => typeOf_eq_of_heap (heap_kzalloc_of_ne (hL.ne_brk hq))
      · exact .quiet rfl fun _ _ => rfl
  | exportId d p =>
      obtain ⟨s, rfl, hs⟩ := hw.stage hpc rfl
      rw [hpc, pcStep] at h
      split at h
      · cases h
        exact .quiet rfl fun _ _ => rfl
      · rename_i halloc
        cases h
        rw [(allocId_ok halloc).2]
        exact .linked p hs.not_listed rfl (hs.link _).typeOf
          fun q _ => typeOf_modify w.registry p q fun _ => rfl
  | exportInput d p =>
      rw [hpc, pcStep] at h
      split at h <;> cases h
      · exact .quiet rfl fun q _ => typeOf_modify w.registry p q fun _ => rfl
      · exact .quiet rfl fun _ _ => rfl
  | exportUnlist d p =>
      obtain ⟨s, rfl, hs⟩ := hw.stage hpc rfl
      rw [hpc] at h
      cases h
      exact .unlinked p rfl hs.listed rfl fun _ => rfl
  | exportType d p =>
      obtain ⟨s, rfl, hs⟩ := hw.stage hpc rfl
      rw [hpc] at h
      cases h
      exact .typed d p rfl rfl hs.typeOf (hs.setType d).typeOf
        fun q hq => typeOf_eq_of_heap (heap_modify_of_ne w.registry hq _)
  | exportRegister d p =>
      rw [hpc, pcStep] at h
      split at h <;> cases h
      · exact .quiet rfl fun q _ => typeOf_modify w.registry p q fun _ => rfl
      · exact .quiet rfl fun _ _ => rfl
  | exportInit d p =>
      rw [hpc, pcStep] at h
      split at h <;> cases h
      · exact .quiet rfl fun q _ => typeOf_modify w.registry p q fun _ => rfl
      · exact .quiet rfl fun _ _ => rfl
  | exportFreeInput d p b =>
      rw [hpc] at h
      cases h
      exact .quiet rfl fun q _ => typeOf_modify w.registry p q fun _ => rfl
  | exportUnregister d p =>
      rw [hpc] at h
      cases h
      exact .quiet rfl fun q _ => typeOf_modify w.registry p q fun _ => rfl
  | teardownInput p k =>
      rw [hpc] at h
      cases h
      exact .quiet rfl fun q _ => typeOf_modify w.registry p q fun _ => rfl
  | teardownDevice p k =>
      rw [hpc] at h
      cases h
      exact .quiet rfl fun q _ => typeOf_modify w.registry p q fun _ => rfl
  | destroy p k =>
      obtain ⟨s, ⟨t, b, _, rfl⟩, hs⟩ := hw.stage hpc rfl
      rw [hpc] at h
      cases h
      exact .unlinked p rfl hs.listed rfl fun _ => rfl
  | kfree p k =>
      obtain ⟨s, ⟨_, hl⟩, hs⟩ := hw.stage hpc rfl
      rw [hpc] at h
      cases h
      refine .quiet rfl fun q hq => typeOf_eq_of_heap (heap_kfree_of_ne ?_)
      intro hqp
      exact hs.not_listed hl (hqp ▸ hq)
  | walkHead d => rw [hpc] at h; cases h; exact .quiet rfl fun _ _ => rfl
  | walkNext d c => rw [hpc] at h; cases c <;> cases h <;> exact .quiet rfl fun _ _ => rfl
  | walkTest d p n =>
      rw [hpc, pcStep] at h
      split at h <;> cases h <;> exact .quiet rfl fun _ _ => rfl

end Step

/-! ### The walks -/

/-- A walk points at listed nodes, its saved cursor is the successor of its node, and the node it
tears down has its type. -/
structure WalkOk (r : Registry δ) (pc : Pc δ) : Prop where
  position : ∀ p, pc.position = some p → p ∈ r.vinputVdevices
  saved : ∀ p n, pc.saved = some (p, n) → n = ListCursor.next r.vinputVdevices p
  target : ∀ p d, pc.target = some (p, d) → r.typeOf p = some d

/-- The nodes that a walk has still to visit. -/
def todo (r : Registry δ) : Pc δ → List Ptr
  | .walkHead _ => r.vinputVdevices
  | pc => ListCursor.rest r.vinputVdevices pc.position

section Walks

variable {r r' : Registry δ} {pc pc' : Pc δ} {p q : Ptr}

theorem WalkOk.of_not_walks (h : pc.walks = none) : WalkOk r pc := by
  have hpos : pc.position = none := by
    revert h
    fun_cases Pc.position pc <;> intro h <;> first | rfl | cases h
  refine ⟨fun p hp => ?_, fun p n hp => ?_, fun p d hp => ?_⟩
  · rw [hpos] at hp
    cases hp
  · rw [Pc.position_of_saved hp] at hpos
    cases hpos
  · rw [Pc.position_of_target hp] at hpos
    cases hpos

/-- A walk that has saved no cursor and is not at a node of its type. -/
theorem WalkOk.of_position (hsaved : pc.saved = none) (htarget : pc.target = none)
    (h : ∀ p, pc.position = some p → p ∈ r.vinputVdevices) : WalkOk r pc := by
  refine ⟨h, fun p n hp => ?_, fun p d hp => ?_⟩
  · rw [hsaved] at hp
    cases hp
  · rw [htarget] at hp
    cases hp

theorem todo_eq (h : ∀ d, pc ≠ .walkHead d) :
    todo r pc = ListCursor.rest r.vinputVdevices pc.position := by
  cases pc with
  | walkHead d => exact absurd rfl (h d)
  | _ => rfl

/-- The type of a listed vdevice is set once. -/
theorem Effect.typeOf_eq {pcx : Pc δ} {d : δ} (h : Effect r pcx r') (hq : q ∈ r.vinputVdevices)
    (hd : r.typeOf q = some d) : r'.typeOf q = some d := by
  cases h with
  | quiet _ htype => rw [htype q hq, hd]
  | typed d' p _ _ hold _ htype =>
      have hqp : q ≠ p := by
        intro hqp
        rw [hqp, hold] at hd
        cases hd
      rw [htype q hqp, hd]
  | linked _ _ _ _ htype => rw [htype q hq, hd]
  | unlinked _ _ _ _ htype => rw [htype q, hd]

/-- **Frame.**  A step of another call that removes no node the walk points at keeps the walk in
order. -/
theorem WalkOk.effect {pcx : Pc δ} (h : WalkOk r pc) (hr : Listed r) (heff : Effect r pcx r')
    (hsafe : ∀ p, pcx.unlinks = some p → ¬pc.PointsAt p) : WalkOk r' pc := by
  refine ⟨fun q hq => ?_, fun q n hq => ?_, fun q d hq => ?_⟩
  · have hmem := h.position q hq
    cases heff with
    | quiet hlist _ => rw [hlist]; exact hmem
    | typed _ _ _ hlist _ _ _ => rw [hlist]; exact hmem
    | linked p _ hlist _ _ => rw [hlist]; exact List.mem_cons_of_mem p hmem
    | unlinked p hpc _ hlist _ =>
        rw [hlist]
        refine hr.nodup.mem_erase_iff.mpr ⟨fun hqp => ?_, hmem⟩
        exact hsafe p hpc (Or.inl (hqp ▸ hq))
  · have hmem := h.position q (Pc.position_of_saved hq)
    have hnext := h.saved q n hq
    cases heff with
    | quiet hlist _ => rw [hlist]; exact hnext
    | typed _ _ _ hlist _ _ _ => rw [hlist]; exact hnext
    | linked p hp hlist _ _ =>
        rw [hlist, ListCursor.next_cons_of_ne (ne_of_mem_of_not_mem hmem hp).symm]
        exact hnext
    | unlinked p hpc _ hlist _ =>
        have hpq : p ≠ q := fun hpq =>
          hsafe p hpc (Or.inl (hpq ▸ Pc.position_of_saved hq))
        have hnp : ListCursor.next r.vinputVdevices q ≠ some p := by
          intro hnp
          exact hsafe p hpc (Or.inr ⟨q, by rw [hq, hnext, hnp]⟩)
        rw [hlist, ListCursor.next_erase hr.nodup hmem hpq hnp]
        exact hnext
  · exact heff.typeOf_eq (h.position q (Pc.position_of_target hq)) (h.target q d hq)

theorem WalkOk.effect_of_unlinks {pcx : Pc δ} (h : WalkOk r pc) (hr : Listed r)
    (heff : Effect r pcx r') (hnone : pcx.unlinks = none) : WalkOk r' pc := by
  refine h.effect hr heff fun p hp => ?_
  rw [hnone] at hp
  cases hp

/-- **Frame.**  Such a step takes no listed node out of what the walk has still to visit. -/
theorem WalkOk.mem_todo {pcx : Pc δ} (h : WalkOk r pc) (hr : Listed r) (heff : Effect r pcx r')
    (hsafe : ∀ p, pcx.unlinks = some p → ¬pc.PointsAt p) (hq : q ∈ todo r pc)
    (hq' : q ∈ r'.vinputVdevices) : q ∈ todo r' pc := by
  by_cases hhead : ∃ d, pc = .walkHead d
  · obtain ⟨d, rfl⟩ := hhead
    exact hq'
  · have hne : ∀ d, pc ≠ .walkHead d := fun d hd => hhead ⟨d, hd⟩
    rw [todo_eq hne] at hq ⊢
    cases heff with
    | quiet hlist _ => rw [hlist]; exact hq
    | typed _ _ _ hlist _ _ _ => rw [hlist]; exact hq
    | linked p hp hlist _ _ =>
        rw [hlist]
        cases hpos : pc.position with
        | none => rw [hpos] at hq; cases hq
        | some c =>
            rw [hpos] at hq
            rw [ListCursor.rest_cons_of_ne (ne_of_mem_of_not_mem (h.position c hpos) hp).symm]
            exact hq
    | unlinked p hpc _ hlist _ =>
        rw [hlist] at hq' ⊢
        exact ListCursor.mem_rest_erase hr.nodup (fun hpos => hsafe p hpc (Or.inl hpos)) hq
          (hr.nodup.mem_erase_iff.mp hq').1

variable [DecidableEq δ] [DecidableEq ι] {ok : Bool} {junk : Option Ptr} {w : World δ ι}
  {x : Proc δ ι}

/-- A step of a walk keeps it in order. -/
theorem Base.walkOk_self (hw : Base w) {d : δ} (hwalk : (w.pc x).walks = some d)
    (hok : WalkOk w.registry (w.pc x))
    (h : VinputDriver.pcStep w.registry ok junk (w.pc x) = some (r', pc')) : WalkOk r' pc' := by
  have hL := hw.listed
  have heff := hw.effect h
  cases hpc : w.pc x with
  | walkHead e =>
      rw [hpc] at h
      cases h
      exact .of_position rfl rfl fun q hq => List.mem_of_head? hq
  | walkNext e c =>
      rw [hpc] at h hok
      cases c with
      | none => cases h; exact .of_not_walks rfl
      | some p =>
          cases h
          have hp := hok.position p rfl
          refine ⟨hok.position, fun q n hq => ?_, fun q d' hq => ?_⟩
          · obtain ⟨rfl, rfl⟩ := Prod.mk.inj (Option.some.inj hq)
            rw [if_pos hp]
          · cases hq
  | walkTest e p n =>
      rw [hpc] at h hok
      have hp := hok.position p rfl
      simp only [pcStep] at h
      split at h
      · rename_i htest
        cases h
        refine ⟨hok.position, hok.saved, fun q d' hq => ?_⟩
        obtain ⟨rfl, rfl⟩ := Prod.mk.inj (Option.some.inj hq)
        obtain ⟨v, hv⟩ := Option.ne_none_iff_exists'.mp (hL.heap_ne_none hp)
        simp only [hv, Option.elim_some, decide_eq_true_eq] at htest
        rw [Registry.typeOf, hv]
        exact htest
      · cases h
        refine .of_position rfl rfl fun q hq => ?_
        have hn := hok.saved p n rfl
        exact ListCursor.mem_of_next (hn.symm.trans hq)
  | teardownInput p k =>
      rw [hpc] at h hok hwalk heff
      have hok' := hok.effect_of_unlinks hL heff rfl
      rcases k with _ | ⟨e, n⟩ <;> cases h
      · cases hwalk
      · exact ⟨hok'.position, hok'.saved, hok'.target⟩
  | teardownDevice p k =>
      rw [hpc] at h hok hwalk heff
      have hok' := hok.effect_of_unlinks hL heff rfl
      rcases k with _ | ⟨e, n⟩ <;> cases h
      · cases hwalk
      · exact ⟨hok'.position, hok'.saved, hok'.target⟩
  | destroy p k =>
      rw [hpc] at h hok hwalk
      rcases k with e | (_ | ⟨e, n⟩) <;> cases h
      · cases hwalk
      · cases hwalk
      · have hp := hok.position p rfl
        refine .of_position rfl rfl fun q hq => ?_
        have hn : ListCursor.next w.registry.vinputVdevices p = some q :=
          (hok.saved p n rfl).symm.trans hq
        refine hL.mem_listDel.mpr ⟨fun hqp => ?_, ListCursor.mem_of_next hn⟩
        exact ListCursor.next_ne_self hL.nodup hp (hqp ▸ hn)
  | kfree p k =>
      rw [hpc] at h hok hwalk
      rcases k with e | (_ | ⟨e, n⟩) <;> cases h
      · cases hwalk
      · cases hwalk
      · exact .of_position rfl rfl hok.position
  | _ => rw [hpc] at hwalk; cases hwalk

omit [DecidableEq ι] in
/-- A step of a walk passes no vdevice of its type that stays in the list. -/
theorem Base.todo_self (hw : Base w) {d : δ} (hwalk : (w.pc x).walks = some d)
    (hok : WalkOk w.registry (w.pc x))
    (h : VinputDriver.pcStep w.registry ok junk (w.pc x) = some (r', pc'))
    (hq : q ∈ todo w.registry (w.pc x)) (htype : w.registry.typeOf q = some d)
    (hq' : q ∈ r'.vinputVdevices) : q ∈ todo r' pc' := by
  have hL := hw.listed
  cases hpc : w.pc x with
  | walkHead e =>
      rw [hpc] at h hq
      cases h
      show q ∈ ListCursor.rest w.registry.vinputVdevices w.registry.vinputVdevices.head?
      rw [ListCursor.rest_head?]
      exact hq
  | walkNext e c => rw [hpc] at h hq; cases c <;> cases h <;> exact hq
  | walkTest e p n =>
      rw [hpc] at h hok hwalk hq
      obtain rfl : e = d := Option.some.inj hwalk
      have hp := hok.position p rfl
      simp only [pcStep] at h
      split at h
      · cases h
        exact hq
      · rename_i htest
        cases h
        have hqp : q ≠ p := by
          intro hqp
          obtain ⟨v, hv⟩ := Option.ne_none_iff_exists'.mp (hL.heap_ne_none hp)
          rw [hqp, Registry.typeOf, hv] at htype
          simp only [hv, Option.elim_some, decide_eq_true_eq] at htest
          exact htest htype
        have hn := hok.saved p n rfl
        show q ∈ ListCursor.rest w.registry.vinputVdevices n
        rw [hn]
        exact ListCursor.mem_rest_next hL.nodup hp hq hqp
  | teardownInput p k =>
      rw [hpc] at h hwalk hq
      rcases k with _ | ⟨e, n⟩ <;> cases h
      · cases hwalk
      · exact hq
  | teardownDevice p k =>
      rw [hpc] at h hwalk hq
      rcases k with _ | ⟨e, n⟩ <;> cases h
      · cases hwalk
      · exact hq
  | destroy p k =>
      rw [hpc] at h hok hwalk hq
      rcases k with e | (_ | ⟨e, n⟩) <;> cases h
      · cases hwalk
      · cases hwalk
      · have hp := hok.position p rfl
        have hn := hok.saved p n rfl
        have hqp : q ≠ p := (hL.mem_listDel.mp hq').1
        show q ∈ ListCursor.rest (w.registry.vinputVdevices.erase p) n
        rw [hn]
        exact ListCursor.mem_rest_erase hL.nodup (ListCursor.next_ne_self hL.nodup hp)
          (ListCursor.mem_rest_next hL.nodup hp hq hqp) hqp
  | kfree p k =>
      rw [hpc] at h hwalk hq
      rcases k with e | (_ | ⟨e, n⟩) <;> cases h
      · cases hwalk
      · cases hwalk
      · exact hq
  | _ => rw [hpc] at hwalk; cases hwalk

end Walks

/-! ### The invariant -/

/-- What an orderly run keeps: an `export_store` has a type that is still registered, or whose walk
has not started, and a listed vdevice has such a type or lies ahead of the walk. -/
structure Tracked (w : World δ ι) : Prop extends Base w where
  devices : w.registry.vinputDevices.Nodup
  role : ∀ x, RoleOk x (w.pc x)
  gone : ∀ x d, (w.pc x).walks = some d → d ∉ w.registry.vinputDevices
  exporter : ∀ x d, (w.pc x).exports = some d →
    d ∈ w.registry.vinputDevices ∨ w.pc (.client d) = .walkHead d
  walk : ∀ x, WalkOk w.registry (w.pc x)
  cover : ∀ p ∈ w.registry.vinputVdevices, ∀ d, w.registry.typeOf p = some d →
    d ∈ w.registry.vinputDevices ∨ p ∈ todo w.registry (w.pc (.client d))

theorem Pc.walks_of_exports {pc : Pc δ} {d : δ} (h : pc.exports = some d) : pc.walks = none := by
  revert h
  fun_cases Pc.exports pc <;> intro h <;> first | rfl | cases h

theorem RoleOk.eq_client {pc : Pc δ} {x : Proc δ ι} {d : δ} (hx : RoleOk x pc)
    (h : pc.walks = some d) : x = .client d := by
  cases x with
  | task i =>
      rcases hx with rfl | ⟨e, he⟩
      · cases h
      · rw [Pc.walks_of_exports he] at h
        cases h
  | client e =>
      rcases hx with rfl | he
      · cases h
      · rw [Option.some.inj (he.symm.trans h)]

theorem RoleOk.walks {pc : Pc δ} {d : δ} (hx : RoleOk (.client d : Proc δ ι) pc)
    (h : pc ≠ .idle) : pc.walks = some d := hx.resolve_left h

theorem tracked_init : Tracked (World.init : World δ ι) where
  toBase := base_init
  devices := List.nodup_nil
  role := fun x => by cases x <;> exact Or.inl rfl
  gone := fun _ _ h => by cases h
  exporter := fun _ _ h => by cases h
  walk := fun _ => .of_not_walks rfl
  cover := fun _ h => by cases h

section Invariant

variable {w : World δ ι} {x y : Proc δ ι} {p : Ptr} {d : δ}

/-- Once the walk over a type has started, no `export_store` has the type. -/
theorem Tracked.exports_ne (hw : Tracked w) (hx : (w.pc x).walks = some d)
    (hstarted : w.pc x ≠ .walkHead d) : (w.pc y).exports ≠ some d := by
  intro hy
  rcases hw.exporter y d hy with hin | hhead
  · exact hw.gone x d hx hin
  · exact hstarted ((hw.role x).eq_client hx ▸ hhead)

/-- **A walk takes over only vdevices that no other call has in hand.** -/
theorem Tracked.unheld (hw : Tracked w) {n : Option Ptr}
    (hpc : w.pc x = .teardownInput p (.vinputUnregister d n)) : Unheld w p := by
  have hok := hpc ▸ hw.walk x
  have hlisted : p ∈ w.registry.vinputVdevices := hok.position p rfl
  have htype : w.registry.typeOf p = some d := hok.target p d rfl
  have hwalk : (w.pc x).walks = some d := by rw [hpc]; rfl
  have hexp : ∀ y, (w.pc y).exports ≠ some d := fun y =>
    hw.exports_ne hwalk (by rw [hpc]; exact nofun)
  refine ⟨hlisted, fun y hy => ?_⟩
  obtain ⟨s, hs, hst⟩ := hw.pcOk y p hy
  have htype' : s.type = some d := hst.typeOf.symm.trans htype
  have hlisted' : s.listed = true := hst.2.1.mp hlisted
  -- the stage of what another call holds is not that of a vdevice of this type
  have hother : ∀ e, (w.pc y).target = some (p, e) → (w.pc y).walks = some e → False := by
    intro e ht he
    obtain rfl : e = d := Option.some.inj (((hw.walk y).target p e ht).symm.trans htype)
    obtain rfl : y = x := ((hw.role y).eq_client he).trans ((hw.role x).eq_client hwalk).symm
    rw [hpc] at hy
    cases hy
  have hrole := hw.role y
  cases hpcy : w.pc y with
  | exportId e q => rw [hpcy] at hs; subst hs; cases hlisted'
  | exportInput e q => rw [hpcy] at hs; subst hs; cases htype'
  | exportUnlist e q => rw [hpcy] at hs; subst hs; cases htype'
  | exportType e q => rw [hpcy] at hs; subst hs; cases htype'
  | exportRegister e q => rw [hpcy] at hs; subst hs; exact hexp y (hpcy ▸ htype')
  | exportInit e q => rw [hpcy] at hs; subst hs; exact hexp y (hpcy ▸ htype')
  | exportFreeInput e q b => rw [hpcy] at hs; subst hs; exact hexp y (hpcy ▸ htype')
  | exportUnregister e q => rw [hpcy] at hs; subst hs; exact hexp y (hpcy ▸ htype')
  | teardownDevice q k =>
      rw [hpcy] at hy hother hrole
      obtain rfl : q = p := Option.some.inj hy
      cases k with
      | unexportStore => cases y <;> simp [RoleOk, Pc.exports, Pc.walks] at hrole
      | vinputUnregister e n => exact hother e rfl rfl
  | destroy q k =>
      rw [hpcy] at hy hother hrole hs
      obtain rfl : q = p := Option.some.inj hy
      rcases k with e | (_ | ⟨e, n⟩)
      · obtain ⟨t, b, ht, rfl⟩ := hs
        obtain rfl : t = e := ht
        exact hexp y (hpcy ▸ htype')
      · cases y <;> simp [RoleOk, Pc.exports, Pc.walks] at hrole
      · exact hother e rfl rfl
  | kfree q k =>
      rw [hpcy] at hs
      exact absurd (hs.2.symm.trans hlisted') Bool.false_ne_true
  | _ => rw [hpcy] at hy; cases hy

/-- A listed vdevice of some type was one before the step, unless the step assigns its type. -/
theorem Effect.before {r r' : Registry δ} {pc : Pc δ} (h : Effect r pc r')
    (hp : p ∈ r'.vinputVdevices) (hd : r'.typeOf p = some d) :
    (p ∈ r.vinputVdevices ∧ r.typeOf p = some d) ∨ pc = .exportType d p := by
  cases h with
  | quiet hlist htype =>
      rw [hlist] at hp
      exact Or.inl ⟨hp, (htype p hp).symm.trans hd⟩
  | typed e q hpc hlist hold hnew htype =>
      rw [hlist] at hp
      by_cases hpq : p = q
      · subst hpq
        rw [hnew] at hd
        exact Or.inr (Option.some.inj hd ▸ hpc)
      · exact Or.inl ⟨hp, (htype p hpq).symm.trans hd⟩
  | linked q _ hlist hnew htype =>
      rw [hlist] at hp
      rcases List.mem_cons.mp hp with rfl | hp
      · rw [hnew] at hd
        cases hd
      · exact Or.inl ⟨hp, (htype p hp).symm.trans hd⟩
  | unlinked q _ _ hlist htype =>
      rw [hlist] at hp
      exact Or.inl ⟨List.mem_of_mem_erase hp, (htype p).symm.trans hd⟩

section Step

variable [DecidableEq δ] [DecidableEq ι] {r' : Registry δ} {pc' : Pc δ} {ok : Bool}
  {junk : Option Ptr}

omit [DecidableEq ι] in
/-- A call that takes a step is an `export_store` of a task or the walk of a client. -/
theorem Tracked.calls (hw : Tracked w) (h : pcStep w.registry ok junk (w.pc x) = some (r', pc')) :
    (∃ e, (w.pc x).exports = some e ∧ (pc' = .idle ∨ pc'.exports = some e) ∧
      ∀ e, x ≠ .client e) ∨
    ∃ e, x = .client e ∧ (w.pc x).walks = some e ∧ (pc' = .idle ∨ pc'.walks = some e) := by
  have hrole := hw.role x
  have hne : w.pc x ≠ .idle := by
    intro hidle
    rw [hidle] at h
    cases h
  cases x with
  | task i =>
      obtain ⟨e, he⟩ := hrole.resolve_left hne
      exact Or.inl ⟨e, he, exports_pcStep he h, fun _ => nofun⟩
  | client e =>
      have he := hrole.walks hne
      exact Or.inr ⟨e, rfl, he, walks_pcStep he h⟩

omit [DecidableEq δ] [DecidableEq ι] in
/-- A step of `vinput_unregister` takes over vdevices that no other call has in hand. -/
theorem Tracked.clean (hw : Tracked w) (k : Caller δ) (hpc : w.pc x = .teardownInput p k) :
    Unheld w p := by
  cases k with
  | unexportStore =>
      have hrole := hw.role x
      rw [hpc] at hrole
      cases x <;> simp [RoleOk, Pc.exports, Pc.walks] at hrole
  | vinputUnregister e n => exact hw.unheld hpc

theorem Tracked.step (hw : Tracked w) (hord : Orderly w (.step x ok junk))
    (h : pcStep w.registry ok junk (w.pc x) = some (r', pc')) :
    Tracked (⟨r', Function.update w.pc x pc', (w.pc x).tearsDown ++ w.torn⟩ : World δ ι) := by
  have hL := hw.listed
  have heff := hw.effect h
  have hdev := vinputDevices_pcStep h
  have hcalls := hw.calls h
  have hself : Function.update w.pc x pc' x = pc' := Function.update_self _ _ _
  have hother : ∀ y, y ≠ x → Function.update w.pc x pc' y = w.pc y :=
    fun y hy => Function.update_of_ne hy _ _
  refine ⟨hw.toBase.step (fun p k hpc => hw.clean k hpc) h, hdev ▸ hw.devices, fun y => ?_, fun y e he => ?_,
    fun y e he => ?_, fun y => ?_, fun q hq e he => ?_⟩
  · show RoleOk y (Function.update w.pc x pc' y)
    by_cases hyx : y = x
    · rw [hyx, hself]
      exact (hw.role x).pcStep h
    · rw [hother y hyx]
      exact hw.role y
  · show e ∉ r'.vinputDevices
    replace he : (Function.update w.pc x pc' y).walks = some e := he
    rw [hdev]
    by_cases hyx : y = x
    · rw [hyx, hself] at he
      obtain ⟨_, _, rfl | hexp, _⟩ | ⟨e', rfl, hwalk, rfl | hwalk'⟩ := hcalls
      · cases he
      · rw [Pc.walks_of_exports hexp] at he
        cases he
      · cases he
      · obtain rfl : e' = e := Option.some.inj (hwalk'.symm.trans he)
        exact hw.gone _ e' hwalk
    · rw [hother y hyx] at he
      exact hw.gone y e he
  · show e ∈ r'.vinputDevices ∨ Function.update w.pc x pc' (.client e) = .walkHead e
    replace he : (Function.update w.pc x pc' y).exports = some e := he
    rw [hdev]
    -- the head of the list is read only when no export of the type is running
    have hmove : ∀ z, (w.pc z).exports = some e →
        e ∈ w.registry.vinputDevices ∨
          Function.update w.pc x pc' (.client e) = .walkHead e := by
      intro z hz
      refine (hw.exporter z e hz).imp_right fun hhead => ?_
      by_cases hxc : x = .client e
      · exact absurd hz (hord.1 e (hxc ▸ hhead) z)
      · rw [hother _ fun h => hxc h.symm]
        exact hhead
    by_cases hyx : y = x
    · rw [hyx, hself] at he
      obtain ⟨e', hexp, rfl | hexp', _⟩ | ⟨_, _, _, rfl | hwalk'⟩ := hcalls
      · cases he
      · obtain rfl : e' = e := Option.some.inj (hexp'.symm.trans he)
        exact hmove x hexp
      · cases he
      · rw [Pc.walks_of_exports he] at hwalk'
        cases hwalk'
    · rw [hother y hyx] at he
      exact hmove y he
  · show WalkOk r' (Function.update w.pc x pc' y)
    by_cases hyx : y = x
    · rw [hyx, hself]
      obtain ⟨_, _, rfl | hexp, _⟩ | ⟨_, _, hwalk, _⟩ := hcalls
      · exact .of_not_walks rfl
      · exact .of_not_walks (Pc.walks_of_exports hexp)
      · exact hw.toBase.walkOk_self hwalk (hw.walk x) h
    · rw [hother y hyx]
      exact (hw.walk y).effect hL heff fun p hp => hord.2 p hp y hyx
  · show e ∈ r'.vinputDevices ∨ q ∈ todo r' (Function.update w.pc x pc' (.client e))
    replace hq : q ∈ r'.vinputVdevices := hq
    replace he : r'.typeOf q = some e := he
    rw [hdev]
    rcases heff.before hq he with ⟨hmem, htype⟩ | hpc
    · refine (hw.cover q hmem e htype).imp_right fun htodo => ?_
      by_cases hxc : x = .client e
      · obtain ⟨_, _, _, hne⟩ | ⟨e', rfl, hwalk, _⟩ := hcalls
        · exact absurd hxc (hne e)
        · obtain rfl : e' = e := Proc.client.inj hxc
          rw [hself]
          exact hw.toBase.todo_self hwalk (hw.walk _) h htodo htype hq
      · have hne : (.client e : Proc δ ι) ≠ x := fun h => hxc h.symm
        rw [hother _ hne]
        exact (hw.walk _).mem_todo hL heff (fun p hp => hord.2 p hp _ hne) htodo hq
    · -- the type is assigned by this very step, so its `export_store` is running
      refine (hw.exporter x e (by rw [hpc]; rfl)).imp_right fun hhead => ?_
      have hne : (.client e : Proc δ ι) ≠ x := by
        rintro rfl
        rw [hpc] at hhead
        cases hhead
      rw [hother _ hne, hhead]
      exact hq

end Step

end Invariant

/-! ### Runs -/

section Runs

variable [DecidableEq δ] [DecidableEq ι] {name : δ → List Byte} {w w' : World δ ι}

omit [DecidableEq δ] in
theorem mem_of_vinputGetDeviceByType {r : Registry δ} {buf : List Byte} {d : δ}
    (h : r.vinputGetDeviceByType name buf = .ok d) : d ∈ r.vinputDevices := by
  unfold vinputGetDeviceByType at h
  split at h
  · rename_i hfind
    exact Except.ok.inj h ▸ List.mem_of_find?_eq_some hfind
  · cases h

/-- A call of `export_store` resolves a registered type. -/
theorem Tracked.exportStore (hw : Tracked w) {i : ι} {buf : List Byte}
    (h : worldStep name w (.exportStore i buf) = some w') : Tracked w' := by
  have hbase := hw.toBase.of_worldStep (a := .exportStore i buf) trivial h
  obtain ⟨-, rfl | ⟨d, hget, rfl⟩⟩ := worldStep_exportStore h
  · exact hw
  · have hself : Function.update w.pc (.task i) (.exportAlloc d) (.task i) = .exportAlloc d :=
      Function.update_self _ _ _
    have hother : ∀ y, y ≠ .task i →
        Function.update w.pc (.task i) (.exportAlloc d) y = w.pc y :=
      fun y hy => Function.update_of_ne hy _ _
    have hclient : ∀ e, Function.update w.pc (.task i) (.exportAlloc d) (.client e) =
        w.pc (.client e) := fun e => hother _ nofun
    refine ⟨hbase, hw.devices, fun y => ?_, fun y e he => ?_, fun y e he => ?_, fun y => ?_,
      fun q hq e he => ?_⟩
    · show RoleOk y (Function.update w.pc (.task i) (.exportAlloc d) y)
      by_cases hy : y = .task i
      · rw [hy, hself]
        exact Or.inr ⟨d, rfl⟩
      · rw [hother y hy]
        exact hw.role y
    · replace he : (Function.update w.pc (.task i) (.exportAlloc d) y).walks = some e := he
      by_cases hy : y = .task i
      · rw [hy, hself] at he
        cases he
      · rw [hother y hy] at he
        exact hw.gone y e he
    · replace he : (Function.update w.pc (.task i) (.exportAlloc d) y).exports = some e := he
      show e ∈ w.registry.vinputDevices ∨
        Function.update w.pc (.task i) (.exportAlloc d) (.client e) = .walkHead e
      rw [hclient e]
      by_cases hy : y = .task i
      · rw [hy, hself] at he
        exact Or.inl (Option.some.inj he ▸ mem_of_vinputGetDeviceByType hget)
      · rw [hother y hy] at he
        exact hw.exporter y e he
    · show WalkOk w.registry (Function.update w.pc (.task i) (.exportAlloc d) y)
      by_cases hy : y = .task i
      · rw [hy, hself]
        exact .of_not_walks rfl
      · rw [hother y hy]
        exact hw.walk y
    · show e ∈ w.registry.vinputDevices ∨
        q ∈ todo w.registry (Function.update w.pc (.task i) (.exportAlloc d) (.client e))
      rw [hclient e]
      exact hw.cover q hq e he

theorem Tracked.register (hw : Tracked w) {d : δ}
    (h : worldStep name w (.register d) = some w') : Tracked w' := by
  have hbase := hw.toBase.of_worldStep (a := .register d) trivial h
  obtain ⟨hidle, rfl⟩ := worldStep_register h
  refine ⟨hbase, List.nodup_cons.mpr ⟨hidle.2, hw.devices⟩, hw.role, fun y e he hmem => ?_,
    fun y e he => (hw.exporter y e he).imp_left (List.mem_cons_of_mem d),
    fun y => ⟨(hw.walk y).position, (hw.walk y).saved, (hw.walk y).target⟩,
    fun q hq e he => (hw.cover q hq e he).imp_left (List.mem_cons_of_mem d)⟩
  rcases List.mem_cons.mp hmem with rfl | hmem
  · obtain rfl := (hw.role y).eq_client he
    replace he : (w.pc (.client e)).walks = some e := he
    rw [hidle.1] at he
    cases he
  · exact hw.gone y e he hmem

/-- `vinput_unregister` starts with the whole list ahead of it. -/
theorem Tracked.unregister (hw : Tracked w) {d : δ}
    (h : worldStep name w (.unregister d) = some w') : Tracked w' := by
  have hbase := hw.toBase.of_worldStep (a := .unregister d) trivial h
  obtain ⟨-, rfl⟩ := worldStep_unregister h
  have hself : Function.update w.pc (.client d) (.walkHead d) (.client d) = .walkHead d :=
    Function.update_self _ _ _
  have hother : ∀ y, y ≠ .client d →
      Function.update w.pc (.client d) (.walkHead d) y = w.pc y :=
    fun y hy => Function.update_of_ne hy _ _
  refine ⟨hbase, hw.devices.erase d, fun y => ?_, fun y e he => ?_, fun y e he => ?_,
    fun y => ?_, fun q hq e he => ?_⟩
  · show RoleOk y (Function.update w.pc (.client d) (.walkHead d) y)
    by_cases hy : y = .client d
    · rw [hy, hself]
      exact Or.inr rfl
    · rw [hother y hy]
      exact hw.role y
  · replace he : (Function.update w.pc (.client d) (.walkHead d) y).walks = some e := he
    show e ∉ w.registry.vinputDevices.erase d
    by_cases hy : y = .client d
    · rw [hy, hself] at he
      obtain rfl : d = e := Option.some.inj he
      exact hw.devices.not_mem_erase
    · rw [hother y hy] at he
      exact fun hmem => hw.gone y e he (List.mem_of_mem_erase hmem)
  · replace he : (Function.update w.pc (.client d) (.walkHead d) y).exports = some e := he
    show e ∈ w.registry.vinputDevices.erase d ∨
      Function.update w.pc (.client d) (.walkHead d) (.client e) = .walkHead e
    by_cases hed : e = d
    · rw [hed]
      exact Or.inr hself
    · have hy : y ≠ .client d := by
        rintro rfl
        rw [hself] at he
        cases he
      rw [hother y hy] at he
      rw [hother _ fun h => hed (Proc.client.inj h)]
      exact (hw.exporter y e he).imp_left (List.mem_erase_of_ne hed).mpr
  · show WalkOk { w.registry with vinputDevices := w.registry.vinputDevices.erase d }
      (Function.update w.pc (.client d) (.walkHead d) y)
    by_cases hy : y = .client d
    · rw [hy, hself]
      exact .of_position rfl rfl nofun
    · rw [hother y hy]
      exact ⟨(hw.walk y).position, (hw.walk y).saved, (hw.walk y).target⟩
  · show e ∈ w.registry.vinputDevices.erase d ∨ q ∈ todo
      { w.registry with vinputDevices := w.registry.vinputDevices.erase d }
      (Function.update w.pc (.client d) (.walkHead d) (.client e))
    by_cases hed : e = d
    · rw [hed, hself]
      exact Or.inr hq
    · rw [hother _ fun h => hed (Proc.client.inj h)]
      exact (hw.cover q hq e he).imp_left (List.mem_erase_of_ne hed).mpr

/-- **Step.**  An orderly step keeps track of the vdevices of every type. -/
theorem Tracked.of_worldStep {a : Act δ ι} (hw : Tracked w) (hscope : a.NoUnexport)
    (hord : Orderly w a) (h : worldStep name w a = some w') : Tracked w' := by
  cases a with
  | exportStore i buf => exact hw.exportStore h
  | unexportStore i buf => exact hscope.elim
  | register d => exact hw.register h
  | unregister d => exact hw.unregister h
  | step x ok junk =>
      obtain ⟨⟨r', pc'⟩, hnext, rfl⟩ := Option.map_eq_some_iff.mp h
      exact hw.step hord hnext

omit [DecidableEq δ] [DecidableEq ι] in
theorem Tracked.noneOutlives (hw : Tracked w) : NoneOutlives w := by
  have hcovered : ∀ p ∈ w.registry.vinputVdevices, ∀ d, w.registry.typeOf p = some d →
      w.pc (.client d) = .idle → d ∈ w.registry.vinputDevices := by
    intro p hp d hd hidle
    refine (hw.cover p hp d hd).resolve_right fun htodo => ?_
    rw [hidle] at htodo
    cases htodo
  refine ⟨fun d hidle hd => ⟨fun p hp htype => ?_, fun x hx => ?_⟩, fun p hp => ?_⟩
  · exact hd (hcovered p hp d htype hidle)
  · rcases hw.exporter x d hx with hin | hhead
    · exact hd hin
    · rw [hidle] at hhead
      cases hhead
  · obtain ⟨d, hwhole⟩ := hw.whole_of_unheld hp
    exact ⟨d, hwhole.typeOf, hcovered p hp.1 d hwhole.typeOf⟩

/-- **No vdevice outlives its type in an orderly run.**  Once the `vinput_unregister` of a type has
returned, and until the type is registered again, no vdevice of the type is in the list and none is
added. -/
theorem no_vdevice_outlives_type {acts : List (Act δ ι)}
    (hscope : ∀ a ∈ acts, a.NoUnexport)
    (hord : Along (worldStep name) Orderly World.init acts)
    (hrun : run (worldStep name) World.init acts = some w) : NoneOutlives w := by
  refine Tracked.noneOutlives (run_induction (C := fun u a => a.NoUnexport ∧ Orderly u a) ?_
    tracked_init ((Along.of_forall hscope).and hord) hrun)
  intro u a u' hu hC h
  exact hu.of_worldStep hC.1 hC.2 h

/-- The step of a call that runs alone is orderly. -/
theorem orderly_of_alone {x : Proc δ ι} {ok : Bool} {junk : Option Ptr}
    (h : ∀ y, y ≠ x → w.pc y = .idle) : Orderly w (.step x ok junk) := by
  refine ⟨fun d hd y hy => ?_, fun p _ y hyx hpoints => ?_⟩
  · by_cases hyx : y = x
    · rw [hyx, hd] at hy
      cases hy
    · rw [h y hyx] at hy
      cases hy
  · rw [h y hyx] at hpoints
    rcases hpoints with hpos | ⟨q, hq⟩
    · cases hpos
    · cases hq

/-- While one call runs alone, the others stay idle. -/
theorem alone_of_worldStep {x : Proc δ ι} {ok : Bool} {junk : Option Ptr}
    (h : ∀ y, y ≠ x → w.pc y = .idle) (hstep : worldStep name w (.step x ok junk) = some w') :
    ∀ y, y ≠ x → w'.pc y = .idle := by
  intro y hyx
  obtain ⟨⟨r', pc'⟩, _, rfl⟩ := Option.map_eq_some_iff.mp hstep
  show Function.update w.pc x pc' y = .idle
  rw [Function.update_of_ne hyx, h y hyx]

/-- **A call that runs alone is orderly to its end.** -/
theorem along_orderly_of_alone {x : Proc δ ι} {ok : Bool} {junk : Option Ptr} (n : ℕ)
    (h : ∀ y, y ≠ x → w.pc y = .idle) :
    Along (worldStep name) Orderly w (List.replicate n (.step x ok junk)) ∧
      ∀ w', run (worldStep name) w (List.replicate n (.step x ok junk)) = some w' →
        ∀ y, y ≠ x → w'.pc y = .idle := by
  induction n generalizing w with
  | zero => exact ⟨trivial, fun w' hrun => Option.some.inj hrun ▸ h⟩
  | succ n ih =>
      refine ⟨⟨orderly_of_alone h, fun u hu => (ih (alone_of_worldStep h hu)).1⟩, ?_⟩
      intro w' hrun
      obtain ⟨u, hu, hrest⟩ := run_cons_eq_some.mp hrun
      exact (ih (alone_of_worldStep h hu)).2 w' hrest

/-- A keyboard is exported; then `vkbd` is unloaded, and the walk tears the keyboard down. -/
def unloadActs : List (Act ℕ ℕ) :=
  .register 7 :: .exportStore 0 vinputKbd :: (List.replicate 6 (.step (.task 0) true none) ++
    .unregister 7 :: List.replicate 8 (.step (.client 7) true none))

theorem no_vdevice_outlives_type_unload :
    ∃ w, run (worldStep fun _ => vinputKbd) (World.init : World ℕ ℕ) unloadActs = some w ∧
      w.torn = [0] ∧ NoneOutlives w := by
  have hord : Along (worldStep fun _ => vinputKbd) Orderly (World.init : World ℕ ℕ)
      unloadActs := by
    refine ⟨trivial, fun t ht => ⟨trivial, fun u hu => ?_⟩⟩
    obtain rfl := Option.some.inj ht
    have hstart : ∀ y, y ≠ .task 0 → u.pc y = .idle := by
      intro y hy
      obtain rfl := Option.some.inj hu
      exact Function.update_of_ne hy _ _
    obtain ⟨halong, halone⟩ := along_orderly_of_alone 6 hstart
    refine halong.append fun v hv => ⟨trivial, fun z hz => ?_⟩
    have hidle : v.pc (.task 0) = .idle := by
      obtain rfl := Option.some.inj hu
      obtain rfl := Option.some.inj hv
      rfl
    refine (along_orderly_of_alone 8 fun y hy => ?_).1
    obtain ⟨-, rfl⟩ := worldStep_unregister hz
    show Function.update v.pc (.client 7) (.walkHead 7) y = .idle
    rw [Function.update_of_ne hy]
    by_cases hy0 : y = .task 0
    · rw [hy0, hidle]
    · exact halone v hv y hy0
  exact ⟨_, rfl, rfl, @no_vdevice_outlives_type ℕ ℕ _ _ _ _ unloadActs
    (by simp [unloadActs, Act.NoUnexport]) hord rfl⟩

/-- `export_store` has resolved its type when the whole of `vinput_unregister` runs. -/
def slipActs : List (Act ℕ ℕ) :=
  [.register 7, .exportStore 0 vinputKbd, .unregister 7, .step (.client 7) true none,
    .step (.client 7) true none] ++ List.replicate 6 (.step (.task 0) true none)

/-- **A vdevice of a type that is gone.**  Some interleavings of one export and one unregistration
leave a fully exported vdevice whose type is not registered any more. -/
theorem not_none_outlives :
    ¬∀ (acts : List (Act ℕ ℕ)) (w : World ℕ ℕ), (∀ a ∈ acts, a.NoUnexport) →
      run (worldStep fun _ => vinputKbd) World.init acts = some w → NoneOutlives w := by
  intro h
  have hrun : ∃ w, run (worldStep fun _ => vinputKbd) (World.init : World ℕ ℕ) slipActs = some w ∧
      w.pc (.client 7) = .idle ∧ w.registry.vinputDevices = [] ∧
      w.registry.vinputVdevices = [0] ∧ w.registry.typeOf 0 = some 7 :=
    ⟨_, rfl, rfl, rfl, rfl, rfl⟩
  obtain ⟨w, hrun, hidle, hdev, hlist, htype⟩ := hrun
  have hnone := (h slipActs w (by simp [slipActs, Act.NoUnexport]) hrun).1 7 hidle (by simp [hdev])
  exact hnone.1 0 (by simp [hlist]) htype

end Runs

end Lkmpg.VinputDriver
