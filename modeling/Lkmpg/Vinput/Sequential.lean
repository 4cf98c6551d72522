import Lkmpg.Vinput.Concurrent
import Lkmpg.Vinput.RegistryRuns

/-!
# Whole calls are runs of the interleaved driver

The whole functions of `Lkmpg.Vinput.Registry` and the interleaved machine of
`Lkmpg.Vinput.Concurrent` are two descriptions of the same code.  If a process runs a call from its
beginning to its end with nobody else running, the machine leaves the registry that the whole
function leaves (`callStep_runs`), so every sequence of whole calls is one of its interleavings
(`calls_run`).
-/

namespace Lkmpg.VinputDriver

open Registry Transition

variable {δ ι : Type} [DecidableEq δ] [DecidableEq ι] {name : δ → List Byte}

/-- From `w` the machine can get to a state in which the registry is `r` and process `x` is at `pc`,
with the other processes where they were. -/
def Gets (name : δ → List Byte) (w : World δ ι) (x : Proc δ ι) (r : Registry δ) (pc : Pc δ) : Prop :=
  ∃ acts w', run (worldStep name) w acts = some w' ∧ w'.registry = r ∧
    w'.pc = Function.update w.pc x pc

section Gets

variable {w : World δ ι} {x : Proc δ ι} {r r' : Registry δ} {pc pc' : Pc δ} {d : δ} {p : Ptr}

theorem Gets.of_act {act : Act δ ι} {w' : World δ ι} (h : worldStep name w act = some w')
    (hpc : w'.pc = Function.update w.pc x pc) : Gets name w x w'.registry pc :=
  ⟨[act], w', by rw [run_cons, h]; rfl, rfl, hpc⟩

/-- The next step of process `x`, with the answer of the kernel. -/
theorem Gets.step (h : Gets name w x r pc) (ok : Bool) (hstep : pcStep r ok none pc = some (r', pc')) :
    Gets name w x r' pc' := by
  obtain ⟨acts, w', hrun, rfl, hpc⟩ := h
  have hx : w'.pc x = pc := by rw [hpc, Function.update_self]
  refine ⟨acts ++ [.step x ok none],
    { w'.goto x r' pc' with torn := (w'.pc x).tearsDown ++ w'.torn }, run_trans hrun ?_, rfl, ?_⟩
  · rw [run_cons, worldStep, hx, hstep]
    rfl
  · show Function.update w'.pc x pc' = _
    rw [hpc, Function.update_idem]

/-- `vinput_destroy_vdevice` -/
theorem Gets.destroy {k : After δ} (h : Gets name w x r (.destroy p k)) :
    Gets name w x (r.vinputDestroyVdevice p) k.pc :=
  (h.step true rfl).step true rfl

/-- `vinput_unregister_vdevice` and `device_unregister` -/
theorem Gets.teardown {k : Caller δ} (h : Gets name w x r (.teardownInput p k)) :
    Gets name w x ((r.vinputUnregisterVdevice p).deviceUnregister p) (After.tornDown k).pc :=
  ((h.step true rfl).step true rfl).destroy

/-! ### `export_store` -/

/-- Where `export_store` is after `vinput_alloc_vdevice`. -/
def allocated (d : δ) : Except Errno Ptr → Pc δ
  | .error _ => .idle
  | .ok p => .exportType d p

/-- `vinput_alloc_vdevice` -/
theorem Gets.alloc (h : Gets name w x r (.exportAlloc d)) (o : Outcomes) :
    Gets name w x (r.vinputAllocVdevice o).2 (allocated d (r.vinputAllocVdevice o).1) := by
  rw [vinputAllocVdevice]
  cases hk : o.kzalloc with
  | false => exact h.step false rfl
  | true =>
      have hid : Gets name w x r.kzalloc (.exportId d r.brk) := h.step true rfl
      rw [if_neg (by decide)]
      cases hlink : r.kzalloc.allocId r.brk with
      | error e =>
          have hfree : Gets name w x r.kzalloc (.kfree r.brk (.exportFailed d)) :=
            hid.step true (by rw [pcStep, hlink])
          simp only [hlink]
          exact hfree.step true rfl
      | ok r₁ =>
          have hinput : Gets name w x r₁ (.exportInput d r.brk) :=
            hid.step true (by rw [pcStep, hlink])
          simp only [hlink]
          cases o.inputAllocateDevice with
          | true => exact hinput.step true rfl
          | false => exact ((hinput.step false rfl).step true rfl).step true rfl

/-- `export_store` after it has resolved the device. -/
theorem Gets.exportStore (h : Gets name w x r (.exportAlloc d)) {buf : List Byte}
    (hdevice : r.vinputGetDeviceByType name buf = .ok d) (o : Outcomes) (len : ℕ) :
    Gets name w x (r.exportStore name o buf len).2 .idle := by
  have halloc := h.alloc o
  rw [Registry.exportStore, hdevice]
  rcases halloc' : r.vinputAllocVdevice o with ⟨result, r₁⟩
  rw [halloc'] at halloc
  cases result with
  | error e => exact halloc
  | ok p =>
      have hregister : Gets name w x (r₁.setType p d) (.exportRegister d p) := halloc.step true rfl
      cases o.deviceRegister with
      | some e => exact ((hregister.step false rfl).step true rfl).destroy
      | none =>
          have hinit : Gets name w x ((r₁.setType p d).setDev p true) (.exportInit d p) :=
            hregister.step true rfl
          cases o.init with
          | some e => exact (((hinit.step false rfl).step true rfl).step true rfl).destroy
          | none => exact hinit.step true rfl

/-! ### `vinput_unregister` -/

/-- The loop of `vinput_unregister`, from a cursor on. -/
theorem Gets.unregisterLoop {ps : List Ptr} (hr : Sound r) (hps : ps.Nodup)
    (hrest : ListCursor.rest r.vinputVdevices ps.head? = ps)
    (h : Gets name w x r (.walkNext d ps.head?)) :
    Gets name w x (unregisterLoop d ps r) .idle := by
  induction ps generalizing r with
  | nil => exact h.step true rfl
  | cons p ps ih =>
      obtain ⟨hp, hps⟩ := List.nodup_cons.mp hps
      have hmem : p ∈ r.vinputVdevices :=
        ListCursor.mem_of_mem_rest (hrest.symm ▸ List.mem_cons_self)
      have hcut := ListCursor.rest_eq_cons hr.nodup hmem
      rw [List.head?_cons] at hrest
      have hnext : ListCursor.next r.vinputVdevices p = ps.head? := by
        rw [ListCursor.next, hrest]
        rfl
      rw [hrest, hnext] at hcut
      have hps' : ListCursor.rest r.vinputVdevices ps.head? = ps := (List.cons.inj hcut).2.symm
      have htest : Gets name w x r (.walkTest d p ps.head?) :=
        h.step true (by rw [List.head?_cons, pcStep, if_pos hmem, hnext])
      obtain ⟨k, hk, -⟩ := hr.hasId p hmem
      obtain ⟨v, hv, -⟩ := Option.map_eq_some_iff.mp hk
      have htype : r.typeOf p = v.type := by rw [typeOf, hv]; rfl
      rw [Registry.unregisterLoop, htype]
      by_cases hd : v.type = some d
      · have htear : Gets name w x r (.teardownInput p (.vinputUnregister d ps.head?)) :=
          htest.step true (by rw [pcStep, hv]; exact if_pos (decide_eq_true hd))
        rw [if_pos hd]
        have hdone := htear.teardown
        rw [teardown_eq] at hdone ⊢
        refine ih (hr.vinputDestroyVdevice hmem) hps ?_ hdone
        show ListCursor.rest (r.vinputVdevices.erase p) ps.head? = ps
        rw [ListCursor.rest_erase hr.nodup, hps', List.erase_of_not_mem hp]
        intro hhead
        exact hp (List.mem_of_mem_head? hhead)
      · rw [if_neg hd]
        have hkeep : Gets name w x r (.walkNext d ps.head?) :=
          htest.step true (by rw [pcStep, hv]; exact if_neg fun h => hd (of_decide_eq_true h))
        exact ih hr hps hps' hkeep

end Gets

/-! ### Whole calls -/

/-- The process that makes a call: a task, or the module of the device. -/
def Call.proc (i : ι) : Call δ → Proc δ ι
  | .register d => .client d
  | .unregister d => .client d
  | .exportStore _ _ _ => .task i
  | .unexportStore _ _ => .task i

/-- **A whole call is a run.**  The process of a call, running alone from the beginning of the call
to its end, leaves the registry that the whole function leaves. -/
theorem callStep_runs {w : World δ ι} {c : Call δ} {r' : Registry δ} (i : ι)
    (hr : Sound w.registry) (hidle : w.pc (c.proc i) = .idle)
    (h : callStep name w.registry c = some r') : Gets name w (c.proc i) r' .idle := by
  have hsame : w.pc = Function.update w.pc (c.proc i) .idle := by
    rw [← hidle, Function.update_eq_self]
  cases c with
  | register d =>
      simp only [callStep] at h
      split at h
      · cases h
      · rename_i hd
        obtain rfl := Option.some.inj h
        exact Gets.of_act
          (show worldStep name w (.register d) = some _ from if_pos ⟨hidle, hd⟩) hsame
  | unregister d =>
      simp only [callStep] at h
      split at h
      · rename_i hd
        obtain rfl := Option.some.inj h
        have hstart := Gets.of_act (x := .client d)
          (show worldStep name w (.unregister d) = some _ from if_pos ⟨hidle, hd⟩) rfl
        exact Gets.unregisterLoop (hr.of_devices _) hr.nodup (ListCursor.rest_head? _)
          (hstart.step true rfl)
      · cases h
  | exportStore o buf len =>
      obtain rfl := Option.some.inj h
      cases hdevice : w.registry.vinputGetDeviceByType name buf with
      | error e =>
          rw [Registry.exportStore, hdevice]
          exact Gets.of_act (worldStep_exportStore_error hidle hdevice) hsame
      | ok d =>
          have hact := worldStep_exportStore_eq hidle hdevice
          exact (Gets.of_act (x := .task i) hact rfl).exportStore hdevice o len
  | unexportStore buf len =>
      obtain rfl := Option.some.inj h
      rw [Registry.unexportStore]
      cases hid : CString.kstrtol buf with
      | error e => exact Gets.of_act (worldStep_unexportStore_text hidle hid) hsame
      | ok id =>
          cases hget : w.registry.vinputGetVdeviceById id with
          | error e =>
              simp only [hget]
              exact Gets.of_act (worldStep_unexportStore_id hidle hid hget) hsame
          | ok p =>
              simp only [hget]
              have hact : worldStep name w (.unexportStore i buf) = some _ :=
                worldStep_unexportStore_eq hidle hid hget
              exact (Gets.of_act (x := .task i) hact rfl).teardown

/-- The interleaved machine can have this registry with no call under way. -/
def Reached (name : δ → List Byte) (ι : Type) [DecidableEq ι] (r : Registry δ) : Prop :=
  ∃ acts w, run (worldStep name) (World.init : World δ ι) acts = some w ∧ w.registry = r ∧
    ∀ x, w.pc x = .idle

/-- **Whole calls are interleavings.**  Every run of whole calls from module load is a run of the
interleaved machine, with the same registry at its end and no call under way. -/
theorem calls_run [Inhabited ι] {calls : List (Call δ)} {r : Registry δ}
    (hrun : run (callStep name) Registry.init calls = some r) : Reached name ι r := by
  have hstep : ∀ u c v, Sound u ∧ Reached name ι u → callStep name u c = some v →
      Sound v ∧ Reached name ι v := by
    rintro u c v ⟨hsound, acts, w, hacts, rfl, hidle⟩ h
    obtain ⟨acts', w', hacts', hreg, hpc⟩ := callStep_runs default hsound (hidle _) h
    refine ⟨hsound.of_callStep h, acts ++ acts', w', run_trans hacts hacts', hreg, fun x => ?_⟩
    rw [hpc, ← hidle (c.proc default), Function.update_eq_self, hidle, hidle]
  exact (run_invariant hstep ⟨sound_init, [], World.init, rfl, rfl, fun _ => rfl⟩ hrun).2

end Lkmpg.VinputDriver
