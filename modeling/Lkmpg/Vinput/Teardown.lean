import Lkmpg.Vinput.Ownership
import Lkmpg.Vinput.RegistryRuns

/-!
# Teardown under concurrency

`export_store` inserts a vdevice in the list before it is complete, and `unexport_store` uses the
vdevice it found after it has dropped the lock.  `Clean` is the condition under which this is
harmless: a `vinput_unregister_vdevice` starts on a vdevice that is still listed and in the hands of
no other call.  `SoundTeardown` is what a teardown has to meet: the vdevice is fully constructed, it
is torn down for the first time, and its bit in `vinput_ids` is still its own.  `teardown_sound_iff`:
every teardown of a run is sound exactly if every teardown of the run is clean.
-/

namespace Lkmpg.VinputDriver

open Registry Transition

variable {δ ι : Type} {w : World δ ι} {x : Proc δ ι}

/-- No call builds or tears down `p`, and `p` is still listed. -/
def Unheld (w : World δ ι) (p : Ptr) : Prop :=
  p ∈ w.registry.vinputVdevices ∧ ∀ y, (w.pc y).holds ≠ some p

/-- `vinput_unregister_vdevice` takes over a listed vdevice that no other call has in hand. -/
def Clean (w : World δ ι) : Act δ ι → Prop
  | .step x _ _ => ∀ p k, w.pc x = .teardownInput p k → Unheld w p
  | _ => True

/-- `vinput_unregister_vdevice` runs on a fully constructed vdevice that was never torn down,
`device_unregister` on one whose type is set and whose device is registered, and
`vinput_destroy_vdevice` clears the bit of an id that no other listed vdevice has. -/
def SoundTeardown (w : World δ ι) : Act δ ι → Prop
  | .step x _ _ =>
      match w.pc x with
      | .teardownInput p _ => Whole w.registry w.torn p
      | .teardownDevice p _ =>
          ∃ d, AtStage w.registry w.torn p ⟨true, some .released, some d, true, true⟩
      | .destroy p _ =>
          p ∈ w.registry.vinputVdevices ∧
            ∀ q ∈ w.registry.vinputVdevices, w.registry.idOf q = w.registry.idOf p → q = p
      | _ => True
  | _ => True

/-! ### One step under the invariant -/

/-- The brk is in nobody's hands. -/
theorem Base.holds_ne_brk (hw : Base w) (y : Proc δ ι) :
    (w.pc y).holds ≠ some w.registry.brk := by
  intro h
  exact (hw.pcOk y).heap_ne_none h (hw.listed.fresh _ le_rfl)

/-- What the free vdevices are. -/
theorem Base.whole_of_unheld (hw : Base w) {p : Ptr} (hp : Unheld w p) :
    Whole w.registry w.torn p :=
  hw.free p (hw.listed.heap_ne_none hp.1) hp.2

theorem Base.unheld_of_whole (hw : Base w) {p : Ptr} (hp : Whole w.registry w.torn p) :
    Unheld w p := by
  refine ⟨?_, fun y hy => (hw.pcOk y).not_whole hy hp⟩
  obtain ⟨d, hd⟩ := hp
  exact hd.2.1.mpr rfl

/-- The stage of the vdevice in hand. -/
theorem Base.stage (hw : Base w) {pc : Pc δ} {p : Ptr} (hpc : w.pc x = pc)
    (hp : pc.holds = some p) : ∃ s, pc.Allows s ∧ AtStage w.registry w.torn p s :=
  (hpc ▸ hw.pcOk x) p hp

section Step

variable [DecidableEq δ] [DecidableEq ι]

/-- **Frame rule.**  A step of `x` that touches only the vdevice it holds keeps the invariant if the
vdevice is at a stage that fits the new program counter, or free and whole, or freed. -/
theorem Base.move (hw : Base w) {r' : Registry δ} {pc' : Pc δ} {torn' : List Ptr} {p : Ptr}
    (hlisted : Listed r') (hframe : Frame w.registry p r')
    (htorn : ∀ q, q ≠ p → (q ∈ torn' ↔ q ∈ w.torn)) (htornOld : ∀ q ∈ torn', q < r'.brk)
    (htornOnce : torn'.Nodup)
    (howner : ∀ y, y ≠ x → (w.pc y).holds ≠ some p)
    (hheld : ∀ q, (w.pc x).holds = some q → q = p)
    (hpc : PcOk r' torn' pc') (hholds : ∀ q, pc'.holds = some q → q = p)
    (hfree : pc'.holds = some p ∨ r'.heap p = none ∨ Whole r' torn' p) :
    Base (⟨r', Function.update w.pc x pc', torn'⟩ : World δ ι) := by
  have hself : Function.update w.pc x pc' x = pc' := Function.update_self _ _ _
  have hother : ∀ y, y ≠ x → Function.update w.pc x pc' y = w.pc y :=
    fun y h => Function.update_of_ne h _ _
  refine ⟨hlisted, fun y => ?_, fun y z q hy hz => ?_, fun q hq hun => ?_, htornOld, htornOnce⟩
  · show PcOk r' torn' (Function.update w.pc x pc' y)
    by_cases hyx : y = x
    · rw [hyx, hself]
      exact hpc
    · rw [hother y hyx]
      have hne : ∀ q, (w.pc y).holds = some q → q ≠ p := fun q hq h =>
        howner y hyx (h ▸ hq)
      exact (hw.pcOk y).congr (fun q hq => hframe.heap q (hne q hq))
        (fun q hq => hframe.list q (hne q hq)) (fun q hq => htorn q (hne q hq))
  · replace hy : (Function.update w.pc x pc' y).holds = some q := hy
    replace hz : (Function.update w.pc x pc' z).holds = some q := hz
    by_cases hyx : y = x <;> by_cases hzx : z = x
    · rw [hyx, hzx]
    · rw [hyx, hself] at hy
      rw [hother z hzx, hholds q hy] at hz
      exact absurd hz (howner z hzx)
    · rw [hzx, hself] at hz
      rw [hother y hyx, hholds q hz] at hy
      exact absurd hy (howner y hyx)
    · rw [hother y hyx] at hy
      rw [hother z hzx] at hz
      exact hw.excl y z q hy hz
  · replace hq : r'.heap q ≠ none := hq
    replace hun : ∀ y, (Function.update w.pc x pc' y).holds ≠ some q := hun
    show Whole r' torn' q
    by_cases hqp : q = p
    · subst hqp
      rcases hfree with hin | hnone | hwhole
      · exact absurd ((congrArg Pc.holds hself).trans hin) (hun x)
      · exact absurd hnone hq
      · exact hwhole
    · rw [hframe.heap q hqp] at hq
      have hun' : ∀ y, (w.pc y).holds ≠ some q := by
        intro y hy
        by_cases hyx : y = x
        · exact hqp (hheld q (hyx ▸ hy))
        · exact hun y (hother y hyx ▸ hy)
      obtain ⟨d, hd⟩ := hw.free q hq hun'
      exact ⟨d, hd.congr (hframe.heap q hqp) (hframe.list q hqp) (htorn q hqp)⟩

/-- The frame rule for a step that tears nothing down. -/
theorem Base.moveSame (hw : Base w) {r' : Registry δ} {pc' : Pc δ} {p : Ptr}
    (hlisted : Listed r') (hframe : Frame w.registry p r')
    (howner : ∀ y, y ≠ x → (w.pc y).holds ≠ some p)
    (hheld : ∀ q, (w.pc x).holds = some q → q = p)
    (hpc : PcOk r' w.torn pc') (hholds : ∀ q, pc'.holds = some q → q = p)
    (hfree : pc'.holds = some p ∨ r'.heap p = none ∨ Whole r' w.torn p) :
    Base (⟨r', Function.update w.pc x pc', w.torn⟩ : World δ ι) := by
  have htornOld : ∀ q ∈ w.torn, q < r'.brk := fun q hq => (hw.tornOld q hq).trans_le hframe.brk
  exact hw.move hlisted hframe (fun _ _ => Iff.rfl) htornOld hw.tornOnce howner hheld hpc hholds
    hfree

/-- A step of `x` that keeps its vdevice `p` in hand. -/
theorem Base.keep (hw : Base w) {r' : Registry δ} {pc' : Pc δ} {p : Ptr} {s : Stage δ}
    (hp : (w.pc x).holds = some p) (hlisted : Listed r') (hframe : Frame w.registry p r')
    (hp' : pc'.holds = some p) (hs : pc'.Allows s) (hstage : AtStage r' w.torn p s) :
    Base (⟨r', Function.update w.pc x pc', w.torn⟩ : World δ ι) := by
  refine hw.moveSame hlisted hframe (fun y hy h => hy (hw.excl y x p h hp))
    (fun q hq => Option.some.inj (hq.symm.trans hp)) ?_
    (fun q hq => Option.some.inj (hq.symm.trans hp')) (Or.inl hp')
  intro q hq
  obtain rfl : p = q := Option.some.inj (hp'.symm.trans hq)
  exact ⟨s, hs, hstage⟩

/-- A step of `x` that lets go of its vdevice `p`. -/
theorem Base.release (hw : Base w) {r' : Registry δ} {pc' : Pc δ} {p : Ptr}
    (hp : (w.pc x).holds = some p) (hlisted : Listed r') (hframe : Frame w.registry p r')
    (hp' : pc'.holds = none) (hfree : r'.heap p = none ∨ Whole r' w.torn p) :
    Base (⟨r', Function.update w.pc x pc', w.torn⟩ : World δ ι) :=
  hw.moveSame hlisted hframe (fun y hy h => hy (hw.excl y x p h hp))
    (fun q hq => Option.some.inj (hq.symm.trans hp)) (PcOk.of_holds_none hp')
    (fun q hq => by rw [hp'] at hq; cases hq) (Or.inr hfree)

/-- A step that touches no vdevice, of a call that holds none. -/
theorem Base.pass (hw : Base w) {r' : Registry δ} {pc' : Pc δ}
    (hp : (w.pc x).holds = none) (hp' : pc'.holds = none) (hlisted : Listed r')
    (hheap : r'.heap = w.registry.heap) (hlist : r'.vinputVdevices = w.registry.vinputVdevices)
    (hbrk : r'.brk = w.registry.brk) :
    Base (⟨r', Function.update w.pc x pc', w.torn⟩ : World δ ι) := by
  have hframe : Frame w.registry w.registry.brk r' :=
    ⟨fun q _ => congrFun hheap q, fun q _ => by rw [hlist], hbrk.ge⟩
  refine hw.moveSame hlisted hframe (fun y _ => hw.holds_ne_brk y)
    (fun q hq => by rw [hp] at hq; cases hq) (PcOk.of_holds_none hp')
    (fun q hq => by rw [hp'] at hq; cases hq) (Or.inr (Or.inl ?_))
  rw [hheap]
  exact hw.listed.fresh _ le_rfl

/-- The same with the registry unchanged. -/
theorem Base.goto (hw : Base w) {pc' : Pc δ} (hp : (w.pc x).holds = none)
    (hp' : pc'.holds = none) : Base (w.goto x w.registry pc') :=
  hw.pass hp hp' hw.listed rfl rfl rfl

/-- A vdevice that no call holds is taken over by a teardown. -/
theorem Base.takeOver (hw : Base w) {p : Ptr} {k : Caller δ} (hpc : w.pc x = .teardownInput p k)
    (hp : Unheld w p) :
    Base (⟨w.registry.setInput p .released, Function.update w.pc x (.teardownDevice p k),
      [p] ++ w.torn⟩ : World δ ι) := by
  obtain ⟨d, hd⟩ := hw.whole_of_unheld hp
  refine hw.move (hw.listed.modify p fun _ => rfl) (Frame.modify _ p _) ?_ ?_ ?_
    (fun y _ => hp.2 y) (fun q hq => ?_) ?_ (fun q hq => (Option.some.inj hq).symm) (Or.inl rfl)
  · intro q hq
    exact List.mem_cons.trans (or_iff_right hq)
  · intro q hq
    rcases List.mem_cons.mp hq with rfl | hq
    · exact hw.listed.lt_brk hp.1
    · exact hw.tornOld q hq
  · refine List.nodup_cons.mpr ⟨fun hq => ?_, hw.tornOnce⟩
    exact absurd (hd.2.2.mp hq) Bool.false_ne_true
  · rw [hpc] at hq
    cases hq
  · intro q hq
    obtain rfl : p = q := Option.some.inj hq
    exact ⟨_, ⟨d, rfl⟩, (hd.setInput .released).tear⟩

/-- **Step.**  A step that takes over no vdevice in the hands of another call keeps the
invariant. -/
theorem Base.step (hw : Base w) {ok : Bool} {junk : Option Ptr} {r' : Registry δ} {pc' : Pc δ}
    (hclean : ∀ p k, w.pc x = .teardownInput p k → Unheld w p)
    (h : pcStep w.registry ok junk (w.pc x) = some (r', pc')) :
    Base (⟨r', Function.update w.pc x pc', (w.pc x).tearsDown ++ w.torn⟩ : World δ ι) := by
  have hL := hw.listed
  have hheld : ∀ {pc : Pc δ}, w.pc x = pc → (w.pc x).holds = pc.holds := fun h => by rw [h]
  cases hpc : w.pc x with
  | idle => rw [hpc] at h; cases h
  | exportAlloc d =>
      rw [hpc, pcStep] at h
      split at h
      · cases h
        refine hw.moveSame hL.kzalloc (Frame.kzalloc _) (fun y _ => hw.holds_ne_brk y)
          (fun q hq => by rw [hpc] at hq; cases hq) (fun q hq => ?_)
          (fun q hq => (Option.some.inj hq).symm) (Or.inl rfl)
        obtain rfl : w.registry.brk = q := Option.some.inj hq
        exact ⟨_, rfl, AtStage.kzalloc hL hw.tornOld⟩
      · cases h
        exact hw.goto (hheld hpc) rfl
  | exportId d p =>
      obtain ⟨s, rfl, hs⟩ := hw.stage hpc rfl
      rw [hpc, pcStep] at h
      split at h
      · cases h
        exact hw.keep (hheld hpc) hL (Frame.refl _ p) rfl
          ⟨by simp, rfl⟩ hs
      · rename_i r₁ halloc
        cases h
        obtain ⟨hfree, rfl⟩ := allocId_ok halloc
        exact hw.keep (hheld hpc) (hL.link hfree hs.not_listed hs.heap_ne_none)
          (Frame.link _ p _) rfl rfl (hs.link _)
  | exportInput d p =>
      obtain ⟨s, rfl, hs⟩ := hw.stage hpc rfl
      rw [hpc, pcStep] at h
      split at h
      · cases h
        exact hw.keep (hheld hpc) (hL.modify p fun _ => rfl) (Frame.modify _ p _) rfl rfl
          (hs.setInput .allocated)
      · cases h
        exact hw.keep (hheld hpc) hL (Frame.refl _ p) rfl rfl hs
  | exportUnlist d p =>
      obtain ⟨s, rfl, hs⟩ := hw.stage hpc rfl
      rw [hpc] at h
      cases h
      exact hw.keep (hheld hpc) (hL.listDel p) (Frame.listDel hL p) rfl
        ⟨by simp, rfl⟩ (hs.listDel hL)
  | exportType d p =>
      obtain ⟨s, rfl, hs⟩ := hw.stage hpc rfl
      rw [hpc] at h
      cases h
      exact hw.keep (hheld hpc) (hL.modify p fun _ => rfl) (Frame.modify _ p _) rfl rfl
        (hs.setType d)
  | exportRegister d p =>
      obtain ⟨s, rfl, hs⟩ := hw.stage hpc rfl
      rw [hpc, pcStep] at h
      split at h
      · cases h
        exact hw.keep (hheld hpc) (hL.modify p fun _ => rfl) (Frame.modify _ p _) rfl rfl
          (hs.setDev true)
      · cases h
        exact hw.keep (hheld hpc) hL (Frame.refl _ p) rfl rfl hs
  | exportInit d p =>
      obtain ⟨s, rfl, hs⟩ := hw.stage hpc rfl
      rw [hpc, pcStep] at h
      split at h
      · cases h
        exact hw.release (hheld hpc) (hL.modify p fun _ => rfl) (Frame.modify _ p _) rfl
          (Or.inr ⟨d, hs.setInput .registered⟩)
      · cases h
        exact hw.keep (hheld hpc) hL (Frame.refl _ p) rfl rfl hs
  | exportFreeInput d p b =>
      obtain ⟨s, rfl, hs⟩ := hw.stage hpc rfl
      rw [hpc] at h
      cases h
      cases b with
      | true =>
          exact hw.keep (hheld hpc) (hL.modify p fun _ => rfl) (Frame.modify _ p _) rfl rfl
            (hs.setInput .released)
      | false =>
          exact hw.keep (hheld hpc) (hL.modify p fun _ => rfl) (Frame.modify _ p _) rfl
            ⟨d, false, rfl, rfl⟩ (hs.setInput .released)
  | exportUnregister d p =>
      obtain ⟨s, rfl, hs⟩ := hw.stage hpc rfl
      rw [hpc] at h
      cases h
      exact hw.keep (hheld hpc) (hL.modify p fun _ => rfl) (Frame.modify _ p _) rfl
        ⟨d, false, rfl, rfl⟩ (hs.setDev false)
  | teardownInput p k =>
      rw [hpc] at h
      cases h
      exact hw.takeOver hpc (hclean p k hpc)
  | teardownDevice p k =>
      obtain ⟨s, ⟨t, rfl⟩, hs⟩ := hw.stage hpc rfl
      rw [hpc] at h
      cases h
      exact hw.keep (hheld hpc) (hL.modify p fun _ => rfl) (Frame.modify _ p _) rfl
        ⟨t, true, trivial, rfl⟩ (hs.setDev false)
  | destroy p k =>
      obtain ⟨s, ⟨t, b, ht, rfl⟩, hs⟩ := hw.stage hpc rfl
      rw [hpc] at h
      cases h
      exact hw.keep (hheld hpc) (hL.unlink hs.listed) (Frame.unlink hL p) rfl
        ⟨by simp, rfl⟩ (hs.unlink hL)
  | kfree p k =>
      obtain ⟨s, ⟨_, hl⟩, hs⟩ := hw.stage hpc rfl
      rw [hpc] at h
      cases h
      exact hw.release (hheld hpc) (hL.kfree (hs.not_listed hl)) (Frame.kfree _ p)
        (After.holds_pc k) (Or.inl heap_kfree_self)
  | walkHead d =>
      rw [hpc] at h
      cases h
      exact hw.goto (hheld hpc) rfl
  | walkNext d c =>
      rw [hpc] at h
      cases c with
      | none =>
          cases h
          exact hw.goto (hheld hpc) rfl
      | some p =>
          cases h
          exact hw.goto (hheld hpc) rfl
  | walkTest d p n =>
      rw [hpc, pcStep] at h
      split at h <;> (cases h; exact hw.goto (hheld hpc) rfl)

end Step

/-! ### Runs -/

theorem base_init : Base (World.init : World δ ι) where
  listed := sound_init.toListed
  pcOk := fun _ => PcOk.of_holds_none rfl
  excl := fun _ _ _ h => by cases h
  free := fun _ h => absurd rfl h
  tornOld := fun _ h => by cases h
  tornOnce := List.nodup_nil

section Runs

variable [DecidableEq δ] [DecidableEq ι] {name : δ → List Byte}

theorem Base.of_worldStep {w' : World δ ι} {a : Act δ ι} (hw : Base w) (hclean : Clean w a)
    (h : worldStep name w a = some w') : Base w' := by
  cases a with
  | exportStore i buf =>
      obtain ⟨hidle, rfl | ⟨d, -, rfl⟩⟩ := worldStep_exportStore h
      · exact hw
      · exact hw.goto (by rw [hidle]; rfl) rfl
  | unexportStore i buf =>
      obtain ⟨hidle, rfl | ⟨p, rfl⟩⟩ := worldStep_unexportStore h
      · exact hw
      · exact hw.goto (by rw [hidle]; rfl) rfl
  | register d =>
      obtain ⟨⟨hidle, -⟩, rfl⟩ := worldStep_register h
      have hholds : (w.pc (.client d)).holds = none := by rw [hidle]; rfl
      have hpass : Base (⟨{ w.registry with vinputDevices := d :: w.registry.vinputDevices },
          Function.update w.pc (.client d) (w.pc (.client d)), w.torn⟩ : World δ ι) :=
        hw.pass hholds hholds (hw.listed.types _) rfl rfl rfl
      rw [Function.update_eq_self] at hpass
      exact hpass
  | unregister d =>
      obtain ⟨⟨hidle, -⟩, rfl⟩ := worldStep_unregister h
      exact hw.pass (by rw [hidle]; rfl) rfl (hw.listed.types _) rfl rfl rfl
  | step x ok junk =>
      obtain ⟨⟨r', pc'⟩, hnext, rfl⟩ := Option.map_eq_some_iff.mp h
      exact hw.step hclean hnext

omit [DecidableEq δ] [DecidableEq ι] in
/-- Under the invariant, clean and sound are the same. -/
theorem Base.clean_iff_sound (hw : Base w) (a : Act δ ι) : Clean w a ↔ SoundTeardown w a := by
  cases a with
  | step x ok junk =>
      cases hpc : w.pc x with
      | teardownInput p k =>
          simp only [Clean, SoundTeardown, hpc]
          constructor
          · intro h
            exact hw.whole_of_unheld (h p k rfl)
          · intro h q k' hq
            obtain ⟨rfl, _⟩ := Pc.teardownInput.inj hq
            exact hw.unheld_of_whole h
      | teardownDevice p k =>
          simp only [Clean, SoundTeardown, hpc]
          obtain ⟨s, ⟨t, rfl⟩, hs⟩ := hw.stage hpc rfl
          exact ⟨fun _ => ⟨t, hs⟩, fun _ => nofun⟩
      | destroy p k =>
          simp only [Clean, SoundTeardown, hpc]
          obtain ⟨s, ⟨t, b, _, rfl⟩, hs⟩ := hw.stage hpc rfl
          exact ⟨fun _ => ⟨hs.listed, fun q hq => hw.listed.inj q hq p hs.listed⟩, fun _ => nofun⟩
      | _ => simp [Clean, SoundTeardown, hpc]
  | _ => exact Iff.rfl

/-- **Teardown is sound exactly in the clean runs.**  In every interleaving of any number of calls,
each teardown runs on a fully constructed vdevice that was not torn down before, and clears the bit
of an id that no other vdevice has, if and only if each teardown takes over a listed vdevice that
no other call has in hand; then no vdevice is torn down twice. -/
theorem teardown_sound_iff (acts : List (Act δ ι)) :
    (Along (worldStep name) Clean World.init acts ↔
      Along (worldStep name) SoundTeardown World.init acts) ∧
    (Along (worldStep name) Clean World.init acts → ∀ w,
      run (worldStep name) World.init acts = some w → w.torn.Nodup) := by
  have hstep : ∀ (u : World δ ι) a u', Base u → Clean u a → worldStep name u a = some u' →
      Base u' := fun _ _ _ hu hclean h => hu.of_worldStep hclean h
  refine ⟨⟨fun h => ?_, fun h => ?_⟩, fun h w hrun => ?_⟩
  · exact along_of_invariant hstep (fun u a hu => (hu.clean_iff_sound a).mp) base_init h
  · exact along_of_invariant
      (fun u a u' hu hsound => hstep u a u' hu ((hu.clean_iff_sound a).mpr hsound))
      (fun u a hu => (hu.clean_iff_sound a).mpr) base_init h
  · exact (run_induction hstep base_init h hrun).tornOnce

end Runs

/-- `unexport_store` finds the vdevice after its `list_add` and before its type is set. -/
def halfBuiltActs : List (Act ℕ ℕ) :=
  [.register 7, .exportStore 0 vinputKbd, .step (.task 0) true none, .step (.task 0) true none,
    .unexportStore 1 [0x30]]

/-- **A teardown of a half-built vdevice.**  Some interleavings of one export and one unexport tear
down a vdevice whose type is still the null pointer. -/
theorem not_all_teardowns_sound :
    ¬∀ acts : List (Act ℕ ℕ),
      Along (worldStep fun _ => vinputKbd) SoundTeardown World.init acts := by
  intro h
  have hrun : ∃ w, run (worldStep fun _ => vinputKbd) (World.init : World ℕ ℕ) halfBuiltActs =
      some w ∧ w.pc (.task 1) = .teardownInput 0 .unexportStore ∧
        w.registry.heap 0 = some ⟨0, 0, none, none, false⟩ := ⟨_, rfl, rfl, rfl⟩
  obtain ⟨w, hrun, hpc, hheap⟩ := hrun
  have hsound := (h (halfBuiltActs ++ [.step (.task 1) true none])).last hrun
  simp only [SoundTeardown, hpc] at hsound
  obtain ⟨d, ⟨v, hv, hinput, _⟩, _⟩ := hsound
  rw [hheap] at hv
  rw [← Option.some.inj hv] at hinput
  cases hinput

end Lkmpg.VinputDriver
