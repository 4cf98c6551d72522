import Lkmpg.Vinput.RegistryMap

/-!
# Runs of completed registry calls

Every call is one of the elementary changes, so the representation invariant holds after any number
of calls: `Sound` whatever the kernel answers, `WellFormed` if its allocations and registrations
succeed.  `RefinesMap` spells out what the calls then do to the map the registry stands for.
-/

namespace Lkmpg.VinputDriver

open Registry

variable {δ : Type} {name : δ → List Byte} {r r' : Registry δ}

/-- The kernel refuses nothing to this call. -/
def Call.Succeeds : Call δ → Prop
  | .exportStore o _ _ => o = .success
  | _ => True

theorem sound_init : Sound (Registry.init : Registry δ) := by
  refine ⟨⟨List.nodup_nil, ?_, ?_, ?_, fun _ _ => rfl⟩, ?_⟩ <;> simp [Registry.init]

theorem wellFormed_init : WellFormed (Registry.init : Registry δ) := by
  refine ⟨sound_init, fun k hk => ?_⟩
  simp [Registry.init] at hk

/-! ### What `export_store` does when the kernel refuses nothing -/

theorem exportStore_unknown {o : Outcomes} {buf : List Byte} {len : ℕ} {e : Errno}
    (h : r.vinputGetDeviceByType name buf = .error e) :
    r.exportStore name o buf len = (.error e, r) := by
  rw [exportStore_eq, h]

theorem exportStore_full {buf : List Byte} {len : ℕ} {d : δ}
    (h : r.vinputGetDeviceByType name buf = .ok d)
    (hid : vinputMinors ≤ Bitmap.findFirstZeroBit r.vinputIds) :
    r.exportStore name .success buf len = (.error .ENOBUFS, r.skip) := by
  rw [exportStore_eq, h]
  simp [Outcomes.success, hid]

theorem exportStore_added {buf : List Byte} {len : ℕ} {d : δ}
    (h : r.vinputGetDeviceByType name buf = .ok d)
    (hid : Bitmap.findFirstZeroBit r.vinputIds < vinputMinors) :
    r.exportStore name .success buf len = (.ok len, r.add d) := by
  rw [exportStore_eq, h]
  simp [Outcomes.success, not_le.mpr hid]

/-- The id handed out is the least one not in use. -/
theorem Registry.WellFormed.isLeastFree (hr : WellFormed r)
    (hid : Bitmap.findFirstZeroBit r.vinputIds < vinputMinors) :
    r.toMap.IsLeastFree ⟨Bitmap.findFirstZeroBit r.vinputIds, hid⟩ := by
  constructor
  · by_contra hne
    obtain ⟨p, hp, hpid⟩ := (toMap_ne_none_iff hr.toSound _).mp hne
    exact hr.toSound.idOf_ne_findFirstZeroBit hid hp hpid
  · intro j hj
    exact (toMap_ne_none_iff hr.toSound j).mpr
      (hr.exact j (Bitmap.getLsbD_of_lt_findFirstZeroBit hj))

/-- The bitmap is full exactly when the map is. -/
theorem Registry.WellFormed.full_iff (hr : WellFormed r) :
    vinputMinors ≤ Bitmap.findFirstZeroBit r.vinputIds ↔ r.toMap.used.card = vinputMinors := by
  rw [SlotMap.card_used_eq_iff, Bitmap.le_findFirstZeroBit_iff]
  constructor
  · intro h k
    exact (toMap_ne_none_iff hr.toSound k).mpr (hr.exact k (h k k.isLt))
  · intro h k hk
    obtain ⟨p, hp, hpid⟩ := (toMap_ne_none_iff hr.toSound ⟨k, hk⟩).mp (h ⟨k, hk⟩)
    exact hr.bit p hp k hpid

/-- Whatever the kernel answers, `export_store` leaves no trace, or an allocation that was freed
again, or a bit without a vdevice, or a new vdevice. -/
theorem exportStore_cases (name : δ → List Byte) (r : Registry δ) (o : Outcomes) (buf : List Byte)
    (len : ℕ) :
    (r.exportStore name o buf len).2 = r ∨ (r.exportStore name o buf len).2 = r.skip ∨
      (r.exportStore name o buf len).2 = r.leak ∨
      ∃ d, Bitmap.findFirstZeroBit r.vinputIds < vinputMinors ∧
        (r.exportStore name o buf len).2 = r.add d := by
  rw [exportStore_eq]
  cases r.vinputGetDeviceByType name buf with
  | error e => exact Or.inl rfl
  | ok d =>
      by_cases hk : o.kzalloc = false
      · simp [hk]
      · by_cases hid : vinputMinors ≤ Bitmap.findFirstZeroBit r.vinputIds
        · simp [hk, hid]
        · by_cases hi : o.inputAllocateDevice = false
          · simp [hk, hid, hi]
          · cases o.deviceRegister with
            | some e => simp [hk, hid, hi]
            | none =>
                cases o.init with
                | some e => simp [hk, hid, hi]
                | none => exact Or.inr (Or.inr (Or.inr ⟨d, not_le.mp hid, by simp [hk, hid, hi]⟩))

/-! ### `unexport_store` -/

/-- `unexport_store` destroys at most the vdevice it looks up. -/
theorem unexportStore_snd (buf : List Byte) (len : ℕ) :
    (r.unexportStore buf len).2 =
      (match CString.kstrtol buf with
        | .error _ => r
        | .ok id => match r.vinputGetVdeviceById id with
          | .error _ => r
          | .ok p => r.vinputDestroyVdevice p) := by
  unfold unexportStore
  cases CString.kstrtol buf with
  | error e => rfl
  | ok id =>
      cases hget : r.vinputGetVdeviceById id with
      | error e => simp only [hget]
      | ok p => simp only [hget, teardown_eq]

theorem unexportStore_cases (r : Registry δ) (buf : List Byte) (len : ℕ) :
    (r.unexportStore buf len).2 = r ∨ ∃ p ∈ r.vinputVdevices,
      (r.unexportStore buf len).2 = r.vinputDestroyVdevice p := by
  rw [unexportStore_snd]
  cases CString.kstrtol buf with
  | error e => exact Or.inl rfl
  | ok id =>
      cases hget : r.vinputGetVdeviceById id with
      | error e => exact Or.inl (by simp only [hget])
      | ok p => exact Or.inr ⟨p, (vinputGetVdeviceById_ok hget).1, by simp only [hget]⟩

/-- What a destroyed vdevice does not break holds after the call. -/
theorem unexportStore_preserves {P : Registry δ → Prop} (buf : List Byte) (len : ℕ) (hr : P r)
    (hdestroy : ∀ p ∈ r.vinputVdevices, P (r.vinputDestroyVdevice p)) :
    P (r.unexportStore buf len).2 := by
  rcases unexportStore_cases r buf len with hsame | ⟨p, hp, hx⟩
  · rw [hsame]
    exact hr
  · rw [hx]
    exact hdestroy p hp

theorem Registry.WellFormed.toMap_unexportStore (hr : WellFormed r) {buf : List Byte} {len : ℕ}
    {k : Fin vinputMinors} (hnum : CString.kstrtol buf = .ok (k.val : ℤ)) (hk : r.toMap k ≠ none) :
    (r.unexportStore buf len).1 = .ok len ∧
      (r.unexportStore buf len).2.toMap = Function.update r.toMap k none := by
  obtain ⟨d, hd⟩ := Option.ne_none_iff_exists'.mp hk
  obtain ⟨p, hp, hget, hid, _⟩ := hr.toSound.lookup_mem hd
  have heq : r.unexportStore buf len = (.ok len, r.vinputDestroyVdevice p) := by
    simp only [unexportStore, hnum, hget, teardown_eq]
  rw [heq]
  exact ⟨rfl, hr.toSound.toMap_vinputDestroyVdevice hp hid⟩

theorem Registry.WellFormed.unexportStore_not_mem (hr : WellFormed r) {buf : List Byte} {len : ℕ}
    (h : ∀ k : Fin vinputMinors, CString.kstrtol buf = .ok (k.val : ℤ) → r.toMap k = none) :
    ∃ e, r.unexportStore buf len = (.error e, r) := by
  cases hnum : CString.kstrtol buf with
  | error e => exact ⟨.EINVAL, by simp only [unexportStore, hnum]⟩
  | ok id =>
      have hget := hr.toSound.lookup_not_mem fun k hk => h k (hk ▸ hnum)
      exact ⟨.ENODEV, by simp only [unexportStore, hnum, hget]⟩

/-! ### The invariant over runs -/

variable [DecidableEq δ]

theorem callStep_register {d : δ} (h : callStep name r (.register d) = some r') :
    r' = r.vinputRegister d := by
  simp only [callStep] at h
  split at h
  · cases h
  · exact (Option.some.inj h).symm

theorem callStep_unregister {d : δ} (h : callStep name r (.unregister d) = some r') :
    r' = r.vinputUnregister d := by
  simp only [callStep] at h
  split at h
  · exact (Option.some.inj h).symm
  · cases h

theorem Registry.Sound.of_callStep {c : Call δ} (hr : Sound r) (h : callStep name r c = some r') :
    Sound r' := by
  cases c with
  | register d => exact callStep_register h ▸ hr.of_devices _
  | unregister d => exact callStep_unregister h ▸ hr.vinputUnregister
  | exportStore o buf len =>
      have h' : (r.exportStore name o buf len).2 = r' := Option.some.inj h
      rw [← h']
      rcases exportStore_cases name r o buf len with hx | hx | hx | ⟨d, hid, hx⟩
      · rwa [hx]
      · rw [hx]; exact hr.skip
      · rw [hx]; exact hr.leak
      · rw [hx]; exact hr.add hid
  | unexportStore buf len =>
      exact Option.some.inj h ▸
        unexportStore_preserves buf len hr fun p hp => hr.vinputDestroyVdevice hp

theorem Registry.WellFormed.of_callStep {c : Call δ} (hr : WellFormed r) (hc : c.Succeeds)
    (h : callStep name r c = some r') : WellFormed r' := by
  cases c with
  | register d => exact callStep_register h ▸ hr.of_devices _
  | unregister d => exact callStep_unregister h ▸ hr.vinputUnregister
  | exportStore o buf len =>
      simp only [Call.Succeeds] at hc
      subst hc
      have h' : (r.exportStore name .success buf len).2 = r' := Option.some.inj h
      cases hlook : r.vinputGetDeviceByType name buf with
      | error e => exact (exportStore_unknown hlook ▸ h') ▸ hr
      | ok d =>
          by_cases hid : vinputMinors ≤ Bitmap.findFirstZeroBit r.vinputIds
          · exact (exportStore_full hlook hid ▸ h') ▸ hr.skip
          · have hid' := not_le.mp hid
            exact (exportStore_added hlook hid' ▸ h') ▸ hr.add hid'
  | unexportStore buf len =>
      exact Option.some.inj h ▸
        unexportStore_preserves buf len hr fun p hp => hr.vinputDestroyVdevice hp

theorem wellFormed_of_run {calls : List (Call δ)} (hc : ∀ c ∈ calls, c.Succeeds)
    (h : Transition.run (callStep name) Registry.init calls = some r) : WellFormed r :=
  Transition.run_induction (fun _ _ _ hs hC hstep => hs.of_callStep hC hstep) wellFormed_init
    (Transition.Along.of_forall hc) h

/-! ### The calls as operations on the map -/

/-- What holds of a registry and of the calls made on it: the registry stands for a finite map from
ids to device types, and each call is the operation on that map. -/
structure RefinesMap (name : δ → List Byte) (r : Registry δ) : Prop where
  ids_nodup : r.ids.Nodup
  mem_ids : ∀ k, k ∈ r.ids ↔ r.vinputIds.getLsbD k = true
  entry : ∀ (k : Fin vinputMinors) d, r.toMap k = some d ↔
    ∃ p ∈ r.vinputVdevices, r.idOf p = some k.val ∧ r.typeOf p = some d
  dom : ∀ k : Fin vinputMinors, r.toMap k ≠ none ↔ k.val ∈ r.ids
  register : ∀ d, (r.vinputRegister d).toMap = r.toMap
  unregister : ∀ d, (r.vinputUnregister d).toMap = r.toMap.restrict fun e => e ≠ d
  export_unknown : ∀ buf len e, r.vinputGetDeviceByType name buf = .error e →
    r.exportStore name .success buf len = (.error e, r)
  export_full : ∀ buf len d, r.vinputGetDeviceByType name buf = .ok d →
    ((r.exportStore name .success buf len).1 = .error .ENOBUFS ↔ r.toMap.used.card = vinputMinors) ∧
    ((r.exportStore name .success buf len).1 = .error .ENOBUFS →
      (r.exportStore name .success buf len).2.toMap = r.toMap)
  export_added : ∀ buf len d, r.vinputGetDeviceByType name buf = .ok d →
    r.toMap.used.card ≠ vinputMinors → ∃ k, r.toMap.IsLeastFree k ∧
      (r.exportStore name .success buf len).1 = .ok len ∧
      (r.exportStore name .success buf len).2.toMap = Function.update r.toMap k (some d)
  unexport_mem : ∀ buf len (k : Fin vinputMinors), CString.kstrtol buf = .ok (k.val : ℤ) →
    r.toMap k ≠ none → (r.unexportStore buf len).1 = .ok len ∧
      (r.unexportStore buf len).2.toMap = Function.update r.toMap k none
  unexport_not_mem : ∀ buf len,
    (∀ k : Fin vinputMinors, CString.kstrtol buf = .ok (k.val : ℤ) → r.toMap k = none) →
    ∃ e, r.unexportStore buf len = (.error e, r)
  lookup_mem : ∀ (k : Fin vinputMinors) d, r.toMap k = some d → ∃ p ∈ r.vinputVdevices,
    r.vinputGetVdeviceById k.val = .ok p ∧ r.idOf p = some k.val ∧ r.typeOf p = some d
  lookup_not_mem : ∀ id : ℤ, (∀ k : Fin vinputMinors, id = k.val → r.toMap k = none) →
    r.vinputGetVdeviceById id = .error .ENODEV

theorem Registry.WellFormed.refinesMap (hr : WellFormed r) : RefinesMap name r where
  ids_nodup := hr.toSound.ids_nodup
  mem_ids k := by
    rw [Registry.mem_ids]
    exact ⟨fun ⟨p, hp, hid⟩ => hr.bit p hp k hid, hr.exact k⟩
  entry k d := toMap_eq_some_iff hr.toSound k d
  dom k := (toMap_ne_none_iff hr.toSound k).trans Registry.mem_ids.symm
  register _ := rfl
  unregister _ := hr.toSound.toMap_vinputUnregister
  export_unknown _ _ _ h := exportStore_unknown h
  export_full buf len d h := by
    by_cases hid : vinputMinors ≤ Bitmap.findFirstZeroBit r.vinputIds
    · rw [exportStore_full h hid]
      exact ⟨by simp [hr.full_iff.mp hid], fun _ => hr.toSound.toMap_skip⟩
    · rw [exportStore_added h (not_le.mp hid)]
      exact ⟨by simp [mt hr.full_iff.mpr hid], fun hcontra => by cases hcontra⟩
  export_added buf len d h hcard := by
    have hid := not_le.mp (mt hr.full_iff.mp hcard)
    refine ⟨⟨_, hid⟩, hr.isLeastFree hid, ?_, ?_⟩
    · rw [exportStore_added h hid]
    · rw [exportStore_added h hid]
      exact hr.toSound.toMap_add hid
  unexport_mem _ _ _ hnum hk := hr.toMap_unexportStore hnum hk
  unexport_not_mem _ _ h := hr.unexportStore_not_mem h
  lookup_mem _ _ h := hr.toSound.lookup_mem h
  lookup_not_mem _ h := hr.toSound.lookup_not_mem h

/-- **The registry refines a finite map** after every sequence of completed calls. -/
theorem registry_refines_map {calls : List (Call δ)} (hc : ∀ c ∈ calls, c.Succeeds)
    (h : Transition.run (callStep name) Registry.init calls = some r) : RefinesMap name r :=
  (wellFormed_of_run hc h).refinesMap

/-- `VINPUT_KBD`, the name under which `vkbd.c` registers. -/
def vinputKbd : List Byte := [0x76, 0x6b, 0x62, 0x64]

def vkbdCalls : List (Call ℕ) :=
  [.register 7, .exportStore .success vinputKbd 4, .exportStore .success vinputKbd 4,
    .unexportStore [0x30, 0x0a] 2]

/-- Two keyboards are exported and the first is unexported again: id 1 is left. -/
theorem registry_refines_map_vkbd :
    ∃ r, Transition.run (callStep fun _ => vinputKbd) Registry.init vkbdCalls = some r ∧
      r.ids = [1] ∧ RefinesMap (fun _ => vinputKbd) r :=
  ⟨_, rfl, by decide,
    @registry_refines_map ℕ _ _ _ vkbdCalls (by simp [vkbdCalls, Call.Succeeds]) rfl⟩

end Lkmpg.VinputDriver
