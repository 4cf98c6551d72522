import Lkmpg.Vinput.RegistryRuns

/-!
# What a failed export leaves behind

`export_store` can fail at six points.  At five of them what has been done is undone: `skip` is an
allocation that was freed again, and neither the bitmap nor the list differs.  The path
`fail_input_dev` takes the vdevice off the list and frees it, but leaves the bit of its id set; no
other code ever clears that bit, so the id is lost.  `vinput_destroy_vdevice` clears it on every
other path.
-/

namespace Lkmpg.VinputDriver

open Registry Transition

variable {δ : Type} {name : δ → List Byte} {r r' : Registry δ}

/-- `input_allocate_device` fails in this export, with an id already taken: the type is known, the
vdevice is allocated and there is a free id. -/
def LosesId (name : δ → List Byte) (r : Registry δ) (o : Outcomes) (buf : List Byte) : Prop :=
  (∃ d, r.vinputGetDeviceByType name buf = .ok d) ∧ o.kzalloc = true ∧
    Bitmap.findFirstZeroBit r.vinputIds < vinputMinors ∧ o.inputAllocateDevice = false

/-- An export that fails leaves the bitmap and the list as they were, and one that is refused for
want of an id finds 32 vdevices in the list. -/
def FailureHarmless (name : δ → List Byte) (r : Registry δ) : Call δ → Prop
  | .exportStore o buf len => ∀ e, (r.exportStore name o buf len).1 = .error e →
      (r.exportStore name o buf len).2.vinputIds = r.vinputIds ∧
      (r.exportStore name o buf len).2.vinputVdevices = r.vinputVdevices ∧
      (e = .ENOBUFS → o.deviceRegister ≠ some .ENOBUFS → o.init ≠ some .ENOBUFS →
        r.vinputVdevices.length = vinputMinors)
  | _ => True

/-- The call loses no id. -/
def KeepsId (name : δ → List Byte) (r : Registry δ) : Call δ → Prop
  | .exportStore o buf _ => ¬LosesId name r o buf
  | _ => True

/-! ### One call -/

theorem exportStore_losesId {o : Outcomes} {buf : List Byte} {len : ℕ} (h : LosesId name r o buf) :
    r.exportStore name o buf len = (.error .ENOMEM, r.leak) := by
  obtain ⟨⟨d, hd⟩, hk, hid, hi⟩ := h
  rw [exportStore_eq, hd]
  simp [hk, not_le.mpr hid, hi]

/-- The bit that is left set was clear. -/
theorem Registry.vinputIds_leak_ne
    (hid : Bitmap.findFirstZeroBit r.vinputIds < vinputMinors) :
    r.leak.vinputIds ≠ r.vinputIds := by
  intro h
  have hset : r.leak.vinputIds.getLsbD (Bitmap.findFirstZeroBit r.vinputIds) = true := by
    show (Bitmap.setBit r.vinputIds _).getLsbD _ = true
    rw [Bitmap.getLsbD_setBit]
    simp [hid]
  rw [h, Bitmap.getLsbD_findFirstZeroBit hid] at hset
  cases hset

/-- **Export.**  An export that loses no id leaves the registry as it was, but for memory, or adds a
vdevice; and it fails with `-ENOBUFS` of its own only when no id is free. -/
theorem exportStore_keepsId {o : Outcomes} {buf : List Byte} (len : ℕ)
    (h : ¬LosesId name r o buf) :
    ((∃ e, (r.exportStore name o buf len).1 = .error e ∧
        (e = .ENOBUFS → o.deviceRegister ≠ some .ENOBUFS → o.init ≠ some .ENOBUFS →
          vinputMinors ≤ Bitmap.findFirstZeroBit r.vinputIds)) ∧
      ((r.exportStore name o buf len).2 = r ∨ (r.exportStore name o buf len).2 = r.skip)) ∨
    ∃ d, Bitmap.findFirstZeroBit r.vinputIds < vinputMinors ∧
      r.exportStore name o buf len = (.ok len, r.add d) := by
  rw [exportStore_eq]
  cases hlook : r.vinputGetDeviceByType name buf with
  | error e =>
      refine Or.inl ⟨⟨e, rfl, fun he => ?_⟩, Or.inl rfl⟩
      -- the lookup fails only with `-ENODEV`
      rw [vinputGetDeviceByType] at hlook
      split at hlook
      · cases hlook
      · rw [he] at hlook
        cases hlook
  | ok d =>
      by_cases hk : o.kzalloc = false
      · refine Or.inl ⟨⟨.ENOMEM, ?_, nofun⟩, Or.inl ?_⟩ <;> simp [hk]
      · by_cases hid : vinputMinors ≤ Bitmap.findFirstZeroBit r.vinputIds
        · refine Or.inl ⟨⟨.ENOBUFS, ?_, fun _ _ _ => hid⟩, Or.inr ?_⟩ <;> simp [hk, hid]
        · have hi : ¬o.inputAllocateDevice = false := fun hi =>
            h ⟨⟨d, hlook⟩, Bool.not_eq_false _ |>.mp hk, not_le.mp hid, hi⟩
          cases hreg : o.deviceRegister with
          | some e =>
              refine Or.inl ⟨⟨e, ?_, fun he hne => absurd (congrArg some he) hne⟩, Or.inr ?_⟩ <;>
                simp [hk, hid, hi]
          | none =>
              cases hinit : o.init with
              | some e =>
                  refine Or.inl ⟨⟨e, ?_, fun he _ hne => absurd (congrArg some he) hne⟩, Or.inr ?_⟩ <;>
                    simp [hk, hid, hi]
              | none => exact Or.inr ⟨d, not_le.mp hid, by simp [hk, hid, hi]⟩

/-- If no id is free, 32 vdevices are listed. -/
theorem Registry.WellFormed.length_eq (hr : WellFormed r)
    (hfull : vinputMinors ≤ Bitmap.findFirstZeroBit r.vinputIds) :
    r.vinputVdevices.length = vinputMinors := by
  have hmem : ∀ k, k ∈ r.ids ↔ k ∈ List.range vinputMinors := by
    intro k
    rw [mem_ids, List.mem_range]
    constructor
    · rintro ⟨p, hp, hid⟩
      obtain ⟨l, hl, hlt⟩ := hr.hasId p hp
      obtain rfl := Option.some.inj (hid.symm.trans hl)
      exact hlt
    · intro hk
      exact hr.exact k ((Bitmap.le_findFirstZeroBit_iff _).mp hfull k hk)
  have hids : r.ids.length = vinputMinors := by
    have hperm := (List.perm_ext_iff_of_nodup hr.toSound.ids_nodup List.nodup_range).mpr hmem
    rw [hperm.length_eq, List.length_range]
  rw [← hids, ids, eq_comm, List.filterMap_length_eq_length]
  intro p hp
  obtain ⟨k, hk, -⟩ := hr.hasId p hp
  rw [hk]
  rfl

/-- **Exact condition of a call.** -/
theorem Registry.WellFormed.failureHarmless_call {c : Call δ} (hr : WellFormed r) :
    FailureHarmless name r c ↔ KeepsId name r c := by
  cases c with
  | exportStore o buf len =>
      constructor
      · intro h hloses
        have hexport : r.exportStore name o buf len = (.error .ENOMEM, r.leak) :=
          exportStore_losesId hloses
        have hids := (h .ENOMEM (by rw [hexport])).1
        rw [hexport] at hids
        exact vinputIds_leak_ne hloses.2.2.1 hids
      · intro h e he
        obtain ⟨⟨e', he', hfull⟩, hstate⟩ | ⟨d, -, hok⟩ := exportStore_keepsId len h
        · obtain rfl := Except.error.inj (he'.symm.trans he)
          have hkept : (r.exportStore name o buf len).2.vinputIds = r.vinputIds ∧
              (r.exportStore name o buf len).2.vinputVdevices = r.vinputVdevices := by
            rcases hstate with hsame | hskip
            · rw [hsame]
              exact ⟨rfl, rfl⟩
            · rw [hskip]
              exact ⟨rfl, rfl⟩
          exact ⟨hkept.1, hkept.2, fun hno hreg hinit => hr.length_eq (hfull hno hreg hinit)⟩
        · rw [hok] at he
          cases he
  | register d => exact Iff.rfl
  | unregister d => exact Iff.rfl
  | unexportStore buf len => exact Iff.rfl

variable [DecidableEq δ]

theorem Registry.WellFormed.of_keepsId {c : Call δ} (hr : WellFormed r) (hc : KeepsId name r c)
    (h : callStep name r c = some r') : WellFormed r' := by
  cases c with
  | exportStore o buf len =>
      obtain rfl : (r.exportStore name o buf len).2 = r' := Option.some.inj h
      obtain ⟨-, hstate⟩ | ⟨d, hid, hok⟩ := exportStore_keepsId len hc
      · rcases hstate with hstate | hstate
        · rwa [hstate]
        · rw [hstate]
          exact hr.skip
      · rw [hok]
        exact hr.add hid
  | register d => exact hr.of_callStep (c := .register d) trivial h
  | unregister d => exact hr.of_callStep (c := .unregister d) trivial h
  | unexportStore buf len => exact hr.of_callStep (c := .unexportStore buf len) trivial h

/-- **A failed export changes nothing**, in any sequence of calls and whatever the kernel answers to
them, if and only if in none of them `input_allocate_device` fails with an id already taken. -/
theorem failureHarmless_iff (calls : List (Call δ)) :
    Along (callStep name) (FailureHarmless name) Registry.init calls ↔
      Along (callStep name) (KeepsId name) Registry.init calls :=
  along_iff_along (fun _ _ _ hr hc h => hr.of_keepsId hc h) (fun _ _ hr => hr.failureHarmless_call)
    wellFormed_init

/-- `input_allocate_device` fails in the first export of a keyboard. -/
def noInputDevice : List (Call ℕ) :=
  [.register 7, .exportStore ⟨true, false, none, none⟩ vinputKbd 4]

/-- Bit 0 of the bitmap stays set. -/
theorem not_failureHarmless_noInputDevice :
    ¬Along (callStep fun _ => vinputKbd) (FailureHarmless fun _ => vinputKbd)
      (Registry.init : Registry ℕ) noInputDevice := by
  intro h
  exact absurd ((h.2 _ rfl).1 .ENOMEM rfl).1 (by decide)

end Lkmpg.VinputDriver
