import Lkmpg.Lib.FirstMatch
import Lkmpg.Vinput.RegistryRuns

/-!
# The type that an export resolves to

`vinput_get_device_by_type` compares as many characters as the name of the device has, so it takes
the first device in the list whose name begins the buffer, and the list has the device that was
registered last at its front.  A buffer that names one device can be resolved to another with a
shorter name, and a buffer that names none can be resolved too.

The buffer is a C string, like the names: what counts is what comes before its first NUL.
-/

namespace Lkmpg.VinputDriver

open CString FirstMatch Registry Transition

variable {δ : Type} {name : δ → List Byte} {buf : List Byte}

/-- The buffer is the name of the device, up to one newline at its end. -/
def Names (name : δ → List Byte) (buf : List Byte) (d : δ) : Prop :=
  content buf = content (name d) ∨ content buf = content (name d) ++ [0x0a]

/-- The name of the device begins the buffer. -/
def Begins (name : δ → List Byte) (buf : List Byte) (d : δ) : Prop :=
  content (name d) <+: content buf

instance : DecidablePred (Names name buf) := fun d =>
  inferInstanceAs (Decidable (content buf = content (name d) ∨ _))

instance : DecidablePred (Begins name buf) := fun d =>
  inferInstanceAs (Decidable (content (name d) <+: content buf))

theorem Names.begins {d : δ} (h : Names name buf d) : Begins name buf d := by
  rw [Begins]
  rcases h with h | h
  · rw [h]
  · rw [h]
    exact List.prefix_append _ _

/-- Devices registered one after the other stand in the list in reverse. -/
theorem run_register [DecidableEq δ] {order : List δ} {r r' : Registry δ}
    (hrun : run (callStep name) r (order.map .register) = some r') :
    r'.vinputDevices = order.reverse ++ r.vinputDevices := by
  induction order generalizing r with
  | nil =>
      obtain rfl := Option.some.inj hrun
      rfl
  | cons d order ih =>
      obtain ⟨u, hu, hrest⟩ := run_cons_eq_some.mp hrun
      rw [ih hrest, callStep_register hu, List.reverse_cons, List.append_assoc]
      rfl

/-! ### The lookup -/

theorem vinputGetDeviceByType_eq (r : Registry δ) :
    r.vinputGetDeviceByType name buf =
      match r.vinputDevices.find? (Begins name buf ·) with
      | some d => .ok d
      | none => .error .ENODEV := by
  have htest : (fun d => decide (strncmp buf (name d) (strlen (name d)) = 0)) =
      fun d => decide (Begins name buf d) := by
    funext d
    exact decide_eq_decide.mpr (strncmp_strlen_eq_zero_iff buf (name d))
  exact congrArg
    (fun test : δ → Bool => match r.vinputDevices.find? test with
      | some d => (Except.ok d : Except Errno δ)
      | none => .error .ENODEV)
    htest

theorem vinputGetDeviceByType_eq_ok_iff (r : Registry δ) (d : δ) :
    r.vinputGetDeviceByType name buf = .ok d ↔
      r.vinputDevices.find? (Begins name buf ·) = some d := by
  rw [vinputGetDeviceByType_eq]
  cases r.vinputDevices.find? (Begins name buf ·) with
  | none => exact iff_of_false nofun nofun
  | some d' =>
      constructor
      · intro h
        exact congrArg some (Except.ok.inj h)
      · intro h
        exact congrArg Except.ok (Option.some.inj h)

/-- An export that succeeds has added a vdevice of the type it looked up. -/
theorem exportStore_ok {o : Outcomes} {r r' : Registry δ} {len n : ℕ}
    (h : r.exportStore name o buf len = (.ok n, r')) :
    ∃ d, r.vinputGetDeviceByType name buf = .ok d ∧ r' = r.add d := by
  cases hlook : r.vinputGetDeviceByType name buf with
  | error e =>
      rw [exportStore_unknown hlook] at h
      cases h
  | ok d =>
      refine ⟨d, rfl, ?_⟩
      rw [exportStore_eq, hlook] at h
      simp only at h
      split_ifs at h with hk hid hi
      · cases h
      · cases h
      · cases h
      · split at h
        · cases h
        · cases h
        · exact (Prod.mk.inj h).2.symm

/-! ### The property -/

/-- Whatever else the state of the registry is and whatever the kernel answers, an export resolves
the buffer among the devices of the list: the vdevice it creates has the type that the buffer names,
and a buffer that names none is refused. -/
def Resolves (name : δ → List Byte) (buf : List Byte) (devices : List δ) : Prop :=
  ∀ (r : Registry δ) (o : Outcomes) (len : ℕ), r.vinputDevices = devices →
    (∀ d ∈ devices, Names name buf d → ∀ n r', r.exportStore name o buf len = (.ok n, r') →
      r'.vinputVdevices = r.brk :: r.vinputVdevices ∧ r'.typeOf r.brk = some d) ∧
    ((∀ d ∈ devices, ¬Names name buf d) → r.exportStore name o buf len = (.error .ENODEV, r))

/-- The property is one of the search alone. -/
theorem resolves_iff_answers (devices : List δ) :
    Resolves name buf devices ↔ Answers (Begins name buf) (Names name buf) devices := by
  constructor
  · intro h
    -- a registry with room for a vdevice
    obtain ⟨r, hr⟩ : ∃ r : Registry δ, r = { Registry.init with vinputDevices := devices } :=
      ⟨_, rfl⟩
    have hdevices : r.vinputDevices = devices := by rw [hr]
    have hid : Bitmap.findFirstZeroBit r.vinputIds < vinputMinors := by
      rw [hr]
      show Bitmap.findFirstZeroBit (0 : BitVec vinputMinors) < vinputMinors
      decide
    obtain ⟨hnamed, hunnamed⟩ := h r .success 0 hdevices
    rw [← hdevices] at hnamed hunnamed ⊢
    refine ⟨fun d hd hname => ?_, fun hnone => ?_⟩
    · have hbegins : ∃ d', r.vinputDevices.find? (Begins name buf ·) = some d' := by
        rw [← Option.isSome_iff_exists, List.find?_isSome]
        exact ⟨d, hd, by simpa using hname.begins⟩
      obtain ⟨d', hfind⟩ := hbegins
      have hexport : r.exportStore name .success buf 0 = (.ok 0, r.add d') :=
        exportStore_added ((vinputGetDeviceByType_eq_ok_iff r d').mpr hfind) hid
      have htype := (hnamed d hd hname _ _ hexport).2
      rw [typeOf_add_brk] at htype
      rw [hfind, Option.some.inj htype]
    · have hexport := hunnamed hnone
      cases hfind : r.vinputDevices.find? (Begins name buf ·) with
      | none => rfl
      | some d =>
          have hadded : r.exportStore name .success buf 0 = (.ok 0, r.add d) :=
            exportStore_added ((vinputGetDeviceByType_eq_ok_iff r d).mpr hfind) hid
          rw [hadded] at hexport
          cases (Prod.mk.inj hexport).1
  · rintro ⟨hfound, hnothing⟩ r o len hdevices
    subst hdevices
    refine ⟨fun d hd hname n r' hexport => ?_, fun hnone => ?_⟩
    · obtain ⟨d', hlook, rfl⟩ := exportStore_ok hexport
      rw [vinputGetDeviceByType_eq_ok_iff, hfound d hd hname] at hlook
      rw [Option.some.inj hlook, typeOf_add_brk]
      exact ⟨rfl, rfl⟩
    · refine exportStore_unknown ?_
      rw [vinputGetDeviceByType_eq, hnothing hnone]

/-- **Exports resolve the named type**, for the devices of a list and a buffer, if and only if no
device in front of the first one that the buffer names, and none at all if it names none, has a name
that begins the buffer, and the buffer names at most one device. -/
theorem resolves_iff (name : δ → List Byte) (buf : List Byte) (devices : List δ) :
    Resolves name buf devices ↔ Unshadowed (Begins name buf) (Names name buf) devices :=
  (resolves_iff_answers devices).trans (answers_iff_unshadowed fun _ => Names.begins)

/-- **Order.**  Exports resolve the named type in every order of registration if and only if every
device whose name begins the buffer is named by it, and the buffer names at most one. -/
theorem resolves_perm_iff [DecidableEq δ] (devices : List δ) :
    (∀ order : List δ, order.Perm devices → Resolves name buf order.reverse) ↔
      (∀ d ∈ devices, Begins name buf d → Names name buf d) ∧
        ∀ d ∈ devices, ∀ e ∈ devices, Names name buf d → Names name buf e → d = e := by
  rw [← answers_perm_iff fun _ => Names.begins]
  constructor
  · intro h order hperm
    rw [← resolves_iff_answers, ← List.reverse_reverse order]
    exact h order.reverse ((List.reverse_perm order).trans hperm)
  · intro h order hperm
    exact (resolves_iff_answers _).mpr (h order.reverse ((List.reverse_perm order).trans hperm))

/-- Only a keyboard is registered, and a buffer says `vkbd2`. -/
theorem not_resolves_vkbd2 : ¬Resolves (fun _ : ℕ => vinputKbd) (bytes "vkbd2\n") [7] := by
  intro h
  obtain ⟨-, hunnamed⟩ := h { Registry.init with vinputDevices := [7] } .success 6 rfl
  have hnone : ∀ d ∈ [7], ¬Names (fun _ : ℕ => vinputKbd) (bytes "vkbd2\n") d := by decide
  exact absurd (congrArg Prod.fst (hunnamed hnone)) (by decide)

end Lkmpg.VinputDriver
