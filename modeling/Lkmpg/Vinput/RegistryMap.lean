import Lkmpg.Lib.SlotMap
import Lkmpg.Lib.Transition
import Lkmpg.Vinput.Listed
import Lkmpg.Vinput.Registry

/-!
# The vinput registry is a finite map

The pair (`vinput_ids`, `vinput_vdevices`) stands for a map from ids to device types, `toMap`.
`Sound` is the part of the representation invariant that every call keeps, whatever the kernel
answers: listed vdevices are allocated and typed, their ids are distinct, below `VINPUT_MINORS` and
marked in the bitmap.  `WellFormed` adds that no other bit is set, which a failing
`input_allocate_device` would break.

Both are proved per elementary change of the registry (`skip`, `add`, `vinput_destroy_vdevice` and
the loop of `vinput_unregister`); the calls are these changes by the closed forms of
`Lkmpg.Vinput.Registry`.
-/

namespace Lkmpg.VinputDriver

namespace Registry

variable {δ : Type} {r r' : Registry δ}

/-- The ids of the listed vdevices. -/
def ids (r : Registry δ) : List ℕ := r.vinputVdevices.filterMap r.idOf

/-- Some listed vdevice has id `k` and type `d`. -/
def Entry (r : Registry δ) (k : ℕ) (d : δ) : Prop :=
  ∃ p ∈ r.vinputVdevices, r.idOf p = some k ∧ r.typeOf p = some d

/-- The map the registry stands for. -/
def toMap (r : Registry δ) : SlotMap vinputMinors δ := fun k =>
  (r.vinputVdevices.find? fun p => r.idOf p = some k.val).bind r.typeOf

/-- What every call keeps. -/
structure Sound (r : Registry δ) : Prop extends Listed r where
  typed : ∀ p ∈ r.vinputVdevices, ∃ d, r.typeOf p = some d

/-- What every call keeps if no allocation fails. -/
structure WellFormed (r : Registry δ) : Prop extends Sound r where
  exact : ∀ k, r.vinputIds.getLsbD k = true → ∃ p ∈ r.vinputVdevices, r.idOf p = some k

/-! ### Reading the map off a sound registry -/

theorem mem_ids {k : ℕ} : k ∈ r.ids ↔ ∃ p ∈ r.vinputVdevices, r.idOf p = some k := by
  rw [ids, List.mem_filterMap]

theorem Sound.ids_nodup (hr : Sound r) : r.ids.Nodup := by
  refine List.pairwise_filterMap.mpr (hr.nodup.imp_of_mem ?_)
  intro p q hp hq hne k hk l hl hkl
  exact hne (hr.inj p hp q hq (by rw [hk, hl, hkl]))

theorem toMap_eq_some_iff (hr : Sound r) (k : Fin vinputMinors) (d : δ) :
    r.toMap k = some d ↔ r.Entry k d := by
  rw [toMap, Option.bind_eq_some_iff]
  constructor
  · rintro ⟨p, hfind, htype⟩
    have hid : r.idOf p = some k.val := by simpa using List.find?_some hfind
    exact ⟨p, List.mem_of_find?_eq_some hfind, hid, htype⟩
  · rintro ⟨p, hp, hid, htype⟩
    cases hfind : r.vinputVdevices.find? fun q => r.idOf q = some k.val with
    | none =>
        have := List.find?_eq_none.mp hfind p hp
        simp [hid] at this
    | some q =>
        have hq : r.idOf q = some k.val := by simpa using List.find?_some hfind
        have hqp : q = p := hr.inj q (List.mem_of_find?_eq_some hfind) p hp (hq.trans hid.symm)
        exact ⟨q, rfl, hqp ▸ htype⟩

theorem toMap_ne_none_iff (hr : Sound r) (k : Fin vinputMinors) :
    r.toMap k ≠ none ↔ ∃ p ∈ r.vinputVdevices, r.idOf p = some k.val := by
  rw [Option.ne_none_iff_exists']
  constructor
  · rintro ⟨d, hd⟩
    obtain ⟨p, hp, hid, _⟩ := (toMap_eq_some_iff hr k d).mp hd
    exact ⟨p, hp, hid⟩
  · rintro ⟨p, hp, hid⟩
    obtain ⟨d, htype⟩ := hr.typed p hp
    exact ⟨d, (toMap_eq_some_iff hr k d).mpr ⟨p, hp, hid, htype⟩⟩

/-- Two sound registries with the same entries stand for the same map. -/
theorem toMap_ext (hr : Sound r) (hr' : Sound r') (h : ∀ k d, r'.Entry k d ↔ r.Entry k d) :
    r'.toMap = r.toMap := by
  funext k
  apply Option.ext
  intro d
  rw [toMap_eq_some_iff hr', toMap_eq_some_iff hr, h]

/-! ### The elementary changes keep the invariant -/

/-- A registry that lists fewer vdevices, all unchanged, is sound. -/
theorem Sound.of_subset (hr : Sound r) (hlisted : Listed r')
    (hsub : ∀ p ∈ r'.vinputVdevices, p ∈ r.vinputVdevices)
    (hheap : ∀ p ∈ r'.vinputVdevices, r'.heap p = r.heap p) : Sound r' := by
  refine ⟨hlisted, fun p hp => ?_⟩
  rw [typeOf_eq_of_heap (hheap p hp)]
  exact hr.typed p (hsub p hp)

/-- Allocating a vdevice and freeing it again. -/
theorem skip_eq : r.skip = r.kzalloc.kfree r.brk := by
  simp [skip, kzalloc, kfree]

theorem Sound.heap_skip (hr : Sound r) {p : Ptr} (hp : p ∈ r.vinputVdevices) :
    r.skip.heap p = r.heap p := Function.update_of_ne (hr.ne_brk hp) _ _

theorem Listed.skip (hr : Listed r) : Listed r.skip := by
  rw [skip_eq]
  exact hr.kzalloc.kfree fun h => hr.ne_brk h rfl

theorem Sound.skip (hr : Sound r) : Sound r.skip :=
  hr.of_subset hr.toListed.skip (fun _ hp => hp) fun _ hp => hr.heap_skip hp

theorem Sound.leak (hr : Sound r) : Sound r.leak := by
  have hskip := hr.toListed.skip
  refine hr.of_subset ⟨hskip.nodup, hskip.hasId, hskip.inj, ?_, hskip.fresh⟩ (fun _ hp => hp)
    fun _ hp => hr.heap_skip hp
  intro p hp k hk
  have hbit : r.vinputIds.getLsbD k = true := hskip.bit p hp k hk
  rw [Registry.leak, Bitmap.getLsbD_setBit, hbit, Bool.true_or]

theorem Sound.toMap_skip (hr : Sound r) : r.skip.toMap = r.toMap := by
  refine toMap_ext hr hr.skip fun k d => ?_
  refine exists_congr fun p => and_congr_right fun hp => ?_
  rw [idOf_eq_of_heap (hr.heap_skip hp), typeOf_eq_of_heap (hr.heap_skip hp)]

theorem WellFormed.skip (hr : WellFormed r) : WellFormed r.skip := by
  refine ⟨hr.toSound.skip, fun k hk => ?_⟩
  obtain ⟨p, hp, hid⟩ := hr.exact k hk
  exact ⟨p, hp, (idOf_eq_of_heap (hr.toSound.heap_skip hp)).trans hid⟩

/-- Assignments to other fields than the id and the type do not matter. -/
theorem Sound.modify (hr : Sound r) (p : Ptr) {f : Vinput δ → Vinput δ}
    (hid : ∀ v, (f v).id = v.id) (htype : ∀ v, (f v).type = v.type) : Sound (r.modify p f) := by
  refine ⟨hr.toListed.modify p hid, fun q hq => ?_⟩
  rw [typeOf_modify r p q htype]
  exact hr.typed q hq

/-! ### Adding a vdevice -/

section Add

variable {d : δ} (hid : Bitmap.findFirstZeroBit r.vinputIds < vinputMinors)

theorem Sound.heap_add (hr : Sound r) {p : Ptr} (hp : p ∈ r.vinputVdevices) :
    (r.add d).heap p = r.heap p := Function.update_of_ne (hr.ne_brk hp) _ _

theorem idOf_add_brk : (r.add d).idOf r.brk = some (Bitmap.findFirstZeroBit r.vinputIds) := by
  simp [idOf, add]

theorem typeOf_add_brk : (r.add d).typeOf r.brk = some d := by
  simp [typeOf, add]

include hid in
theorem Sound.add (hr : Sound r) : Sound (r.add d) := by
  refine ⟨hr.toListed.cons hid (fun h => hr.ne_brk h rfl) rfl rfl idOf_add_brk
    (fun q hq => idOf_eq_of_heap (hr.heap_add hq)) ?_, ?_⟩
  · intro p hp
    have hlt : r.brk < p := Nat.lt_of_succ_le hp
    show Function.update r.heap r.brk _ p = none
    rw [Function.update_of_ne hlt.ne']
    exact hr.fresh p hlt.le
  · intro p hp
    rcases List.mem_cons.mp hp with rfl | hp
    · exact ⟨d, typeOf_add_brk⟩
    · rw [typeOf_eq_of_heap (hr.heap_add hp)]
      exact hr.typed p hp

include hid in
theorem WellFormed.add (hr : WellFormed r) : WellFormed (r.add d) := by
  refine ⟨hr.toSound.add hid, fun k hk => ?_⟩
  have hk' : (Bitmap.setBit r.vinputIds _).getLsbD k = true := hk
  rw [Bitmap.getLsbD_setBit, Bool.or_eq_true] at hk'
  rcases hk' with hk' | hk'
  · obtain ⟨p, hp, hpk⟩ := hr.exact k hk'
    exact ⟨p, List.mem_cons_of_mem _ hp, (idOf_eq_of_heap (hr.toSound.heap_add hp)).trans hpk⟩
  · simp only [Bool.and_eq_true, decide_eq_true_eq] at hk'
    exact ⟨r.brk, List.mem_cons_self, by rw [idOf_add_brk, hk'.2]⟩

/-- **Adding a vdevice** binds the first clear bit and changes no other entry. -/
theorem Sound.toMap_add (hr : Sound r) :
    (r.add d).toMap = Function.update r.toMap ⟨_, hid⟩ (some d) := by
  funext k
  apply Option.ext
  intro e
  rw [toMap_eq_some_iff (hr.add hid)]
  by_cases hk : k = ⟨_, hid⟩
  · subst hk
    rw [Function.update_self]
    constructor
    · rintro ⟨p, hp, hpid, hptype⟩
      rcases List.mem_cons.mp hp with rfl | hp
      · exact typeOf_add_brk.symm.trans hptype
      · rw [idOf_eq_of_heap (hr.heap_add hp)] at hpid
        exact absurd hpid (hr.idOf_ne_findFirstZeroBit hid hp)
    · intro h
      exact ⟨r.brk, List.mem_cons_self, idOf_add_brk, typeOf_add_brk.trans h⟩
  · rw [Function.update_of_ne hk, toMap_eq_some_iff hr]
    constructor
    · rintro ⟨p, hp, hpid, hptype⟩
      rcases List.mem_cons.mp hp with rfl | hp
      · rw [idOf_add_brk, Option.some_inj] at hpid
        exact absurd (Fin.ext hpid.symm) hk
      · rw [idOf_eq_of_heap (hr.heap_add hp)] at hpid
        rw [typeOf_eq_of_heap (hr.heap_add hp)] at hptype
        exact ⟨p, hp, hpid, hptype⟩
    · rintro ⟨p, hp, hpid, hptype⟩
      refine ⟨p, List.mem_cons_of_mem _ hp, ?_, ?_⟩
      · rw [idOf_eq_of_heap (hr.heap_add hp), hpid]
      · rw [typeOf_eq_of_heap (hr.heap_add hp), hptype]

end Add

/-! ### Destroying a vdevice -/

section Destroy

variable {p : Ptr}

theorem heap_vinputDestroyVdevice {q : Ptr} (h : q ≠ p) :
    (r.vinputDestroyVdevice p).heap q = r.heap q := Function.update_of_ne h _ _

theorem Sound.mem_vinputDestroyVdevice (hr : Sound r) {q : Ptr} :
    q ∈ (r.vinputDestroyVdevice p).vinputVdevices ↔ q ≠ p ∧ q ∈ r.vinputVdevices :=
  hr.toListed.mem_listDel

theorem Sound.vinputDestroyVdevice (hr : Sound r) (hp : p ∈ r.vinputVdevices) :
    Sound (r.vinputDestroyVdevice p) := by
  have hout : p ∉ (r.unlink p).vinputVdevices := fun h => (hr.toListed.mem_listDel.mp h).1 rfl
  exact hr.of_subset ((hr.toListed.unlink hp).kfree hout)
    (fun q hq => (hr.mem_vinputDestroyVdevice.mp hq).2)
    fun q hq => heap_vinputDestroyVdevice (hr.mem_vinputDestroyVdevice.mp hq).1

theorem WellFormed.vinputDestroyVdevice (hr : WellFormed r) (hp : p ∈ r.vinputVdevices) :
    WellFormed (r.vinputDestroyVdevice p) := by
  refine ⟨hr.toSound.vinputDestroyVdevice hp, fun k hk => ?_⟩
  obtain ⟨hbit, hne⟩ := (getLsbD_clearId (r := r.listDel p) k).mp hk
  obtain ⟨q, hq, hqk⟩ := hr.exact k hbit
  have hqp : q ≠ p := fun h => hne (h ▸ hqk)
  exact ⟨q, hr.toSound.mem_vinputDestroyVdevice.mpr ⟨hqp, hq⟩,
    (idOf_eq_of_heap (heap_vinputDestroyVdevice hqp)).trans hqk⟩

/-- The entries that survive are those of the other vdevices. -/
theorem Sound.entry_vinputDestroyVdevice (hr : Sound r) (hp : p ∈ r.vinputVdevices) (k : ℕ) (d : δ) :
    (r.vinputDestroyVdevice p).Entry k d ↔ r.Entry k d ∧ r.idOf p ≠ some k := by
  constructor
  · rintro ⟨q, hq, hid, htype⟩
    obtain ⟨hne, hmem⟩ := hr.mem_vinputDestroyVdevice.mp hq
    have hheap := heap_vinputDestroyVdevice (r := r) hne
    rw [idOf_eq_of_heap hheap] at hid
    rw [typeOf_eq_of_heap hheap] at htype
    exact ⟨⟨q, hmem, hid, htype⟩, fun h => hne (hr.inj q hmem p hp (hid.trans h.symm))⟩
  · rintro ⟨⟨q, hq, hid, htype⟩, hne⟩
    have hqp : q ≠ p := fun h => hne (h ▸ hid)
    have hheap := heap_vinputDestroyVdevice (r := r) hqp
    exact ⟨q, hr.mem_vinputDestroyVdevice.mpr ⟨hqp, hq⟩,
      (idOf_eq_of_heap hheap).trans hid, (typeOf_eq_of_heap hheap).trans htype⟩

/-- **Destroying a vdevice** removes exactly the entry of its id. -/
theorem Sound.toMap_vinputDestroyVdevice (hr : Sound r) (hp : p ∈ r.vinputVdevices)
    {k : Fin vinputMinors} (hk : r.idOf p = some k.val) :
    (r.vinputDestroyVdevice p).toMap = Function.update r.toMap k none := by
  funext j
  apply Option.ext
  intro d
  rw [toMap_eq_some_iff (hr.vinputDestroyVdevice hp), hr.entry_vinputDestroyVdevice hp, hk]
  by_cases hj : j = k
  · subst hj
    simp
  · have hne : ¬k.val = j.val := fun h => hj (Fin.ext h.symm)
    rw [Function.update_of_ne hj, toMap_eq_some_iff hr]
    simp [hne]

end Destroy

/-! ### The loop of `vinput_unregister` -/

/-- Registration changes neither the vdevices nor the bitmap. -/
theorem Sound.of_devices (hr : Sound r) (ds : List δ) : Sound { r with vinputDevices := ds } :=
  ⟨hr.types _, hr.typed⟩

theorem WellFormed.of_devices (hr : WellFormed r) (ds : List δ) :
    WellFormed { r with vinputDevices := ds } :=
  ⟨hr.toSound.of_devices ds, hr.exact⟩

section Unregister

variable [DecidableEq δ] {d : δ}

/-- One round of the loop destroys the node if it has the type and leaves the others alone. -/
theorem unregisterLoop_cons (p : Ptr) (ps : List Ptr) :
    unregisterLoop d (p :: ps) r =
      unregisterLoop d ps (if r.typeOf p = some d then r.vinputDestroyVdevice p else r) := by
  rw [unregisterLoop, teardown_eq]

/-- The loop over `ps` touches no vdevice but those of the type in `ps`. -/
theorem heap_unregisterLoop (ps : List Ptr) {q : Ptr} (h : q ∈ ps → r.typeOf q ≠ some d) :
    (unregisterLoop d ps r).heap q = r.heap q := by
  induction ps generalizing r with
  | nil => rfl
  | cons p ps ih =>
      rw [unregisterLoop_cons]
      by_cases htype : r.typeOf p = some d
      · have hqp : q ≠ p := fun hq => h (hq ▸ List.mem_cons_self) (hq ▸ htype)
        have hheap := heap_vinputDestroyVdevice (r := r) hqp
        rw [if_pos htype, ih, hheap]
        intro hq
        rw [typeOf_eq_of_heap hheap]
        exact h (List.mem_cons_of_mem p hq)
      · rw [if_neg htype]
        exact ih fun hq => h (List.mem_cons_of_mem p hq)

/-- The loop over distinct listed nodes keeps the invariant and unlinks exactly those of the type. -/
theorem Sound.unregisterLoop (ps : List Ptr) (hr : Sound r) (hnodup : ps.Nodup)
    (hsub : ∀ p ∈ ps, p ∈ r.vinputVdevices) :
    Sound (unregisterLoop d ps r) ∧
      (WellFormed r → WellFormed (Registry.unregisterLoop d ps r)) ∧
      ∀ q, q ∈ (Registry.unregisterLoop d ps r).vinputVdevices ↔
        q ∈ r.vinputVdevices ∧ (q ∈ ps → r.typeOf q ≠ some d) := by
  induction ps generalizing r with
  | nil => exact ⟨hr, id, fun q => by simp [Registry.unregisterLoop]⟩
  | cons p ps ih =>
      obtain ⟨hp, hps⟩ := List.nodup_cons.mp hnodup
      have hmem : p ∈ r.vinputVdevices := hsub p List.mem_cons_self
      have hne : ∀ q ∈ ps, q ≠ p := fun q hq h => hp (h ▸ hq)
      rw [unregisterLoop_cons]
      by_cases htype : r.typeOf p = some d
      · rw [if_pos htype]
        obtain ⟨hsound, hwf, hlist⟩ := ih (hr.vinputDestroyVdevice hmem) hps fun q hq =>
          hr.mem_vinputDestroyVdevice.mpr ⟨hne q hq, hsub q (List.mem_cons_of_mem _ hq)⟩
        refine ⟨hsound, fun h => hwf (h.vinputDestroyVdevice hmem), fun q => ?_⟩
        rw [hlist, hr.mem_vinputDestroyVdevice]
        by_cases hqp : q = p
        · subst hqp
          simp [htype]
        · rw [typeOf_eq_of_heap (heap_vinputDestroyVdevice hqp)]
          simp [hqp]
      · rw [if_neg htype]
        obtain ⟨hsound, hwf, hlist⟩ := ih hr hps fun q hq => hsub q (List.mem_cons_of_mem _ hq)
        refine ⟨hsound, hwf, fun q => ?_⟩
        rw [hlist]
        by_cases hqp : q = p
        · subst hqp
          simp [htype]
        · simp [hqp]

theorem Sound.vinputUnregister (hr : Sound r) : Sound (r.vinputUnregister d) :=
  ((hr.of_devices (r.vinputDevices.erase d)).unregisterLoop _ hr.nodup fun _ hp => hp).1

theorem WellFormed.vinputUnregister (hr : WellFormed r) : WellFormed (r.vinputUnregister d) :=
  ((hr.toSound.of_devices (r.vinputDevices.erase d)).unregisterLoop _ hr.nodup fun _ hp => hp).2.1
    (hr.of_devices _)

theorem Sound.mem_vinputUnregister (hr : Sound r) {q : Ptr} :
    q ∈ (r.vinputUnregister d).vinputVdevices ↔ q ∈ r.vinputVdevices ∧ r.typeOf q ≠ some d := by
  have hlist := ((hr.of_devices (r.vinputDevices.erase d)).unregisterLoop (d := d) _ hr.nodup
    fun _ hp => hp).2.2 q
  rw [Registry.vinputUnregister, hlist]
  exact and_congr_right fun hq => ⟨fun h => h hq, fun h _ => h⟩

theorem heap_vinputUnregister {q : Ptr} (h : r.typeOf q ≠ some d) :
    (r.vinputUnregister d).heap q = r.heap q :=
  heap_unregisterLoop (r := { r with vinputDevices := r.vinputDevices.erase d }) _ fun _ => h

/-- **`vinput_unregister`** removes exactly the entries of its type. -/
theorem Sound.toMap_vinputUnregister (hr : Sound r) :
    (r.vinputUnregister d).toMap = r.toMap.restrict fun e => e ≠ d := by
  funext k
  apply Option.ext
  intro e
  rw [toMap_eq_some_iff hr.vinputUnregister, SlotMap.restrict, Option.filter_eq_some_iff,
    toMap_eq_some_iff hr]
  constructor
  · rintro ⟨q, hq, hid, htype⟩
    obtain ⟨hmem, hne⟩ := hr.mem_vinputUnregister.mp hq
    rw [idOf_eq_of_heap (heap_vinputUnregister hne)] at hid
    rw [typeOf_eq_of_heap (heap_vinputUnregister hne)] at htype
    exact ⟨⟨q, hmem, hid, htype⟩, by simpa [htype] using hne⟩
  · rintro ⟨⟨q, hq, hid, htype⟩, hed⟩
    have hne : r.typeOf q ≠ some d := by simpa [htype] using hed
    exact ⟨q, hr.mem_vinputUnregister.mpr ⟨hq, hne⟩,
      (idOf_eq_of_heap (heap_vinputUnregister hne)).trans hid,
      (typeOf_eq_of_heap (heap_vinputUnregister hne)).trans htype⟩

end Unregister

/-! ### Lookup by id -/

/-- The cursor is a node of the list or the initial value. -/
theorem mem_of_idCursor {id : ℤ} {ps : List Ptr} {c : Option Ptr} {p : Ptr}
    (h : r.idCursor id ps c = some p) : p ∈ ps ∨ c = some p := by
  induction ps generalizing c with
  | nil => exact Or.inr h
  | cons q ps ih =>
      rw [idCursor] at h
      split at h
      · rw [Option.some_inj] at h
        exact Or.inl (h ▸ List.mem_cons_self)
      · rcases ih h with hp | hp
        · exact Or.inl (List.mem_cons_of_mem _ hp)
        · rw [Option.some_inj] at hp
          exact Or.inl (hp ▸ List.mem_cons_self)

/-- If some node has the id, the cursor stops at a node that has it. -/
theorem exists_idCursor (id : ℤ) {ps : List Ptr} (c : Option Ptr)
    (h : ∃ p ∈ ps, (r.idOf p).map Int.ofNat = some id) :
    ∃ q ∈ ps, r.idCursor id ps c = some q ∧ (r.idOf q).map Int.ofNat = some id := by
  induction ps generalizing c with
  | nil => simp at h
  | cons p ps ih =>
      rw [idCursor]
      by_cases hp : (r.idOf p).map Int.ofNat = some id
      · rw [if_pos hp]
        exact ⟨p, List.mem_cons_self, rfl, hp⟩
      · rw [if_neg hp]
        obtain ⟨p', hp', hid⟩ := h
        rcases List.mem_cons.mp hp' with rfl | hp'
        · exact absurd hid hp
        · obtain ⟨q, hq, hcur, hqid⟩ := ih (some p) ⟨p', hp', hid⟩
          exact ⟨q, List.mem_cons_of_mem _ hq, hcur, hqid⟩

/-- A pointer that `vinput_get_vdevice_by_id` returns is a listed vdevice with that id. -/
theorem vinputGetVdeviceById_ok {id : ℤ} {p : Ptr} (h : r.vinputGetVdeviceById id = .ok p) :
    p ∈ r.vinputVdevices ∧ (r.idOf p).map Int.ofNat = some id := by
  unfold vinputGetVdeviceById at h
  cases hcur : r.idCursor id r.vinputVdevices none with
  | none => rw [hcur] at h; cases h
  | some q =>
      rw [hcur] at h
      by_cases hid : (r.idOf q).map Int.ofNat = some id
      · simp only [hid, if_true, Except.ok.injEq] at h
        subst h
        rcases mem_of_idCursor hcur with hmem | hmem
        · exact ⟨hmem, hid⟩
        · simp at hmem
      · simp [hid] at h

/-- `vinput_get_vdevice_by_id` fails with `-ENODEV` only. -/
theorem vinputGetVdeviceById_error {id : ℤ} {e : Errno} (h : r.vinputGetVdeviceById id = .error e) :
    e = .ENODEV := by
  unfold vinputGetVdeviceById at h
  cases hcur : r.idCursor id r.vinputVdevices none with
  | none => rw [hcur] at h; exact (Except.error.inj h).symm
  | some q =>
      rw [hcur] at h
      by_cases hid : (r.idOf q).map Int.ofNat = some id
      · simp [hid] at h
      · simp only [hid, if_false, Except.error.injEq] at h
        exact h.symm

/-- It succeeds if some listed vdevice has the id. -/
theorem vinputGetVdeviceById_exists {k : ℕ} (h : ∃ p ∈ r.vinputVdevices, r.idOf p = some k) :
    ∃ p, r.vinputGetVdeviceById k = .ok p := by
  obtain ⟨p, hp, hid⟩ := h
  obtain ⟨q, _, hcur, hqid⟩ := exists_idCursor k none ⟨p, hp, by rw [hid]; rfl⟩
  exact ⟨q, by rw [vinputGetVdeviceById, hcur]; simp only [hqid, if_true]⟩

theorem Sound.lookup_mem (hr : Sound r) {k : Fin vinputMinors} {d : δ} (h : r.toMap k = some d) :
    ∃ p ∈ r.vinputVdevices, r.vinputGetVdeviceById k.val = .ok p ∧
      r.idOf p = some k.val ∧ r.typeOf p = some d := by
  obtain ⟨p, hp, hid, htype⟩ := (toMap_eq_some_iff hr k d).mp h
  obtain ⟨q, hq⟩ := vinputGetVdeviceById_exists ⟨p, hp, hid⟩
  obtain ⟨hmem, hqid⟩ := vinputGetVdeviceById_ok hq
  have hqid' : r.idOf q = some k.val := by
    obtain ⟨n, hn, hnk⟩ := Option.map_eq_some_iff.mp hqid
    rw [hn, Int.ofNat.inj hnk]
  have hqp : q = p := hr.inj q hmem p hp (hqid'.trans hid.symm)
  exact ⟨q, hmem, hq, hqid', hqp ▸ htype⟩

theorem Sound.lookup_not_mem (hr : Sound r) {id : ℤ}
    (h : ∀ k : Fin vinputMinors, id = k.val → r.toMap k = none) :
    r.vinputGetVdeviceById id = .error .ENODEV := by
  cases hres : r.vinputGetVdeviceById id with
  | error e => rw [vinputGetVdeviceById_error hres]
  | ok p =>
      obtain ⟨hp, hid⟩ := vinputGetVdeviceById_ok hres
      obtain ⟨n, hn, hnid⟩ := Option.map_eq_some_iff.mp hid
      obtain ⟨k, hk, hlt⟩ := hr.hasId p hp
      rw [hn, Option.some_inj] at hk
      subst hk
      exact absurd (h ⟨n, hlt⟩ hnid.symm) ((toMap_ne_none_iff hr ⟨n, hlt⟩).mpr ⟨p, hp, hn⟩)

end Registry

end Lkmpg.VinputDriver
