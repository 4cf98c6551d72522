import Lkmpg.Vinput.State

/-!
# The list and the bitmap of the registry

`Listed` is what holds of `vinput_vdevices` and `vinput_ids` at every moment, also while vdevices
are being built or torn down: listed vdevices have distinct ids, which are set in the bitmap.  Two
rules carry it over any change, `of_subset` when vdevices leave the list and `cons` when one with
the first clear id is put at its head; the elementary sections are instances.
-/

namespace Lkmpg.VinputDriver.Registry

variable {δ : Type} {r r' : Registry δ} {p : Ptr}

theorem idOf_eq_of_heap (h : r'.heap p = r.heap p) : r'.idOf p = r.idOf p := by
  rw [idOf, idOf, h]

theorem typeOf_eq_of_heap (h : r'.heap p = r.heap p) : r'.typeOf p = r.typeOf p := by
  rw [typeOf, typeOf, h]

structure Listed (r : Registry δ) : Prop where
  nodup : r.vinputVdevices.Nodup
  hasId : ∀ p ∈ r.vinputVdevices, ∃ k, r.idOf p = some k ∧ k < vinputMinors
  inj : ∀ p ∈ r.vinputVdevices, ∀ q ∈ r.vinputVdevices, r.idOf p = r.idOf q → p = q
  bit : ∀ p ∈ r.vinputVdevices, ∀ k, r.idOf p = some k → r.vinputIds.getLsbD k = true
  fresh : ∀ p, r.brk ≤ p → r.heap p = none

/-- The list of device types does not matter. -/
theorem Listed.types (hr : Listed r) (ds : List δ) : Listed { r with vinputDevices := ds } :=
  ⟨hr.nodup, hr.hasId, hr.inj, hr.bit, hr.fresh⟩

theorem Listed.lt_brk (hr : Listed r) (hp : p ∈ r.vinputVdevices) : p < r.brk := by
  obtain ⟨k, hk, _⟩ := hr.hasId p hp
  by_contra hge
  rw [idOf, hr.fresh p (not_lt.mp hge)] at hk
  simp at hk

/-- Allocation never returns a listed vdevice. -/
theorem Listed.ne_brk (hr : Listed r) (hp : p ∈ r.vinputVdevices) : p ≠ r.brk := (hr.lt_brk hp).ne

theorem Listed.heap_ne_none (hr : Listed r) (hp : p ∈ r.vinputVdevices) : r.heap p ≠ none := by
  obtain ⟨k, hk, _⟩ := hr.hasId p hp
  intro hnone
  rw [idOf, hnone] at hk
  simp at hk

/-- No listed vdevice has the id that is handed out. -/
theorem Listed.idOf_ne_findFirstZeroBit (hr : Listed r)
    (hid : Bitmap.findFirstZeroBit r.vinputIds < vinputMinors) (hp : p ∈ r.vinputVdevices) :
    r.idOf p ≠ some (Bitmap.findFirstZeroBit r.vinputIds) := by
  intro h
  have hset := hr.bit p hp _ h
  rw [Bitmap.getLsbD_findFirstZeroBit hid] at hset
  exact absurd hset (by decide)

/-! ### The two rules -/

/-- Fewer vdevices are listed and their ids and bits are as before. -/
theorem Listed.of_subset (hr : Listed r) (hnodup : r'.vinputVdevices.Nodup)
    (hsub : ∀ p ∈ r'.vinputVdevices, p ∈ r.vinputVdevices)
    (hid : ∀ p ∈ r'.vinputVdevices, r'.idOf p = r.idOf p)
    (hbit : ∀ p ∈ r'.vinputVdevices, ∀ k, r.idOf p = some k → r'.vinputIds.getLsbD k = true)
    (hfresh : ∀ p, r'.brk ≤ p → r'.heap p = none) : Listed r' := by
  refine ⟨hnodup, ?_, ?_, ?_, hfresh⟩
  · intro p hp
    rw [hid p hp]
    exact hr.hasId p (hsub p hp)
  · intro p hp q hq h
    rw [hid p hp, hid q hq] at h
    exact hr.inj p (hsub p hp) q (hsub q hq) h
  · intro p hp k hk
    rw [hid p hp] at hk
    exact hbit p hp k hk

/-- A vdevice with the first clear id is put at the head of the list. -/
theorem Listed.cons (hr : Listed r) (hfree : Bitmap.findFirstZeroBit r.vinputIds < vinputMinors)
    (hp : p ∉ r.vinputVdevices) (hlist : r'.vinputVdevices = p :: r.vinputVdevices)
    (hids : r'.vinputIds = Bitmap.setBit r.vinputIds (Bitmap.findFirstZeroBit r.vinputIds))
    (hnew : r'.idOf p = some (Bitmap.findFirstZeroBit r.vinputIds))
    (hold : ∀ q ∈ r.vinputVdevices, r'.idOf q = r.idOf q)
    (hfresh : ∀ q, r'.brk ≤ q → r'.heap q = none) : Listed r' := by
  refine ⟨?_, ?_, ?_, ?_, hfresh⟩
  · rw [hlist]
    exact List.nodup_cons.mpr ⟨hp, hr.nodup⟩
  · intro q hq
    rcases List.mem_cons.mp (hlist ▸ hq) with rfl | hq
    · exact ⟨_, hnew, hfree⟩
    · rw [hold q hq]
      exact hr.hasId q hq
  · intro q hq q' hq' h
    rcases List.mem_cons.mp (hlist ▸ hq) with rfl | hq <;>
      rcases List.mem_cons.mp (hlist ▸ hq') with rfl | hq'
    · rfl
    · rw [hnew, hold q' hq'] at h
      exact absurd h.symm (hr.idOf_ne_findFirstZeroBit hfree hq')
    · rw [hnew, hold q hq] at h
      exact absurd h (hr.idOf_ne_findFirstZeroBit hfree hq)
    · rw [hold q hq, hold q' hq'] at h
      exact hr.inj q hq q' hq' h
  · intro q hq k hk
    rw [hids, Bitmap.getLsbD_setBit]
    rcases List.mem_cons.mp (hlist ▸ hq) with rfl | hq
    · rw [hnew, Option.some_inj] at hk
      simp [← hk, hfree]
    · rw [hold q hq] at hk
      rw [hr.bit q hq k hk, Bool.true_or]

/-! ### The elementary sections -/

/-- An assignment to another field than the id. -/
theorem Listed.modify (hr : Listed r) (p : Ptr) {f : Vinput δ → Vinput δ}
    (hf : ∀ v, (f v).id = v.id) : Listed (r.modify p f) := by
  refine hr.of_subset hr.nodup (fun _ hq => hq) (fun q _ => idOf_modify r p q hf) hr.bit ?_
  intro q hq
  have hnone := hr.fresh q hq
  by_cases h : q = p
  · subst h
    rw [heap_modify_self, hnone]
    rfl
  · rw [heap_modify_of_ne r h, hnone]

theorem heap_kzalloc_of_ne (h : p ≠ r.brk) : r.kzalloc.heap p = r.heap p :=
  Function.update_of_ne h _ _

theorem Listed.kzalloc (hr : Listed r) : Listed r.kzalloc := by
  refine hr.of_subset hr.nodup (fun _ hq => hq)
    (fun q hq => idOf_eq_of_heap (heap_kzalloc_of_ne (hr.ne_brk hq))) hr.bit ?_
  intro q hq
  have hlt : r.brk < q := Nat.lt_of_succ_le hq
  rw [heap_kzalloc_of_ne hlt.ne']
  exact hr.fresh q hlt.le

theorem heap_kfree_self : (r.kfree p).heap p = none := Function.update_self _ _ _

theorem heap_kfree_of_ne {q : Ptr} (h : q ≠ p) : (r.kfree p).heap q = r.heap q :=
  Function.update_of_ne h _ _

/-- A vdevice is freed only after it has left the list. -/
theorem Listed.kfree (hr : Listed r) (hp : p ∉ r.vinputVdevices) : Listed (r.kfree p) := by
  refine hr.of_subset hr.nodup (fun _ hq => hq) ?_ hr.bit ?_
  · intro q hq
    exact idOf_eq_of_heap (heap_kfree_of_ne fun h => hp (h ▸ hq))
  · intro q hq
    by_cases h : q = p
    · subst h
      exact heap_kfree_self
    · rw [heap_kfree_of_ne h]
      exact hr.fresh q hq

theorem Listed.mem_listDel (hr : Listed r) {q : Ptr} :
    q ∈ (r.listDel p).vinputVdevices ↔ q ≠ p ∧ q ∈ r.vinputVdevices := hr.nodup.mem_erase_iff

theorem Listed.listDel (hr : Listed r) (p : Ptr) : Listed (r.listDel p) :=
  hr.of_subset (hr.nodup.erase p) (fun _ hq => (hr.mem_listDel.mp hq).2) (fun _ _ => rfl)
    (fun q hq => hr.bit q (hr.mem_listDel.mp hq).2) hr.fresh

/-- The bits that `clear_bit` leaves. -/
theorem getLsbD_clearId (k : ℕ) :
    (r.clearId p).vinputIds.getLsbD k = true ↔
      r.vinputIds.getLsbD k = true ∧ r.idOf p ≠ some k := by
  have heq : (r.clearId p).vinputIds =
      (r.idOf p).elim r.vinputIds (Bitmap.clearBit r.vinputIds) := rfl
  rw [heq]
  cases hid : r.idOf p with
  | none => simp
  | some i => simp [Bitmap.getLsbD_clearBit]

/-- `clear_bit` in `vinput_destroy_vdevice` clears the bit of no other listed vdevice. -/
theorem Listed.unlink (hr : Listed r) (hp : p ∈ r.vinputVdevices) : Listed (r.unlink p) := by
  refine hr.of_subset (hr.nodup.erase p) (fun _ hq => (hr.mem_listDel.mp hq).2) (fun _ _ => rfl)
    ?_ hr.fresh
  intro q hq k hk
  obtain ⟨hne, hmem⟩ := hr.mem_listDel.mp hq
  refine (getLsbD_clearId (r := r.listDel p) k).mpr ⟨hr.bit q hmem k hk, fun hpk => ?_⟩
  exact hne (hr.inj q hmem p hp (hk.trans hpk.symm))

theorem allocId_ok (h : r.allocId p = .ok r') :
    Bitmap.findFirstZeroBit r.vinputIds < vinputMinors ∧
      r' = r.link p (Bitmap.findFirstZeroBit r.vinputIds) := by
  unfold allocId at h
  split at h
  · cases h
  · rename_i hid
    exact ⟨not_le.mp hid, (Except.ok.inj h).symm⟩

theorem heap_link_of_ne {q : Ptr} {id : ℕ} (h : q ≠ p) : (r.link p id).heap q = r.heap q :=
  heap_modify_of_ne r h _

theorem heap_link_self {id : ℕ} :
    (r.link p id).heap p = (r.heap p).map fun v => { v with id := id } := heap_modify_self r p _

theorem Listed.link (hr : Listed r) (hfree : Bitmap.findFirstZeroBit r.vinputIds < vinputMinors)
    (hp : p ∉ r.vinputVdevices) (halloc : r.heap p ≠ none) :
    Listed (r.link p (Bitmap.findFirstZeroBit r.vinputIds)) := by
  obtain ⟨v, hv⟩ := Option.ne_none_iff_exists'.mp halloc
  refine hr.cons hfree hp rfl rfl ?_ ?_ ?_
  · rw [idOf, heap_link_self, hv]
    rfl
  · intro q hq
    exact idOf_eq_of_heap (heap_link_of_ne fun h => hp (h ▸ hq))
  · intro q hq
    have hne : q ≠ p := by
      rintro rfl
      exact halloc (hr.fresh q hq)
    rw [heap_link_of_ne hne]
    exact hr.fresh q hq

end Lkmpg.VinputDriver.Registry
