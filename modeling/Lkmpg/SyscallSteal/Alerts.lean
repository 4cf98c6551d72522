import Lkmpg.SyscallSteal.Hooks

/-!
# What the alert of `syscall-steal.c` is worth

A module that is unloaded looks whether the entry still points to its own function, and warns that the
system may be left in an unstable state if it does not.  The warning is complete: as long as no module
has given it, modules have been unloaded newest first and every call runs through all of them.  And it
is deserved: after the first one the module that had been loaded right after the one that gave it still
has the function of that module in `original_call`, and its unload makes the entry point there.
-/

namespace Lkmpg.SyscallSteal

open SavedChain Transition

variable {ι α : Type} [DecidableEq ι] {s t : State ι} {act : Act ι} {acts : List (Act ι)} {k m : ι}

/-! ### One step -/

theorem stealStep_start {acquired : Bool} (h : stealStep s (.syscallStealStart m acquired) = some t) :
    m ∉ s.loaded ∧ (t = s ∨ t = { s with
      entry := some (.ourSysOpenat m)
      originalCall := Function.update s.originalCall m s.entry
      stolen := Function.update s.stolen m true
      loaded := m :: s.loaded }) := by
  rw [stealStep] at h
  split at h
  · cases h
  · rename_i hm
    split at h
    · exact ⟨hm, Or.inr (Option.some.inj h).symm⟩
    · exact ⟨hm, Or.inl (Option.some.inj h).symm⟩

theorem stealStep_end (hstolen : s.stolen m = true)
    (h : stealStep s (.syscallStealEnd m) = some t) :
    m ∈ s.loaded ∧ t = { s with
      entry := s.originalCall m
      loaded := s.loaded.erase m
      alerts := if s.entry ≠ some (.ourSysOpenat m) then m :: s.alerts else s.alerts } := by
  simp only [stealStep, hstolen] at h
  split at h
  · rename_i hm
    exact ⟨hm, (Option.some.inj h).symm⟩
  · cases h

omit [DecidableEq ι] in
/-- While the modules are stacked, the entry is the function of the newest one. -/
theorem Stacked.entry_iff (hs : Stacked s) (hm : m ∈ s.loaded) :
    s.entry = some (.ourSysOpenat m) ↔ s.loaded.head? = some m := by
  have hhead := hs.chain.head
  cases hloaded : s.loaded with
  | nil => simp [hloaded] at hm
  | cons k ms =>
      rw [hloaded] at hhead
      rw [hhead, List.head?_cons]
      constructor
      · intro heq
        obtain ⟨rfl⟩ := Fn.ourSysOpenat.inj (Option.some.inj heq)
        rfl
      · intro heq
        obtain rfl := Option.some.inj heq
        rfl

/-- A step gives an alert exactly where it is not nested. -/
theorem Stacked.alerts_step (hs : Stacked s) (h : stealStep s act = some t) :
    t.alerts = s.alerts ↔ Nested s act := by
  cases act with
  | syscallStealStart m acquired =>
      refine iff_of_true ?_ trivial
      obtain ⟨-, rfl | rfl⟩ := stealStep_start h
      · rfl
      · rfl
  | syscallStealEnd m =>
      have hm : m ∈ s.loaded := by
        by_contra hm
        rw [stealStep, if_neg hm] at h
        cases h
      obtain ⟨-, rfl⟩ := stealStep_end (hs.stolen m hm) h
      show (if s.entry ≠ some (.ourSysOpenat m) then m :: s.alerts else s.alerts) = s.alerts ↔
        s.loaded.head? = some m
      rw [← hs.entry_iff hm]
      split
      · rename_i hne
        exact iff_of_false (List.cons_ne_self m s.alerts) hne
      · rename_i heq
        exact iff_of_true rfl (not_not.mp heq)

/-- Alerts are not taken back. -/
theorem alerts_suffix (h : stealStep s act = some t) : s.alerts <:+ t.alerts := by
  cases act with
  | syscallStealStart m acquired =>
      obtain ⟨-, rfl | rfl⟩ := stealStep_start h
      · exact List.suffix_rfl
      · exact List.suffix_rfl
  | syscallStealEnd m =>
      rw [stealStep] at h
      split at h
      · split at h
        · obtain rfl := Option.some.inj h
          show s.alerts <:+ if _ then _ else _
          split
          · exact List.suffix_cons m s.alerts
          · exact List.suffix_rfl
        · obtain rfl := Option.some.inj h
          exact List.suffix_rfl
      · cases h

theorem alerts_suffix_run (h : run stealStep s acts = some t) : s.alerts <:+ t.alerts := by
  have hstep : ∀ u act v, s.alerts <:+ u.alerts → stealStep u act = some v → s.alerts <:+ v.alerts :=
    fun _ _ _ hu hv => hu.trans (alerts_suffix hv)
  exact run_invariant hstep List.suffix_rfl h

/-! ### Runs without an alert -/

/-- As long as there is no alert, the unloads are nested and the modules stacked. -/
theorem nested_of_alerts (hs : Stacked s) (hrun : run stealStep s acts = some t)
    (halerts : t.alerts = s.alerts) : Along stealStep Nested s acts := by
  induction acts generalizing s with
  | nil => trivial
  | cons act acts ih =>
      obtain ⟨u, hu, hrest⟩ := run_cons_eq_some.mp hrun
      have hfirst := alerts_suffix hu
      have hsecond := alerts_suffix_run hrest
      rw [halerts] at hsecond
      have hkept : u.alerts = s.alerts :=
        hsecond.eq_of_length (Nat.le_antisymm hsecond.length_le hfirst.length_le)
      have hnested := (hs.alerts_step hu).mp hkept
      rw [along_cons hu]
      exact ⟨hnested, ih (hs.step hnested hu) hrest (halerts.trans hkept.symm)⟩

/-- **The alert is complete.**  However modules are loaded and unloaded, as long as none of them has
given the alert each call of `openat` enters each loaded module once, the newest first, and no other
one, and returns what the genuine system call does. -/
theorem openat_of_no_alert (hrun : run stealStep State.init acts = some s) (halerts : s.alerts = [])
    (e : Env ι α) (args : α) :
    openat e s args = some ⟨(s.loaded.map Fn.ourSysOpenat ++ [Fn.sysOpenat]).map (·, args),
      s.loaded.flatMap fun m => e.report m args, e.sysOpenat args⟩ := by
  have hnested := nested_of_alerts stacked_init hrun halerts
  have hs : Stacked s := run_induction (fun _ _ _ => Stacked.step) stacked_init hnested hrun
  exact callFn_chain e s args hs.chain (fun _ => id) (Nat.lt_succ_self _)

/-- Two modules are loaded, and the newer one is unloaded and loaded again. -/
theorem openat_of_no_alert_reload :
    ∃ s, run stealStep State.init [.syscallStealStart (0 : Fin 2) true, .syscallStealStart 1 true,
        .syscallStealEnd 1, .syscallStealStart 1 true] = some s ∧
      openat ⟨0, fun _ => 1, fun _ => [], fun n => n⟩ s (3 : ℤ) =
        some ⟨[(.ourSysOpenat 1, 3), (.ourSysOpenat 0, 3), (.sysOpenat, 3)], [], 3⟩ := by
  obtain ⟨s, hrun, hloaded, halerts⟩ : ∃ s, run stealStep State.init
      [.syscallStealStart (0 : Fin 2) true, .syscallStealStart 1 true, .syscallStealEnd 1,
        .syscallStealStart 1 true] = some s ∧ s.loaded = [1, 0] ∧ s.alerts = [] := ⟨_, rfl, rfl, rfl⟩
  have hopenat := openat_of_no_alert hrun halerts ⟨0, fun _ => 1, fun _ => [], fun n => n⟩ (3 : ℤ)
  rw [hloaded] at hopenat
  exact ⟨s, hrun, hopenat⟩

/-! ### After an alert -/

/-- `k` is in the kernel and has the function of `m` to return to, and `m` is not. -/
structure Dangling (k m : ι) (s : State ι) : Prop where
  loaded : k ∈ s.loaded
  stolen : s.stolen k = true
  saved : s.originalCall k = some (.ourSysOpenat m)
  gone : m ∉ s.loaded

/-- The acts that leave `k` where it is and do not load `m` again. -/
def Leaves (k m : ι) : Act ι → Prop
  | .syscallStealStart j _ => j ≠ m
  | .syscallStealEnd j => j ≠ k

/-- **Step.**  What `k` has saved stays as it is. -/
theorem Dangling.step (hd : Dangling k m s) (hact : Leaves k m act)
    (h : stealStep s act = some t) : Dangling k m t := by
  cases act with
  | syscallStealStart j acquired =>
      obtain ⟨hj, rfl | rfl⟩ := stealStep_start h
      · exact hd
      · have hkj : k ≠ j := by
          rintro rfl
          exact hj hd.loaded
        refine ⟨List.mem_cons_of_mem j hd.loaded, ?_, ?_, ?_⟩
        · exact (Function.update_of_ne hkj true s.stolen).trans hd.stolen
        · exact (Function.update_of_ne hkj s.entry s.originalCall).trans hd.saved
        · exact List.not_mem_cons_of_ne_of_not_mem (Ne.symm hact) hd.gone
  | syscallStealEnd j =>
      rw [stealStep] at h
      have hloaded : k ∈ s.loaded.erase j :=
        (List.mem_erase_of_ne (Ne.symm hact)).mpr hd.loaded
      have hgone : m ∉ s.loaded.erase j := fun hm => hd.gone (List.mem_of_mem_erase hm)
      split at h
      · split at h
        · obtain rfl := Option.some.inj h
          exact ⟨hloaded, hd.stolen, hd.saved, hgone⟩
        · obtain rfl := Option.some.inj h
          exact ⟨hloaded, hd.stolen, hd.saved, hgone⟩
      · cases h

/-- The unload of `k` makes the entry point to code that is not there. -/
theorem Dangling.openat_eq_none (hd : Dangling k m s)
    (h : stealStep s (.syscallStealEnd k) = some t) (e : Env ι α) (args : α) :
    openat e t args = none := by
  obtain ⟨-, rfl⟩ := stealStep_end hd.stolen h
  have hgone : m ∉ s.loaded.erase k := fun hm => hd.gone (List.mem_of_mem_erase hm)
  rw [openat]
  show callFn e _ _ (s.originalCall k) args = none
  rw [hd.saved, callFn, if_neg hgone]

/-- **The alert is deserved.**  Let no module have given the alert, and let `m` be unloaded while `k`
is there, which had been loaded right after it.  Then `m` gives the alert, and whatever is loaded and
unloaded in between, if `m` is not loaded again, the unload of `k` makes the next `openat` jump to the
code of `m`, which is not in the kernel. -/
theorem openat_after_alert {us ds : List ι} {acts' : List (Act ι)} {u v w : State ι}
    (hrun : run stealStep State.init acts = some s) (halerts : s.alerts = [])
    (hloaded : s.loaded = us ++ k :: m :: ds)
    (hm : stealStep s (.syscallStealEnd m) = some u)
    (hacts : ∀ act ∈ acts', Leaves k m act) (hrest : run stealStep u acts' = some v)
    (hk : stealStep v (.syscallStealEnd k) = some w) :
    u.alerts = [m] ∧ ∀ (e : Env ι α) (args : α), openat e w args = none := by
  have hnested := nested_of_alerts stacked_init hrun halerts
  have hs : Stacked s := run_induction (fun _ _ _ => Stacked.step) stacked_init hnested hrun
  have hnodup := hs.nodup
  have hmem : m ∈ s.loaded := by simp [hloaded]
  have hkm : k ≠ m := by
    rw [hloaded] at hnodup
    have htail := (List.nodup_append.mp hnodup).2.1
    rintro rfl
    exact (List.nodup_cons.mp htail).1 List.mem_cons_self
  have hentry : s.entry ≠ some (.ourSysOpenat m) := by
    rw [Ne, hs.entry_iff hmem, hloaded]
    cases us with
    | nil => simpa using hkm
    | cons j us =>
        rw [hloaded, List.cons_append, List.nodup_cons] at hnodup
        rintro heq
        obtain rfl := Option.some.inj heq
        simp at hnodup
  obtain ⟨-, hu⟩ := stealStep_end (hs.stolen m hmem) hm
  have hdangling : Dangling k m u := by
    subst hu
    refine ⟨(List.mem_erase_of_ne hkm).mpr (by simp [hloaded]), ?_, ?_, ?_⟩
    · exact hs.stolen k (by simp [hloaded])
    · have hchain := hs.chain
      rw [hloaded] at hchain
      exact hchain.saved_eq
    · exact fun h => (List.Nodup.mem_erase_iff hs.nodup).mp h |>.1 rfl
  refine ⟨?_, fun e args => ?_⟩
  · subst hu
    show (if _ then _ else _) = _
    rw [if_pos hentry, halerts]
  · have hv : Dangling k m v :=
      run_induction (C := fun _ => Leaves k m) (fun _ _ _ h hact hstep => h.step hact hstep) hdangling
        (Along.of_forall hacts) hrest
    exact hv.openat_eq_none hk e args

/-- Module 0 is unloaded before module 1, and module 2 is loaded in between. -/
theorem openat_after_alert_two :
    ∃ s u v w, run stealStep State.init
        [.syscallStealStart (0 : Fin 3) true, .syscallStealStart 1 true] = some s ∧
      stealStep s (.syscallStealEnd 0) = some u ∧
      run stealStep u [.syscallStealStart 2 true] = some v ∧
      stealStep v (.syscallStealEnd 1) = some w ∧
      u.alerts = [0] ∧ ∀ (e : Env (Fin 3) ℤ) (args : ℤ), openat e w args = none := by
  obtain ⟨s, hrun, hloaded, halerts⟩ : ∃ s, run stealStep State.init
      [.syscallStealStart (0 : Fin 3) true, .syscallStealStart 1 true] = some s ∧
      s.loaded = [] ++ 1 :: 0 :: [] ∧ s.alerts = [] := ⟨_, rfl, rfl, rfl⟩
  obtain ⟨u, hu⟩ : ∃ u, stealStep s (.syscallStealEnd 0) = some u := by
    obtain rfl := Option.some.inj hrun
    exact ⟨_, rfl⟩
  obtain ⟨v, hv⟩ : ∃ v, run stealStep u [.syscallStealStart 2 true] = some v := by
    obtain rfl := Option.some.inj hrun
    obtain rfl := Option.some.inj hu
    exact ⟨_, rfl⟩
  obtain ⟨w, hw⟩ : ∃ w, stealStep v (.syscallStealEnd 1) = some w := by
    obtain rfl := Option.some.inj hrun
    obtain rfl := Option.some.inj hu
    obtain rfl := Option.some.inj hv
    exact ⟨_, rfl⟩
  have hleaves : ∀ act ∈ [Act.syscallStealStart (2 : Fin 3) true], Leaves 1 0 act := by
    simp [Leaves]
  exact ⟨s, u, v, w, hrun, hu, hv, hw,
    openat_after_alert hrun halerts hloaded hu hleaves hv hw⟩

end Lkmpg.SyscallSteal
