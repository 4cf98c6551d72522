import Lkmpg.Vinput.Handles
import Lkmpg.Vinput.Teardown

/-!
# What open files of a vdevice share

A file that has been opened under a minor number is the vdevice of that number, and nothing else of
the driver reaches its last event: not the exports of other vdevices, nor their teardown, nor writes
to them.  So in a run that spares the files, and whose teardowns are clean, all files of a number see
one event, the last that a `vinput_write` through any of them has stored.
-/

namespace Lkmpg.VinputDriver

open Registry Transition

variable {δ ι φ κ : Type}

/-- The event that the step stores in the vdevice of a file of the minor number. -/
def sentTo (minor : ℕ) (s : Driver δ ι φ κ) : FileAct δ ι φ κ → List ℤ
  | .access c =>
      match s.calls c with
      | some ⟨g, _, .sendEntry entry :: _⟩ =>
          match s.files g with
          | .opened file => if file.minor = minor then [entry] else []
          | _ => []
      | _ => []
  | _ => []

/-- The teardowns are clean. -/
def CleanWorld (s : Driver δ ι φ κ) : FileAct δ ι φ κ → Prop
  | .world a => Clean s.world a
  | _ => True

/-- Events that overwrite each other leave the last one. -/
theorem foldl_entries (entries : List ℤ) (e : ℤ) :
    entries.foldl (fun _ entry => entry) e = entries.getLastD e := by
  induction entries generalizing e with
  | nil => rfl
  | cons entry entries ih => rw [List.foldl_cons, ih, List.getLastD_cons]

/-! ### Who owns a vdevice, with files -/

theorem AtStage.access {r : Registry δ} {torn : List Ptr} {q : Ptr} {st : Stage δ}
    (h : AtStage r torn q st) (p : Ptr) (a : Access) : AtStage (a.run r p) torn q st := by
  cases a with
  | sendEntry entry =>
      obtain ⟨⟨v, hv, hfields⟩, hrest⟩ := h
      by_cases hq : q = p
      · subst hq
        refine ⟨⟨{ v with lastEntry := entry }, ?_, hfields⟩, hrest⟩
        rw [Access.run, heap_modify_self, hv]
        rfl
      · refine ⟨⟨v, ?_, hfields⟩, hrest⟩
        rw [Access.run, heap_modify_of_ne r hq, hv]
  | _ => exact h

theorem Access.heap_run_eq_none {r : Registry δ} {p q : Ptr} (a : Access) (h : r.heap q = none) :
    (a.run r p).heap q = none := by
  cases a with
  | sendEntry entry =>
      by_cases hq : q = p
      · subst hq
        rw [Access.run, heap_modify_self, h]
        rfl
      · rw [Access.run, heap_modify_of_ne r hq, h]
  | _ => exact h

theorem Base.access {w : World δ ι} (hw : Base w) (p : Ptr) (a : Access) :
    Base { w with registry := a.run w.registry p } where
  listed := by
    cases a with
    | sendEntry entry => exact hw.listed.modify p fun _ => rfl
    | _ => exact hw.listed
  pcOk := fun x q hq => by
    obtain ⟨st, hallows, hstage⟩ := hw.pcOk x q hq
    exact ⟨st, hallows, hstage.access p a⟩
  excl := hw.excl
  free := fun q hq hun => by
    obtain ⟨d, hd⟩ := hw.free q (fun hnone => hq (a.heap_run_eq_none hnone)) hun
    exact ⟨d, hd.access p a⟩
  tornOld := fun q hq => (hw.tornOld q hq).trans_eq (a.brk_run w.registry p).symm
  tornOnce := hw.tornOnce

section Steps

variable {s t : Driver δ ι φ κ} {a : FileAct δ ι φ κ} {f g : φ} {file other : File}

/-- One vdevice has the number, so the files that have it have that vdevice. -/
theorem FilesOk.privateData_iff (hs : FilesOk s) (hw : Base s.world) (hf : s.files f = .opened file)
    (hg : s.files g = .opened other) :
    other.privateData = file.privateData ↔ other.minor = file.minor := by
  have hlive := hs.live f
  have hlive' := hs.live g
  rw [hf] at hlive
  rw [hg] at hlive'
  obtain ⟨hmem, hid⟩ := hlive
  obtain ⟨hmem', hid'⟩ := hlive'
  constructor
  · intro hsame
    rw [hsame, hid] at hid'
    exact (Option.some.inj hid').symm
  · intro hsame
    exact hw.listed.inj _ hmem' _ hmem (by rw [show s.world.registry = s.registry from rfl, hid,
      hid', hsame])

theorem FilesOk.exists_entry (hs : FilesOk s) (hf : s.files f = .opened file) :
    ∃ e, s.registry.entryOf file.privateData = some e := by
  have hlive := hs.live f
  rw [hf] at hlive
  obtain ⟨v, hv, -⟩ := Option.map_eq_some_iff.mp hlive.2
  exact ⟨v.lastEntry, by rw [Registry.entryOf, hv]; rfl⟩

/-- An access stores the event it brings in the vdevices of its number, and no other event. -/
theorem FilesOk.entry_access (hs : FilesOk s) (hw : Base s.world) (hf : s.files f = .opened file)
    {c : κ} {vinput : Ptr} {x : Access} {todo : List Access}
    (hc : s.calls c = some ⟨g, vinput, x :: todo⟩) {e : ℤ}
    (he : s.registry.entryOf file.privateData = some e) :
    (x.run s.registry vinput).entryOf file.privateData =
      some ((sentTo file.minor s (.access c)).foldl (fun _ entry => entry) e) := by
  obtain ⟨other, hg, hsame⟩ := hs.calls c _ hc
  obtain rfl : vinput = other.privateData := hsame
  cases x with
  | sendEntry entry =>
      have hiff := hs.privateData_iff hw hf hg
      by_cases hminor : other.minor = file.minor
      · -- the vdevice of the file itself
        obtain ⟨v, hv, -⟩ := Option.map_eq_some_iff.mp he
        simp [Registry.entryOf, Access.run, sentTo, hc, hg, hminor, hiff.mpr hminor,
          heap_modify_self, hv]
      · have hne : file.privateData ≠ other.privateData := fun hp => hminor (hiff.mp hp.symm)
        simpa [Registry.entryOf, Access.run, sentTo, hc, hg, hminor, heap_modify_of_ne _ hne]
          using he
  | _ => simpa [Access.run, sentTo, hc] using he

variable [DecidableEq δ] [DecidableEq ι] [DecidableEq φ] [DecidableEq κ] [Fintype κ]
  {name : δ → List Byte}

theorem Base.of_fileStep (hw : Base s.world) (hclean : CleanWorld s a)
    (h : fileStep name s a = some t) : Base t.world := by
  cases fileStep_eq_some h with
  | world hstep => exact hw.of_worldStep hclean hstep
  | @access c g vinput a todo hc => exact hw.access vinput a
  | _ => exact hw

/-- A file stays what it is until it is released. -/
theorem fileStep_files (h : fileStep name s a = some t) (ha : a ≠ .vinputRelease f)
    (hf : s.files f = .opened file) : t.files f = .opened file := by
  have hother : ∀ {g : φ} (x : FileState), f ≠ g → (s.setFile g x).files f = .opened file :=
    fun x hfg => (Function.update_of_ne hfg _ _).trans hf
  cases fileStep_eq_some h with
  | vinputOpen minor hg =>
      refine hother _ ?_
      rintro rfl
      cases hf.symm.trans hg
  | openEnd ok hg =>
      refine hother _ ?_
      rintro rfl
      cases hf.symm.trans hg
  | vinputRelease hg hfree =>
      refine hother _ ?_
      rintro rfl
      exact ha rfl
  | _ => exact hf

/-- **Step.**  The event of a file is the one that is stored through a file of its number, if one is,
and stays the same otherwise. -/
theorem FilesOk.entry_step (hs : FilesOk s) (hw : Base s.world) (hf : s.files f = .opened file)
    (hspares : SparesFiles s a) (h : fileStep name s a = some t) {e : ℤ}
    (he : s.registry.entryOf file.privateData = some e) :
    t.registry.entryOf file.privateData =
      some ((sentTo file.minor s a).foldl (fun _ entry => entry) e) := by
  cases fileStep_eq_some h with
  | @world a w' hstep =>
      have hlive := hs.live f
      rw [hf] at hlive
      have hvinput : (s.files f).vinput = some file.privateData := by rw [hf]; rfl
      exact (hs.fresh.stays_worldStep hstep hlive.1 (hspares.ne hvinput)).2.2.trans he
  | access hc => exact hs.entry_access hw hf hc he
  | _ => exact he

/-- **Run.**  In every interleaving that spares the files and whose teardowns are clean, a file that
is not released has the last event that has been stored through any file of its number since, or the
one that it had. -/
theorem last_entry_shared {acts₁ acts₂ : List (FileAct δ ι φ κ)} {s t : Driver δ ι φ κ} {f : φ}
    {file : File} (h₁ : run (fileStep name) Driver.init acts₁ = some s)
    (hspares : Along (fileStep name) SparesFiles Driver.init (acts₁ ++ acts₂))
    (hclean : Along (fileStep name) CleanWorld Driver.init (acts₁ ++ acts₂))
    (hf : s.files f = .opened file) (h₂ : run (fileStep name) s acts₂ = some t)
    (hkeep : ∀ a ∈ acts₂, a ≠ .vinputRelease f) :
    ∃ e, s.registry.entryOf file.privateData = some e ∧
      t.registry.entryOf file.privateData =
        some ((events (fileStep name) (sentTo file.minor) s acts₂).getLastD e) := by
  have hinv : ∀ (u : Driver δ ι φ κ) a v, FilesOk u ∧ Base u.world →
      SparesFiles u a ∧ CleanWorld u a → fileStep name u a = some v → FilesOk v ∧ Base v.world :=
    fun u a v hu hC huv => ⟨hu.1.step hC.1 huv, hu.2.of_fileStep hC.2 huv⟩
  obtain ⟨hboth₁, hboth₂⟩ := (along_append h₁).mp (hspares.and hclean)
  have hs := run_induction hinv ⟨filesOk_init, base_init⟩ hboth₁ h₁
  obtain ⟨e, he⟩ := hs.1.exists_entry hf
  refine ⟨e, he, ?_⟩
  have hstep : ∀ (u : Driver δ ι φ κ) a v e,
      ((FilesOk u ∧ Base u.world) ∧ u.files f = .opened file ∧
        u.registry.entryOf file.privateData = some e) →
      ((SparesFiles u a ∧ CleanWorld u a) ∧ a ≠ .vinputRelease f) → fileStep name u a = some v →
      (FilesOk v ∧ Base v.world) ∧ v.files f = .opened file ∧
        v.registry.entryOf file.privateData =
          some ((sentTo file.minor u a).foldl (fun _ entry => entry) e) := by
    rintro u a v e ⟨hu, hfile, he⟩ ⟨hC, hrelease⟩ huv
    exact ⟨hinv u a v hu hC huv, fileStep_files huv hrelease hfile,
      hu.1.entry_step hu.2 hfile hC.1 huv he⟩
  have hall := run_simulation hstep ⟨hs, hf, he⟩ (hboth₂.and (Along.of_forall hkeep)) h₂
  rw [← foldl_entries]
  exact hall.2.2

end Steps

/-- The step takes over no vdevice. -/
def takesNothing (s : Driver δ ι φ κ) : FileAct δ ι φ κ → Bool
  | .world (.step x _ _) => (s.world.pc x).tearsDown.isEmpty
  | _ => true

theorem cleanWorld_of_takesNothing {s : Driver δ ι φ κ} {a : FileAct δ ι φ κ}
    (h : takesNothing s a = true) : CleanWorld s a := by
  cases a with
  | world a =>
      cases a with
      | step x ok junk =>
          intro p k hp
          simp [takesNothing, hp, Pc.tearsDown] at h
      | _ => trivial
  | _ => trivial

/-- Two keyboards; file `none` has the second one, and the other two files have the first one. -/
def twoKeyboards : List (FileAct ℕ ℕ (Option Bool) Bool) :=
  [[.world (.register 7)], exported, exported,
    [.vinputOpen (some false) 0, .vinputOpen (some true) 0, .openEnd (some true) true,
      .openEnd (some false) true, .vinputOpen none 1, .openEnd none true]].flatten

/-- Overlapping writes to both keyboards. -/
def twoWrites : List (FileAct ℕ ℕ (Option Bool) Bool) :=
  [.vinputWrite false (some true) (.sent true 30), .access false,
    .vinputWrite true none (.sent true (-48)), .access false, .access true, .access true,
    .access false]

theorem last_entry_shared_twoKeyboards :
    ∃ s t : Driver ℕ ℕ (Option Bool) Bool, ∃ file,
      run (fileStep fun _ => vinputKbd) Driver.init twoKeyboards = some s ∧
        s.files (some false) = .opened file ∧
        run (fileStep fun _ => vinputKbd) s twoWrites = some t ∧
        t.registry.entryOf file.privateData = some 30 := by
  have hspares : Along (fileStep fun _ => vinputKbd) SparesFiles
      (Driver.init : Driver ℕ ℕ (Option Bool) Bool) (twoKeyboards ++ twoWrites) := by
    decide +kernel
  have hnothing : Along (fileStep fun _ => vinputKbd) (fun s a => takesNothing s a = true)
      (Driver.init : Driver ℕ ℕ (Option Bool) Bool) (twoKeyboards ++ twoWrites) := by
    decide +kernel
  have hvalues : (run (fileStep fun _ => vinputKbd) (Driver.init : Driver ℕ ℕ (Option Bool) Bool)
      twoKeyboards).map (fun s => (s.files (some false),
        events (fileStep fun _ => vinputKbd) (sentTo 0) s twoWrites,
        (run (fileStep fun _ => vinputKbd) s twoWrites).isSome)) =
      some (.opened ⟨0, 0⟩, [30], true) := by
    decide +kernel
  obtain ⟨s, h₁, hs⟩ := Option.map_eq_some_iff.mp hvalues
  obtain ⟨hf, hrest⟩ := Prod.mk.inj hs
  obtain ⟨hevents, hsome⟩ := Prod.mk.inj hrest
  obtain ⟨t, h₂⟩ := Option.isSome_iff_exists.mp hsome
  have hkeep : ∀ a ∈ twoWrites, a ≠ .vinputRelease (some false) := by
    simp [twoWrites]
  obtain ⟨e, -, hlast⟩ := last_entry_shared h₁ hspares
    (hnothing.mono fun _ _ => cleanWorld_of_takesNothing) hf h₂ hkeep
  rw [hevents] at hlast
  exact ⟨s, t, _, h₁, hf, h₂, hlast⟩

end Lkmpg.VinputDriver
