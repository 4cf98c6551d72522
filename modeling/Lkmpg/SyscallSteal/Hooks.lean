import Lkmpg.Lib.CString
import Lkmpg.Lib.SavedChain
import Lkmpg.Lib.Transition

/-!
# Stacked hooks of `syscall-steal.c`

Any number of modules built from this file replace `sys_call_table[__NR_openat]`, each with its own
`original_call`.  As long as each unload is that of the newest module, the saved pointers form a
chain through the loaded modules down to the genuine `sys_openat`.
-/

namespace Lkmpg.SyscallSteal

open CString SavedChain Transition

/-! ### The table entry -/

/-- The functions that the entry can point to; `none` is the null pointer. -/
inductive Fn (ι : Type) where
  | sysOpenat
  | ourSysOpenat (m : ι)
  deriving DecidableEq

structure State (ι : Type) where
  /-- `sys_call_table_stolen[__NR_openat]` -/
  entry : Option (Fn ι)
  /-- `original_call` of each module -/
  originalCall : ι → Option (Fn ι)
  /-- whether `sys_call_table_stolen` of the module is set -/
  stolen : ι → Bool
  /-- the modules that are in the kernel, the newest first -/
  loaded : List ι
  /-- the modules that have found somebody else in the entry when they were unloaded -/
  alerts : List ι

/-- No module is loaded. -/
def State.init {ι : Type} : State ι := ⟨some .sysOpenat, fun _ => none, fun _ => false, [], []⟩

inductive Act (ι : Type) where
  /-- module load; `acquired` is whether `acquire_sys_call_table` finds the table -/
  | syscallStealStart (m : ι) (acquired : Bool)
  | syscallStealEnd (m : ι)

variable {ι : Type} [DecidableEq ι]

def stealStep (s : State ι) : Act ι → Option (State ι)
  | .syscallStealStart m acquired =>
      if m ∈ s.loaded then none
      else if acquired then some { s with
        entry := some (.ourSysOpenat m)
        originalCall := Function.update s.originalCall m s.entry
        stolen := Function.update s.stolen m true
        loaded := m :: s.loaded }
      else some s
  | .syscallStealEnd m =>
      if m ∈ s.loaded then
        if s.stolen m then some { s with
          entry := s.originalCall m
          loaded := s.loaded.erase m
          alerts := if s.entry ≠ some (.ourSysOpenat m) then m :: s.alerts else s.alerts }
        else some { s with loaded := s.loaded.erase m }
      else none

/-! ### A call of `openat` -/

/-- What a call depends on: its process, the `uid` parameters of the modules, user memory and the
genuine system call. -/
structure Env (ι α : Type) where
  currentUid : BitVec 32
  uid : ι → BitVec 32
  /-- the bytes of the file name, up to the first NUL that `get_user` yields -/
  filename : α → List Byte
  sysOpenat : α → ℤ

/-- What a call has done: the functions it has entered, with their arguments, what they have
printed, and what it returns. -/
structure Called (ι α : Type) where
  visited : List (Fn ι × α)
  printed : List (List Byte)
  ret : ℤ

variable {α : Type}

/-- The `pr_info` calls of `our_sys_openat`. -/
def Env.report (e : Env ι α) (m : ι) (args : α) : List (List Byte) :=
  if e.currentUid ≠ e.uid m then []
  else (bytes "Opened file by " ++ decimal (e.uid m).toInt ++ bytes ": ") ::
    (e.filename args ++ [0]).map (fun c => [c]) ++ [bytes "\n"]

/-- A call of the function at a pointer, at most `fuel` functions deep; `none` if it runs on the null
pointer or on a module that is not in the kernel. -/
def callFn (e : Env ι α) (s : State ι) : ℕ → Option (Fn ι) → α → Option (Called ι α)
  | 0, _, _ => none
  | _, none, _ => none
  | _ + 1, some .sysOpenat, args => some ⟨[(.sysOpenat, args)], [], e.sysOpenat args⟩
  | fuel + 1, some (.ourSysOpenat m), args =>
      if m ∈ s.loaded then
        (callFn e s fuel (s.originalCall m) args).map fun rest =>
          ⟨(.ourSysOpenat m, args) :: rest.visited, e.report m args ++ rest.printed, rest.ret⟩
      else none

/-- The system call. -/
def openat (e : Env ι α) (s : State ι) (args : α) : Option (Called ι α) :=
  callFn e s (s.loaded.length + 1) s.entry args

/-! ### Nested loads and unloads -/

/-- Only the newest module that is still loaded is unloaded. -/
def Nested (s : State ι) : Act ι → Prop
  | .syscallStealEnd m => s.loaded.head? = some m
  | _ => True

/-- The saved pointers lead through the loaded modules to the genuine system call. -/
structure Stacked (s : State ι) : Prop where
  chain : Chain (fun m => some (Fn.ourSysOpenat m)) s.originalCall (some .sysOpenat) s.entry s.loaded
  nodup : s.loaded.Nodup
  stolen : ∀ m ∈ s.loaded, s.stolen m = true

omit [DecidableEq ι] in
theorem stacked_init : Stacked (State.init : State ι) :=
  ⟨rfl, List.nodup_nil, fun _ h => absurd h List.not_mem_nil⟩

/-- **Step.**  A load puts the new module in front of the chain, and the unload of the newest one
takes it away. -/
theorem Stacked.step {s t : State ι} {act : Act ι} (hs : Stacked s) (hC : Nested s act)
    (h : stealStep s act = some t) : Stacked t := by
  cases act with
  | syscallStealStart m acquired =>
      rw [stealStep] at h
      split at h
      · cases h
      · rename_i hm
        split at h <;> obtain rfl := Option.some.inj h
        · refine ⟨hs.chain.push hm, List.nodup_cons.mpr ⟨hm, hs.nodup⟩, ?_⟩
          refine (Function.forall_update_iff s.stolen fun k b => k ∈ m :: s.loaded → b = true).mpr
            ⟨fun _ => rfl, fun k hkm hk => ?_⟩
          exact hs.stolen k ((List.mem_cons.mp hk).resolve_left hkm)
        · exact hs
  | syscallStealEnd m =>
      obtain ⟨ms, hloaded⟩ : ∃ ms, s.loaded = m :: ms := List.head?_eq_some_iff.mp hC
      have hmem : m ∈ s.loaded := by
        rw [hloaded]
        exact List.mem_cons_self
      have herase : s.loaded.erase m = ms := by rw [hloaded, List.erase_cons_head]
      have hchain := hs.chain
      rw [hloaded] at hchain
      rw [stealStep, if_pos hmem, if_pos (hs.stolen m hmem)] at h
      obtain rfl := Option.some.inj h
      refine ⟨?_, hs.nodup.erase m, fun k hk => hs.stolen k (List.mem_of_mem_erase hk)⟩
      show Chain _ _ _ (s.originalCall m) (s.loaded.erase m)
      rw [herase]
      exact hchain.pop

/-- A call follows the chain. -/
theorem callFn_chain (e : Env ι α) (s : State ι) (args : α) {p : Option (Fn ι)} {ms : List ι}
    {fuel : ℕ} (h : Chain (fun m => some (Fn.ourSysOpenat m)) s.originalCall (some .sysOpenat) p ms)
    (hms : ∀ m ∈ ms, m ∈ s.loaded) (hfuel : ms.length < fuel) :
    callFn e s fuel p args = some ⟨(ms.map Fn.ourSysOpenat ++ [Fn.sysOpenat]).map (·, args),
      ms.flatMap fun m => e.report m args, e.sysOpenat args⟩ := by
  induction ms generalizing p fuel with
  | nil =>
      obtain ⟨fuel, rfl⟩ : ∃ n, fuel = n + 1 := ⟨fuel - 1, by omega⟩
      obtain rfl : p = some .sysOpenat := h
      rfl
  | cons m ms ih =>
      rw [List.length_cons] at hfuel
      obtain ⟨fuel, rfl⟩ : ∃ n, fuel = n + 1 := ⟨fuel - 1, by omega⟩
      obtain rfl : p = some (.ourSysOpenat m) := h.1
      rw [callFn, if_pos (hms m List.mem_cons_self),
        ih h.2 (fun k hk => hms k (List.mem_cons_of_mem m hk)) (by omega)]
      rfl

/-! ### Balanced sequences -/

/-- A sequence in which each unload takes back a load of the sequence, the newest one that is still
there. -/
inductive Balanced : List (Act ι) → Prop where
  | nil : Balanced []
  | failed (m : ι) : Balanced [.syscallStealStart m false]
  | nest (m : ι) {acts : List (Act ι)} (h : Balanced acts) :
      Balanced (.syscallStealStart m true :: acts ++ [.syscallStealEnd m])
  | append {acts acts' : List (Act ι)} (h : Balanced acts) (h' : Balanced acts') :
      Balanced (acts ++ acts')

/-- What a balanced sequence leaves as it was. -/
structure Restored (s t : State ι) : Prop where
  entry : t.entry = s.entry
  loaded : t.loaded = s.loaded
  originalCall : ∀ m ∈ s.loaded, t.originalCall m = s.originalCall m
  stolen : ∀ m ∈ s.loaded, t.stolen m = s.stolen m

/-- **Unwinding.**  Whatever is in the entry and whoever is loaded, after a balanced sequence the
entry is the one found before it. -/
theorem Balanced.restored {acts : List (Act ι)} (h : Balanced acts) {s t : State ι}
    (hrun : run stealStep s acts = some t) : Restored s t := by
  induction h generalizing s t with
  | nil =>
      obtain rfl := Option.some.inj hrun
      exact ⟨rfl, rfl, fun _ _ => rfl, fun _ _ => rfl⟩
  | failed m =>
      obtain ⟨u, hu, hend⟩ := run_cons_eq_some.mp hrun
      obtain rfl := Option.some.inj hend
      rw [stealStep] at hu
      split at hu
      · cases hu
      · obtain rfl := Option.some.inj hu
        exact ⟨rfl, rfl, fun _ _ => rfl, fun _ _ => rfl⟩
  | append _ _ ih ih' =>
      rw [run_append] at hrun
      obtain ⟨u, hu, hrest⟩ := Option.bind_eq_some_iff.mp hrun
      have hfirst := ih hu
      have hsecond := ih' hrest
      refine ⟨hsecond.entry.trans hfirst.entry, hsecond.loaded.trans hfirst.loaded,
        fun m hm => ?_, fun m hm => ?_⟩
      · rw [hsecond.originalCall m (hfirst.loaded ▸ hm), hfirst.originalCall m hm]
      · rw [hsecond.stolen m (hfirst.loaded ▸ hm), hfirst.stolen m hm]
  | nest m _ ih =>
      rw [List.cons_append] at hrun
      obtain ⟨u, hu, hrest⟩ := run_cons_eq_some.mp hrun
      rw [run_append] at hrest
      obtain ⟨v, hv, hlast⟩ := Option.bind_eq_some_iff.mp hrest
      obtain ⟨w, hw, hend⟩ := run_cons_eq_some.mp hlast
      obtain rfl := Option.some.inj hend
      rw [stealStep] at hu
      split at hu
      · cases hu
      · rename_i hm
        obtain rfl := Option.some.inj hu
        have hin := ih hv
        have hloaded : v.loaded = m :: s.loaded := hin.loaded
        have hself : m ∈ m :: s.loaded := List.mem_cons_self
        have hsaved : v.originalCall m = s.entry :=
          (hin.originalCall m hself).trans (Function.update_self m _ _)
        have hstolen : v.stolen m = true :=
          (hin.stolen m hself).trans (Function.update_self m _ _)
        -- the other modules have kept what they had saved
        have hne : ∀ k ∈ s.loaded, k ≠ m := fun k hk hkm => hm (hkm ▸ hk)
        rw [stealStep, hloaded, if_pos hself, if_pos hstolen] at hw
        obtain rfl := Option.some.inj hw
        refine ⟨hsaved, List.erase_cons_head m s.loaded, fun k hk => ?_, fun k hk => ?_⟩
        · exact (hin.originalCall k (List.mem_cons_of_mem m hk)).trans
            (Function.update_of_ne (hne k hk) _ _)
        · exact (hin.stolen k (List.mem_cons_of_mem m hk)).trans
            (Function.update_of_ne (hne k hk) _ _)

/-! ### The hooks unwind -/

/-- **Stacked hooks unwind.**  In every state after a well-nested sequence of loads and unloads a call
of `openat` enters each loaded module once, the newest first, and no other one, ends in the genuine
system call with its own arguments, and returns what that returns; with no module loaded the entry
is the genuine one.  And after every balanced sequence from there the entry is what it was. -/
theorem hooks_unwind {acts : List (Act ι)} {s : State ι}
    (hrun : run stealStep State.init acts = some s)
    (hnest : Along stealStep Nested State.init acts) :
    (∀ (e : Env ι α) (args : α), ∃ call, openat e s args = some call ∧
      call.visited = (s.loaded.map Fn.ourSysOpenat ++ [Fn.sysOpenat]).map (·, args) ∧
      call.printed = (s.loaded.flatMap fun m => e.report m args) ∧
      call.ret = e.sysOpenat args) ∧
    s.loaded.Nodup ∧ s.entry = some ((s.loaded.head?.map Fn.ourSysOpenat).getD .sysOpenat) ∧
    ∀ acts' t, Balanced acts' → run stealStep s acts' = some t → t.entry = s.entry := by
  have hs : Stacked s := run_induction (fun _ _ _ => Stacked.step) stacked_init hnest hrun
  refine ⟨fun e args => ?_, hs.nodup, ?_, fun acts' t hbal ht => (hbal.restored ht).entry⟩
  · exact ⟨_, callFn_chain e s args hs.chain (fun _ => id) (Nat.lt_succ_self _), rfl, rfl, rfl⟩
  · rw [hs.chain.head]
    cases s.loaded <;> rfl

/-- Modules 0 and 1 are loaded, 1 is unloaded and 2 takes its place; file names are their own
arguments. -/
theorem hooks_unwind_two :
    ∃ s, run stealStep State.init [.syscallStealStart (0 : Fin 3) true, .syscallStealStart 1 true,
        .syscallStealEnd 1, .syscallStealStart 2 true] = some s ∧
      ∃ call, openat ⟨0, fun _ => 0, fun path => path, fun path => path.length⟩ s (bytes "/tmp") =
          some call ∧
        call.visited = [(.ourSysOpenat 2, bytes "/tmp"), (.ourSysOpenat 0, bytes "/tmp"),
          (.sysOpenat, bytes "/tmp")] ∧
        call.ret = 4 := by
  obtain ⟨s, hrun, hloaded⟩ : ∃ s, run stealStep State.init [.syscallStealStart (0 : Fin 3) true,
      .syscallStealStart 1 true, .syscallStealEnd 1, .syscallStealStart 2 true] = some s ∧
      s.loaded = [2, 0] := ⟨_, rfl, rfl⟩
  have hnest : Along stealStep Nested (State.init : State (Fin 3)) [.syscallStealStart 0 true,
      .syscallStealStart 1 true, .syscallStealEnd 1, .syscallStealStart 2 true] := by
    refine ⟨trivial, fun t ht => ⟨trivial, fun u hu => ⟨?_, fun v hv => ⟨trivial, fun _ _ => trivial⟩⟩⟩⟩
    obtain rfl := Option.some.inj ht
    obtain rfl := Option.some.inj hu
    rfl
  obtain ⟨call, hcall, hvisited, -, hret⟩ := (hooks_unwind hrun hnest).1
    ⟨0, fun _ => 0, fun path => path, fun path => path.length⟩ (bytes "/tmp")
  rw [hloaded] at hvisited
  exact ⟨s, hrun, call, hcall, hvisited, hret⟩

end Lkmpg.SyscallSteal
