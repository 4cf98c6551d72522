import Mathlib.Data.Multiset.AddSub

/-!
# Resources that are held

A `Ledger` is the multiset of the resources that a component holds, together with the releases of
resources that it did not hold.  Code that releases what it has acquired, in whatever order, leaves
the ledger as it found it (`releaseAll_acquireAll`).
-/

structure Ledger (ρ : Type*) where
  held : Multiset ρ
  /-- what has been released without being held, the last one first -/
  stray : List ρ

namespace Ledger

variable {ρ : Type*} [DecidableEq ρ] {l : Ledger ρ} {r : ρ} {rs rs' : List ρ}

/-- Nothing is held, and nothing has gone wrong. -/
def empty : Ledger ρ := ⟨0, []⟩

def acquire (l : Ledger ρ) (r : ρ) : Ledger ρ := { l with held := r ::ₘ l.held }

def release (l : Ledger ρ) (r : ρ) : Ledger ρ :=
  if r ∈ l.held then { l with held := l.held.erase r } else { l with stray := r :: l.stray }

def acquireAll (l : Ledger ρ) (rs : List ρ) : Ledger ρ := rs.foldl acquire l

def releaseAll (l : Ledger ρ) (rs : List ρ) : Ledger ρ := rs.foldl release l

@[simp] theorem releaseAll_nil (l : Ledger ρ) : l.releaseAll [] = l := rfl

@[simp] theorem releaseAll_cons (l : Ledger ρ) (r : ρ) (rs : List ρ) :
    l.releaseAll (r :: rs) = (l.release r).releaseAll rs := rfl

omit [DecidableEq ρ] in
theorem acquire_comm (l : Ledger ρ) (r r' : ρ) :
    (l.acquire r).acquire r' = (l.acquire r').acquire r :=
  congrArg (Ledger.mk · l.stray) (Multiset.cons_swap r' r l.held)

theorem release_acquire (l : Ledger ρ) (r : ρ) : (l.acquire r).release r = l := by
  rw [release, if_pos (show r ∈ (l.acquire r).held from Multiset.mem_cons_self r l.held)]
  show Ledger.mk ((r ::ₘ l.held).erase r) l.stray = l
  rw [Multiset.erase_cons_head]

omit [DecidableEq ρ] in
/-- The order of acquisitions does not matter. -/
theorem acquireAll_perm (l : Ledger ρ) (h : rs.Perm rs') : l.acquireAll rs = l.acquireAll rs' := by
  induction h generalizing l with
  | nil => rfl
  | cons r _ ih => exact ih (l.acquire r)
  | swap r r' rs =>
      show ((l.acquire r').acquire r).acquireAll rs = ((l.acquire r).acquire r').acquireAll rs
      rw [acquire_comm]
  | trans _ _ ih ih' => exact (ih l).trans (ih' l)

omit [DecidableEq ρ] in
theorem acquireAll_concat (l : Ledger ρ) (rs : List ρ) (r : ρ) :
    l.acquireAll (rs ++ [r]) = (l.acquireAll rs).acquire r := by
  rw [acquireAll, List.foldl_append]
  rfl

omit [DecidableEq ρ] in
/-- An acquisition can as well come last. -/
theorem acquireAll_acquire (l : Ledger ρ) (r : ρ) (rs : List ρ) :
    (l.acquire r).acquireAll rs = (l.acquireAll rs).acquire r := by
  have hperm : (r :: rs).Perm (rs ++ [r]) := (List.perm_append_singleton r rs).symm
  rw [← acquireAll_concat, ← acquireAll_perm l hperm]
  rfl

/-- **Matching releases.**  What has been acquired can be released in any order, and then the ledger
is as before. -/
theorem releaseAll_acquireAll (l : Ledger ρ) (h : rs.Perm rs') :
    (l.acquireAll rs').releaseAll rs = l := by
  rw [← acquireAll_perm l h]
  clear h
  induction rs generalizing l with
  | nil => rfl
  | cons r rs ih =>
      show (((l.acquire r).acquireAll rs).release r).releaseAll rs = l
      rw [acquireAll_acquire, release_acquire, ih]

omit [DecidableEq ρ] in
@[simp] theorem stray_acquireAll (l : Ledger ρ) (rs : List ρ) : (l.acquireAll rs).stray = l.stray := by
  induction rs generalizing l with
  | nil => rfl
  | cons r rs ih => exact ih (l.acquire r)

omit [DecidableEq ρ] in
theorem held_acquire_ne_zero (l : Ledger ρ) (r : ρ) : (l.acquire r).held ≠ 0 :=
  Multiset.cons_ne_zero

end Ledger
