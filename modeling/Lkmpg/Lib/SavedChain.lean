import Mathlib.Data.List.Basic
import Mathlib.Logic.Function.Basic

/-!
# Chains of saved pointers

One pointer is overwritten again and again, by owners each of which puts its own value there and
saves what it has found.  `node k` is the value of owner `k` and `saved k` what it has saved: from
the pointer the saved values lead from owner to owner, and at last to the value that was there
before the first of them.  `push` is a new owner, and `Chain.pop` what the newest one finds when it
puts back what it has saved.
-/

namespace SavedChain

variable {κ π : Type*} {node : κ → π} {saved saved' : κ → π} {base p : π} {k : κ} {ks : List κ}

/-- From `p` on the saved values lead through the owners `ks` and end at `base`. -/
def Chain (node saved : κ → π) (base : π) : π → List κ → Prop
  | p, [] => p = base
  | p, k :: ks => p = node k ∧ Chain node saved base (saved k) ks

/-- Only what the owners of the chain have saved matters. -/
theorem Chain.congr (h : Chain node saved base p ks) (hsaved : ∀ k ∈ ks, saved' k = saved k) :
    Chain node saved' base p ks := by
  induction ks generalizing p with
  | nil => exact h
  | cons k ks ih =>
      refine ⟨h.1, ?_⟩
      rw [hsaved k List.mem_cons_self]
      exact ih h.2 fun j hj => hsaved j (List.mem_cons_of_mem k hj)

theorem Chain.push [DecidableEq κ] (h : Chain node saved base p ks) (hk : k ∉ ks) :
    Chain node (Function.update saved k p) base (node k) (k :: ks) := by
  refine ⟨rfl, ?_⟩
  rw [Function.update_self]
  refine h.congr fun j hj => Function.update_of_ne (fun hjk => hk ?_) _ _
  exact hjk ▸ hj

/-- What the newest owner has saved is the rest of the chain. -/
theorem Chain.pop (h : Chain node saved base p (k :: ks)) : Chain node saved base (saved k) ks :=
  h.2

/-- The pointer is the value of the newest owner, or the first value if there is none. -/
theorem Chain.head (h : Chain node saved base p ks) : p = (ks.head?.map node).getD base := by
  cases ks with
  | nil => exact h
  | cons k ks => exact h.1

/-- Each owner has saved the value of the next one. -/
theorem Chain.saved_eq {j : κ} {us ds : List κ} (h : Chain node saved base p (us ++ k :: j :: ds)) :
    saved k = node j := by
  induction us generalizing p with
  | nil => exact h.2.1
  | cons u us ih => exact ih h.2

end SavedChain
