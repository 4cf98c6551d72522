import Mathlib.Data.List.Perm.Basic
import Mathlib.Data.List.TakeWhile

/-!
# Searching a list with a test that is too weak

A search returns the first entry that passes a test `p`, where an entry with a stronger property `q`
is meant.  Entries that pass the test without being meant do no harm as long as they stand behind
the one that is.
-/

namespace FirstMatch

variable {α : Type*} {p q : α → Prop} [DecidablePred p] [DecidablePred q] {xs : List α}

/-- The search finds every entry that is meant, and nothing if none is. -/
def Answers (p q : α → Prop) [DecidablePred p] (xs : List α) : Prop :=
  (∀ x ∈ xs, q x → xs.find? p = some x) ∧ ((∀ x ∈ xs, ¬q x) → xs.find? p = none)

/-- The entries in front of the first one that is meant, or all if none is, fail the test; and at
most one is meant. -/
def Unshadowed (p q : α → Prop) [DecidablePred q] (xs : List α) : Prop :=
  (∀ x ∈ xs.takeWhile fun x => ¬q x, ¬p x) ∧ ∀ x ∈ xs, ∀ y ∈ xs, q x → q y → x = y

/-- **First match.**  The search does what is meant exactly if nothing shadows what is meant. -/
theorem answers_iff_unshadowed (hqp : ∀ x, q x → p x) : Answers p q xs ↔ Unshadowed p q xs := by
  induction xs with
  | nil => exact iff_of_true ⟨nofun, fun _ => rfl⟩ ⟨nofun, nofun⟩
  | cons a xs ih =>
      by_cases hq : q a
      · -- the first entry is the one that is meant
        have hfind : (a :: xs).find? p = some a := List.find?_cons_of_pos (by simpa using hqp a hq)
        have hfront : (a :: xs).takeWhile (fun x => ¬q x) = [] :=
          List.takeWhile_cons_of_neg (by simpa using hq)
        rw [Answers, Unshadowed, hfind, hfront]
        constructor
        · rintro ⟨hfound, -⟩
          refine ⟨nofun, fun x hx y hy hqx hqy => ?_⟩
          exact Option.some.inj ((hfound x hx hqx).symm.trans (hfound y hy hqy))
        · rintro ⟨-, hone⟩
          refine ⟨fun x hx hqx => ?_, fun hnone => absurd hq (hnone a List.mem_cons_self)⟩
          exact congrArg some (hone a List.mem_cons_self x hx hq hqx)
      · have hfront : (a :: xs).takeWhile (fun x => ¬q x) = a :: xs.takeWhile fun x => ¬q x :=
          List.takeWhile_cons_of_pos (by simpa using hq)
        by_cases hp : p a
        · -- the first entry passes the test and is not meant
          have hfind : (a :: xs).find? p = some a := List.find?_cons_of_pos (by simpa using hp)
          refine iff_of_false (fun ⟨hfound, hnothing⟩ => ?_) fun ⟨hclear, _⟩ => ?_
          · rw [hfind] at hfound hnothing
            refine absurd (hnothing fun x hx hqx => ?_) nofun
            obtain rfl := Option.some.inj (hfound x hx hqx)
            exact hq hqx
          · rw [hfront] at hclear
            exact hclear a List.mem_cons_self hp
        · have hfind : (a :: xs).find? p = xs.find? p := List.find?_cons_of_neg (by simpa using hp)
          have hmeant : ∀ x, x ∈ a :: xs → q x → x ∈ xs := by
            intro x hx hqx
            rcases List.mem_cons.mp hx with rfl | hx
            · exact absurd hqx hq
            · exact hx
          have hsame : Answers p q (a :: xs) ↔ Answers p q xs := by
            rw [Answers, Answers, hfind]
            refine and_congr ⟨fun h x hx => h x (List.mem_cons_of_mem a hx),
              fun h x hx hqx => h x (hmeant x hx hqx) hqx⟩ (imp_congr_left ?_)
            exact ⟨fun h x hx => h x (List.mem_cons_of_mem a hx),
              fun h x hx hqx => h x (hmeant x hx hqx) hqx⟩
          rw [hsame, ih, Unshadowed, Unshadowed, hfront, List.forall_mem_cons]
          refine and_congr (and_iff_right hp).symm ⟨fun h x hx y hy hqx hqy => ?_,
            fun h x hx y hy => h x (List.mem_cons_of_mem a hx) y (List.mem_cons_of_mem a hy)⟩
          exact h x (hmeant x hx hqx) y (hmeant y hy hqy) hqx hqy

/-- **Any order.**  The search does what is meant in every order of the list exactly if the test
passes nothing that is not meant, and at most one entry is. -/
theorem answers_perm_iff [DecidableEq α] (hqp : ∀ x, q x → p x) :
    (∀ ys, ys.Perm xs → Answers p q ys) ↔
      (∀ x ∈ xs, p x → q x) ∧ ∀ x ∈ xs, ∀ y ∈ xs, q x → q y → x = y := by
  constructor
  · intro h
    refine ⟨fun x hx hpx => ?_, ((answers_iff_unshadowed hqp).mp (h xs (List.Perm.refl xs))).2⟩
    by_contra hqx
    -- put the entry that is not meant in front of the others
    have hperm : (x :: xs.erase x).Perm xs := (List.perm_cons_erase hx).symm
    refine ((answers_iff_unshadowed hqp).mp (h _ hperm)).1 x ?_ hpx
    rw [List.takeWhile_cons_of_pos (by simpa using hqx)]
    exact List.mem_cons_self
  · rintro ⟨hexact, hone⟩ ys hperm
    refine (answers_iff_unshadowed hqp).mpr ⟨fun x hx hpx => ?_, fun x hx y hy => ?_⟩
    · have hmem : x ∈ ys := (List.takeWhile_prefix _).mem hx
      have hnot : ¬q x := by simpa using List.mem_takeWhile_imp hx
      exact hnot (hexact x (hperm.mem_iff.mp hmem) hpx)
    · exact hone x (hperm.mem_iff.mp hx) y (hperm.mem_iff.mp hy)

end FirstMatch
