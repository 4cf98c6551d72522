import Mathlib.Data.List.Basic
import Mathlib.Data.List.Nodup

/-!
# Cursors into a list that changes

A walk over a linked list that takes no lock: the cursor is a node (or `none`, past the end), and
between two moves of the walk other code may put nodes at the head of the list or remove nodes from
it.  `next l p` is the successor of `p` in `l` and `rest l c` the part of `l` that a walk at cursor
`c` has not passed.

The rules say that insertion at the head, and removal of any node other than the cursor, leave the
walk on its way: no node that stays in the list drops out of `rest`.
-/

namespace ListCursor

variable {α : Type*} [DecidableEq α] {l : List α} {a p q : α} {c : Option α}

/-- The part of the list from the cursor on. -/
def rest (l : List α) : Option α → List α
  | none => []
  | some p => l.dropWhile fun q => q ≠ p

/-- The successor of a node. -/
def next (l : List α) (p : α) : Option α := (rest l (some p)).tail.head?

theorem rest_cons_self : rest (p :: l) (some p) = p :: l := by simp [rest]

theorem rest_cons_of_ne (h : a ≠ p) : rest (a :: l) (some p) = rest l (some p) := by
  simp [rest, h]

theorem next_cons_of_ne (h : a ≠ p) : next (a :: l) p = next l p := by
  rw [next, next, rest_cons_of_ne h]

theorem rest_head? (l : List α) : rest l l.head? = l := by
  cases l with
  | nil => rfl
  | cons a l => exact rest_cons_self

theorem rest_sublist (l : List α) (c : Option α) : (rest l c).Sublist l := by
  cases c with
  | none => exact List.nil_sublist l
  | some p => exact List.dropWhile_sublist _

theorem mem_of_mem_rest (h : q ∈ rest l c) : q ∈ l := (rest_sublist l c).subset h

theorem mem_of_next (h : next l p = some q) : q ∈ l :=
  mem_of_mem_rest (List.mem_of_mem_tail (List.mem_of_mem_head? h))

/-- What lies ahead of a node is the node and what lies ahead of its successor. -/
theorem rest_eq_cons (hl : l.Nodup) (hp : p ∈ l) :
    rest l (some p) = p :: rest l (next l p) := by
  induction l with
  | nil => cases hp
  | cons a l ih =>
      obtain ⟨ha, hl⟩ := List.nodup_cons.mp hl
      by_cases h : a = p
      · subst h
        rw [next, rest_cons_self, List.tail_cons]
        cases l with
        | nil => rfl
        | cons b l =>
            have hab : a ≠ b := fun hab => ha (hab ▸ List.mem_cons_self)
            rw [List.head?_cons, rest_cons_of_ne hab, rest_cons_self]
      · have hp : p ∈ l := (List.mem_cons.mp hp).resolve_left fun hpa => h hpa.symm
        rw [rest_cons_of_ne h, next_cons_of_ne h, ih hl hp]
        cases hn : next l p with
        | none => rfl
        | some b =>
            have hab : a ≠ b := fun hab => ha (hab ▸ mem_of_next hn)
            rw [rest_cons_of_ne hab]

theorem mem_rest_self (hp : p ∈ l) : p ∈ rest l (some p) := by
  induction l with
  | nil => cases hp
  | cons a l ih =>
      by_cases h : a = p
      · subst h
        rw [rest_cons_self]
        exact List.mem_cons_self
      · rw [rest_cons_of_ne h]
        exact ih ((List.mem_cons.mp hp).resolve_left fun hpa => h hpa.symm)

/-- Moving the cursor passes one node. -/
theorem mem_rest_next (hl : l.Nodup) (hp : p ∈ l) (hq : q ∈ rest l (some p)) (hne : q ≠ p) :
    q ∈ rest l (next l p) := by
  rw [rest_eq_cons hl hp] at hq
  exact (List.mem_cons.mp hq).resolve_left hne

theorem next_ne_self (hl : l.Nodup) (hp : p ∈ l) : next l p ≠ some p := by
  intro h
  have hnodup : (rest l (some p)).Nodup := (rest_sublist l _).nodup hl
  rw [rest_eq_cons hl hp, h] at hnodup
  exact (List.nodup_cons.mp hnodup).1 (mem_rest_self hp)

/-! ### Removal of a node -/

/-- Removing a node other than the cursor removes it from what lies ahead. -/
theorem rest_erase (hl : l.Nodup) (hne : c ≠ some a) :
    rest (l.erase a) c = (rest l c).erase a := by
  cases c with
  | none => rfl
  | some p =>
      have hap : a ≠ p := fun h => hne (congrArg some h.symm)
      induction l with
      | nil => rfl
      | cons b l ih =>
          obtain ⟨hb, hl⟩ := List.nodup_cons.mp hl
          by_cases hba : b = a
          · subst hba
            rw [List.erase_cons_head, rest_cons_of_ne hap,
              List.erase_of_not_mem fun h => hb (mem_of_mem_rest h)]
          · rw [List.erase_cons_tail (by simpa using hba)]
            by_cases hbp : b = p
            · subst hbp
              rw [rest_cons_self, rest_cons_self, List.erase_cons_tail (by simpa using hba)]
            · rw [rest_cons_of_ne hbp, rest_cons_of_ne hbp, ih hl]

theorem mem_rest_erase (hl : l.Nodup) (hne : c ≠ some a) (hq : q ∈ rest l c) (hqa : q ≠ a) :
    q ∈ rest (l.erase a) c := by
  rw [rest_erase hl hne]
  exact (List.mem_erase_of_ne hqa).mpr hq

/-- Removing a node that is neither the cursor nor its successor keeps the successor. -/
theorem next_erase (hl : l.Nodup) (hp : p ∈ l) (hap : a ≠ p) (hne : next l p ≠ some a) :
    next (l.erase a) p = next l p := by
  have hpa : (some p : Option α) ≠ some a := fun h => hap (Option.some.inj h).symm
  rw [next, rest_erase hl hpa, rest_eq_cons hl hp, List.erase_cons_tail (by simpa using hap.symm),
    List.tail_cons]
  cases hn : next l p with
  | none => rfl
  | some b =>
      have hba : b ≠ a := fun h => hne (hn.trans (congrArg some h))
      rw [rest_eq_cons hl (mem_of_next hn), List.erase_cons_tail (by simpa using hba)]
      rfl

end ListCursor
