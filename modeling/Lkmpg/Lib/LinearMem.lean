import Mathlib.Data.List.Basic
import Mathlib.Data.List.GetD
import Mathlib.Logic.Function.Basic

/-!
# A linear memory and block copies

A memory is a function from addresses to cells.  `read m off n` copies `n` cells out of it and
`write m off bs` copies a list of cells into it: the two directions of `memcpy`.  Copies of adjacent
blocks compose (`read_add`, `write_append`), and a copy sees or changes only its own range
(`read_congr`, `write_of_lt`, `write_of_ge`, `getElem?_write`).

`Merged` describes a memory into which several lists are being copied, each to its own range; such
copies commute (`Merged.unique`).

`gather m off segs` reads consecutive blocks of the lengths of `segs`.  However the range is cut,
the concatenation is one read (`flatten_gather`).
-/

namespace LinearMem

variable {α : Type*}

/-- Copy `n` cells from `off` on. -/
def read (m : ℕ → α) (off n : ℕ) : List α := (List.range n).map fun i => m (off + i)

/-- Copy a list to `off`. -/
def write (m : ℕ → α) (off : ℕ) (bs : List α) : ℕ → α :=
  fun i => if off ≤ i then bs.getD (i - off) (m i) else m i

/-! ### Reads -/

@[simp] theorem length_read (m : ℕ → α) (off n : ℕ) : (read m off n).length = n := by
  rw [read, List.length_map, List.length_range]

theorem getElem?_read (m : ℕ → α) (off : ℕ) {n i : ℕ} (h : i < n) :
    (read m off n)[i]? = some (m (off + i)) := by
  rw [read, List.getElem?_map, List.getElem?_range h]
  rfl

theorem read_add (m : ℕ → α) (off a b : ℕ) :
    read m off (a + b) = read m off a ++ read m (off + a) b := by
  rw [read, read, read, List.range_add, List.map_append, List.map_map]
  congr 1
  apply List.map_congr_left
  intro i _
  show m (off + (a + i)) = m (off + a + i)
  rw [Nat.add_assoc]

theorem read_succ (m : ℕ → α) (off n : ℕ) : read m off (n + 1) = read m off n ++ [m (off + n)] := by
  rw [read_add]
  rfl

theorem take_read (m : ℕ → α) (off n k : ℕ) : (read m off n).take k = read m off (min k n) := by
  rw [read, read, ← List.map_take, List.take_range]

theorem drop_read (m : ℕ → α) (off n k : ℕ) :
    (read m off n).drop k = read m (off + k) (n - k) := by
  by_cases hk : k ≤ n
  · have hsplit := read_add m off k (n - k)
    rw [Nat.add_sub_cancel' hk] at hsplit
    have hlen : (read m off k).length = k := length_read m off k
    rw [hsplit, List.drop_append_of_le_length (Nat.le_of_eq hlen.symm),
      List.drop_of_length_le (Nat.le_of_eq hlen), List.nil_append]
  · rw [List.drop_of_length_le (by rw [length_read]; omega), Nat.sub_eq_zero_of_le (by omega)]
    rfl

theorem read_inj {m m' : ℕ → α} {off n : ℕ} :
    read m off n = read m' off n ↔ ∀ i, i < n → m (off + i) = m' (off + i) := by
  rw [read, read, List.map_inj_left]
  exact forall_congr' fun i => by rw [List.mem_range]

theorem read_congr {m m' : ℕ → α} {off n : ℕ}
    (h : ∀ i, off ≤ i → i < off + n → m i = m' i) : read m off n = read m' off n := by
  apply List.map_congr_left
  intro i hi
  have hlt : i < n := List.mem_range.mp hi
  exact h (off + i) (by omega) (by omega)

/-! ### Writes -/

theorem write_nil (m : ℕ → α) (off : ℕ) : write m off [] = m := by
  funext i
  simp [write]

theorem write_of_lt (m : ℕ → α) {off i : ℕ} (bs : List α) (h : i < off) :
    write m off bs i = m i := by
  rw [write, if_neg (by omega)]

theorem write_of_ge (m : ℕ → α) {off i : ℕ} (bs : List α) (h : off + bs.length ≤ i) :
    write m off bs i = m i := by
  rw [write, if_pos (by omega), List.getD_eq_default _ _ (by omega)]

/-- What a block copy leaves in its range. -/
theorem getElem?_write (m : ℕ → α) {off i : ℕ} (bs : List α) (h : off ≤ i)
    (h' : i < off + bs.length) : bs[i - off]? = some (write m off bs i) := by
  have hlt : i - off < bs.length := by omega
  rw [write, if_pos h, List.getD_eq_getElem _ _ hlt, List.getElem?_eq_getElem hlt]

/-- What has been written is read back. -/
theorem read_write (m : ℕ → α) (off : ℕ) (bs : List α) : read (write m off bs) off bs.length = bs := by
  apply List.ext_getElem?
  intro i
  by_cases hi : i < bs.length
  · rw [getElem?_read _ _ hi, ← getElem?_write m bs (Nat.le_add_right off i) (by omega),
      Nat.add_sub_cancel_left]
  · rw [List.getElem?_eq_none (by rw [length_read]; omega), List.getElem?_eq_none (by omega)]

theorem write_singleton (m : ℕ → α) (off : ℕ) (c : α) :
    write m off [c] = Function.update m off c := by
  funext i
  by_cases hi : i = off
  · rw [hi, Function.update_self, write, if_pos (Nat.le_refl off), Nat.sub_self]
    rfl
  · rw [Function.update_of_ne hi]
    by_cases hlt : i < off
    · exact write_of_lt m _ hlt
    · exact write_of_ge m _ (by rw [List.length_singleton]; omega)

theorem write_replicate (m : ℕ → α) (off n : ℕ) (c : α) (i : ℕ) :
    write m off (List.replicate n c) i = if off ≤ i ∧ i < off + n then c else m i := by
  by_cases hlt : i < off
  · rw [write_of_lt _ _ hlt, if_neg (by omega)]
  · by_cases hin : i < off + n
    · have hcell := getElem?_write m (List.replicate n c) (Nat.not_lt.mp hlt)
        (by rw [List.length_replicate]; exact hin)
      rw [List.getElem?_replicate_of_lt (by omega)] at hcell
      rw [if_pos ⟨Nat.not_lt.mp hlt, hin⟩, ← Option.some.inj hcell]
    · rw [write_of_ge _ _ (by rw [List.length_replicate]; omega), if_neg (by omega)]

theorem write_append (m : ℕ → α) (off : ℕ) (as bs : List α) :
    write m off (as ++ bs) = write (write m off as) (off + as.length) bs := by
  funext i
  by_cases hlt : i < off
  · rw [write_of_lt _ _ hlt, write_of_lt _ _ (by omega), write_of_lt _ _ hlt]
  · by_cases has : i < off + as.length
    · have happ := getElem?_write m (as ++ bs) (show off ≤ i by omega)
        (by rw [List.length_append]; omega)
      have hone := getElem?_write m as (show off ≤ i by omega) has
      rw [List.getElem?_append_left (by omega), hone] at happ
      rw [write_of_lt _ _ has]
      exact (Option.some.inj happ).symm
    · by_cases hbs : i < off + as.length + bs.length
      · have happ := getElem?_write m (as ++ bs) (show off ≤ i by omega)
          (by rw [List.length_append]; omega)
        have htwo := getElem?_write (write m off as) bs (show off + as.length ≤ i by omega) hbs
        rw [List.getElem?_append_right (by omega),
          show i - off - as.length = i - (off + as.length) by omega, htwo] at happ
        exact (Option.some.inj happ).symm
      · rw [write_of_ge _ _ (by rw [List.length_append]; omega), write_of_ge _ _ (by omega),
          write_of_ge _ _ (by omega)]

/-- A read over what has been written, and on from there. -/
theorem read_write_append (m : ℕ → α) (off : ℕ) (bs : List α) (n : ℕ) :
    read (write m off bs) off (bs.length + n) = bs ++ read m (off + bs.length) n := by
  rw [read_add, read_write]
  congr 1
  exact read_congr fun i hi _ => write_of_ge m bs hi

/-! ### Reads cut into blocks -/

/-- Read blocks of the lengths of the given ones, one after another. -/
def gather (m : ℕ → α) : ℕ → List (List α) → List (List α)
  | _, [] => []
  | off, seg :: segs => read m off seg.length :: gather m (off + seg.length) segs

theorem flatten_gather (m : ℕ → α) (off : ℕ) (segs : List (List α)) :
    (gather m off segs).flatten = read m off segs.flatten.length := by
  induction segs generalizing off with
  | nil => rfl
  | cons seg segs ih =>
      rw [gather, List.flatten_cons, ih, List.flatten_cons, List.length_append, read_add]

theorem gather_append (m : ℕ → α) (off : ℕ) (as bs : List (List α)) :
    gather m off (as ++ bs) = gather m off as ++ gather m (off + as.flatten.length) bs := by
  induction as generalizing off with
  | nil => rfl
  | cons a as ih =>
      rw [List.cons_append, gather, ih, gather, List.cons_append, List.flatten_cons,
        List.length_append, Nat.add_assoc]

theorem gather_congr {m m' : ℕ → α} {off : ℕ} {segs : List (List α)}
    (h : ∀ i, off ≤ i → i < off + segs.flatten.length → m i = m' i) :
    gather m off segs = gather m' off segs := by
  induction segs generalizing off with
  | nil => rfl
  | cons seg segs ih =>
      rw [List.flatten_cons, List.length_append] at h
      rw [gather, gather, read_congr fun i h₁ h₂ => h i h₁ (by omega),
        ih fun i h₁ h₂ => h i (by omega) (by omega)]

/-! ### Copies to disjoint ranges -/

section Merge

variable {ι : Type*} {start : ι → ℕ} {data : ι → List α} {m m' m'' : ℕ → α} {upto : ι → ℕ}

/-- Of the list `data i`, to be copied to `start i`, the first `upto i` cells have been copied into
the memory `m`, for every `i`, and nothing else has changed. -/
def Merged (start : ι → ℕ) (data : ι → List α) (m m' : ℕ → α) (upto : ι → ℕ) : Prop :=
  (∀ i p, start i ≤ p → p < start i + upto i → (data i)[p - start i]? = some (m' p)) ∧
    ∀ p, (∀ i, ¬(start i ≤ p ∧ p < start i + upto i)) → m' p = m p

theorem merged_start : Merged start data m m fun _ => 0 :=
  ⟨fun _ _ hle hlt => absurd hle (Nat.not_le.mpr hlt), fun _ _ => rfl⟩

/-- **Copies commute.**  Whatever the order of the copies, the memory they leave is the same. -/
theorem Merged.unique (h : Merged start data m m' upto) (h' : Merged start data m m'' upto) :
    m' = m'' := by
  funext p
  by_cases hp : ∃ i, start i ≤ p ∧ p < start i + upto i
  · obtain ⟨i, hle, hlt⟩ := hp
    exact Option.some.inj ((h.1 i p hle hlt).symm.trans (h'.1 i p hle hlt))
  · have hout : ∀ i, ¬(start i ≤ p ∧ p < start i + upto i) := fun i hi => hp ⟨i, hi⟩
    rw [h.2 p hout, h'.2 p hout]

/-- A cell that no copy covers reads as before. -/
theorem Merged.read (h : Merged start data m m' upto) {off n : ℕ}
    (hout : ∀ p, off ≤ p → p < off + n → ∀ i, ¬(start i ≤ p ∧ p < start i + upto i)) :
    LinearMem.read m' off n = LinearMem.read m off n :=
  read_congr fun p hle hlt => h.2 p (hout p hle hlt)

/-- **Step.**  One more block of one of the lists is copied, clear of what the others have copied. -/
theorem Merged.copy [DecidableEq ι] (h : Merged start data m m' upto) {i : ι}
    {pre seg post : List α} (hdata : data i = pre ++ seg ++ post) (hupto : upto i = pre.length)
    (hclear : ∀ j, j ≠ i → ∀ p, start j ≤ p → p < start j + upto j →
      ¬(start i + pre.length ≤ p ∧ p < start i + pre.length + seg.length)) :
    Merged start data m (write m' (start i + pre.length) seg)
      (Function.update upto i (pre.length + seg.length)) := by
  refine ⟨fun j p hle hlt => ?_, fun p hp => ?_⟩
  · by_cases hji : j = i
    · subst hji
      rw [Function.update_self] at hlt
      by_cases hold : p < start j + upto j
      · rw [write_of_lt _ _ (by omega)]
        exact h.1 j p hle hold
      · have hseg := getElem?_write m' seg (show start j + pre.length ≤ p by omega) (by omega)
        rw [hdata, List.append_assoc, List.getElem?_append_right (by omega),
          List.getElem?_append_left (by omega),
          show p - start j - pre.length = p - (start j + pre.length) by omega]
        exact hseg
    · rw [Function.update_of_ne hji] at hlt
      have hout := hclear j hji p hle hlt
      rw [h.1 j p hle hlt]
      by_cases hbefore : p < start i + pre.length
      · rw [write_of_lt _ _ hbefore]
      · rw [write_of_ge _ _ (by omega)]
  · have hi := hp i
    rw [Function.update_self] at hi
    have hrest : ∀ j, ¬(start j ≤ p ∧ p < start j + upto j) := by
      intro j
      by_cases hji : j = i
      · rw [hji, hupto]
        omega
      · have hj := hp j
        rw [Function.update_of_ne hji] at hj
        exact hj
    by_cases hbefore : p < start i + pre.length
    · rw [write_of_lt _ _ hbefore]
      exact h.2 p hrest
    · rw [write_of_ge _ _ (by omega)]
      exact h.2 p hrest

end Merge

end LinearMem
