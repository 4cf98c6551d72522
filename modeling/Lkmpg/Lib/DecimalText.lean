import Lkmpg.Lib.CString

/-!
# The decimal numbers that `kstrtol` accepts

`UnsignedText t m` says that the characters `t` are digits, at least one, with a newline after them
or not, and denote `m`; `SignedText` allows one sign before them.  `kstrtol` accepts a C string
exactly if what comes before its terminator is such a text and the number is in the range of
`long`.
-/

namespace CString

def isDigit (c : Byte) : Bool := (digit? c).isSome

/-- The number that digits denote, the most significant first, after those that make `acc`. -/
def digitsValue (acc : ℕ) (ds : List Byte) : ℕ :=
  ds.foldl (fun acc c => acc * 10 + (digit? c).getD 0) acc

/-- Digits and an optional newline. -/
def UnsignedText (t : List Byte) (m : ℕ) : Prop :=
  ∃ ds, ds ≠ [] ∧ (∀ c ∈ ds, isDigit c = true) ∧ (t = ds ∨ t = ds ++ [0x0a]) ∧ m = digitsValue 0 ds

/-- The same after an optional sign. -/
inductive SignedText : List Byte → ℤ → Prop where
  | bare {t : List Byte} {m : ℕ} (h : UnsignedText t m) : SignedText t m
  | plus {t : List Byte} {m : ℕ} (h : UnsignedText t m) : SignedText (0x2b :: t) m
  | minus {t : List Byte} {m : ℕ} (h : UnsignedText t m) : SignedText (0x2d :: t) (-m)

/-- The range of a 64-bit `long`. -/
def LongRange (n : ℤ) : Prop := -2 ^ 63 ≤ n ∧ n < 2 ^ 63

section Digits

variable {s t rest ds : List Byte} {m : ℕ} {n : ℤ} {c : Byte}

theorem error_ne_ok {α : Type*} {e : Errno} {a : α} : (.error e : Except Errno α) ≠ .ok a := by
  intro h
  cases h

theorem isDigit_newline : isDigit 0x0a = false := by decide

theorem ne_zero_of_isDigit (h : isDigit c = true) : c ≠ 0 := by
  rintro rfl
  exact absurd h (by decide)

theorem content_cons (h : c ≠ 0) : content (c :: s) = c :: content s :=
  List.takeWhile_cons_of_pos (by simpa using h)

theorem content_digits (h : ∀ c ∈ ds, isDigit c = true) :
    content (ds ++ rest) = ds ++ content rest :=
  List.takeWhile_append_of_pos fun c hc => by simpa using ne_zero_of_isDigit (h c hc)

/-- A string is empty before its terminator exactly if it begins with it. -/
theorem content_eq_nil_iff : content s = [] ↔ s.headD 0 = 0 := by
  cases s with
  | nil => exact iff_of_true rfl rfl
  | cons c s =>
      by_cases hc : c = 0
      · subst hc
        exact iff_of_true rfl rfl
      · rw [content_cons hc]
        exact iff_of_false nofun hc

theorem content_eq_newline_iff :
    content s = [0x0a] ↔ s.headD 0 = 0x0a ∧ s.tail.headD 0 = 0 := by
  cases s with
  | nil => exact iff_of_false nofun fun h => absurd h.1 (by decide)
  | cons c s =>
      by_cases hc : c = 0
      · subst hc
        exact iff_of_false nofun fun h => absurd (show (0 : Byte) = 0x0a from h.1) (by decide)
      · rw [content_cons hc, List.cons.injEq, content_eq_nil_iff]
        exact Iff.rfl

/-- Digits are read up to the first character that is none. -/
theorem takeWhile_digits (h : ∀ c ∈ ds, isDigit c = true)
    (hstop : ∀ c ∈ rest.head?, isDigit c = false) : (ds ++ rest).takeWhile isDigit = ds := by
  rw [List.takeWhile_append_of_pos h]
  cases rest with
  | nil => exact List.append_nil ds
  | cons c rest =>
      rw [List.takeWhile_cons_of_neg (by rw [hstop c rfl]; exact Bool.false_ne_true), List.append_nil]

/-- What comes before the terminator begins as the string does, or is empty. -/
theorem head_content (h : c ∈ (content s).head?) : c ∈ s.head? := by
  rw [content, List.head?_takeWhile, Option.mem_def, Option.filter_eq_some_iff] at h
  exact h.1

/-- The digits of a text are those it begins with. -/
theorem UnsignedText.takeWhile (h : UnsignedText t m) :
    t.takeWhile isDigit ≠ [] ∧ m = digitsValue 0 (t.takeWhile isDigit) ∧
      (t = t.takeWhile isDigit ∨ t = t.takeWhile isDigit ++ [0x0a]) := by
  obtain ⟨ds, hne, hds, ht, rfl⟩ := h
  have htake : t.takeWhile isDigit = ds := by
    rcases ht with rfl | rfl
    · exact List.takeWhile_eq_self_iff.mpr hds
    · refine takeWhile_digits hds fun c hc => ?_
      obtain rfl := Option.some.inj hc
      exact isDigit_newline
  rw [htake]
  exact ⟨hne, rfl, ht⟩

/-- The number of a text is determined by it. -/
theorem UnsignedText.eq {m' : ℕ} (h : UnsignedText t m) (h' : UnsignedText t m') : m = m' := by
  rw [h.takeWhile.2.1, h'.takeWhile.2.1]

theorem UnsignedText.head (h : UnsignedText t m) : ∃ c s, t = c :: s ∧ isDigit c = true := by
  obtain ⟨ds, hne, hds, ht, -⟩ := h
  obtain ⟨c, ds, rfl⟩ := List.exists_cons_of_ne_nil hne
  have hc : isDigit c = true := hds c List.mem_cons_self
  rcases ht with rfl | rfl
  · exact ⟨c, ds, rfl, hc⟩
  · exact ⟨c, ds ++ [0x0a], rfl, hc⟩

theorem not_unsignedText_cons (hc : isDigit c = false) : ¬UnsignedText (c :: t) m := by
  intro h
  obtain ⟨b, s, hb, hdigit⟩ := h.head
  obtain ⟨rfl, -⟩ := List.cons.inj hb
  rw [hc] at hdigit
  cases hdigit

/-! ### The loop over the digits -/

theorem parseInteger_eq (acc rv : ℕ) :
    parseInteger s acc rv =
      (digitsValue acc (s.takeWhile isDigit), rv + (s.takeWhile isDigit).length,
        s.dropWhile isDigit) := by
  induction s generalizing acc rv with
  | nil => rfl
  | cons c s ih =>
      rw [parseInteger]
      cases hc : digit? c with
      | none =>
          have hdigit : isDigit c = false := by rw [isDigit, hc]; rfl
          rw [List.takeWhile_cons_of_neg (by rw [hdigit]; exact Bool.false_ne_true),
            List.dropWhile_cons_of_neg (by rw [hdigit]; exact Bool.false_ne_true)]
          rfl
      | some d =>
          have hdigit : isDigit c = true := by rw [isDigit, hc]; rfl
          simp only [ih, List.takeWhile_cons_of_pos hdigit, List.dropWhile_cons_of_pos hdigit,
            List.length_cons, digitsValue, List.foldl_cons, hc, Option.getD_some]
          congr 2
          omega

/-- What may follow the digits. -/
def Ends (rest : List Byte) : Prop :=
  rest.headD 0 = 0 ∨ rest.headD 0 = 0x0a ∧ rest.tail.headD 0 = 0

theorem ends_iff : Ends rest ↔ content rest = [] ∨ content rest = [0x0a] := by
  rw [Ends, content_eq_nil_iff, content_eq_newline_iff]

/-- A text of the grammar in front of a terminator: its digits, and what ends them. -/
theorem unsignedText_append_iff (hds : ∀ c ∈ ds, isDigit c = true)
    (hstop : ∀ c ∈ rest.head?, isDigit c = false) :
    UnsignedText (ds ++ content rest) m ↔ ds ≠ [] ∧ Ends rest ∧ m = digitsValue 0 ds := by
  have htake : (ds ++ content rest).takeWhile isDigit = ds :=
    takeWhile_digits hds fun c hc => hstop c (head_content hc)
  rw [ends_iff]
  constructor
  · intro h
    obtain ⟨hne, hm, htext⟩ := h.takeWhile
    rw [htake] at hne hm htext
    refine ⟨hne, htext.imp (fun hnil => ?_) List.append_cancel_left, hm⟩
    exact List.append_right_eq_self.mp hnil
  · rintro ⟨hne, hnil | hnewline, hm⟩
    · exact ⟨ds, hne, hds, Or.inl (by rw [hnil, List.append_nil]), hm⟩
    · exact ⟨ds, hne, hds, Or.inr (by rw [hnewline]), hm⟩

/-- The test for a newline and the terminator. -/
theorem ends_of_test :
    (if rest.headD 0 = 0x0a then rest.tail else rest).headD 0 = 0 ↔ Ends rest := by
  rw [Ends]
  by_cases hnewline : rest.headD 0 = 0x0a
  · rw [if_pos hnewline, hnewline]
    exact ⟨fun h => Or.inr ⟨rfl, h⟩, fun h => (h.resolve_left (by decide)).2⟩
  · rw [if_neg hnewline]
    exact ⟨Or.inl, fun h => h.resolve_right fun hn => hnewline hn.1⟩

/-- **Unsigned numbers.** -/
theorem kstrtoullDigits_eq_ok_iff :
    kstrtoullDigits s = .ok m ↔ UnsignedText (content s) m ∧ m < 2 ^ 64 := by
  obtain ⟨ds, hds⟩ : ∃ ds, ds = s.takeWhile isDigit := ⟨_, rfl⟩
  obtain ⟨rest, hrest⟩ : ∃ rest, rest = s.dropWhile isDigit := ⟨_, rfl⟩
  have hdigits : ∀ c ∈ ds, isDigit c = true := fun c hc => List.mem_takeWhile_imp (hds ▸ hc)
  have hstop : ∀ c ∈ rest.head?, isDigit c = false := by
    intro c hc
    have hhead := List.head?_dropWhile_not isDigit s
    rw [← hrest, hc] at hhead
    simpa using hhead
  have hcontent : content s = ds ++ content rest := by
    rw [← content_digits hdigits, hds, hrest, List.takeWhile_append_dropWhile]
  rw [hcontent, unsignedText_append_iff hdigits hstop, kstrtoullDigits, parseInteger_eq, ← hds,
    ← hrest]
  simp only [Nat.zero_add, List.length_eq_zero_iff]
  by_cases hlarge : 2 ^ 64 ≤ digitsValue 0 ds
  · rw [if_pos hlarge]
    refine iff_of_false error_ne_ok ?_
    rintro ⟨⟨-, -, rfl⟩, hlt⟩
    omega
  · rw [if_neg hlarge]
    by_cases hne : ds = []
    · rw [if_pos hne]
      exact iff_of_false error_ne_ok fun h => h.1.1 hne
    · rw [if_neg hne]
      by_cases hend : Ends rest
      · rw [if_neg (not_not.mpr (ends_of_test.mpr hend)), Except.ok.injEq]
        constructor
        · rintro rfl
          exact ⟨⟨hne, hend, rfl⟩, by omega⟩
        · rintro ⟨⟨-, -, rfl⟩, -⟩
          rfl
      · rw [if_pos (mt ends_of_test.mp hend)]
        exact iff_of_false error_ne_ok fun h => hend h.1.2.1

/-! ### Signs -/

theorem signedText_minus_iff : SignedText (0x2d :: t) n ↔ ∃ m : ℕ, UnsignedText t m ∧ n = -m := by
  constructor
  · intro h
    cases h with
    | bare h => exact absurd h (not_unsignedText_cons (by decide))
    | minus h => exact ⟨_, h, rfl⟩
  · rintro ⟨m, h, rfl⟩
    exact .minus h

theorem signedText_plus_iff : SignedText (0x2b :: t) n ↔ ∃ m : ℕ, UnsignedText t m ∧ n = m := by
  constructor
  · intro h
    cases h with
    | bare h => exact absurd h (not_unsignedText_cons (by decide))
    | plus h => exact ⟨_, h, rfl⟩
  · rintro ⟨m, h, rfl⟩
    exact .plus h

theorem signedText_bare_iff (hminus : ∀ s, t ≠ 0x2d :: s) (hplus : ∀ s, t ≠ 0x2b :: s) :
    SignedText t n ↔ ∃ m : ℕ, UnsignedText t m ∧ n = m := by
  constructor
  · intro h
    cases h with
    | bare h => exact ⟨_, h, rfl⟩
    | plus h => exact absurd rfl (hplus _)
    | minus h => exact absurd rfl (hminus _)
  · rintro ⟨m, h, rfl⟩
    exact .bare h

/-- A string that begins with a character other than NUL. -/
theorem eq_cons_of_headD (h : s.headD 0 = c) (hc : c ≠ 0) : s = c :: s.tail := by
  cases s with
  | nil => exact absurd h.symm hc
  | cons b s => exact congrArg (· :: s) h

theorem headD_of_content (h : content s = c :: t) : s.headD 0 = c := by
  have hmem : c ∈ s.head? := head_content (by rw [h]; rfl)
  rw [List.headD_eq_head?_getD, Option.mem_def.mp hmem, Option.getD_some]

/-- What `kstrtol` does with the number after the sign. -/
theorem checked_eq_ok_iff (bad : ℕ → Prop) [DecidablePred bad] (f : ℕ → ℤ) :
    (match kstrtoullDigits s with
      | .error e => Except.error e
      | .ok m => if bad m then .error Errno.ERANGE else .ok (f m)) = .ok n ↔
      ∃ m, UnsignedText (content s) m ∧ m < 2 ^ 64 ∧ ¬bad m ∧ n = f m := by
  cases hdigits : kstrtoullDigits s with
  | error e =>
      refine iff_of_false error_ne_ok ?_
      rintro ⟨m, hm, hlt, -⟩
      cases hdigits.symm.trans (kstrtoullDigits_eq_ok_iff.mpr ⟨hm, hlt⟩)
  | ok m =>
      obtain ⟨htext, hlt⟩ := kstrtoullDigits_eq_ok_iff.mp hdigits
      have hone : (∃ m', UnsignedText (content s) m' ∧ m' < 2 ^ 64 ∧ ¬bad m' ∧ n = f m') ↔
          ¬bad m ∧ n = f m := by
        constructor
        · rintro ⟨m', htext', -, hrest⟩
          rwa [htext'.eq htext] at hrest
        · exact fun hrest => ⟨m, htext, hlt, hrest⟩
      rw [hone]
      show (if bad m then Except.error Errno.ERANGE else .ok (f m)) = .ok n ↔ _
      by_cases hbad : bad m
      · rw [if_pos hbad]
        exact iff_of_false error_ne_ok fun h => h.1 hbad
      · rw [if_neg hbad, Except.ok.injEq, and_iff_right hbad]
        exact eq_comm

/-- **Signed numbers.**  The sign decides which bound applies. -/
theorem kstrtol_eq_ok_iff : kstrtol s = .ok n ↔ SignedText (content s) n ∧ LongRange n := by
  rw [kstrtol, LongRange]
  by_cases hminus : s.headD 0 = 0x2d
  · rw [if_pos hminus]
    refine (checked_eq_ok_iff (2 ^ 63 < ·) fun m => -(m : ℤ)).trans ?_
    rw [eq_cons_of_headD hminus (by decide), List.tail_cons, content_cons (by decide),
      signedText_minus_iff]
    constructor
    · rintro ⟨m, htext, hlt, hbound, rfl⟩
      exact ⟨⟨m, htext, rfl⟩, by omega, by omega⟩
    · rintro ⟨⟨m, htext, rfl⟩, hlow, hhigh⟩
      exact ⟨m, htext, by omega, by omega, rfl⟩
  · -- with or without a plus sign, the rest is an unsigned number
    have htext : SignedText (content s) n ↔ ∃ m : ℕ,
        UnsignedText (content (if s.headD 0 = 0x2b then s.tail else s)) m ∧ n = m := by
      by_cases hplus : s.headD 0 = 0x2b
      · rw [if_pos hplus, eq_cons_of_headD hplus (by decide), List.tail_cons,
          content_cons (by decide), signedText_plus_iff]
      · rw [if_neg hplus]
        exact signedText_bare_iff (fun t ht => hminus (headD_of_content ht))
          fun t ht => hplus (headD_of_content ht)
    rw [if_neg hminus, htext]
    refine (checked_eq_ok_iff (2 ^ 63 ≤ ·) fun m => (m : ℤ)).trans ?_
    constructor
    · rintro ⟨m, hm, hlt, hbound, rfl⟩
      exact ⟨⟨m, hm, rfl⟩, by omega, by omega⟩
    · rintro ⟨⟨m, hm, rfl⟩, hlow, hhigh⟩
      exact ⟨m, hm, by omega, by omega, rfl⟩

end Digits

end CString
