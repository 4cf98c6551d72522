import Lkmpg.Lib.DecimalText
import Lkmpg.Vkbd.Text

/-!
# Which texts name a key

`vinput_write` pads what has been written with NULs and hands it to `vinput_vkbd_send`, which takes
one `+` off and leaves the rest to `kstrtol`.  So a text that is accepted is an optional `+`, an
optional sign, digits and an optional newline.  A text that is not accepted is logged, and then
treated as if it were the key 0.
-/

namespace Lkmpg.Vkbd

open CString

/-- An optional `+`, and a number with an optional sign. -/
inductive KeyText : List Byte → ℤ → Prop where
  | bare {t : List Byte} {n : ℤ} (h : SignedText t n) : KeyText t n
  | plus {t : List Byte} {n : ℤ} (h : SignedText t n) : KeyText (0x2b :: t) n

/-- The text names a key whose number is a `long`. -/
def NamesKey (text : List Byte) (n : ℤ) : Prop := KeyText text n ∧ LongRange n

theorem keyText_plus_iff {t : List Byte} {n : ℤ} : KeyText (0x2b :: t) n ↔ SignedText t n := by
  constructor
  · intro h
    cases h with
    | bare h =>
        obtain ⟨m, hm, rfl⟩ := signedText_plus_iff.mp h
        exact .bare hm
    | plus h => exact h
  · exact .plus

theorem keyText_bare_iff {t : List Byte} {n : ℤ} (hplus : ∀ s, t ≠ 0x2b :: s) :
    KeyText t n ↔ SignedText t n := by
  constructor
  · intro h
    cases h with
    | bare h => exact h
    | plus h => exact absurd rfl (hplus _)
  · exact .bare

/-- **Accepted texts.** -/
theorem parseKey_eq_ok_iff {buff : List Byte} {n : ℤ} :
    parseKey buff = .ok n ↔ NamesKey (content buff) n := by
  rw [parseKey, NamesKey]
  by_cases hplus : buff.headD 0 = 0x2b
  · rw [if_pos hplus, kstrtol_eq_ok_iff, eq_cons_of_headD hplus (by decide), List.tail_cons,
      content_cons (by decide), keyText_plus_iff]
  · rw [if_neg hplus, kstrtol_eq_ok_iff, keyText_bare_iff fun t ht => hplus (headD_of_content ht)]

/-! ### One write -/

/-- What a write leaves: the result, `last_entry` and the reports made. -/
structure Written where
  result : Except Errno ℕ
  lastEntry : BitVec 64
  reports : List KeyReport

/-- `vinput_write` on a vdevice with the given `last_entry`, where the bytes can be copied. -/
def written (lastEntry : BitVec 64) (buffer : List Byte) : Written :=
  match vinputWrite buffer false with
  | .error e => ⟨.error e, lastEntry, []⟩
  | .ok sent => ⟨.ok sent.len, sent.lastEntry, [sent.report]⟩

/-- A text that names a key sets `last_entry` to its number, and any other is rejected without
effect. -/
def RejectsMalformed (lastEntry : BitVec 64) (buffer : List Byte) : Prop :=
  (∀ n, NamesKey (content buffer) n → (written lastEntry buffer).result = .ok buffer.length ∧
    (written lastEntry buffer).lastEntry.toInt = n) ∧
  ((∀ n, ¬NamesKey (content buffer) n) →
    (∃ e, (written lastEntry buffer).result = .error e) ∧
      (written lastEntry buffer).lastEntry = lastEntry ∧ (written lastEntry buffer).reports = [])

theorem written_eq (lastEntry : BitVec 64) {buffer : List Byte}
    (hlen : buffer.length ≤ vinputMaxLen) :
    ∃ buff, content buff = content buffer ∧ written lastEntry buffer =
      ⟨.ok (vinputVkbdSend buff buffer.length).len, (vinputVkbdSend buff buffer.length).lastEntry,
        [(vinputVkbdSend buff buffer.length).report]⟩ := by
  refine ⟨buffer ++ List.replicate (vinputMaxLen + 1 - buffer.length) 0, ?_, ?_⟩
  · rw [Nat.succ_sub hlen, List.replicate_succ, content_append_nul]
  · rw [written, vinputWrite, if_neg (Nat.not_lt.mpr hlen), if_neg Bool.false_ne_true]

/-- The number of an accepted text goes into `last_entry`. -/
theorem vinputVkbdSend_of_namesKey {buff : List Byte} {len : ℕ} {n : ℤ}
    (h : NamesKey (content buff) n) :
    vinputVkbdSend buff len =
      ⟨none, BitVec.ofInt 64 n, keyReport (BitVec.ofInt 64 n), len⟩ := by
  rw [vinputVkbdSend, parseKey_eq_ok_iff.mpr h]

theorem toInt_ofInt_of_longRange {n : ℤ} (h : LongRange n) : (BitVec.ofInt 64 n).toInt = n := by
  rw [BitVec.toInt_ofInt]
  exact Int.bmod_eq_of_le h.1 h.2

/-- Any text that fits the buffer is answered with its length, and one that is not accepted is the
key 0. -/
theorem vinputVkbdSend_of_not_namesKey {buff : List Byte} {len : ℕ}
    (h : ∀ n, ¬NamesKey (content buff) n) :
    ∃ e, vinputVkbdSend buff len = ⟨some e, 0, keyReport 0, len⟩ := by
  rw [vinputVkbdSend]
  cases hparse : parseKey buff with
  | error e => exact ⟨e, rfl⟩
  | ok n => exact absurd (parseKey_eq_ok_iff.mp hparse) (h n)

/-- **Malformed key text.**  A write of at most 128 bytes treats its text as promised if and only if
the text names a key. -/
theorem rejectsMalformed_iff {lastEntry : BitVec 64} {buffer : List Byte}
    (hlen : buffer.length ≤ vinputMaxLen) :
    RejectsMalformed lastEntry buffer ↔ ∃ n, NamesKey (content buffer) n := by
  obtain ⟨buff, hcontent, hwritten⟩ := written_eq lastEntry hlen
  rw [RejectsMalformed, hwritten, ← hcontent]
  by_cases hnames : ∃ n, NamesKey (content buff) n
  · refine iff_of_true ⟨fun n hn => ?_, fun hnone => absurd hnames (not_exists.mpr hnone)⟩ hnames
    rw [vinputVkbdSend_of_namesKey hn]
    exact ⟨rfl, toInt_ofInt_of_longRange hn.2⟩
  · refine iff_of_false (fun h => ?_) hnames
    obtain ⟨⟨e, he⟩, -⟩ := h.2 (not_exists.mp hnames)
    cases he

/-- A write of `+-5` and a newline. -/
theorem rejectsMalformed_iff_plusMinus :
    RejectsMalformed 7 (bytes "+-5\n") ↔ ∃ n, NamesKey (content (bytes "+-5\n")) n :=
  rejectsMalformed_iff (by decide)

/-- A write of the letter x reports the key 0 as pressed. -/
theorem not_rejectsMalformed_letter : ¬∀ lastEntry : BitVec 64, ∀ buffer : List Byte,
    buffer.length ≤ vinputMaxLen → RejectsMalformed lastEntry buffer := by
  intro h
  have hnone : ∀ n, ¬NamesKey (content (bytes "x")) n := by
    intro n hn
    have hparse := parseKey_eq_ok_iff.mpr hn
    rw [show parseKey (bytes "x") = .error .EINVAL by decide] at hparse
    cases hparse
  obtain ⟨-, -, hreports⟩ := (h 7 (bytes "x") (by decide)).2 hnone
  exact absurd hreports (by decide)

end Lkmpg.Vkbd
