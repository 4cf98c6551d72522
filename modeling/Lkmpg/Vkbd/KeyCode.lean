import Lkmpg.Lib.Narrow
import Lkmpg.Vkbd.KeyText

/-!
# The key that is reported

`vinput_vkbd_send` negates a negative number in 64 bits and passes it to `input_report_key`, whose
code is an `unsigned int`.  The input core drops a code that is not set in `keybit`; it sees the
code only after it has been cut to 32 bits.
-/

namespace Lkmpg.Vkbd

open CString Narrow

/-- `KEY_MAX` -/
def keyMax : ℕ := 0x2ff

/-- `vkeymap` after `vkbd_init` -/
def vkeymap (i : ℕ) : BitVec 16 := BitVec.ofNat 16 i

/-- `keybit` after `vinput_vkbd_init`: the keys that exist. -/
def keybit (code : ℕ) : Bool := (List.range keyMax).any fun i => (vkeymap i).toNat = code

theorem keybit_iff (code : ℕ) : keybit code = true ↔ code < keyMax := by
  rw [keybit, List.any_eq_true]
  constructor
  · rintro ⟨i, hi, hcode⟩
    have hlt : i < keyMax := List.mem_range.mp hi
    have hsmall : keyMax ≤ 2 ^ 16 := by decide
    rw [decide_eq_true_eq, vkeymap, BitVec.toNat_ofNat, Nat.mod_eq_of_lt (by omega)] at hcode
    omega
  · intro h
    have hsmall : keyMax ≤ 2 ^ 16 := by decide
    refine ⟨code, List.mem_range.mpr h, ?_⟩
    rw [decide_eq_true_eq, vkeymap, BitVec.toNat_ofNat, Nat.mod_eq_of_lt (by omega)]

/-! ### The code of a number -/

/-- Negation in 64 bits gives the magnitude, also of the least number. -/
theorem toNat_neg_of_neg {key : BitVec 64} (h : key.toInt < 0) : (-key).toNat = key.toInt.natAbs := by
  have hlt : key.toNat < 2 ^ 64 := key.isLt
  rw [BitVec.toInt_eq_toNat_cond] at h ⊢
  rw [BitVec.toNat_neg]
  split at h
  · omega
  · rename_i hhigh
    rw [if_neg hhigh, Nat.mod_eq_of_lt (by omega)]
    omega

theorem toNat_of_nonneg {key : BitVec 64} (h : ¬key.toInt < 0) : key.toNat = key.toInt.natAbs := by
  have hlt : key.toNat < 2 ^ 64 := key.isLt
  rw [BitVec.toInt_eq_toNat_cond] at h ⊢
  split at h
  · rename_i hlow
    rw [if_pos hlow]
    omega
  · omega

/-- **What is reported.**  The magnitude of the number, cut to 32 bits, and its sign. -/
theorem keyReport_eq (key : BitVec 64) :
    (keyReport key).code.toNat = key.toInt.natAbs % 2 ^ 32 ∧
      (keyReport key).value = if key.toInt < 0 then vinputRelease else vinputPress := by
  rw [keyReport]
  by_cases hneg : key.toInt < 0
  · rw [if_pos hneg, if_pos hneg, BitVec.toNat_setWidth, toNat_neg_of_neg hneg]
    exact ⟨rfl, rfl⟩
  · rw [if_neg hneg, if_neg hneg, BitVec.toNat_setWidth, toNat_of_nonneg hneg]
    exact ⟨rfl, rfl⟩

/-! ### Texts and the keys they inject -/

/-- Whatever buffers are written: a text that names a key reports this key, pressed or released by
its sign; texts for numbers of different magnitude report different codes; and a number above
`KEY_MAX` reports no key that exists. -/
structure InjectsNamed (buffs : Set (List Byte)) : Prop where
  exact : ∀ buff ∈ buffs, ∀ n len, NamesKey (content buff) n →
    (vinputVkbdSend buff len).report.code.toNat = n.natAbs ∧
      (vinputVkbdSend buff len).report.value = if n < 0 then vinputRelease else vinputPress
  distinct : ∀ buff ∈ buffs, ∀ buff' ∈ buffs, ∀ n n' len len', NamesKey (content buff) n →
    NamesKey (content buff') n' → n.natAbs ≠ n'.natAbs →
    (vinputVkbdSend buff len).report.code ≠ (vinputVkbdSend buff' len').report.code
  nonexistent : ∀ buff ∈ buffs, ∀ n len, NamesKey (content buff) n → keyMax < n.natAbs →
    keybit (vinputVkbdSend buff len).report.code.toNat = false

/-- The code of a text, whether it fits or not. -/
theorem report_of_namesKey {buff : List Byte} {n : ℤ} (h : NamesKey (content buff) n) (len : ℕ) :
    (vinputVkbdSend buff len).report.code.toNat = n.natAbs % 2 ^ 32 ∧
      (vinputVkbdSend buff len).report.value = if n < 0 then vinputRelease else vinputPress := by
  have hreport := keyReport_eq (BitVec.ofInt 64 n)
  rw [toInt_ofInt_of_longRange h.2] at hreport
  rw [vinputVkbdSend_of_namesKey h]
  exact hreport

/-- **Keys.**  The texts of any set of buffers inject the keys they name, and no others, if and only
if each number they denote has a magnitude below `2 ^ 32`. -/
theorem injectsNamed_iff (buffs : Set (List Byte)) :
    InjectsNamed buffs ↔ ∀ buff ∈ buffs, ∀ n, NamesKey (content buff) n → n.natAbs < 2 ^ 32 := by
  constructor
  · intro h buff hbuff n hn
    have hexact := (h.exact buff hbuff n 0 hn).1
    rw [(report_of_namesKey hn 0).1] at hexact
    rw [← hexact]
    exact Nat.mod_lt _ (Nat.two_pow_pos 32)
  · intro h
    have hcode : ∀ buff ∈ buffs, ∀ n len, NamesKey (content buff) n →
        (vinputVkbdSend buff len).report.code.toNat = n.natAbs := by
      intro buff hbuff n len hn
      rw [(report_of_namesKey hn len).1, Nat.mod_eq_of_lt (h buff hbuff n hn)]
    refine ⟨fun buff hbuff n len hn => ?_, ?_, fun buff hbuff n len hn hlarge => ?_⟩
    · exact ⟨hcode buff hbuff n len hn, (report_of_namesKey hn len).2⟩
    · intro buff hbuff buff' hbuff' n n' len len' hn hn' hne hsame
      rw [← hcode buff hbuff n len hn, ← hcode buff' hbuff' n' len' hn', hsame] at hne
      exact hne rfl
    · rw [hcode buff hbuff n len hn, ← Bool.not_eq_true, keybit_iff]
      omega

/-- The text for `2 ^ 32 + 1` presses the key 1. -/
theorem not_injectsNamed_large : ¬∀ buffs : Set (List Byte), InjectsNamed buffs := by
  intro h
  have hnames : NamesKey (content (bytes "4294967297")) 4294967297 :=
    parseKey_eq_ok_iff.mp (by decide)
  have hexact := ((h Set.univ).exact _ (Set.mem_univ _) _ 10 hnames).1
  exact absurd hexact (by decide)

end Lkmpg.Vkbd
