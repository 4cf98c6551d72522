import Lkmpg.Lib.KernelTypes

/-!
# Base64

`encode` turns three bytes into four printable characters and pads what is left over; `wrap` breaks
the characters into lines, as the program does whose output is not a terminal; `decode` skips the
ends of lines and stops at the first group that is none.

* `decodeGroups_encode`: the characters of the bytes decode to the bytes;
* `decode_of_filter`: so does every text that differs from them only in ends of lines;
* `mem_encode`: no character is a blank or has a meaning to a shell.
-/

namespace Base64

/-- The end of a line. -/
def newline : Byte := 0x0a

/-- The padding, `=`. -/
def pad : Byte := 0x3d

/-- The character for six bits. -/
def charOf (n : ℕ) : Byte :=
  BitVec.ofNat 8
    (if n < 26 then 0x41 + n
    else if n < 52 then 0x61 + (n - 26)
    else if n < 62 then 0x30 + (n - 52)
    else if n = 62 then 0x2b
    else 0x2f)

def valueOf? (c : Byte) : Option ℕ :=
  if 0x41 ≤ c.toNat ∧ c.toNat ≤ 0x5a then some (c.toNat - 0x41)
  else if 0x61 ≤ c.toNat ∧ c.toNat ≤ 0x7a then some (c.toNat - 0x61 + 26)
  else if 0x30 ≤ c.toNat ∧ c.toNat ≤ 0x39 then some (c.toNat - 0x30 + 52)
  else if c = 0x2b then some 62
  else if c = 0x2f then some 63
  else none

/-- Letters, digits, `+` and `/`. -/
def alphabet : List Byte := (List.range 64).map charOf

theorem charOf_mem {n : ℕ} (h : n < 64) : charOf n ∈ alphabet :=
  List.mem_map.mpr ⟨n, List.mem_range.mpr h, rfl⟩

/-- **The alphabet can be read back.** -/
theorem valueOf?_charOf : ∀ n < 64, valueOf? (charOf n) = some n := by decide

theorem charOf_ne_pad : ∀ n < 64, charOf n ≠ pad := by decide

/-! ### Groups -/

def encode : List Byte → List Byte
  | [] => []
  | [a] => [charOf (a.toNat / 4), charOf (a.toNat % 4 * 16), pad, pad]
  | [a, b] =>
      [charOf (a.toNat / 4), charOf (a.toNat % 4 * 16 + b.toNat / 16), charOf (b.toNat % 16 * 4), pad]
  | a :: b :: c :: rest =>
      charOf (a.toNat / 4) :: charOf (a.toNat % 4 * 16 + b.toNat / 16) ::
        charOf (b.toNat % 16 * 4 + c.toNat / 64) :: charOf (c.toNat % 64) :: encode rest

/-- The bytes of a group of four characters. -/
def group? (w x y z : Byte) : Option (List Byte) :=
  match valueOf? w, valueOf? x with
  | some m, some n =>
      let first := BitVec.ofNat 8 (m * 4 + n / 16)
      if y = pad then (if z = pad then some [first] else none)
      else
        match valueOf? y with
        | none => none
        | some k =>
            let second := BitVec.ofNat 8 (n % 16 * 16 + k / 4)
            if z = pad then some [first, second]
            else (valueOf? z).map fun l => [first, second, BitVec.ofNat 8 (k % 4 * 64 + l)]
  | _, _ => none

/-- The groups up to the first one that is none. -/
def decodeGroups : List Byte → List Byte
  | w :: x :: y :: z :: rest =>
      match group? w x y z with
      | some bs => bs ++ decodeGroups rest
      | none => []
  | _ => []

theorem ofNat_toNat_eq {a : Byte} {n : ℕ} (h : n = a.toNat) : BitVec.ofNat 8 n = a := by
  rw [h, BitVec.ofNat_toNat, BitVec.setWidth_eq]

theorem group?_one (a : Byte) :
    group? (charOf (a.toNat / 4)) (charOf (a.toNat % 4 * 16)) pad pad = some [a] := by
  have ha : a.toNat < 256 := a.isLt
  rw [group?, valueOf?_charOf _ (by omega), valueOf?_charOf _ (by omega)]
  simp only [if_true]
  rw [ofNat_toNat_eq (a := a) (by omega)]

theorem group?_two (a b : Byte) :
    group? (charOf (a.toNat / 4)) (charOf (a.toNat % 4 * 16 + b.toNat / 16))
      (charOf (b.toNat % 16 * 4)) pad = some [a, b] := by
  have ha : a.toNat < 256 := a.isLt
  have hb : b.toNat < 256 := b.isLt
  rw [group?, valueOf?_charOf _ (by omega), valueOf?_charOf _ (by omega)]
  simp only [if_neg (charOf_ne_pad (b.toNat % 16 * 4) (by omega)), if_true,
    valueOf?_charOf (b.toNat % 16 * 4) (by omega)]
  rw [ofNat_toNat_eq (a := a) (by omega), ofNat_toNat_eq (a := b) (by omega)]

theorem group?_three (a b c : Byte) :
    group? (charOf (a.toNat / 4)) (charOf (a.toNat % 4 * 16 + b.toNat / 16))
      (charOf (b.toNat % 16 * 4 + c.toNat / 64)) (charOf (c.toNat % 64)) = some [a, b, c] := by
  have ha : a.toNat < 256 := a.isLt
  have hb : b.toNat < 256 := b.isLt
  have hc : c.toNat < 256 := c.isLt
  rw [group?, valueOf?_charOf _ (by omega), valueOf?_charOf _ (by omega)]
  simp only [if_neg (charOf_ne_pad (b.toNat % 16 * 4 + c.toNat / 64) (by omega)),
    if_neg (charOf_ne_pad (c.toNat % 64) (by omega)),
    valueOf?_charOf (b.toNat % 16 * 4 + c.toNat / 64) (by omega),
    valueOf?_charOf (c.toNat % 64) (by omega), Option.map_some]
  rw [ofNat_toNat_eq (a := a) (by omega), ofNat_toNat_eq (a := b) (by omega),
    ofNat_toNat_eq (a := c) (by omega)]

/-- **Round trip.** -/
theorem decodeGroups_encode (data : List Byte) : decodeGroups (encode data) = data := by
  induction data using encode.induct with
  | case1 => rfl
  | case2 a => simp [encode, decodeGroups, group?_one]
  | case3 a b => simp [encode, decodeGroups, group?_two]
  | case4 a b c rest ih => simp [encode, decodeGroups, group?_three, ih]

/-- Only characters of the alphabet and padding are written. -/
theorem mem_encode {data : List Byte} {c : Byte} (h : c ∈ encode data) : c ∈ alphabet ∨ c = pad := by
  induction data using encode.induct with
  | case1 => cases h
  | case2 a =>
      have ha : a.toNat < 256 := a.isLt
      simp only [encode, List.mem_cons, List.not_mem_nil, or_false] at h
      rcases h with rfl | rfl | rfl | rfl
      · exact Or.inl (charOf_mem (by omega))
      · exact Or.inl (charOf_mem (by omega))
      · exact Or.inr rfl
      · exact Or.inr rfl
  | case3 a b =>
      have ha : a.toNat < 256 := a.isLt
      have hb : b.toNat < 256 := b.isLt
      simp only [encode, List.mem_cons, List.not_mem_nil, or_false] at h
      rcases h with rfl | rfl | rfl | rfl
      · exact Or.inl (charOf_mem (by omega))
      · exact Or.inl (charOf_mem (by omega))
      · exact Or.inl (charOf_mem (by omega))
      · exact Or.inr rfl
  | case4 a b c rest ih =>
      have ha : a.toNat < 256 := a.isLt
      have hb : b.toNat < 256 := b.isLt
      have hc : c.toNat < 256 := c.isLt
      simp only [encode, List.mem_cons] at h
      rcases h with rfl | rfl | rfl | rfl | hrest
      · exact Or.inl (charOf_mem (by omega))
      · exact Or.inl (charOf_mem (by omega))
      · exact Or.inl (charOf_mem (by omega))
      · exact Or.inl (charOf_mem (by omega))
      · exact ih hrest

/-- Four characters for every three bytes begun. -/
theorem length_encode (data : List Byte) : (encode data).length = 4 * ((data.length + 2) / 3) := by
  induction data using encode.induct with
  | case1 => rfl
  | case2 a => simp [encode]
  | case3 a b => simp [encode]
  | case4 a b c rest ih =>
      simp only [encode, List.length_cons, ih]
      omega

/-! ### Lines -/

/-- Lines of `cols` characters, with `col` characters already on the first one. -/
def wrapFrom (cols : ℕ) : ℕ → List Byte → List Byte
  | col, [] => if col = 0 then [] else [newline]
  | col, c :: text => if col = cols then newline :: c :: wrapFrom cols 1 text
      else c :: wrapFrom cols (col + 1) text

/-- The program without options. -/
def wrap (cols : ℕ) (data : List Byte) : List Byte := wrapFrom cols 0 (encode data)

/-- The program with `-d`. -/
def decode (text : List Byte) : List Byte := decodeGroups (text.filter (· ≠ newline))

theorem filter_wrapFrom (cols col : ℕ) (text : List Byte) :
    (wrapFrom cols col text).filter (· ≠ newline) = text.filter (· ≠ newline) := by
  induction text generalizing col with
  | nil =>
      rw [wrapFrom]
      split <;> simp
  | cons c text ih =>
      rw [wrapFrom]
      split <;> simp only [List.filter_cons, ih, ne_eq, not_true_eq_false, decide_false,
        Bool.false_eq_true, if_false]

theorem newline_notMem_encode (data : List Byte) : newline ∉ encode data := by
  intro h
  have hall : ∀ c ∈ alphabet ++ [pad], c ≠ newline := by decide
  refine hall newline ?_ rfl
  rcases mem_encode h with hmem | hpad
  · exact List.mem_append_left _ hmem
  · exact List.mem_append_right _ (List.mem_singleton.mpr hpad)

theorem filter_encode (data : List Byte) : (encode data).filter (· ≠ newline) = encode data := by
  refine List.filter_eq_self.mpr fun c hc => ?_
  rw [decide_eq_true_eq]
  rintro rfl
  exact newline_notMem_encode data hc

/-- `base64 | tr -d '\n'`: without the ends of lines the width does not matter. -/
theorem filter_wrap (cols : ℕ) (data : List Byte) :
    (wrap cols data).filter (· ≠ newline) = encode data := by
  rw [wrap, filter_wrapFrom, filter_encode]

/-- **Round trip through lines.** -/
theorem decode_of_filter {text data : List Byte} (h : text.filter (· ≠ newline) = encode data) :
    decode text = data := by
  rw [decode, h, decodeGroups_encode]

end Base64
