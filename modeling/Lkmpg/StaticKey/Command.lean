import Lkmpg.Lib.CString
import Lkmpg.Lib.UserCopy

/-!
# The commands of `static_key.c`

`device_write` copies what is written into an array of its stack frame, which it has not
initialised, and compares the array with the keywords.  The lengths of the comparisons are those of
the keywords and not that of the input, so where the input ends in the middle of a keyword, what was
in the array before decides.
-/

namespace Lkmpg.StaticKey

open CString LinearMem UserCopy

/-- The size of `command`. -/
def commandSize : ℕ := 10

/-- `device_write`, with what was in `command` before, the state of the key, and how far
`copy_from_user` gets. -/
def deviceWrite (command : ℕ → Byte) (fkey : Bool) (buffer : ℕ → Byte) (copied length : ℕ) :
    Except Errno ℕ × Bool :=
  if length > commandSize then (.error .EINVAL, fkey)
  else
    let copy := copyFromUser command 0 buffer copied length
    if copy.2 ≠ 0 then (.error .EFAULT, fkey)
    else
      let command := read copy.1 0 commandSize
      if strncmp command (bytes "enable") (strlen (bytes "enable")) = 0 then (.ok length, true)
      else if strncmp command (bytes "disable") (strlen (bytes "disable")) = 0 then
        (.ok length, false)
      else (.error .EINVAL, fkey)

/-- The result is the same whatever was in `command`, and the key changes only if what has been
written begins with the keyword. -/
structure OnlyWritten (fkey : Bool) (buffer : ℕ → Byte) (copied length : ℕ) : Prop where
  same : ∀ command command', deviceWrite command fkey buffer copied length =
    deviceWrite command' fkey buffer copied length
  enabled : ∀ command, (deviceWrite command fkey buffer copied length).2 = true →
    fkey = true ∨ bytes "enable" <+: read buffer 0 length
  disabled : ∀ command, (deviceWrite command fkey buffer copied length).2 = false →
    fkey = false ∨ bytes "disable" <+: read buffer 0 length

/-- What has been written does not end in the middle of a keyword, or cannot be copied. -/
def NotCutShort (buffer : ℕ → Byte) (copied length : ℕ) : Prop :=
  copied < length ∨ ∀ keyword ∈ [bytes "enable", bytes "disable"],
    read buffer 0 length <+: keyword → keyword.length ≤ length

/-! ### The comparisons -/

section Keyword

variable {keyword written rest : List Byte} {command buffer : ℕ → Byte} {fkey : Bool}
  {copied length : ℕ}

/-- `strncmp` with a keyword and its length. -/
theorem strncmp_keyword (h : ∀ c ∈ keyword, c ≠ 0) (s : List Byte) :
    strncmp s keyword (strlen keyword) = 0 ↔ keyword <+: s := by
  have hcontent : content keyword = keyword := List.takeWhile_eq_self_iff.mpr (by simpa using h)
  rw [strncmp_strlen_eq_zero_iff, hcontent]
  constructor
  · intro hbegins
    exact hbegins.trans (List.takeWhile_prefix _)
  · rintro ⟨rest, rfl⟩
    rw [content, List.takeWhile_append_of_pos (by simpa using h)]
    exact List.prefix_append _ _

/-- A keyword that is longer than what has been written is completed by the rest. -/
theorem prefix_append_iff (hcut : written <+: keyword → keyword.length ≤ written.length) :
    keyword <+: written ++ rest ↔ keyword <+: written := by
  constructor
  · intro hbegins
    rcases List.prefix_or_prefix_of_prefix hbegins (List.prefix_append written rest) with hin | hcover
    · exact hin
    · rw [hcover.eq_of_length_le (hcut hcover)]
  · intro hin
    exact hin.trans (List.prefix_append written rest)

/-- Zeros complete no keyword. -/
theorem prefix_append_replicate_iff {n : ℕ} (h : ∀ c ∈ keyword, c ≠ 0) :
    keyword <+: written ++ List.replicate n 0 ↔ keyword <+: written := by
  constructor
  · intro hbegins
    rcases List.prefix_or_prefix_of_prefix hbegins (List.prefix_append written _) with hin | hcover
    · exact hin
    · obtain ⟨rest, rfl⟩ := hcover
      rw [List.prefix_append_right_inj] at hbegins
      have hnil : rest = [] := by
        apply List.eq_nil_iff_forall_not_mem.mpr
        intro c hc
        exact h c (List.mem_append_right _ hc)
          (List.eq_of_mem_replicate (hbegins.subset hc))
      rw [hnil, List.append_nil]
  · intro hin
    exact hin.trans (List.prefix_append written _)

end Keyword

section Write

variable {command command' buffer : ℕ → Byte} {fkey : Bool} {copied length : ℕ}

theorem keyword_ne_zero : ∀ keyword ∈ [bytes "enable", bytes "disable"], ∀ c ∈ keyword, c ≠ 0 := by
  decide

/-- The array that is compared: what has been written, and what was there. -/
def compared (command buffer : ℕ → Byte) (length : ℕ) : List Byte :=
  read buffer 0 length ++ read command length (commandSize - length)

theorem deviceWrite_of_copied (hlen : length ≤ commandSize) (hcopied : length ≤ copied) :
    deviceWrite command fkey buffer copied length =
      if bytes "enable" <+: compared command buffer length then (.ok length, true)
      else if bytes "disable" <+: compared command buffer length then (.ok length, false)
      else (.error .EINVAL, fkey) := by
  have hcommand : read (copyFromUser command 0 buffer copied length).1 0 commandSize =
      compared command buffer length := by
    have hread := read_write_append command 0 (read buffer 0 length) (commandSize - length)
    rw [length_read, Nat.add_sub_cancel' hlen, Nat.zero_add] at hread
    rw [copyFromUser, arrived_of_le hcopied, compared]
    exact hread
  have hcopy : (copyFromUser command 0 buffer copied length).2 = 0 := Nat.sub_eq_zero_of_le hcopied
  simp only [deviceWrite, if_neg (Nat.not_lt.mpr hlen), hcopy, ne_eq, not_true_eq_false, if_false,
    hcommand, strncmp_keyword (keyword_ne_zero _ List.mem_cons_self),
    strncmp_keyword (keyword_ne_zero _ (List.mem_cons_of_mem _ List.mem_cons_self))]

/-- Where it fails early, `command` is not looked at. -/
theorem deviceWrite_of_not (h : ¬(length ≤ commandSize ∧ length ≤ copied)) :
    ∃ e, ∀ command, deviceWrite command fkey buffer copied length = (.error e, fkey) := by
  by_cases hlen : length > commandSize
  · refine ⟨.EINVAL, fun command => ?_⟩
    rw [deviceWrite, if_pos hlen]
  · refine ⟨.EFAULT, fun command => ?_⟩
    have hcopy : (copyFromUser command 0 buffer copied length).2 ≠ 0 := by
      show length - copied ≠ 0
      omega
    rw [deviceWrite, if_neg hlen]
    exact if_pos hcopy

/-- The call succeeds if the array begins with a keyword. -/
theorem deviceWrite_eq_ok {keyword : List Byte} (hkeyword : keyword ∈ [bytes "enable", bytes "disable"])
    (hlen : length ≤ commandSize) (hcopied : length ≤ copied)
    (hbegins : keyword <+: compared command buffer length) :
    (deviceWrite command fkey buffer copied length).1 = .ok length := by
  rw [deviceWrite_of_copied hlen hcopied]
  split
  · rfl
  · rename_i henable
    obtain rfl : keyword = bytes "disable" := by
      rcases List.mem_cons.mp hkeyword with rfl | hrest
      · exact absurd hbegins henable
      · exact List.mem_singleton.mp hrest
    rw [if_pos hbegins]

/-! ### The condition -/

theorem compared_iff {keyword : List Byte} (hshort : NotCutShort buffer copied length)
    (hcopied : length ≤ copied) (hkeyword : keyword ∈ [bytes "enable", bytes "disable"]) :
    keyword <+: compared command buffer length ↔ keyword <+: read buffer 0 length := by
  refine prefix_append_iff fun hcover => ?_
  rw [length_read]
  exact hshort.resolve_left (Nat.not_lt.mpr hcopied) keyword hkeyword hcover

theorem onlyWritten_of_notCutShort (hshort : NotCutShort buffer copied length) :
    OnlyWritten fkey buffer copied length := by
  by_cases hearly : length ≤ commandSize ∧ length ≤ copied
  · obtain ⟨hlen, hcopied⟩ := hearly
    have henable : ∀ command, bytes "enable" <+: compared command buffer length ↔
        bytes "enable" <+: read buffer 0 length := fun command =>
      compared_iff hshort hcopied List.mem_cons_self
    have hdisable : ∀ command, bytes "disable" <+: compared command buffer length ↔
        bytes "disable" <+: read buffer 0 length := fun command =>
      compared_iff hshort hcopied (List.mem_cons_of_mem _ List.mem_cons_self)
    have hwrite : ∀ command, deviceWrite command fkey buffer copied length =
        if bytes "enable" <+: read buffer 0 length then (.ok length, true)
        else if bytes "disable" <+: read buffer 0 length then (.ok length, false)
        else (.error .EINVAL, fkey) := by
      intro command
      simp only [deviceWrite_of_copied hlen hcopied, henable, hdisable]
    constructor
    · intro command command'
      rw [hwrite, hwrite]
    · intro command hkey
      rw [hwrite] at hkey
      split at hkey
      · rename_i hbegins
        exact Or.inr hbegins
      · split at hkey
        · cases hkey
        · exact Or.inl hkey
    · intro command hkey
      rw [hwrite] at hkey
      split at hkey
      · cases hkey
      · split at hkey
        · rename_i hbegins
          exact Or.inr hbegins
        · exact Or.inl hkey
  · obtain ⟨e, hwrite⟩ : ∃ e, ∀ command,
        deviceWrite command fkey buffer copied length = (.error e, fkey) :=
      deviceWrite_of_not hearly
    constructor
    · intro command command'
      rw [hwrite, hwrite]
    · intro command hkey
      rw [hwrite] at hkey
      exact Or.inl hkey
    · intro command hkey
      rw [hwrite] at hkey
      exact Or.inl hkey

/-- What was in the array may complete the keyword. -/
theorem prefix_compared {keyword : List Byte} (hcover : read buffer 0 length <+: keyword)
    (hsize : keyword.length ≤ commandSize) :
    keyword <+: compared (write (fun _ => 0) 0 keyword) buffer length := by
  obtain ⟨rest, rfl⟩ := hcover
  rw [List.length_append, length_read] at hsize
  rw [compared, List.prefix_append_right_inj, write_append, length_read, Nat.zero_add,
    show commandSize - length = rest.length + (commandSize - length - rest.length) by omega,
    read_write_append]
  exact List.prefix_append rest _

theorem not_onlyWritten (hshort : ¬NotCutShort buffer copied length) :
    ¬OnlyWritten fkey buffer copied length := by
  intro honly
  have hlonger : ∀ keyword ∈ [bytes "enable", bytes "disable"],
      ∀ keyword' ∈ [bytes "enable", bytes "disable"], keyword' <+: keyword →
        keyword.length ≤ keyword'.length := by
    decide
  have hsizes : ∀ keyword ∈ [bytes "enable", bytes "disable"], keyword.length ≤ commandSize := by
    decide
  simp only [NotCutShort, not_or, Nat.not_lt, not_forall, Nat.not_le] at hshort
  obtain ⟨hcopied, keyword, hkeyword, hcover, hcut⟩ := hshort
  have hsize := hsizes keyword hkeyword
  have hlen : length ≤ commandSize := by omega
  -- the array holds the keyword: the call succeeds
  have hok : (deviceWrite (write (fun _ => 0) 0 keyword) fkey buffer copied length).1 = .ok length :=
    deviceWrite_eq_ok hkeyword hlen hcopied (prefix_compared hcover hsize)
  -- the array holds zeros: it fails
  have hzero : ∀ keyword' ∈ [bytes "enable", bytes "disable"],
      ¬keyword' <+: compared (fun _ => 0) buffer length := by
    intro keyword' hkeyword' hbegins
    have hrest : read (fun _ => (0 : Byte)) length (commandSize - length) =
        List.replicate (commandSize - length) 0 := by
      simp [LinearMem.read]
    rw [compared, hrest, prefix_append_replicate_iff (keyword_ne_zero keyword' hkeyword')] at hbegins
    have hle := hbegins.length_le
    rw [length_read] at hle
    have hlong := hlonger keyword hkeyword keyword' hkeyword' (hbegins.trans hcover)
    omega
  have herror : deviceWrite (fun _ => 0) fkey buffer copied length = (.error .EINVAL, fkey) := by
    rw [deviceWrite_of_copied hlen hcopied, if_neg (hzero _ List.mem_cons_self),
      if_neg (hzero _ (List.mem_cons_of_mem _ List.mem_cons_self))]
  rw [honly.same _ (fun _ => 0), herror] at hok
  cases hok

end Write

/-- **Commands.**  For every state of the key, every input and every fault: what was in `command`
before has no effect, and the key is set only by its keywords, if and only if the input does not
end in the middle of `enable` or `disable`. -/
theorem onlyWritten_iff (fkey : Bool) (buffer : ℕ → Byte) (copied length : ℕ) :
    OnlyWritten fkey buffer copied length ↔ NotCutShort buffer copied length := by
  constructor
  · intro honly
    by_contra hshort
    exact not_onlyWritten hshort honly
  · exact onlyWritten_of_notCutShort

/-- An input of length 0. -/
theorem not_onlyWritten_empty : ¬∀ fkey buffer copied length, OnlyWritten fkey buffer copied length := by
  intro hall
  refine not_onlyWritten ?_ (hall false (fun _ => 0) 0 0)
  simp only [NotCutShort, not_or]
  exact ⟨by decide, by decide⟩

end Lkmpg.StaticKey
