import Lkmpg.Lib.KernelTypes
import Mathlib.Data.List.Basic

/-!
# Text files as lines

What a script prints with `echo` is a sequence of lines; what it writes to a file is their
characters, each line ended by a newline; and `grep -c` counts lines of a file again.  A `Line` has
no newline in it, so nothing is lost on the way.
-/

/-- What one `echo` prints. -/
@[ext]
structure Line where
  text : List Byte
  noNewline : 0x0a ∉ text
  deriving DecidableEq

/-- `echo ""` -/
def Line.empty : Line := ⟨[], List.not_mem_nil⟩

namespace Lines

/-- The file to which the lines are written. -/
def unlines (ls : List Line) : List Byte := (ls.map fun l => l.text ++ [0x0a]).flatten

/-- The lines of a file; what follows the last newline counts as one. -/
def lines (file : List Byte) : List (List Byte) := file.splitOn 0x0a

/-- `grep -c "^start"` -/
def grepCount (start file : List Byte) : ℕ := (lines file).countP fun l => start <+: l

/-- **Round trip.** -/
theorem lines_unlines (ls : List Line) : lines (unlines ls) = ls.map Line.text ++ [[]] := by
  induction ls with
  | nil => exact List.splitOn_nil _
  | cons l ls ih =>
      show ((l.text ++ [0x0a]) ++ unlines ls).splitOn 0x0a = l.text :: (ls.map Line.text ++ [[]])
      rw [List.append_assoc, List.singleton_append,
        List.splitOn_append_cons_self_of_not_mem l.noNewline]
      exact congrArg (l.text :: ·) ih

theorem grepCount_unlines {start : List Byte} (hne : start ≠ []) (ls : List Line) :
    grepCount start (unlines ls) = ls.countP fun l => start <+: l.text := by
  have hlast : [([] : List Byte)].countP (fun l => decide (start <+: l)) = 0 := by
    simpa using hne
  rw [grepCount, lines_unlines, List.countP_append, hlast, List.countP_map]
  rfl

end Lines
