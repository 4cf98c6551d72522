import Mathlib.Data.List.DropRight
import Lkmpg.Lib.CString

/-!
# What a shell does with text

The result of an expansion without quotes is split into words at blanks (`fields`), each of which is
then matched against the names of files (`Glob`); the output of a command that is substituted loses
the ends of lines at its end (`substitute`).  An argument of a command is a C string.
-/

namespace ShellText

open CString

/-- An argument of a command. -/
@[ext]
structure Arg where
  text : List Byte
  noNul : 0 ∉ text
  deriving DecidableEq

/-- The blanks of the default `IFS`. -/
def isBlank (c : Byte) : Bool := c = 0x20 || c = 0x09 || c = 0x0a

/-- Word splitting. -/
def fields (text : List Byte) : List (List Byte) := (text.splitOnP isBlank).filter (· ≠ [])

/-- A blank separates what is before it from what is behind it. -/
theorem fields_append_cons (text rest : List Byte) {c : Byte} (h : isBlank c = true) :
    fields (text ++ c :: rest) = fields text ++ fields rest := by
  rw [fields, List.splitOnP_append_cons text rest h, List.filter_append]
  rfl

theorem fields_nil : fields [] = [] := rfl

theorem fields_word {word : List Byte} (h : ∀ c ∈ word, isBlank c = false) (hne : word ≠ []) :
    fields word = [word] := by
  rw [fields, List.splitOnP_eq_singleton h, List.filter_singleton, decide_eq_true hne]
  rfl

/-- The characters that make a word a pattern. -/
def patternChars : List Byte := bytes "*?[\\"

/-- Pathname expansion, in some directory: what is no pattern stands for itself. -/
structure Glob where
  expand : List Byte → List (List Byte)
  literal : ∀ word : List Byte, (∀ c ∈ word, c ∉ patternChars) → expand word = [word]

/-- A directory in which nothing matches. -/
def Glob.none : Glob := ⟨fun word => [word], fun _ _ => rfl⟩

/-- The words of an expansion without quotes. -/
def Glob.words (g : Glob) (text : List Byte) : List (List Byte) := (fields text).flatMap g.expand

/-- Words that are no patterns are left as they are. -/
theorem Glob.words_eq {g : Glob} {text : List Byte}
    (h : ∀ word ∈ fields text, ∀ c ∈ word, c ∉ patternChars) : g.words text = fields text := by
  rw [Glob.words]
  generalize fields text = ws at h
  induction ws with
  | nil => rfl
  | cons word ws ih =>
      rw [List.forall_mem_cons] at h
      rw [List.flatMap_cons, g.literal word h.1, ih h.2]
      rfl

/-- `$(…)`: NULs are dropped, and so are the ends of lines at the end. -/
def substitute (output : List Byte) : List Byte :=
  (output.filter (· ≠ 0)).rdropWhile (· = 0x0a)

theorem substitute_of_noNul {output : List Byte} (h : 0 ∉ output) :
    substitute output = output.rdropWhile (· = 0x0a) := by
  have hfilter : output.filter (· ≠ 0) = output := by
    refine List.filter_eq_self.mpr fun c hc => decide_eq_true ?_
    rintro rfl
    exact h hc
  rw [substitute, hfilter]

end ShellText
