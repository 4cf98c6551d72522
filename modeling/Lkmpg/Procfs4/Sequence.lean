import Mathlib.Data.List.Induction
import Lkmpg.Lib.CString
import Lkmpg.Lib.Transition

/-!
# The numbers of `procfs4.c`

The file is a sequence of one record: `my_seq_start` begins it at position 0, `my_seq_show` prints the
static `counter`, and `my_seq_next` counts and ends it.  `seq_read` keeps what the reader has no room
for in a buffer of the file.  At the end of a sequence `my_seq_start` sets the position to 0 again, so
after the end of the file the next sequence begins.

`seq_read` locks the file that it reads, but nothing protects `counter`: the calls for different files
go on in any order, and between the text that `my_seq_show` has printed and the store of `my_seq_next`
another file can print the same number.  Where this does not happen, however many files are read in
whatever pieces, each number is printed into one of them, and none is lost between the pieces.
-/

namespace Lkmpg.Procfs4

open CString Transition

/-! ### The sequence -/

/-- `my_seq_start`: whether it returns `&counter`, and `*pos` after it. -/
def mySeqStart (pos : ℕ) : Bool × ℕ := if pos = 0 then (true, pos) else (false, 0)

/-- `my_seq_next`, which returns `NULL`: `counter` and `*pos` after it. -/
def mySeqNext (counter : BitVec 64) (pos : ℕ) : BitVec 64 × ℕ := (counter + 1, pos + 1)

/-- `my_seq_show` -/
def mySeqShow (counter : BitVec 64) : List Byte := decimal counter.toInt ++ bytes "\n"

/-! ### Reading it -/

/-- The position of an open file, and its `struct seq_file`: the position in the sequence, and what is
left in the buffer. -/
structure SeqFile where
  fPos : ℕ
  index : ℕ
  buf : List Byte

/-- `seq_open` -/
def SeqFile.opened : SeqFile := ⟨0, 0, []⟩

/-- `seq_read` of the kernel, as far as it goes without `counter`: either it returns the bytes, or
`my_seq_start` has returned `&counter` and `chunk` is what it has copied so far. -/
inductive Begun where
  | returned (file : SeqFile) (chunk : List Byte)
  | started (file : SeqFile) (chunk : List Byte)

/-- What is left in the buffer goes first; whether a call that it fills goes on (`goesOn`) depends on
the kernel. -/
def seqReadBegin (f : SeqFile) (size : ℕ) (goesOn : Bool) : Begun :=
  if size = 0 then .returned f []
  else
    let index := if f.fPos = 0 then 0 else f.index
    let buf := if f.fPos = 0 then [] else f.buf
    let chunk := buf.take size
    if buf.drop size ≠ [] ∨ chunk.length = size ∧ goesOn = false then
      .returned ⟨f.fPos + chunk.length, index, buf.drop size⟩ chunk
    else
      match mySeqStart index with
      | (false, index) => .returned ⟨f.fPos + chunk.length, index, []⟩ chunk
      | (true, index) => .started ⟨f.fPos, index, []⟩ chunk

/-- The end of `seq_read`: the text of the record goes behind `chunk`, and the rest into the
buffer. -/
def seqReadEnd (f : SeqFile) (size : ℕ) (chunk text : List Byte) (index : ℕ) :
    SeqFile × List Byte :=
  let more := text.take (size - chunk.length)
  (⟨f.fPos + chunk.length + more.length, index, text.drop (size - chunk.length)⟩, chunk ++ more)

/-- Where the call of `read` on a file is. -/
inductive Pc where
  | idle
  /-- before `my_seq_show` -/
  | show (size : ℕ) (chunk : List Byte)
  /-- before `my_seq_next` loads `counter` -/
  | next (size : ℕ) (chunk text : List Byte)
  /-- before it stores `counter` -/
  | count (size : ℕ) (chunk text : List Byte) (loaded : BitVec 64)

/-- `φ` are the open files. -/
structure State (φ : Type) where
  counter : BitVec 64
  files : φ → SeqFile
  pc : φ → Pc
  /-- what the calls of `read` have returned -/
  chunks : φ → List (List Byte)

def State.init {φ : Type} : State φ := ⟨0, fun _ => .opened, fun _ => .idle, fun _ => []⟩

inductive Act (φ : Type) where
  /-- a call of `read`, up to the end of `my_seq_start` -/
  | read (f : φ) (size : ℕ) (goesOn : Bool)
  /-- the next step of the call on the file -/
  | step (f : φ)
  deriving DecidableEq

variable {φ : Type} [DecidableEq φ]

/-- The call on `f` goes on at `pc`. -/
def State.goto (s : State φ) (f : φ) (file : SeqFile) (pc : Pc) : State φ :=
  { s with files := Function.update s.files f file, pc := Function.update s.pc f pc }

/-- The call on `f` returns. -/
def State.finish (s : State φ) (f : φ) (file : SeqFile) (chunk : List Byte) : State φ :=
  { s.goto f file .idle with chunks := Function.update s.chunks f (s.chunks f ++ [chunk]) }

def seqStep (s : State φ) : Act φ → Option (State φ)
  | .read f size goesOn =>
      match s.pc f with
      | .idle =>
          match seqReadBegin (s.files f) size goesOn with
          | .returned file chunk => some (s.finish f file chunk)
          | .started file chunk => some (s.goto f file (.show size chunk))
      | _ => none
  | .step f =>
      match s.pc f with
      | .idle => none
      | .show size chunk => some (s.goto f (s.files f) (.next size chunk (mySeqShow s.counter)))
      | .next size chunk text => some (s.goto f (s.files f) (.count size chunk text s.counter))
      | .count size chunk text loaded =>
          let (counter, index) := mySeqNext loaded (s.files f).index
          let (file, chunk) := seqReadEnd (s.files f) size chunk text index
          some { s.finish f file chunk with counter := counter }

/-! ### What is delivered -/

/-- What the files whose sequences are listed in `owners`, in their order, get to read. -/
def records (owners : List φ) (f : φ) : List Byte :=
  (owners.zipIdx.filter fun x => x.1 = f).flatMap fun x => mySeqShow (BitVec.ofNat 64 x.2)

/-- `my_seq_show` is next. -/
def Pc.shows : Pc → Bool
  | .show _ _ => true
  | _ => false

/-- The call has printed a number and has not counted it. -/
def Pc.inside : Pc → Bool
  | .next _ _ _ => true
  | .count _ _ _ _ => true
  | _ => false

/-- The text of a record that has been printed and not returned. -/
def Pc.text : Pc → List Byte
  | .idle => []
  | .show _ _ => []
  | .next _ _ text => text
  | .count _ _ text _ => text

/-- No call prints between the `my_seq_show` of another and the end of its `my_seq_next`. -/
def Apart (s : State φ) : Act φ → Prop
  | .read _ _ _ => True
  | .step f => (s.pc f).shows = true → ∀ g, (s.pc g).inside = false

instance [Fintype φ] (s : State φ) : ∀ act, Decidable (Apart s act)
  | .read _ _ _ => isTrue trivial
  | .step f => inferInstanceAs (Decidable ((s.pc f).shows = true → ∀ g, (s.pc g).inside = false))

/-- A number and the end of the file in turn. -/
def Alternates (chunks : List (List Byte)) : Prop :=
  ∀ j chunk, chunks[j]? = some chunk →
    if j % 2 = 0 then ∃ counter, chunk = mySeqShow counter else chunk = []

/-! ### One call -/

theorem mySeqShow_ne_nil (counter : BitVec 64) : mySeqShow counter ≠ [] := by
  simp [mySeqShow, bytes]

/-- The longest number is `-2 ^ 63`. -/
theorem length_mySeqShow_le (counter : BitVec 64) : (mySeqShow counter).length ≤ 21 := by
  have hlow := BitVec.le_toInt counter
  have hhigh : counter.toInt < 2 ^ 63 := BitVec.toInt_lt
  have hdigits : (decimal counter.toInt).length ≤ 20 := by
    rw [decimal]
    split
    · rw [List.length_cons]
      have hnat := length_decimalNat_le (n := counter.toInt.natAbs) (k := 19) (by omega) (by omega)
      omega
    · exact length_decimalNat_le (by omega) (by omega)
  rw [mySeqShow, List.length_append]
  exact Nat.add_le_add_right hdigits 1

/-- A file between two calls: in front of a sequence, or after the record of one. -/
structure FileOk (f : SeqFile) : Prop where
  start : f.fPos = 0 → f.buf = [] ∧ f.index = 0
  buf : f.buf ≠ [] → f.index ≠ 0

/-- What the beginning of a call does: it goes through the buffer, comes to the end of a sequence or
begins one. -/
inductive Begins (f : SeqFile) (size : ℕ) : Begun → Prop
  | buffered {fPos : ℕ} (hpos : fPos = f.fPos + (f.buf.take size).length)
      (hstop : f.buf.drop size ≠ [] ∨ (f.buf.take size).length = size) :
      Begins f size (.returned ⟨fPos, f.index, f.buf.drop size⟩ (f.buf.take size))
  | ended {fPos : ℕ} (hpos : fPos = f.fPos + f.buf.length) (hindex : f.index ≠ 0) :
      Begins f size (.returned ⟨fPos, 0, []⟩ f.buf)
  | started (hbuf : f.buf = []) (hindex : f.index = 0) (hsize : 0 < size) :
      Begins f size (.started f [])

theorem seqReadBegin_begins {f : SeqFile} (h : FileOk f) (size : ℕ) (goesOn : Bool) :
    Begins f size (seqReadBegin f size goesOn) := by
  have hindex : (if f.fPos = 0 then 0 else f.index) = f.index := by
    split
    · rename_i hpos
      exact (h.start hpos).2.symm
    · rfl
  have hbuf : (if f.fPos = 0 then [] else f.buf) = f.buf := by
    split
    · rename_i hpos
      exact (h.start hpos).1.symm
    · rfl
  rw [seqReadBegin]
  simp only [hindex, hbuf]
  split
  · rename_i hzero
    have hnothing : Begun.returned f [] =
        .returned ⟨f.fPos, f.index, f.buf.drop size⟩ (f.buf.take size) := by
      rw [hzero, List.drop_zero, List.take_zero]
    rw [hnothing]
    refine .buffered ?_ (Or.inr ?_)
    · rw [hzero, List.take_zero, List.length_nil, Nat.add_zero]
    · rw [hzero, List.take_zero, List.length_nil]
  rename_i hsize
  split
  · rename_i hstop
    exact .buffered rfl (hstop.imp_right And.left)
  · rename_i hstop
    have hdrop : f.buf.drop size = [] := by
      by_contra hne
      exact hstop (Or.inl hne)
    have htake : f.buf.take size = f.buf := List.take_of_length_le (List.drop_eq_nil_iff.mp hdrop)
    rw [htake, mySeqStart]
    by_cases hzero : f.index = 0
    · have hnil : f.buf = [] := by
        by_contra hne
        exact h.buf hne hzero
      have hfile : (⟨f.fPos, 0, []⟩ : SeqFile) = f := by
        rw [← hzero, ← hnil]
      simp only [hzero, if_true, hnil, hfile]
      exact .started hnil hzero (Nat.pos_of_ne_zero hsize)
    · simp only [hzero, if_false]
      exact .ended rfl hzero

/-! ### What each step can do -/

section Steps

variable {s t : State φ} {f : φ}

/-- The file between two calls, and the call that is under way on it. -/
def Pc.Fits (file : SeqFile) : Pc → Prop
  | .idle => True
  | .show size chunk => 0 < size ∧ chunk = [] ∧ file.buf = [] ∧ file.index = 0
  | .next size chunk text =>
      0 < size ∧ chunk = [] ∧ file.buf = [] ∧ file.index = 0 ∧ ∃ n, text = mySeqShow n
  | .count size chunk text _ =>
      0 < size ∧ chunk = [] ∧ file.buf = [] ∧ file.index = 0 ∧ ∃ n, text = mySeqShow n

/-- Every file and its call. -/
structure Fit (s : State φ) : Prop where
  ok : ∀ f, FileOk (s.files f)
  call : ∀ f, (s.pc f).Fits (s.files f)
  fPos : ∀ f, (s.files f).fPos = (s.chunks f).flatten.length

omit [DecidableEq φ] in
theorem fileOk_opened : FileOk .opened := ⟨fun _ => ⟨rfl, rfl⟩, fun h => absurd rfl h⟩

omit [DecidableEq φ] in
theorem fit_init : Fit (State.init : State φ) := ⟨fun _ => fileOk_opened, fun _ => trivial, fun _ => rfl⟩

/-- The kinds of steps of calls that fit their files. -/
inductive Moves (s : State φ) : Act φ → State φ → Prop
  /-- the call goes through the buffer -/
  | buffered {f : φ} {size : ℕ} {goesOn : Bool} {fPos : ℕ} (hpc : s.pc f = .idle)
      (hpos : fPos = (s.files f).fPos + ((s.files f).buf.take size).length)
      (hstop : (s.files f).buf.drop size ≠ [] ∨ ((s.files f).buf.take size).length = size) :
      Moves s (.read f size goesOn)
        (s.finish f ⟨fPos, (s.files f).index, (s.files f).buf.drop size⟩ ((s.files f).buf.take size))
  /-- it comes to the end of a sequence -/
  | ended {f : φ} {size : ℕ} {goesOn : Bool} {fPos : ℕ} (hpc : s.pc f = .idle)
      (hpos : fPos = (s.files f).fPos + (s.files f).buf.length) (hindex : (s.files f).index ≠ 0) :
      Moves s (.read f size goesOn) (s.finish f ⟨fPos, 0, []⟩ (s.files f).buf)
  /-- it begins a sequence -/
  | started {f : φ} {size : ℕ} {goesOn : Bool} (hpc : s.pc f = .idle) (hbuf : (s.files f).buf = [])
      (hindex : (s.files f).index = 0) (hsize : 0 < size) :
      Moves s (.read f size goesOn) (s.goto f (s.files f) (.show size []))
  | shown {f : φ} {size : ℕ} (hpc : s.pc f = .show size []) (hbuf : (s.files f).buf = [])
      (hindex : (s.files f).index = 0) (hsize : 0 < size) :
      Moves s (.step f) (s.goto f (s.files f) (.next size [] (mySeqShow s.counter)))
  | loaded {f : φ} {size : ℕ} {n : BitVec 64} (hpc : s.pc f = .next size [] (mySeqShow n))
      (hbuf : (s.files f).buf = []) (hindex : (s.files f).index = 0) (hsize : 0 < size) :
      Moves s (.step f) (s.goto f (s.files f) (.count size [] (mySeqShow n) s.counter))
  | counted {f : φ} {size : ℕ} {n loaded : BitVec 64}
      (hpc : s.pc f = .count size [] (mySeqShow n) loaded)
      (hbuf : (s.files f).buf = []) (hindex : (s.files f).index = 0) (hsize : 0 < size) :
      Moves s (.step f)
        { s.finish f ⟨(s.files f).fPos + ((mySeqShow n).take size).length, 1,
            (mySeqShow n).drop size⟩ ((mySeqShow n).take size) with counter := loaded + 1 }

/-- **Inversion.** -/
theorem Fit.moves {act : Act φ} (hs : Fit s) (h : seqStep s act = some t) : Moves s act t := by
  cases act with
  | read f size goesOn =>
      simp only [seqStep] at h
      split at h
      · rename_i hpc
        have hbegins := seqReadBegin_begins (hs.ok f) size goesOn
        generalize seqReadBegin (s.files f) size goesOn = begun at h hbegins
        cases hbegins with
        | buffered hpos hstop =>
            obtain rfl := Option.some.inj h
            exact .buffered hpc hpos hstop
        | ended hpos hindex =>
            obtain rfl := Option.some.inj h
            exact .ended hpc hpos hindex
        | started hbuf hindex hsize =>
            obtain rfl := Option.some.inj h
            exact .started hpc hbuf hindex hsize
      · cases h
  | step f =>
      have hcall := hs.call f
      simp only [seqStep] at h
      split at h
      · cases h
      · rename_i size chunk hpc
        rw [hpc] at hcall
        obtain ⟨hsize, rfl, hbuf, hindex⟩ := hcall
        obtain rfl := Option.some.inj h
        exact .shown hpc hbuf hindex hsize
      · rename_i size chunk text hpc
        rw [hpc] at hcall
        obtain ⟨hsize, rfl, hbuf, hindex, n, rfl⟩ := hcall
        obtain rfl := Option.some.inj h
        exact .loaded hpc hbuf hindex hsize
      · rename_i size chunk text loaded hpc
        rw [hpc] at hcall
        obtain ⟨hsize, rfl, hbuf, hindex, n, rfl⟩ := hcall
        obtain rfl := Option.some.inj h
        simp only [mySeqNext, seqReadEnd, hindex, List.length_nil, Nat.sub_zero, Nat.add_zero,
          List.nil_append]
        exact .counted hpc hbuf hindex hsize

omit [DecidableEq φ] in
theorem Fit.with_counter (hs : Fit s) (n : BitVec 64) : Fit { s with counter := n } :=
  ⟨hs.ok, hs.call, hs.fPos⟩

theorem Fit.goto (hs : Fit s) {pc : Pc} (hpc : pc.Fits (s.files f)) :
    Fit (s.goto f (s.files f) pc) := by
  have hfiles : (s.goto f (s.files f) pc).files = s.files := Function.update_eq_self f s.files
  refine ⟨?_, fun g => ?_, ?_⟩
  · rw [hfiles]
    exact hs.ok
  · rw [hfiles]
    exact (Function.forall_update_iff s.pc fun g pc => pc.Fits (s.files g)).mpr
      ⟨hpc, fun g _ => hs.call g⟩ g
  · rw [hfiles]
    exact hs.fPos

theorem Fit.finish (hs : Fit s) {file : SeqFile} {chunk : List Byte} (hok : FileOk file)
    (hpos : file.fPos = (s.files f).fPos + chunk.length) : Fit (s.finish f file chunk) := by
  refine ⟨(Function.forall_update_iff s.files fun _ file => FileOk file).mpr
    ⟨hok, fun g _ => hs.ok g⟩, fun g => ?_, fun g => ?_⟩
  · by_cases hg : g = f
    · subst hg
      simp [State.finish, State.goto, Pc.Fits]
    · simpa [State.finish, State.goto, hg] using hs.call g
  · by_cases hg : g = f
    · subst hg
      simp [State.finish, State.goto, hpos, hs.fPos g]
    · simpa [State.finish, State.goto, hg] using hs.fPos g

/-- **Step.**  Calls go on fitting their files. -/
theorem Fit.step {act : Act φ} (hs : Fit s) (h : seqStep s act = some t) : Fit t := by
  cases hs.moves h with
  | @buffered f size goesOn fPos hpc hpos hstop =>
      refine hs.finish ⟨fun hzero => ?_, fun hne => (hs.ok f).buf ?_⟩ hpos
      · have hsum := hpos.symm.trans hzero
        obtain ⟨hbuf, hindex⟩ := (hs.ok f).start (by omega)
        exact ⟨by rw [hbuf, List.drop_nil], hindex⟩
      · rintro hnil
        exact hne (by rw [hnil, List.drop_nil])
  | ended hpc hpos hindex =>
      exact hs.finish ⟨fun _ => ⟨rfl, rfl⟩, fun hne => absurd rfl hne⟩ hpos
  | started hpc hbuf hindex hsize => exact hs.goto ⟨hsize, rfl, hbuf, hindex⟩
  | shown hpc hbuf hindex hsize => exact hs.goto ⟨hsize, rfl, hbuf, hindex, _, rfl⟩
  | loaded hpc hbuf hindex hsize => exact hs.goto ⟨hsize, rfl, hbuf, hindex, _, rfl⟩
  | @counted f size n loaded hpc hbuf hindex hsize =>
      refine (hs.finish ⟨fun hzero => ?_, fun _ => one_ne_zero⟩ rfl).with_counter _
      have hshow : 0 < (mySeqShow n).length := List.length_pos_of_ne_nil (mySeqShow_ne_nil n)
      have hsum : (s.files f).fPos + ((mySeqShow n).take size).length = 0 := hzero
      rw [List.length_take] at hsum
      omega

end Steps

/-! ### Each number once -/

section Records

variable {owners owners' : List φ} {s t : State φ} {f : φ}

theorem records_concat_self (owners : List φ) (f : φ) :
    records (owners ++ [f]) f = records owners f ++ mySeqShow (BitVec.ofNat 64 owners.length) := by
  simp [records, List.zipIdx_append]

theorem records_concat_of_ne {g : φ} (hg : g ≠ f) (owners : List φ) :
    records (owners ++ [g]) f = records owners f := by
  simp [records, List.zipIdx_append, hg]

/-- Every number that has been printed is counted, but for that of one call. -/
inductive Turn (owners : List φ) (s : State φ) : Prop
  | free (hnone : ∀ g, (s.pc g).inside = false) (hcounter : s.counter = BitVec.ofNat 64 owners.length)
  | held (f : φ) (hinside : (s.pc f).inside = true) (hother : ∀ g, g ≠ f → (s.pc g).inside = false)
      (hcounter : s.counter + 1 = BitVec.ofNat 64 owners.length)
      (hloaded : ∀ size chunk text loaded, s.pc f = .count size chunk text loaded →
        loaded = s.counter)

/-- Sequences have been begun for `owners`, in this order. -/
structure Served (owners : List φ) (s : State φ) : Prop where
  turn : Turn owners s
  delivered : ∀ f, (s.chunks f).flatten ++ (s.files f).buf ++ (s.pc f).text = records owners f

theorem served_init : Served [] (State.init : State φ) := ⟨.free (fun _ => rfl) rfl, fun _ => rfl⟩

/-- The numbers are counted as before where a call moves that is in front of `my_seq_show`. -/
theorem Turn.quiet (h : Turn owners s) {pc : Pc} (hpc : t.pc = Function.update s.pc f pc)
    (hbefore : (s.pc f).inside = false) (hafter : pc.inside = false) (hcounter : t.counter = s.counter) :
    Turn owners t := by
  have hinside : ∀ g, (t.pc g).inside = (s.pc g).inside := by
    rw [hpc]
    exact (Function.forall_update_iff s.pc fun g pc => pc.inside = (s.pc g).inside).mpr
      ⟨hafter.trans hbefore.symm, fun _ _ => rfl⟩
  cases h with
  | free hnone hold => exact .free (fun g => (hinside g).trans (hnone g)) (hcounter.trans hold)
  | held g hg hother hold hloaded =>
      have hgf : g ≠ f := by
        rintro rfl
        rw [hbefore] at hg
        cases hg
      refine .held g ((hinside g).trans hg) (fun k hk => (hinside k).trans (hother k hk))
        (hcounter ▸ hold) ?_
      rw [hpc, Function.update_of_ne hgf, hcounter]
      exact hloaded

/-- Only the file `f` and its call change. -/
theorem Served.delivered_of (h : Served owners s)
    (hfiles : ∀ g, g ≠ f → t.files g = s.files g) (hpc : ∀ g, g ≠ f → t.pc g = s.pc g)
    (hchunks : ∀ g, g ≠ f → t.chunks g = s.chunks g)
    (hother : ∀ g, g ≠ f → records owners' g = records owners g)
    (hself : (t.chunks f).flatten ++ (t.files f).buf ++ (t.pc f).text = records owners' f) :
    ∀ g, (t.chunks g).flatten ++ (t.files g).buf ++ (t.pc g).text = records owners' g := by
  intro g
  by_cases hg : g = f
  · rw [hg]
    exact hself
  · rw [hfiles g hg, hpc g hg, hchunks g hg, hother g hg]
    exact h.delivered g

theorem Served.goto (h : Served owners s) {pc : Pc}
    (hother : ∀ g, g ≠ f → records owners' g = records owners g)
    (hself : (s.chunks f).flatten ++ (s.files f).buf ++ pc.text = records owners' f) (g : φ) :
    ((s.goto f (s.files f) pc).chunks g).flatten ++ ((s.goto f (s.files f) pc).files g).buf ++
      ((s.goto f (s.files f) pc).pc g).text = records owners' g := by
  refine h.delivered_of (t := s.goto f (s.files f) pc) (f := f) (fun g hg => ?_) (fun g hg => ?_)
    (fun _ _ => rfl) hother ?_ g
  · exact Function.update_of_ne hg _ _
  · exact Function.update_of_ne hg _ _
  · simpa [State.goto] using hself

theorem Served.finish (h : Served owners s) {file : SeqFile} {chunk : List Byte}
    (hself : (s.chunks f).flatten ++ chunk ++ file.buf = records owners f) (g : φ) :
    ((s.finish f file chunk).chunks g).flatten ++ ((s.finish f file chunk).files g).buf ++
      ((s.finish f file chunk).pc g).text = records owners g := by
  refine h.delivered_of (t := s.finish f file chunk) (f := f) (fun g hg => ?_) (fun g hg => ?_)
    (fun g hg => ?_) (fun _ _ => rfl) ?_ g
  · exact Function.update_of_ne hg _ _
  · exact Function.update_of_ne hg _ _
  · exact Function.update_of_ne hg _ _
  · simpa [State.finish, State.goto, Pc.text] using hself

/-- **Step.**  The next number goes to the file whose call prints it. -/
theorem Served.step {act : Act φ} (h : Served owners s) (hs : Fit s) (hC : Apart s act)
    (hstep : seqStep s act = some t) : ∃ owners', Served owners' t := by
  cases hs.moves hstep with
  | @buffered f size goesOn fPos hpc hpos hstop =>
      refine ⟨owners, h.turn.quiet rfl (by rw [hpc]; rfl) rfl rfl, h.finish ?_⟩
      have hdelivered := h.delivered f
      rw [hpc, Pc.text, List.append_nil] at hdelivered
      rw [List.append_assoc, List.take_append_drop]
      exact hdelivered
  | @ended f size goesOn fPos hpc hpos hindex =>
      refine ⟨owners, h.turn.quiet rfl (by rw [hpc]; rfl) rfl rfl, h.finish ?_⟩
      have hdelivered := h.delivered f
      rw [hpc, Pc.text, List.append_nil] at hdelivered
      rw [List.append_nil]
      exact hdelivered
  | @started f size goesOn hpc hbuf hindex hsize =>
      refine ⟨owners, h.turn.quiet rfl (by rw [hpc]; rfl) rfl rfl, h.goto (fun _ _ => rfl) ?_⟩
      have hdelivered := h.delivered f
      rw [hpc] at hdelivered
      exact hdelivered
  | @shown f size hpc hbuf hindex hsize =>
      have hnone : ∀ g, (s.pc g).inside = false := hC (by rw [hpc]; rfl)
      have hcounter : s.counter = BitVec.ofNat 64 owners.length := by
        cases h.turn with
        | free _ hcounter => exact hcounter
        | held g hg _ _ _ => exact absurd ((hnone g).symm.trans hg) Bool.false_ne_true
      refine ⟨owners ++ [f], .held f ?_ (fun g hg => ?_) ?_ ?_, h.goto (fun g hg => ?_) ?_⟩
      · exact congrArg Pc.inside (Function.update_self f _ s.pc)
      · exact (congrArg Pc.inside (Function.update_of_ne hg _ s.pc)).trans (hnone g)
      · show s.counter + 1 = _
        rw [hcounter, List.length_append, List.length_singleton, BitVec.ofNat_add]
        rfl
      · intro size chunk text loaded hcount
        cases (Function.update_self f _ s.pc).symm.trans hcount
      · exact records_concat_of_ne (Ne.symm hg) owners
      · have hdelivered := h.delivered f
        rw [hpc, Pc.text, List.append_nil] at hdelivered
        rw [hdelivered, records_concat_self, hcounter]
        rfl
  | @loaded f size n hpc hbuf hindex hsize =>
      have hinside : (s.pc f).inside = true := by rw [hpc]; rfl
      refine ⟨owners, ?_, h.goto (fun _ _ => rfl) ?_⟩
      · cases h.turn with
        | free hnone _ => exact absurd ((hnone f).symm.trans hinside) Bool.false_ne_true
        | held g hg hother hcounter _ =>
            obtain rfl : f = g := by
              by_contra hne
              exact Bool.false_ne_true ((hother f hne).symm.trans hinside)
            refine .held f ?_ (fun k hk => ?_) hcounter ?_
            · exact congrArg Pc.inside (Function.update_self f _ s.pc)
            · exact (congrArg Pc.inside (Function.update_of_ne hk _ s.pc)).trans (hother k hk)
            · intro size' chunk text loaded hcount
              have hsame := (Function.update_self f _ s.pc).symm.trans hcount
              exact (Pc.count.inj hsame).2.2.2.symm
      · have hdelivered := h.delivered f
        rw [hpc] at hdelivered
        exact hdelivered
  | @counted f size n loaded hpc hbuf hindex hsize =>
      have hinside : (s.pc f).inside = true := by rw [hpc]; rfl
      refine ⟨owners, ?_, h.finish ?_⟩
      · cases h.turn with
        | free hnone _ => exact absurd ((hnone f).symm.trans hinside) Bool.false_ne_true
        | held g hg hother hcounter hloaded =>
            obtain rfl : f = g := by
              by_contra hne
              exact Bool.false_ne_true ((hother f hne).symm.trans hinside)
            refine .free ?_ ?_
            · exact (Function.forall_update_iff s.pc fun _ pc => pc.inside = false).mpr
                ⟨rfl, hother⟩
            · rw [hloaded _ _ _ _ hpc]
              exact hcounter
      · have hdelivered := h.delivered f
        rw [hpc, hbuf, List.append_nil] at hdelivered
        rw [List.append_assoc, List.take_append_drop]
        exact hdelivered

/-- **Run.** -/
theorem exists_served {acts : List (Act φ)} (hapart : Along seqStep Apart State.init acts)
    (h : run seqStep State.init acts = some s) : ∃ owners, Served owners s := by
  have hstep : ∀ (s : State φ) act t, (Fit s ∧ ∃ owners, Served owners s) → Apart s act →
      seqStep s act = some t → Fit t ∧ ∃ owners, Served owners t := by
    rintro s act t ⟨hs, owners, hserved⟩ hC hst
    exact ⟨hs.step hst, hserved.step hs hC hst⟩
  exact (run_induction hstep ⟨fit_init, [], served_init⟩ hapart h).2

end Records

/-! ### Reads of whole records -/

section Whole

variable {s t : State φ} {f : φ}

/-- The size that the call has been given. -/
def Pc.size : Pc → Option ℕ
  | .idle => none
  | .show size _ => some size
  | .next size _ _ => some size
  | .count size _ _ _ => some size

/-- The calls on the file ask for any number. -/
def Large (f : φ) : Act φ → Prop
  | .read g size _ => g = f → 21 ≤ size
  | .step _ => True

/-- Nothing is in the buffer, and the parity of the calls tells where the sequence is. -/
structure Whole (f : φ) (s : State φ) : Prop where
  buf : (s.files f).buf = []
  index : (s.files f).index = 0 ↔ (s.chunks f).length % 2 = 0
  alternates : Alternates (s.chunks f)
  large : ∀ size ∈ (s.pc f).size, 21 ≤ size

theorem Alternates.concat {chunks : List (List Byte)} {chunk : List Byte} (h : Alternates chunks)
    (hlast : if chunks.length % 2 = 0 then ∃ counter, chunk = mySeqShow counter else chunk = []) :
    Alternates (chunks ++ [chunk]) := by
  intro j c hj
  rw [List.getElem?_append] at hj
  split at hj
  · exact h j c hj
  · rename_i hge
    rw [List.getElem?_singleton] at hj
    split at hj
    · rename_i hzero
      have hlength : j = chunks.length := by omega
      rw [hlength, ← Option.some.inj hj]
      exact hlast
    · cases hj

omit [DecidableEq φ] in
/-- A call of another file. -/
theorem Whole.of_ne (h : Whole f s) (hfiles : t.files f = s.files f) (hpc : t.pc f = s.pc f)
    (hchunks : t.chunks f = s.chunks f) : Whole f t := by
  refine ⟨?_, ?_, ?_, ?_⟩
  · rw [hfiles]
    exact h.buf
  · rw [hfiles, hchunks]
    exact h.index
  · rw [hchunks]
    exact h.alternates
  · rw [hpc]
    exact h.large

theorem Whole.goto {g : φ} (h : Whole f s) {pc : Pc} (hlarge : g = f → ∀ size ∈ pc.size, 21 ≤ size) :
    Whole f (s.goto g (s.files g) pc) := by
  by_cases hg : g = f
  · subst hg
    refine ⟨?_, ?_, h.alternates, ?_⟩
    · simpa [State.goto] using h.buf
    · simpa [State.goto] using h.index
    · simpa [State.goto] using hlarge rfl
  · exact h.of_ne (Function.update_of_ne (Ne.symm hg) _ _) (Function.update_of_ne (Ne.symm hg) _ _) rfl

theorem Whole.finish {g : φ} (h : Whole f s) {file : SeqFile} {chunk : List Byte}
    (hbuf : g = f → file.buf = [])
    (hindex : g = f → (file.index = 0 ↔ ¬(s.chunks f).length % 2 = 0))
    (hlast : g = f → if (s.chunks f).length % 2 = 0 then ∃ counter, chunk = mySeqShow counter
      else chunk = []) : Whole f (s.finish g file chunk) := by
  by_cases hg : g = f
  · subst hg
    refine ⟨?_, ?_, ?_, ?_⟩
    · simpa [State.finish, State.goto] using hbuf rfl
    · have hodd := hindex rfl
      simp only [State.finish, State.goto, Function.update_self, List.length_append,
        List.length_singleton, hodd]
      omega
    · simpa [State.finish] using h.alternates.concat (hlast rfl)
    · simp [State.finish, State.goto, Pc.size]
  · exact h.of_ne (Function.update_of_ne (Ne.symm hg) _ _) (Function.update_of_ne (Ne.symm hg) _ _)
      (Function.update_of_ne (Ne.symm hg) _ _)

omit [DecidableEq φ] in
theorem Whole.with_counter (h : Whole f s) (n : BitVec 64) : Whole f { s with counter := n } :=
  ⟨h.buf, h.index, h.alternates, h.large⟩

/-- **Step.**  A call whose buffer holds any number gets a number or the end. -/
theorem Whole.step {act : Act φ} (h : Whole f s) (hs : Fit s) (hC : Large f act)
    (hstep : seqStep s act = some t) : Whole f t := by
  cases hs.moves hstep with
  | @buffered g size goesOn fPos hpc hpos hstop =>
      by_cases hg : g = f
      · subst hg
        have hlarge := hC rfl
        rw [h.buf, List.drop_nil, List.take_nil, List.length_nil] at hstop
        have hzero : 0 = size := hstop.resolve_left fun hne => hne rfl
        omega
      · exact h.finish (fun heq => absurd heq hg) (fun heq => absurd heq hg) fun heq => absurd heq hg
  | @ended g size goesOn fPos hpc hpos hindex =>
      refine h.finish (fun _ => rfl) ?_ ?_
      · rintro rfl
        exact iff_of_true rfl (mt h.index.mpr hindex)
      · rintro rfl
        rw [if_neg (mt h.index.mpr hindex)]
        exact h.buf
  | @started g size goesOn hpc hbuf hindex hsize =>
      exact h.goto fun hg n hn => Option.some.inj hn ▸ hC hg
  | @shown g size hpc hbuf hindex hsize =>
      refine h.goto ?_
      rintro rfl
      have hlarge := h.large
      rw [hpc] at hlarge
      exact hlarge
  | @loaded g size n hpc hbuf hindex hsize =>
      refine h.goto ?_
      rintro rfl
      have hlarge := h.large
      rw [hpc] at hlarge
      exact hlarge
  | @counted g size n loaded hpc hbuf hindex hsize =>
      have hlarge : g = f → (mySeqShow n).length ≤ size := by
        rintro rfl
        have hsize := h.large size (by rw [hpc]; rfl)
        exact (length_mySeqShow_le n).trans hsize
      refine (h.finish (fun hg => List.drop_eq_nil_iff.mpr (hlarge hg)) ?_ ?_).with_counter _
      · rintro rfl
        exact iff_of_false one_ne_zero (not_not.mpr (h.index.mp hindex))
      · intro hg
        subst hg
        rw [if_pos (h.index.mp hindex)]
        exact ⟨n, List.take_of_length_le (hlarge rfl)⟩

theorem whole_of_run {acts : List (Act φ)}
    (hlarge : ∀ size goesOn, Act.read f size goesOn ∈ acts → 21 ≤ size)
    (h : run seqStep State.init acts = some s) : Whole f s := by
  have hinit : Whole f (State.init : State φ) := by
    refine ⟨rfl, iff_of_true rfl rfl, fun j chunk hj => ?_, fun size hsize => ?_⟩
    · cases hj
    · cases hsize
  have hall : ∀ act ∈ acts, Large f act := by
    intro act hact
    cases act with
    | read g size goesOn =>
        rintro rfl
        exact hlarge size goesOn hact
    | step g => trivial
  have hstep : ∀ (s : State φ) act t, Fit s ∧ Whole f s → Large f act → seqStep s act = some t →
      Fit t ∧ Whole f t :=
    fun s act t hs hC hst => ⟨hs.1.step hst, hs.2.step hs.1 hC hst⟩
  exact (run_induction hstep ⟨fit_init, hinit⟩ (Along.of_forall hall) h).2

end Whole

/-- **Each number once.**  However the calls of `read` on any files are interleaved, with pieces of any
size: if no call prints between the `my_seq_show` of another and the end of its `my_seq_next`, the
sequences begun belong to files `owners`, and what each file has delivered, with what is left in its
buffer and what its call is about to return, are the numbers of its own sequences.  A file that is
read with buffers that hold any number delivers a number and the end of the file in turn, whatever the
other calls do. -/
theorem numbers_once {acts : List (Act φ)} {s : State φ}
    (h : run seqStep State.init acts = some s) :
    (Along seqStep Apart State.init acts → ∃ owners : List φ,
      ((∀ f, (s.pc f).inside = false) → s.counter = BitVec.ofNat 64 owners.length) ∧
      ∀ f, (s.chunks f).flatten ++ (s.files f).buf ++ (s.pc f).text = records owners f) ∧
    ∀ f, (∀ size goesOn, Act.read f size goesOn ∈ acts → 21 ≤ size) → Alternates (s.chunks f) := by
  refine ⟨fun hapart => ?_, fun f hlarge => (whole_of_run hlarge h).alternates⟩
  obtain ⟨owners, hserved⟩ := exists_served hapart h
  refine ⟨owners, fun hnone => ?_, hserved.delivered⟩
  cases hserved.turn with
  | free _ hcounter => exact hcounter
  | held f hf _ _ _ => exact absurd ((hnone f).symm.trans hf) Bool.false_ne_true

/-- `cat` reads the file while another reader takes it byte by byte; their calls overlap, but not from
`my_seq_show` to the end of `my_seq_next`. -/
def catAndDd : List (Act (Fin 2)) :=
  [.read 0 4096 true, .read 1 1 true, .step 1, .step 1, .step 1, .step 0, .step 0, .read 1 1 true,
    .step 0, .read 0 4096 true]

theorem numbers_once_catAndDd :
    ∃ s, run seqStep (State.init : State (Fin 2)) catAndDd = some s ∧
      s.chunks 0 = [[0x31, 0x0a], []] ∧ s.chunks 1 = [[0x30], [0x0a]] ∧
      (∃ owners : List (Fin 2),
        ((∀ f, (s.pc f).inside = false) → s.counter = BitVec.ofNat 64 owners.length) ∧
        ∀ f, (s.chunks f).flatten ++ (s.files f).buf ++ (s.pc f).text = records owners f) ∧
      Alternates (s.chunks 0) := by
  have hvalues : (run seqStep (State.init : State (Fin 2)) catAndDd).map (fun s =>
      (s.chunks 0, s.chunks 1)) = some ([[0x31, 0x0a], []], [[0x30], [0x0a]]) := by
    decide +kernel
  obtain ⟨s, hrun, hs⟩ := Option.map_eq_some_iff.mp hvalues
  obtain ⟨h₀, h₁⟩ := Prod.mk.inj hs
  have hlarge : ∀ size goesOn, Act.read 0 size goesOn ∈ catAndDd → 21 ≤ size := by
    simp [catAndDd]
  exact ⟨s, hrun, h₀, h₁, (numbers_once hrun).1 (by decide +kernel),
    (numbers_once hrun).2 0 hlarge⟩

/-- Two calls that print before either counts: both deliver the number 0. -/
example : (run seqStep (State.init : State (Fin 2)) [.read 0 4096 true, .read 1 4096 true, .step 0,
    .step 1, .step 0, .step 0, .step 1, .step 1]).map (fun s => (s.chunks 0, s.chunks 1)) =
      some ([[0x30, 0x0a]], [[0x30, 0x0a]]) := by
  decide +kernel

end Lkmpg.Procfs4
