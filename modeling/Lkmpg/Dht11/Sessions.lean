import Lkmpg.Dht11.Decode
import Lkmpg.Lib.Transition

/-!
# Files of `dht11.c`

`device_open` makes up to five attempts to read the sensor; `device_read` copies the text of the last
reading from the position of the file on.  Nobody has the device alone, so a text can be replaced
while a file is being read: what has been read then is made of pieces of several texts, each at its
own place.

The calls of a run follow one another.  An attempt is given by what the line does from its call on.
-/

namespace Lkmpg.Dht11

open Transition Waveform

/-! ### `device_open` -/

/-- The loop over `retry`: this attempt and those that are left. -/
def retryLoop (line : ℕ → Bool) : List (ℕ → Bool) → Driver → Driver × Except ReadError Unit
  | [], d =>
      match dht11ReadData line 0 d with
      | (d, .ok _) => (d, .ok ())
      | (d, .error ret) => ({ d with drive := some true }, .error ret)
  | next :: lines, d =>
      match dht11ReadData line 0 d with
      | (d, .ok _) => (d, .ok ())
      | (d, .error _) => retryLoop next lines d

def deviceOpen (attempts : Fin 5 → ℕ → Bool) (d : Driver) : Driver × Except ReadError Unit :=
  retryLoop (attempts 0) [attempts 1, attempts 2, attempts 3, attempts 4] d

/-- The data that an attempt accepts. -/
def accepted (line : ℕ → Bool) : Option (List Byte) :=
  (readSensor line startSequence).filter fun sensorData =>
    decide (sensorData.getD 4 0 = checksum sensorData)

/-- The data of the first attempt that accepts some. -/
def firstAccepted (attempts : Fin 5 → ℕ → Bool) : Option (List Byte) :=
  [attempts 0, attempts 1, attempts 2, attempts 3, attempts 4].findSome? accepted

/-- The text for the data. -/
def textOf (sensorData : List Byte) : List Byte :=
  message (sensorData.getD 0 0) (sensorData.getD 2 0)

section Open

variable {line : ℕ → Bool} {d : Driver} {sensorData : List Byte}

theorem dht11ReadData_accepted (h : accepted line = some sensorData) :
    dht11ReadData line 0 d = (⟨textOf sensorData, some true⟩, .ok ()) := by
  obtain ⟨hread, hsum⟩ := Option.filter_eq_some_iff.mp h
  rw [dht11ReadData, Nat.zero_add, hread]
  exact if_neg (not_not.mpr (of_decide_eq_true hsum))

theorem dht11ReadData_refused (h : accepted line = none) :
    ∃ ret, dht11ReadData line 0 d = ({ d with drive := none }, .error ret) := by
  rw [dht11ReadData, Nat.zero_add]
  rw [accepted] at h
  cases hread : readSensor line startSequence with
  | none => exact ⟨.ETIMEDOUT, rfl⟩
  | some sensorData =>
      have hsum : sensorData.getD 4 0 ≠ checksum sensorData := by
        rw [hread] at h
        simpa using h
      exact ⟨ReadError.EIO, if_pos hsum⟩

/-- The loop ends with the first attempt that accepts its data, and otherwise changes no text. -/
theorem retryLoop_eq (line : ℕ → Bool) (lines : List (ℕ → Bool)) (d : Driver) :
    (∀ sensorData, (line :: lines).findSome? accepted = some sensorData →
      retryLoop line lines d = (⟨textOf sensorData, some true⟩, .ok ())) ∧
    ((line :: lines).findSome? accepted = none →
      ∃ ret, retryLoop line lines d = ({ d with drive := some true }, .error ret)) := by
  induction lines generalizing line d with
  | nil =>
      cases haccepted : accepted line with
      | some sensorData => simp [haccepted, retryLoop, dht11ReadData_accepted haccepted]
      | none =>
          obtain ⟨ret, hret⟩ := dht11ReadData_refused (d := d) haccepted
          simp [haccepted, retryLoop, hret]
  | cons next lines ih =>
      cases haccepted : accepted line with
      | some sensorData => simp [haccepted, retryLoop, dht11ReadData_accepted haccepted]
      | none =>
          obtain ⟨ret, hret⟩ := dht11ReadData_refused (d := d) haccepted
          simpa [haccepted, retryLoop, hret] using ih next { d with drive := none }

theorem deviceOpen_eq (attempts : Fin 5 → ℕ → Bool) (d : Driver) :
    (∀ sensorData, firstAccepted attempts = some sensorData →
      deviceOpen attempts d = (⟨textOf sensorData, some true⟩, .ok ())) ∧
    (firstAccepted attempts = none →
      ∃ ret, deviceOpen attempts d = ({ d with drive := some true }, .error ret)) :=
  retryLoop_eq _ _ d

end Open

/-! ### Files -/

/-- An open file. -/
structure File where
  /-- `*offset` -/
  offset : ℕ
  /-- all bytes that have been read -/
  got : List Byte
  /-- a read has found the end -/
  ended : Bool

def File.opened : File := ⟨0, [], false⟩

/-- `device_read`: the file after it; `fault` says that `copy_to_user` fails. -/
def deviceRead (msg : List Byte) (f : File) (length : ℕ) (fault : Bool) : File :=
  if msg.length ≤ f.offset then { f with ended := true }
  else if fault then f
  else
    let chunk := (msg.drop f.offset).take (min length (msg.length - f.offset))
    ⟨f.offset + chunk.length, f.got ++ chunk, f.ended⟩

structure State (φ : Type) where
  driver : Driver
  files : φ → Option File

variable {φ : Type} [DecidableEq φ]

/-- After module load. -/
def State.init : State φ := ⟨⟨[], some true⟩, fun _ => none⟩

inductive Act (φ : Type) where
  | deviceOpen (f : φ) (attempts : Fin 5 → ℕ → Bool)
  | deviceRead (f : φ) (length : ℕ) (fault : Bool)
  | deviceRelease (f : φ)

def sessionStep (s : State φ) : Act φ → Option (State φ)
  | .deviceOpen f attempts =>
      match s.files f with
      | some _ => none
      | none =>
          match deviceOpen attempts s.driver with
          | (driver, .ok _) => some ⟨driver, Function.update s.files f (some File.opened)⟩
          | (driver, .error _) => some { s with driver }
  | .deviceRead f length fault => (s.files f).map fun file =>
      let file := deviceRead s.driver.msg file length fault
      { s with files := Function.update s.files f (some file) }
  | .deviceRelease f => (s.files f).map fun _ =>
      { s with files := Function.update s.files f none }

/-- The texts of the readings, in order. -/
def texts (acts : List (Act φ)) : List (List Byte) :=
  acts.filterMap fun act => match act with
    | .deviceOpen _ attempts => (firstAccepted attempts).map textOf
    | _ => none

/-! ### What a file shows -/

/-- What a file can have read while the texts `told` were there: each byte is at its place in one of
them, and a read has found the end only behind the end of one. -/
structure Shows (told : List (List Byte)) (file : File) : Prop where
  offset : file.offset = file.got.length
  shown : ∀ (p : ℕ) c, file.got[p]? = some c → ∃ text ∈ told, text[p]? = some c
  ended : file.ended = true → ∃ text ∈ told, text.length ≤ file.got.length

section Shows

variable {told more : List (List Byte)} {file : File} {msg text : List Byte} {length : ℕ}
  {fault : Bool}

theorem shows_opened (told : List (List Byte)) : Shows told File.opened :=
  ⟨rfl, by simp [File.opened], by simp [File.opened]⟩

theorem Shows.append (h : Shows told file) (more : List (List Byte)) :
    Shows (told ++ more) file := by
  refine ⟨h.offset, fun p c hc => ?_, fun hend => ?_⟩
  · obtain ⟨text, htext, hp⟩ := h.shown p c hc
    exact ⟨text, List.mem_append_left more htext, hp⟩
  · obtain ⟨text, htext, hle⟩ := h.ended hend
    exact ⟨text, List.mem_append_left more htext, hle⟩

/-- **Step.**  A read adds bytes of the text that is there. -/
theorem Shows.read (h : Shows told file) (hmsg : msg ∈ told) (length : ℕ) (fault : Bool) :
    Shows told (deviceRead msg file length fault) := by
  have hoffset := h.offset
  by_cases hend : msg.length ≤ file.offset
  · rw [deviceRead, if_pos hend]
    exact ⟨hoffset, h.shown, fun _ => ⟨msg, hmsg, hoffset ▸ hend⟩⟩
  · cases fault with
    | true =>
        rw [deviceRead, if_neg hend, if_pos rfl]
        exact h
    | false =>
        rw [deviceRead, if_neg hend, if_neg Bool.false_ne_true]
        refine ⟨?_, fun p c hc => ?_, fun hended => ?_⟩
        · simp [hoffset]
        · by_cases hp : p < file.got.length
          · rw [List.getElem?_append_left hp] at hc
            exact h.shown p c hc
          · rw [List.getElem?_append_right (by omega)] at hc
            rw [List.getElem?_take] at hc
            split at hc
            · rw [List.getElem?_drop, hoffset, Nat.add_sub_cancel' (by omega)] at hc
              exact ⟨msg, hmsg, hc⟩
            · cases hc
        · obtain ⟨text, htext, hle⟩ := h.ended hended
          exact ⟨text, htext, hle.trans (by simp)⟩

/-- A file that has seen one text only has read a part of it from its start, and all of it if a read
has found the end. -/
theorem Shows.prefix_of_forall (h : Shows told file) (hone : ∀ t ∈ told, t = text) :
    file.got = text.take file.got.length ∧ (file.ended = true → file.got = text) := by
  have hcell : ∀ (p : ℕ) c, file.got[p]? = some c → text[p]? = some c := by
    intro p c hc
    obtain ⟨t, ht, hp⟩ := h.shown p c hc
    exact hone t ht ▸ hp
  have hstart : file.got = text.take file.got.length := by
    apply List.ext_getElem?
    intro p
    rw [List.getElem?_take]
    split
    · rename_i hp
      rw [List.getElem?_eq_getElem hp, hcell p _ (List.getElem?_eq_getElem hp)]
    · rename_i hp
      exact List.getElem?_eq_none (by omega)
  refine ⟨hstart, fun hend => ?_⟩
  obtain ⟨t, ht, hle⟩ := h.ended hend
  rw [hstart, List.take_of_length_le (hone t ht ▸ hle)]

end Shows

section Runs

variable {s t : State φ} {f : φ} {file : File} {act : Act φ} {acts acts₁ acts₂ : List (Act φ)}
  {told : List (List Byte)} {attempts : Fin 5 → ℕ → Bool} {sensorData : List Byte}

/-- An open whose data are accepted. -/
theorem sessionStep_open (hfile : s.files f = none) (hfirst : firstAccepted attempts = some sensorData) :
    sessionStep s (.deviceOpen f attempts) =
      some ⟨⟨textOf sensorData, some true⟩, Function.update s.files f (some File.opened)⟩ := by
  simp only [sessionStep, hfile, (deviceOpen_eq attempts s.driver).1 _ hfirst]

/-- An open that gives up changes nothing but the pin. -/
theorem sessionStep_giveUp (hfile : s.files f = none) (hfirst : firstAccepted attempts = none) :
    sessionStep s (.deviceOpen f attempts) = some ⟨{ s.driver with drive := some true }, s.files⟩ := by
  obtain ⟨ret, hret⟩ := (deviceOpen_eq attempts s.driver).2 hfirst
  simp only [sessionStep, hfile, hret]

/-- Only a file that is not open is opened. -/
theorem files_eq_none_of_open (h : sessionStep s (.deviceOpen f attempts) = some t) :
    s.files f = none := by
  simp only [sessionStep] at h
  split at h
  · cases h
  · assumption

/-- A step that is not the release of `f` keeps the file and what it can have read. -/
theorem shows_step (hmsg : s.driver.msg ∈ told) (hfile : s.files f = some file)
    (hshows : Shows told file) (hkeep : act ≠ .deviceRelease f) (h : sessionStep s act = some t) :
    t.driver.msg ∈ told ++ texts [act] ∧
      ∃ file', t.files f = some file' ∧ Shows (told ++ texts [act]) file' := by
  cases act with
  | deviceOpen g attempts =>
      have hg := files_eq_none_of_open h
      have hgf : f ≠ g := by
        rintro rfl
        simp [hfile] at hg
      cases hfirst : firstAccepted attempts with
      | some sensorData =>
          obtain rfl := Option.some.inj ((sessionStep_open hg hfirst).symm.trans h)
          refine ⟨by simp [texts, hfirst], file, ?_, hshows.append _⟩
          simpa [Function.update_of_ne hgf] using hfile
      | none =>
          obtain rfl := Option.some.inj ((sessionStep_giveUp hg hfirst).symm.trans h)
          exact ⟨List.mem_append_left _ hmsg, file, hfile, hshows.append _⟩
  | deviceRead g length fault =>
      obtain ⟨other, hother, rfl⟩ := Option.map_eq_some_iff.mp h
      refine ⟨List.mem_append_left _ hmsg, ?_⟩
      by_cases hgf : f = g
      · subst hgf
        obtain rfl := Option.some.inj (hother.symm.trans hfile)
        exact ⟨_, Function.update_self _ _ _, (hshows.read hmsg length fault).append _⟩
      · exact ⟨file, (Function.update_of_ne hgf _ _).trans hfile, hshows.append _⟩
  | deviceRelease g =>
      obtain ⟨other, hother, rfl⟩ := Option.map_eq_some_iff.mp h
      have hgf : f ≠ g := fun hgf => hkeep (by rw [hgf])
      exact ⟨List.mem_append_left _ hmsg, file, (Function.update_of_ne hgf _ _).trans hfile,
        hshows.append _⟩

omit [DecidableEq φ] in
theorem texts_cons (act : Act φ) (acts : List (Act φ)) :
    texts (act :: acts) = texts [act] ++ texts acts := by
  rw [texts, texts, texts, ← List.filterMap_append, List.singleton_append]

/-- **Run.** -/
theorem shows_run (hmsg : s.driver.msg ∈ told) (hfile : s.files f = some file)
    (hshows : Shows told file) (hkeep : .deviceRelease f ∉ acts)
    (hrun : run sessionStep s acts = some t) :
    ∃ file', t.files f = some file' ∧ Shows (told ++ texts acts) file' := by
  induction acts generalizing s told file with
  | nil =>
      obtain rfl := Option.some.inj hrun
      exact ⟨file, hfile, hshows.append _⟩
  | cons act acts ih =>
      obtain ⟨u, hu, hrest⟩ := run_cons_eq_some.mp hrun
      have hact : act ≠ .deviceRelease f := fun h => hkeep (h ▸ List.mem_cons_self)
      obtain ⟨hmsg', file', hfile', hshows'⟩ := shows_step hmsg hfile hshows hact hu
      rw [texts_cons, ← List.append_assoc]
      exact ih hmsg' hfile' hshows' (fun h => hkeep (List.mem_cons_of_mem act h)) hrest

/-- **Files.**  An open that returns 0 has accepted the data of one of its attempts.  Whatever is
opened, read and released after it, what the file has read until it is released is at each place the
byte of its own text or of that of a later reading; and if all later readings have the same text, it
has read the beginning of this text, and all of it once a read has returned 0 at the end. -/
theorem files_show_readings (hopen : (deviceOpen attempts s.driver).2 = .ok ())
    (hrun : run sessionStep s (.deviceOpen f attempts :: acts) = some t)
    (hkeep : .deviceRelease f ∉ acts) :
    ∃ sensorData file, firstAccepted attempts = some sensorData ∧ t.files f = some file ∧
      (∀ (p : ℕ) c, file.got[p]? = some c →
        ∃ text ∈ textOf sensorData :: texts acts, text[p]? = some c) ∧
      ((∀ text ∈ texts acts, text = textOf sensorData) →
        file.got = (textOf sensorData).take file.got.length ∧
          (file.ended = true → file.got = textOf sensorData)) := by
  obtain ⟨u, hu, hrest⟩ := run_cons_eq_some.mp hrun
  cases hfirst : firstAccepted attempts with
  | none =>
      obtain ⟨ret, hret⟩ := (deviceOpen_eq attempts s.driver).2 hfirst
      simp [hret] at hopen
  | some sensorData =>
      have hu' := sessionStep_open (files_eq_none_of_open hu) hfirst
      obtain rfl := Option.some.inj (hu'.symm.trans hu)
      have hshown := shows_opened [textOf sensorData]
      obtain ⟨file, hfile, hshows⟩ :=
        shows_run List.mem_cons_self (Function.update_self _ _ _) hshown hkeep hrest
      refine ⟨sensorData, file, rfl, hfile, hshows.shown, fun hsame => ?_⟩
      exact hshows.prefix_of_forall (List.forall_mem_cons.mpr ⟨rfl, hsame⟩)

end Runs

theorem accepted_readingLine : accepted readingLine = some reading := by
  have hsends : Sends readingLine startSequence reading 20 80 80 50
      (regular (reading.flatMap byteBits)) :=
    ⟨by decide, by decide, by decide, encodes_regular _, follows_levelAt _ _⟩
  have hsum : reading.getD 4 0 = checksum reading := by decide
  rw [accepted, readSensor_eq hsends]
  exact Option.filter_eq_some_iff.mpr ⟨rfl, decide_eq_true hsum⟩

/-- Another file is opened while file 0 is being read, and its reading is the same. -/
def readTwice : List (Act (Fin 2)) :=
  [.deviceRead 0 5 false, .deviceOpen 1 fun _ => readingLine, .deviceRead 0 4096 false,
    .deviceRead 0 1 false]

theorem files_show_readings_readTwice :
    ∃ (t : State (Fin 2)) (file : File),
      run sessionStep State.init ((.deviceOpen 0 fun _ => readingLine) :: readTwice) = some t ∧
        t.files 0 = some file ∧ file.got = message 45 23 := by
  have hfirst : firstAccepted (fun _ => readingLine) = some reading := by
    simp [firstAccepted, accepted_readingLine]
  have hopen (d : Driver) := (deviceOpen_eq (fun _ => readingLine) d).1 _ hfirst
  have hlength : (textOf reading).length = 36 := by decide
  obtain ⟨t, hrun, hended⟩ : ∃ t : State (Fin 2),
      run sessionStep State.init ((.deviceOpen 0 fun _ => readingLine) :: readTwice) = some t ∧
        ∀ file, t.files 0 = some file → file.ended = true := by
    refine ⟨_, run_cons_eq_some.mpr ⟨_, sessionStep_open rfl hfirst, run_cons_eq_some.mpr ⟨_, rfl,
      run_cons_eq_some.mpr ⟨_, sessionStep_open rfl hfirst, run_cons_eq_some.mpr ⟨_, rfl,
        run_cons_eq_some.mpr ⟨_, rfl, rfl⟩⟩⟩⟩⟩, ?_⟩
    simp [deviceRead, File.opened, hlength]
  obtain ⟨sensorData, file, hdata, hfile, -, hsame⟩ :=
    files_show_readings (by rw [hopen]) hrun (by simp [readTwice])
  obtain rfl := Option.some.inj (hdata.symm.trans hfirst)
  have htexts : texts readTwice = [textOf reading] := by simp [readTwice, texts, hfirst]
  exact ⟨t, file, hrun, hfile, (hsame (by simp [htexts])).2 (hended file hfile)⟩

end Lkmpg.Dht11
