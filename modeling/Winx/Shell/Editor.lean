import Winx.Lib.Words

/-! # Opening and saving a file in the editor

The editor reads a file byte by byte into a buffer and keeps a copy of every line, with a newline
at its end. To save it deletes the file, creates it again and writes the lines. What it
loads of a file within its limits is the file, but for a newline at the end.
-/

namespace Winx

namespace Editor

/-- `MAX_LINES` -/
def maxLines : ℕ := 100

/-- `MAX_LENGTH` -/
def maxLength : ℕ := 256

/-- `'\n'` -/
def newline : UInt8 := 0x0a

/-- The string in a buffer. -/
def cString (buffer : List UInt8) : List UInt8 := buffer.takeWhile (· ≠ 0)

/-- The copy `p` of the string in `buffer`, which ends with a newline. -/
def copyLine (buffer : List UInt8) : List UInt8 :=
  let str := cString buffer
  if str = [] ∨ str.getLast? ≠ some newline then str ++ [newline] else str

/-- The loop of `openFile`: what is in the buffer, `pos` bytes, and the lines so far. -/
def loadLoop : List UInt8 → List UInt8 → List (List UInt8) → List UInt8 × List (List UInt8)
  | [], buffer, lines => (buffer, lines)
  | c :: rest, buffer, lines =>
    if lines.length < maxLines then
      if c = newline ∨ buffer.length = maxLength - 2 then
        loadLoop rest [] (lines ++ [copyLine (if c = newline then buffer else buffer ++ [c])])
      else loadLoop rest (buffer ++ [c]) lines
    else (buffer, lines)

/-- The lines that `openFile` loads of a file. -/
def loadLines (content : List UInt8) : List (List UInt8) :=
  let loaded := loadLoop content [] []
  if 0 < loaded.1.length ∧ loaded.2.length < maxLines then loaded.2 ++ [copyLine loaded.1] else loaded.2

/-- The editor, and the file at the path of `filename`. -/
structure Session where
  lines : List (List UInt8)
  filename : List UInt8
  file : Option (List UInt8)

/-- Which calls on the file succeed: `open`, `unlink`, and `open` with `O_CREAT` where there is no
file. -/
structure Calls where
  openOk : Bool
  unlinkOk : Bool
  createOk : Bool

/-- `openFile`, and whether it reports an error. -/
def openFile (calls : Calls) (name : List UInt8) (s : Session) : Session × Bool :=
  match s.file with
  | none => ({ s with filename := name }, true)
  | some content =>
    if calls.openOk then (⟨loadLines content, name, some content⟩, false)
    else ({ s with filename := name }, true)

/-- `saveFile`, and whether it reports an error. A file that is there is not created. -/
def saveFile (calls : Calls) (s : Session) : Session × Bool :=
  if s.filename = [] then (s, true)
  else
    let file := if calls.unlinkOk then none else s.file
    if file = none ∧ calls.createOk then
      ({ s with file := some (s.lines.foldl (fun written line => written ++ cString line) []) }, false)
    else ({ s with file := file }, true)

/-- Open and then Save. -/
def openSave (calls : Calls) (name : List UInt8) (s : Session) : Session × Bool :=
  saveFile calls (openFile calls name s).1

/-- The lines of a file. What follows the last newline is a line if there is anything. -/
def fileLines (content : List UInt8) : List (List UInt8) :=
  let pieces := content.splitOnP (· == newline)
  if pieces.getLast? = some [] then pieces.dropLast else pieces

/-- A file with a newline at its end. -/
def ended (content : List UInt8) : List UInt8 :=
  if content = [] ∨ content.getLast? = some newline then content else content ++ [newline]

variable {content rest buffer line : List UInt8} {lines : List (List UInt8)} {c : UInt8}

/-! ## Loading -/

/-- The buffer and the vector of lines are not overrun. -/
theorem loadLoop_fits (hbuffer : buffer.length ≤ maxLength - 2) (hlines : lines.length ≤ maxLines) :
    (loadLoop content buffer lines).1.length ≤ maxLength - 2 ∧ (loadLoop content buffer lines).2.length ≤ maxLines := by
  induction content generalizing buffer lines with
  | nil => exact ⟨hbuffer, hlines⟩
  | cons c rest ih =>
    rw [loadLoop]
    split
    · rename_i hlt
      split
      · apply ih (Nat.zero_le _)
        rw [List.length_append]
        exact hlt
      · rename_i hmore
        apply ih _ hlines
        rw [List.length_append, List.length_singleton]
        have hne : buffer.length ≠ maxLength - 2 := fun heq => hmore (.inr heq)
        omega
    · exact ⟨hbuffer, hlines⟩

theorem cString_eq (h0 : 0 ∉ buffer) : cString buffer = buffer := by
  apply List.takeWhile_eq_self_iff.mpr
  intro c hc
  exact decide_eq_true fun heq => h0 (heq ▸ hc)

theorem copyLine_eq (h0 : 0 ∉ buffer) (hnl : newline ∉ buffer) : copyLine buffer = buffer ++ [newline] := by
  rw [copyLine, cString_eq h0]
  apply if_pos
  by_cases hnil : buffer = []
  · exact .inl hnil
  · exact .inr fun hlast => hnl (List.mem_of_getLast? hlast)

/-- A line goes into the buffer. -/
theorem loadLoop_append (hnl : newline ∉ line) (hlen : buffer.length + line.length ≤ maxLength - 2)
    (hlines : lines.length < maxLines) :
    loadLoop (line ++ rest) buffer lines = loadLoop rest (buffer ++ line) lines := by
  induction line generalizing buffer with
  | nil => rw [List.nil_append, List.append_nil]
  | cons c line ih =>
    rw [List.length_cons] at hlen
    have hne : ¬ (c = newline ∨ buffer.length = maxLength - 2) := by
      rintro (heq | heq)
      · exact List.ne_of_not_mem_cons hnl heq.symm
      · omega
    rw [List.cons_append, loadLoop, if_pos hlines, if_neg hne, ih (List.not_mem_of_not_mem_cons hnl),
      List.append_assoc, List.singleton_append]
    rw [List.length_append, List.length_singleton]
    omega

/-- A line with its newline becomes a line of the editor. -/
theorem loadLoop_line (h0 : 0 ∉ line) (hnl : newline ∉ line) (hlen : line.length ≤ maxLength - 2)
    (hlines : lines.length < maxLines) :
    loadLoop (line ++ newline :: rest) [] lines = loadLoop rest [] (lines ++ [line ++ [newline]]) := by
  have hroom : ([] : List UInt8).length + line.length ≤ maxLength - 2 := by
    rw [List.length_nil, Nat.zero_add]
    exact hlen
  rw [loadLoop_append hnl hroom hlines, List.nil_append, loadLoop, if_pos hlines, if_pos (.inl rfl), if_pos rfl,
    copyLine_eq h0 hnl]

theorem fileLines_last (hnl : newline ∉ content) : fileLines content = if content = [] then [] else [content] := by
  have hsplit : content.splitOnP (· == newline) = [content] := by
    rcases Words.splitOnP_cases newline content with ⟨-, hsplit⟩ | ⟨piece, rest, rfl, -⟩
    · exact hsplit
    · exact absurd (List.mem_append_right _ List.mem_cons_self) hnl
  rw [fileLines, hsplit]
  by_cases hnil : content = []
  · rw [if_pos hnil, hnil]
    rfl
  · rw [if_neg hnil]
    exact if_neg fun heq => hnil (Option.some.inj heq)

theorem fileLines_cons (hsplit : (line ++ newline :: rest).splitOnP (· == newline) =
    line :: rest.splitOnP (· == newline)) : fileLines (line ++ newline :: rest) = line :: fileLines rest := by
  have hne : rest.splitOnP (· == newline) ≠ [] := List.splitOnP_ne_nil _ _
  rw [fileLines, fileLines, hsplit]
  generalize rest.splitOnP (· == newline) = pieces at hne
  obtain ⟨next, pieces, rfl⟩ := List.exists_cons_of_ne_nil hne
  rw [List.getLast?_cons_cons]
  split
  · rfl
  · rfl

/-- A file without lines, or a line with its newline and a file. -/
theorem content_induction {P : List UInt8 → Prop} (hlast : ∀ tail, newline ∉ tail → P tail)
    (hline : ∀ line rest, newline ∉ line → fileLines (line ++ newline :: rest) = line :: fileLines rest → P rest →
      P (line ++ newline :: rest)) (content : List UInt8) : P content := by
  induction h : content.length using Nat.strong_induction_on generalizing content with
  | _ n ih =>
    subst h
    rcases Words.splitOnP_cases newline content with ⟨hnl, -⟩ | ⟨line, rest, rfl, hnl, hsplit⟩
    · exact hlast content hnl
    · apply hline line rest hnl (fileLines_cons hsplit)
      apply ih rest.length _ rest rfl
      rw [List.length_append, List.length_cons]
      omega

/-- What is in the buffer behind the last newline is a line of its own. -/
def finish (loaded : List UInt8 × List (List UInt8)) : List (List UInt8) :=
  if 0 < loaded.1.length ∧ loaded.2.length < maxLines then loaded.2 ++ [copyLine loaded.1] else loaded.2

/-- The editor loads the lines of a file within its limits, each with a newline. -/
theorem finish_loadLoop (h0 : 0 ∉ content) (hlen : ∀ l ∈ fileLines content, l.length ≤ maxLength - 2)
    (hcount : lines.length + (fileLines content).length ≤ maxLines) :
    finish (loadLoop content [] lines) = lines ++ (fileLines content).map (· ++ [newline]) := by
  induction content using content_induction generalizing lines with
  | hlast tail hnl =>
    rw [fileLines_last hnl] at hlen hcount ⊢
    by_cases hnil : tail = []
    · subst hnil
      rw [if_pos rfl, List.map_nil, List.append_nil]
      rfl
    · rw [if_neg hnil] at hlen hcount ⊢
      rw [List.length_singleton] at hcount
      have hroom : ([] : List UInt8).length + tail.length ≤ maxLength - 2 := by
        rw [List.length_nil, Nat.zero_add]
        exact hlen tail List.mem_cons_self
      have hload : loadLoop (tail ++ []) [] lines = loadLoop [] ([] ++ tail) lines := loadLoop_append hnl hroom hcount
      rw [List.append_nil, List.nil_append] at hload
      rw [hload, loadLoop, finish, if_pos ⟨List.length_pos_iff.mpr hnil, hcount⟩, copyLine_eq h0 hnl]
      rfl
  | hline line rest hnl hlines ih =>
    rw [hlines, List.length_cons] at hcount
    rw [hlines] at hlen ⊢
    obtain ⟨hline, hlen⟩ := List.forall_mem_cons.mp hlen
    rw [List.mem_append, List.mem_cons, not_or, not_or] at h0
    rw [loadLoop_line h0.1 hnl hline (by omega), ih h0.2.2 hlen, List.map_cons, List.append_assoc,
      List.singleton_append]
    rw [List.length_append, List.length_singleton]
    omega

theorem loadLines_eq (h0 : 0 ∉ content) (hlen : ∀ l ∈ fileLines content, l.length ≤ maxLength - 2)
    (hcount : (fileLines content).length ≤ maxLines) :
    loadLines content = (fileLines content).map (· ++ [newline]) := by
  have hcount : ([] : List (List UInt8)).length + (fileLines content).length ≤ maxLines := by
    rwa [List.length_nil, Nat.zero_add]
  exact finish_loadLoop h0 hlen hcount

/-! ## Saving -/

/-- The lines with their newlines are the file, with a newline at its end. -/
theorem flatMap_fileLines (content : List UInt8) : (fileLines content).flatMap (· ++ [newline]) = ended content := by
  induction content using content_induction with
  | hlast tail hnl =>
    rw [fileLines_last hnl, ended]
    by_cases hnil : tail = []
    · rw [if_pos hnil, if_pos (.inl hnil), hnil]
      rfl
    · have hlast : tail.getLast? ≠ some newline := fun heq => hnl (List.mem_of_getLast? heq)
      rw [if_neg hnil, if_neg (not_or.mpr ⟨hnil, hlast⟩), List.flatMap_singleton]
  | hline line rest hnl hlines ih =>
    have hended : ended (line ++ newline :: rest) = line ++ newline :: ended rest := by
      unfold ended
      by_cases hnil : rest = []
      · subst hnil
        rw [if_pos (.inr List.getLast?_concat), if_pos (.inl rfl)]
      · have hlast : (line ++ newline :: rest).getLast? = rest.getLast? := by
          obtain ⟨c, rest, rfl⟩ := List.exists_cons_of_ne_nil hnil
          rw [List.getLast?_append, List.getLast?_cons_cons, List.getLast?_cons]
          rfl
        have hne : line ++ newline :: rest ≠ [] := List.append_ne_nil_of_right_ne_nil _ (List.cons_ne_nil _ _)
        rw [hlast]
        by_cases hend : rest.getLast? = some newline
        · rw [if_pos (.inr hend), if_pos (.inr hend)]
        · rw [if_neg (not_or.mpr ⟨hne, hend⟩), if_neg (not_or.mpr ⟨hnil, hend⟩), List.append_assoc, List.cons_append]
    rw [hlines, List.flatMap_cons, ih, hended, List.append_assoc, List.singleton_append]

/-- Lines without zeros are written as they are. -/
theorem foldl_write {written : List UInt8} (h0 : ∀ l ∈ lines, 0 ∉ l) :
    lines.foldl (fun written line => written ++ cString line) written = written ++ lines.flatten := by
  induction lines generalizing written with
  | nil => rw [List.foldl_nil, List.flatten_nil, List.append_nil]
  | cons l lines ih =>
    obtain ⟨hl, h0⟩ := List.forall_mem_cons.mp h0
    rw [List.foldl_cons, ih h0, cString_eq hl, List.flatten_cons, List.append_assoc]

theorem zero_not_mem_ended (h0 : 0 ∉ content) : 0 ∉ ended content := by
  unfold ended
  split
  · exact h0
  · rw [List.mem_append, not_or]
    exact ⟨h0, by decide⟩

/-- Opening a file leaves it alone. -/
theorem openFile_keeps (calls : Calls) (name : List UInt8) (s : Session) :
    (openFile calls name s).1.file = s.file ∧ (openFile calls name s).1.filename = name := by
  unfold openFile
  cases s.file with
  | none => exact ⟨rfl, rfl⟩
  | some content =>
    dsimp only
    split
    · exact ⟨rfl, rfl⟩
    · exact ⟨rfl, rfl⟩

/-- Open and then Save leaves a file of at most 100 lines of at most 254 characters as it is, but for a newline
at its end, if the calls succeed. A file that cannot be deleted is left as it is, with an error. -/
theorem openSave_file {s : Session} {name : List UInt8} (calls : Calls) (hname : name ≠ [])
    (hfile : s.file = some content) (h0 : 0 ∉ content) (hlen : ∀ l ∈ fileLines content, l.length ≤ 254)
    (hcount : (fileLines content).length ≤ 100) :
    (calls.openOk = true → calls.unlinkOk = true → calls.createOk = true →
      (openSave calls name s).1.file = some (ended content)) ∧
    (calls.unlinkOk = false → (openSave calls name s).1.file = some content ∧ (openSave calls name s).2 = true) := by
  constructor
  · intro hopen hunlink hcreate
    have hopened : (openFile calls name s).1 = ⟨loadLines content, name, some content⟩ := by
      rw [openFile, hfile]
      dsimp only
      rw [if_pos hopen]
    have hzero : ∀ l ∈ (fileLines content).map (· ++ [newline]), 0 ∉ l := by
      intro l hl hmem
      apply zero_not_mem_ended h0
      rw [← flatMap_fileLines, List.flatMap_def]
      exact List.mem_flatten_of_mem hl hmem
    rw [openSave, hopened, saveFile, if_neg hname, if_pos hunlink, if_pos ⟨rfl, hcreate⟩]
    dsimp only
    rw [loadLines_eq h0 hlen hcount, foldl_write hzero, List.nil_append, ← flatMap_fileLines, List.flatMap_def]
  · intro hunlink
    obtain ⟨hsame, hnamed⟩ := openFile_keeps calls name s
    have hkeep : ¬ (calls.unlinkOk = true) := by
      rw [hunlink]
      exact Bool.false_ne_true
    have hthere : ¬ ((openFile calls name s).1.file = none ∧ calls.createOk = true) := by
      rw [hsame, hfile]
      exact fun hnone => Option.some_ne_none content hnone.1
    rw [openSave, saveFile, hnamed, if_neg hname, if_neg hkeep, if_neg hthere]
    exact ⟨hsame.trans hfile, rfl⟩

/-- A file of two lines. -/
theorem openSave_file_ab : (openSave ⟨true, true, true⟩ [0x66] ⟨[], [], some [0x61, 0x0a, 0x62, 0x0a]⟩).1.file =
      some (ended [0x61, 0x0a, 0x62, 0x0a]) ∧
    ended [0x61, 0x0a, 0x62, 0x0a] = [0x61, 0x0a, 0x62, 0x0a] :=
  ⟨(openSave_file ⟨true, true, true⟩ (by decide) rfl (by decide) (by decide) (by decide)).1 rfl rfl rfl, by decide⟩

/-- A file does not stay the same without a newline at its end, with a line of 255 characters or with 101 lines,
and no error is reported. It is gone if it cannot be created again, and emptied if it could not be opened. -/
theorem openSave_changes :
    openSave ⟨true, true, true⟩ [0x66] ⟨[], [], some [0x61]⟩ =
      (⟨[[0x61, 0x0a]], [0x66], some [0x61, 0x0a]⟩, false) ∧
    (openSave ⟨true, true, true⟩ [0x66] ⟨[], [], some (List.replicate 255 0x61 ++ [0x0a])⟩).1.file =
      some (List.replicate 255 0x61 ++ [0x0a, 0x0a]) ∧
    (openSave ⟨true, true, true⟩ [0x66] ⟨[], [], some (List.replicate 101 0x0a)⟩).1.file =
      some (List.replicate 100 0x0a) ∧
    (openSave ⟨true, true, false⟩ [0x66] ⟨[], [], some [0x61, 0x0a]⟩).1.file = none ∧
    (openSave ⟨false, true, true⟩ [0x66] ⟨[], [], some [0x61, 0x0a]⟩).1.file = some [] := by
  refine ⟨rfl, ?_, ?_, rfl, rfl⟩
  · decide +kernel
  · decide +kernel

end Editor
end Winx
