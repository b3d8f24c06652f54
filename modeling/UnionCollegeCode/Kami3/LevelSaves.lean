import UnionCollegeCode.Kami3.LevelFolder
import UnionCollegeCode.Kami3.SolverOptimal

/-!
# What a save does to the folder

A save that opens its file either gets all of its text into it, or fails: in a builder's hints, which
deletes the file, or elsewhere, which leaves it with what has reached it. So the folder is in order only
if the name was free and the text gets through or the file is deleted again, or if it happens to have
what the file had.
-/

set_option autoImplicit false

namespace UnionCollegeCode.Kami3

open Lib.EState Lib.JavaCollections Lib.Scanner ColoredGraph

section Written

/-! ## What is in the file -/

/-- Every line is computed, and every call of `write` goes through, the first of them this one. -/
def through (disk : Disk) : List Line → ℕ → Bool
  | [], _ => true
  | .error _ :: _, _ => false
  | .ok _ :: lines, n => disk.writes n && through disk lines (n + 1)

/-- What was given to the writer in how many calls, and what is in the file. -/
structure Written where
  text : List Char
  calls : ℕ
  content : List Char

def Written.push (disk : Disk) (line : List Char) (w : Written) : Written :=
  ⟨w.text ++ line, w.calls + 1, (w.text ++ line).take (disk.reached w.calls)⟩

/-- Up to the first line that does not get through. -/
def Written.after (disk : Disk) : List Line → Written → Written
  | [], w => w
  | .error _ :: _, w => w
  | .ok line :: lines, w =>
    if disk.writes w.calls then after disk lines (w.push disk line) else w.push disk line

/-- A save of a folder in which only the one file is written. -/
def Written.saving (m : LevelFolder) (name : FileName) (w : Written) : Saving :=
  ⟨some (m.put name (.file w.content)), w.text, w.calls⟩

variable {disk : Disk} {name : FileName} {m : LevelFolder} {lines lines' : List Line} {w : Written}

theorem through_append {n : ℕ} :
    through disk (lines ++ lines') n =
      (through disk lines n && through disk lines' (n + lines.length)) := by
  induction lines generalizing n with
  | nil => simp [through]
  | cons line lines ih =>
    cases line with
    | error e => rfl
    | ok line =>
      rw [List.cons_append, through, through, ih, Bool.and_assoc, List.length_cons, Nat.add_assoc,
        Nat.add_comm 1]

theorem Written.after_append (h : through disk lines w.calls = true) :
    after disk (lines ++ lines') w = after disk lines' (after disk lines w) := by
  induction lines generalizing w with
  | nil => rfl
  | cons line lines ih =>
    cases line with
    | error e => cases h
    | ok line =>
      obtain ⟨hwrites, h⟩ := Bool.and_eq_true_iff.mp h
      simp only [List.cons_append, after, hwrites, if_true]
      exact ih (w := w.push disk line) h

theorem Written.after_append_error (h : through disk lines w.calls = false) :
    after disk (lines ++ lines') w = after disk lines w := by
  induction lines generalizing w with
  | nil => cases h
  | cons line lines ih =>
    cases line with
    | error e => rfl
    | ok line =>
      simp only [List.cons_append, after]
      by_cases hwrites : disk.writes w.calls = true
      · rw [through, hwrites, Bool.true_and] at h
        rw [if_pos hwrites, if_pos hwrites]
        exact ih (w := w.push disk line) h
      · rw [if_neg hwrites, if_neg hwrites]

theorem Written.calls_after (h : through disk lines w.calls = true) :
    (after disk lines w).calls = w.calls + lines.length := by
  induction lines generalizing w with
  | nil => rfl
  | cons line lines ih =>
    cases line with
    | error e => cases h
    | ok line =>
      obtain ⟨hwrites, h⟩ := Bool.and_eq_true_iff.mp h
      simp only [after, hwrites, if_true]
      rw [ih (w := w.push disk line) h, List.length_cons]
      simp only [push]
      omega

/-- Lines that all get through are the text. -/
theorem Written.text_after (h : through disk lines w.calls = true) : ∃ texts : List (List Char),
    lines = texts.map .ok ∧ (after disk lines w).text = w.text ++ texts.flatten := by
  induction lines generalizing w with
  | nil => exact ⟨[], rfl, by simp [after]⟩
  | cons line lines ih =>
    cases line with
    | error e => cases h
    | ok line =>
      obtain ⟨hwrites, h⟩ := Bool.and_eq_true_iff.mp h
      simp only [after, hwrites, if_true]
      obtain ⟨texts, rfl, htext⟩ := ih (w := w.push disk line) h
      exact ⟨line :: texts, rfl, by rw [htext, push, List.flatten_cons, List.append_assoc]⟩

theorem write_saving (disk : Disk) (m : LevelFolder) (name : FileName) (w : Written)
    (line : List Char) : write disk name line (w.saving m name) =
    if disk.writes w.calls then .ok () ((w.push disk line).saving m name)
    else .error .io ((w.push disk line).saving m name) := by
  simp only [write, Written.saving, Written.push, Saving.setFile, Option.map_some, HashMap.put_put]

theorem writeLines_ok (h : through disk lines w.calls = true) :
    writeLines disk name lines (w.saving m name) = .ok () ((w.after disk lines).saving m name) := by
  induction lines generalizing w with
  | nil => rfl
  | cons line lines ih =>
    cases line with
    | error e => cases h
    | ok line =>
      obtain ⟨hwrites, h⟩ := Bool.and_eq_true_iff.mp h
      simp only [Written.after, hwrites, if_true]
      have hwrite := write_saving disk m name w line
      rw [if_pos hwrites] at hwrite
      exact (bind_ok hwrite).trans (ih (w := w.push disk line) h)

theorem writeLines_error (m : LevelFolder) (name : FileName) (h : through disk lines w.calls = false) :
    ∃ e, writeLines disk name lines (w.saving m name) =
      .error e ((w.after disk lines).saving m name) := by
  induction lines generalizing w with
  | nil => cases h
  | cons line lines ih =>
    cases line with
    | error e => exact ⟨_, rfl⟩
    | ok line =>
      have hwrite := write_saving disk m name w line
      by_cases hwrites : disk.writes w.calls = true
      · simp only [Written.after, hwrites, if_true]
        rw [through, hwrites, Bool.true_and] at h
        rw [if_pos hwrites] at hwrite
        obtain ⟨e, he⟩ := ih (w := w.push disk line) h
        exact ⟨e, (bind_ok hwrite).trans he⟩
      · rw [Written.after, if_neg hwrites]
        rw [if_neg hwrites] at hwrite
        exact ⟨.io, bind_error hwrite⟩

/-- What is in the file after a `close` that fails. -/
def Written.unclosed (disk : Disk) (w : Written) : List Char := w.text.take (disk.reached w.calls)

theorem closeFile_ok (h : disk.closes = true) : closeFile disk name (w.saving m name) =
    .ok () (Written.saving m name { w with content := w.text }) := by
  simp only [closeFile, Written.saving, Saving.setFile, h, if_true, Option.map_some, HashMap.put_put]

theorem closeFile_error (h : disk.closes = false) : closeFile disk name (w.saving m name) =
    .error .io (Written.saving m name { w with content := w.unclosed disk }) := by
  simp [closeFile, Written.saving, Saving.setFile, h, HashMap.put_put, Written.unclosed]

end Written

/-! ## How a call ends -/

namespace SaveCall

variable (fmt : TextFormat) (repo : ColorRepository) (disk : Disk)

def lines (c : SaveCall) : List Line := c.grid fmt repo ++ c.hints fmt

/-- All of the text gets into the file. -/
def completes (c : SaveCall) : Bool := through disk (c.lines fmt repo) 0 && disk.closes

/-- A builder's hints fail, and its file is closed and deleted. -/
def cleansUp (c : SaveCall) : Bool :=
  match c with
  | .builder _ _ =>
    through disk (c.grid fmt repo) 0 && !through disk (c.lines fmt repo) 0 && disk.closes &&
      disk.deletes
  | .hint _ => false

/-- Whether the call gets to `close`. -/
def triesClose (c : SaveCall) : Bool :=
  match c with
  | .builder _ _ => through disk (c.grid fmt repo) 0
  | .hint _ => through disk (c.lines fmt repo) 0

/-- What the call writes, up to the first line that does not get through. -/
def written (c : SaveCall) : Written := .after disk (c.lines fmt repo) ⟨[], 0, []⟩

/-- What is in the file after a call that fails, if it is not deleted. -/
def left (c : SaveCall) : List Char :=
  if c.triesClose fmt repo disk then
    if disk.closes then (c.written fmt repo disk).text else (c.written fmt repo disk).unclosed disk
  else (c.written fmt repo disk).content

variable {fmt repo disk} {c : SaveCall} {m : LevelFolder} {name : FileName}

/-- Opened, and nothing written yet. -/
def opened (m : LevelFolder) (name : FileName) : Saving := Written.saving m name ⟨[], 0, []⟩

/-- Grid and hints have got through. -/
theorem lines_ok (m : LevelFolder) (name : FileName) (h : through disk (c.lines fmt repo) 0 = true) :
    ∃ w : Written, writeLines disk name (c.grid fmt repo) (opened m name) = .ok () (w.saving m name) ∧
      writeLines disk name (c.hints fmt) (w.saving m name) =
        .ok () ((c.written fmt repo disk).saving m name) := by
  rw [lines, through_append, Bool.and_eq_true_iff] at h
  obtain ⟨hgrid, hhints⟩ := h
  refine ⟨_, writeLines_ok (w := ⟨[], 0, []⟩) hgrid, ?_⟩
  rw [written, lines, Written.after_append (w := ⟨[], 0, []⟩) hgrid]
  refine writeLines_ok ?_
  rw [Written.calls_after (w := ⟨[], 0, []⟩) hgrid]
  exact hhints

/-- The grid has got through, but not all of the hints. -/
theorem hints_error (m : LevelFolder) (name : FileName) (hgrid : through disk (c.grid fmt repo) 0 = true)
    (h : through disk (c.lines fmt repo) 0 = false) :
    ∃ w : Written, writeLines disk name (c.grid fmt repo) (opened m name) = .ok () (w.saving m name) ∧
      ∃ e, writeLines disk name (c.hints fmt) (w.saving m name) =
        .error e ((c.written fmt repo disk).saving m name) := by
  rw [lines, through_append, hgrid, Bool.true_and] at h
  refine ⟨_, writeLines_ok (w := ⟨[], 0, []⟩) hgrid, ?_⟩
  rw [written, lines, Written.after_append (w := ⟨[], 0, []⟩) hgrid]
  refine writeLines_error m name ?_
  rw [Written.calls_after (w := ⟨[], 0, []⟩) hgrid]
  exact h

theorem grid_error (m : LevelFolder) (name : FileName) (hgrid : through disk (c.grid fmt repo) 0 = false) :
    ∃ e, writeLines disk name (c.grid fmt repo) (opened m name) =
      .error e ((c.written fmt repo disk).saving m name) := by
  obtain ⟨e, he⟩ := writeLines_error m name (w := ⟨[], 0, []⟩) hgrid
  refine ⟨e, ?_⟩
  rw [written, lines, Written.after_append_error (w := ⟨[], 0, []⟩) hgrid]
  exact he

theorem triesClose_of_lines (h : through disk (c.lines fmt repo) 0 = true) :
    c.triesClose fmt repo disk = true := by
  cases c with
  | hint level => exact h
  | builder b hints =>
    rw [lines, through_append, Bool.and_eq_true_iff] at h
    exact h.1

theorem writeFile_completes (h : c.completes fmt repo disk = true) :
    c.writeFile fmt repo disk name (opened m name) = .ok () (Written.saving m name
      { c.written fmt repo disk with content := (c.written fmt repo disk).text }) := by
  obtain ⟨hlines, hcloses⟩ := Bool.and_eq_true_iff.mp h
  obtain ⟨w, hgrid, hhints⟩ := lines_ok m name hlines
  cases c with
  | builder b hints => exact (bind_ok hgrid).trans ((bind_ok (tryCatch_ok hhints)).trans (closeFile_ok hcloses))
  | hint level => exact (bind_ok hgrid).trans ((bind_ok hhints).trans (closeFile_ok hcloses))

/-- The handler of a builder's hints. -/
theorem handler_closes (m : LevelFolder) (name : FileName) (w : Written) (e : SaveException)
    (hcloses : disk.closes = true) :
    (do closeFile disk name; deleteFile disk name; throw e : SaveM Unit) (w.saving m name) =
      if disk.deletes then
        .error e ⟨some ((m.put name (.file w.text)).remove name), w.text, w.calls⟩
      else .error e (Written.saving m name { w with content := w.text }) := by
  rw [bind_ok (closeFile_ok hcloses)]
  by_cases hdeletes : disk.deletes = true
  · rw [if_pos hdeletes]
    have hdelete : deleteFile disk name (Written.saving m name { w with content := w.text }) =
        .ok () ⟨some ((m.put name (.file w.text)).remove name), w.text, w.calls⟩ := if_pos hdeletes
    exact bind_ok hdelete
  · rw [if_neg hdeletes]
    have hdelete : deleteFile disk name (Written.saving m name { w with content := w.text }) =
        .ok () (Written.saving m name { w with content := w.text }) := if_neg hdeletes
    exact bind_ok hdelete

theorem handler_error {w : Written} {e : SaveException} (hcloses : disk.closes = false) :
    (do closeFile disk name; deleteFile disk name; throw e : SaveM Unit) (w.saving m name) =
      .error .io (Written.saving m name { w with content := w.unclosed disk }) :=
  bind_error (closeFile_error hcloses)

theorem writeFile_cleansUp (m : LevelFolder) (name : FileName) (h : c.cleansUp fmt repo disk = true) :
    ∃ e s text, c.writeFile fmt repo disk name (opened m name) = .error e s ∧
      s.folder = some ((m.put name (.file text)).remove name) := by
  cases c with
  | hint level => cases h
  | builder b hints =>
    simp only [cleansUp, Bool.and_eq_true, Bool.not_eq_true'] at h
    obtain ⟨⟨⟨hgrid, hlines⟩, hcloses⟩, hdeletes⟩ := h
    obtain ⟨w, hgrid, e, hhints⟩ := hints_error m name hgrid hlines
    have hhandler := handler_closes m name (written fmt repo disk (.builder b hints))
      (.message fmt.tookTooLong) hcloses
    rw [if_pos hdeletes] at hhandler
    exact ⟨_, _, _, (bind_ok hgrid).trans (bind_error ((tryCatch_error hhints).trans hhandler)), rfl⟩

theorem writeFile_fails (m : LevelFolder) (name : FileName) (h : c.completes fmt repo disk = false)
    (h' : c.cleansUp fmt repo disk = false) :
    ∃ e s, c.writeFile fmt repo disk name (opened m name) = .error e s ∧
      s.folder = some (m.put name (.file (c.left fmt repo disk))) := by
  cases hlines : through disk (c.lines fmt repo) 0 with
  | true =>
    -- Everything is written, so it is the last `close` that fails.
    have hcloses : disk.closes = false := by simpa [completes, hlines] using h
    have hleft : c.left fmt repo disk = (c.written fmt repo disk).unclosed disk := by
      rw [left, triesClose_of_lines hlines, if_pos rfl, hcloses]
      rfl
    obtain ⟨w, hgrid, hhints⟩ := lines_ok m name hlines
    rw [hleft]
    cases c with
    | builder b hints =>
      exact ⟨_, _, (bind_ok hgrid).trans ((bind_ok (tryCatch_ok hhints)).trans
        (closeFile_error hcloses)), rfl⟩
    | hint level =>
      exact ⟨_, _, (bind_ok hgrid).trans ((bind_ok hhints).trans (closeFile_error hcloses)), rfl⟩
  | false =>
    cases hgrid : through disk (c.grid fmt repo) 0 with
    | false =>
      obtain ⟨e, hrun⟩ := grid_error m name hgrid
      cases c with
      | builder b hints =>
        rw [left, triesClose, hgrid]
        exact ⟨_, _, bind_error hrun, rfl⟩
      | hint level =>
        rw [left, triesClose, hlines]
        exact ⟨_, _, bind_error hrun, rfl⟩
    | true =>
      obtain ⟨w, hrun, e, hhints⟩ := hints_error m name hgrid hlines
      cases c with
      | hint level =>
        rw [left, triesClose, hlines]
        exact ⟨_, _, (bind_ok hrun).trans (bind_error hhints), rfl⟩
      | builder b hints =>
        rw [left, triesClose, hgrid, if_pos rfl]
        cases hcloses : disk.closes with
        | false =>
          exact ⟨_, _, (bind_ok hrun).trans (bind_error ((tryCatch_error hhints).trans
            (handler_error hcloses))), rfl⟩
        | true =>
          have hdeletes : disk.deletes = false := by
            simpa [cleansUp, hgrid, hlines, hcloses] using h'
          have hhandler := handler_closes m name (written fmt repo disk (.builder b hints))
            (.message fmt.tookTooLong) hcloses
          rw [if_neg (Bool.eq_false_iff.mp hdeletes)] at hhandler
          exact ⟨_, _, (bind_ok hrun).trans (bind_error ((tryCatch_error hhints).trans hhandler)), rfl⟩

/-- Whether the file can be opened. -/
def Opens (disk : Disk) (m : LevelFolder) : Prop :=
  m.get (newName m) ≠ some .directory ∧ disk.opens = true

theorem saveLevel_opened (h : Opens disk m) : c.saveLevel fmt repo disk ⟨some m, [], 0⟩ =
    tryCatch (c.writeFile fmt repo disk (newName m)) (fun e => throw (c.wrap e))
      (opened m (newName m)) := by
  have hopen : openFile disk (newName m) ⟨some m, [], 0⟩ = .ok () (opened m (newName m)) := by
    refine if_neg ?_
    rw [not_or, Bool.not_eq_false]
    exact h
  have hbody : (do
      let fileName ← newFileName
      openFile disk fileName
      c.writeFile fmt repo disk fileName : SaveM Unit) ⟨some m, [], 0⟩ =
        c.writeFile fmt repo disk (newName m) (opened m (newName m)) := bind_ok hopen
  cases hrun : c.writeFile fmt repo disk (newName m) (opened m (newName m)) with
  | ok a s => rw [tryCatch_ok hrun, saveLevel, tryCatch_ok (hbody.trans hrun)]
  | error e s => rw [tryCatch_error hrun, saveLevel, tryCatch_error (hbody.trans hrun)]

/-- A file that cannot be opened is not touched. -/
theorem run_unopened (fmt : TextFormat) (repo : ColorRepository) (c : SaveCall) (h : ¬ Opens disk m) : ∃ e, c.run fmt repo disk (some m) = (.error e, some m) := by
  have hopen : openFile disk (newName m) ⟨some m, [], 0⟩ = .error .io ⟨some m, [], 0⟩ := by
    refine if_pos ?_
    rw [Opens, not_and_or, not_not, Bool.not_eq_true] at h
    exact h
  have hbody : (do
      let fileName ← newFileName
      openFile disk fileName
      c.writeFile fmt repo disk fileName : SaveM Unit) ⟨some m, [], 0⟩ = .error .io ⟨some m, [], 0⟩ := by
    have hname : newFileName ⟨some m, [], 0⟩ = .ok (newName m) ⟨some m, [], 0⟩ := rfl
    exact (bind_ok hname).trans (bind_error hopen)
  refine ⟨c.wrap .io, ?_⟩
  rw [run, saveLevel, tryCatch_error hbody]
  rfl

theorem run_missing (fmt : TextFormat) (repo : ColorRepository) (disk : Disk) (c : SaveCall) : ∃ e, c.run fmt repo disk none = (.error e, none) := by
  cases c with
  | builder b hints => exact ⟨_, rfl⟩
  | hint level => exact ⟨_, rfl⟩

theorem run_completes (hopen : Opens disk m) (h : c.completes fmt repo disk = true) :
    c.run fmt repo disk (some m) =
      (.ok (), some (m.put (newName m) (.file (c.written fmt repo disk).text))) := by
  rw [run, saveLevel_opened hopen, tryCatch_ok (writeFile_completes h)]
  rfl

theorem run_cleansUp (hopen : Opens disk m) (h : c.cleansUp fmt repo disk = true) :
    ∃ e text, c.run fmt repo disk (some m) =
      (.error e, some ((m.put (newName m) (.file text)).remove (newName m))) := by
  obtain ⟨e, s, text, hrun, hfolder⟩ := writeFile_cleansUp m (newName m) h
  refine ⟨c.wrap e, text, ?_⟩
  rw [run, saveLevel_opened hopen, tryCatch_error hrun, ← hfolder]
  rfl

theorem run_fails (hopen : Opens disk m) (h : c.completes fmt repo disk = false)
    (h' : c.cleansUp fmt repo disk = false) :
    ∃ e, c.run fmt repo disk (some m) =
      (.error e, some (m.put (newName m) (.file (c.left fmt repo disk)))) := by
  obtain ⟨e, s, hrun, hfolder⟩ := writeFile_fails m (newName m) h h'
  refine ⟨c.wrap e, ?_⟩
  rw [run, saveLevel_opened hopen, tryCatch_error hrun, ← hfolder]
  rfl

/-! ## The text of the level -/

/-- The text of a saved level. -/
def levelText (fmt : TextFormat) (repo : ColorRepository) :
    SaveCall → Except JavaException (List Char)
  | .builder _ none => .error (.runtime .nullPointer)
  | .builder b (some hints) => saveBuilder repo fmt.sep fmt.eol b hints
  | .hint level => saveHint repo fmt.sep fmt.eol level

theorem writeRows_ok {graph : ColoredGraph RectangleGridCell} {numCols : ℤ} :
    ∀ {k i : ℕ} {texts : List (List Char)},
      (List.range' i k).map (fun i : ℕ => writeRow fmt.sep fmt.eol repo graph numCols i) =
          texts.map .ok →
        writeRows fmt.sep fmt.eol repo graph numCols i k = .ok texts.flatten := by
  intro k
  induction k with
  | zero =>
    intro i texts h
    cases List.map_eq_nil_iff.mp h.symm
    rfl
  | succ k ih =>
    intro i texts h
    rw [List.range'_succ, List.map_cons] at h
    obtain ⟨row, texts, rfl, hrow, hrest⟩ := List.map_eq_cons_iff.mp h.symm
    rw [writeRows, ← hrow, ih hrest.symm]
    rfl

theorem writeLevel_of_lines {graph : ColoredGraph RectangleGridCell} {numRows numCols : ℤ}
    {hints : List (Move RectangleGridCell)} {texts : List (List Char)}
    (h : gridLines fmt repo graph numRows numCols ++ hintLines fmt (some hints) = texts.map .ok) :
    writeLevel fmt.sep fmt.eol repo graph numRows numCols hints = .ok texts.flatten := by
  obtain ⟨grid, hintTexts, rfl, hgrid, hhints⟩ := List.append_eq_map_iff.mp h
  obtain ⟨header, rows, rfl, hheader, hrows⟩ := List.map_eq_cons_iff.mp hgrid
  obtain ⟨count, moves, rfl, hcount, hmoves⟩ := List.map_eq_cons_iff.mp hhints
  cases hheader
  cases hcount
  rw [List.range_eq_range'] at hrows
  have hmoveTexts : moves = hints.map (writeMove fmt.sep fmt.eol) := by
    refine List.map_injective_iff.mpr (fun a b hab => ?_) (hmoves.trans ?_)
    · exact Except.ok.inj hab
    · rw [List.map_map]
      rfl
  rw [writeLevel, writeRows_ok hrows.symm, hmoveTexts]
  simp only [List.flatten_append, List.flatten_cons, List.flatMap, List.append_assoc]
  rfl

/-- What a save that completes has written is the level. -/
theorem levelText_of_completes (h : c.completes fmt repo disk = true) :
    c.levelText fmt repo = .ok (c.written fmt repo disk).text := by
  obtain ⟨hlines, -⟩ := Bool.and_eq_true_iff.mp h
  obtain ⟨texts, htexts, htext⟩ := Written.text_after (w := ⟨[], 0, []⟩) hlines
  rw [written, htext, List.nil_append]
  cases c with
  | hint level => exact writeLevel_of_lines htexts
  | builder b hints =>
    cases hints with
    | none =>
      rw [lines, through_append] at hlines
      simp [hints, hintLines, through] at hlines
    | some hints =>
      rw [levelText, saveBuilder, writeLevel_of_lines htexts]
      rfl

end SaveCall

/-! ## The list of levels -/

theorem parseDigits_toDigits (loc : ScanLocale) (n : ℕ) :
    parseDigits loc (Nat.toDigits 10 n) = some n := by
  have hdigits : ∀ c ∈ Nat.toDigits 10 n, c.isDigit = true := fun c hc =>
    Nat.isDigit_of_mem_toDigits (by decide) (by decide) hc
  rw [parseDigits, if_neg Nat.toDigits_ne_nil, loc.mapM_digits hdigits, Option.map_some,
    ScanLocale.value_digits, Nat.ofDigitChars_ten_toDigits]

theorem parseSigned_intToString (loc : ScanLocale) (z : ℤ) :
    parseSigned loc (intToString z) = some z := by
  have hnum := parseDigits_toDigits loc z.natAbs
  unfold intToString
  split
  case isTrue hneg =>
    rw [parseSigned, hnum, Option.map_some, Option.some.injEq]
    omega
  case isFalse hpos =>
    obtain ⟨c, cs, hcs⟩ := List.exists_cons_of_ne_nil (Nat.toDigits_ne_nil (n := z.natAbs) (b := 10))
    have hc : c.isDigit = true := Nat.isDigit_of_mem_toDigits (b := 10) (n := z.natAbs) (by decide)
      (by decide) (hcs ▸ List.mem_cons_self)
    rw [hcs] at hnum ⊢
    rw [parseSigned, hnum, Option.map_some, Option.some.injEq]
    · omega
    · intro cs' he
      rw [(List.cons.inj he).1] at hc
      cases hc
    · intro cs' he
      rw [(List.cons.inj he).1] at hc
      cases hc

theorem parseInt_intToString (loc : ScanLocale) {z : ℤ} (hz : InRange z) :
    parseInt loc (intToString z) = some z := by
  rw [parseInt, parseSigned_intToString, Option.filter_some, if_pos (decide_eq_true hz)]

theorem inRange_newNumber (m : LevelFolder) : InRange (newNumber m) := by
  unfold newNumber InRange
  have hle := Int.le_bmod (x := (m.size : ℤ) + 1) (m := 2 ^ 32) (by decide)
  have hlt := Int.bmod_lt (x := (m.size : ℤ) + 1) (m := 2 ^ 32) (by decide)
  constructor <;> omega

/-- A name is read back as its number and its type. -/
theorem levelInfo_number (loc : ScanLocale) {z : ℤ} (hz : InRange z) (levelType : List Char) :
    levelInfo loc (intToString z ++ '.' :: levelType) =
      ⟨z, levelType, intToString z ++ '.' :: levelType⟩ := by
  have hdots : ∀ c ∈ intToString z, decide (c ≠ '.') = true := by
    intro c hc
    rw [decide_eq_true_iff]
    rintro rfl
    rcases isDigit_intToString hc with hdot | hdot
    · exact absurd hdot (by decide)
    · exact absurd hdot (by decide)
  have hspan : (intToString z ++ '.' :: levelType).span (fun c => decide (c ≠ '.')) =
      (intToString z, '.' :: levelType) := span_append _ hdots fun c hc => by cases hc; rfl
  rw [levelInfo, hspan]
  simp only [parseInt_intToString loc hz, Option.getD_some]

theorem mem_listLevelInfos {loc : ScanLocale} {m : LevelFolder} {name : FileName} (h : name ∈ m) :
    levelInfo loc name ∈ listLevelInfos loc m :=
  List.mem_mergeSort.mpr (List.mem_map_of_mem h)

/-! ## When the folder is in order -/

/-- One file more, which has the text and is listed; every other file is as it was. -/
def Saved (loc : ScanLocale) (text : List Char) (m m' : LevelFolder) : Prop :=
  ∃ name n, name ∉ m ∧ m'.size = m.size + 1 ∧ m'.get name = some (.file text) ∧
    ⟨n, rectangleGridLevel, name⟩ ∈ listLevelInfos loc m' ∧ ∀ k, k ≠ name → m'.get k = m.get k

/-- A name that is taken gets no file more. -/
theorem not_saved_of_taken {loc : ScanLocale} {m : LevelFolder} {entry : Entry} {text : List Char}
    (h : newName m ∈ m) : ¬ Saved loc text m (m.put (newName m) entry) := by
  rintro ⟨name, n, -, hsize, -⟩
  rw [HashMap.size, HashMap.keySet_put_of_mem h] at hsize
  exact absurd hsize (Nat.ne_of_lt (Nat.lt_succ_self _))

/-- The folder is exactly as it was. -/
def Unchanged : Option LevelFolder → Option LevelFolder → Prop
  | none, none => True
  | some m, some m' => ∀ k, m'.get k = m.get k
  | _, _ => False

namespace SaveCall

variable {fmt : TextFormat} {repo : ColorRepository} {disk : Disk} {c : SaveCall}

/-- A save that returns has saved the level, and one that throws has changed nothing. -/
def SaveRight (fmt : TextFormat) (repo : ColorRepository) (loc : ScanLocale) (disk : Disk)
    (c : SaveCall) (folder : Option LevelFolder) : Prop :=
  match c.run fmt repo disk folder with
  | (.ok (), folder') => ∃ m m' text, folder = some m ∧ folder' = some m' ∧
      c.levelText fmt repo = .ok text ∧ Saved loc text m m'
  | (.error _, folder') => Unchanged folder folder'

/-- The file is not opened; or its name is free, and either all of the text gets into it or it is a
builder's, fails in its hints and is deleted; or its name is taken, and what a failing save leaves in
the file is what was in it. -/
def SaveFits (fmt : TextFormat) (repo : ColorRepository) (disk : Disk) (c : SaveCall) :
    Option LevelFolder → Prop
  | none => True
  | some m => Opens disk m →
    if newName m ∈ m then
      c.completes fmt repo disk = false ∧ c.cleansUp fmt repo disk = false ∧
        m.get (newName m) = some (.file (c.left fmt repo disk))
    else
      c.completes fmt repo disk = true ∨ c.cleansUp fmt repo disk = true

theorem not_completes_of_cleansUp (h : c.cleansUp fmt repo disk = true) :
    c.completes fmt repo disk = false := by
  cases c with
  | hint level => cases h
  | builder b hints =>
    simp only [cleansUp, Bool.and_eq_true, Bool.not_eq_true'] at h
    rw [completes, h.1.1.2, Bool.false_and]

section Right

variable {fmt : TextFormat} {repo : ColorRepository} {loc : ScanLocale} {disk : Disk} {c : SaveCall}
  {m : LevelFolder}

/-- All of the text is written: the folder has a file more, unless one of this name was there. -/
theorem saveRight_of_completes (hopen : Opens disk m) (hcompletes : c.completes fmt repo disk = true) :
    SaveRight fmt repo loc disk c (some m) ↔ newName m ∉ m := by
  rw [SaveRight, run_completes hopen hcompletes]
  constructor
  · rintro ⟨m₀, m', text, hm, hm', -, hsaved⟩ htaken
    cases hm
    cases hm'
    exact not_saved_of_taken htaken hsaved
  · intro htaken
    refine ⟨m, _, _, rfl, rfl, levelText_of_completes hcompletes, newName m, newNumber m, htaken,
      HashMap.size_put_of_not_mem htaken, HashMap.get_put_self .., ?_, fun k hk => HashMap.get_put_of_ne m _ hk⟩
    have hinfo := levelInfo_number loc (inRange_newNumber m) rectangleGridLevel
    rw [← newName] at hinfo
    rw [← hinfo]
    exact mem_listLevelInfos (HashMap.mem_put.mpr (.inl rfl))

/-- The file is deleted, and if one was there it is gone. -/
theorem saveRight_of_cleansUp (hopen : Opens disk m) (hcleans : c.cleansUp fmt repo disk = true) :
    SaveRight fmt repo loc disk c (some m) ↔ newName m ∉ m := by
  obtain ⟨e, text, hrun⟩ := run_cleansUp hopen hcleans
  rw [SaveRight, hrun]
  constructor
  · intro h htaken
    obtain ⟨entry, hentry⟩ := HashMap.mem_iff.mp htaken
    have hgone := h (newName m)
    rw [HashMap.get_remove, if_pos rfl, hentry] at hgone
    cases hgone
  · intro htaken k
    rw [HashMap.get_remove]
    by_cases hk : k = newName m
    · rw [if_pos hk, hk, HashMap.get_eq_none.mpr htaken]
    · rw [if_neg hk]
      exact HashMap.get_put_of_ne m _ hk

/-- A file is left: there is one more, unless one of this name was there with the same text. -/
theorem saveRight_of_fails (hopen : Opens disk m) (hcompletes : c.completes fmt repo disk = false)
    (hcleans : c.cleansUp fmt repo disk = false) :
    SaveRight fmt repo loc disk c (some m) ↔ m.get (newName m) = some (.file (c.left fmt repo disk)) := by
  obtain ⟨e, hrun⟩ := run_fails hopen hcompletes hcleans
  rw [SaveRight, hrun]
  constructor
  · intro h
    exact (h (newName m)).symm.trans (HashMap.get_put_self ..)
  · intro hleft k
    by_cases hk : k = newName m
    · rw [hk, HashMap.get_put_self, hleft]
    · exact HashMap.get_put_of_ne m _ hk

end Right

/-- **A save keeps the folder in order in exactly these cases.** -/
theorem saveRight_iff (fmt : TextFormat) (repo : ColorRepository) (loc : ScanLocale) (disk : Disk)
    (c : SaveCall) (folder : Option LevelFolder) :
    SaveRight fmt repo loc disk c folder ↔ SaveFits fmt repo disk c folder := by
  cases folder with
  | none =>
    obtain ⟨e, hrun⟩ := run_missing fmt repo disk c
    refine iff_of_true ?_ trivial
    rw [SaveRight, hrun]
    trivial
  | some m =>
    by_cases hopen : Opens disk m
    · rw [SaveFits, imp_iff_right hopen]
      cases hcompletes : c.completes fmt repo disk with
      | true =>
        rw [saveRight_of_completes hopen hcompletes]
        by_cases htaken : newName m ∈ m <;> simp [htaken]
      | false =>
        cases hcleans : c.cleansUp fmt repo disk with
        | true =>
          rw [saveRight_of_cleansUp hopen hcleans]
          by_cases htaken : newName m ∈ m <;> simp [htaken]
        | false =>
          rw [saveRight_of_fails hopen hcompletes hcleans]
          by_cases htaken : newName m ∈ m
          · simp [htaken]
          · simp [htaken, HashMap.get_eq_none.mpr htaken]
    · obtain ⟨e, hrun⟩ := run_unopened fmt repo c hopen
      refine iff_of_true ?_ fun h => absurd h hopen
      rw [SaveRight, hrun]
      exact fun k => rfl

/-- A cell of colour 0, with no hints. -/
def oneCell : SaveCall :=
  .builder ⟨⟨(HashMap.empty ..).put ⟨0, 0⟩ (.empty _), (HashMap.empty ..).put ⟨0, 0⟩ 0⟩,
    ⟨0, .last 255, .last 255, .last 255⟩, 1, 1⟩ (some [])

/-- Level 2 is left after level 1 was removed. -/
def levelTwo : LevelFolder := (HashMap.empty ..).put ('2' :: '.' :: rectangleGridLevel) (.file ['0'])

/-- Nothing fails. -/
def smooth : Disk := ⟨true, fun _ => true, fun _ => 0, true, true⟩

theorem oneCell_completes :
    oneCell.completes TextRectangleGridLevelRepository.format twoColors smooth = true := by decide

theorem newName_levelTwo : newName levelTwo = '2' :: '.' :: rectangleGridLevel := by decide

theorem levelTwo_opens : Opens smooth levelTwo := by
  refine ⟨?_, rfl⟩
  rw [newName_levelTwo]
  decide

theorem levelTwo_taken : newName levelTwo ∈ levelTwo := by
  rw [newName_levelTwo]
  decide

/-- The next level is number 2 again, and takes the place of the old one. -/
theorem oneCell_overwrites :
    ¬ SaveRight TextRectangleGridLevelRepository.format twoColors .ascii smooth oneCell
      (some levelTwo) := by
  rw [SaveRight, run_completes levelTwo_opens oneCell_completes]
  rintro ⟨_, _, text, hm, hm', -, hsaved⟩
  cases hm
  cases hm'
  exact not_saved_of_taken levelTwo_taken hsaved

end SaveCall

end UnionCollegeCode.Kami3
