import UnionCollegeCode.Lib.EState
import UnionCollegeCode.Kami3.LevelRepository

/-!
# The folder of the level files

`_saveLevel` of both repositories from `listFiles` to `close`, and `listLevelInfos` of
`LevelRepositoryManager.java`. The new file is named after the number of files, so it may be one that
is there, which is overwritten. A save that fails once the file is open leaves it behind, unless it is a
builder's and fails in its hints: then the file is deleted, also if it was there before.

What the file system does is a `Disk`: which calls go through, and how much of what was written has
reached the file after each of them.
-/

set_option autoImplicit false

namespace UnionCollegeCode.Kami3

open Lib.EState Lib.JavaCollections Lib.Scanner ColoredGraph

abbrev FileName := List Char

inductive Entry
  | file (text : List Char)
  | directory
  deriving DecidableEq, Repr

/-- What the entries of a folder are. -/
abbrev LevelFolder := HashMap FileName Entry

inductive SaveException
  | java (e : JavaException)
  | io
  | runtime (cause : SaveException)
  | message (text : String)
  deriving DecidableEq, Repr

structure Disk where
  opens : Bool
  /-- Whether this call of `write` goes through. -/
  writes : ℕ → Bool
  /-- How many characters of the text have reached the file after so many calls. -/
  reached : ℕ → ℕ
  closes : Bool
  deletes : Bool

/-- A save under way: the folder, which is `none` if there is none, and what was given to the writer in
how many calls. -/
structure Saving where
  folder : Option LevelFolder
  text : List Char
  calls : ℕ

def Saving.setFile (s : Saving) (name : FileName) (text : List Char) : Saving :=
  { s with folder := s.folder.map (·.put name (.file text)) }

abbrev SaveM (α : Type) := EStateM SaveException Saving α

/-- `LevelType.RECTANGLE_GRID_LEVEL`. -/
def rectangleGridLevel : List Char := ['r', 'e', 'c', 't', 'g', 'r', 'l']

/-! ## `_saveLevel` -/

/-- What the two repositories have of their own. -/
structure TextFormat where
  sep : List Char
  eol : List Char
  tookTooLong : String

def TextRectangleGridLevelRepository.format : TextFormat :=
  ⟨[' '], ['\n'], "Level save took too long."⟩

def Text2RectangleGridLevelRepository.format : TextFormat :=
  ⟨[','], [',', '\n'], "Level save took too long"⟩

/-- `folder.listFiles().length + 1`. -/
def newNumber (m : LevelFolder) : ℤ := Int.bmod (m.size + 1) (2 ^ 32)

def newName (m : LevelFolder) : FileName :=
  intToString (newNumber m) ++ '.' :: rectangleGridLevel

def newFileName : SaveM FileName := fun s =>
  match s.folder with
  | none => .error (.java .nullPointer) s
  | some m => .ok (newName m) s

/-- A line is computed when its turn comes, and may throw. -/
abbrev Line := Except JavaException (List Char)

section Saving

variable (disk : Disk) (name : FileName)

/-- `new FileWriter`. A file that is there is cut to nothing. -/
def openFile : SaveM Unit := fun s =>
  if s.folder.bind (·.get name) = some .directory ∨ disk.opens = false then .error .io s
  else .ok () (s.setFile name [])

def write (line : List Char) : SaveM Unit := fun s =>
  let text := s.text ++ line
  let s' := { s with text, calls := s.calls + 1 }.setFile name (text.take (disk.reached s.calls))
  if disk.writes s.calls then .ok () s' else .error .io s'

def writeLines : List Line → SaveM Unit
  | [] => pure ()
  | .error e :: _ => throw (.java e)
  | .ok line :: lines => do
    write disk name line
    writeLines lines

def closeFile : SaveM Unit := fun s =>
  if disk.closes then .ok () (s.setFile name s.text)
  else .error .io (s.setFile name (s.text.take (disk.reached s.calls)))

def deleteFile : SaveM Unit := fun s =>
  if disk.deletes then .ok () { s with folder := s.folder.map (·.remove name) } else .ok () s

end Saving

section Lines

variable (fmt : TextFormat) (repo : ColorRepository)

/-- The lines of the grid. -/
def gridLines (graph : ColoredGraph RectangleGridCell) (numRows numCols : ℤ) : List Line :=
  .ok (intToString numRows ++ fmt.sep ++ intToString numCols ++ fmt.eol) ::
    (List.range numRows.toNat).map fun i : ℕ => writeRow fmt.sep fmt.eol repo graph numCols i

/-- The lines of the hints; `none` is `null`. -/
def hintLines : Option (List (Move RectangleGridCell)) → List Line
  | none => [.error .nullPointer]
  | some hints =>
    .ok (intToString hints.length ++ fmt.eol) ::
      hints.map fun move => .ok (writeMove fmt.sep fmt.eol move)

end Lines

/-- A call of one of the two overloads. -/
inductive SaveCall
  | builder (levelBuilder : RectangleGridLevelBuilder)
      (hints : Option (List (Move RectangleGridCell)))
  | hint (level : RectangleHintInputLevel)

namespace SaveCall

variable (fmt : TextFormat) (repo : ColorRepository) (disk : Disk)

def grid : SaveCall → List Line
  | .builder b _ => gridLines fmt repo b.graph b.numRows b.numCols
  | .hint level => gridLines fmt repo level.graph level.numRows level.numCols

def hints : SaveCall → List Line
  | .builder _ hints => hintLines fmt hints
  | .hint level => hintLines fmt (some level.hintList)

/-- From the first `write` on. A builder's file is closed and deleted if its hints fail. -/
def writeFile (fileName : FileName) (c : SaveCall) : SaveM Unit :=
  match c with
  | .builder _ _ => do
    writeLines disk fileName (c.grid fmt repo)
    tryCatch (writeLines disk fileName (c.hints fmt)) fun _ => do
      closeFile disk fileName
      deleteFile disk fileName
      throw (.message fmt.tookTooLong)
    closeFile disk fileName
  | .hint _ => do
    writeLines disk fileName (c.grid fmt repo)
    writeLines disk fileName (c.hints fmt)
    closeFile disk fileName

/-- What the `catch` at the end throws. That of the overload for hints is for an `IOException` only. -/
def wrap (c : SaveCall) (e : SaveException) : SaveException :=
  match c with
  | .builder _ _ => .runtime e
  | .hint _ => if e = .io then .runtime e else e

def saveLevel (c : SaveCall) : SaveM Unit :=
  tryCatch
    (do
      let fileName ← newFileName
      openFile disk fileName
      c.writeFile fmt repo disk fileName)
    fun e => throw (c.wrap e)

/-- How the call ends, and the folder after it. -/
def run (c : SaveCall) (folder : Option LevelFolder) :
    Except SaveException Unit × Option LevelFolder :=
  match c.saveLevel fmt repo disk ⟨folder, [], 0⟩ with
  | .ok () s => (.ok (), s.folder)
  | .error e s => (.error e, s.folder)

end SaveCall

/-! ## `listLevelInfos` -/

structure LevelInfo where
  levelId : ℤ
  levelType : List Char
  fileName : FileName
  deriving DecidableEq, Repr

def parseDigits (loc : ScanLocale) (cs : List Char) : Option ℕ :=
  if cs = [] then none else (cs.mapM loc.digit).map ScanLocale.value

def parseSigned (loc : ScanLocale) : List Char → Option ℤ
  | '-' :: cs => (parseDigits loc cs).map fun n : ℕ => -(n : ℤ)
  | '+' :: cs => (parseDigits loc cs).map fun n : ℕ => (n : ℤ)
  | cs => (parseDigits loc cs).map fun n : ℕ => (n : ℤ)

/-- `Integer.parseInt`. -/
def parseInt (loc : ScanLocale) (cs : List Char) : Option ℤ :=
  (parseSigned loc cs).filter fun z => InRange z

/-- A name is split at its first dot. -/
def levelInfo (loc : ScanLocale) (name : FileName) : LevelInfo :=
  match name.span (· ≠ '.') with
  | (_, []) => ⟨0, [], name⟩
  | (number, _ :: levelType) => ⟨(parseInt loc number).getD 0, levelType, name⟩

def listLevelInfos (loc : ScanLocale) (m : LevelFolder) : List LevelInfo :=
  (m.keySet.map (levelInfo loc)).mergeSort fun a b => a.levelId ≤ b.levelId

end UnionCollegeCode.Kami3
