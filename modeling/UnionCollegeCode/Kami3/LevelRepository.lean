import UnionCollegeCode.Lib.Scanner
import UnionCollegeCode.Kami3.LevelBuilder

/-!
# The level files

`TextRectangleGridLevelRepository.java` and `Text2RectangleGridLevelRepository.java`, which differ
in the separators they write and the delimiter they read by, and the chain of `LevelRepository.java`.
A file is its text. A saver gives the text it writes; the name of the file, and what is left of a
file when writing it fails, are for `LevelFolder`.

The list of hints a saver is given is never `null` here, so the clause that deletes the file when
writing them fails has nothing to catch.
-/

set_option autoImplicit false

namespace UnionCollegeCode.Kami3

open Lib.JavaCollections Lib.Scanner ColoredGraph

/-! ## `RectangleGridLevel.java` -/

structure RectangleGridLevel where
  level : Level RectangleGridCell
  numRows : ℤ
  numCols : ℤ

/-- The constructor. -/
def RectangleGridLevel.new (ord : HashOrder RectangleGridCell) (repo : ColorRepository)
    (graph : ColoredGraph RectangleGridCell) (hints : List (Move RectangleGridCell)) :
    Except JavaException RectangleGridLevel := do
  let level ← Level.new ord repo graph hints
  let vertices := ord.iterate graph.getVertexSet
  return {
    level
    numRows := vertices.foldl (fun n cell => max n cell.row) 0 + 1
    numCols := vertices.foldl (fun n cell => max n cell.col) 0 + 1 }

/-! ## Writing -/

section Writing

variable (sep eol : List Char) (repo : ColorRepository) (graph : ColoredGraph RectangleGridCell)

def writeCell (row col : ℤ) : Except JavaException (List Char) := do
  let color ← getColorAt repo graph ⟨row, col⟩
  return intToString color.colorId

/-- The cells from `j` on, each behind a separator. -/
def writeCells (row : ℤ) (j : ℕ) : ℕ → Except JavaException (List Char)
  | 0 => return []
  | n + 1 => do
    let cell ← writeCell repo graph row j
    return sep ++ cell ++ (← writeCells row (j + 1) n)

def writeRow (numCols row : ℤ) : Except JavaException (List Char) := do
  let line ← writeCell repo graph row 0
  let cells ← writeCells sep repo graph row 1 (numCols.toNat - 1)
  return line ++ cells ++ eol

/-- The rows from `i` on. -/
def writeRows (numCols : ℤ) (i : ℕ) : ℕ → Except JavaException (List Char)
  | 0 => return []
  | n + 1 => do
    let line ← writeRow sep eol repo graph numCols i
    return line ++ (← writeRows numCols (i + 1) n)

def writeMove (move : Move RectangleGridCell) : List Char :=
  intToString move.color.colorId ++ sep ++ intToString move.vertex.row ++ sep ++
    intToString move.vertex.col ++ eol

/-- The text of a level file. -/
def writeLevel (numRows numCols : ℤ) (hints : List (Move RectangleGridCell)) :
    Except JavaException (List Char) := do
  let rows ← writeRows sep eol repo graph numCols 0 numRows.toNat
  return intToString numRows ++ sep ++ intToString numCols ++ eol ++ rows ++
    intToString hints.length ++ eol ++ hints.flatMap (writeMove sep eol)

end Writing

/-! ## Reading -/

/-- `Character.isWhitespace`. -/
def isJavaWhitespace (c : Char) : Bool :=
  c.toNat ∈ [0x20, 0x1680, 0x205F, 0x3000, 0x2028, 0x2029] ∨ (0x09 ≤ c.toNat ∧ c.toNat ≤ 0x0D) ∨
    (0x1C ≤ c.toNat ∧ c.toNat ≤ 0x1F) ∨
    (0x2000 ≤ c.toNat ∧ c.toNat ≤ 0x200A ∧ c.toNat ≠ 0x2007)

/-- The delimiter a `Scanner` starts with. -/
def javaWhitespace : Delimiter := ⟨isJavaWhitespace, isJavaWhitespace⟩

/-- `[;,]\s*` -/
def semicolonOrComma : Delimiter where
  first c := c = ';' ∨ c = ','
  rest c := c = ' ' ∨ (0x09 ≤ c.toNat ∧ c.toNat ≤ 0x0D)

/-- A `Scanner`, with the text it has not read yet. -/
abbrev ScannerM (α : Type) := EStateM JavaException (List Char) α

section Reading

variable (loc : ScanLocale) (d : Delimiter)

def nextInt : ScannerM ℤ := fun s =>
  match Lib.Scanner.nextInt loc d s with
  | .ok (z, s') => .ok z s'
  | .error .noSuchElement => .error .noSuchElement s
  | .error .inputMismatch => .error .inputMismatch s

def readCells : List RectangleGridCell → ColoredGraph RectangleGridCell →
    ScannerM (ColoredGraph RectangleGridCell)
  | [], graph => return graph
  | cell :: cells, graph => do
    let colorId ← nextInt loc d
    let (_, graph) ← MonadExcept.ofExcept (call (addVertex cell colorId) graph)
    readCells cells graph

variable (ord : HashOrder RectangleGridCell) (repo : ColorRepository)

def readHints : ℕ → ScannerM (List (Move RectangleGridCell))
  | 0 => return []
  | n + 1 => do
    let colorId ← nextInt loc d
    let row ← nextInt loc d
    let col ← nextInt loc d
    let color ← MonadExcept.ofExcept (repo.getColor colorId)
    return ⟨color, ⟨row, col⟩⟩ :: (← readHints n)

/-- A level out of its file. -/
def readLevel : ScannerM RectangleGridLevel := do
  let numRows ← nextInt loc d
  let numCols ← nextInt loc d
  let graph ← readCells loc d (cells numRows numCols) (ColoredGraph.new _)
  let (_, graph) ← MonadExcept.ofExcept
    (call (buildGraphWithAdjacency ord RectangleGridCell.adjacentTo) graph)
  let maxNumTurn ← nextInt loc d
  let hints ← readHints loc d repo maxNumTurn.toNat
  MonadExcept.ofExcept (RectangleGridLevel.new ord repo graph hints)

/-- What a loader does with a file, and what it throws. -/
def loadFile (file : List Char) : Except JavaException RectangleGridLevel :=
  match readLevel loc d ord repo file with
  | .ok level _ => .ok level
  | .error e _ => .error (.runtime e)

end Reading

/-! ## The repositories -/

variable (loc : ScanLocale) (ord : HashOrder RectangleGridCell) (repo : ColorRepository)

/-- `_saveLevel(LevelBuilder, …)`, with the separators of a format. -/
def saveBuilder (sep eol : List Char) (levelBuilder : RectangleGridLevelBuilder)
    (hints : List (Move RectangleGridCell)) : Except JavaException (List Char) :=
  (writeLevel sep eol repo levelBuilder.graph levelBuilder.numRows levelBuilder.numCols
    hints).mapError .runtime

/-- `_saveLevel(LevelHint, …)`. Only an `IOException` would be wrapped. -/
def saveHint (sep eol : List Char) (level : RectangleHintInputLevel) :
    Except JavaException (List Char) :=
  writeLevel sep eol repo level.graph level.numRows level.numCols level.hintList

namespace TextRectangleGridLevelRepository

def loadLevel : List Char → Except JavaException RectangleGridLevel :=
  loadFile loc javaWhitespace ord repo

def saveLevelBuilder := saveBuilder repo [' '] ['\n']

def saveLevelHint := saveHint repo [' '] ['\n']

end TextRectangleGridLevelRepository

namespace Text2RectangleGridLevelRepository

def loadLevel : List Char → Except JavaException RectangleGridLevel :=
  loadFile loc semicolonOrComma ord repo

def saveLevelBuilder := saveBuilder repo [','] [',', '\n']

def saveLevelHint := saveHint repo [','] [',', '\n']

end Text2RectangleGridLevelRepository

/-- `LevelRepository.loadLevel`, of a repository and its successors. -/
def LevelRepository.loadLevel (load : List Char → Except JavaException RectangleGridLevel) :
    List (List Char → Except JavaException RectangleGridLevel) → List Char →
      Except JavaException RectangleGridLevel
  | [], file =>
    match load file with
    | .ok level => .ok level
    | .error e => .error (.runtime e)
  | successor :: successors, file =>
    match load file with
    | .ok level => .ok level
    | .error _ => LevelRepository.loadLevel successor successors file

end UnionCollegeCode.Kami3
