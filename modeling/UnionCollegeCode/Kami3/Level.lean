import Mathlib.Data.List.MinMax
import UnionCollegeCode.Kami3.WellFormed

/-!
# `Level.java` and its controller

A level under play, the caretaker's stack of mementos, and the handlers the buttons of a rectangular
level call. A handler runs in `LevelM`, which keeps the level an exception leaves behind: the
handlers catch what `play` throws and go on with the level as it is then.

The views attached to a level are a parameter `update`. A view reads what the level shows, which is
its `Snapshot`, and may throw.
-/

set_option autoImplicit false

namespace UnionCollegeCode.Kami3

open Lib.JavaCollections

/-! ## Colours -/

/-- `colorId` is counted up from 0 by the repository. -/
structure Color where
  colorId : ℕ
  rValue : Fin 256
  gValue : Fin 256
  bValue : Fin 256
  deriving DecidableEq, Repr

/-- Colours under their ids. -/
structure ColorRepository where
  colorMap : HashMap ℤ Color
  idCount : ℕ
  colorId_eq : ∀ id color, colorMap.get id = some color → (color.colorId : ℤ) = id

namespace ColorRepository

def new : ColorRepository := ⟨.empty .., 0, by simp⟩

/-- `Color.equals` looks at the three values only. -/
def addColor (repo : ColorRepository) (color : Color) : Except JavaException ColorRepository :=
  if repo.colorMap.values.any fun c =>
      c.rValue = color.rValue ∧ c.gValue = color.gValue ∧ c.bValue = color.bValue then
    throw (.illegalArgument "Color already in repository")
  else
    return {
      colorMap := repo.colorMap.put repo.idCount { color with colorId := repo.idCount }
      idCount := repo.idCount + 1
      colorId_eq := by
        intro id c h
        rw [HashMap.get_put] at h
        split at h
        · rw [Option.some.injEq] at h
          subst h
          exact Eq.symm ‹_›
        · exact repo.colorId_eq id c h }

def getColor (repo : ColorRepository) (id : ℤ) : Except JavaException Color :=
  match repo.colorMap.get id with
  | some color => return color
  | none => throw (.illegalArgument "unknown color id")

def listColors (repo : ColorRepository) (ids : List ℤ) : Except JavaException (List Color) :=
  ids.mapM repo.getColor

end ColorRepository

structure Move (V : Type) where
  color : Color
  vertex : V
  deriving DecidableEq, Repr

/-! ## Levels -/

structure LevelMemento (V : Type) where
  graph : ColoredGraph V
  curNumTurn : ℕ
  curColor : Color

structure Level (V : Type) where
  graph : ColoredGraph V
  hints : List (Move V)
  curNumTurn : ℕ
  curColor : Color
  /-- The stack of the level's caretaker, latest first. -/
  mementoStack : List (LevelMemento V)

/-- What a level shows: the colour of every cell, which cells touch, the turn and the current
colour. -/
@[ext] structure Snapshot (V : Type) where
  colorAt : V → Option ℤ
  adj : V → V → Prop
  curNumTurn : ℕ
  curColor : Color

inductive LevelState
  | ongoing
  | win
  | lose
  deriving DecidableEq, Repr

abbrev LevelM (V α : Type) := EStateM JavaException (Level V) α

namespace Level

variable {V : Type}

def snapshot (l : Level V) : Snapshot V :=
  ⟨l.graph.colorAt, l.graph.Adj, l.curNumTurn, l.curColor⟩

def numMoveRemaining (l : Level V) : ℤ := (l.hints.length : ℤ) - l.curNumTurn

/-- Every view attached to the level is told of a change. -/
def notifyObservers (update : Snapshot V → Except JavaException Unit) : LevelM V Unit := do
  match update (← get).snapshot with
  | .ok () => pure ()
  | .error e => throw e

def switchColor (update : Snapshot V → Except JavaException Unit) (color : Color) :
    LevelM V Unit := do
  modify fun l => { l with curColor := color }
  notifyObservers update

def setMemento (update : Snapshot V → Except JavaException Unit) (m : LevelMemento V) :
    LevelM V Unit := do
  modify fun l => { l with graph := m.graph, curColor := m.curColor, curNumTurn := m.curNumTurn }
  notifyObservers update

/-- `MementoCaretaker.undo`. -/
def undo (update : Snapshot V → Except JavaException Unit) : LevelM V Unit := do
  match (← get).mementoStack with
  | m :: rest => do
    modify fun l => { l with mementoStack := rest }
    setMemento update m
  | [] => throw .emptyStack

/-- `MementoCaretaker.undoable`. -/
def undoable (l : Level V) : Bool := !l.mementoStack.isEmpty

variable [DecidableEq V]

/-- The constructor: the first colour of the graph is the current one. -/
def new (ord : HashOrder V) (repo : ColorRepository) (graph : ColoredGraph V)
    (hints : List (Move V)) : Except JavaException (Level V) := do
  let colors ← repo.listColors (graph.getColorIds ord)
  match colors.argmin Color.colorId with
  | some curColor => return ⟨graph, hints, 0, curColor, []⟩
  | none => throw .noSuchElement

/-- A method of the graph, called on the level's own. -/
def onGraph (m : GraphM V Unit) : LevelM V Unit := fun l =>
  match m l.graph with
  | .ok () graph => .ok () { l with graph }
  | .error e graph => .error e { l with graph }

def play (ord : HashOrder V) (update : Snapshot V → Except JavaException Unit) (move : Move V) :
    LevelM V Unit := do
  if (← get).numMoveRemaining = 0 then throw (.illegalArgument "No move left")
  onGraph (ColoredGraph.colorFloodFill ord move.vertex move.color.colorId)
  modify fun l => { l with curNumTurn := l.curNumTurn + 1 }
  notifyObservers update

/-- Asking for the state of a level leaves it as it is. -/
def getLevelState (ord : HashOrder V) (l : Level V) : Except JavaException LevelState := do
  let pruned ← l.graph.pruneGraph ord
  if pruned.getNumVertices ≠ 1 then
    if l.numMoveRemaining > 0 then return .ongoing
    return .lose
  return .win

def createMemento (ord : HashOrder V) : LevelM V (LevelMemento V) := do
  let l ← get
  match l.graph.copy ord with
  | .ok graph => return ⟨graph, l.curNumTurn, l.curColor⟩
  | .error e => throw e

/-- `MementoCaretaker.recordOriginator`. -/
def recordOriginator (ord : HashOrder V) : LevelM V Unit := do
  let m ← createMemento ord
  modify fun l => { l with mementoStack := m :: l.mementoStack }

end Level

/-! ## `RectangleGridLevelController.java` -/

structure RectangleGridCell where
  row : ℤ
  col : ℤ
  deriving DecidableEq, Repr

def RectangleGridCell.adjacentTo (c vertex : RectangleGridCell) : Bool :=
  ((vertex.row - c.row).natAbs = 1 ∧ (vertex.col - c.col).natAbs = 0) ∨
    ((vertex.row - c.row).natAbs = 0 ∧ (vertex.col - c.col).natAbs = 1)

/-- What a handler shows the player. -/
inductive Alert
  | exception (e : JavaException)
  | noPreviousMoves
  deriving DecidableEq, Repr

def handleColorGridBtn (ord : HashOrder RectangleGridCell)
    (update : Snapshot RectangleGridCell → Except JavaException Unit) (row col : ℤ) :
    LevelM RectangleGridCell (Option Alert) :=
  tryCatch
    (do
      Level.recordOriginator ord
      Level.play ord update ⟨(← get).curColor, ⟨row, col⟩⟩
      return none)
    fun e => return some (.exception e)

def handleChooseColorBtn (update : Snapshot RectangleGridCell → Except JavaException Unit)
    (color : Color) : LevelM RectangleGridCell (Option Alert) :=
  tryCatch
    (do
      Level.switchColor update color
      return none)
    fun e => return some (.exception e)

def handleUndoButton (update : Snapshot RectangleGridCell → Except JavaException Unit) :
    LevelM RectangleGridCell (Option Alert) := do
  if (← get).undoable then
    Level.undo update
    return none
  else
    return some .noPreviousMoves

end UnionCollegeCode.Kami3
