import UnionCollegeCode.Lib.Run
import UnionCollegeCode.Kami3.LevelCodec

/-!
# `RectangleHintInputController.java`, its view and `CommandInvoker.java`

A designer solves a level by hand: clicks, chooses colours, restarts, and saves when the level is
solved. The invoker holds the commands that were carried out, and a save writes them as the hints.

A click is recorded after the level has told its view, whose redraw counts its columns by the rows.
-/

set_option autoImplicit false

namespace UnionCollegeCode.Kami3

open Lib.EState Lib.JavaCollections Lib.Run ColoredGraph

/-! ## `RectangleHintInputView.java` -/

/-- The redraw of the buttons. -/
def redraw (repo : ColorRepository) (level : RectangleHintInputLevel) :
    List RectangleGridCell → Except JavaException Unit
  | [] => return ()
  | cell :: cells => do
    let _ ← getColorAt repo level.graph cell
    if ¬ cell.col < level.numCols then throw .indexOutOfBounds
    redraw repo level cells

/-- `update`. The loop over the columns runs to `getRows()`. -/
def updateView (ord : HashOrder RectangleGridCell) (repo : ColorRepository)
    (level : RectangleHintInputLevel) : Except JavaException Unit := do
  redraw repo level (cells level.numRows level.numRows)
  -- `colorToChooseButton.get(level.getCurrentColor())`, by the equality of colours.
  if ¬ repo.colorMap.values.any fun c => c.rValue = level.curColor.rValue ∧
      c.gValue = level.curColor.gValue ∧ c.bValue = level.curColor.bValue then
    throw .nullPointer
  let _ ← level.getLevelState ord
  return ()

/-! ## The controller -/

/-- A file that was saved: its text, the moves the invoker held and the grid on the screen when the
save began. -/
structure SavedHints where
  file : List Char
  hints : List (Move RectangleGridCell)
  seen : ColoredGraph RectangleGridCell

/-- The level under the controller and the queue of the invoker. What was saved is kept with what it
was saved from. -/
structure HintInput where
  level : RectangleHintInputLevel
  commandQueue : List (Move RectangleGridCell)
  saved : List SavedHints

abbrev HintInputM (α : Type) := EStateM JavaException HintInput α

namespace HintInput

/-- A method of the level. -/
def onLevel (m : HintM Unit) : HintInputM Unit :=
  zoom HintInput.level (fun s level => { s with level }) m

def reset : HintInputM Unit := modify fun s => { s with commandQueue := [] }

variable (ord : HashOrder RectangleGridCell) (repo : ColorRepository)

/-- `CommandInvoker.invoke`, of the command that plays the move. -/
def invoke (move : Move RectangleGridCell) : HintInputM Unit := do
  onLevel (RectangleHintInputLevel.play (updateView ord repo) ord move)
  modify fun s => { s with commandQueue := s.commandQueue ++ [move] }

def handleColorGridBtn (row col : ℤ) : HintInputM (Option Alert) :=
  tryCatch
    (do
      invoke ord repo ⟨(← get).level.curColor, ⟨row, col⟩⟩
      return none)
    fun e => return some (.exception e)

def handleChooseColorBtn (color : Color) : HintInputM (Option Alert) :=
  tryCatch
    (do
      onLevel (RectangleHintInputLevel.switchColor (updateView ord repo) color)
      return none)
    fun e => return some (.exception e)

def handleRestartBtn : HintInputM Unit := do
  reset
  onLevel (RectangleHintInputLevel.restart (updateView ord repo) ord)

/-- `LevelRepositoryManager.saveLevel`. The repository throws `repository`, or what writing the level
throws; the manager's observers throw `observers`. -/
def saveLevel (sep eol : List Char) (repository observers : Option JavaException)
    (hints : List (Move RectangleGridCell)) (seen : ColoredGraph RectangleGridCell) :
    HintInputM Unit := do
  if let some e := repository then throw e
  let file ← MonadExcept.ofExcept (saveHint repo sep eol (← get).level)
  modify fun s => { s with saved := ⟨file, hints, seen⟩ :: s.saved }
  if let some e := observers then throw e

def handleSave (sep eol : List Char) (repository observers : Option JavaException) :
    HintInputM Unit := do
  let hints := (← get).commandQueue
  let seen := (← get).level.graph
  onLevel (RectangleHintInputLevel.setHints hints)
  onLevel (RectangleHintInputLevel.resetGraph ord)
  saveLevel repo sep eol repository observers hints seen
  reset

end HintInput

/-! ## Runs -/

inductive HintEvent
  | click (row col : ℤ)
  | choose (color : Color)
  | restart
  | save (repository observers : Option JavaException)
  deriving DecidableEq, Repr

/-- What a handler leaves behind. -/
def HintInput.after {α : Type} (m : HintInputM α) (s : HintInput) : HintInput :=
  match m s with
  | .ok _ s' => s'
  | .error _ s' => s'

variable (ord : HashOrder RectangleGridCell) (repo : ColorRepository) (sep eol : List Char)

/-- There is a button for every cell of the grid and for every colour of the repository. -/
def HintInput.step (s : HintInput) : HintEvent → Option HintInput
  | .click row col =>
    if ⟨row, col⟩ ∈ cells s.level.numRows s.level.numCols then
      some (s.after (handleColorGridBtn ord repo row col))
    else none
  | .choose color =>
    if repo.colorMap.get color.colorId = some color then
      some (s.after (handleChooseColorBtn ord repo color))
    else none
  | .restart => some (s.after (handleRestartBtn ord repo))
  | .save repository observers => some (s.after (handleSave ord repo sep eol repository observers))

/-- The level shows the replay of the queue from its start graph. A saved file holds the start graph
with the queue it was saved from, and their replay is the grid the designer saw. -/
structure Consistent (s : HintInput) : Prop where
  graph : ∃ g, replay ord (s.commandQueue.map Move.step) s.level.startGraph = .ok () g ∧
    Same g s.level.graph
  saved : ∀ x ∈ s.saved,
    writeLevel sep eol repo s.level.startGraph s.level.numRows s.level.numCols x.hints = .ok x.file ∧
    ∃ g, replay ord (x.hints.map Move.step) s.level.startGraph = .ok () g ∧ Same g x.seen

/-- What keeps the queue in step. A click does on a level with no more rows than columns, or when
its cell has the colour already. A save does when no hints are left over from an earlier one and,
unless it goes through, when the moves so far have led back to the start. -/
def KeepsStep (s : HintInput) : HintEvent → Prop
  | .click row col => s.level.numRows ≤ s.level.numCols ∨
      s.level.graph.colorAt ⟨row, col⟩ = some (s.level.curColor.colorId : ℤ)
  | .choose _ => True
  | .restart => True
  | .save repository observers => (repository = none → s.level.hintList = []) ∧
      (repository ≠ none ∨ observers ≠ none →
        ∀ c, s.level.graph.colorAt c = s.level.startGraph.colorAt c)

end UnionCollegeCode.Kami3
