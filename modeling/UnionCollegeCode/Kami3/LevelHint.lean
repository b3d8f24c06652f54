import UnionCollegeCode.Kami3.Level

/-!
# `LevelHint.java`, `RectangleHintInputLevel.java`

A level that its designer solves by hand, when the solver has not. The views attached to it are a
parameter `update`, which sees the level as it is.
-/

set_option autoImplicit false

namespace UnionCollegeCode.Kami3

open Lib.JavaCollections ColoredGraph

/-- The colour at a vertex, as levels and builders look it up. -/
def getColorAt {V : Type} [DecidableEq V] (repo : ColorRepository) (graph : ColoredGraph V)
    (vertex : V) : Except JavaException Color := do
  let (colorId, _) ← call (getVertexColor vertex) graph
  repo.getColor colorId

structure LevelHint (V : Type) where
  graph : ColoredGraph V
  startGraph : ColoredGraph V
  curColor : Color
  hintList : List (Move V)

structure RectangleHintInputLevel extends LevelHint RectangleGridCell where
  numRows : ℤ
  numCols : ℤ

/-- A method of a `RectangleHintInputLevel`. -/
abbrev HintM (α : Type) := EStateM JavaException RectangleHintInputLevel α

/-- `ColorRepository.listColors()`, in the order of the iteration. -/
def getColors (colorOrd : HashOrder ℤ) (repo : ColorRepository) : List Color :=
  (colorOrd.iterate repo.colorMap.keySet).filterMap repo.colorMap.get

namespace RectangleHintInputLevel

/-- The constructor. -/
def new (ord : HashOrder RectangleGridCell) (colorOrd : HashOrder ℤ) (repo : ColorRepository)
    (graph : ColoredGraph RectangleGridCell) (numRows numCols : ℤ) :
    Except JavaException RectangleHintInputLevel := do
  let startGraph ← graph.copy ord
  match getColors colorOrd repo with
  | curColor :: _ => return { graph, startGraph, curColor, hintList := [], numRows, numCols }
  | [] => throw .indexOutOfBounds

variable (update : RectangleHintInputLevel → Except JavaException Unit)

def notifyObservers : HintM Unit := do
  MonadExcept.ofExcept (update (← get))

def switchColor (color : Color) : HintM Unit := do
  modify fun l => { l with curColor := color }
  notifyObservers update

/-- A method of the graph, called on the level's own. -/
def onGraph (m : GraphM RectangleGridCell Unit) : HintM Unit := fun l =>
  match m l.graph with
  | .ok () graph => .ok () { l with graph }
  | .error e graph => .error e { l with graph }

variable (ord : HashOrder RectangleGridCell)

def play (move : Move RectangleGridCell) : HintM Unit := do
  onGraph (colorFloodFill ord move.vertex move.color.colorId)
  notifyObservers update

def resetGraph : HintM Unit := do
  let graph ← MonadExcept.ofExcept ((← get).startGraph.copy ord)
  modify fun l => { l with graph }

def restart : HintM Unit := do
  resetGraph ord
  notifyObservers update

/-- The hints join the ones that are there. -/
def setHints (hints : List (Move RectangleGridCell)) : HintM Unit :=
  modify fun l => { l with hintList := l.hintList ++ hints }

def getLevelState (l : RectangleHintInputLevel) : Except JavaException LevelState := do
  let pruned ← l.graph.pruneGraph ord
  if pruned.getNumVertices ≠ 1 then return .ongoing
  return .win

end RectangleHintInputLevel

end UnionCollegeCode.Kami3
