import UnionCollegeCode.Kami3.Level

/-!
# `ColoredGraphSolverTask.java`

`call()` searches the pruned graphs that one vertex at a time taking the colour of a neighbour leads
to, breadth first, and reads the moves back from the first graph of one vertex. The source keys its
maps by graph objects, which are equal when their UUIDs are; here an object is a number handed out
when it is made, and a graph.

The test for an interrupt is left out: the task is not interrupted. `ord` and `colorOrd` are the
orders in which the hash sets of vertices and of colours are met.
-/

set_option autoImplicit false

namespace UnionCollegeCode.Kami3

open Lib.JavaCollections ColoredGraph

/-- The local variables of `call()`. In a map, an inner `none` is a `null` that was put there. -/
structure SolverState (V : Type) where
  queue : List (ℕ × ColoredGraph V)
  prevGraph : HashMap ℕ (Option ℕ)
  moves : HashMap ℕ (Option (Move V))
  distances : HashMap ℕ ℕ
  foundResult : Option ℕ
  /-- The next UUID. -/
  nextUuid : ℕ

variable {V : Type} [DecidableEq V] (ord : HashOrder V) (colorOrd : HashOrder ℤ)
  (repo : ColorRepository)

def getVertexColors (g : ColoredGraph V) : List V → Except JavaException (List ℤ)
  | [] => return []
  | v :: vs => do
    let (color, _) ← call (getVertexColor v) g
    return color :: (← getVertexColors g vs)

/-- The colours of the neighbours, with the vertex's own removed. -/
def possibleColors (g : ColoredGraph V) (vertex : V) (orgColor : ℤ) :
    Except JavaException (HashSet ℤ) := do
  match g.getNeighbors vertex with
  | some s => return (HashSet.ofList (← getVertexColors g (ord.iterate s.elems))).remove orgColor
  | none => throw .nullPointer

/-- A graph object made out of `source` by a move joins the queue and the maps. -/
def SolverState.add (st : SolverState V) (source : ℕ) (distance : ℕ) (move : Move V)
    (nextGraph : ColoredGraph V) : SolverState V where
  queue := st.queue ++ [(st.nextUuid, nextGraph)]
  prevGraph := st.prevGraph.put st.nextUuid (some source)
  moves := st.moves.put st.nextUuid (some move)
  distances := st.distances.put st.nextUuid (distance + 1)
  foundResult := if nextGraph.getNumVertices = 1 then some st.nextUuid else st.foundResult
  nextUuid := st.nextUuid + 1

/-- The loop over the colours of one vertex. The source graph itself is recoloured, and is returned
as the loop leaves it. -/
def tryColors (source : ℕ) (vertex : V) :
    List ℤ → ColoredGraph V → SolverState V → Except JavaException (ColoredGraph V × SolverState V)
  | [], g, st => return (g, st)
  | color :: colors, g, st => do
    let (_, g) ← call (setVertexColor vertex color) g
    let nextGraph ← pruneGraph ord g
    let moveColor ← repo.getColor color
    match st.distances.get source with
    | some distance =>
      tryColors source vertex colors g (st.add source distance ⟨moveColor, vertex⟩ nextGraph)
    | none => throw .nullPointer

/-- The loop over the vertices of the source graph. It goes on after a result is found. -/
def tryVertices (source : ℕ) :
    List V → ColoredGraph V → SolverState V → Except JavaException (SolverState V)
  | [], _, st => return st
  | vertex :: vertices, g, st => do
    let (orgColor, _) ← call (getVertexColor vertex) g
    let colors ← possibleColors ord g vertex orgColor
    let (g, st) ← tryColors ord repo source vertex (colorOrd.iterate colors.elems) g st
    let (_, g) ← call (setVertexColor vertex orgColor) g
    tryVertices source vertices g st

/-- The `while` loop, for at most `fuel` rounds. -/
def searchLoop : ℕ → SolverState V → Except JavaException (SolverState V)
  | 0, st =>
    match st.foundResult, st.queue with
    | none, _ :: _ => throw .outOfFuel
    | _, _ => return st
  | fuel + 1, st =>
    match st.foundResult, st.queue with
    | none, (source, g) :: queue => do
      let st ← tryVertices ord colorOrd repo source (ord.iterate g.getVertexSet) g { st with queue }
      searchLoop fuel st
    | _, _ => return st

omit [DecidableEq V] in
/-- The last loop, `while (prevGraph.get(foundResult) != null)`. -/
def traceBack (st : SolverState V) :
    ℕ → Option ℕ → List (Option (Move V)) → Except JavaException (List (Option (Move V)))
  | fuel, foundResult, solution =>
    match foundResult.bind fun graph => (st.prevGraph.get graph).join, fuel with
    | none, _ => return solution
    | some _, 0 => throw .outOfFuel
    | some prev, fuel + 1 =>
      traceBack st fuel (some prev)
        ((foundResult.bind fun graph => (st.moves.get graph).join) :: solution)

omit [DecidableEq V] in
/-- What `call()` sets up before the search. -/
def SolverState.start (startGraph : ColoredGraph V) : SolverState V where
  queue := [(0, startGraph)]
  prevGraph := (HashMap.empty ..).put 0 none
  moves := (HashMap.empty ..).put 0 none
  distances := (HashMap.empty ..).put 0 0
  foundResult := none
  nextUuid := 1

/-- `call()`. The search has `fuel` rounds; the way back has one for each graph made. -/
def solverCall (graph : ColoredGraph V) (fuel : ℕ) :
    Except JavaException (List (Option (Move V))) := do
  let startGraph ← pruneGraph ord graph
  let st ← searchLoop ord colorOrd repo fuel (.start startGraph)
  traceBack st st.nextUuid st.foundResult []

end UnionCollegeCode.Kami3
