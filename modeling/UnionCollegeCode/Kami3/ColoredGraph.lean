import Mathlib.Data.Int.Notation
import Mathlib.Data.List.Dedup
import UnionCollegeCode.Lib.JavaCollections

/-!
# `ColoredGraph.java`

The class as it stands: two maps keyed by the vertices, and the operations on them. A method runs
in `GraphM`, which keeps the graph an exception leaves behind, since a method may already have
changed the graph when it throws. Where the source iterates over a hash set the order is a parameter
`ord`.

The UUID only tells graph objects apart; it appears where objects are used as keys, in the solver.
-/

set_option autoImplicit false

namespace UnionCollegeCode.Kami3

open Lib.JavaCollections

inductive JavaException
  | illegalArgument (message : String)
  | nullPointer
  | indexOutOfBounds
  | noSuchElement
  | inputMismatch
  | emptyStack
  | runtime (cause : JavaException)
  /-- Not an exception of the source: a loop of the model has run out of rounds. -/
  | outOfFuel
  deriving DecidableEq, Repr

structure ColoredGraph (V : Type) where
  adjVertices : HashMap V (HashSet V)
  colorMap : HashMap V ℤ

/-- A method of a `ColoredGraph`. -/
abbrev GraphM (V α : Type) := EStateM JavaException (ColoredGraph V) α

namespace ColoredGraph

variable {V : Type}

/-- The basic constructor. -/
def new (V : Type) : ColoredGraph V := ⟨.empty .., .empty ..⟩

instance : Membership V (ColoredGraph V) := ⟨fun g v => v ∈ g.adjVertices⟩

theorem mem_def {g : ColoredGraph V} {v : V} : v ∈ g ↔ v ∈ g.adjVertices := Iff.rfl

def getVertexSet (g : ColoredGraph V) : List V := g.adjVertices.keySet

@[simp] theorem mem_getVertexSet {g : ColoredGraph V} {v : V} : v ∈ g.getVertexSet ↔ v ∈ g := Iff.rfl

/-- `none` is `null`. -/
def getNeighbors (g : ColoredGraph V) (vertex : V) : Option (HashSet V) := g.adjVertices.get vertex

def getNumVertices (g : ColoredGraph V) : ℕ := g.adjVertices.size

variable [DecidableEq V]

instance (g : ColoredGraph V) (v : V) : Decidable (v ∈ g) :=
  inferInstanceAs (Decidable (v ∈ g.adjVertices))

def getVertexColor (vertex : V) : GraphM V ℤ := do
  if vertex ∉ (← get) then throw (.illegalArgument "the vertex is not in the graph")
  match (← get).colorMap.get vertex with
  | some color => pure color
  | none => throw .nullPointer

def setVertexColor (vertex : V) (color : ℤ) : GraphM V Unit := do
  if vertex ∉ (← get) then throw (.illegalArgument "the vertex is not in the graph")
  modify fun g => { g with colorMap := g.colorMap.put vertex color }

def addVertex (vertex : V) (color : ℤ) : GraphM V Unit := do
  if vertex ∈ (← get) then throw (.illegalArgument "graph already has this vertex")
  if color < 0 then throw (.illegalArgument "invalid color")
  modify fun g =>
    { adjVertices := g.adjVertices.put vertex (.empty V), colorMap := g.colorMap.put vertex color }

/-- `adjVertices.get(start).add(end)`. -/
def addNeighbor (start stop : V) : GraphM V Unit := do
  match (← get).adjVertices.get start with
  | some s => modify fun g => { g with adjVertices := g.adjVertices.put start (s.add stop) }
  | none => throw .nullPointer

def addEdge (start stop : V) : GraphM V Unit := do
  if start = stop then return
  addNeighbor start stop
  addNeighbor stop start

/-- `adjVertices.get(start).remove(end)`. -/
def removeNeighbor (start stop : V) : GraphM V Unit := do
  match (← get).adjVertices.get start with
  | some s => modify fun g => { g with adjVertices := g.adjVertices.put start (s.remove stop) }
  | none => throw .nullPointer

def removeEdge (start stop : V) : GraphM V Unit := do
  removeNeighbor start stop
  removeNeighbor stop start

/-- `colorMap.values().stream().distinct()`, in the order of the iteration. -/
def getColorIds (ord : HashOrder V) (g : ColoredGraph V) : List ℤ :=
  ((ord.iterate g.colorMap.keySet).filterMap g.colorMap.get).dedup

/-! ## `buildGraphWithAdjacency` -/

def removeEdgesFrom (vertex : V) : List V → GraphM V Unit
  | [] => pure ()
  | anotherVertex :: vertices => do
    removeEdge vertex anotherVertex
    removeEdgesFrom vertex vertices

/-- The first loop of `buildGraphWithAdjacency`. -/
def removeEdges (all : List V) : List V → GraphM V Unit
  | [] => pure ()
  | vertex :: vertices => do
    removeEdgesFrom vertex all
    removeEdges all vertices

def addEdgesFrom (adjacentTo : V → V → Bool) (vertex : V) : List V → GraphM V Unit
  | [] => pure ()
  | anotherVertex :: vertices => do
    if adjacentTo vertex anotherVertex then addEdge vertex anotherVertex
    addEdgesFrom adjacentTo vertex vertices

/-- The second loop of `buildGraphWithAdjacency`. -/
def addAdjacent (adjacentTo : V → V → Bool) (all : List V) : List V → GraphM V Unit
  | [] => pure ()
  | vertex :: vertices => do
    addEdgesFrom adjacentTo vertex all
    addAdjacent adjacentTo all vertices

/-- `adjacentTo` is the vertices' own. -/
def buildGraphWithAdjacency (ord : HashOrder V) (adjacentTo : V → V → Bool) : GraphM V Unit := do
  let vertices := ord.iterate (← get).getVertexSet
  removeEdges vertices vertices
  addAdjacent adjacentTo vertices vertices

/-! ## `colorFloodFill` -/

/-- The `for` loop over the neighbours of `source`; the queue it leaves. -/
def floodVisit (orgColor color : ℤ) : List V → List V → GraphM V (List V)
  | [], queue => pure queue
  | adj :: adjs, queue => do
    if (← getVertexColor adj) = orgColor ∧ (← getVertexColor adj) ≠ color then
      setVertexColor adj color
      floodVisit orgColor color adjs (queue ++ [adj])
    else
      floodVisit orgColor color adjs queue

/-- The `while (!queue.isEmpty())` loop, for at most `fuel` rounds. -/
def floodLoop (ord : HashOrder V) (orgColor color : ℤ) : ℕ → List V → GraphM V Unit
  | _, [] => pure ()
  | 0, _ :: _ => throw .outOfFuel
  | fuel + 1, source :: queue => do
    match (← get).getNeighbors source with
    | some s => do
      let queue ← floodVisit orgColor color (ord.iterate s.elems) queue
      floodLoop ord orgColor color fuel queue
    | none => throw .nullPointer

/-- A vertex is queued only when it changes its colour, so the loop has a round for each at most. -/
def colorFloodFill (ord : HashOrder V) (vertex : V) (color : ℤ) : GraphM V Unit := do
  let orgColor ← getVertexColor vertex
  setVertexColor vertex color
  floodLoop ord orgColor color (← get).getNumVertices [vertex]

/-! ## Copies -/

/-- A method called on an object other code does not see yet: when it throws, the object is lost. -/
def call {α : Type} (m : GraphM V α) (g : ColoredGraph V) :
    Except JavaException (α × ColoredGraph V) :=
  match m g with
  | .ok a g => .ok (a, g)
  | .error e _ => .error e

/-- The first loop of the copy constructor. -/
def copyVertices (graph : ColoredGraph V) : List V → GraphM V Unit
  | [] => pure ()
  | vertex :: vertices => do
    match getVertexColor vertex graph with
    | .ok color _ => do
      addVertex vertex color
      copyVertices graph vertices
    | .error e _ => throw e

def addEdges (vertex : V) : List V → GraphM V Unit
  | [] => pure ()
  | adj :: adjs => do
    addEdge vertex adj
    addEdges vertex adjs

/-- The second loop of the copy constructor. -/
def copyEdges (ord : HashOrder V) (graph : ColoredGraph V) : List V → GraphM V Unit
  | [] => pure ()
  | vertex :: vertices => do
    match graph.getNeighbors vertex with
    | some s => do
      addEdges vertex (ord.iterate s.elems)
      copyEdges ord graph vertices
    | none => throw .nullPointer

/-- The copy constructor. -/
def copy (ord : HashOrder V) (graph : ColoredGraph V) : Except JavaException (ColoredGraph V) := do
  let (_, res) ← call (copyVertices graph (ord.iterate graph.getVertexSet)) (new V)
  let (_, res) ← call (copyEdges ord graph (ord.iterate graph.getVertexSet)) res
  return res

/-! ## `pruneGraph` -/

/-- The graphs and counters of `pruneGraph`. -/
structure Pruning (V : Type) where
  cloned : ColoredGraph V
  res : ColoredGraph V
  componentCount : ℤ
  components : List V

/-- The first loop of `pruneGraph`: one vertex stands for each component, and the component gets a
colour of its own, below zero, in the clone. -/
def pruneComponents (ord : HashOrder V) (g : ColoredGraph V) :
    List V → Pruning V → Except JavaException (Pruning V)
  | [], p => pure p
  | vertex :: vertices, p => do
    let (color, _) ← call (getVertexColor vertex) p.cloned
    if color ≥ 0 then
      let (_, cloned) ← call (colorFloodFill ord vertex (p.componentCount - 1)) p.cloned
      let (orgColor, _) ← call (getVertexColor vertex) g
      let (_, res) ← call (addVertex vertex orgColor) p.res
      pruneComponents ord g vertices
        ⟨cloned, res, p.componentCount - 1, p.components ++ [vertex]⟩
    else
      pruneComponents ord g vertices p

/-- `components.get(-cloned.getVertexColor(vertex)-1)`. -/
def componentOf (p : Pruning V) (vertex : V) : Except JavaException V := do
  let (color, _) ← call (getVertexColor vertex) p.cloned
  if 0 ≤ -color - 1 then
    match p.components[(-color - 1).toNat]? with
    | some v => return v
    | none => throw .indexOutOfBounds
  else
    throw .indexOutOfBounds

def pruneEdgesFrom (p : Pruning V) (vertex : V) :
    List V → ColoredGraph V → Except JavaException (ColoredGraph V)
  | [], res => pure res
  | adjVertex :: adjs, res => do
    let newStartVert ← componentOf p vertex
    let newEndVert ← componentOf p adjVertex
    let (_, res) ← call (addEdge newStartVert newEndVert) res
    pruneEdgesFrom p vertex adjs res

/-- The second loop of `pruneGraph`. -/
def pruneEdges (ord : HashOrder V) (g : ColoredGraph V) (p : Pruning V) :
    List V → ColoredGraph V → Except JavaException (ColoredGraph V)
  | [], res => pure res
  | vertex :: vertices, res => do
    match g.getNeighbors vertex with
    | some s =>
      let res ← pruneEdgesFrom p vertex (ord.iterate s.elems) res
      pruneEdges ord g p vertices res
    | none => throw .nullPointer

def pruneGraph (ord : HashOrder V) (g : ColoredGraph V) :
    Except JavaException (ColoredGraph V) := do
  let cloned ← copy ord g
  let p ← pruneComponents ord g (ord.iterate cloned.getVertexSet) ⟨cloned, new V, 0, []⟩
  pruneEdges ord g p (ord.iterate g.getVertexSet) p.res

/-! ## `pruneGraph` as a method

The same loops, run on the graph they are called on: what they read of `this` they read from the
state, and what they do to it would show there.
-/

def pruneComponentsOn (ord : HashOrder V) : List V → Pruning V → GraphM V (Pruning V)
  | [], p => pure p
  | vertex :: vertices, p => do
    let (color, _) ← MonadExcept.ofExcept (call (getVertexColor vertex) p.cloned)
    if color ≥ 0 then
      let (_, cloned) ← MonadExcept.ofExcept
        (call (colorFloodFill ord vertex (p.componentCount - 1)) p.cloned)
      let orgColor ← getVertexColor vertex
      let (_, res) ← MonadExcept.ofExcept (call (addVertex vertex orgColor) p.res)
      pruneComponentsOn ord vertices
        ⟨cloned, res, p.componentCount - 1, p.components ++ [vertex]⟩
    else
      pruneComponentsOn ord vertices p

def pruneEdgesOn (ord : HashOrder V) (p : Pruning V) :
    List V → ColoredGraph V → GraphM V (ColoredGraph V)
  | [], res => pure res
  | vertex :: vertices, res => do
    match (← get).getNeighbors vertex with
    | some s =>
      let res ← MonadExcept.ofExcept (pruneEdgesFrom p vertex (ord.iterate s.elems) res)
      pruneEdgesOn ord p vertices res
    | none => throw .nullPointer

def pruneGraphOn (ord : HashOrder V) : GraphM V (ColoredGraph V) := do
  let cloned ← MonadExcept.ofExcept (copy ord (← get))
  let p ← pruneComponentsOn ord (ord.iterate cloned.getVertexSet) ⟨cloned, new V, 0, []⟩
  pruneEdgesOn ord p (ord.iterate (← get).getVertexSet) p.res

end ColoredGraph

end UnionCollegeCode.Kami3
