import UnionCollegeCode.Kami3.Grid

/-!
# The calls that change a `ColoredGraph`

Whoever has a graph may call its methods with any vertices at all, in the graph or not, and go on with
the graph an exception leaves behind. Every call keeps a well-formed graph as long as `addEdge` is not
given an end that is not there: by the time that throws, the start has its new neighbour.
-/

set_option autoImplicit false

namespace UnionCollegeCode.Kami3

open Lib.EState Lib.JavaCollections

inductive GraphCall (V : Type)
  | addVertex (vertex : V) (color : ℤ)
  | addEdge (start stop : V)
  | removeEdge (start stop : V)
  | setVertexColor (vertex : V) (color : ℤ)
  | buildGraphWithAdjacency
  | colorFloodFill (vertex : V) (color : ℤ)

namespace GraphCall

open ColoredGraph

variable {V : Type} [DecidableEq V] (ord : HashOrder V) (adjacentTo : V → V → Bool)

def run : GraphCall V → GraphM V Unit
  | .addVertex vertex color => ColoredGraph.addVertex vertex color
  | .addEdge start stop => ColoredGraph.addEdge start stop
  | .removeEdge start stop => ColoredGraph.removeEdge start stop
  | .setVertexColor vertex color => ColoredGraph.setVertexColor vertex color
  | .buildGraphWithAdjacency => ColoredGraph.buildGraphWithAdjacency ord adjacentTo
  | .colorFloodFill vertex color => ColoredGraph.colorFloodFill ord vertex color

/-- The graph a call leaves, whether it throws or not. -/
def after (g : ColoredGraph V) (c : GraphCall V) : ColoredGraph V :=
  match c.run ord adjacentTo g with
  | .ok () g' => g'
  | .error _ g' => g'

def Atomic (g : ColoredGraph V) (c : GraphCall V) : Prop :=
  ∀ e g', c.run ord adjacentTo g = .error e g' → g' = g

/-- What every state of a run is to be: well formed, with vertices for neighbours. -/
def Sound (g : ColoredGraph V) : Prop := g.WF ∧ ∀ v w, g.Adj v w → w ∈ g

/-- Every state of a run is well formed, and a call that throws changes nothing. -/
def RunSound : List (GraphCall V) → ColoredGraph V → Prop
  | [], g => Sound g
  | c :: cs, g => Sound g ∧ c.Atomic ord adjacentTo g ∧ RunSound cs (c.after ord adjacentTo g)

/-- An edge from a vertex of the graph has its other end in the graph. -/
def Fits (g : ColoredGraph V) : GraphCall V → Prop
  | .addEdge start stop => start ∈ g → stop = start ∨ stop ∈ g
  | _ => True

/-- Every call of a run fits the graph it finds. -/
def RunFits : List (GraphCall V) → ColoredGraph V → Prop
  | [], _ => True
  | c :: cs, g => c.Fits g ∧ RunFits cs (c.after ord adjacentTo g)

/-! ## Calls that throw -/

variable {ord adjacentTo} {g : ColoredGraph V} {v w : V} {c : ℤ}

omit [DecidableEq V] in
theorem sound_iff : Sound g ↔ g.WF := and_iff_left_of_imp fun hg _ _ => hg.mem_right

theorem addVertex_error (h : v ∈ g ∨ c < 0) : ∃ e, ColoredGraph.addVertex v c g = .error e g := by
  by_cases hv : v ∈ g
  · refine ⟨.illegalArgument "graph already has this vertex", ?_⟩
    simp [ColoredGraph.addVertex, bind, EStateM.bind, get_ok, hv, throw_error]
  · have hc := h.resolve_left hv
    refine ⟨.illegalArgument "invalid color", ?_⟩
    simp [ColoredGraph.addVertex, bind, EStateM.bind, get_ok, hv, hc, throw_error]

theorem setVertexColor_error (h : v ∉ g) :
    ColoredGraph.setVertexColor v c g =
      .error (.illegalArgument "the vertex is not in the graph") g := by
  simp [ColoredGraph.setVertexColor, bind, EStateM.bind, get_ok, h, throw_error]

theorem addNeighbor_error (h : v ∉ g) : addNeighbor v w g = .error .nullPointer g := by
  have hnull : g.adjVertices.get v = none := HashMap.get_eq_none.mpr h
  simp [addNeighbor, bind, EStateM.bind, get_ok, hnull, throw_error]

theorem addEdge_halves (h : v ≠ w) :
    ColoredGraph.addEdge v w g = (addNeighbor v w >>= fun _ => addNeighbor w v) g :=
  congrFun (if_neg h) g

theorem removeNeighbor_error (h : v ∉ g) : removeNeighbor v w g = .error .nullPointer g := by
  have hnull : g.adjVertices.get v = none := HashMap.get_eq_none.mpr h
  simp [removeNeighbor, bind, EStateM.bind, get_ok, hnull, throw_error]

/-- Removing a neighbour that is none changes nothing. -/
theorem removeNeighbor_self (hv : v ∈ g) (h : ¬ g.Adj v w) : removeNeighbor v w g = .ok () g := by
  obtain ⟨s, hs⟩ := HashMap.mem_iff.mp (mem_def.mp hv)
  have hsame : s.remove w = s := HashSet.remove_of_not_mem fun hw => h ⟨s, hs, hw⟩
  simp [removeNeighbor, bind, EStateM.bind, get_ok, hs, modify_ok, hsame, HashMap.put_self hs]

/-! ## One call -/

/-- A call on a well-formed graph either gives a well-formed one, or throws and changes nothing. -/
def Keeps (ord : HashOrder V) (adjacentTo : V → V → Bool) (g : ColoredGraph V) (c : GraphCall V) :
    Prop :=
  (∃ g', c.run ord adjacentTo g = .ok () g' ∧ g'.WF) ∨ ∃ e, c.run ord adjacentTo g = .error e g

theorem Keeps.sound {c : GraphCall V} (h : c.Keeps ord adjacentTo g) (hg : g.WF) :
    c.Atomic ord adjacentTo g ∧ (c.after ord adjacentTo g).WF := by
  unfold Atomic after
  obtain ⟨g', hrun, hwf⟩ | ⟨e, hrun⟩ := h
  · rw [hrun]
    exact ⟨fun _ _ h => (nomatch h), hwf⟩
  · rw [hrun]
    refine ⟨fun _ _ h => ?_, hg⟩
    cases h
    rfl

theorem keeps_addVertex (hg : g.WF) : (GraphCall.addVertex v c).Keeps ord adjacentTo g := by
  by_cases h : v ∈ g ∨ c < 0
  · exact .inr (addVertex_error h)
  · rw [not_or, Int.not_lt] at h
    exact .inl ⟨_, addVertex_ok h.1 h.2, hg.withVertex c h.1⟩

theorem keeps_setVertexColor (hg : g.WF) :
    (GraphCall.setVertexColor v c).Keeps ord adjacentTo g := by
  by_cases hv : v ∈ g
  · exact .inl ⟨_, setVertexColor_ok hv, hg.withColor c hv⟩
  · exact .inr ⟨_, setVertexColor_error hv⟩

theorem keeps_removeEdge (hg : g.WF) : (GraphCall.removeEdge v w).Keeps ord adjacentTo g := by
  by_cases hv : v ∈ g
  · by_cases hw : w ∈ g
    · have hsame : Rewired g g g.Adj := ⟨rfl, rfl, fun _ _ => .rfl⟩
      obtain ⟨g', hrun, h⟩ := removeEdge_spec hsame hv hw
      refine .inl ⟨g', hrun, h.wf hg (fun a b hab => ?_) fun a haa => hg.irrefl a haa.1⟩
      exact ⟨hg.symm a b hab.1, by tauto, by tauto⟩
    · -- The first half finds nothing to remove, and the second throws.
      have hfirst := removeNeighbor_self (w := w) hv fun hadj => hw (hg.mem_right hadj)
      exact .inr ⟨_, (bind_ok hfirst).trans (removeNeighbor_error hw)⟩
  · exact .inr ⟨_, bind_error (removeNeighbor_error hv)⟩

theorem keeps_colorFloodFill (hg : g.WF) :
    (GraphCall.colorFloodFill v c).Keeps ord adjacentTo g := by
  by_cases hv : v ∈ g
  · obtain ⟨g', hrun, hshape, -⟩ := colorFloodFill_spec ord hg hv c
    exact .inl ⟨g', hrun, hshape.wf hg⟩
  · exact .inr ⟨_, colorFloodFill_of_not_mem ord hv c⟩

theorem keeps_addEdge (hg : g.WF) (h : (GraphCall.addEdge v w).Fits g) :
    (GraphCall.addEdge v w).Keeps ord adjacentTo g := by
  have hloop {u : V} : ColoredGraph.addEdge u u g = .ok () g := by
    simp [ColoredGraph.addEdge, pure, EStateM.pure]
  by_cases hv : v ∈ g
  · obtain rfl | hw := h hv
    · exact .inl ⟨g, hloop, hg⟩
    · obtain ⟨g', hrun, hwf, -⟩ := addEdge_spec hg hv hw
      exact .inl ⟨g', hrun, hwf⟩
  · by_cases hvw : v = w
    · subst hvw
      exact .inl ⟨g, hloop, hg⟩
    · exact .inr ⟨_, (addEdge_halves hvw).trans (bind_error (addNeighbor_error hv))⟩

/-- **A call that fits keeps a graph well formed.** -/
theorem keeps_of_fits (hg : g.WF) {c : GraphCall V} (h : c.Fits g) : c.Keeps ord adjacentTo g := by
  cases c with
  | addVertex v c => exact keeps_addVertex hg
  | addEdge v w => exact keeps_addEdge hg h
  | removeEdge v w => exact keeps_removeEdge hg
  | setVertexColor v c => exact keeps_setVertexColor hg
  | buildGraphWithAdjacency =>
    obtain ⟨g', hrun, hwf, -⟩ := buildGraphWithAdjacency_rewires ord adjacentTo hg
    exact .inl ⟨g', hrun, hwf⟩
  | colorFloodFill v c => exact keeps_colorFloodFill hg

/-- An edge to a vertex that is not there is half made when `addEdge` throws. -/
theorem not_atomic_of_not_fits (hg : g.WF) {c : GraphCall V} (h : ¬ c.Fits g) :
    ¬ c.Atomic ord adjacentTo g := by
  cases c with
  | addEdge v w =>
    simp only [Fits, Classical.not_imp, not_or] at h
    obtain ⟨hv, hwv, hw⟩ := h
    obtain ⟨g₁, hrun₁, -, hkeys, hadj⟩ := addNeighbor_spec (w := w) hv
    have hw₁ : w ∉ g₁ := by
      rw [mem_def, HashMap.mem_def, hkeys]
      exact hw
    have hrun : (GraphCall.addEdge v w).run ord adjacentTo g = .error .nullPointer g₁ :=
      (addEdge_halves (Ne.symm hwv)).trans ((bind_ok hrun₁).trans (addNeighbor_error hw₁))
    intro hatomic
    have hsame : g₁ = g := hatomic _ _ hrun
    have hvw : g₁.Adj v w := (hadj v w).mpr (.inr ⟨rfl, rfl⟩)
    exact hw (hg.mem_right (hsame ▸ hvw))
  | _ => exact absurd trivial h

/-! ## Runs -/

theorem runSound_iff_runFits (cs : List (GraphCall V)) : ∀ {g : ColoredGraph V}, g.WF →
    (RunSound ord adjacentTo cs g ↔ RunFits ord adjacentTo cs g) := by
  induction cs with
  | nil =>
    intro g hg
    exact iff_of_true (sound_iff.mpr hg) trivial
  | cons c cs ih =>
    intro g hg
    by_cases hfits : c.Fits g
    · have hkeeps : c.Keeps ord adjacentTo g := keeps_of_fits hg hfits
      obtain ⟨hatomic, hwf⟩ := hkeeps.sound hg
      exact ⟨fun h => ⟨hfits, (ih hwf).mp h.2.2⟩,
        fun h => ⟨sound_iff.mpr hg, hatomic, (ih hwf).mpr h.2⟩⟩
    · exact iff_of_false (fun h => not_atomic_of_not_fits hg hfits h.2.1) fun h => hfits h.1

/-- **A graph stays well formed, and a call that throws leaves it alone, in exactly the runs where no
edge goes from a vertex of the graph to one that is not there.** -/
theorem runSound_iff (ord : HashOrder V) (adjacentTo : V → V → Bool) (cs : List (GraphCall V)) :
    RunSound ord adjacentTo cs (.new V) ↔ RunFits ord adjacentTo cs (.new V) :=
  runSound_iff_runFits cs wf_new

/-- `addEdge` to a vertex that was never added. -/
theorem dangling_edge :
    ¬ RunSound (.insertion Bool) (fun _ _ => true) [.addVertex false 0, .addEdge false true]
      (.new Bool) := by
  rintro ⟨-, -, -, hatomic, -⟩
  exact not_atomic_of_not_fits (wf_new.withVertex 0 HashMap.not_mem_empty)
    (c := .addEdge false true) (fun hfits => absurd (hfits (by decide)) (by decide)) hatomic

end GraphCall

end UnionCollegeCode.Kami3
