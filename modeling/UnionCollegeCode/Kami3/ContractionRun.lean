import Mathlib.Logic.Equiv.Defs
import UnionCollegeCode.Kami3.Contraction

/-!
# Moves on a graph and on its contraction

A move floods the component of a vertex of the graph. On the contraction it recolours the vertex that
stands for the component and prunes again, which is what the solver does. `Contracted` ties the two
sides together: every move keeps it, and two contractions of one graph are isomorphic.
-/

set_option autoImplicit false

namespace UnionCollegeCode.Kami3

open Lib.EState Lib.JavaCollections Lib.Coloring

namespace ColoredGraph

variable {V : Type} {g g' p p' q : ColoredGraph V}

/-- A bijection of the vertices that keeps the edges and the colours. -/
structure ColoredIso (p q : ColoredGraph V) where
  vertices : {v // v ∈ p} ≃ {v // v ∈ q}
  adj : ∀ a b, q.Adj (vertices a) (vertices b) ↔ p.Adj a b
  color : ∀ a, q.colorAt (vertices a) = p.colorAt a

def Isomorphic (p q : ColoredGraph V) : Prop := Nonempty (ColoredIso p q)

/-- `r` is the vertex of `p` that stands for the component of `v` in `g`. -/
structure StandsFor (g p : ColoredGraph V) (r v : V) : Prop where
  mem : r ∈ p
  joined : g.Joined r v

/-- A move, with the orders in which the calls on either side meet their hash sets. -/
structure FillMove (V : Type) where
  vertex : V
  color : ℤ
  fillOrder : HashOrder V
  pruneOrder : HashOrder V

/-- Two lines of `ColoredGraphSolverTask.call()`: the vertex takes the colour, and the next graph is the
pruned one. -/
def recolorAndPrune [DecidableEq V] (ord : HashOrder V) (vertex : V) (color : ℤ) :
    GraphM V (ColoredGraph V) := do
  setVertexColor vertex color
  pruneGraphOn ord

/-- One move on both sides. -/
structure MoveStep [DecidableEq V] (g p : ColoredGraph V) (m : FillMove V) (g' p' : ColoredGraph V) :
    Prop where
  filled : colorFloodFill m.fillOrder m.vertex m.color g = .ok () g'
  contracted : ∃ r p₁, StandsFor g p r m.vertex ∧ recolorAndPrune m.pruneOrder r m.color p = .ok p' p₁

inductive Moves [DecidableEq V] :
    ColoredGraph V → ColoredGraph V → List (FillMove V) → ColoredGraph V → ColoredGraph V → Prop
  | nil (g p : ColoredGraph V) : Moves g p [] g p
  | cons {g p g₁ p₁ g' p' : ColoredGraph V} {m : FillMove V} {ms : List (FillMove V)}
      (step : MoveStep g p m g₁ p₁) (rest : Moves g₁ p₁ ms g' p') : Moves g p (m :: ms) g' p'

/-- `p` is a contraction of `g`. -/
structure Contracted (g p : ColoredGraph V) : Prop where
  wf : g.WF
  nonNeg : g.NonNeg
  represents : Represents g g.colorAt p

/-! ## Two contractions of one graph -/

section Iso

theorem Represents.exists_same (h : Represents g g.colorAt p) (h' : Represents g g.colorAt q) {r : V}
    (hr : r ∈ p) : ∃ r', r' ∈ q ∧ g.Joined r' r := h'.exists_rep r (h.sub r hr)

/-- The vertices of the two that stand for one component. -/
noncomputable def Represents.vertices (h : Represents g g.colorAt p)
    (h' : Represents g g.colorAt q) : {v // v ∈ p} ≃ {v // v ∈ q} where
  toFun a := ⟨_, (h.exists_same h' a.2).choose_spec.1⟩
  invFun b := ⟨_, (h'.exists_same h b.2).choose_spec.1⟩
  left_inv a := by
    obtain ⟨hb, hba⟩ := (h.exists_same h' a.2).choose_spec
    obtain ⟨hc, hcb⟩ := (h'.exists_same h hb).choose_spec
    exact Subtype.ext (h.rep_unique _ _ hc a.2 (hcb.trans hba))
  right_inv b := by
    obtain ⟨ha, hab⟩ := (h'.exists_same h b.2).choose_spec
    obtain ⟨hc, hca⟩ := (h.exists_same h' ha).choose_spec
    exact Subtype.ext (h'.rep_unique _ _ hc b.2 (hca.trans hab))

theorem Represents.joined_vertices (h : Represents g g.colorAt p)
    (h' : Represents g g.colorAt q) (a : {v // v ∈ p}) : g.Joined (h.vertices h' a) a :=
  (h.exists_same h' a.2).choose_spec.2

theorem Represents.isomorphic (hg : g.WF) (h : Represents g g.colorAt p)
    (h' : Represents g g.colorAt q) : Isomorphic p q := by
  have hjoined := h.joined_vertices h'
  refine ⟨⟨h.vertices h', ?_, ?_⟩⟩
  · intro a b
    rw [h.adj, h'.adj]
    have hne : (h.vertices h' a : V) ≠ h.vertices h' b ↔ (a : V) ≠ b := by
      rw [ne_eq, ne_eq, ← Subtype.ext_iff, ← Subtype.ext_iff, (h.vertices h').injective.eq_iff]
    constructor
    · rintro ⟨hab, -, -, u, w, hau, hbw, huw⟩
      exact ⟨hne.mp hab, a.2, b.2, u, w, (hg.joined_symm (hjoined a)).trans hau,
        (hg.joined_symm (hjoined b)).trans hbw, huw⟩
    · rintro ⟨hab, -, -, u, w, hau, hbw, huw⟩
      exact ⟨hne.mpr hab, (h.vertices h' a).2, (h.vertices h' b).2, u, w, (hjoined a).trans hau,
        (hjoined b).trans hbw, huw⟩
  · intro a
    rw [h'.color _ (h.vertices h' a).2, h.color _ a.2]
    exact (hjoined a).color_eq

theorem Contracted.exists_standsFor (h : Contracted g p) {v : V} (hv : v ∈ g) :
    ∃! r, StandsFor g p r v := by
  obtain ⟨r, hr, hrv⟩ := h.represents.exists_rep v hv
  refine ⟨r, ⟨hr, hrv⟩, fun r' hr' => ?_⟩
  exact h.represents.rep_unique r' r hr'.mem hr (hr'.joined.trans (h.wf.joined_symm hrv))

end Iso

/-! ## Moves -/

variable [DecidableEq V]

theorem pruneGraphOn_contracted (ord : HashOrder V) (hg : g.WF) (hn : g.NonNeg) :
    ∃ p, pruneGraphOn ord g = .ok p g ∧ Contracted g p := by
  obtain ⟨p, hrun, hp⟩ := pruneGraph_spec ord hg hn
  exact ⟨p, pruneGraphOn_ok hrun, hg, hn, hp⟩

/-- The graph a move leads to, and its contraction. -/
theorem Contracted.move (h : Contracted g p) {m : FillMove V} (hv : m.vertex ∈ g) (hc : 0 ≤ m.color)
    {r : V} (hr : StandsFor g p r m.vertex) :
    ∃ g' p' p₁, colorFloodFill m.fillOrder m.vertex m.color g = .ok () g' ∧
      recolorAndPrune m.pruneOrder r m.color p = .ok p' p₁ ∧ SameShape g g' ∧ Contracted g' p' := by
  obtain ⟨hg, hn, hp⟩ := h
  obtain ⟨g', hfill, hshape, hcol⟩ := colorFloodFill_spec m.fillOrder hg hv m.color
  obtain ⟨p', hprune, hp'⟩ := hp.flood m.pruneOrder hg (hp.nonNeg hn) hr.mem hc
  have hadj : g'.Adj = g.Adj := by
    funext u w
    exact propext hshape.adj_iff
  have hcol' : g'.colorAt = flood g.Adj g.colorAt r (some m.color) :=
    hcol.trans (flood_congr hg.symm (hg.joined_symm hr.joined))
  refine ⟨g', p', p.withColor r m.color, hfill, ?_, hshape, hshape.wf hg, ?_, ?_⟩
  · rw [recolorAndPrune, bind_ok (setVertexColor_ok hr.mem)]
    exact pruneGraphOn_ok hprune
  · intro v c hvc
    rw [hcol] at hvc
    by_cases hjoin : g.Joined m.vertex v
    · rw [flood_of_mono hjoin] at hvc
      cases hvc
      exact hc
    · rw [flood_of_not_mono hjoin] at hvc
      exact hn v c hvc
  · rw [← hcol'] at hp'
    refine ⟨hp'.wf, fun r hr => hshape.mem.mpr (hp'.sub r hr), fun v hv => ?_, ?_, hp'.color, ?_⟩
    · rw [hadj]
      exact hp'.exists_rep v (hshape.mem.mp hv)
    · rw [hadj]
      exact hp'.rep_unique
    · rw [hadj]
      exact hp'.adj

theorem Contracted.step (h : Contracted g p) {m : FillMove V} (hv : m.vertex ∈ g) (hc : 0 ≤ m.color)
    (hstep : MoveStep g p m g' p') : SameShape g g' ∧ Contracted g' p' := by
  obtain ⟨hfill, r, p₁, hr, hprune⟩ := hstep
  obtain ⟨g₂, p₂, p₃, hfill', hprune', hshape, hcon⟩ := h.move hv hc hr
  rw [hfill] at hfill'
  rw [hprune] at hprune'
  cases hfill'
  cases hprune'
  exact ⟨hshape, hcon⟩

theorem Contracted.run (ms : List (FillMove V)) : ∀ {g p : ColoredGraph V}, Contracted g p →
    (∀ m ∈ ms, m.vertex ∈ g ∧ 0 ≤ m.color) →
      (∃ g' p', Moves g p ms g' p') ∧ ∀ g' p', Moves g p ms g' p' → Contracted g' p' := by
  induction ms with
  | nil =>
    intro g p h _
    refine ⟨⟨g, p, .nil g p⟩, fun g' p' hmoves => ?_⟩
    cases hmoves
    exact h
  | cons m ms ih =>
    intro g p h hms
    obtain ⟨⟨hv, hc⟩, hms⟩ := List.forall_mem_cons.mp hms
    obtain ⟨r, hr, -⟩ := h.exists_standsFor hv
    obtain ⟨g₁, p₁, p₂, hfill, hprune, hshape, h₁⟩ := h.move hv hc hr
    have hrest {g₁ : ColoredGraph V} (hshape : SameShape g g₁) :
        ∀ m ∈ ms, m.vertex ∈ g₁ ∧ 0 ≤ m.color :=
      fun m hm => ⟨hshape.mem.mpr (hms m hm).1, (hms m hm).2⟩
    obtain ⟨⟨g', p', hmoves⟩, -⟩ := ih h₁ (hrest hshape)
    refine ⟨⟨g', p', .cons ⟨hfill, r, p₂, hr, hprune⟩ hmoves⟩, fun g' p' hmoves => ?_⟩
    cases hmoves with
    | cons hstep hmoves =>
      obtain ⟨hshape, hcon⟩ := h.step hv hc hstep
      exact (ih hcon (hrest hshape)).2 g' p' hmoves

/-- **Contraction commutes with flood fill.** Whatever the moves are, pruning the filled graph gives the
graph that recolouring and pruning lead to on the other side. -/
theorem pruneGraph_moves (ord : HashOrder V) (hg : g.WF) (hn : g.NonNeg) :
    ∃ p, pruneGraphOn ord g = .ok p g ∧ ∀ ms : List (FillMove V),
      (∀ m ∈ ms, m.vertex ∈ g ∧ 0 ≤ m.color) →
        (∃ g' p', Moves g p ms g' p') ∧ ∀ g' p', Moves g p ms g' p' →
          (∀ v, v ∈ g' → ∃! r, StandsFor g' p' r v) ∧
            ∀ ord' : HashOrder V, ∃ q, pruneGraphOn ord' g' = .ok q g' ∧ Isomorphic q p' := by
  obtain ⟨p, hrun, hp⟩ := pruneGraphOn_contracted ord hg hn
  refine ⟨p, hrun, fun ms hms => ?_⟩
  obtain ⟨hexists, hall⟩ := hp.run ms hms
  refine ⟨hexists, fun g' p' hmoves => ?_⟩
  have hcon := hall g' p' hmoves
  refine ⟨fun v hv => hcon.exists_standsFor hv, fun ord' => ?_⟩
  obtain ⟨q, hq, hqcon⟩ := pruneGraphOn_contracted ord' hcon.wf hcon.nonNeg
  exact ⟨q, hq, hqcon.represents.isomorphic hcon.wf hcon.represents⟩

/-- The last of the three vertices takes the colour of the others. -/
theorem pruneGraph_moves_row : ∃ p g' p' q, pruneGraphOn (.insertion _) rowGraph = .ok p rowGraph ∧
    Moves rowGraph p [⟨2, 0, .insertion _, .insertion _⟩] g' p' ∧
      pruneGraphOn (.insertion _) g' = .ok q g' ∧ Isomorphic q p' := by
  obtain ⟨p, hrun, hall⟩ := pruneGraph_moves (.insertion _) rowGraph_wf rowGraph_nonNeg
  obtain ⟨⟨g', p', hmoves⟩, hend⟩ := hall [⟨2, 0, .insertion _, .insertion _⟩] (by decide)
  obtain ⟨q, hq, hiso⟩ := (hend g' p' hmoves).2 (.insertion _)
  exact ⟨p, g', p', q, hrun, hmoves, hq, hiso⟩

end ColoredGraph

end UnionCollegeCode.Kami3
