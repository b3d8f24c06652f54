import UnionCollegeCode.Kami3.Grid
import UnionCollegeCode.Kami3.LevelHint

/-!
# `LevelBuilder.java`, `RectangleGridLevelBuilder.java`

A builder starts from a grid of colour 0 and paints its cells. Every grid of known colours can be
painted so (`exists_painted`). The views of a builder are left out.
-/

set_option autoImplicit false

namespace UnionCollegeCode.Kami3

open Lib.EState Lib.JavaCollections ColoredGraph

structure RectangleGridLevelBuilder where
  graph : ColoredGraph RectangleGridCell
  curColor : Color
  numRows : ℤ
  numCols : ℤ

namespace RectangleGridLevelBuilder

def addVertices : List RectangleGridCell → GraphM RectangleGridCell Unit
  | [] => pure ()
  | cell :: cells => do
    addVertex cell 0
    addVertices cells

/-- The constructor. -/
def new (ord : HashOrder RectangleGridCell) (colorOrd : HashOrder ℤ) (repo : ColorRepository)
    (rows cols : ℤ) : Except JavaException RectangleGridLevelBuilder := do
  match getColors colorOrd repo with
  | [] => throw .indexOutOfBounds
  | curColor :: _ =>
    let (_, graph) ← call (addVertices (cells rows cols)) (ColoredGraph.new _)
    let (_, graph) ← call (buildGraphWithAdjacency ord RectangleGridCell.adjacentTo) graph
    return ⟨graph, curColor, rows, cols⟩

def switchColor (color : Color) (b : RectangleGridLevelBuilder) : RectangleGridLevelBuilder :=
  { b with curColor := color }

def setColor (color : Color) (vertex : RectangleGridCell) (b : RectangleGridLevelBuilder) :
    Except JavaException RectangleGridLevelBuilder := do
  let (_, graph) ← call (setVertexColor vertex color.colorId) b.graph
  return { b with graph }

/-- Cells painted one after the other. -/
def paint (color : RectangleGridCell → Color) :
    List RectangleGridCell → RectangleGridLevelBuilder → Except JavaException RectangleGridLevelBuilder
  | [], b => return b
  | cell :: cells, b => do
    let b ← b.setColor (color cell) cell
    paint color cells b

/-! ## A painted builder is a grid -/

theorem addVertices_ok (cs : List RectangleGridCell) (hnd : cs.Nodup) :
    ∀ g : ColoredGraph RectangleGridCell, g.WF → (∀ c ∈ cs, c ∉ g) →
      ∃ g', addVertices cs g = .ok () g' ∧ g'.WF ∧ ∀ c, c ∈ g' ↔ c ∈ cs ∨ c ∈ g := by
  induction cs with
  | nil => exact fun g hg _ => ⟨g, rfl, hg, by simp⟩
  | cons cell cs ih =>
    intro g hg hnew
    obtain ⟨hcell, hnd⟩ := List.nodup_cons.mp hnd
    obtain ⟨hn, hnew⟩ := List.forall_mem_cons.mp hnew
    obtain ⟨g', hrun, hg', hmem⟩ := ih hnd (g.withVertex cell 0) (hg.withVertex 0 hn) fun c hc => by
      rw [mem_withVertex, not_or]
      exact ⟨fun he => hcell (he ▸ hc), hnew c hc⟩
    refine ⟨g', (bind_ok (addVertex_ok hn (Int.le_refl 0))).trans hrun, hg', fun c => ?_⟩
    rw [hmem, mem_withVertex, List.mem_cons]
    tauto

theorem new_ok (ord : HashOrder RectangleGridCell) (colorOrd : HashOrder ℤ) (repo : ColorRepository)
    (hcolors : getColors colorOrd repo ≠ []) (rows cols : ℤ) :
    ∃ b, new ord colorOrd repo rows cols = .ok b ∧ IsGrid rows cols b.graph ∧
      b.numRows = rows ∧ b.numCols = cols := by
  have hempty : ∀ c, c ∉ ColoredGraph.new RectangleGridCell := fun c => HashMap.not_mem_empty
  obtain ⟨curColor, colors, hc⟩ := List.exists_cons_of_ne_nil hcolors
  obtain ⟨g, hrun, hg, hmem⟩ := addVertices_ok (cells rows cols) (nodup_cells rows cols) (.new _)
    wf_new fun c _ => hempty c
  obtain ⟨g', hrun', hwf, h⟩ := buildGraphWithAdjacency_spec ord hg
    RectangleGridCell.adjacentTo_symm RectangleGridCell.adjacentTo_irrefl
  refine ⟨⟨g', curColor, rows, cols⟩, ?_, ⟨hwf, fun c => ?_, fun c c' => ?_⟩, rfl, rfl⟩
  · simp only [new, hc, call_ok hrun, call_ok hrun', bind, Except.bind, pure, Except.pure]
  · exact h.mem.trans ((hmem c).trans (or_iff_left (hempty c)))
  · rw [h.adj, h.mem, h.mem]

theorem paint_ok {rows cols : ℤ} (color : RectangleGridCell → Color) (cs : List RectangleGridCell) :
    ∀ b : RectangleGridLevelBuilder, IsGrid rows cols b.graph → (∀ c ∈ cs, c ∈ b.graph) →
      ∃ b', paint color cs b = .ok b' ∧ IsGrid rows cols b'.graph ∧ b'.numRows = b.numRows ∧
        b'.numCols = b.numCols ∧
        ∀ c, b'.graph.colorAt c = if c ∈ cs then some ((color c).colorId : ℤ)
          else b.graph.colorAt c := by
  induction cs with
  | nil => exact fun b hb _ => ⟨b, rfl, hb, rfl, rfl, by simp⟩
  | cons cell cs ih =>
    intro b hb hmem
    obtain ⟨hc, hmem⟩ := List.forall_mem_cons.mp hmem
    have hshape := hb.wf.sameShape_withColor ((color cell).colorId : ℤ) hc
    obtain ⟨b', hrun, hb', hrows, hcols, hcol⟩ := ih
      { b with graph := b.graph.withColor cell (color cell).colorId } (hb.of_sameShape hshape) hmem
    refine ⟨b', ?_, hb', hrows, hcols, fun c => ?_⟩
    · rw [paint, setColor, call_ok (setVertexColor_ok hc)]
      exact hrun
    · rw [hcol]
      by_cases hcs : c ∈ cs
      · rw [if_pos hcs, if_pos (List.mem_cons_of_mem cell hcs)]
      · rw [if_neg hcs, colorAt_withColor]
        by_cases heq : c = cell
        · rw [if_pos heq, heq, if_pos List.mem_cons_self]
        · rw [if_neg heq, if_neg (by simp [hcs, heq])]

/-- **Every grid of known colours can be built.** -/
theorem exists_painted (ord : HashOrder RectangleGridCell) (colorOrd : HashOrder ℤ)
    (repo : ColorRepository) (hcolors : getColors colorOrd repo ≠ []) (rows cols : ℤ)
    (color : RectangleGridCell → Color) :
    ∃ b, (new ord colorOrd repo rows cols >>= paint color (cells rows cols)) = .ok b ∧
      IsGrid rows cols b.graph ∧ b.numRows = rows ∧ b.numCols = cols ∧
      ∀ c, b.graph.colorAt c = if c ∈ cells rows cols then some ((color c).colorId : ℤ) else none := by
  obtain ⟨b, hnew, hgrid, hrows, hcols⟩ := new_ok ord colorOrd repo hcolors rows cols
  obtain ⟨b', hpaint, hgrid', hrows', hcols', hcol⟩ :=
    paint_ok color (cells rows cols) b hgrid fun c hc => (hgrid.mem c).mpr hc
  refine ⟨b', ?_, hgrid', hrows'.trans hrows, hcols'.trans hcols, fun c => ?_⟩
  · rw [hnew]
    exact hpaint
  · rw [hcol]
    split
    · rfl
    · rename_i hc
      refine HashMap.get_eq_none.mpr fun hmem => hc ((hgrid.mem c).mp ((hgrid.wf.colored c).mpr hmem))

end RectangleGridLevelBuilder

end UnionCollegeCode.Kami3
