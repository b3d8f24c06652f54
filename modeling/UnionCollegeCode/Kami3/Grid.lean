import UnionCollegeCode.Kami3.FloodFill
import UnionCollegeCode.Kami3.Level

/-!
# Rectangular grids

`buildGraphWithAdjacency` leaves exactly the edges between adjacent vertices. On the cells of a
rectangle that is the grid `IsGrid` describes, and a grid is connected.
-/

set_option autoImplicit false

namespace UnionCollegeCode.Kami3

open Lib.EState Lib.JavaCollections

namespace ColoredGraph

/-! ## `buildGraphWithAdjacency` -/

variable {V : Type} {g g' : ColoredGraph V}

/-- `g'` has the vertices and colours of `g`, and the edges `R`. -/
structure Rewired (g g' : ColoredGraph V) (R : V → V → Prop) : Prop where
  color : g'.colorMap = g.colorMap
  keys : g'.adjVertices.keySet = g.adjVertices.keySet
  adj : ∀ a b, g'.Adj a b ↔ R a b

variable {R : V → V → Prop}

theorem Rewired.mem (h : Rewired g g' R) {v : V} : v ∈ g' ↔ v ∈ g := by
  rw [mem_def, mem_def, HashMap.mem_def, HashMap.mem_def, h.keys]

theorem Rewired.congr (h : Rewired g g' R) {R' : V → V → Prop} (hR : ∀ a b, R a b ↔ R' a b) :
    Rewired g g' R' :=
  ⟨h.color, h.keys, fun a b => (h.adj a b).trans (hR a b)⟩

variable [DecidableEq V]

theorem removeNeighbor_spec {v w : V} (h : Rewired g g' R) (hv : v ∈ g) :
    ∃ g'', removeNeighbor v w g' = .ok () g'' ∧
      Rewired g g'' fun a b => R a b ∧ ¬ (a = v ∧ b = w) := by
  obtain ⟨s, hs⟩ := HashMap.mem_iff.mp (mem_def.mp (h.mem.mpr hv))
  refine ⟨{ g' with adjVertices := g'.adjVertices.put v (s.remove w) }, ?_, h.color, ?_, ?_⟩
  · simp [removeNeighbor, bind, EStateM.bind, get_ok, hs,
      modify_ok]
  · exact (HashMap.keySet_put_of_mem (h.mem.mpr hv)).trans h.keys
  · intro a b
    rw [← h.adj]
    unfold Adj
    rw [HashMap.get_put]
    by_cases ha : a = v
    · subst ha
      simp [hs, and_comm]
    · simp [ha]

theorem removeEdge_spec {v w : V} (h : Rewired g g' R) (hv : v ∈ g) (hw : w ∈ g) :
    ∃ g'', removeEdge v w g' = .ok () g'' ∧
      Rewired g g'' fun a b => R a b ∧ ¬ (a = v ∧ b = w) ∧ ¬ (a = w ∧ b = v) := by
  obtain ⟨g₁, hrun₁, h₁⟩ := removeNeighbor_spec (w := w) h hv
  obtain ⟨g₂, hrun₂, h₂⟩ := removeNeighbor_spec (w := v) h₁ hw
  exact ⟨g₂, (bind_ok hrun₁).trans hrun₂, h₂.congr fun a b => and_assoc⟩

theorem removeEdgesFrom_spec {v : V} (hv : v ∈ g) (ws : List V) :
    ∀ {g' : ColoredGraph V} {R : V → V → Prop}, Rewired g g' R → (∀ w ∈ ws, w ∈ g) →
      ∃ g'', removeEdgesFrom v ws g' = .ok () g'' ∧
        Rewired g g'' fun a b => R a b ∧ ¬ (a = v ∧ b ∈ ws) ∧ ¬ (a ∈ ws ∧ b = v) := by
  induction ws with
  | nil => exact fun h _ => ⟨_, rfl, h.congr fun a b => by simp⟩
  | cons w ws ih =>
    intro g' R h hws
    obtain ⟨hw, hws⟩ := List.forall_mem_cons.mp hws
    obtain ⟨g₁, hrun₁, h₁⟩ := removeEdge_spec h hv hw
    obtain ⟨g₂, hrun₂, h₂⟩ := ih h₁ hws
    refine ⟨g₂, (bind_ok hrun₁).trans hrun₂, h₂.congr fun a b => ?_⟩
    rw [List.mem_cons, List.mem_cons]
    tauto

theorem removeEdges_spec {all : List V} (hall : ∀ w ∈ all, w ∈ g) (vs : List V) :
    ∀ {g' : ColoredGraph V} {R : V → V → Prop}, Rewired g g' R → (∀ v ∈ vs, v ∈ g) →
      ∃ g'', removeEdges all vs g' = .ok () g'' ∧
        Rewired g g'' fun a b => R a b ∧ ¬ (a ∈ vs ∧ b ∈ all) ∧ ¬ (a ∈ all ∧ b ∈ vs) := by
  induction vs with
  | nil => exact fun h _ => ⟨_, rfl, h.congr fun a b => by simp⟩
  | cons v vs ih =>
    intro g' R h hvs
    obtain ⟨hv, hvs⟩ := List.forall_mem_cons.mp hvs
    obtain ⟨g₁, hrun₁, h₁⟩ := removeEdgesFrom_spec hv all h hall
    obtain ⟨g₂, hrun₂, h₂⟩ := ih h₁ hvs
    refine ⟨g₂, (bind_ok hrun₁).trans hrun₂, h₂.congr fun a b => ?_⟩
    rw [List.mem_cons, List.mem_cons]
    grind

omit [DecidableEq V] in
/-- A graph with symmetric and irreflexive edges between its vertices. -/
theorem Rewired.wf (h : Rewired g g' R) (hg : g.WF) (hsymm : ∀ a b, R a b → R b a)
    (hirr : ∀ a, ¬ R a a) : g'.WF where
  colored v := by rw [h.mem, hg.colored, h.color]
  symm v w hvw := (h.adj w v).mpr (hsymm v w ((h.adj v w).mp hvw))
  irrefl v hv := hirr v ((h.adj v v).mp hv)

variable {adjacentTo : V → V → Bool}

/-- One vertex gets its edges. -/
theorem addEdgesFrom_spec {v : V} (hv : v ∈ g) (ws : List V) :
    ∀ {g' : ColoredGraph V} {R : V → V → Prop}, Rewired g g' R → g'.WF → (∀ w ∈ ws, w ∈ g) →
      ∃ g'', addEdgesFrom adjacentTo v ws g' = .ok () g'' ∧ g''.WF ∧
        Rewired g g'' fun a b => R a b ∨ (a ≠ b ∧ ((a = v ∧ b ∈ ws ∧ adjacentTo a b = true) ∨
          (b = v ∧ a ∈ ws ∧ adjacentTo b a = true))) := by
  induction ws with
  | nil => exact fun h hwf _ => ⟨_, rfl, hwf, h.congr fun a b => by simp⟩
  | cons w ws ih =>
    intro g' R h hwf hws
    obtain ⟨hw, hws⟩ := List.forall_mem_cons.mp hws
    by_cases hadj : adjacentTo v w = true
    · obtain ⟨g₁, hrun₁, hwf₁, hc₁, hk₁, ha₁⟩ := addEdge_spec hwf (h.mem.mpr hv) (h.mem.mpr hw)
      have h₁ : Rewired g g₁ fun a b => R a b ∨ (v ≠ w ∧ ((a = v ∧ b = w) ∨ (a = w ∧ b = v))) :=
        ⟨hc₁.trans h.color, hk₁.trans h.keys, fun a b => by rw [ha₁, h.adj]⟩
      obtain ⟨g₂, hrun₂, hwf₂, h₂⟩ := ih h₁ hwf₁ hws
      refine ⟨g₂, ?_, hwf₂, h₂.congr fun a b => ?_⟩
      · rw [addEdgesFrom, if_pos hadj]
        exact (bind_ok hrun₁).trans hrun₂
      · rw [List.mem_cons, List.mem_cons]
        grind
    · obtain ⟨g₂, hrun₂, hwf₂, h₂⟩ := ih h hwf hws
      refine ⟨g₂, ?_, hwf₂, h₂.congr fun a b => ?_⟩
      · rw [addEdgesFrom, if_neg hadj]
        exact hrun₂
      · rw [List.mem_cons, List.mem_cons]
        grind

theorem addAdjacent_spec (adjacentTo : V → V → Bool) {all : List V} (hall : ∀ w ∈ all, w ∈ g) (vs : List V) :
    ∀ {g' : ColoredGraph V} {R : V → V → Prop}, Rewired g g' R → g'.WF → (∀ v ∈ vs, v ∈ g) →
      ∃ g'', addAdjacent adjacentTo all vs g' = .ok () g'' ∧ g''.WF ∧
        Rewired g g'' fun a b => R a b ∨ (a ≠ b ∧ ((a ∈ vs ∧ b ∈ all ∧ adjacentTo a b = true) ∨
          (b ∈ vs ∧ a ∈ all ∧ adjacentTo b a = true))) := by
  induction vs with
  | nil => exact fun h hwf _ => ⟨_, rfl, hwf, h.congr fun a b => by simp⟩
  | cons v vs ih =>
    intro g' R h hwf hvs
    obtain ⟨hv, hvs⟩ := List.forall_mem_cons.mp hvs
    obtain ⟨g₁, hrun₁, hwf₁, h₁⟩ := addEdgesFrom_spec hv all h hwf hall
    obtain ⟨g₂, hrun₂, hwf₂, h₂⟩ := ih h₁ hwf₁ hvs
    refine ⟨g₂, (bind_ok hrun₁).trans hrun₂, hwf₂, h₂.congr fun a b => ?_⟩
    rw [List.mem_cons, List.mem_cons]
    grind

/-- The edges are made anew, one for each two vertices that either is adjacent to the other. -/
theorem buildGraphWithAdjacency_rewires (ord : HashOrder V) (adjacentTo : V → V → Bool) (hg : g.WF) :
    ∃ g', buildGraphWithAdjacency ord adjacentTo g = .ok () g' ∧ g'.WF ∧
      Rewired g g' fun a b => a ≠ b ∧ a ∈ g ∧ b ∈ g ∧
        (adjacentTo a b = true ∨ adjacentTo b a = true) := by
  have hmem : ∀ v, v ∈ ord.iterate g.getVertexSet ↔ v ∈ g := fun v => by simp
  obtain ⟨g₁, hrun₁, h₁⟩ := removeEdges_spec (fun v => (hmem v).mp)
    (ord.iterate g.getVertexSet) (R := g.Adj) ⟨rfl, rfl, fun _ _ => .rfl⟩ fun v => (hmem v).mp
  have hnone : Rewired g g₁ fun _ _ => False := h₁.congr fun a b => by
    rw [hmem, hmem, iff_false]
    exact fun ⟨hab, hno, _⟩ => hno ⟨hab.mem_left, hg.mem_right hab⟩
  obtain ⟨g₂, hrun₂, hwf₂, h₂⟩ := addAdjacent_spec adjacentTo (fun v => (hmem v).mp)
    (ord.iterate g.getVertexSet) hnone (hnone.wf hg (fun _ _ => id) fun _ => id)
    fun v => (hmem v).mp
  refine ⟨g₂, ?_, hwf₂, h₂.congr fun a b => ?_⟩
  · exact (bind_ok (m := get) rfl).trans ((bind_ok hrun₁).trans hrun₂)
  · rw [hmem, hmem, false_or]
    tauto

/-- **The edges are those between adjacent vertices**, whatever they were before. -/
theorem buildGraphWithAdjacency_spec (ord : HashOrder V) (hg : g.WF)
    (hsymm : ∀ a b, adjacentTo a b = true → adjacentTo b a = true)
    (hirr : ∀ a, adjacentTo a a = false) :
    ∃ g', buildGraphWithAdjacency ord adjacentTo g = .ok () g' ∧ g'.WF ∧
      Rewired g g' fun a b => a ∈ g ∧ b ∈ g ∧ adjacentTo a b = true := by
  obtain ⟨g', hrun, hwf, h⟩ := buildGraphWithAdjacency_rewires ord adjacentTo hg
  refine ⟨g', hrun, hwf, h.congr fun a b => ?_⟩
  have hne : adjacentTo a b = true → a ≠ b := by
    rintro hab rfl
    exact Bool.false_ne_true ((hirr a).symm.trans hab)
  have hboth : adjacentTo b a = true → adjacentTo a b = true := hsymm b a
  tauto

end ColoredGraph

/-! ## Cells -/

theorem RectangleGridCell.adjacentTo_symm (c c' : RectangleGridCell)
    (h : c.adjacentTo c' = true) : c'.adjacentTo c = true := by
  simp only [adjacentTo, decide_eq_true_eq] at h ⊢
  omega

theorem RectangleGridCell.adjacentTo_irrefl (c : RectangleGridCell) : c.adjacentTo c = false := by
  simp [adjacentTo]

/-- The cells of a rectangle, in the order the loops over rows and columns meet them. -/
def cells (rows cols : ℤ) : List RectangleGridCell :=
  (List.range rows.toNat).flatMap fun i : ℕ => (List.range cols.toNat).map fun j : ℕ => ⟨i, j⟩

@[simp] theorem mem_cells {rows cols : ℤ} {c : RectangleGridCell} :
    c ∈ cells rows cols ↔ (0 ≤ c.row ∧ c.row < rows) ∧ 0 ≤ c.col ∧ c.col < cols := by
  simp only [cells, List.mem_flatMap, List.mem_map, List.mem_range]
  constructor
  · rintro ⟨i, hi, j, hj, rfl⟩
    dsimp only
    omega
  · rintro ⟨hrow, hcol⟩
    refine ⟨c.row.toNat, by omega, c.col.toNat, by omega, ?_⟩
    rw [Int.toNat_of_nonneg hrow.1, Int.toNat_of_nonneg hcol.1]

theorem nodup_cells (rows cols : ℤ) : (cells rows cols).Nodup := by
  unfold cells
  rw [List.nodup_flatMap]
  refine ⟨fun i _ => List.nodup_range.map fun j j' h => ?_, List.pairwise_iff_getElem.mpr ?_⟩
  · exact Int.ofNat.inj (congrArg RectangleGridCell.col h)
  · intro i j hi hj hij
    rw [List.getElem_range, List.getElem_range]
    intro c hc hc'
    simp only [List.mem_map, List.mem_range] at hc hc'
    obtain ⟨x, -, rfl⟩ := hc
    obtain ⟨y, -, hy⟩ := hc'
    have := congrArg RectangleGridCell.row hy
    dsimp only at this
    omega

/-! ## Grids -/

/-- The cells of a rectangle, adjacent as neighbours in a row or a column. -/
structure IsGrid (rows cols : ℤ) (g : ColoredGraph RectangleGridCell) : Prop where
  wf : g.WF
  mem : ∀ c, c ∈ g ↔ c ∈ cells rows cols
  adj : ∀ c c', g.Adj c c' ↔ c ∈ g ∧ c' ∈ g ∧ c.adjacentTo c' = true

variable {rows cols : ℤ} {g : ColoredGraph RectangleGridCell}

theorem IsGrid.of_sameShape {g' : ColoredGraph RectangleGridCell} (h : IsGrid rows cols g)
    (hshape : ColoredGraph.SameShape g g') : IsGrid rows cols g' where
  wf := hshape.wf h.wf
  mem c := hshape.mem.trans (h.mem c)
  adj c c' := by rw [hshape.adj_iff, h.adj, hshape.mem, hshape.mem]

theorem IsGrid.of_same {g' : ColoredGraph RectangleGridCell} (h : IsGrid rows cols g)
    (hsame : ColoredGraph.Same g g') : IsGrid rows cols g' where
  wf := hsame.wf h.wf
  mem c := (hsame.mem c).trans (h.mem c)
  adj c c' := by rw [hsame.adj, h.adj, hsame.mem, hsame.mem]

/-- Every cell is reached from the first, down the first column and along its row. -/
theorem IsGrid.reach (h : IsGrid rows cols g) {c : RectangleGridCell} (hc : c ∈ g) :
    Relation.ReflTransGen g.Adj ⟨0, 0⟩ c := by
  have hstep : ∀ a b : RectangleGridCell, a ∈ g → b ∈ g → a.adjacentTo b = true → g.Adj a b :=
    fun a b ha hb hab => (h.adj a b).mpr ⟨ha, hb, hab⟩
  obtain ⟨⟨hr, hr'⟩, hl, hl'⟩ := mem_cells.mp ((h.mem c).mp hc)
  have hmem : ∀ i j : ℕ, (i : ℤ) ≤ c.row → (j : ℤ) ≤ c.col → (⟨i, j⟩ : RectangleGridCell) ∈ g := by
    intro i j hi hj
    rw [h.mem, mem_cells]
    dsimp only
    omega
  have hdown : ∀ i : ℕ, (i : ℤ) ≤ c.row → Relation.ReflTransGen g.Adj ⟨0, 0⟩ ⟨i, (0 : ℕ)⟩ := by
    intro i
    induction i with
    | zero => exact fun _ => .refl
    | succ i ih =>
      intro hi
      push_cast at hi
      refine (ih (by omega)).tail (hstep _ _ (hmem i 0 (by omega) hl) (hmem (i + 1) 0 ?_ hl) ?_)
      · push_cast
        exact hi
      · simp only [RectangleGridCell.adjacentTo, decide_eq_true_eq]
        omega
  have halong : ∀ j : ℕ, (j : ℤ) ≤ c.col →
      Relation.ReflTransGen g.Adj ⟨0, 0⟩ ⟨(c.row.toNat : ℕ), j⟩ := by
    intro j
    induction j with
    | zero => exact fun _ => hdown c.row.toNat (by omega)
    | succ j ih =>
      intro hj
      push_cast at hj
      refine (ih (by omega)).tail (hstep _ _ (hmem _ j (by omega) (by omega))
        (hmem _ (j + 1) (by omega) ?_) ?_)
      · push_cast
        exact hj
      · simp only [RectangleGridCell.adjacentTo, decide_eq_true_eq]
        omega
  have := halong c.col.toNat (by omega)
  rwa [Int.toNat_of_nonneg hr, Int.toNat_of_nonneg hl] at this

/-- **A grid is connected.** -/
theorem IsGrid.connected (h : IsGrid rows cols g) (u w : RectangleGridCell) (hu : u ∈ g)
    (hw : w ∈ g) : Relation.ReflTransGen g.Adj u w := by
  have hsymm : Std.Symm g.Adj := ⟨h.wf.symm⟩
  exact (Std.Symm.symm _ _ (h.reach hu)).trans (h.reach hw)

end UnionCollegeCode.Kami3
