import Mathlib.Data.Finset.Card
import Mathlib.Data.Finset.Dedup
import UnionCollegeCode.Lib.Coloring
import UnionCollegeCode.Kami3.WellFormed

/-!
# `colorFloodFill` is a flood fill

The queue holds recoloured vertices whose neighbours are still to be looked at. `FloodInv` says so:
what has been recoloured lies in the component of the start, and every neighbour of the component a
finished vertex has is recoloured too. When the queue is empty this makes the recoloured vertices
the whole component. Every round takes a vertex off the queue for good, so the vertices not yet
recoloured and the queue together shrink.
-/

set_option autoImplicit false

namespace UnionCollegeCode.Kami3

open Lib.EState Lib.JavaCollections Lib.Coloring

namespace ColoredGraph

variable {V : Type} [DecidableEq V] {g g₀ : ColoredGraph V} {orgColor color : ℤ}

/-- The two graphs differ in their colours only. -/
structure SameShape (g g' : ColoredGraph V) : Prop where
  adj : g'.adjVertices = g.adjVertices
  colorKeys : g'.colorMap.keySet = g.colorMap.keySet

omit [DecidableEq V] in
theorem SameShape.refl (g : ColoredGraph V) : SameShape g g := ⟨rfl, rfl⟩

omit [DecidableEq V] in
theorem SameShape.trans {g g' g'' : ColoredGraph V} (h : SameShape g g') (h' : SameShape g' g'') :
    SameShape g g'' := ⟨h'.adj.trans h.adj, h'.colorKeys.trans h.colorKeys⟩

omit [DecidableEq V] in
theorem SameShape.mem {g g' : ColoredGraph V} (h : SameShape g g') {v : V} : v ∈ g' ↔ v ∈ g := by
  rw [mem_def, h.adj]
  rfl

omit [DecidableEq V] in
theorem SameShape.adj_iff {g g' : ColoredGraph V} (h : SameShape g g') {v w : V} :
    g'.Adj v w ↔ g.Adj v w := by
  unfold Adj
  rw [h.adj]

omit [DecidableEq V] in
theorem SameShape.wf {g g' : ColoredGraph V} (h : SameShape g g') (hg : g.WF) : g'.WF where
  colored v := by rw [h.mem, hg.colored, HashMap.mem_def, HashMap.mem_def, h.colorKeys]
  symm v w hvw := h.adj_iff.mpr (hg.symm v w (h.adj_iff.mp hvw))
  irrefl v hv := hg.irrefl v (h.adj_iff.mp hv)

theorem WF.sameShape_withColor (hg : g.WF) {v : V} (c : ℤ) (hv : v ∈ g) :
    SameShape g (g.withColor v c) := ⟨rfl, HashMap.keySet_put_of_mem ((hg.colored v).mp hv)⟩

/-! ## One round -/

/-- The neighbours a round takes up. -/
def fresh (g : ColoredGraph V) (orgColor color : ℤ) (adjs : List V) : List V :=
  adjs.filter fun w => g.colorAt w = some orgColor ∧ orgColor ≠ color

variable (orgColor color) in
theorem floodVisit_spec (adjs : List V) : ∀ {g : ColoredGraph V} (queue : List V), g.WF →
    (∀ w ∈ adjs, w ∈ g) → adjs.Nodup →
    ∃ g', floodVisit orgColor color adjs queue g =
        .ok (queue ++ fresh g orgColor color adjs) g' ∧ SameShape g g' ∧
      ∀ u, g'.colorAt u = if u ∈ fresh g orgColor color adjs then some color else g.colorAt u := by
  induction adjs with
  | nil =>
    intro g queue _ _ _
    exact ⟨g, by simp [floodVisit, fresh, pure, EStateM.pure], .refl g, by simp [fresh]⟩
  | cons w adjs ih =>
    intro g queue hg hmem hnd
    obtain ⟨hw, hnd⟩ := List.nodup_cons.mp hnd
    have hwg := hmem w List.mem_cons_self
    have hadjs : ∀ u ∈ adjs, u ∈ g := fun u hu => hmem u (List.mem_cons_of_mem w hu)
    obtain ⟨c, hc⟩ := hg.exists_color hwg
    have hget := getVertexColor_ok hwg hc
    by_cases hcase : c = orgColor ∧ c ≠ color
    · obtain ⟨rfl, hne⟩ := hcase
      have hshape := hg.sameShape_withColor color hwg
      obtain ⟨g', hrun, hs', hcol⟩ := ih (queue ++ [w]) (hshape.wf hg)
        (fun u hu => hshape.mem.mpr (hadjs u hu)) hnd
      -- Recolouring `w` does not touch the neighbours still to come.
      have hfresh : fresh (g.withColor w color) c color adjs = fresh g c color adjs := by
        refine List.filter_congr fun u hu => ?_
        have huw : u ≠ w := fun he => hw (he ▸ hu)
        simp only [colorAt_withColor, if_neg huw]
      rw [hfresh] at hrun hcol
      have hcons : fresh g c color (w :: adjs) = w :: fresh g c color adjs :=
        List.filter_cons_of_pos (by simp [hc, hne])
      refine ⟨g', ?_, hshape.trans hs', fun u => ?_⟩
      · rw [floodVisit, bind_ok hget, bind_ok hget, if_pos ⟨rfl, hne⟩,
          bind_ok (setVertexColor_ok hwg), hrun, hcons, List.append_assoc]
        rfl
      · rw [hcol, colorAt_withColor, hcons]
        by_cases hu : u ∈ fresh g c color adjs <;> simp [hu]
    · obtain ⟨g', hrun, hs', hcol⟩ := ih queue hg hadjs hnd
      have hskip : fresh g orgColor color (w :: adjs) = fresh g orgColor color adjs := by
        refine List.filter_cons_of_neg ?_
        rw [hc]
        rintro h
        simp only [Option.some.injEq, decide_eq_true_eq] at h
        exact hcase ⟨h.1, h.1 ▸ h.2⟩
      refine ⟨g', ?_, hs', by rw [hskip]; exact hcol⟩
      rw [floodVisit, bind_ok hget, bind_ok hget, if_neg hcase, hrun, hskip]

/-! ## The loop -/

/-- The state of the loop: `D` is what has been recoloured. -/
structure FloodInv (g₀ : ColoredGraph V) (v : V) (orgColor color : ℤ) (D : Finset V)
    (queue : List V) (g : ColoredGraph V) : Prop where
  shape : SameShape g₀ g
  start : v ∈ D
  queued : ∀ u ∈ queue, u ∈ D
  inside : ∀ u ∈ D, u ∈ g₀ ∧ Mono g₀.Adj g₀.colorAt v u
  closed : orgColor ≠ color → ∀ u ∈ D, u ∉ queue → ∀ w, g₀.Adj u w →
    g₀.colorAt w = some orgColor → w ∈ D
  colors : ∀ u, g.colorAt u = if u ∈ D then some color else g₀.colorAt u

variable {v : V} {D : Finset V} {queue : List V}

/-- A round takes the neighbours of `source` into `D`. -/
theorem FloodInv.round (ord : HashOrder V) (hg₀ : g₀.WF) (hv : g₀.colorAt v = some orgColor)
    {source : V} {s : HashSet V} (h : FloodInv g₀ v orgColor color D (source :: queue) g)
    (hs : ∀ w, w ∈ s ↔ g.Adj source w) {g' : ColoredGraph V} (hshape : SameShape g g')
    (hcol : ∀ u, g'.colorAt u =
      if u ∈ fresh g orgColor color (ord.iterate s.elems) then some color else g.colorAt u) :
    FloodInv g₀ v orgColor color (D ∪ (fresh g orgColor color (ord.iterate s.elems)).toFinset)
      (queue ++ fresh g orgColor color (ord.iterate s.elems)) g' ∧
    ∀ w ∈ fresh g orgColor color (ord.iterate s.elems), w ∉ D := by
  have hfresh : ∀ w, w ∈ fresh g orgColor color (ord.iterate s.elems) ↔
      g₀.Adj source w ∧ g.colorAt w = some orgColor ∧ orgColor ≠ color := by
    intro w
    simp [fresh, hs, h.shape.adj_iff]
  -- A fresh vertex has the old colour still, and what is in `D` has the new one.
  have hnew : ∀ w, w ∈ fresh g orgColor color (ord.iterate s.elems) →
      w ∉ D ∧ g₀.colorAt w = some orgColor := by
    intro w hw
    obtain ⟨-, hc, hne⟩ := (hfresh w).mp hw
    rw [h.colors] at hc
    by_cases hD : w ∈ D
    · rw [if_pos hD, Option.some.injEq] at hc
      exact absurd hc.symm hne
    · exact ⟨hD, by rwa [if_neg hD] at hc⟩
  refine ⟨⟨h.shape.trans hshape, ?_, fun u hu => ?_, fun u hu => ?_, fun hne u hu hq w hw hc => ?_,
    fun u => ?_⟩, fun w hw => (hnew w hw).1⟩
  · exact Finset.mem_union_left _ h.start
  · rw [Finset.mem_union, List.mem_toFinset]
    rcases List.mem_append.mp hu with hu | hu
    · exact .inl (h.queued u (List.mem_cons_of_mem _ hu))
    · exact .inr hu
  · rw [Finset.mem_union, List.mem_toFinset] at hu
    rcases hu with hu | hu
    · exact h.inside u hu
    · have hsrc := h.inside source (h.queued source List.mem_cons_self)
      have hadj := ((hfresh u).mp hu).1
      refine ⟨hg₀.mem_right hadj, hsrc.2.tail hadj ?_⟩
      rw [(hnew u hu).2, ← hsrc.2.color_eq, hv]
  · rw [Finset.mem_union, List.mem_toFinset] at hu ⊢
    rw [List.mem_append, not_or] at hq
    have huD : u ∈ D := hu.resolve_right hq.2
    by_cases hwD : w ∈ D
    · exact .inl hwD
    · -- The neighbours of `source` have just been taken in; those of the others were before.
      by_cases hus : u = source
      · subst hus
        refine .inr ((hfresh w).mpr ⟨hw, ?_, hne⟩)
        rw [h.colors, if_neg hwD, hc]
      · exact .inl (h.closed hne u huD (by simp [hus, hq.1]) w hw hc)
  · rw [hcol, h.colors]
    simp only [Finset.mem_union, List.mem_toFinset]
    by_cases hu : u ∈ fresh g orgColor color (ord.iterate s.elems)
    · simp [hu]
    · simp [hu]

theorem floodLoop_spec (ord : HashOrder V) (hg₀ : g₀.WF) (hv : g₀.colorAt v = some orgColor) :
    ∀ (fuel : ℕ) {D : Finset V} {queue : List V} {g : ColoredGraph V},
      FloodInv g₀ v orgColor color D queue g →
      queue.length + g₀.getNumVertices ≤ fuel + D.card →
      ∃ g' D', floodLoop ord orgColor color fuel queue g = .ok () g' ∧
        FloodInv g₀ v orgColor color D' [] g' := by
  intro fuel
  induction fuel with
  | zero =>
    intro D queue g h hfuel
    cases queue with
    | nil => exact ⟨g, D, rfl, h⟩
    | cons source queue =>
      -- Only vertices of the graph are recoloured.
      have hsub : D ⊆ g₀.getVertexSet.toFinset := fun u hu =>
        List.mem_toFinset.mpr (h.inside u hu).1
      have hcard := Finset.card_le_card hsub
      have : g₀.getVertexSet.toFinset.card = g₀.getNumVertices :=
        List.toFinset_card_of_nodup g₀.adjVertices.nodup
      rw [List.length_cons] at hfuel
      omega
  | succ fuel ih =>
    intro D queue g h hfuel
    cases queue with
    | nil => exact ⟨g, D, rfl, h⟩
    | cons source queue =>
      have hgwf := h.shape.wf hg₀
      have hsrc : source ∈ g :=
        h.shape.mem.mpr (h.inside source (h.queued source List.mem_cons_self)).1
      obtain ⟨s, hs, hmem⟩ := exists_neighbors hsrc
      obtain ⟨g₁, hrun₁, hshape, hcol⟩ := floodVisit_spec orgColor color
        (ord.iterate s.elems) queue hgwf
        (fun w hw => hgwf.mem_right ((hmem w).mp (ord.mem_iterate.mp hw)))
        (ord.nodup_iterate s.nodup)
      obtain ⟨hinv, hdisj⟩ := h.round ord hg₀ hv hmem hshape hcol
      have hcard : (D ∪ (fresh g orgColor color (ord.iterate s.elems)).toFinset).card =
          D.card + (fresh g orgColor color (ord.iterate s.elems)).length := by
        rw [Finset.card_union_of_disjoint, List.toFinset_card_of_nodup]
        · exact (ord.nodup_iterate s.nodup).filter _
        · rw [Finset.disjoint_right]
          exact fun w hw => hdisj w (List.mem_toFinset.mp hw)
      obtain ⟨g', D', hrun, hinv'⟩ := ih hinv (by
        rw [hcard, List.length_append]
        rw [List.length_cons] at hfuel
        omega)
      refine ⟨g', D', ?_, hinv'⟩
      rw [floodLoop]
      exact (bind_ok (m := get) rfl).trans (by rw [hs]; exact (bind_ok hrun₁).trans hrun)

/-- With nothing left in the queue, the recoloured vertices are the component. -/
theorem FloodInv.colorAt_eq (hv : g₀.colorAt v = some orgColor)
    (h : FloodInv g₀ v orgColor color D [] g) :
    g.colorAt = flood g₀.Adj g₀.colorAt v (some color) := by
  funext u
  rw [h.colors]
  by_cases hu : Mono g₀.Adj g₀.colorAt v u
  · rw [flood_of_mono hu]
    by_cases hD : u ∈ D
    · rw [if_pos hD]
    · rw [if_neg hD, ← hu.color_eq, hv, Option.some.injEq]
      by_contra hne
      refine hD ?_
      clear hD
      induction hu with
      | refl => exact h.start
      | @tail x y hx hstep ih =>
        refine h.closed hne x ih List.not_mem_nil y hstep.1 ?_
        rw [← hstep.2, ← Mono.color_eq hx, hv]
  · rw [flood_of_not_mono hu, if_neg fun hD => hu (h.inside u hD).2]

/-- **`colorFloodFill` recolours the component of the vertex and nothing else.** -/
theorem colorFloodFill_spec (ord : HashOrder V) (hg : g.WF) {v : V} (hv : v ∈ g) (color : ℤ) :
    ∃ g', colorFloodFill ord v color g = .ok () g' ∧ SameShape g g' ∧
      g'.colorAt = flood g.Adj g.colorAt v (some color) := by
  obtain ⟨orgColor, hc⟩ := hg.exists_color hv
  have hinv : FloodInv g v orgColor color {v} [v] (g.withColor v color) := by
    refine ⟨hg.sameShape_withColor color hv, Finset.mem_singleton_self v, by simp, ?_, ?_, ?_⟩
    · simp only [Finset.mem_singleton, forall_eq]
      exact ⟨hv, .refl v⟩
    · intro _ u hu hq
      rw [Finset.mem_singleton] at hu
      simp [hu] at hq
    · intro u
      simp [colorAt_withColor]
  obtain ⟨g', D', hrun, hinv'⟩ := floodLoop_spec ord hg hc g.getNumVertices hinv
    (by simp [Nat.add_comm])
  refine ⟨g', ?_, hinv'.shape, hinv'.colorAt_eq hc⟩
  rw [colorFloodFill, bind_ok (getVertexColor_ok hv hc), bind_ok (setVertexColor_ok hv)]
  exact (bind_ok (m := get) rfl).trans hrun

theorem colorFloodFill_of_not_mem (ord : HashOrder V) {v : V} (hv : v ∉ g) (color : ℤ) :
    colorFloodFill ord v color g =
      .error (.illegalArgument "the vertex is not in the graph") g := by
  rw [colorFloodFill, bind_error (getVertexColor_of_not_mem hv)]

/-- **A flood fill recolours what one colour connects to the vertex, and nothing else.** -/
theorem colorFloodFill_recolours (ord : HashOrder V) (hg : g.WF) {v : V} (hv : v ∈ g) (color : ℤ) :
    ∃ g', colorFloodFill ord v color g = .ok () g' ∧ g'.adjVertices = g.adjVertices ∧
      (∀ u, u ∈ g' ↔ u ∈ g) ∧ (∀ u w, g'.Adj u w ↔ g.Adj u w) ∧
      (∀ u, Mono g.Adj g.colorAt v u → g'.colorAt u = some color) ∧
      ∀ u, ¬ Mono g.Adj g.colorAt v u → g'.colorAt u = g.colorAt u := by
  obtain ⟨g', hrun, hshape, hcol⟩ := colorFloodFill_spec ord hg hv color
  refine ⟨g', hrun, hshape.adj, fun u => hshape.mem, fun u w => hshape.adj_iff, fun u hu => ?_,
    fun u hu => ?_⟩
  · rw [hcol, flood_of_mono hu]
  · rw [hcol, flood_of_not_mono hu]

/-! ## Three vertices in a row -/

/-- The first two have one colour, the last another. -/
def rowGraph : ColoredGraph (Fin 3) where
  adjVertices := (((HashMap.empty ..).put 0 ((HashSet.empty _).add 1)).put 1
    (((HashSet.empty _).add 0).add 2)).put 2 ((HashSet.empty _).add 1)
  colorMap := (((HashMap.empty ..).put 0 0).put 1 0).put 2 1

theorem rowGraph_wf : rowGraph.WF := ⟨by decide, by decide, by decide⟩

theorem rowGraph_nonNeg : rowGraph.NonNeg := by
  intro v c h
  match v with
  | 0 | 1 | 2 =>
    cases h
    decide

theorem rowGraph_recoloured : ∃ g', colorFloodFill (.insertion _) 0 1 rowGraph = .ok () g' ∧
    (∀ u w, g'.Adj u w ↔ rowGraph.Adj u w) ∧ g'.colorAt 1 = some 1 := by
  obtain ⟨g', hrun, -, -, hadj, hcol, -⟩ := colorFloodFill_recolours (.insertion _) rowGraph_wf
    (v := 0) (by decide) 1
  exact ⟨g', hrun, hadj, hcol 1 (.single (by decide) rfl)⟩

end ColoredGraph

end UnionCollegeCode.Kami3
