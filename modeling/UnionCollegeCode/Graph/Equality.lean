import UnionCollegeCode.Graph.ZachGraph

/-!
# `equals` of `ZachGraph.java`

Every vertex of the one graph is looked up in the other, with its degree and its edges, and that is all:
vertices that only the other graph has are never met. So `equals` says that the first graph is a part
of the second, the whole of it only if neither has more vertices.
-/

set_option autoImplicit false

namespace UnionCollegeCode.Graph.ZachGraph

open Lib (FinDigraph)
open Lib.JavaCollections

variable {V : Type} [DecidableEq V]

/-- The inner loop of `equals` over the neighbours of `v0` still to come. -/
def edgesIn (otherG : ZachGraph V) (v0 : V) : List V → Bool
  | [] => true
  | v1 :: vs => if !otherG.hasEdge v0 v1 then false else edgesIn otherG v0 vs

/-- The loop of `equals` over the vertices still to come; `none` is an exception. -/
def equalsFrom (g otherG : ZachGraph V) : List V → Option Bool
  | [] => some true
  | v0 :: vs => do
    if !otherG.contains v0 then
      return false
    else
      let degree ← otherG.degree v0
      let degree' ← g.degree v0
      if degree ≠ degree' then
        return false
      else
        let l ← g.map.get v0
        if edgesIn otherG v0 l then equalsFrom g otherG vs else return false

/-- For another `ZachGraph`. -/
def equals (ord : HashOrder V) (g otherG : ZachGraph V) : Option Bool :=
  g.equalsFrom otherG (ord.iterate g.map.keySet)

/-! ## What `equals` says -/

/-- The same vertices and the same edges. -/
def Same (g h : ZachGraph V) : Prop :=
  (∀ v, g.contains v = h.contains v) ∧ ∀ u v, g.hasEdge u v = h.hasEdge u v

/-- `h` has the vertices of `g`, and from them it has the edges of `g`. -/
def Part (g h : ZachGraph V) : Prop :=
  ∀ v, g.contains v = true → h.contains v = true ∧ ∀ w, g.hasEdge v w = h.hasEdge v w

/-- `h` has the vertices of `g` with the same edges from them, and at least one vertex more. -/
def ProperPart (g h : ZachGraph V) : Prop :=
  g.Part h ∧ ∃ v, h.contains v = true ∧ g.contains v = false

variable {ord : HashOrder V} {f g h : ZachGraph V} {D E : FinDigraph V} {v : V}

theorem Part.refl (g : ZachGraph V) : g.Part g := fun _ hv => ⟨hv, fun _ => rfl⟩

theorem Part.trans (hfg : f.Part g) (hgh : g.Part h) : f.Part h := by
  intro v hv
  obtain ⟨hv, hedges⟩ := hfg v hv
  obtain ⟨hv, hedges'⟩ := hgh v hv
  exact ⟨hv, fun w => (hedges w).trans (hedges' w)⟩

theorem Same.part (h' : g.Same h) : g.Part h := fun v hv => ⟨(h'.1 v).symm.trans hv, h'.2 v⟩

theorem Same.symm (h' : g.Same h) : h.Same g := ⟨fun v => (h'.1 v).symm, fun u v => (h'.2 u v).symm⟩

theorem edgesIn_iff {l : List V} : edgesIn h v l = true ↔ ∀ w ∈ l, h.hasEdge v w = true := by
  induction l with
  | nil => simp [edgesIn]
  | cons w l ih =>
    rw [edgesIn, List.forall_mem_cons, ← ih]
    cases h.hasEdge v w <;> simp

/-- An edge needs a vertex to start from. -/
theorem hasEdge_of_not_contains {w : V} (hv : g.contains v = false) : g.hasEdge v w = false := by
  have hnone : g.map.get v = none := HashMap.get_eq_none.mpr (of_decide_eq_false hv)
  simp only [hasEdge, hnone]

/-- A part that is not proper is the whole. -/
theorem Part.same (h' : g.Part h) (hproper : ¬ g.ProperPart h) : g.Same h := by
  have hverts : ∀ v, g.contains v = h.contains v := by
    intro v
    cases hv : g.contains v with
    | true => exact (h' v hv).1.symm
    | false =>
      rw [eq_comm, ← Bool.not_eq_true]
      exact fun hv' => hproper ⟨h', v, hv', hv⟩
  refine ⟨hverts, fun u v => ?_⟩
  cases hu : g.contains u with
  | true => exact (h' u hu).2 v
  | false => rw [hasEdge_of_not_contains hu, hasEdge_of_not_contains ((hverts u).symm.trans hu)]

/-- Edges of one graph that are all in the other are all of the other's if there are as many. -/
theorem edges_eq (hg : g.Refines D) (hh : h.Refines E) (hvg : v ∈ D.verts) (hvh : v ∈ E.verts)
    (hdegree : h.degree v = g.degree v) {l : List V} (hl : g.map.get v = some l) :
    edgesIn h v l = true ↔ ∀ w, g.hasEdge v w = h.hasEdge v w := by
  rw [edgesIn_iff]
  constructor
  · intro hin
    have hsub : D.outEdges v ⊆ E.outEdges v := by
      intro e he
      obtain ⟨hedge, rfl⟩ := FinDigraph.mem_outEdges.mp he
      exact FinDigraph.mem_outEdges.mpr
        ⟨hh.hasEdge_iff.mp (hin e.2 ((hg.edge e.1 l hl e.2).mpr hedge)), rfl⟩
    rw [hg.degree_eq hvg, hh.degree_eq hvh, Option.some.injEq] at hdegree
    have hsame := Finset.eq_of_subset_of_card_le hsub (Nat.le_of_eq hdegree)
    intro w
    rw [Bool.eq_iff_iff, hg.hasEdge_iff, hh.hasEdge_iff]
    have hmem := Finset.ext_iff.mp hsame (v, w)
    simpa [FinDigraph.mem_outEdges] using hmem
  · intro hsame w hw
    rw [← hsame, hg.hasEdge_iff]
    exact (hg.edge v l hl w).mp hw

/-- The lists say how many edges there are from a vertex. -/
theorem degree_congr (hg : g.Refines D) (hh : h.Refines E) (hvg : v ∈ D.verts) (hvh : v ∈ E.verts)
    (hsame : ∀ w, g.hasEdge v w = h.hasEdge v w) : h.degree v = g.degree v := by
  rw [hg.degree_eq hvg, hh.degree_eq hvh]
  congr 2
  refine Finset.ext fun e => ?_
  rw [FinDigraph.mem_outEdges, FinDigraph.mem_outEdges]
  refine and_congr_left ?_
  rintro rfl
  exact hh.hasEdge_iff.symm.trans ((Bool.eq_iff_iff.mp (hsame e.2)).symm.trans hg.hasEdge_iff)

theorem equalsFrom_spec (hg : g.Refines D) (hh : h.Refines E) {vs : List V}
    (hvs : ∀ v ∈ vs, v ∈ D.verts) : ∃ b, g.equalsFrom h vs = some b ∧
      (b = true ↔ ∀ v ∈ vs, h.contains v = true ∧ ∀ w, g.hasEdge v w = h.hasEdge v w) := by
  induction vs with
  | nil => exact ⟨true, rfl, by simp⟩
  | cons v vs ih =>
    obtain ⟨hv, hvs⟩ := List.forall_mem_cons.mp hvs
    rw [equalsFrom, List.forall_mem_cons]
    cases hcontains : h.contains v with
    | false => exact ⟨false, rfl, by simp⟩
    | true =>
      have hv' : v ∈ E.verts := hh.contains_iff.mp hcontains
      obtain ⟨l, hl⟩ := hg.exists_list hv
      have hdegree := hg.degree_eq hv
      have hdegree' := hh.degree_eq hv'
      simp only [Bool.not_true, Bool.false_eq_true, if_false, hdegree, hdegree', hl,
        Option.bind_eq_bind, Option.bind_some, true_and]
      by_cases hcard : (E.outEdges v).card = (D.outEdges v).card
      · have hsame := edges_eq hg hh hv hv' (by rw [hdegree, hdegree', hcard]) hl
        rw [if_neg (not_not_intro hcard), ← hsame]
        cases hin : edgesIn h v l with
        | false => exact ⟨false, rfl, by simp⟩
        | true =>
          obtain ⟨b, hb, hiff⟩ := ih hvs
          exact ⟨b, hb, by rw [hiff, eq_self_iff_true, true_and]⟩
      · rw [if_pos hcard]
        refine ⟨false, rfl, iff_of_false Bool.false_ne_true fun hall => hcard ?_⟩
        have hsame := degree_congr hg hh hv hv' hall.1
        rw [hdegree, hdegree', Option.some.injEq] at hsame
        exact hsame

/-- `equals` returns, and says whether the one graph is a part of the other. -/
theorem equals_spec (ord : HashOrder V) (hg : g.Refines D) (hh : h.Refines E) :
    ∃ b, g.equals ord h = some b ∧ (b = true ↔ g.Part h) := by
  have hkeys : ∀ v, v ∈ ord.iterate g.map.keySet ↔ g.contains v = true := fun v =>
    ord.mem_iterate.trans decide_eq_true_iff.symm
  have hverts : ∀ v ∈ ord.iterate g.map.keySet, v ∈ D.verts := fun v hv =>
    hg.contains_iff.mp ((hkeys v).mp hv)
  obtain ⟨b, hb, hiff⟩ := equalsFrom_spec hg hh hverts
  refine ⟨b, hb, hiff.trans (forall_congr' fun v => ?_)⟩
  rw [hkeys]

theorem equals_iff (ord : HashOrder V) (hg : g.Refines D) (hh : h.Refines E) :
    g.equals ord h = some true ↔ g.Part h := by
  obtain ⟨b, hb, hiff⟩ := equals_spec ord hg hh
  rw [hb, Option.some.injEq, hiff]

/-! ## Where it is an equality -/

/-- `equals` is as it should be for `f` and `g`, and transitive up to `h`. -/
structure EqualsRight (ord : HashOrder V) (f g h : ZachGraph V) : Prop where
  refl : f.equals ord f = some true
  symm : f.equals ord g = g.equals ord f
  trans : f.equals ord g = some true → g.equals ord h = some true → f.equals ord h = some true
  same : ∃ b, f.equals ord g = some b ∧ (b = true ↔ f.Same g)

/-- **`equals` is an equality for two graphs exactly if neither is a proper part of the other.** -/
theorem equalsRight_iff (ord : HashOrder V) (ops ops' ops'' : List (Op V)) :
    let f := after ord ops
    let g := after ord ops'
    EqualsRight ord f g (after ord ops'') ↔ ¬ f.ProperPart g ∧ ¬ g.ProperPart f := by
  intro f g
  have hf := after_refines ord ops
  have hg := after_refines ord ops'
  have hh := after_refines ord ops''
  obtain ⟨b, hb, hiff⟩ := equals_spec ord hf hg
  obtain ⟨b', hb', hiff'⟩ := equals_spec ord hg hf
  constructor
  · intro hright
    have hsame : f.Part g → f.Same g := fun hpart => by
      obtain ⟨c, hc, hsame⟩ := hright.same
      cases hb.symm.trans hc
      exact hsame.mp (hiff.mpr hpart)
    have hswap : g.Part f → f.Part g := fun hpart => by
      rw [← equals_iff ord hf hg, hright.symm, equals_iff ord hg hf]
      exact hpart
    refine ⟨fun hproper => ?_, fun hproper => ?_⟩
    · obtain ⟨hpart, v, hv, hv'⟩ := hproper
      cases hv'.symm.trans (((hsame hpart).1 v).trans hv)
    · obtain ⟨hpart, v, hv, hv'⟩ := hproper
      cases hv'.symm.trans (((hsame (hswap hpart)).1 v).symm.trans hv)
  · rintro ⟨hfg, hgf⟩
    have hsame : f.Part g ↔ f.Same g := ⟨fun hpart => hpart.same hfg, fun hsame => hsame.part⟩
    have hsame' : g.Part f ↔ f.Same g :=
      ⟨fun hpart => (hpart.same hgf).symm, fun hsame => hsame.symm.part⟩
    refine ⟨(equals_iff ord hf hf).mpr (.refl f), ?_, fun h₁ h₂ => ?_, b, hb, hiff.trans hsame⟩
    · rw [hb, hb', Option.some.injEq, Bool.eq_iff_iff, hiff, hiff', hsame, hsame']
    · rw [equals_iff ord hf hh]
      exact ((equals_iff ord hf hg).mp h₁).trans ((equals_iff ord hg hh).mp h₂)

/-- The empty graph equals a graph with a vertex, but not the other way round. -/
theorem empty_equals :
    let ord := HashOrder.insertion Bool
    ¬ EqualsRight ord (after ord []) (after ord [.addVertex true]) (after ord []) := by
  intro ord hright
  have hsymm : some true = some false := hright.symm
  cases hsymm

end UnionCollegeCode.Graph.ZachGraph
