import UnionCollegeCode.Kami3.Prune

/-!
# Contraction commutes with flood fill

Recolouring the vertex of a pruned graph and pruning again represents the colouring that the flood
fill of that vertex leads to on the original graph.
-/

set_option autoImplicit false

namespace UnionCollegeCode.Kami3

open Lib.JavaCollections Lib.Coloring

namespace ColoredGraph

variable {V : Type} {g p q : ColoredGraph V} {col : V → Option ℤ}

theorem WF.mono_symm (hg : g.WF) {u w : V} (h : Mono g.Adj col u w) : Mono g.Adj col w u :=
  h.symm hg.symm

/-- Pruning a graph that represents a colouring, once its colours have changed. -/
theorem Represents.prune (hg : g.WF) (h : Represents g col p) {col' : V → Option ℤ}
    {p' : ColoredGraph V} (hshape : SameShape p p') (hcolor : ∀ r, r ∈ p → p'.colorAt r = col' r)
    (hfine : ∀ u w, Mono g.Adj col u w → Mono g.Adj col' u w)
    (hq : Represents p' p'.colorAt q) : Represents g col' q := by
  -- The components of `p'` are those of the new colouring.
  have hup : ∀ {a b}, a ∈ p → Mono p'.Adj p'.colorAt a b → Mono g.Adj col' a b := by
    intro a b ha hab
    induction hab with
    | refl => exact .refl a
    | @tail x y hx hstep ih =>
      obtain ⟨-, hxp, hyp, u, w, hxu, hyw, huw⟩ := (h.adj x y).mp (hshape.adj_iff.mp hstep.1)
      refine ih.trans ((hfine x u hxu).trans (Mono.trans (.single huw ?_)
        (hg.mono_symm (hfine y w hyw))))
      rw [← (hfine x u hxu).color_eq, ← (hfine y w hyw).color_eq, ← hcolor x hxp, ← hcolor y hyp,
        hstep.2]
  have hdown : ∀ {a y}, a ∈ p → Mono g.Adj col' a y → ∀ b, b ∈ p → Mono g.Adj col b y →
      Mono p'.Adj p'.colorAt a b := by
    intro a y ha hay
    induction hay with
    | refl =>
      intro b hb hba
      rw [h.rep_unique b a hb ha hba]
      exact .refl a
    | @tail x y hx hstep ih =>
      intro b hb hby
      obtain ⟨t, ht, htx⟩ := h.exists_rep x hstep.1.mem_left
      have hat := ih t ht htx
      by_cases htb : t = b
      · exact htb ▸ hat
      · refine hat.tail (hshape.adj_iff.mpr ((h.adj t b).mpr
          ⟨htb, ht, hb, x, y, htx, hby, hstep.1⟩)) ?_
        rw [hcolor t ht, hcolor b hb, (hfine t x htx).color_eq, (hfine b y hby).color_eq, hstep.2]
  have hqp : ∀ {r}, r ∈ q → r ∈ p := fun hr => hshape.mem.mp (hq.sub _ hr)
  refine ⟨hq.wf, fun r hr => h.sub r (hqp hr), fun v hv => ?_, fun r r' hr hr' hrr' => ?_,
    fun r hr => ?_, fun a b => ?_⟩
  · obtain ⟨a, ha, hav⟩ := h.exists_rep v hv
    obtain ⟨r, hr, hra⟩ := hq.exists_rep a (hshape.mem.mpr ha)
    exact ⟨r, hr, (hup (hqp hr) hra).trans (hfine a v hav)⟩
  · exact hq.rep_unique r r' hr hr' (hdown (hqp hr) hrr' r' (hqp hr') (.refl r'))
  · rw [hq.color r hr, hcolor r (hqp hr)]
  · rw [hq.adj]
    constructor
    · rintro ⟨hne, ha, hb, u, w, hau, hbw, huw⟩
      obtain ⟨-, hu, hw, x, y, hux, hwy, hxy⟩ := (h.adj u w).mp (hshape.adj_iff.mp huw)
      exact ⟨hne, ha, hb, x, y, (hup (hqp ha) hau).trans (hfine u x hux),
        (hup (hqp hb) hbw).trans (hfine w y hwy), hxy⟩
    · rintro ⟨hne, ha, hb, x, y, hax, hby, hxy⟩
      obtain ⟨u, hu, hux⟩ := h.exists_rep x hxy.mem_left
      obtain ⟨w, hw, hwy⟩ := h.exists_rep y (hg.mem_right hxy)
      have hau := hdown (hqp ha) hax u hu hux
      have hbw := hdown (hqp hb) hby w hw hwy
      have huw : u ≠ w := by
        rintro rfl
        exact hne (hq.rep_unique a b ha hb (hau.trans ((hshape.wf h.wf).mono_symm hbw)))
      exact ⟨hne, ha, hb, u, w, hau, hbw,
        hshape.adj_iff.mpr ((h.adj u w).mpr ⟨huw, hu, hw, x, y, hux, hwy, hxy⟩)⟩

variable [DecidableEq V]

/-- **Contraction commutes with flood fill.** -/
theorem Represents.flood (ord : HashOrder V) (hg : g.WF) (h : Represents g col p)
    (hn : p.NonNeg) {r : V} {c : ℤ} (hr : r ∈ p) (hc : 0 ≤ c) :
    ∃ q, pruneGraph ord (p.withColor r c) = .ok q ∧
      Represents g (Lib.Coloring.flood g.Adj col r (some c)) q := by
  have hshape := h.wf.sameShape_withColor c hr
  obtain ⟨q, hrun, hq⟩ := pruneGraph_spec ord (hshape.wf h.wf) (hn.withColor r hc)
  refine ⟨q, hrun, h.prune hg hshape (fun a ha => ?_) (fun u w huw => huw.flooded hg.symm) hq⟩
  rw [colorAt_withColor]
  by_cases har : a = r
  · rw [if_pos har, har, flood_self]
  · rw [if_neg har, h.color a ha, flood_of_not_mono fun hra => har (h.rep_unique r a hr ha hra).symm]

omit [DecidableEq V] in
/-- A pruned graph of one vertex is a graph of one colour. -/
theorem Represents.numVertices_eq_one (hg : g.WF) (h : Represents g col p)
    (hconn : ∀ u w, u ∈ g → w ∈ g → Relation.ReflTransGen g.Adj u w) (hne : ∃ v, v ∈ g) :
    p.getNumVertices = 1 ↔ ∀ u w, u ∈ g → w ∈ g → col u = col w := by
  constructor
  · intro hone u w hu hw
    obtain ⟨a, ha, hau⟩ := h.exists_rep u hu
    obtain ⟨b, hb, hbw⟩ := h.exists_rep w hw
    obtain ⟨x, hx⟩ := List.length_eq_one_iff.mp hone
    have hall : ∀ r, r ∈ p → r = x := fun r hr => by
      have : r ∈ p.adjVertices.keySet := hr
      rwa [hx, List.mem_singleton] at this
    rw [← hau.color_eq, ← hbw.color_eq, hall a ha, hall b hb]
  · intro hmono
    obtain ⟨v, hv⟩ := hne
    obtain ⟨a, ha, -⟩ := h.exists_rep v hv
    have hjoined : ∀ u, u ∈ g → Mono g.Adj col a u := by
      intro u hu
      have hpath := hconn a u (h.sub a ha) hu
      induction hpath with
      | refl => exact .refl a
      | @tail x y _ hxy ih => exact (ih hxy.mem_left).tail hxy (hmono x y hxy.mem_left (hg.mem_right hxy))
    have hall : ∀ r ∈ p.adjVertices.keySet, r = a := fun r hr =>
      (h.rep_unique a r ha hr (hjoined r (h.sub r hr))).symm
    refine Nat.le_antisymm ?_ (List.length_pos_of_mem (mem_def.mp ha))
    exact (List.subperm_of_subset p.adjVertices.nodup fun r hr =>
      List.mem_singleton.mpr (hall r hr)).length_le

end ColoredGraph

end UnionCollegeCode.Kami3
