import Mathlib.Logic.Relation

/-!
# Colourings and flood fill

A colouring of the vertices of a graph, the relation of lying in one single-coloured component, and
the colouring a flood fill leads to: the component of a vertex takes a new colour.
-/

set_option autoImplicit false

namespace Lib.Coloring

variable {U C : Type*} {adj : U → U → Prop} {col : U → C}

/-- There is a path from `u` to `w` on which the colour does not change. -/
def Mono (adj : U → U → Prop) (col : U → C) : U → U → Prop :=
  Relation.ReflTransGen fun u w => adj u w ∧ col u = col w

theorem Mono.refl (u : U) : Mono adj col u u := Relation.ReflTransGen.refl

theorem Mono.trans {u v w : U} (h : Mono adj col u v) (h' : Mono adj col v w) :
    Mono adj col u w := Relation.ReflTransGen.trans h h'

theorem Mono.single {u w : U} (h : adj u w) (hc : col u = col w) : Mono adj col u w :=
  Relation.ReflTransGen.single ⟨h, hc⟩

theorem Mono.tail {u v w : U} (h : Mono adj col u v) (ha : adj v w) (hc : col v = col w) :
    Mono adj col u w := Relation.ReflTransGen.tail h ⟨ha, hc⟩

theorem Mono.color_eq {u w : U} (h : Mono adj col u w) : col u = col w := by
  induction h with
  | refl => rfl
  | tail _ hstep ih => exact ih.trans hstep.2

theorem Mono.symm (hadj : ∀ u w, adj u w → adj w u) {u w : U} (h : Mono adj col u w) :
    Mono adj col w u := by
  induction h with
  | refl => exact .refl u
  | tail _ hstep ih => exact Relation.ReflTransGen.head ⟨hadj _ _ hstep.1, hstep.2.symm⟩ ih

open Classical in
/-- The component of `v` takes the colour `c`. -/
noncomputable def flood (adj : U → U → Prop) (col : U → C) (v : U) (c : C) : U → C :=
  fun u => if Mono adj col v u then c else col u

theorem flood_of_mono {v u : U} {c : C} (h : Mono adj col v u) : flood adj col v c u = c :=
  if_pos h

theorem flood_of_not_mono {v u : U} {c : C} (h : ¬ Mono adj col v u) :
    flood adj col v c u = col u := if_neg h

@[simp] theorem flood_self {v : U} {c : C} : flood adj col v c v = c := flood_of_mono (.refl v)

/-- Flooding with the colour the component has changes nothing. -/
theorem flood_same {v : U} : flood adj col v (col v) = col := by
  funext u
  by_cases h : Mono adj col v u
  · rw [flood_of_mono h, h.color_eq]
  · rw [flood_of_not_mono h]

/-- Any vertex of the component may be named. -/
theorem flood_congr (hadj : ∀ u w, adj u w → adj w u) {v v' : U} {c : C}
    (h : Mono adj col v v') : flood adj col v c = flood adj col v' c := by
  funext u
  by_cases hu : Mono adj col v u
  · rw [flood_of_mono hu, flood_of_mono ((h.symm hadj).trans hu)]
  · rw [flood_of_not_mono hu, flood_of_not_mono fun hu' => hu (h.trans hu')]

/-- A flood fill only joins components. -/
theorem Mono.flooded (hadj : ∀ u w, adj u w → adj w u) {v u w : U} {c : C}
    (h : Mono adj col u w) : Mono adj (flood adj col v c) u w := by
  induction h with
  | refl => exact .refl u
  | @tail x y _ hstep ih =>
    refine ih.tail hstep.1 ?_
    have hxy : Mono adj col v x ↔ Mono adj col v y :=
      ⟨fun hx => hx.tail hstep.1 hstep.2, fun hy => hy.tail (hadj _ _ hstep.1) hstep.2.symm⟩
    by_cases hx : Mono adj col v x
    · rw [flood_of_mono hx, flood_of_mono (hxy.mp hx)]
    · rw [flood_of_not_mono hx, flood_of_not_mono (hx ∘ hxy.mpr), hstep.2]

/-! ## Plays -/

/-- The colouring a list of moves leads to. -/
noncomputable def play (adj : U → U → Prop) : (U → C) → List (U × C) → U → C
  | col, [] => col
  | col, (v, c) :: ms => play adj (flood adj col v c) ms

theorem play_append (ms ms' : List (U × C)) :
    ∀ {col : U → C}, play adj col (ms ++ ms') = play adj (play adj col ms) ms' := by
  induction ms with
  | nil => exact rfl
  | cons m ms ih => exact ih

end Lib.Coloring
