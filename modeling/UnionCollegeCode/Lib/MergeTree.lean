import Mathlib.Algebra.BigOperators.Group.Finset.Piecewise
import Mathlib.Data.Fintype.Quotient
import Mathlib.Combinatorics.SimpleGraph.Connectivity.Connected
import Mathlib.Tactic.Abel
import UnionCollegeCode.Lib.Coloring

/-!
# The shortest way to one colour

Flood fill moves are to turn a coloured graph into a single colour. A move may take any vertex and
any colour, and the shortest play of any kind is matched by one of the same length that only ever
gives a component the colour of a neighbouring one.

A play is a poor object for exchanging moves, since a component recoloured early is part of every
larger one later. `Floods` forgets the order: it is a tree whose leaves are components, whose inner
nodes join two touching regions of one colour, and in which recolouring a whole region costs one. A
play gives a tree that costs no more (`floods_of_play`). A tree whose leaves are all different has,
unless it is a single leaf, a place where a leaf can take the colour of a neighbour and save the
cost of a node (`Floods.redex`); that is a move, and the tree of what the move leads to is the same
tree with leaves run together. Leaves that occur twice are removed by `Floods.nodup`.
-/

set_option autoImplicit false

namespace Lib.Coloring

/-! ## Merge trees -/

section Tree

variable {L L' C : Type*} {link : L → L → Prop} {link' : L' → L' → Prop} {col : L → C} {col' : L' → C}
  {U W : Multiset L} {c : C} {n m : ℕ}

def Touches (link : L → L → Prop) (U W : Multiset L) : Prop := ∃ u ∈ U, ∃ w ∈ W, u = w ∨ link u w

/-- The leaves `U` can be made one region of colour `c` with `n` recolourings. -/
inductive Floods (link : L → L → Prop) (col : L → C) : Multiset L → C → ℕ → Prop
  | leaf (l : L) : Floods link col {l} (col l) 0
  | merge {U W : Multiset L} {c : C} {n m : ℕ} : Floods link col U c n → Floods link col W c m →
      Touches link U W → Floods link col (U + W) c (n + m)
  | recolor {U : Multiset L} {c : C} {n : ℕ} (d : C) : Floods link col U c n →
      Floods link col U d (n + 1)

theorem Touches.mono {U' W' : Multiset L} (h : Touches link U W) (hU : ∀ l ∈ U, l ∈ U')
    (hW : ∀ l ∈ W, l ∈ W') : Touches link U' W' := by
  obtain ⟨u, hu, w, hw, h⟩ := h
  exact ⟨u, hU u hu, w, hW w hw, h⟩

theorem Floods.card_pos (h : Floods link col U c n) : 0 < U.card := by
  induction h with
  | leaf l => simp
  | merge _ _ _ ih _ =>
    rw [Multiset.card_add]
    omega
  | recolor d _ ih => exact ih

/-- A region may take in any number of leaves of its colour that it touches. -/
theorem Floods.absorb (h : Floods link col U c n) {s : Multiset L}
    (hs : ∀ l ∈ s, col l = c ∧ ∃ u ∈ U, link u l) : Floods link col (U + s) c n := by
  induction s using Multiset.induction with
  | empty => simpa using h
  | cons l s ih =>
    obtain ⟨rfl, u, hu, hul⟩ := hs l (Multiset.mem_cons_self l s)
    have hU := ih fun k hk => hs k (Multiset.mem_cons_of_mem hk)
    have hmerge := hU.merge (.leaf l)
      ⟨u, Multiset.mem_add.mpr (.inl hu), l, Multiset.mem_singleton_self l, .inr hul⟩
    rwa [add_assoc, add_comm s, Multiset.singleton_add] at hmerge

/-- Only the colours of the leaves matter. -/
theorem Floods.congr {col₂ : L → C} (h : Floods link col U c n) (hcol : ∀ l ∈ U, col₂ l = col l) :
    Floods link col₂ U c n := by
  induction h with
  | leaf l =>
    rw [← hcol l (Multiset.mem_singleton_self l)]
    exact .leaf l
  | merge _ _ ht ih₁ ih₂ =>
    exact .merge (ih₁ fun l hl => hcol l (Multiset.mem_add.mpr (.inl hl)))
      (ih₂ fun l hl => hcol l (Multiset.mem_add.mpr (.inr hl))) ht
  | recolor d _ ih => exact .recolor d (ih hcol)

/-- Leaves of one colour may be run together. -/
theorem Floods.map (f : L → L') (hcol : ∀ l, col' (f l) = col l)
    (hlink : ∀ a b, link a b → f a = f b ∨ link' (f a) (f b)) (h : Floods link col U c n) :
    Floods link' col' (U.map f) c n := by
  induction h with
  | leaf l =>
    rw [Multiset.map_singleton, ← hcol l]
    exact .leaf (f l)
  | merge _ _ ht ih₁ ih₂ =>
    obtain ⟨u, hu, w, hw, h⟩ := ht
    rw [Multiset.map_add]
    refine .merge ih₁ ih₂ ⟨f u, Multiset.mem_map_of_mem f hu, f w, Multiset.mem_map_of_mem f hw, ?_⟩
    rcases h with rfl | h
    · exact .inl rfl
    · exact hlink u w h
  | recolor d _ ih => exact .recolor d ih

/-- A leaf may stand for a region of the same colour. -/
theorem Floods.bind (S : L → Multiset L') (w : L → ℕ)
    (hS : ∀ l, Floods link' col' (S l) (col l) (w l))
    (hlink : ∀ a b, link a b → Touches link' (S a) (S b)) (h : Floods link col U c n) :
    Floods link' col' (U.bind S) c (n + (U.map w).sum) := by
  induction h with
  | leaf l => simpa using hS l
  | @merge U W c n m _ _ ht ih₁ ih₂ =>
    rw [Multiset.add_bind, Multiset.map_add, Multiset.sum_add, add_add_add_comm]
    refine .merge ih₁ ih₂ ?_
    obtain ⟨u, hu, v, hv, h⟩ := ht
    have hsub : ∀ {a : L} {A : Multiset L}, a ∈ A → ∀ x ∈ S a, x ∈ A.bind S :=
      fun ha x hx => Multiset.mem_bind.mpr ⟨_, ha, hx⟩
    rcases h with rfl | h
    · obtain ⟨x, hx⟩ := Multiset.card_pos_iff_exists_mem.mp (hS u).card_pos
      exact ⟨x, hsub hu x hx, x, hsub hv x hx, .inl rfl⟩
    · exact (hlink u v h).mono (hsub hu) (hsub hv)
  | recolor d _ ih =>
    rw [add_right_comm]
    exact .recolor d ih

/-! ## Leaves that occur twice -/

/-- The way from a leaf `y` up to the root. Either nothing on it is recoloured, and another region
of `y`'s colour can take the place of `y`; or there is a first recolouring on it, and below and
above it another region can take the place of what is there. -/
theorem Floods.spine (h : Floods link col U c n) {y : L} (hy : y ∈ U) :
    (∃ U', U = y ::ₘ U' ∧ c = col y ∧ ∀ A m, Floods link col A (col y) m → y ∈ A →
        Floods link col (A + U') (col y) (m + n)) ∨
      ∃ U₀ U₁ n₀ k, U = y ::ₘ U₀ + U₁ ∧ n = n₀ + k ∧
        (∀ A m, Floods link col A (col y) m → y ∈ A →
          Floods link col (A + U₀) (col y) (m + n₀)) ∧
        ∀ A e m, Floods link col A e m → (∀ l ∈ y ::ₘ U₀, l ∈ A) →
          Floods link col (A + U₁) c (m + k) := by
  induction h with
  | leaf l =>
    obtain rfl := Multiset.mem_singleton.mp hy
    exact .inl ⟨0, rfl, rfl, fun A m hA _ => by simpa using hA⟩
  -- Whatever is joined from the side is joined again, to what has taken the leaf's place.
  | @merge U W c n m hU hW ht ih₁ ih₂ =>
    rcases Multiset.mem_add.mp hy with hyU | hyW
    · rcases ih₁ hyU with ⟨U', rfl, rfl, hplug⟩ | ⟨U₀, U₁, n₀, k, rfl, rfl, hbelow, habove⟩
      · refine .inl ⟨U' + W, by rw [Multiset.cons_add], rfl, fun A a hA hyA => ?_⟩
        rw [← add_assoc, ← add_assoc]
        refine (hplug A a hA hyA).merge hW (ht.mono ?_ fun _ h => h)
        simp only [Multiset.mem_cons, Multiset.mem_add, forall_eq_or_imp]
        exact ⟨.inl hyA, fun l hl => .inr hl⟩
      · refine .inr ⟨U₀, U₁ + W, n₀, k + m, by rw [add_assoc], by omega, hbelow,
          fun A e a hA hsub => ?_⟩
        rw [← add_assoc, ← add_assoc]
        refine (habove A e a hA hsub).merge hW (ht.mono (fun l hl => ?_) fun _ h => h)
        rcases Multiset.mem_add.mp hl with hl | hl
        · exact Multiset.mem_add.mpr (.inl (hsub l hl))
        · exact Multiset.mem_add.mpr (.inr hl)
    · rcases ih₂ hyW with ⟨W', rfl, rfl, hplug⟩ | ⟨W₀, W₁, n₀, k, rfl, rfl, hbelow, habove⟩
      · refine .inl ⟨U + W', by rw [Multiset.add_cons], rfl, fun A a hA hyA => ?_⟩
        rw [add_left_comm, add_left_comm a]
        refine hU.merge (hplug A a hA hyA) (ht.mono (fun _ h => h) ?_)
        simp only [Multiset.mem_cons, Multiset.mem_add, forall_eq_or_imp]
        exact ⟨.inl hyA, fun l hl => .inr hl⟩
      · refine .inr ⟨W₀, U + W₁, n₀, n + k, by abel, by omega, hbelow, fun A e a hA hsub => ?_⟩
        rw [add_left_comm, add_left_comm a]
        refine hU.merge (habove A e a hA hsub) (ht.mono (fun _ h => h) fun l hl => ?_)
        rcases Multiset.mem_add.mp hl with hl | hl
        · exact Multiset.mem_add.mpr (.inl (hsub l hl))
        · exact Multiset.mem_add.mpr (.inr hl)
  -- The first recolouring on the way ends what is below; a later one belongs to what is above.
  | @recolor U c n d hU ih =>
    rcases ih hy with ⟨U', rfl, rfl, hplug⟩ | ⟨U₀, U₁, n₀, k, rfl, rfl, hbelow, habove⟩
    · refine .inr ⟨U', 0, n, 1, by rw [add_zero], rfl, hplug, fun A e m hA _ => ?_⟩
      rw [add_zero]
      exact .recolor d hA
    · exact .inr ⟨U₀, U₁, n₀, k + 1, rfl, by omega, hbelow,
        fun A e m hA hsub => .recolor d (habove A e m hA hsub)⟩

/-- Two regions that share a leaf can be joined at it. -/
theorem Floods.merge_shared (hU : Floods link col U c n) (hW : Floods link col W c m) {y : L}
    (hyU : y ∈ U) (hyW : y ∈ W) :
    ∃ W', W = y ::ₘ W' ∧ Floods link col (U + W') c (n + m) := by
  rcases hW.spine hyW with ⟨W', rfl, rfl, hplug⟩ | ⟨W₀, W₁, m₀, k, rfl, rfl, hbelow, habove⟩
  · exact ⟨W', rfl, hplug U n hU hyU⟩
  · refine ⟨W₀ + W₁, by rw [Multiset.cons_add], ?_⟩
    rcases hU.spine hyU with ⟨U', rfl, rfl, hplugU⟩ | ⟨U₀, U₁, n₀, k', rfl, rfl, hbelow', habove'⟩
    · have h := hplugU _ _ hW hyW
      rw [Multiset.cons_add, Multiset.cons_add, add_comm _ U', add_comm _ n, ← Multiset.cons_add] at h
      exact h
    · -- Both ways up are recoloured: what is below the first recolouring comes together at `y`.
      have h₀ := hbelow' {y} 0 (.leaf y) (Multiset.mem_singleton_self y)
      have h₁ := hbelow _ _ h₀ (by simp)
      have h₂ := habove' _ _ _ h₁ (by simp +contextual [or_imp])
      have h₃ := habove _ _ _ h₂ (by simp +contextual [or_imp])
      have hleaves : ({y} + U₀ + W₀ + U₁ + W₁ : Multiset L) = y ::ₘ U₀ + U₁ + (W₀ + W₁) := by
        rw [← Multiset.singleton_add]
        abel
      rw [hleaves, show 0 + n₀ + m₀ + k' + k = n₀ + k' + (m₀ + k) by omega] at h₃
      exact h₃

/-- **No leaf need occur twice.** -/
theorem Floods.nodup (h : Floods link col U c n) :
    ∃ U' n', U'.Nodup ∧ (∀ l, l ∈ U' ↔ l ∈ U) ∧ n' ≤ n ∧ Floods link col U' c n' := by
  classical
  suffices H : ∀ N U c n, Floods link col U c n → U.card = N →
      ∃ U' n', U'.Nodup ∧ (∀ l, l ∈ U' ↔ l ∈ U) ∧ n' ≤ n ∧ Floods link col U' c n' from
    H _ U c n h rfl
  intro N
  -- On the number of leaves, counted with repetition, and within that on the tree: `recolor` keeps
  -- the leaves.
  induction N using Nat.strong_induction_on with
  | h N ihN =>
    intro U c n h
    induction h with
    | leaf l => exact fun _ => ⟨{l}, 0, Multiset.nodup_singleton l, fun _ => .rfl, le_rfl, .leaf l⟩
    | recolor d _ ih =>
      intro hN
      obtain ⟨U', n', hnd, hmem, hn, hU'⟩ := ih hN
      exact ⟨U', n' + 1, hnd, hmem, Nat.succ_le_succ hn, .recolor d hU'⟩
    | @merge U W c n m hU hW ht _ _ =>
      intro hN
      rw [Multiset.card_add] at hN
      have hcU := hU.card_pos
      have hcW := hW.card_pos
      obtain ⟨U', n', hndU, hmemU, hn, hU'⟩ := ihN _ (by omega) U c n hU rfl
      obtain ⟨W', m', hndW, hmemW, hm, hW'⟩ := ihN _ (by omega) W c m hW rfl
      by_cases hdisj : Disjoint U' W'
      · refine ⟨U' + W', n' + m', Multiset.nodup_add.mpr ⟨hndU, hndW, hdisj⟩, fun l => ?_,
          Nat.add_le_add hn hm, hU'.merge hW' (ht.mono (fun l => (hmemU l).mpr) fun l => (hmemW l).mpr)⟩
        rw [Multiset.mem_add, Multiset.mem_add, hmemU, hmemW]
      · -- A shared leaf goes, and the tree is smaller.
        obtain ⟨y, hyU, hyW⟩ : ∃ y, y ∈ U' ∧ y ∈ W' := by
          by_contra hno
          push Not at hno
          exact hdisj (Multiset.disjoint_left.mpr fun {y} hy => hno y hy)
        obtain ⟨W'', rfl, hjoin⟩ := hU'.merge_shared hW' hyU hyW
        have hle : ∀ {A B : Multiset L}, A.Nodup → (∀ l, l ∈ A ↔ l ∈ B) → A.card ≤ B.card :=
          fun hA hAB => Multiset.card_le_card
            ((Multiset.le_iff_subset hA).mpr fun l hl => (hAB l).mp hl)
        have hleU := hle hndU hmemU
        have hleW := hle hndW hmemW
        rw [Multiset.card_cons] at hleW
        obtain ⟨X, k, hnd, hmem, hk, hX⟩ := ihN (U' + W'').card
          (by rw [Multiset.card_add]; omega) _ c _ hjoin rfl
        refine ⟨X, k, hnd, fun l => ?_, by omega, hX⟩
        rw [hmem, Multiset.mem_add, Multiset.mem_add, ← hmemU, ← hmemW, Multiset.mem_cons]
        refine ⟨fun h => h.elim .inl fun h => .inr (.inr h), fun h => ?_⟩
        rcases h with h | rfl | h
        · exact .inl h
        · exact .inl hyU
        · exact .inr h

/-! ## A first move -/

/-- **A tree with more than one leaf has a first move.** When touching leaves differ in colour and
no leaf occurs twice, some leaf can take the colour of a leaf it touches, and the tree for the new
colours is cheaper by that move. -/
theorem Floods.redex [DecidableEq L] (hsymm : ∀ a b, link a b → link b a)
    (hproper : ∀ a b, link a b → a ≠ b → col a ≠ col b) (h : Floods link col U c n) :
    U.Nodup → (∃ l, U = {l} ∧ (c = col l ∨ 1 ≤ n)) ∨
      ∃ k u n', k ∈ U ∧ link u k ∧ u ≠ k ∧ n' + 1 ≤ n ∧
        Floods link (Function.update col k (col u)) U c n' := by
  induction h with
  | leaf l => exact fun _ => .inl ⟨l, rfl, .inl rfl⟩
  | @recolor U c n d hU ih =>
    intro hnd
    rcases ih hnd with ⟨l, rfl, -⟩ | ⟨k, u, n', hk, hlink, hne, hn, hflood⟩
    · exact .inl ⟨l, rfl, .inr (by omega)⟩
    · exact .inr ⟨k, u, n' + 1, hk, hlink, hne, by omega, .recolor d hflood⟩
  | @merge U W c n m hU hW ht ih₁ ih₂ =>
    intro hnd
    obtain ⟨hndU, hndW, hdisj⟩ := Multiset.nodup_add.mp hnd
    rw [Multiset.disjoint_left] at hdisj
    -- A move within one of the two regions leaves the colours of the other as they are.
    rcases ih₁ hndU with ⟨a, rfl, ha⟩ | ⟨k, u, n', hk, hlink, hne, hn, hflood⟩
    swap
    · refine .inr ⟨k, u, n' + m, Multiset.mem_add.mpr (.inl hk), hlink, hne, by omega,
        hflood.merge (hW.congr fun l hl => Function.update_of_ne ?_ _ _) ht⟩
      rintro rfl
      exact hdisj hk hl
    rcases ih₂ hndW with ⟨b, rfl, hb⟩ | ⟨k, u, m', hk, hlink, hne, hm, hflood⟩
    swap
    · refine .inr ⟨k, u, n + m', Multiset.mem_add.mpr (.inr hk), hlink, hne, by omega,
        (hU.congr fun l hl => Function.update_of_ne ?_ _ _).merge hflood ht⟩
      rintro rfl
      exact hdisj hl hk
    -- Two leaves that touch: one takes the colour of the other.
    have hab : a ≠ b := by
      rintro rfl
      exact hdisj (Multiset.mem_singleton_self a) (Multiset.mem_singleton_self a)
    have hlink : link a b := by
      obtain ⟨u, hu, w, hw, h⟩ := ht
      obtain rfl := Multiset.mem_singleton.mp hu
      obtain rfl := Multiset.mem_singleton.mp hw
      exact h.resolve_left hab
    have hcol := hproper a b hlink hab
    right
    -- The two leaves joined, once `k` has the colour of `u`.
    have hjoin : ∀ k u, u ≠ k → (u = a ∧ k = b) ∨ (u = b ∧ k = a) →
        Floods link (Function.update col k (col u)) ({a} + {b}) (col u) 0 := by
      intro k u hne hku
      have hua : Function.update col k (col u) a = col u := by
        rcases hku with ⟨rfl, rfl⟩ | ⟨rfl, rfl⟩
        · exact Function.update_of_ne hne _ _
        · exact Function.update_self ..
      have hub : Function.update col k (col u) b = col u := by
        rcases hku with ⟨rfl, rfl⟩ | ⟨rfl, rfl⟩
        · exact Function.update_self ..
        · exact Function.update_of_ne hne _ _
      have hla : Floods link (Function.update col k (col u)) _ _ _ := .leaf a
      have hlb : Floods link (Function.update col k (col u)) _ _ _ := .leaf b
      rw [hua] at hla
      rw [hub] at hlb
      exact hla.merge hlb ht
    have hmem : a ∈ ({a} + {b} : Multiset L) ∧ b ∈ ({a} + {b} : Multiset L) := by simp
    by_cases hca : c = col a
    · have hm : 1 ≤ m := hb.resolve_left fun hcb => hcol (hca.symm.trans hcb)
      exact ⟨b, a, 0, hmem.2, hlink, hab, by omega, hca ▸ hjoin b a hab (.inl ⟨rfl, rfl⟩)⟩
    · have hn : 1 ≤ n := ha.resolve_left hca
      by_cases hcb : c = col b
      · exact ⟨a, b, 0, hmem.1, hsymm a b hlink, hab.symm, by omega,
          hcb ▸ hjoin a b hab.symm (.inr ⟨rfl, rfl⟩)⟩
      · have hm : 1 ≤ m := hb.resolve_left hcb
        exact ⟨b, a, 1, hmem.2, hlink, hab, by omega, .recolor c (hjoin b a hab (.inl ⟨rfl, rfl⟩))⟩

end Tree

/-! ## Components and moves -/

section Play

variable {U C : Type*} (G : SimpleGraph U)

def Solved (col : U → C) : Prop := ∀ u w, col u = col w

/-- The move gives a component the colour of a neighbouring one. -/
def AdjacentMove (col : U → C) (v : U) (c : C) : Prop :=
  c ≠ col v ∧ ∃ u w, Mono G.Adj col v u ∧ G.Adj u w ∧ col w = c

def AdjacentPlay : (U → C) → List (U × C) → Prop
  | _, [] => True
  | col, (v, c) :: ms => AdjacentMove G col v c ∧ AdjacentPlay (flood G.Adj col v c) ms

variable {G} {col : U → C} {v : U} {c : C}

theorem Mono.symm' {u w : U} (h : Mono G.Adj col u w) : Mono G.Adj col w u :=
  h.symm fun _ _ h => G.adj_symm h

theorem Mono.flooded' {u w : U} (h : Mono G.Adj col u w) : Mono G.Adj (flood G.Adj col v c) u w :=
  h.flooded fun _ _ h => G.adj_symm h

variable (G) in
def monoSetoid (col : U → C) : Setoid U :=
  ⟨Mono G.Adj col, Mono.refl, Mono.symm', Mono.trans⟩

variable (G) in
/-- The components of a colouring. -/
abbrev Comp (col : U → C) := Quotient (monoSetoid G col)

namespace Comp

variable (G) in
def of (col : U → C) (u : U) : Comp G col := Quotient.mk (monoSetoid G col) u

theorem of_eq {u w : U} : of G col u = of G col w ↔ Mono G.Adj col u w := Quotient.eq

variable (G) in
def color (col : U → C) : Comp G col → C := Quotient.lift col fun _ _ => Mono.color_eq

theorem color_of (u : U) : color G col (of G col u) = col u := rfl

variable (G) in
/-- An edge runs between the components. -/
def Link (col : U → C) (a b : Comp G col) : Prop :=
  ∃ u w, G.Adj u w ∧ of G col u = a ∧ of G col w = b

theorem Link.symm {a b : Comp G col} (h : Link G col a b) : Link G col b a := by
  obtain ⟨u, w, huw, rfl, rfl⟩ := h
  exact ⟨w, u, huw.symm, rfl, rfl⟩

/-- Components that touch differ in colour. -/
theorem Link.color_ne {a b : Comp G col} (h : Link G col a b) (hne : a ≠ b) :
    color G col a ≠ color G col b := by
  obtain ⟨u, w, huw, rfl, rfl⟩ := h
  exact fun hc => hne (of_eq.mpr (.single huw hc))

variable (v c) in
/-- The component a component is part of after a flood fill. -/
noncomputable def join (col : U → C) : Comp G col → Comp G (flood G.Adj col v c) :=
  Quotient.map' id fun _ _ => Mono.flooded'

end Comp

/-! ## From trees to plays -/

/-- Once a component has its new colour, the components it makes one may be run together. -/
theorem floods_joined [DecidableEq (Comp G col)] {S : Multiset (Comp G col)} {d : C} {n : ℕ}
    (h : Floods (Comp.Link G col) (Function.update (Comp.color G col) (Comp.of G col v) c) S d n) :
    Floods (Comp.Link G (flood G.Adj col v c)) (Comp.color G (flood G.Adj col v c))
      (S.map (Comp.join v c col)) d n := by
  refine h.map _ (fun l => ?_) fun a b hab => ?_
  · obtain ⟨x, rfl⟩ := Quotient.exists_rep l
    change flood G.Adj col v c x =
      Function.update (Comp.color G col) (Comp.of G col v) c (Comp.of G col x)
    by_cases hx : Mono G.Adj col v x
    · rw [flood_of_mono hx, ← Comp.of_eq.mpr hx, Function.update_self]
    · rw [flood_of_not_mono hx, Function.update_of_ne fun he => hx (Comp.of_eq.mp he.symm),
        Comp.color_of]
  · obtain ⟨x, y, hxy, rfl, rfl⟩ := hab
    exact .inr ⟨x, y, hxy, rfl, rfl⟩

/-- **A tree over all components is played out**, a neighbour's colour at a time. -/
theorem exists_adjacentPlay (n : ℕ) : ∀ {col : U → C} {S : Multiset (Comp G col)} {c : C},
    Floods (Comp.Link G col) (Comp.color G col) S c n → (∀ l, l ∈ S) →
    ∃ ms, AdjacentPlay G col ms ∧ Solved (play G.Adj col ms) ∧ ms.length ≤ n := by
  classical
  induction n using Nat.strong_induction_on with
  | h n ih =>
    intro col S c h hall
    obtain ⟨S, m, hnd, hmem, hm, h⟩ := h.nodup
    replace hall : ∀ l, l ∈ S := fun l => (hmem l).mpr (hall l)
    rcases h.redex (fun _ _ => Comp.Link.symm) (fun _ _ => Comp.Link.color_ne) hnd with
      ⟨l, rfl, -⟩ | ⟨k, u, m', -, hlink, hne, hm', hflood⟩
    · refine ⟨[], trivial, fun x y => ?_, Nat.zero_le n⟩
      have hone : ∀ x, Comp.of G col x = l := fun x => Multiset.mem_singleton.mp (hall _)
      exact (Comp.of_eq.mp ((hone x).trans (hone y).symm)).color_eq
    · have hcol := hlink.color_ne hne
      obtain ⟨w, v, hwv, rfl, rfl⟩ := hlink
      have hmove : AdjacentMove G col v (col w) := ⟨hcol, v, w, .refl v, hwv.symm, rfl⟩
      obtain ⟨ms, hadj, hsolved, hlen⟩ := ih m' (by omega) (floods_joined hflood) fun l => by
        obtain ⟨x, rfl⟩ := Quotient.exists_rep l
        exact Multiset.mem_map.mpr ⟨Comp.of G col x, hall _, rfl⟩
      exact ⟨(v, col w) :: ms, ⟨hmove, hadj⟩, hsolved, by rw [List.length_cons]; omega⟩

/-! ## From plays to trees -/

/-- What the component of `v` takes in with the colour `c`: components of that colour next to it. -/
theorem Mono.of_flood {y : U} (h : Mono G.Adj (flood G.Adj col v c) v y) :
    Mono G.Adj col v y ∨ (col y = c ∧ Comp.Link G col (Comp.of G col v) (Comp.of G col y)) := by
  induction h with
  | refl => exact .inl (.refl v)
  | @tail x y hx hstep ih =>
    by_cases hy : Mono G.Adj col v y
    · exact .inl hy
    · have hcy : col y = c := by
        rw [← flood_of_not_mono (c := c) hy, ← Mono.color_eq (Mono.tail hx hstep.1 hstep.2),
          flood_self]
      refine .inr ⟨hcy, ?_⟩
      rcases ih with ih | ⟨hcx, hlink⟩
      · exact ⟨x, y, hstep.1, (Comp.of_eq.mpr ih).symm, rfl⟩
      · rwa [← Comp.of_eq.mpr (.single hstep.1 (hcx.trans hcy.symm))]

/-- Away from the component of `v`, a flood fill changes no component. -/
theorem Mono.of_flood_away {x y : U} (h : Mono G.Adj (flood G.Adj col v c) x y)
    (hx : ¬ Mono G.Adj (flood G.Adj col v c) v x) : Mono G.Adj col x y := by
  have haway : ∀ {z}, Mono G.Adj (flood G.Adj col v c) x z →
      flood G.Adj col v c z = col z := fun hz => by
    refine flood_of_not_mono fun hvz => hx (Mono.trans (Mono.flooded' hvz) hz.symm')
  induction h with
  | refl => exact .refl x
  | @tail y z hy hstep ih =>
    refine ih.tail hstep.1 ?_
    rw [← haway hy, ← haway (Mono.tail hy hstep.1 hstep.2), hstep.2]

/-- A tree for what a move leads to gives a tree that costs one more. -/
theorem floods_of_move [Finite U] {S : Multiset (Comp G (flood G.Adj col v c))} {d : C} {n : ℕ}
    (h : Floods (Comp.Link G _) (Comp.color G (flood G.Adj col v c)) S d n) (hall : ∀ l, l ∈ S) :
    ∃ S' n', Floods (Comp.Link G col) (Comp.color G col) S' d n' ∧ (∀ l, l ∈ S') ∧ n' ≤ n + 1 := by
  classical
  have := Fintype.ofFinite (Comp G col)
  obtain ⟨S, n₀, hnd, hmem, hn, h⟩ := h.nodup
  replace hall : ∀ l, l ∈ S := fun l => (hmem l).mpr (hall l)
  set K := Comp.of G col v
  set K' := Comp.of G (flood G.Adj col v c) v
  -- What becomes one component, and what the rest were.
  let parts (x : Comp G (flood G.Adj col v c)) : Multiset (Comp G col) :=
    if x = K' then {K} + (Finset.univ.filter fun l => Comp.color G col l = c ∧ Comp.Link G col K l).val
    else {Comp.of G col x.out}
  let cost (x : Comp G (flood G.Adj col v c)) : ℕ := if x = K' then 1 else 0
  have hout : ∀ x : Comp G (flood G.Adj col v c), Comp.of G (flood G.Adj col v c) x.out = x :=
    Quotient.out_eq
  have hcover : ∀ y, Comp.of G col y ∈ parts (Comp.of G (flood G.Adj col v c) y) := by
    intro y
    by_cases hy : Comp.of G (flood G.Adj col v c) y = K'
    · simp only [parts, if_pos hy, Multiset.mem_add, Multiset.mem_singleton, Finset.mem_val,
        Finset.mem_filter, Finset.mem_univ, true_and]
      exact (Mono.of_flood (Comp.of_eq.mp hy.symm)).imp (fun h => (Comp.of_eq.mpr h).symm) id
    · simp only [parts, if_neg hy, Multiset.mem_singleton]
      refine Comp.of_eq.mpr (Mono.symm' (Mono.of_flood_away (Comp.of_eq.mp (hout _)) fun hv => hy ?_))
      exact ((Comp.of_eq.mpr hv).trans (hout _)).symm
  have hparts : ∀ x, Floods (Comp.Link G col) (Comp.color G col) (parts x)
      (Comp.color G (flood G.Adj col v c) x) (cost x) := by
    intro x
    by_cases hx : x = K'
    · have hcolor : Comp.color G (flood G.Adj col v c) x = c := by rw [hx, Comp.color_of, flood_self]
      simp only [parts, cost, if_pos hx, hcolor]
      refine (Floods.recolor c (.leaf K)).absorb fun l hl => ?_
      simp only [Finset.mem_val, Finset.mem_filter, Finset.mem_univ, true_and] at hl
      exact ⟨hl.1, K, Multiset.mem_singleton_self K, hl.2⟩
    · have hcolor : Comp.color G (flood G.Adj col v c) x =
          Comp.color G col (Comp.of G col x.out) := by
        conv_lhs => rw [← hout x]
        refine flood_of_not_mono fun hv => hx ?_
        rw [← hout x]
        exact (Comp.of_eq.mpr (Mono.flooded' hv)).symm
      simp only [parts, cost, if_neg hx, hcolor]
      exact .leaf _
  refine ⟨S.bind parts, n₀ + (S.map cost).sum, h.bind parts cost hparts ?_, fun l => ?_, ?_⟩
  · rintro a b ⟨x, y, hxy, rfl, rfl⟩
    exact ⟨_, hcover x, _, hcover y, .inr ⟨x, y, hxy, rfl, rfl⟩⟩
  · obtain ⟨y, rfl⟩ := Quotient.exists_rep l
    exact Multiset.mem_bind.mpr ⟨_, hall _, hcover y⟩
  · -- `K'` occurs only once.
    have hsum : (S.map cost).sum = if K' ∈ S.toFinset then 1 else 0 := by
      rw [← Finset.sum_ite_eq' S.toFinset K' fun _ => 1, Finset.sum, Multiset.toFinset_val,
        Multiset.dedup_eq_self.mpr hnd]
    rw [hsum]
    split <;> omega

/-- **A play that leads to one colour gives a tree over all components** that costs a recolouring
for each move at most. -/
theorem floods_of_play [Finite U] [Nonempty U] (hG : G.Preconnected) (ms : List (U × C)) :
    ∀ {col : U → C}, Solved (play G.Adj col ms) →
      ∃ S c n, Floods (Comp.Link G col) (Comp.color G col) S c n ∧ (∀ l, l ∈ S) ∧
        n ≤ ms.length := by
  induction ms with
  | nil =>
    intro col h
    obtain ⟨u⟩ := ‹Nonempty U›
    refine ⟨_, _, 0, .leaf (Comp.of G col u), fun l => ?_, le_rfl⟩
    obtain ⟨w, rfl⟩ := Quotient.exists_rep l
    refine Multiset.mem_singleton.mpr (Comp.of_eq.mpr ?_)
    have hpath := (SimpleGraph.reachable_iff_reflTransGen w u).mp (hG w u)
    unfold Mono
    exact hpath.lift id fun a b hab => ⟨hab, h a b⟩
  | cons m ms ih =>
    intro col h
    obtain ⟨v, c⟩ := m
    obtain ⟨S, d, n, hflood, hall, hn⟩ := ih h
    obtain ⟨S', n', hflood', hall', hn'⟩ := floods_of_move hflood hall
    exact ⟨S', d, n', hflood', hall', by rw [List.length_cons]; omega⟩

/-- A connected graph can be brought to one colour. -/
theorem exists_floods [Finite U] [Nonempty U] (hG : G.Preconnected) (col : U → C) :
    ∃ S c n, Floods (Comp.Link G col) (Comp.color G col) S c n ∧ ∀ l, l ∈ S := by
  classical
  have := Fintype.ofFinite (Comp G col)
  obtain ⟨u⟩ := ‹Nonempty U›
  -- A region with the component of `u` can be grown along a path, taking each colour it meets.
  have hgrow : ∀ w, Relation.ReflTransGen G.Adj u w → ∀ S c n,
      Floods (Comp.Link G col) (Comp.color G col) S c n → Comp.of G col u ∈ S →
      ∃ S' c' n', Floods (Comp.Link G col) (Comp.color G col) S' c' n' ∧ (∀ l ∈ S, l ∈ S') ∧
        Comp.of G col w ∈ S' := by
    intro w hw
    induction hw with
    | refl => exact fun S c n h hu => ⟨S, c, n, h, fun _ hl => hl, hu⟩
    | @tail x y _ hxy ih =>
      intro S c n h hu
      obtain ⟨S', c', n', h', hsub, hx⟩ := ih S c n h hu
      refine ⟨S' + {Comp.of G col y}, _, _, (h'.recolor (Comp.color G col (Comp.of G col y))).merge
        (.leaf _) ⟨_, hx, _, Multiset.mem_singleton_self _, .inr ⟨x, y, hxy, rfl, rfl⟩⟩,
        fun l hl => Multiset.mem_add.mpr (.inl (hsub l hl)), by simp⟩
  have hall : ∀ s : Finset (Comp G col), ∃ S c n,
      Floods (Comp.Link G col) (Comp.color G col) S c n ∧ Comp.of G col u ∈ S ∧ ∀ l ∈ s, l ∈ S := by
    intro s
    induction s using Finset.induction with
    | empty => exact ⟨_, _, 0, .leaf (Comp.of G col u), Multiset.mem_singleton_self _, by simp⟩
    | insert l s _ ih =>
      obtain ⟨S, c, n, h, hu, hs⟩ := ih
      obtain ⟨w, rfl⟩ := Quotient.exists_rep l
      obtain ⟨S', c', n', h', hsub, hw⟩ :=
        hgrow w ((SimpleGraph.reachable_iff_reflTransGen u w).mp (hG u w)) S c n h hu
      refine ⟨S', c', n', h', hsub _ hu, fun k hk => ?_⟩
      rcases Finset.mem_insert.mp hk with rfl | hk
      · exact hw
      · exact hsub k (hs k hk)
  obtain ⟨S, c, n, h, -, hS⟩ := hall Finset.univ
  exact ⟨S, c, n, h, fun l => hS l (Finset.mem_univ l)⟩

/-- **Taking the colour of a neighbour is enough.** Whatever a play reaches one colour with, moves
that give a component the colour of a neighbouring one reach it with no more. -/
theorem exists_adjacentPlay_le [Finite U] [Nonempty U] (hG : G.Preconnected) {col : U → C}
    {ms : List (U × C)} (h : Solved (play G.Adj col ms)) :
    ∃ ms', AdjacentPlay G col ms' ∧ Solved (play G.Adj col ms') ∧ ms'.length ≤ ms.length := by
  obtain ⟨S, c, n, hflood, hall, hn⟩ := floods_of_play hG ms h
  obtain ⟨ms', hadj, hsolved, hlen⟩ := exists_adjacentPlay n hflood hall
  exact ⟨ms', hadj, hsolved, hlen.trans hn⟩

end Play

end Lib.Coloring
