import Mathlib.Logic.Basic
import UnionCollegeCode.Lib.EState
import UnionCollegeCode.Kami3.ColoredGraph

/-!
# Well-formed graphs

Every vertex has a colour and a set of neighbours, and adjacency is symmetric and irreflexive. On
such a graph no method throws for a vertex it has. Each method gets one lemma here that says what it
leaves behind, in terms of the three things a graph tells: its vertices, `Adj` and `colorAt`.
-/

set_option autoImplicit false

namespace UnionCollegeCode.Kami3

open Lib.EState Lib.JavaCollections

namespace ColoredGraph

/-! ## What a graph tells -/

variable {V : Type}

def colorAt (g : ColoredGraph V) (v : V) : Option ℤ := g.colorMap.get v

def Adj (g : ColoredGraph V) (v w : V) : Prop := ∃ s, g.adjVertices.get v = some s ∧ w ∈ s

instance [DecidableEq V] (g : ColoredGraph V) (v w : V) : Decidable (g.Adj v w) :=
  match h : g.adjVertices.get v with
  | some s => decidable_of_iff (w ∈ s) ⟨fun hw => ⟨s, h, hw⟩, fun ⟨_, ht, hw⟩ =>
      Option.some.inj (h.symm.trans ht) ▸ hw⟩
  | none => isFalse fun ⟨_, ht, _⟩ => Option.some_ne_none _ (ht.symm.trans h)

structure WF (g : ColoredGraph V) : Prop where
  colored : ∀ v, v ∈ g ↔ v ∈ g.colorMap
  symm : ∀ v w, g.Adj v w → g.Adj w v
  irrefl : ∀ v, ¬ g.Adj v v

def NonNeg (g : ColoredGraph V) : Prop := ∀ v c, g.colorAt v = some c → 0 ≤ c

/-- The two graphs tell the same, whatever the order their maps were filled in. -/
structure Same (g g' : ColoredGraph V) : Prop where
  mem : ∀ v, v ∈ g' ↔ v ∈ g
  adj : ∀ v w, g'.Adj v w ↔ g.Adj v w
  color : ∀ v, g'.colorAt v = g.colorAt v

variable {g : ColoredGraph V}

theorem Adj.mem_left {v w : V} (h : g.Adj v w) : v ∈ g := by
  obtain ⟨s, hs, -⟩ := h
  exact HashMap.mem_of_get hs

theorem WF.mem_right (hg : g.WF) {v w : V} (h : g.Adj v w) : w ∈ g := (hg.symm v w h).mem_left

theorem WF.exists_color (hg : g.WF) {v : V} (hv : v ∈ g) : ∃ c, g.colorAt v = some c :=
  HashMap.mem_iff.mp ((hg.colored v).mp hv)

theorem WF.mem_of_color (hg : g.WF) {v : V} {c : ℤ} (h : g.colorAt v = some c) : v ∈ g :=
  (hg.colored v).mpr (HashMap.mem_of_get h)

/-- The set a vertex of the graph has as its neighbours. -/
theorem exists_neighbors {v : V} (hv : v ∈ g) :
    ∃ s, g.getNeighbors v = some s ∧ ∀ w, w ∈ s ↔ g.Adj v w := by
  obtain ⟨s, hs⟩ := HashMap.mem_iff.mp (mem_def.mp hv)
  refine ⟨s, hs, fun w => ⟨fun hw => ⟨s, hs, hw⟩, ?_⟩⟩
  rintro ⟨t, ht, hw⟩
  rw [hs, Option.some.injEq] at ht
  exact ht ▸ hw

theorem Same.refl (g : ColoredGraph V) : Same g g := ⟨fun _ => .rfl, fun _ _ => .rfl, fun _ => rfl⟩

theorem Same.trans {g g' g'' : ColoredGraph V} (h : Same g g') (h' : Same g' g'') : Same g g'' :=
  ⟨fun v => (h'.mem v).trans (h.mem v), fun v w => (h'.adj v w).trans (h.adj v w),
    fun v => (h'.color v).trans (h.color v)⟩

theorem Same.wf {g g' : ColoredGraph V} (h : Same g g') (hg : g.WF) : g'.WF where
  colored v := by
    rw [h.mem, hg.colored, ← not_iff_not, ← HashMap.get_eq_none, ← HashMap.get_eq_none]
    exact (Eq.congr_left (h.color v)).symm
  symm v w hvw := (h.adj w v).mpr (hg.symm v w ((h.adj v w).mp hvw))
  irrefl v hv := hg.irrefl v ((h.adj v v).mp hv)

theorem Same.nonNeg {g g' : ColoredGraph V} (h : Same g g') (hg : g.NonNeg) : g'.NonNeg :=
  fun v c hc => hg v c (h.color v ▸ hc)

theorem wf_new : (new V).WF where
  colored v := by simp [mem_def, new]
  symm v w := by rintro ⟨s, hs, -⟩; cases hs
  irrefl v := by rintro ⟨s, hs, -⟩; cases hs

/-! ## Vertices and colours -/

theorem call_ok {α : Type} {m : GraphM V α} {a : α} {g' : ColoredGraph V}
    (h : m g = .ok a g') : call m g = .ok (a, g') := by
  simp [call, h]

variable [DecidableEq V]

theorem getVertexColor_ok {v : V} {c : ℤ} (hv : v ∈ g) (hc : g.colorAt v = some c) :
    getVertexColor v g = .ok c g := by
  have hc' : g.colorMap.get v = some c := hc
  simp [getVertexColor, bind, EStateM.bind, get_ok, hv, hc',
    pure, EStateM.pure]

theorem getVertexColor_of_not_mem {v : V} (hv : v ∉ g) :
    getVertexColor v g = .error (.illegalArgument "the vertex is not in the graph") g := by
  simp [getVertexColor, bind, EStateM.bind, get_ok, hv,
    throw_error]

def withColor (g : ColoredGraph V) (v : V) (c : ℤ) : ColoredGraph V :=
  { g with colorMap := g.colorMap.put v c }

theorem setVertexColor_ok {v : V} {c : ℤ} (hv : v ∈ g) :
    setVertexColor v c g = .ok () (g.withColor v c) := by
  simp [setVertexColor, bind, EStateM.bind, get_ok, hv,
    modify_ok, withColor]

@[simp] theorem mem_withColor {v u : V} {c : ℤ} : u ∈ g.withColor v c ↔ u ∈ g := Iff.rfl

@[simp] theorem adj_withColor {v u w : V} {c : ℤ} : (g.withColor v c).Adj u w ↔ g.Adj u w := Iff.rfl

theorem colorAt_withColor (v u : V) (c : ℤ) :
    (g.withColor v c).colorAt u = if u = v then some c else g.colorAt u := HashMap.get_put ..

theorem WF.withColor (hg : g.WF) {v : V} (c : ℤ) (hv : v ∈ g) : (g.withColor v c).WF where
  colored u := by
    rw [mem_withColor, hg.colored]
    refine ⟨fun h => HashMap.mem_put.mpr (.inr h), fun h => ?_⟩
    rcases HashMap.mem_put.mp h with rfl | h
    · exact (hg.colored u).mp hv
    · exact h
  symm := hg.symm
  irrefl := hg.irrefl

theorem NonNeg.withColor (hg : g.NonNeg) (v : V) {c : ℤ} (hc : 0 ≤ c) : (g.withColor v c).NonNeg := by
  intro u d hd
  rw [colorAt_withColor] at hd
  split at hd
  · exact Option.some.inj hd ▸ hc
  · exact hg u d hd

def withVertex (g : ColoredGraph V) (v : V) (c : ℤ) : ColoredGraph V where
  adjVertices := g.adjVertices.put v (.empty V)
  colorMap := g.colorMap.put v c

theorem addVertex_ok {v : V} {c : ℤ} (hv : v ∉ g) (hc : 0 ≤ c) :
    addVertex v c g = .ok () (g.withVertex v c) := by
  simp [addVertex, bind, EStateM.bind, get_ok, hv,
    modify_ok, Int.not_lt.mpr hc, withVertex]

theorem mem_withVertex {v u : V} {c : ℤ} : u ∈ g.withVertex v c ↔ u = v ∨ u ∈ g := HashMap.mem_put

theorem colorAt_withVertex (v u : V) (c : ℤ) :
    (g.withVertex v c).colorAt u = if u = v then some c else g.colorAt u := HashMap.get_put ..

theorem adj_withVertex {v u w : V} {c : ℤ} (hv : v ∉ g) :
    (g.withVertex v c).Adj u w ↔ g.Adj u w := by
  unfold Adj withVertex
  rw [HashMap.get_put]
  split
  · rename_i h
    subst h
    have : g.adjVertices.get u = none := HashMap.get_eq_none.mpr hv
    simp [this]
  · rfl

theorem WF.withVertex (hg : g.WF) {v : V} (c : ℤ) (hv : v ∉ g) : (g.withVertex v c).WF where
  colored u := by
    rw [mem_withVertex, hg.colored]
    exact HashMap.mem_put.symm
  symm u w h := (adj_withVertex hv).mpr (hg.symm u w ((adj_withVertex hv).mp h))
  irrefl u h := hg.irrefl u ((adj_withVertex hv).mp h)

/-! ## Edges -/

theorem addNeighbor_spec {v w : V} (hv : v ∈ g) :
    ∃ g', addNeighbor v w g = .ok () g' ∧ g'.colorMap = g.colorMap ∧
      g'.adjVertices.keySet = g.adjVertices.keySet ∧
      ∀ a b, g'.Adj a b ↔ g.Adj a b ∨ (a = v ∧ b = w) := by
  obtain ⟨s, hs⟩ := HashMap.mem_iff.mp (mem_def.mp hv)
  refine ⟨{ g with adjVertices := g.adjVertices.put v (s.add w) }, ?_, rfl,
    HashMap.keySet_put_of_mem hv, fun a b => ?_⟩
  · simp [addNeighbor, bind, EStateM.bind, get_ok, hs,
      modify_ok]
  · unfold Adj
    rw [HashMap.get_put]
    by_cases ha : a = v
    · subst ha
      simp [hs, or_comm]
    · simp [ha]

/-- What `addEdge` leaves behind. -/
theorem addEdge_spec (hg : g.WF) {v w : V} (hv : v ∈ g) (hw : w ∈ g) :
    ∃ g', addEdge v w g = .ok () g' ∧ g'.WF ∧ g'.colorMap = g.colorMap ∧
      g'.adjVertices.keySet = g.adjVertices.keySet ∧
      ∀ a b, g'.Adj a b ↔ g.Adj a b ∨ (v ≠ w ∧ ((a = v ∧ b = w) ∨ (a = w ∧ b = v))) := by
  by_cases hvw : v = w
  · subst hvw
    refine ⟨g, ?_, hg, rfl, rfl, by simp⟩
    simp [addEdge, pure, EStateM.pure]
  · obtain ⟨g₁, h₁, hc₁, hk₁, ha₁⟩ := addNeighbor_spec (w := w) hv
    have hw₁ : w ∈ g₁ := by rw [mem_def, HashMap.mem_def, hk₁]; exact hw
    obtain ⟨g₂, h₂, hc₂, hk₂, ha₂⟩ := addNeighbor_spec (w := v) hw₁
    have hmem : ∀ u, u ∈ g₂ ↔ u ∈ g := fun u => by
      rw [mem_def, HashMap.mem_def, hk₂, hk₁]; rfl
    have hadj : ∀ a b, g₂.Adj a b ↔ g.Adj a b ∨ (v ≠ w ∧ ((a = v ∧ b = w) ∨ (a = w ∧ b = v))) := by
      intro a b
      rw [ha₂, ha₁]
      simp [hvw, or_assoc]
    refine ⟨g₂, ?_, ⟨fun u => ?_, fun a b => ?_, fun a => ?_⟩, hc₂.trans hc₁, hk₂.trans hk₁, hadj⟩
    · unfold addEdge
      rw [if_neg hvw, bind_ok (f := fun _ => _) h₁, h₂]
    · rw [hmem, hg.colored, hc₂, hc₁]
    · rw [hadj, hadj]
      rintro (h | ⟨hne, h⟩)
      · exact .inl (hg.symm a b h)
      · exact .inr ⟨hne, by tauto⟩
    · rw [hadj]
      rintro (h | ⟨hne, ⟨rfl, rfl⟩ | ⟨rfl, rfl⟩⟩)
      · exact hg.irrefl a h
      · exact hne rfl
      · exact hne rfl

theorem addEdges_spec (v : V) (ws : List V) : ∀ {g : ColoredGraph V}, g.WF → v ∈ g →
    (∀ w ∈ ws, w ∈ g) → ∃ g', addEdges v ws g = .ok () g' ∧ g'.WF ∧ g'.colorMap = g.colorMap ∧
      g'.adjVertices.keySet = g.adjVertices.keySet ∧
      ∀ a b, g'.Adj a b ↔ g.Adj a b ∨ (a ≠ b ∧ ((a = v ∧ b ∈ ws) ∨ (a ∈ ws ∧ b = v))) := by
  induction ws with
  | nil => exact fun hg _ _ => ⟨_, rfl, hg, rfl, rfl, by simp⟩
  | cons w ws ih =>
    intro g hg hv hws
    obtain ⟨g₁, h₁, hg₁, hc₁, hk₁, ha₁⟩ := addEdge_spec hg hv (hws w List.mem_cons_self)
    have hmem : ∀ u, u ∈ g₁ ↔ u ∈ g := fun u => by rw [mem_def, HashMap.mem_def, hk₁]; rfl
    obtain ⟨g₂, h₂, hg₂, hc₂, hk₂, ha₂⟩ := ih hg₁ ((hmem v).mpr hv)
      fun u hu => (hmem u).mpr (hws u (List.mem_cons_of_mem w hu))
    refine ⟨g₂, ?_, hg₂, hc₂.trans hc₁, hk₂.trans hk₁, fun a b => ?_⟩
    · rw [addEdges, bind_ok h₁, h₂]
    · rw [ha₂, ha₁, List.mem_cons, List.mem_cons]
      constructor
      · rintro ((h | ⟨hne, ⟨rfl, rfl⟩ | ⟨rfl, rfl⟩⟩) | ⟨hne, h⟩)
        · exact .inl h
        · exact .inr ⟨hne, .inl ⟨rfl, .inl rfl⟩⟩
        · exact .inr ⟨hne.symm, .inr ⟨.inl rfl, rfl⟩⟩
        · exact .inr ⟨hne, by tauto⟩
      · rintro (h | ⟨hne, ⟨rfl, rfl | h⟩ | ⟨rfl | h, rfl⟩⟩)
        · exact .inl (.inl h)
        · exact .inl (.inr ⟨hne, .inl ⟨rfl, rfl⟩⟩)
        · exact .inr ⟨hne, .inl ⟨rfl, h⟩⟩
        · exact .inl (.inr ⟨hne.symm, .inr ⟨rfl, rfl⟩⟩)
        · exact .inr ⟨hne, .inr ⟨h, rfl⟩⟩

/-! ## Copies -/

theorem copyVertices_spec (hg : g.WF) (hn : g.NonNeg) {vs : List V} :
    ∀ {h : ColoredGraph V}, h.WF → (∀ v ∈ vs, v ∈ g) → vs.Nodup → (∀ v ∈ vs, v ∉ h) →
      ∃ h', copyVertices g vs h = .ok () h' ∧ h'.WF ∧ (∀ v, v ∈ h' ↔ v ∈ vs ∨ v ∈ h) ∧
        (∀ u w, h'.Adj u w ↔ h.Adj u w) ∧
        (∀ u, h'.colorAt u = if u ∈ vs then g.colorAt u else h.colorAt u) := by
  induction vs with
  | nil => exact fun hh _ _ _ => ⟨_, rfl, hh, by simp, fun _ _ => .rfl, by simp⟩
  | cons v vs ih =>
    intro h hh hvs hnd hnew
    obtain ⟨hv, hnd⟩ := List.nodup_cons.mp hnd
    have hvg := hvs v List.mem_cons_self
    have hvh := hnew v List.mem_cons_self
    obtain ⟨c, hc⟩ := hg.exists_color hvg
    obtain ⟨h', hrun, hh', hmem, hadj, hcol⟩ := ih (hh.withVertex c hvh)
      (fun u hu => hvs u (List.mem_cons_of_mem v hu)) hnd fun u hu => by
        rw [mem_withVertex, not_or]
        exact ⟨fun he => hv (he ▸ hu), hnew u (List.mem_cons_of_mem v hu)⟩
    refine ⟨h', ?_, hh', fun u => ?_, fun u w => ?_, fun u => ?_⟩
    · rw [copyVertices, getVertexColor_ok hvg hc]
      exact (bind_ok (addVertex_ok hvh (hn v c hc))).trans hrun
    · rw [hmem, mem_withVertex, List.mem_cons]
      tauto
    · rw [hadj, adj_withVertex hvh]
    · rw [hcol, colorAt_withVertex]
      by_cases hu : u ∈ vs
      · simp [hu]
      · by_cases huv : u = v
        · subst huv; simp [hu, hc]
        · simp [hu, huv]

theorem copyEdges_spec (ord : HashOrder V) (hg : g.WF) {vs : List V} :
    ∀ {h : ColoredGraph V}, h.WF → (∀ v ∈ vs, v ∈ g) → (∀ v, v ∈ g → v ∈ h) →
      ∃ h', copyEdges ord g vs h = .ok () h' ∧ h'.WF ∧ h'.colorMap = h.colorMap ∧
        h'.adjVertices.keySet = h.adjVertices.keySet ∧
        ∀ a b, h'.Adj a b ↔ h.Adj a b ∨ (g.Adj a b ∧ (a ∈ vs ∨ b ∈ vs)) := by
  induction vs with
  | nil => exact fun hh _ _ => ⟨_, rfl, hh, rfl, rfl, by simp⟩
  | cons v vs ih =>
    intro h hh hvs hsub
    have hvg := hvs v List.mem_cons_self
    obtain ⟨s, hs, hmem⟩ := exists_neighbors hvg
    obtain ⟨h₁, hrun₁, hh₁, hc₁, hk₁, ha₁⟩ := addEdges_spec v (ord.iterate s.elems) hh
      (hsub v hvg) fun w hw => by
        rw [ord.mem_iterate, HashSet.mem_elems, hmem] at hw
        exact hsub w (hg.mem_right hw)
    obtain ⟨h₂, hrun₂, hh₂, hc₂, hk₂, ha₂⟩ := ih hh₁
      (fun u hu => hvs u (List.mem_cons_of_mem v hu)) fun u hu => by
        rw [mem_def, HashMap.mem_def, hk₁]
        exact hsub u hu
    refine ⟨h₂, ?_, hh₂, hc₂.trans hc₁, hk₂.trans hk₁, fun a b => ?_⟩
    · rw [copyEdges, hs]
      exact (bind_ok hrun₁).trans hrun₂
    · simp only [ha₂, ha₁, ord.mem_iterate, HashSet.mem_elems, hmem, List.mem_cons]
      have hne : g.Adj a b → a ≠ b := fun hab he => hg.irrefl b (he ▸ hab)
      constructor
      · rintro ((h | ⟨-, ⟨rfl, h⟩ | ⟨h, rfl⟩⟩) | ⟨h, hm⟩)
        · exact .inl h
        · exact .inr ⟨h, .inl (.inl rfl)⟩
        · exact .inr ⟨hg.symm _ _ h, .inr (.inl rfl)⟩
        · exact .inr ⟨h, by tauto⟩
      · rintro (h | ⟨h, (rfl | hm) | rfl | hm⟩)
        · exact .inl (.inl h)
        · exact .inl (.inr ⟨hne h, .inl ⟨rfl, h⟩⟩)
        · exact .inr ⟨h, .inl hm⟩
        · exact .inl (.inr ⟨hne h, .inr ⟨hg.symm _ _ h, rfl⟩⟩)
        · exact .inr ⟨h, .inr hm⟩

/-- **A copy tells the same as its original.** -/
theorem copy_spec (ord : HashOrder V) (hg : g.WF) (hn : g.NonNeg) :
    ∃ g', copy ord g = .ok g' ∧ Same g g' := by
  have hvs : ∀ v, v ∈ ord.iterate g.getVertexSet ↔ v ∈ g := fun v => by simp
  have hempty : ∀ v, v ∉ new V := fun v => HashMap.not_mem_empty
  obtain ⟨h₁, hrun₁, hh₁, hm₁, ha₁, hc₁⟩ := copyVertices_spec hg hn wf_new
    (fun v => (hvs v).mp) (ord.nodup_iterate g.adjVertices.nodup) fun v _ => hempty v
  obtain ⟨h₂, hrun₂, -, hc₂, hk₂, ha₂⟩ := copyEdges_spec ord hg hh₁ (fun v => (hvs v).mp)
    fun v hv => (hm₁ v).mpr (.inl ((hvs v).mpr hv))
  refine ⟨h₂, ?_, ⟨fun v => ?_, fun v w => ?_, fun v => ?_⟩⟩
  · simp only [copy, call_ok hrun₁, call_ok hrun₂, bind, Except.bind, pure, Except.pure]
  · rw [mem_def, HashMap.mem_def, hk₂]
    exact (hm₁ v).trans (by simp [hempty])
  · rw [ha₂, ha₁, hvs, hvs]
    have : ¬ (new V).Adj v w := fun h => hempty v h.mem_left
    exact ⟨fun h => h.elim (fun h => absurd h this) And.left, fun h => .inr ⟨h, .inl h.mem_left⟩⟩
  · have : h₂.colorAt v = h₁.colorAt v := by rw [colorAt, hc₂]; rfl
    rw [this, hc₁]
    split
    · rfl
    · rename_i hv
      exact (HashMap.get_eq_none.mpr fun h => hv ((hvs v).mpr ((hg.colored v).mpr h))).symm

end ColoredGraph

end UnionCollegeCode.Kami3
