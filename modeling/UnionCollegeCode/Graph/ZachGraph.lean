import Mathlib.Algebra.Order.Ring.Nat
import UnionCollegeCode.Lib.FinDigraph
import UnionCollegeCode.Lib.JavaCollections

/-!
# `ZachGraph.java`

The map from a vertex to the list of the vertices it has an edge to. Vertices are taken up to `equals`,
which here is equality. In which order an iteration meets the vertices is a parameter.

`Refines` ties the map to a set of vertices and a set of edges; the paths are left out.
-/

set_option autoImplicit false

namespace UnionCollegeCode.Graph

open Lib (FinDigraph)
open Lib.JavaCollections

structure ZachGraph (V : Type) where
  map : HashMap V (List V)

namespace ZachGraph

variable {V : Type}

def new (V : Type) : ZachGraph V := ⟨.empty ..⟩

def numVertices (g : ZachGraph V) : ℕ := g.map.size

/-- `none` is `null`. -/
def adjacentTo (g : ZachGraph V) (v : V) : Option (List V) := g.map.get v

/-- `count += map.get(v).size()`, for the vertices still to come. -/
def countEdges (g : ZachGraph V) : List V → ℕ → Option ℕ
  | [], count => some count
  | v :: vs, count => do
    let l ← g.map.get v
    countEdges g vs (count + l.length)

/-- `none` is a `NullPointerException`. -/
def numEdges (ord : HashOrder V) (g : ZachGraph V) : Option ℕ :=
  g.countEdges (ord.iterate g.map.keySet) 0

/-- `none` is the `RuntimeException` for a vertex that is not there. -/
def degree (g : ZachGraph V) (vertex : V) : Option ℕ := do
  let l ← g.map.get vertex
  return l.length

variable [DecidableEq V]

def contains (g : ZachGraph V) (vertex : V) : Bool := vertex ∈ g.map

def hasEdge (g : ZachGraph V) (u v : V) : Bool :=
  match g.map.get u with
  | some l => v ∈ l
  | none => false

def addVertex (g : ZachGraph V) (vertex : V) : ZachGraph V :=
  if vertex ∈ g.map then g else ⟨g.map.put vertex []⟩

def addEdge (g : ZachGraph V) (u v : V) : ZachGraph V :=
  let g := g.addVertex u
  let g := g.addVertex v
  match g.map.get u with
  | some l => if v ∈ l then g else ⟨g.map.put u (l ++ [v])⟩
  | none => g

/-- `while (l.contains(v)) l.remove(v)`, for at most `fuel` rounds. -/
def removeWhile (v : V) : ℕ → List V → List V
  | 0, l => l
  | fuel + 1, l => if v ∈ l then removeWhile v fuel (l.erase v) else l

/-- Every round takes an entry out. -/
def removeAll (v : V) (l : List V) : List V := removeWhile v l.length l

/-- The loop of `removeVertex` over the vertices that are left. -/
def removeFromAll (v : V) : List V → ZachGraph V → ZachGraph V
  | [], g => g
  | u :: us, g =>
    match g.map.get u with
    | some l => removeFromAll v us ⟨g.map.put u (removeAll v l)⟩
    | none => removeFromAll v us g

def removeVertex (ord : HashOrder V) (g : ZachGraph V) (toRemove : V) : ZachGraph V :=
  if g.contains toRemove then
    let m := g.map.remove toRemove
    removeFromAll toRemove (ord.iterate m.keySet) ⟨m⟩
  else g

/-- The loop stops at once if there is no such edge. -/
def removeEdge (g : ZachGraph V) (u v : V) : ZachGraph V :=
  match g.map.get u with
  | some l => ⟨g.map.put u (removeAll v l)⟩
  | none => g

/-- A call that changes the graph. -/
inductive Op (V : Type)
  | addVertex (v : V)
  | addEdge (u v : V)
  | removeVertex (v : V)
  | removeEdge (u v : V)

def call (ord : HashOrder V) (g : ZachGraph V) : Op V → ZachGraph V
  | .addVertex v => g.addVertex v
  | .addEdge u v => g.addEdge u v
  | .removeVertex v => g.removeVertex ord v
  | .removeEdge u v => g.removeEdge u v

/-- The call, on a pair of sets. -/
def Op.onSets (D : FinDigraph V) : Op V → FinDigraph V
  | .addVertex v => D.addVertex v
  | .addEdge u v => D.addEdge u v
  | .removeVertex v => D.removeVertex v
  | .removeEdge u v => D.removeEdge u v

/-- The graph after some calls. -/
def after (ord : HashOrder V) (ops : List (Op V)) : ZachGraph V := ops.foldl (call ord) (new V)

/-! ## Lists -/

theorem filter_erase {v : V} {l : List V} : (l.erase v).filter (· ≠ v) = l.filter (· ≠ v) := by
  induction l with
  | nil => rfl
  | cons u l ih =>
    by_cases hu : u = v
    · subst hu
      simp
    · rw [List.erase_cons_tail (by simpa using hu), List.filter_cons, List.filter_cons, ih]

theorem removeWhile_eq {v : V} {fuel : ℕ} : ∀ {l : List V}, l.length ≤ fuel →
    removeWhile v fuel l = l.filter (· ≠ v) := by
  induction fuel with
  | zero =>
    intro l hl
    obtain rfl := List.eq_nil_of_length_eq_zero (Nat.le_zero.mp hl)
    rfl
  | succ fuel ih =>
    intro l hl
    rw [removeWhile]
    split
    case isTrue hv =>
      have hlen := List.length_erase_of_mem hv
      rw [ih (by omega), filter_erase]
    case isFalse hv =>
      refine (List.filter_eq_self.mpr fun u hu => ?_).symm
      rw [decide_eq_true_eq]
      rintro rfl
      exact hv hu

theorem removeAll_eq {v : V} {l : List V} : removeAll v l = l.filter (· ≠ v) :=
  removeWhile_eq (Nat.le_refl _)

/-! ## The calls on the sets -/

/-- The keys are the vertices, and the lists have each edge once. -/
structure Refines (g : ZachGraph V) (D : FinDigraph V) : Prop where
  keys : ∀ v, v ∈ g.map ↔ v ∈ D.verts
  nodup : ∀ u l, g.map.get u = some l → l.Nodup
  edge : ∀ u l, g.map.get u = some l → ∀ v, v ∈ l ↔ (u, v) ∈ D.edges

variable {g : ZachGraph V} {D : FinDigraph V} {u v : V} {ord : HashOrder V}

omit [DecidableEq V] in
theorem new_refines : (new V).Refines (FinDigraph.empty V) where
  keys v := by simp [new, FinDigraph.empty]
  nodup u l h := by cases h
  edge u l h := by cases h

theorem Refines.addVertex (h : g.Refines D) : (g.addVertex v).Refines (D.addVertex v) := by
  unfold ZachGraph.addVertex
  split
  case isTrue hv =>
    have hin : insert v D.verts = D.verts := Finset.insert_eq_self.mpr ((h.keys v).mp hv)
    have hsame : D.addVertex v = D := FinDigraph.ext hin rfl
    rw [hsame]
    exact h
  case isFalse hv =>
    have hnew : ∀ w, (v, w) ∉ D.edges := fun w hw => hv ((h.keys v).mpr (D.closed _ hw).1)
    refine ⟨fun w => ?_, fun w l hl => ?_, fun w l hl => ?_⟩
    · rw [HashMap.mem_put, h.keys, FinDigraph.addVertex, Finset.mem_insert]
    · rw [HashMap.get_put] at hl
      split at hl
      · cases hl
        exact List.nodup_nil
      · exact h.nodup w l hl
    · rw [HashMap.get_put] at hl
      split at hl
      case isTrue hw =>
        subst hw
        cases hl
        exact fun x => ⟨fun hx => absurd hx List.not_mem_nil, fun hx => absurd hx (hnew x)⟩
      case isFalse => exact h.edge w l hl

/-- A new list for a vertex that is there. -/
theorem Refines.put {D' : FinDigraph V} {l l' : List V} (h : g.Refines D) (hu : g.map.get u = some l)
    (hverts : D'.verts = D.verts) (hnodup : l'.Nodup) (hedge : ∀ v, v ∈ l' ↔ (u, v) ∈ D'.edges)
    (hothers : ∀ e : V × V, e.1 ≠ u → (e ∈ D'.edges ↔ e ∈ D.edges)) :
    Refines ⟨g.map.put u l'⟩ D' := by
  refine ⟨fun w => ?_, fun w k hk => ?_, fun w k hk => ?_⟩
  · rw [HashMap.mem_put, hverts, ← h.keys]
    refine or_iff_right_of_imp ?_
    rintro rfl
    exact HashMap.mem_of_get hu
  · rw [HashMap.get_put] at hk
    split at hk
    · cases hk
      exact hnodup
    · exact h.nodup w k hk
  · rw [HashMap.get_put] at hk
    split at hk
    case isTrue hw =>
      subst hw
      cases hk
      exact hedge
    case isFalse hw => exact fun x => (h.edge w k hk x).trans (hothers (w, x) hw).symm

omit [DecidableEq V] in
theorem Refines.exists_list (h : g.Refines D) (hu : u ∈ D.verts) : ∃ l, g.map.get u = some l :=
  HashMap.mem_iff.mp ((h.keys u).mpr hu)

theorem Refines.addEdge (h : g.Refines D) : (g.addEdge u v).Refines (D.addEdge u v) := by
  have hends : ((g.addVertex u).addVertex v).Refines ((D.addVertex u).addVertex v) :=
    h.addVertex.addVertex
  have hu : u ∈ ((D.addVertex u).addVertex v).verts :=
    Finset.mem_insert_of_mem (Finset.mem_insert_self ..)
  obtain ⟨l, hl⟩ := hends.exists_list hu
  have hedges : ((D.addVertex u).addVertex v).edges = D.edges := rfl
  simp only [ZachGraph.addEdge, hl]
  split
  case isTrue hv =>
    have hin := (hends.edge u l hl v).mp hv
    have hsame : D.addEdge u v = (D.addVertex u).addVertex v :=
      FinDigraph.ext rfl (Finset.insert_eq_self.mpr (hedges ▸ hin))
    rw [hsame]
    exact hends
  case isFalse hv =>
    refine hends.put hl rfl ?_ (fun w => ?_) fun e he => ?_
    · rw [← List.concat_eq_append]
      exact (hends.nodup u l hl).concat hv
    · rw [List.mem_append, hends.edge u l hl, hedges, List.mem_singleton, FinDigraph.addEdge,
        Finset.mem_insert, Prod.mk.injEq, or_comm]
      simp
    · rw [hedges, FinDigraph.addEdge, Finset.mem_insert]
      refine or_iff_right fun heq => he ?_
      rw [heq]

theorem Refines.removeEdge (h : g.Refines D) : (g.removeEdge u v).Refines (D.removeEdge u v) := by
  unfold ZachGraph.removeEdge
  cases hl : g.map.get u with
  | none =>
    have hnot : (u, v) ∉ D.edges := fun he =>
      HashMap.get_eq_none.mp hl ((h.keys u).mpr (D.closed _ he).1)
    have hsame : D.removeEdge u v = D := FinDigraph.ext rfl (Finset.erase_eq_of_notMem hnot)
    rw [hsame]
    exact h
  | some l =>
    refine h.put hl rfl ?_ (fun w => ?_) fun e he => ?_
    · rw [removeAll_eq]
      exact (h.nodup u l hl).filter _
    · rw [removeAll_eq, List.mem_filter, h.edge u l hl, decide_eq_true_eq, FinDigraph.removeEdge,
        Finset.mem_erase, and_comm]
      simp
    · rw [FinDigraph.removeEdge, Finset.mem_erase]
      refine and_iff_right fun heq => he ?_
      rw [heq]

theorem get_removeFromAll {us : List V} {w : V} : ∀ {g : ZachGraph V},
    (removeFromAll v us g).map.get w =
      if w ∈ us then (g.map.get w).map (List.filter (· ≠ v)) else g.map.get w := by
  induction us with
  | nil => exact fun {g} => (if_neg List.not_mem_nil).symm
  | cons u us ih =>
    intro g
    cases hl : g.map.get u with
    | none =>
      rw [removeFromAll, hl, ih]
      by_cases hw : w = u
      · subst hw
        simp [hl]
      · simp [hw]
    | some l =>
      rw [removeFromAll, hl]
      simp only [ih, HashMap.get_put, removeAll_eq]
      by_cases hw : w = u
      · subst hw
        simp [hl]
      · simp [hw]

theorem Refines.removeVertex (h : g.Refines D) :
    (g.removeVertex ord v).Refines (D.removeVertex v) := by
  unfold ZachGraph.removeVertex
  split
  case isTrue hv =>
    -- The vertex's own list goes, and the vertex goes from every other list.
    have hget : ∀ w, (removeFromAll v (ord.iterate (g.map.remove v).keySet)
        ⟨g.map.remove v⟩).map.get w =
          if w = v then none else (g.map.get w).map (List.filter (· ≠ v)) := by
      intro w
      have hmem : w ∈ ord.iterate (g.map.remove v).keySet ↔ w ≠ v ∧ w ∈ g.map :=
        ord.mem_iterate.trans HashMap.mem_remove
      rw [get_removeFromAll]
      simp only [hmem, HashMap.get_remove]
      by_cases hw : w = v
      · simp [hw]
      · by_cases hin : w ∈ g.map
        · simp [hw, hin]
        · simp [hw, HashMap.get_eq_none.mpr hin]
    refine ⟨fun w => ?_, fun w l hl => ?_, fun w l hl x => ?_⟩
    · rw [HashMap.mem_iff, hget, FinDigraph.removeVertex, Finset.mem_erase, ← h.keys, HashMap.mem_iff]
      by_cases hw : w = v
      · simp [hw]
      · simp [hw]
    · rw [hget] at hl
      split at hl
      case isTrue => cases hl
      case isFalse =>
        obtain ⟨k, hk, rfl⟩ := Option.map_eq_some_iff.mp hl
        exact (h.nodup w k hk).filter _
    · rw [hget] at hl
      split at hl
      case isTrue => cases hl
      case isFalse hw =>
        obtain ⟨k, hk, rfl⟩ := Option.map_eq_some_iff.mp hl
        rw [List.mem_filter, h.edge w k hk, decide_eq_true_eq, FinDigraph.removeVertex,
          Finset.mem_filter]
        simp [hw]
  case isFalse hv =>
    have hnot : v ∉ D.verts := fun hin => hv (decide_eq_true ((h.keys v).mpr hin))
    have hsame : D.removeVertex v = D := by
      refine FinDigraph.ext (Finset.erase_eq_of_notMem hnot) (Finset.filter_eq_self.mpr fun e he => ?_)
      obtain ⟨hfst, hsnd⟩ := D.closed e he
      exact ⟨fun heq => hnot (heq ▸ hfst), fun heq => hnot (heq ▸ hsnd)⟩
    rw [hsame]
    exact h

/-- **A call on the map is the call on the sets.** -/
theorem Refines.call (h : g.Refines D) (op : Op V) : (g.call ord op).Refines (op.onSets D) := by
  cases op with
  | addVertex v => exact h.addVertex
  | addEdge u v => exact h.addEdge
  | removeVertex v => exact h.removeVertex
  | removeEdge u v => exact h.removeEdge

theorem after_refines (ord : HashOrder V) (ops : List (Op V)) :
    (after ord ops).Refines (ops.foldl Op.onSets (FinDigraph.empty V)) := by
  have hfold : ∀ {g : ZachGraph V} {D : FinDigraph V}, g.Refines D →
      (ops.foldl (ZachGraph.call ord) g).Refines (ops.foldl Op.onSets D) := by
    induction ops with
    | nil => exact fun h => h
    | cons op ops ih => exact fun h => ih (h.call op)
  exact hfold new_refines

/-! ## What the queries return -/

theorem Refines.contains_iff (h : g.Refines D) : g.contains v = true ↔ v ∈ D.verts := by
  rw [contains, decide_eq_true_eq]
  exact h.keys v

theorem Refines.hasEdge_iff (h : g.Refines D) : g.hasEdge u v = true ↔ (u, v) ∈ D.edges := by
  unfold hasEdge
  cases hl : g.map.get u with
  | none =>
    simp only [Bool.false_eq_true, false_iff]
    exact fun he => HashMap.get_eq_none.mp hl ((h.keys u).mpr (D.closed _ he).1)
  | some l => rw [decide_eq_true_eq, h.edge u l hl]

theorem Refines.keySet_toFinset (h : g.Refines D) : g.map.keySet.toFinset = D.verts :=
  Finset.ext fun v => List.mem_toFinset.trans (h.keys v)

theorem Refines.numVertices_eq (h : g.Refines D) : g.numVertices = D.verts.card := by
  rw [← h.keySet_toFinset, List.toFinset_card_of_nodup g.map.nodup]
  rfl

/-- A list is as long as there are edges from its vertex. -/
theorem Refines.length_list (h : g.Refines D) {l : List V} (hl : g.map.get u = some l) :
    l.length = (D.outEdges u).card := by
  have himage : D.outEdges u = l.toFinset.image fun v => (u, v) := by
    refine Finset.ext fun e => ?_
    rw [FinDigraph.mem_outEdges, Finset.mem_image]
    constructor
    · intro ⟨he, hu⟩
      refine ⟨e.2, List.mem_toFinset.mpr ((h.edge u l hl e.2).mpr ?_), ?_⟩
      · rw [← hu]
        exact he
      · rw [← hu]
    · intro ⟨v, hv, he⟩
      rw [← he]
      exact ⟨(h.edge u l hl v).mp (List.mem_toFinset.mp hv), rfl⟩
  rw [himage, Finset.card_image_of_injective _ fun v w heq => congrArg Prod.snd heq,
    List.toFinset_card_of_nodup (h.nodup u l hl)]

theorem Refines.degree_eq (h : g.Refines D) (hv : v ∈ D.verts) :
    g.degree v = some (D.outEdges v).card := by
  obtain ⟨l, hl⟩ := h.exists_list hv
  simp only [degree, hl, ← h.length_list hl]
  rfl

theorem Refines.countEdges_eq (h : g.Refines D) {vs : List V} (hvs : ∀ v ∈ vs, v ∈ D.verts) :
    ∀ count, g.countEdges vs count = some (count + (vs.map fun v => (D.outEdges v).card).sum) := by
  induction vs with
  | nil => exact fun count => rfl
  | cons v vs ih =>
    intro count
    obtain ⟨l, hl⟩ := h.exists_list (hvs v (List.mem_cons_self ..))
    have hrest := ih (fun w hw => hvs w (List.mem_cons_of_mem _ hw)) (count + l.length)
    simp only [countEdges, hl, Option.bind_eq_bind, Option.bind_some]
    rw [hrest, List.map_cons, List.sum_cons, ← h.length_list hl, Nat.add_assoc]

theorem Refines.numEdges_eq (h : g.Refines D) : g.numEdges ord = some D.edges.card := by
  have hkeys : ∀ v ∈ ord.iterate g.map.keySet, v ∈ D.verts := fun v hv =>
    (h.keys v).mp ((ord.mem_iterate).mp hv)
  have hperm := ((ord.perm g.map.keySet).map fun v => (D.outEdges v).card).sum_eq
  rw [numEdges, h.countEdges_eq hkeys, Nat.zero_add, hperm, FinDigraph.card_edges,
    ← h.keySet_toFinset, List.sum_toFinset _ g.map.nodup]

/-- **`ZachGraph` refines a finite directed graph.** After any calls on an empty graph, the map and the
queries are what the sets say; and then `removeVertex` and `removeEdge` meet their postconditions. -/
theorem zachGraph_refines (ord : HashOrder V) (ops : List (Op V)) :
    let g := after ord ops
    ∃ D : FinDigraph V, D = ops.foldl Op.onSets (FinDigraph.empty V) ∧
      (∀ v, v ∈ g.map ↔ v ∈ D.verts) ∧
      (∀ u l, g.map.get u = some l → l.Nodup ∧ ∀ v ∈ l, v ∈ D.verts) ∧
      g.numVertices = D.verts.card ∧ g.numEdges ord = some D.edges.card ∧
      (∀ v ∈ D.verts, g.degree v = some (D.edges.filter fun e => e.1 = v).card) ∧
      (∀ v, g.contains v = true ↔ v ∈ D.verts) ∧
      (∀ u v, g.hasEdge u v = true ↔ (u, v) ∈ D.edges) ∧
      (∀ v, g.contains v = true →
        (g.removeVertex ord v).numVertices + 1 = g.numVertices ∧
        (g.removeVertex ord v).contains v = false ∧
        ∀ u l, (g.removeVertex ord v).adjacentTo u = some l → v ∉ l) ∧
      (∀ u v, g.hasEdge u v = true →
        ∃ n, (g.removeEdge u v).numEdges ord = some n ∧ g.numEdges ord = some (n + 1)) := by
  intro g
  have h := after_refines ord ops
  refine ⟨_, rfl, h.keys, fun u l hl => ⟨h.nodup u l hl, fun v hv => ?_⟩, h.numVertices_eq,
    h.numEdges_eq, fun v hv => h.degree_eq hv, fun v => h.contains_iff, fun u v => h.hasEdge_iff,
    fun v hv => ?_, fun u v huv => ?_⟩
  · exact (FinDigraph.closed _ _ ((h.edge u l hl v).mp hv)).2
  · have hremoved : (g.removeVertex ord v).Refines _ := h.removeVertex
    have hgone : v ∉ (FinDigraph.removeVertex (ops.foldl Op.onSets (FinDigraph.empty V)) v).verts :=
      Finset.notMem_erase v _
    refine ⟨?_, ?_, fun u l hl hin => ?_⟩
    · rw [hremoved.numVertices_eq, h.numVertices_eq]
      exact FinDigraph.card_removeVertex (h.contains_iff.mp hv)
    · rw [← Bool.not_eq_true, hremoved.contains_iff]
      exact hgone
    · exact hgone (FinDigraph.closed _ _ ((hremoved.edge u l hl v).mp hin)).2
  · refine ⟨_, (h.removeEdge (u := u) (v := v)).numEdges_eq, ?_⟩
    rw [h.numEdges_eq, FinDigraph.card_removeEdge (h.hasEdge_iff.mp huv)]

end ZachGraph

end UnionCollegeCode.Graph
