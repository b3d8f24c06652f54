import Mathlib.Algebra.BigOperators.Group.Finset.Basic
import Mathlib.Data.Finset.Prod

/-!
# Finite directed graphs

A set of vertices and a set of edges between them, and the four ways to change them: an edge brings its
ends with it, and a vertex takes its edges along.
-/

set_option autoImplicit false

namespace Lib

@[ext]
structure FinDigraph (V : Type*) where
  verts : Finset V
  edges : Finset (V × V)
  closed : ∀ e ∈ edges, e.1 ∈ verts ∧ e.2 ∈ verts

namespace FinDigraph

variable {V : Type*} [DecidableEq V]

def empty (V : Type*) : FinDigraph V := ⟨∅, ∅, fun e he => absurd he (Finset.notMem_empty e)⟩

def addVertex (D : FinDigraph V) (v : V) : FinDigraph V where
  verts := insert v D.verts
  edges := D.edges
  closed e he := by
    obtain ⟨h, h'⟩ := D.closed e he
    exact ⟨Finset.mem_insert_of_mem h, Finset.mem_insert_of_mem h'⟩

def addEdge (D : FinDigraph V) (u v : V) : FinDigraph V where
  verts := insert v (insert u D.verts)
  edges := insert (u, v) D.edges
  closed e he := by
    rcases Finset.mem_insert.mp he with rfl | he
    · exact ⟨Finset.mem_insert_of_mem (Finset.mem_insert_self ..), Finset.mem_insert_self ..⟩
    · obtain ⟨h, h'⟩ := D.closed e he
      exact ⟨Finset.mem_insert_of_mem (Finset.mem_insert_of_mem h),
        Finset.mem_insert_of_mem (Finset.mem_insert_of_mem h')⟩

/-- The edges in both directions go too. -/
def removeVertex (D : FinDigraph V) (v : V) : FinDigraph V where
  verts := D.verts.erase v
  edges := D.edges.filter fun e => e.1 ≠ v ∧ e.2 ≠ v
  closed e he := by
    obtain ⟨he, hfst, hsnd⟩ := Finset.mem_filter.mp he
    obtain ⟨h, h'⟩ := D.closed e he
    exact ⟨Finset.mem_erase.mpr ⟨hfst, h⟩, Finset.mem_erase.mpr ⟨hsnd, h'⟩⟩

def removeEdge (D : FinDigraph V) (u v : V) : FinDigraph V where
  verts := D.verts
  edges := D.edges.erase (u, v)
  closed e he := D.closed e (Finset.mem_of_mem_erase he)

/-- The edges from a vertex. -/
def outEdges (D : FinDigraph V) (v : V) : Finset (V × V) := D.edges.filter fun e => e.1 = v

variable {D : FinDigraph V} {u v : V}

theorem mem_outEdges {e : V × V} : e ∈ D.outEdges v ↔ e ∈ D.edges ∧ e.1 = v := Finset.mem_filter

/-- Every edge is from one vertex. -/
theorem card_edges : D.edges.card = ∑ v ∈ D.verts, (D.outEdges v).card :=
  Finset.card_eq_sum_card_fiberwise (f := Prod.fst) fun e he => (D.closed e he).1

theorem card_removeVertex (h : v ∈ D.verts) : (D.removeVertex v).verts.card + 1 = D.verts.card :=
  Finset.card_erase_add_one h

theorem card_removeEdge (h : (u, v) ∈ D.edges) :
    (D.removeEdge u v).edges.card + 1 = D.edges.card := Finset.card_erase_add_one h

end FinDigraph

end Lib
