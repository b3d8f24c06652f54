import UnionCollegeCode.Graph.ZachGraph

/-!
# `ZachGraph.java` with the objects in its lists

Two objects that are `equals` have one `key`: the map goes by it, and so do `contains` and `remove` of a
list. A list holds objects, though, and which of several equal ones it holds is what `==` asks for.
`forget` takes the objects for their keys, and then every call is that of `ZachGraph`.
-/

set_option autoImplicit false

namespace UnionCollegeCode.Graph

open Lib.JavaCollections

structure ObjGraph (O K : Type) where
  map : HashMap K (List O)

namespace ObjGraph

variable {O K : Type}

def new (O K : Type) : ObjGraph O K := ⟨.empty ..⟩

def forget (key : O → K) (g : ObjGraph O K) : ZachGraph K := ⟨g.map.mapValues (List.map key)⟩

variable [DecidableEq K] (key : O → K)

/-- `l.contains(v)`. -/
def holds (v : O) (l : List O) : Bool := l.any fun w => key w = key v

/-- `l.remove(v)`. -/
def remove (v : O) (l : List O) : List O := l.eraseP fun w => key w = key v

def addVertex (g : ObjGraph O K) (vertex : O) : ObjGraph O K :=
  if key vertex ∈ g.map then g else ⟨g.map.put (key vertex) []⟩

def addEdge (g : ObjGraph O K) (u v : O) : ObjGraph O K :=
  let g := g.addVertex key u
  let g := g.addVertex key v
  match g.map.get (key u) with
  | some l => if holds key v l then g else ⟨g.map.put (key u) (l ++ [v])⟩
  | none => g

/-- `while (l.contains(v)) l.remove(v)`, for at most `fuel` rounds. -/
def removeWhile (v : O) : ℕ → List O → List O
  | 0, l => l
  | fuel + 1, l => if holds key v l then removeWhile v fuel (remove key v l) else l

/-- Every round takes an entry out. -/
def removeAll (v : O) (l : List O) : List O := removeWhile key v l.length l

/-- The loop of `removeVertex` over the vertices that are left. -/
def removeFromAll (v : O) : List K → ObjGraph O K → ObjGraph O K
  | [], g => g
  | u :: us, g =>
    match g.map.get u with
    | some l => removeFromAll v us ⟨g.map.put u (removeAll key v l)⟩
    | none => removeFromAll v us g

def removeVertex (ord : HashOrder K) (g : ObjGraph O K) (toRemove : O) : ObjGraph O K :=
  if key toRemove ∈ g.map then
    let m := g.map.remove (key toRemove)
    removeFromAll key toRemove (ord.iterate m.keySet) ⟨m⟩
  else g

def removeEdge (g : ObjGraph O K) (u v : O) : ObjGraph O K :=
  match g.map.get (key u) with
  | some l => ⟨g.map.put (key u) (removeAll key v l)⟩
  | none => g

open ZachGraph (Op)

def call (ord : HashOrder K) (g : ObjGraph O K) : Op O → ObjGraph O K
  | .addVertex v => g.addVertex key v
  | .addEdge u v => g.addEdge key u v
  | .removeVertex v => g.removeVertex key ord v
  | .removeEdge u v => g.removeEdge key u v

/-- The graph after some calls. -/
def after (ord : HashOrder K) (ops : List (Op O)) : ObjGraph O K := ops.foldl (call key ord) (new O K)

/-- The call with keys for objects. -/
def forgetOp : Op O → Op K
  | .addVertex v => .addVertex (key v)
  | .addEdge u v => .addEdge (key u) (key v)
  | .removeVertex v => .removeVertex (key v)
  | .removeEdge u v => .removeEdge (key u) (key v)

/-! ## Objects forgotten -/

variable {key} {ord : HashOrder K} {g : ObjGraph O K} {v : O} {l : List O}

theorem holds_eq : holds key v l = decide (key v ∈ l.map key) := by
  rw [Bool.eq_iff_iff, holds, List.any_eq_true, decide_eq_true_iff, List.mem_map]
  simp

theorem map_remove : (remove key v l).map key = (l.map key).erase (key v) := by
  induction l with
  | nil => rfl
  | cons w l ih =>
    by_cases hw : key w = key v
    · rw [remove, List.eraseP_cons_of_pos (by simpa using hw), List.map_cons, hw, List.erase_cons_head]
    · rw [remove, List.eraseP_cons_of_neg (by simpa using hw), List.map_cons, List.map_cons,
        List.erase_cons_tail (by simpa using hw), ← ih, remove]

theorem map_removeWhile {fuel : ℕ} : ∀ {l : List O},
    (removeWhile key v fuel l).map key = ZachGraph.removeWhile (key v) fuel (l.map key) := by
  induction fuel with
  | zero => exact rfl
  | succ fuel ih =>
    intro l
    rw [removeWhile, ZachGraph.removeWhile, holds_eq, ← map_remove, ← ih]
    simp only [decide_eq_true_eq]
    split <;> rfl

theorem map_removeAll : (removeAll key v l).map key = ZachGraph.removeAll (key v) (l.map key) := by
  rw [removeAll, ZachGraph.removeAll, map_removeWhile, List.length_map]

omit [DecidableEq K] in
@[simp] theorem mem_forget {k : K} : k ∈ (g.forget key).map ↔ k ∈ g.map := Iff.rfl

omit [DecidableEq K] in
@[simp] theorem get_forget {k : K} : (g.forget key).map.get k = (g.map.get k).map (List.map key) := rfl

theorem forget_put {m : HashMap K (List O)} (k : K) (l : List O) :
    forget key ⟨m.put k l⟩ = ⟨(forget key ⟨m⟩).map.put k (l.map key)⟩ :=
  congrArg ZachGraph.mk (HashMap.mapValues_put _ m k l)

theorem forget_addVertex (v : O) :
    (g.addVertex key v).forget key = (g.forget key).addVertex (key v) := by
  unfold addVertex ZachGraph.addVertex
  by_cases hv : key v ∈ g.map
  · rw [if_pos hv, if_pos (mem_forget.mpr hv)]
  · rw [if_neg hv, if_neg (fun hin => hv (mem_forget.mp hin)), forget_put]
    rfl

theorem forget_addEdge (u v : O) :
    (g.addEdge key u v).forget key = (g.forget key).addEdge (key u) (key v) := by
  unfold addEdge ZachGraph.addEdge
  simp only [← forget_addVertex]
  generalize (g.addVertex key u).addVertex key v = g'
  cases hl : g'.map.get (key u) with
  | none =>
    have hnone : (g'.forget key).map.get (key u) = none := by simp [hl]
    simp only [hnone]
  | some l =>
    have hsome : (g'.forget key).map.get (key u) = some (l.map key) := by simp [hl]
    simp only [hsome, holds_eq, decide_eq_true_eq]
    split
    · rfl
    · rw [forget_put, List.map_append]
      rfl

theorem forget_removeEdge (u v : O) :
    (g.removeEdge key u v).forget key = (g.forget key).removeEdge (key u) (key v) := by
  unfold removeEdge ZachGraph.removeEdge
  cases hl : g.map.get (key u) with
  | none =>
    have hnone : (g.forget key).map.get (key u) = none := by simp [hl]
    simp only [hnone]
  | some l =>
    have hsome : (g.forget key).map.get (key u) = some (l.map key) := by simp [hl]
    simp only [hsome, ← map_removeAll]
    exact forget_put ..

theorem forget_removeFromAll {us : List K} : ∀ {g : ObjGraph O K},
    (removeFromAll key v us g).forget key = ZachGraph.removeFromAll (key v) us (g.forget key) := by
  induction us with
  | nil => exact rfl
  | cons u us ih =>
    intro g
    rw [removeFromAll, ZachGraph.removeFromAll]
    cases hl : g.map.get u with
    | none =>
      have hnone : (g.forget key).map.get u = none := by simp [hl]
      simp only [hnone, ih]
    | some l =>
      have hsome : (g.forget key).map.get u = some (l.map key) := by simp [hl]
      simp only [hsome, ih, ← map_removeAll, forget_put]

theorem forget_removeVertex (v : O) :
    (g.removeVertex key ord v).forget key = (g.forget key).removeVertex ord (key v) := by
  unfold removeVertex ZachGraph.removeVertex ZachGraph.contains
  simp only [decide_eq_true_eq]
  by_cases hv : key v ∈ g.map
  · rw [if_pos hv, if_pos (mem_forget.mpr hv), forget_removeFromAll]
    have hmap : (g.forget key).map.remove (key v) = (g.map.remove (key v)).mapValues (List.map key) :=
      (HashMap.mapValues_remove _ g.map (key v)).symm
    rw [hmap]
    rfl
  · rw [if_neg hv, if_neg (fun hin => hv (mem_forget.mp hin))]

theorem forget_call (op : Op O) :
    (g.call key ord op).forget key = (g.forget key).call ord (forgetOp key op) := by
  cases op with
  | addVertex v => exact forget_addVertex v
  | addEdge u v => exact forget_addEdge u v
  | removeVertex v => exact forget_removeVertex v
  | removeEdge u v => exact forget_removeEdge u v

/-- **With keys for objects the graph is a `ZachGraph`.** -/
theorem forget_after (ord : HashOrder K) (ops : List (Op O)) :
    (after key ord ops).forget key = ZachGraph.after ord (ops.map (forgetOp key)) := by
  have hfold : ∀ {g : ObjGraph O K}, (ops.foldl (call key ord) g).forget key =
      (ops.map (forgetOp key)).foldl (ZachGraph.call ord) (g.forget key) := by
    induction ops with
    | nil => exact rfl
    | cons op ops ih =>
      intro g
      rw [List.foldl_cons, ih, List.map_cons, List.foldl_cons, forget_call]
  exact hfold

end ObjGraph

end UnionCollegeCode.Graph
