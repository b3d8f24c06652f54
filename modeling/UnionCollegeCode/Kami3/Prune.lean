import Mathlib.Data.List.Pairwise
import UnionCollegeCode.Kami3.FloodFill

/-!
# `pruneGraph` is the quotient by components

Each component of the graph is left with one vertex, of the component's colour, and two of these are
adjacent when an edge runs between their components. `PruneInv` is the first loop: the clone has the
colours of the original on the components still to come, and below zero the number of the component
elsewhere. The second loop reads the numbers back.
-/

set_option autoImplicit false

namespace UnionCollegeCode.Kami3

open Lib.EState Lib.JavaCollections Lib.Coloring

namespace ColoredGraph

variable {V : Type} {g : ColoredGraph V}

/-- `u` and `w` lie in one component of the graph. -/
abbrev Joined (g : ColoredGraph V) : V → V → Prop := Mono g.Adj g.colorAt

theorem WF.joined_symm (hg : g.WF) {u w : V} (h : g.Joined u w) : g.Joined w u := h.symm hg.symm

/-- `p` has one vertex for each component of the colouring `col` of `g`, of the component's colour,
and two of these are adjacent when an edge runs between their components. -/
structure Represents (g : ColoredGraph V) (col : V → Option ℤ) (p : ColoredGraph V) : Prop where
  wf : p.WF
  sub : ∀ r, r ∈ p → r ∈ g
  exists_rep : ∀ v, v ∈ g → ∃ r, r ∈ p ∧ Mono g.Adj col r v
  rep_unique : ∀ r r', r ∈ p → r' ∈ p → Mono g.Adj col r r' → r = r'
  color : ∀ r, r ∈ p → p.colorAt r = col r
  adj : ∀ a b, p.Adj a b ↔
    a ≠ b ∧ a ∈ p ∧ b ∈ p ∧ ∃ u w, Mono g.Adj col a u ∧ Mono g.Adj col b w ∧ g.Adj u w

/-! ## Numbering the components -/

/-- The first loop, with the components found so far. -/
structure PruneInv (g : ColoredGraph V) (p : Pruning V) : Prop where
  shape : ∀ u w, p.cloned.Adj u w ↔ g.Adj u w
  cloned_wf : p.cloned.WF
  cloned_mem : ∀ u, u ∈ p.cloned ↔ u ∈ g
  count : p.componentCount = -(p.components.length : ℤ)
  sub : ∀ r ∈ p.components, r ∈ g
  apart : p.components.Pairwise fun r r' => ¬ g.Joined r r'
  numbered : ∀ (i : ℕ) r, p.components[i]? = some r → ∀ u, g.Joined r u →
    p.cloned.colorAt u = some (-(i : ℤ) - 1)
  rest : ∀ u, (∀ r ∈ p.components, ¬ g.Joined r u) → p.cloned.colorAt u = g.colorAt u
  res_wf : p.res.WF
  res_mem : ∀ r, r ∈ p.res ↔ r ∈ p.components
  res_color : ∀ r ∈ p.components, p.res.colorAt r = g.colorAt r
  res_adj : ∀ a b, ¬ p.res.Adj a b

variable {p : Pruning V}

/-- The vertex belongs to a component found before. -/
def Covered (g : ColoredGraph V) (p : Pruning V) (v : V) : Prop := ∃ r ∈ p.components, g.Joined r v

theorem PruneInv.color_of_covered (h : PruneInv g p) {v : V} (hv : Covered g p v) :
    ∃ c, p.cloned.colorAt v = some c ∧ c < 0 := by
  obtain ⟨r, hr, hrv⟩ := hv
  obtain ⟨i, hi⟩ := List.mem_iff_getElem?.mp hr
  exact ⟨_, h.numbered i r hi v hrv, by omega⟩

theorem PruneInv.color_of_not_covered (h : PruneInv g p) {v : V} (hv : ¬ Covered g p v) :
    p.cloned.colorAt v = g.colorAt v :=
  h.rest v fun r hr hrv => hv ⟨r, hr, hrv⟩

/-- From a vertex of a component still to come, the clone and the original reach the same. -/
theorem PruneInv.joined_iff (h : PruneInv g p) (hg : g.WF) (hn : g.NonNeg) {v : V}
    (hnew : ¬ Covered g p v) {u : V} : p.cloned.Joined v u ↔ g.Joined v u := by
  have hstay : ∀ {x}, g.Joined v x → ¬ Covered g p x := by
    rintro x hx ⟨r, hr, hrx⟩
    exact hnew ⟨r, hr, hrx.trans (hg.joined_symm hx)⟩
  constructor
  · intro hjoin
    induction hjoin with
    | refl => exact .refl v
    | @tail x y _ hstep ih =>
      have hadj := (h.shape x y).mp hstep.1
      refine ih.tail hadj ?_
      have hx := h.color_of_not_covered (hstay ih)
      -- The colour of a numbered component would be below zero.
      have hy : ¬ Covered g p y := by
        intro hcov
        obtain ⟨c, hc, hneg⟩ := h.color_of_covered hcov
        have := hn x c (hx ▸ hstep.2.trans hc)
        omega
      rw [← hx, hstep.2, h.color_of_not_covered hy]
  · intro hjoin
    induction hjoin with
    | refl => exact .refl v
    | @tail x y hx hstep ih =>
      refine ih.tail ((h.shape x y).mpr hstep.1) ?_
      rw [h.color_of_not_covered (hstay hx), h.color_of_not_covered (hstay (Mono.tail hx hstep.1 hstep.2)),
        hstep.2]

variable [DecidableEq V]

/-- A new component is found at `v`. -/
theorem PruneInv.found (h : PruneInv g p) (hg : g.WF) (hn : g.NonNeg) {v : V} {c : ℤ} (hv : v ∈ g)
    (hnew : ¬ Covered g p v) (hc : g.colorAt v = some c) {cloned : ColoredGraph V}
    (hshape : SameShape p.cloned cloned)
    (hcol : cloned.colorAt = flood p.cloned.Adj p.cloned.colorAt v (some (p.componentCount - 1))) :
    PruneInv g ⟨cloned, p.res.withVertex v c, p.componentCount - 1, p.components ++ [v]⟩ := by
  have hjoined : ∀ u, p.cloned.Joined v u ↔ g.Joined v u := fun u => h.joined_iff hg hn hnew
  have hvres : v ∉ p.res := fun hm => hnew ⟨v, (h.res_mem v).mp hm, .refl v⟩
  refine {
    shape := fun u w => hshape.adj_iff.trans (h.shape u w)
    cloned_wf := hshape.wf h.cloned_wf
    cloned_mem := fun u => hshape.mem.trans (h.cloned_mem u)
    count := ?_, sub := ?_, apart := ?_, numbered := ?_, rest := ?_
    res_wf := h.res_wf.withVertex c hvres
    res_mem := ?_, res_color := ?_
    res_adj := fun a b hab => h.res_adj a b ((adj_withVertex hvres).mp hab) }
  · change p.componentCount - 1 = -((p.components ++ [v]).length : ℤ)
    rw [h.count, List.length_append, List.length_singleton]
    omega
  · intro r hr
    rcases List.mem_append.mp hr with hr | hr
    · exact h.sub r hr
    · exact List.mem_singleton.mp hr ▸ hv
  · refine List.pairwise_append.mpr ⟨h.apart, List.pairwise_singleton _ _, fun r hr r' hr' => ?_⟩
    rw [List.mem_singleton.mp hr']
    exact fun hrv => hnew ⟨r, hr, hrv⟩
  · -- The old components keep their numbers: the flood fill stays in the new one.
    intro i r hi u hru
    rw [hcol]
    rw [List.getElem?_append] at hi
    split at hi
    · rw [flood_of_not_mono, h.numbered i r hi u hru]
      exact fun hvu => hnew ⟨r, List.mem_of_getElem? hi,
        hru.trans (hg.joined_symm ((hjoined u).mp hvu))⟩
    · rename_i hlen
      rw [List.getElem?_singleton] at hi
      split at hi
      · obtain rfl := Option.some.inj hi
        rw [flood_of_mono ((hjoined u).mpr hru), h.count]
        congr 1
        omega
      · cases hi
  · intro u hu
    rw [hcol, flood_of_not_mono, h.color_of_not_covered]
    · rintro ⟨r, hr, hru⟩
      exact hu r (List.mem_append.mpr (.inl hr)) hru
    · exact fun hvu => hu v (List.mem_append.mpr (.inr (List.mem_singleton_self v)))
        ((hjoined u).mp hvu)
  · intro r
    rw [mem_withVertex, h.res_mem, List.mem_append, List.mem_singleton, or_comm]
  · intro r hr
    rw [colorAt_withVertex]
    split
    · rename_i hrv
      rw [hrv, hc]
    · rename_i hrv
      rcases List.mem_append.mp hr with hr | hr
      · exact h.res_color r hr
      · exact absurd (List.mem_singleton.mp hr) hrv

theorem pruneComponents_spec (ord : HashOrder V) (hg : g.WF) (hn : g.NonNeg) (vs : List V) :
    ∀ {p : Pruning V}, PruneInv g p → (∀ v ∈ vs, v ∈ g) →
      ∃ p', pruneComponents ord g vs p = .ok p' ∧ PruneInv g p' ∧
        (∀ v, Covered g p v → Covered g p' v) ∧ ∀ v ∈ vs, Covered g p' v := by
  induction vs with
  | nil => exact fun h _ => ⟨_, rfl, h, fun _ hv => hv, by simp⟩
  | cons v vs ih =>
    intro p h hvs
    obtain ⟨hv, hvs⟩ := List.forall_mem_cons.mp hvs
    have hvc : v ∈ p.cloned := (h.cloned_mem v).mpr hv
    by_cases hcov : Covered g p v
    · obtain ⟨c, hc, hneg⟩ := h.color_of_covered hcov
      obtain ⟨p', hrun, hp', hkeep, hall⟩ := ih h hvs
      refine ⟨p', ?_, hp', hkeep, List.forall_mem_cons.mpr ⟨hkeep v hcov, hall⟩⟩
      rw [pruneComponents, call_ok (getVertexColor_ok hvc hc)]
      exact (if_neg (by omega)).trans hrun
    · obtain ⟨c, hc⟩ := hg.exists_color hv
      have hcc : p.cloned.colorAt v = some c := (h.color_of_not_covered hcov).trans hc
      obtain ⟨cloned, hflood, hshape, hcol⟩ := colorFloodFill_spec ord h.cloned_wf hvc
        (p.componentCount - 1)
      have hvres : v ∉ p.res := fun hm => hcov ⟨v, (h.res_mem v).mp hm, .refl v⟩
      have hfound := h.found hg hn hv hcov hc hshape hcol
      obtain ⟨p', hrun, hp', hkeep, hall⟩ := ih hfound hvs
      have hkeep' : ∀ u, Covered g p u → Covered g p' u := by
        rintro u ⟨r, hr, hru⟩
        exact hkeep u ⟨r, List.mem_append.mpr (.inl hr), hru⟩
      have hcovv : Covered g p' v :=
        hkeep v ⟨v, List.mem_append.mpr (.inr (List.mem_singleton_self v)), .refl v⟩
      refine ⟨p', ?_, hp', hkeep', List.forall_mem_cons.mpr ⟨hcovv, hall⟩⟩
      rw [pruneComponents, call_ok (getVertexColor_ok hvc hcc)]
      refine (if_pos (hn v c hc)).trans ?_
      simp only [call_ok hflood, call_ok (getVertexColor_ok hv hc),
        call_ok (addVertex_ok hvres (hn v c hc)), bind, Except.bind]
      exact hrun

/-! ## Edges between components -/

/-- `r` stands for the component of `u`. -/
def Rep (g : ColoredGraph V) (p : Pruning V) (r u : V) : Prop := r ∈ p.components ∧ g.Joined r u

theorem PruneInv.rep_unique (h : PruneInv g p) (hg : g.WF) {r r' u : V} (hr : Rep g p r u)
    (hr' : Rep g p r' u) : r = r' := by
  by_contra hne
  have hsymm : Std.Symm fun r r' => ¬ g.Joined r r' := ⟨fun _ _ hj hj' => hj (hg.joined_symm hj')⟩
  exact h.apart.forall hr.1 hr'.1 hne (hr.2.trans (hg.joined_symm hr'.2))

theorem PruneInv.componentOf_eq (h : PruneInv g p) {r u : V} (hu : u ∈ g) (hr : Rep g p r u) :
    componentOf p u = .ok r := by
  obtain ⟨i, hi⟩ := List.mem_iff_getElem?.mp hr.1
  have hc := h.numbered i r hi u hr.2
  rw [componentOf, call_ok (getVertexColor_ok ((h.cloned_mem u).mpr hu) hc)]
  refine (if_pos (by omega)).trans ?_
  rw [show (-(-(i : ℤ) - 1) - 1).toNat = i by omega, hi]
  rfl

theorem pruneEdgesFrom_spec (h : PruneInv g p) (hg : g.WF) (hcov : ∀ v, v ∈ g → Covered g p v)
    {u : V} (hu : u ∈ g) (adjs : List V) :
    ∀ {res : ColoredGraph V}, res.WF → (∀ r ∈ p.components, r ∈ res) → (∀ w ∈ adjs, w ∈ g) →
      ∃ res', pruneEdgesFrom p u adjs res = .ok res' ∧ res'.WF ∧ res'.colorMap = res.colorMap ∧
        res'.adjVertices.keySet = res.adjVertices.keySet ∧
        ∀ a b, res'.Adj a b ↔ res.Adj a b ∨ (a ≠ b ∧
          ∃ w ∈ adjs, (Rep g p a u ∧ Rep g p b w) ∨ (Rep g p a w ∧ Rep g p b u)) := by
  induction adjs with
  | nil => exact fun hres _ _ => ⟨_, rfl, hres, rfl, rfl, by simp⟩
  | cons w adjs ih =>
    intro res hres hmem hadjs
    obtain ⟨hw, hadjs⟩ := List.forall_mem_cons.mp hadjs
    obtain ⟨r, hr⟩ := hcov u hu
    obtain ⟨t, ht⟩ := hcov w hw
    obtain ⟨res₁, hrun₁, hwf₁, hc₁, hk₁, ha₁⟩ := addEdge_spec hres (hmem r hr.1) (hmem t ht.1)
    obtain ⟨res₂, hrun₂, hwf₂, hc₂, hk₂, ha₂⟩ := ih hwf₁ (fun x hx => by
      rw [mem_def, HashMap.mem_def, hk₁]
      exact hmem x hx) hadjs
    have hru : ∀ {x}, Rep g p x u ↔ x = r := fun {x} =>
      ⟨fun hx => h.rep_unique hg hx hr, fun hx => hx ▸ hr⟩
    have htw : ∀ {x}, Rep g p x w ↔ x = t := fun {x} =>
      ⟨fun hx => h.rep_unique hg hx ht, fun hx => hx ▸ ht⟩
    refine ⟨res₂, ?_, hwf₂, hc₂.trans hc₁, hk₂.trans hk₁, fun a b => ?_⟩
    · rw [pruneEdgesFrom, h.componentOf_eq hu hr, h.componentOf_eq hw ht]
      change (call (addEdge r t) res >>= fun x => pruneEdgesFrom p u adjs x.2) = _
      rw [call_ok hrun₁]
      exact hrun₂
    · rw [ha₂, ha₁]
      simp only [List.exists_mem_cons_iff, hru, htw]
      constructor
      · rintro ((hab | ⟨hne, ⟨rfl, rfl⟩ | ⟨rfl, rfl⟩⟩) | ⟨hne, hex⟩)
        · exact .inl hab
        · exact .inr ⟨hne, .inl (.inl ⟨rfl, rfl⟩)⟩
        · exact .inr ⟨hne.symm, .inl (.inr ⟨rfl, rfl⟩)⟩
        · exact .inr ⟨hne, .inr hex⟩
      · rintro (hab | ⟨hne, (⟨rfl, rfl⟩ | ⟨rfl, rfl⟩) | hex⟩)
        · exact .inl (.inl hab)
        · exact .inl (.inr ⟨hne, .inl ⟨rfl, rfl⟩⟩)
        · exact .inl (.inr ⟨hne.symm, .inr ⟨rfl, rfl⟩⟩)
        · exact .inr ⟨hne, hex⟩

theorem pruneEdges_spec (ord : HashOrder V) (h : PruneInv g p) (hg : g.WF)
    (hcov : ∀ v, v ∈ g → Covered g p v) (vs : List V) :
    ∀ {res : ColoredGraph V}, res.WF → (∀ r ∈ p.components, r ∈ res) → (∀ v ∈ vs, v ∈ g) →
      ∃ res', pruneEdges ord g p vs res = .ok res' ∧ res'.WF ∧ res'.colorMap = res.colorMap ∧
        res'.adjVertices.keySet = res.adjVertices.keySet ∧
        ∀ a b, res'.Adj a b ↔ res.Adj a b ∨ (a ≠ b ∧ ∃ u ∈ vs, ∃ w, g.Adj u w ∧
          ((Rep g p a u ∧ Rep g p b w) ∨ (Rep g p a w ∧ Rep g p b u))) := by
  induction vs with
  | nil => exact fun hres _ _ => ⟨_, rfl, hres, rfl, rfl, by simp⟩
  | cons v vs ih =>
    intro res hres hmem hvs
    obtain ⟨hv, hvs⟩ := List.forall_mem_cons.mp hvs
    obtain ⟨s, hs, hsmem⟩ := exists_neighbors hv
    obtain ⟨res₁, hrun₁, hwf₁, hc₁, hk₁, ha₁⟩ := pruneEdgesFrom_spec h hg hcov hv
      (ord.iterate s.elems) hres hmem fun w hw =>
        hg.mem_right ((hsmem w).mp (ord.mem_iterate.mp hw))
    obtain ⟨res₂, hrun₂, hwf₂, hc₂, hk₂, ha₂⟩ := ih hwf₁ (fun x hx => by
      rw [mem_def, HashMap.mem_def, hk₁]
      exact hmem x hx) hvs
    refine ⟨res₂, ?_, hwf₂, hc₂.trans hc₁, hk₂.trans hk₁, fun a b => ?_⟩
    · rw [pruneEdges, hs]
      change (pruneEdgesFrom p v (ord.iterate s.elems) res >>= fun res => pruneEdges ord g p vs res) = _
      rw [hrun₁]
      exact hrun₂
    · rw [ha₂, ha₁]
      simp only [List.exists_mem_cons_iff, ord.mem_iterate, HashSet.mem_elems, hsmem, or_assoc,
        ← and_or_left]

/-- **`pruneGraph` leaves one vertex for each component.** -/
theorem pruneGraph_spec (ord : HashOrder V) (hg : g.WF) (hn : g.NonNeg) :
    ∃ p, pruneGraph ord g = .ok p ∧ Represents g g.colorAt p := by
  obtain ⟨cloned, hcopy, hsame⟩ := copy_spec ord hg hn
  have hstart : PruneInv g ⟨cloned, new V, 0, []⟩ := {
    shape := hsame.adj
    cloned_wf := hsame.wf hg
    cloned_mem := hsame.mem
    count := rfl
    sub := by simp
    apart := .nil
    numbered := by simp
    rest := fun u _ => hsame.color u
    res_wf := wf_new
    res_mem := fun r => by simp [mem_def, new]
    res_color := by simp
    res_adj := fun a b hab => HashMap.not_mem_empty hab.mem_left }
  -- The first loop covers every vertex, the second looks at every edge between components.
  obtain ⟨p, hrun, hp, -, hcov⟩ := pruneComponents_spec ord hg hn (ord.iterate cloned.getVertexSet)
    hstart fun v hv => (hsame.mem v).mp (by simpa using hv)
  replace hcov : ∀ v, v ∈ g → Covered g p v := fun v hv =>
    hcov v (by simpa using (hsame.mem v).mpr hv)
  obtain ⟨res, hrun', hwf, hc, hk, ha⟩ := pruneEdges_spec ord hp hg hcov
    (ord.iterate g.getVertexSet) hp.res_wf (fun r hr => (hp.res_mem r).mpr hr) fun v hv => by
      simpa using hv
  have hmem : ∀ r, r ∈ res ↔ r ∈ p.components := fun r => by
    rw [← hp.res_mem, mem_def, HashMap.mem_def, hk]
    rfl
  refine ⟨res, ?_, hwf, fun r hr => hp.sub r ((hmem r).mp hr), fun v hv => ?_,
    fun r r' hr hr' hj => ?_, fun r hr => ?_, fun a b => ?_⟩
  · rw [pruneGraph, hcopy]
    change (pruneComponents ord g (ord.iterate cloned.getVertexSet) ⟨cloned, new V, 0, []⟩ >>=
      fun p => pruneEdges ord g p (ord.iterate g.getVertexSet) p.res) = _
    rw [hrun]
    exact hrun'
  · obtain ⟨r, hr, hrv⟩ := hcov v hv
    exact ⟨r, (hmem r).mpr hr, hrv⟩
  · exact hp.rep_unique hg ⟨(hmem r).mp hr, hj⟩ ⟨(hmem r').mp hr', .refl r'⟩
  · rw [colorAt, hc]
    exact hp.res_color r ((hmem r).mp hr)
  · rw [ha]
    simp only [hp.res_adj, false_or, ord.mem_iterate, mem_getVertexSet, hmem, Rep]
    constructor
    · rintro ⟨hne, u, -, w, huw, ⟨ha, hb⟩ | ⟨ha, hb⟩⟩
      · exact ⟨hne, ha.1, hb.1, u, w, ha.2, hb.2, huw⟩
      · exact ⟨hne, ha.1, hb.1, w, u, ha.2, hb.2, hg.symm u w huw⟩
    · rintro ⟨hne, ha, hb, u, w, hau, hbw, huw⟩
      exact ⟨hne, u, huw.mem_left, w, huw, .inl ⟨⟨ha, hau⟩, hb, hbw⟩⟩

/-! ## The method -/

omit [DecidableEq V] in
theorem ofExcept_bind {α β : Type} {x : Except JavaException α} {a : α} {f : α → GraphM V β}
    (h : x = .ok a) : (MonadExcept.ofExcept x >>= f) g = f a g := by
  subst h
  rfl

theorem bind_eq_ok_iff {α β : Type} {x : Except JavaException α} {f : α → Except JavaException β}
    {b : β} : (x >>= f) = .ok b ↔ ∃ a, x = .ok a ∧ f a = .ok b := by
  cases x with
  | ok a =>
    constructor
    · intro h
      exact ⟨a, rfl, h⟩
    · rintro ⟨_, ⟨⟩, h⟩
      exact h
  | error e =>
    constructor
    · intro h
      cases h
    · rintro ⟨_, ⟨⟩, _⟩

/-- A getter leaves the graph alone. -/
theorem getVertexColor_eq {v : V} {c : ℤ} {h : ColoredGraph V}
    (hc : call (getVertexColor v) g = .ok (c, h)) : getVertexColor v g = .ok c g := by
  by_cases hv : v ∈ g
  · cases hcol : g.colorAt v with
    | some d =>
      have hrun := getVertexColor_ok hv hcol
      rw [call_ok hrun] at hc
      cases hc
      exact hrun
    | none =>
      have hcol' : g.colorMap.get v = none := hcol
      have hrun : getVertexColor v g = .error .nullPointer g := by
        simp [getVertexColor, bind, EStateM.bind, get_ok, hv, hcol', throw_error]
      rw [call, hrun] at hc
      cases hc
  · rw [call, getVertexColor_of_not_mem hv] at hc
    cases hc

/-- The first loop only reads the graph it runs on. -/
theorem pruneComponentsOn_ok {ord : HashOrder V} (vs : List V) : ∀ {p p' : Pruning V},
    pruneComponents ord g vs p = .ok p' → pruneComponentsOn ord vs p g = .ok p' g := by
  induction vs with
  | nil =>
    intro p p' h
    cases h
    rfl
  | cons v vs ih =>
    intro p p' h
    unfold pruneComponents at h
    unfold pruneComponentsOn
    obtain ⟨⟨color, _⟩, hcolor, h⟩ := bind_eq_ok_iff.mp h
    rw [ofExcept_bind hcolor]
    dsimp only at h ⊢
    split at h
    case isTrue hpos =>
      obtain ⟨⟨_, cloned⟩, hflood, h⟩ := bind_eq_ok_iff.mp h
      obtain ⟨⟨orgColor, _⟩, horg, h⟩ := bind_eq_ok_iff.mp h
      obtain ⟨⟨_, res⟩, hadd, h⟩ := bind_eq_ok_iff.mp h
      rw [if_pos hpos, ofExcept_bind hflood]
      dsimp only
      rw [bind_ok (getVertexColor_eq horg), ofExcept_bind hadd]
      exact ih h
    case isFalse hneg =>
      rw [if_neg hneg]
      exact ih h

theorem pruneEdgesOn_ok {ord : HashOrder V} {p : Pruning V} (vs : List V) :
    ∀ {res res' : ColoredGraph V}, pruneEdges ord g p vs res = .ok res' →
      pruneEdgesOn ord p vs res g = .ok res' g := by
  induction vs with
  | nil =>
    intro res res' h
    cases h
    rfl
  | cons v vs ih =>
    intro res res' h
    unfold pruneEdges at h
    unfold pruneEdgesOn
    rw [bind_ok get_ok]
    split at h
    case h_1 s hs =>
      obtain ⟨res₁, hfrom, h⟩ := bind_eq_ok_iff.mp h
      rw [hs]
      dsimp only
      rw [ofExcept_bind hfrom]
      exact ih h
    case h_2 => cases h

/-- `pruneGraph` leaves the graph it is called on as it is. -/
theorem pruneGraphOn_ok {ord : HashOrder V} {p : ColoredGraph V} (h : pruneGraph ord g = .ok p) :
    pruneGraphOn ord g = .ok p g := by
  obtain ⟨cloned, hcopy, h⟩ := bind_eq_ok_iff.mp h
  obtain ⟨pruning, hcomponents, h⟩ := bind_eq_ok_iff.mp h
  unfold pruneGraphOn
  rw [bind_ok get_ok, ofExcept_bind hcopy, bind_ok (pruneComponentsOn_ok _ hcomponents),
    bind_ok get_ok]
  exact pruneEdgesOn_ok _ h

/-! ## The quotient -/

variable {q q' : ColoredGraph V} {col : V → Option ℤ}

omit [DecidableEq V] in
theorem Represents.nonNeg (h : Represents g col q) (hcol : ∀ v c, col v = some c → 0 ≤ c) :
    q.NonNeg := fun r c hc => hcol r c (h.color r (h.wf.mem_of_color hc) ▸ hc)

omit [DecidableEq V] in
theorem Represents.color_ne (h : Represents g g.colorAt q) (hg : g.WF) {a b : V} (hab : q.Adj a b) :
    q.colorAt a ≠ q.colorAt b := by
  obtain ⟨hne, ha, hb, u, w, hau, hbw, huw⟩ := (h.adj a b).mp hab
  intro heq
  rw [h.color a ha, h.color b hb, hau.color_eq, hbw.color_eq] at heq
  exact hne (h.rep_unique a b ha hb ((hau.tail huw heq).trans (hg.joined_symm hbw)))

omit [DecidableEq V] in
/-- No two vertices of a pruned graph are joined. -/
theorem Represents.eq_of_joined (h : Represents g g.colorAt q) (hg : g.WF) {a b : V}
    (hab : q.Joined a b) : a = b := by
  induction hab with
  | refl => rfl
  | tail _ hstep _ => exact absurd hstep.2 (h.color_ne hg hstep.1)

omit [DecidableEq V] in
theorem Represents.same (h : Represents g g.colorAt q) (hg : g.WF)
    (h' : Represents q q.colorAt q') : Same q q' := by
  have hmem : ∀ v, v ∈ q' ↔ v ∈ q := by
    intro v
    refine ⟨h'.sub v, fun hv => ?_⟩
    obtain ⟨r, hr, hrv⟩ := h'.exists_rep v hv
    exact h.eq_of_joined hg hrv ▸ hr
  refine ⟨hmem, fun v w => ?_, fun v => ?_⟩
  · rw [h'.adj]
    constructor
    · rintro ⟨-, -, -, u, x, hvu, hwx, hux⟩
      rwa [h.eq_of_joined hg hvu, h.eq_of_joined hg hwx]
    · intro hvw
      refine ⟨?_, (hmem v).mpr hvw.mem_left, (hmem w).mpr (h.wf.mem_right hvw), v, w, .refl v,
        .refl w, hvw⟩
      rintro rfl
      exact h.wf.irrefl v hvw
  · by_cases hv : v ∈ q
    · exact h'.color v ((hmem v).mpr hv)
    · have hnone : ∀ {k : ColoredGraph V}, k.WF → v ∉ k → k.colorAt v = none := fun hk hv =>
        HashMap.get_eq_none.mpr fun hc => hv ((hk.colored v).mpr hc)
      rw [hnone h.wf hv, hnone h'.wf fun hin => hv ((hmem v).mp hin)]

/-- **`pruneGraph` is the quotient by the single-coloured components.** -/
theorem pruneGraph_quotient (ord : HashOrder V) (hg : g.WF) (hn : g.NonNeg) :
    ∃ q, pruneGraphOn ord g = .ok q g ∧ q.WF ∧ q.NonNeg ∧
      (∀ r, r ∈ q → r ∈ g ∧ q.colorAt r = g.colorAt r) ∧
      (∀ v, v ∈ g → ∃! r, r ∈ q ∧ g.Joined r v) ∧
      (∀ a b, q.Adj a b ↔
        a ≠ b ∧ a ∈ q ∧ b ∈ q ∧ ∃ u w, g.Joined a u ∧ g.Joined b w ∧ g.Adj u w) ∧
      (∀ a b, q.Adj a b → q.colorAt a ≠ q.colorAt b) ∧
      ∀ ord' : HashOrder V, ∃ q', pruneGraphOn ord' q = .ok q' q ∧ Same q q' := by
  obtain ⟨q, hrun, hq⟩ := pruneGraph_spec ord hg hn
  have hqn : q.NonNeg := hq.nonNeg hn
  refine ⟨q, pruneGraphOn_ok hrun, hq.wf, hqn, fun r hr => ⟨hq.sub r hr, hq.color r hr⟩,
    fun v hv => ?_, hq.adj, fun a b hab => hq.color_ne hg hab, fun ord' => ?_⟩
  · obtain ⟨r, hr, hrv⟩ := hq.exists_rep v hv
    refine ⟨r, ⟨hr, hrv⟩, ?_⟩
    rintro r' ⟨hr', hrv'⟩
    exact hq.rep_unique r' r hr' hr (hrv'.trans (hg.joined_symm hrv))
  · obtain ⟨q', hrun', hq'⟩ := pruneGraph_spec ord' hq.wf hqn
    exact ⟨q', pruneGraphOn_ok hrun', hq.same hg hq'⟩

theorem rowGraph_pruned : ∃ q, pruneGraphOn (.insertion _) rowGraph = .ok q rowGraph ∧
    (∀ a b, q.Adj a b → q.colorAt a ≠ q.colorAt b) ∧ ∃! r, r ∈ q ∧ rowGraph.Joined r 1 := by
  obtain ⟨q, hrun, -, -, -, hrep, -, hne, -⟩ := pruneGraph_quotient (.insertion _) rowGraph_wf
    rowGraph_nonNeg
  exact ⟨q, hrun, hne, hrep 1 (by decide)⟩

end ColoredGraph

end UnionCollegeCode.Kami3
