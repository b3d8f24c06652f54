import Mathlib.Data.Set.Finite.Basic
import UnionCollegeCode.Lib.MergeTree
import UnionCollegeCode.Kami3.SolverSearch

/-!
# The solver finds a shortest solution

The vertices of the graph as a simple graph of their own carry the plays of `Lib.Coloring`, where a
shortest play can be taken to give components the colour of a neighbour only. Those are the moves
the solver tries, on the vertices that stand for components: every such play has a node on the level
of its length (`exists_node`), and every node is a play (`Node.Valid`). So the first level with a
node of one vertex is that of the shortest plays.
-/

set_option autoImplicit false

namespace UnionCollegeCode.Kami3

open Lib.EState Lib.JavaCollections Lib.Coloring Lib.LevelOrder ColoredGraph

variable {V : Type} {g : ColoredGraph V} {repo : ColorRepository}

namespace ColoredGraph

def Connected (g : ColoredGraph V) : Prop :=
  ∀ u w, u ∈ g → w ∈ g → Relation.ReflTransGen g.Adj u w

def Monochromatic (g : ColoredGraph V) : Prop :=
  ∀ u w, u ∈ g → w ∈ g → g.colorAt u = g.colorAt w

/-- Flood fills, one after the other. -/
def replay [DecidableEq V] (ord : HashOrder V) : List (V × ℤ) → GraphM V Unit
  | [] => pure ()
  | (vertex, color) :: moves => do
    colorFloodFill ord vertex color
    replay ord moves

theorem replay_spec [DecidableEq V] (ord : HashOrder V) (ms : List (V × ℤ)) :
    ∀ {g : ColoredGraph V}, g.WF → (∀ m ∈ ms, m.1 ∈ g) →
      ∃ g', replay ord ms g = .ok () g' ∧ SameShape g g' ∧
        g'.colorAt = play g.Adj g.colorAt (ms.map fun m => (m.1, some m.2)) := by
  induction ms with
  | nil => exact fun _ _ => ⟨_, rfl, .refl _, rfl⟩
  | cons m ms ih =>
    intro g hg hms
    obtain ⟨v, c⟩ := m
    obtain ⟨hv, hms⟩ := List.forall_mem_cons.mp hms
    obtain ⟨g₁, hrun₁, hshape₁, hcol₁⟩ := colorFloodFill_spec ord hg hv c
    obtain ⟨g₂, hrun₂, hshape₂, hcol₂⟩ := ih (hshape₁.wf hg) fun m hm => hshape₁.mem.mpr (hms m hm)
    have hadj : g₁.Adj = g.Adj := by
      funext u w
      exact propext hshape₁.adj_iff
    refine ⟨g₂, (bind_ok hrun₁).trans hrun₂, hshape₁.trans hshape₂, ?_⟩
    rw [hcol₂, hcol₁, hadj]
    rfl

/-- Graphs that tell the same are filled to graphs that tell the same. -/
theorem replay_same [DecidableEq V] (ord : HashOrder V) (ms : List (V × ℤ))
    {g h : ColoredGraph V} (hsame : Same g h) (hg : g.WF) (hms : ∀ m ∈ ms, m.1 ∈ g) :
    ∃ g' h', replay ord ms g = .ok () g' ∧ replay ord ms h = .ok () h' ∧ Same g' h' := by
  obtain ⟨g', hrun, hshape, hcol⟩ := replay_spec ord ms hg hms
  obtain ⟨h', hrun', hshape', hcol'⟩ := replay_spec ord ms (hsame.wf hg) fun m hm =>
    (hsame.mem m.1).mpr (hms m hm)
  have hadj : h.Adj = g.Adj := by
    funext v w
    exact propext (hsame.adj v w)
  have hcolor : h.colorAt = g.colorAt := funext hsame.color
  refine ⟨g', h', hrun, hrun', ⟨fun v => ?_, fun v w => ?_, fun v => ?_⟩⟩
  · rw [hshape'.mem, hshape.mem, hsame.mem]
  · rw [hshape'.adj_iff, hshape.adj_iff, hsame.adj]
  · rw [hcol', hcol, hadj, hcolor]

theorem replay_append [DecidableEq V] (ord : HashOrder V) (ms ms' : List (V × ℤ))
    {g g' : ColoredGraph V} (h : replay ord ms g = .ok () g') :
    replay ord (ms ++ ms') g = replay ord ms' g' := by
  induction ms generalizing g with
  | nil =>
    obtain ⟨-, rfl⟩ := EStateM.Result.ok.inj h
    rfl
  | cons m ms ih =>
    obtain ⟨v, c⟩ := m
    obtain ⟨u, g₁, hrun, hrest⟩ := bind_eq_ok.mp h
    exact (bind_ok hrun).trans (ih hrest)

theorem Same.monochromatic_iff {g h : ColoredGraph V} (hsame : Same g h) :
    h.Monochromatic ↔ g.Monochromatic := by
  simp only [Monochromatic, hsame.mem, hsame.color]

/-! ## The vertices as a graph of their own -/

/-- The graph on the vertices of `g`. -/
def simple (hg : g.WF) : SimpleGraph {v // v ∈ g} where
  Adj u w := g.Adj u w
  symm := ⟨fun u w => hg.symm u w⟩
  loopless := ⟨fun u => hg.irrefl u⟩

/-- A colouring of the vertices of `g`. -/
abbrev restrict (g : ColoredGraph V) (col : V → Option ℤ) : {v // v ∈ g} → Option ℤ := fun u => col u

variable {col : V → Option ℤ}

theorem mono_restrict (hg : g.WF) {u w : {v // v ∈ g}} :
    Mono (simple hg).Adj (g.restrict col) u w ↔ Mono g.Adj col u w := by
  constructor
  · intro h
    induction h with
    | refl => exact .refl _
    | tail _ hstep ih => exact ih.tail hstep.1 hstep.2
  · obtain ⟨w, hw⟩ := w
    intro h
    change Mono g.Adj col u w at h
    induction h with
    | refl => exact .refl u
    | @tail x y hx hstep ih =>
      have hxy : (simple hg).Adj ⟨x, hstep.1.mem_left⟩ ⟨y, hw⟩ := hstep.1
      exact (ih hstep.1.mem_left).tail hxy hstep.2

theorem flood_restrict (hg : g.WF) (v : {v // v ∈ g}) (c : Option ℤ) :
    g.restrict (flood g.Adj col v c) = flood (simple hg).Adj (g.restrict col) v c := by
  funext u
  by_cases h : Mono g.Adj col v u
  · rw [flood_of_mono ((mono_restrict hg).mpr h)]
    exact flood_of_mono h
  · rw [flood_of_not_mono fun hm => h ((mono_restrict hg).mp hm)]
    exact flood_of_not_mono h

theorem play_restrict (hg : g.WF) (ms : List ({v // v ∈ g} × Option ℤ)) :
    ∀ {col : V → Option ℤ}, g.restrict (play g.Adj col (ms.map fun m => (m.1.1, m.2))) =
      play (simple hg).Adj (g.restrict col) ms := by
  induction ms with
  | nil => exact rfl
  | cons m ms ih =>
    intro col
    rw [play, ← flood_restrict hg]
    exact ih

/-- Moves at vertices of the graph are moves on the graph of its vertices. -/
theorem exists_restrict (ms : List (V × Option ℤ)) (h : ∀ m ∈ ms, m.1 ∈ g) :
    ∃ ms' : List ({v // v ∈ g} × Option ℤ), ms'.map (fun m => (m.1.1, m.2)) = ms :=
  ⟨ms.pmap (fun m hm => (⟨m.1, hm⟩, m.2)) h, by rw [List.map_pmap]; exact List.pmap_eq_self.mpr (by simp)⟩

instance (g : ColoredGraph V) : Finite {v // v ∈ g} :=
  (List.finite_toSet g.getVertexSet).to_subtype

theorem Connected.preconnected (hg : g.WF) (h : g.Connected) : (simple hg).Preconnected := by
  intro u w
  rw [SimpleGraph.reachable_iff_reflTransGen]
  obtain ⟨w, hw⟩ := w
  have hpath := h u w u.2 hw
  induction hpath with
  | refl => exact .refl
  | @tail x y _ hxy ih => exact (ih hxy.mem_left).tail hxy

theorem monochromatic_iff {g' : ColoredGraph V} (hshape : SameShape g g') :
    g'.Monochromatic ↔ Solved (g.restrict g'.colorAt) :=
  ⟨fun h u w => h u w (hshape.mem.mpr u.2) (hshape.mem.mpr w.2),
    fun h u w hu hw => h ⟨u, hshape.mem.mp hu⟩ ⟨w, hshape.mem.mp hw⟩⟩

end ColoredGraph

/-! ## Nodes and plays -/

variable [DecidableEq V] {ord : HashOrder V} {colorOrd : HashOrder ℤ} {n : Node V}

/-- Every child is what it says, and one move further. -/
theorem children_valid (hg : g.WF) (hn : n.Valid g repo) {n' : Node V}
    (h : n' ∈ children ord colorOrd repo n) :
    n'.Valid g repo ∧ n'.path.length = n.path.length + 1 := by
  obtain ⟨v, hv, h⟩ := List.mem_flatMap.mp h
  obtain ⟨c, hc, h⟩ := List.mem_flatMap.mp h
  have hvn : v ∈ n.graph := by simpa using hv
  obtain ⟨-, w, -, hw⟩ := (mem_colorsTried hn.represents.wf hvn).mp hc
  obtain ⟨q, color, -, -, hchild, hvalid, -⟩ := hn.child ord hg hvn ⟨w, hw⟩
  rw [hchild, List.mem_singleton] at h
  subst h
  exact ⟨hvalid, by simp⟩

variable (ord colorOrd) in
theorem levels_valid (hg : g.WF) (d : ℕ) : ∀ {k : ℕ} {ns : List (Node V)},
    (∀ n ∈ ns, n.Valid g repo ∧ n.path.length = k) →
    ∀ n ∈ levels (children ord colorOrd repo) d ns, n.Valid g repo ∧ n.path.length = k + d := by
  induction d with
  | zero => exact fun h => h
  | succ d ih =>
    intro k ns h n hn
    have := @ih (k + 1) (ns.flatMap (children ord colorOrd repo)) (fun n' hn' => by
      obtain ⟨m, hm, hn'⟩ := List.mem_flatMap.mp hn'
      obtain ⟨hvalid, hlen⟩ := children_valid hg (h m hm).1 hn'
      exact ⟨hvalid, hlen.trans (by rw [(h m hm).2])⟩) n hn
    exact ⟨this.1, this.2.trans (by omega)⟩

variable (ord colorOrd) in
/-- **A play of neighbours' colours has a node on the level of its length.** -/
theorem exists_node (hg : g.WF) (ms : List ({v // v ∈ g} × Option ℤ)) :
    ∀ {ns : List (Node V)} {n : Node V}, n ∈ ns → n.Valid g repo →
      AdjacentPlay (simple hg) (g.restrict (n.coloring g)) ms →
      ∃ n' ∈ levels (children ord colorOrd repo) ms.length ns, n'.Valid g repo ∧
        g.restrict (n'.coloring g) = play (simple hg).Adj (g.restrict (n.coloring g)) ms := by
  induction ms with
  | nil => exact fun hn hvalid _ => ⟨_, hn, hvalid, rfl⟩
  | cons m ms ih =>
    intro ns n hn hvalid hplay
    obtain ⟨v, c⟩ := m
    obtain ⟨⟨hcv, u, w, hvu, huw, rfl⟩, hplay⟩ := hplay
    have hrep := hvalid.represents
    -- The vertices that stand for the two components, and the colour of the second.
    obtain ⟨r, hr, hrv⟩ := hrep.exists_rep v v.2
    obtain ⟨b, hb, hbw⟩ := hrep.exists_rep w w.2
    obtain ⟨c, hc⟩ := hrep.wf.exists_color hb
    have hcw : n.coloring g w = some c := by rw [← hbw.color_eq, ← hrep.color b hb, hc]
    have hru : Mono g.Adj (n.coloring g) r u := hrv.trans ((mono_restrict hg).mp hvu)
    have hne : r ≠ b := by
      rintro rfl
      exact hcv (hbw.color_eq.symm.trans hrv.color_eq)
    have hadj : n.graph.Adj r b := (hrep.adj r b).mpr ⟨hne, hr, hb, u, w, hru, hbw, huw⟩
    have hcr : some c ≠ n.graph.colorAt r := by
      rw [hrep.color r hr, hrv.color_eq, ← hcw]
      exact hcv
    have htried : c ∈ colorsTried ord colorOrd n.graph r :=
      (mem_colorsTried hrep.wf hr).mpr ⟨hcr, b, hadj, hc⟩
    obtain ⟨q, color, -, -, hchild, hvalid', hcol⟩ := hvalid.child ord hg hr ⟨b, hc⟩
    have hmem : (⟨q, n.path ++ [⟨color, r⟩]⟩ : Node V) ∈ ns.flatMap (children ord colorOrd repo) := by
      refine List.mem_flatMap.mpr ⟨n, hn, List.mem_flatMap.mpr ⟨r, by simpa using hr,
        List.mem_flatMap.mpr ⟨c, htried, ?_⟩⟩⟩
      rw [hchild]
      exact List.mem_singleton_self _
    have hcol' : g.restrict (Node.coloring g ⟨q, n.path ++ [⟨color, r⟩]⟩) =
        flood (simple hg).Adj (g.restrict (n.coloring g)) v (g.restrict (n.coloring g) w) := by
      rw [hcol, flood_congr hg.symm hrv, ← hcw]
      exact flood_restrict hg v _
    obtain ⟨n', hn', hvalid'', hplay'⟩ := ih hmem hvalid' (hcol' ▸ hplay)
    exact ⟨n', hn', hvalid'', hplay'.trans (by rw [hcol']; rfl)⟩

omit [DecidableEq V] in
/-- A node of one vertex is a solution. -/
theorem Node.Valid.isGoal_iff (hg : g.WF) (hconn : g.Connected) (hne : ∃ v, v ∈ g)
    (h : n.Valid g repo) : n.isGoal = true ↔ Solved (g.restrict (n.coloring g)) := by
  rw [Node.isGoal, decide_eq_true_eq, h.represents.numVertices_eq_one hg hconn hne]
  exact ⟨fun h u w => h u w u.2 w.2, fun h u w hu hw => h ⟨u, hu⟩ ⟨w, hw⟩⟩

omit [DecidableEq V] in
/-- The moves of a node as a play on the vertices. -/
theorem Node.Valid.exists_play (hg : g.WF) (h : n.Valid g repo) :
    ∃ ms : List ({v // v ∈ g} × Option ℤ), ms.length = n.path.length ∧
      play (simple hg).Adj (g.restrict g.colorAt) ms = g.restrict (n.coloring g) := by
  obtain ⟨ms, hms⟩ := exists_restrict (n.path.map Move.fill) fun m hm => by
    obtain ⟨move, hmove, rfl⟩ := List.mem_map.mp hm
    exact h.path_mem move hmove
  refine ⟨ms, ?_, ?_⟩
  · have := congrArg List.length hms
    simpa using this
  · rw [← play_restrict hg, hms]
    rfl

/-- A solved node has no children. -/
theorem children_eq_nil (h : n.Valid g repo)
    (hsolved : Solved (g.restrict (n.coloring g))) : children ord colorOrd repo n = [] := by
  refine List.flatMap_eq_nil_iff.mpr fun v hv => List.flatMap_eq_nil_iff.mpr fun c hc => ?_
  have hvn : v ∈ n.graph := by simpa using hv
  obtain ⟨hne, w, hvw, hw⟩ := (mem_colorsTried h.represents.wf hvn).mp hc
  have hwn := h.represents.wf.mem_right hvw
  refine absurd ?_ hne
  rw [← hw, h.represents.color w hwn, h.represents.color v hvn]
  exact hsolved ⟨w, h.represents.sub w hwn⟩ ⟨v, h.represents.sub v hvn⟩

omit [DecidableEq V] in
/-- The node the search starts from. -/
theorem start_valid (hcol : ∀ v c, g.colorAt v = some c → Known repo c)
    {p : ColoredGraph V} (hp : Represents g g.colorAt p) : Node.Valid g repo ⟨p, []⟩ :=
  ⟨hp, fun v c _ hc => hcol v c hc, by simp, by simp⟩

omit [DecidableEq V] in
theorem start_holds (p : ColoredGraph V) :
    List.Forall₂ (Holds (SolverState.start p)) (SolverState.start p).queue [⟨p, []⟩] :=
  .cons ⟨rfl, .start (HashMap.get_put_self ..), Nat.one_pos, 0, HashMap.get_put_self ..⟩ .nil

variable (ord colorOrd) in
/-- The search from the start node, on the first level with a solution. -/
theorem search_start (hg : g.WF) (hconn : g.Connected)
    (hcol : ∀ v c, g.colorAt v = some c → Known repo c) {p : ColoredGraph V}
    (hp : Represents g g.colorAt p) :
    ∃ N, ∃ r : Option (Node V), (∀ fuel ≥ N,
        search (children ord colorOrd repo) Node.isGoal fuel [⟨p, []⟩] = some r) ∧
      (r = none → Solved (g.restrict g.colorAt)) ∧
      ∀ b, r = some b → b.Valid g repo ∧ Solved (g.restrict (b.coloring g)) ∧
        ∀ ms, Solved (play (simple hg).Adj (g.restrict g.colorAt) ms) → b.path.length ≤ ms.length := by
  classical
  have hstart := start_valid hcol hp
  by_cases hsolved : Solved (g.restrict g.colorAt)
  · refine ⟨1, none, fun fuel hfuel => search_leaves (fun a ha => ?_) fuel hfuel, fun _ => hsolved,
      fun b hb => by cases hb⟩
    rw [List.mem_singleton.mp ha]
    exact children_eq_nil hstart hsolved
  · have hne : ∃ v, v ∈ g := by
      by_contra hno
      push Not at hno
      exact hsolved fun u _ => absurd u.2 (hno u)
    have : Nonempty {v // v ∈ g} := ⟨⟨hne.choose, hne.choose_spec⟩⟩
    -- The length of a shortest play of any kind.
    have hex : ∃ k, ∃ ms, Solved (play (simple hg).Adj (g.restrict g.colorAt) ms) ∧ ms.length = k := by
      obtain ⟨S, c, m, hflood, hall⟩ := exists_floods (hconn.preconnected hg) (g.restrict g.colorAt)
      obtain ⟨ms, -, hms, -⟩ := exists_adjacentPlay m hflood hall
      exact ⟨_, ms, hms, rfl⟩
    have hmin : ∀ ms, Solved (play (simple hg).Adj (g.restrict g.colorAt) ms) →
        Nat.find hex ≤ ms.length := fun ms hms => Nat.find_min' hex ⟨ms, hms, rfl⟩
    obtain ⟨ms, hms, hlen⟩ := Nat.find_spec hex
    obtain ⟨ms', hadj, hms', hlen'⟩ := exists_adjacentPlay_le (hconn.preconnected hg) hms
    obtain ⟨d, hd⟩ : ∃ d, Nat.find hex = d + 1 := by
      refine Nat.exists_eq_succ_of_ne_zero fun hzero => hsolved ?_
      rw [List.eq_nil_of_length_eq_zero (hlen.trans hzero)] at hms
      exact hms
    have hk : ms'.length = d + 1 := hd ▸ le_antisymm (hlen ▸ hlen') (hmin ms' hms')
    have hroot : ∀ n ∈ [(⟨p, []⟩ : Node V)], n.Valid g repo ∧ n.path.length = 0 := by
      simpa using hstart
    have hgoal : ∃ b ∈ levels (children ord colorOrd repo) (d + 1) [⟨p, []⟩], b.isGoal = true := by
      obtain ⟨b, hb, hvalid, hplay⟩ := exists_node ord colorOrd hg ms'
        (List.mem_singleton_self (⟨p, []⟩ : Node V)) hstart hadj
      refine ⟨b, hk ▸ hb, (hvalid.isGoal_iff hg hconn hne).mpr ?_⟩
      rw [hplay]
      exact hms'
    have hfirst : ∀ e < d, ∀ b ∈ levels (children ord colorOrd repo) (e + 1) [⟨p, []⟩],
        b.isGoal = false := by
      intro e he b hb
      obtain ⟨hvalid, hlenb⟩ := levels_valid ord colorOrd hg (e + 1) hroot b hb
      by_contra htrue
      obtain ⟨ms, hlen, hplay⟩ := hvalid.exists_play hg
      have := hmin ms (hplay ▸ (hvalid.isGoal_iff hg hconn hne).mp (by simpa using htrue))
      omega
    obtain ⟨N, b, hb, hbgoal, hrun⟩ := search_finds d hgoal hfirst
    obtain ⟨hvalid, hlenb⟩ := levels_valid ord colorOrd hg (d + 1) hroot b hb
    refine ⟨N, some b, hrun, fun hnone => absurd hnone (Option.some_ne_none b), fun b' hb' => ?_⟩
    obtain rfl := Option.some.inj hb'
    refine ⟨hvalid, (hvalid.isGoal_iff hg hconn hne).mp hbgoal, fun ms hms => ?_⟩
    have := hmin ms hms
    omega

/-- A move as the flood fill it stands for. -/
def Move.step (m : Move V) : V × ℤ := (m.vertex, (m.color.colorId : ℤ))

/-- What the solver's moves are: moves on the graph with colours of the repository, and a shortest
solution. -/
theorem solverCall_spec (ord : HashOrder V) (colorOrd : HashOrder ℤ) (repo : ColorRepository)
    (hg : g.WF) (hconn : g.Connected) (hcol : ∀ v c, g.colorAt v = some c → Known repo c) :
    ∃ N, ∃ ms : List (Move V),
      (∀ fuel ≥ N, solverCall ord colorOrd repo g fuel = .ok (ms.map some)) ∧
      (∀ m ∈ ms, m.vertex ∈ g) ∧ (∀ m ∈ ms, repo.getColor m.color.colorId = .ok m.color) ∧
      (∃ g', replay ord (ms.map Move.step) g = .ok () g' ∧ g'.Monochromatic) ∧
      ∀ ms' : List (V × ℤ), (∀ m ∈ ms', m.1 ∈ g) → ∀ g', replay ord ms' g = .ok () g' →
        g'.Monochromatic → ms.length ≤ ms'.length := by
  have hn : g.NonNeg := fun v c hc => (hcol v c hc).nonneg
  obtain ⟨p, hprune, hp⟩ := pruneGraph_spec ord hg hn
  obtain ⟨N, r, hsearch, hnone, hsome⟩ := search_start ord colorOrd hg hconn hcol hp
  have hloop := fun fuel hfuel => searchLoop_spec ord colorOrd
    (fun n hvalid => hvalid.tryable) (fun n hvalid n' hn' => (children_valid hg hvalid hn').1) fuel rfl (start_holds p)
    (by simpa using start_valid hcol hp) r (hsearch fuel hfuel)
  have hcall : ∀ fuel, solverCall ord colorOrd repo g fuel =
      (searchLoop ord colorOrd repo fuel (.start p) >>= fun st =>
        traceBack st st.nextUuid st.foundResult []) := by
    intro fuel
    rw [solverCall, hprune]
    rfl
  -- A shorter solution of `g` would give one of the pruned graph as short.
  have hshortest : ∀ k, (∀ ms, Solved (play (simple hg).Adj (g.restrict g.colorAt) ms) →
      k ≤ ms.length) → ∀ ms' : List (V × ℤ), (∀ m ∈ ms', m.1 ∈ g) → ∀ g',
        replay ord ms' g = .ok () g' → g'.Monochromatic → k ≤ ms'.length := by
    intro k hk ms' hms' g' hrun hmono
    obtain ⟨g'', hrun', hshape, hplay⟩ := replay_spec ord ms' hg hms'
    rw [hrun', EStateM.Result.ok.injEq] at hrun
    obtain ⟨ms, hms⟩ := exists_restrict (ms'.map fun m => (m.1, some m.2)) fun m hm => by
      obtain ⟨m', hm', rfl⟩ := List.mem_map.mp hm
      exact hms' m' hm'
    have hlen : ms.length = ms'.length := by simpa using congrArg List.length hms
    rw [← hlen]
    refine hk ms ?_
    rw [← play_restrict hg, hms, ← hplay]
    exact (monochromatic_iff hshape).mp (hrun.2 ▸ hmono)
  -- No goal is found only where the pruned graph is one colour already, and no move is needed.
  cases r with
  | none =>
    have hsolved := hnone rfl
    refine ⟨N, [], fun fuel hfuel => ?_, by simp, by simp, ⟨g, rfl, (monochromatic_iff (.refl g)).mpr hsolved⟩,
      fun _ _ _ _ _ => Nat.zero_le _⟩
    obtain ⟨st, hrun, hfound, -⟩ := hloop fuel hfuel
    rw [hcall, hrun]
    change traceBack st st.nextUuid st.foundResult [] = _
    rw [hfound rfl, traceBack_none]
    rfl
  | some b =>
    obtain ⟨hvalid, hsolved, hmin⟩ := hsome b rfl
    have hsteps : ∀ m ∈ b.path.map Move.step, m.1 ∈ g := by
      intro m hm
      obtain ⟨move, hmove, rfl⟩ := List.mem_map.mp hm
      exact hvalid.path_mem move hmove
    obtain ⟨g', hreplay, hshape, hplay⟩ := replay_spec ord (b.path.map Move.step) hg hsteps
    refine ⟨N, b.path, fun fuel hfuel => ?_, hvalid.path_mem, hvalid.path_color,
      ⟨g', hreplay, ?_⟩, hshortest _ hmin⟩
    · obtain ⟨st, hrun, -, hfound⟩ := hloop fuel hfuel
      obtain ⟨id, hid, hlt, htr⟩ := hfound b rfl
      rw [hcall, hrun]
      change traceBack st st.nextUuid st.foundResult [] = _
      have hlen := htr.length_le
      rw [hid, traceBack_spec htr _ (by omega), List.append_nil]
    · rw [monochromatic_iff hshape, hplay, List.map_map]
      exact hsolved

/-- **The solver's moves solve the graph, and nothing shorter does.** -/
theorem solverCall_optimal (ord : HashOrder V) (colorOrd : HashOrder ℤ) (repo : ColorRepository)
    (hg : g.WF) (hconn : g.Connected) (hcol : ∀ v c, g.colorAt v = some c → Known repo c) :
    ∃ N, ∃ ms : List (Move V),
      (∀ fuel ≥ N, solverCall ord colorOrd repo g fuel = .ok (ms.map some)) ∧
      (∀ m ∈ ms, m.vertex ∈ g) ∧
      (∃ g', replay ord (ms.map Move.step) g = .ok () g' ∧ g'.Monochromatic) ∧
      ∀ ms' : List (V × ℤ), (∀ m ∈ ms', m.1 ∈ g) → ∀ g', replay ord ms' g = .ok () g' →
        g'.Monochromatic → ms.length ≤ ms'.length := by
  obtain ⟨N, ms, hrun, hmem, -, hmono, hmin⟩ := solverCall_spec ord colorOrd repo hg hconn hcol
  exact ⟨N, ms, hrun, hmem, hmono, hmin⟩

/-! ## An edge -/

/-- Two vertices, of the colours 0 and 1. -/
def edgeGraph : ColoredGraph Bool where
  adjVertices := ((HashMap.empty ..).put false ((HashSet.empty Bool).add true)).put true
    ((HashSet.empty Bool).add false)
  colorMap := ((HashMap.empty ..).put false 0).put true 1

/-- Two colours. -/
def twoColors : ColorRepository where
  colorMap := ((HashMap.empty ..).put 0 ⟨0, 255, 0, 0⟩).put 1 ⟨1, 0, 0, 255⟩
  idCount := 2
  colorId_eq id color h := by
    rw [HashMap.get_put, HashMap.get_put] at h
    split at h
    · rw [← Option.some.inj h]
      exact Eq.symm ‹_›
    · split at h
      · rw [← Option.some.inj h]
        exact Eq.symm ‹_›
      · cases h

theorem edgeGraph_adj {v w : Bool} : edgeGraph.Adj v w ↔ v ≠ w := by
  cases v <;> cases w <;> simp [Adj, edgeGraph, HashMap.get_put]

theorem edgeGraph_wf : edgeGraph.WF where
  colored := by decide
  symm v w h := edgeGraph_adj.mpr (edgeGraph_adj.mp h).symm
  irrefl v h := edgeGraph_adj.mp h rfl

theorem edgeGraph_solved : ∃ N, ∃ ms : List (Move Bool),
    (∀ fuel ≥ N, solverCall (.insertion _) (.insertion _) twoColors edgeGraph fuel =
      .ok (ms.map some)) ∧
    (∃ g', replay (.insertion _) (ms.map Move.step) edgeGraph = .ok () g' ∧ g'.Monochromatic) ∧
    ms.length ≤ 1 := by
  have hconn : edgeGraph.Connected := by
    intro v w _ _
    by_cases h : v = w
    · exact h ▸ .refl
    · exact .single (edgeGraph_adj.mpr h)
  have hcol : ∀ v c, edgeGraph.colorAt v = some c → Known twoColors c := by
    intro v c h
    cases v
    · obtain rfl : 0 = c := Option.some.inj h
      exact ⟨_, rfl⟩
    · obtain rfl : 1 = c := Option.some.inj h
      exact ⟨_, rfl⟩
  obtain ⟨N, ms, hrun, -, hmono, hmin⟩ :=
    solverCall_optimal (.insertion _) (.insertion _) twoColors edgeGraph_wf hconn hcol
  refine ⟨N, ms, hrun, hmono, hmin [(false, 1)] (by decide) _ rfl ?_⟩
  intro v w _ _
  cases v <;> cases w <;> rfl

end UnionCollegeCode.Kami3
