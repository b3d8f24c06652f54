import UnionCollegeCode.Lib.LevelOrder
import UnionCollegeCode.Kami3.Contraction
import UnionCollegeCode.Kami3.Solver

/-!
# The solver is a level-order search

A `Node` is a pruned graph together with the moves that led to it. `children` lists what the two
inner loops make of a node, in their order, and the `while` loop of the source is
`Lib.LevelOrder.search` with these children: `searchLoop_spec`. The maps keyed by UUID hold the paths
of the nodes, one link each (`Traces`), and a new graph object has a new UUID, so nothing put there
is ever overwritten (`Extends`).
-/

set_option autoImplicit false

namespace UnionCollegeCode.Kami3

open Lib.JavaCollections Lib.Coloring Lib.LevelOrder ColoredGraph

variable {V : Type}

/-- A colour of the repository. -/
def Known (repo : ColorRepository) (c : ℤ) : Prop := ∃ color, repo.colorMap.get c = some color

theorem Known.nonneg {repo : ColorRepository} {c : ℤ} (h : Known repo c) : 0 ≤ c := by
  obtain ⟨color, hcolor⟩ := h
  have := repo.colorId_eq c color hcolor
  omega

theorem Known.getColor {repo : ColorRepository} {c : ℤ} (h : Known repo c) :
    ∃ color : Color, repo.getColor c = .ok color ∧ (color.colorId : ℤ) = c := by
  obtain ⟨color, hcolor⟩ := h
  refine ⟨color, ?_, repo.colorId_eq c color hcolor⟩
  rw [ColorRepository.getColor, hcolor]
  rfl

/-- The move, as a flood fill of a colouring. -/
def Move.fill (m : Move V) : V × Option ℤ := (m.vertex, some (m.color.colorId : ℤ))

structure Node (V : Type) where
  graph : ColoredGraph V
  path : List (Move V)

/-- The colouring of `g` the moves of a node lead to. -/
noncomputable def Node.coloring (g : ColoredGraph V) (n : Node V) : V → Option ℤ :=
  play g.Adj g.colorAt (n.path.map Move.fill)

/-- A node is what it says: its graph represents the colouring its moves lead to. -/
structure Node.Valid (g : ColoredGraph V) (repo : ColorRepository) (n : Node V) : Prop where
  represents : Represents g (n.coloring g) n.graph
  known : ∀ v c, v ∈ g → n.coloring g v = some c → Known repo c
  path_mem : ∀ m ∈ n.path, m.vertex ∈ g
  path_color : ∀ m ∈ n.path, repo.getColor m.color.colorId = .ok m.color

/-- What the solver relies on when it tries the colours of the neighbours. -/
structure Node.Tryable (repo : ColorRepository) (n : Node V) : Prop where
  wf : n.graph.WF
  nonNeg : n.graph.NonNeg
  known : ∀ v w c, n.graph.Adj v w → n.graph.colorAt w = some c → Known repo c

def Node.isGoal (n : Node V) : Bool := n.graph.getNumVertices = 1

variable {g : ColoredGraph V} {repo : ColorRepository} {n : Node V}

theorem Node.Valid.known_graph (h : n.Valid g repo) {v : V} {c : ℤ}
    (hc : n.graph.colorAt v = some c) : Known repo c := by
  have hv := h.represents.wf.mem_of_color hc
  exact h.known v c (h.represents.sub v hv) ((h.represents.color v hv).symm.trans hc)

theorem Node.Valid.nonNeg (h : n.Valid g repo) : n.graph.NonNeg :=
  fun _ _ hc => (h.known_graph hc).nonneg

theorem Node.Valid.tryable (h : n.Valid g repo) : n.Tryable repo :=
  ⟨h.represents.wf, h.nonNeg, fun _ _ _ _ hc => h.known_graph hc⟩

variable [DecidableEq V] (ord : HashOrder V) (colorOrd : HashOrder ℤ)

/-! ## The children of a node -/

/-- The colours the solver tries at a vertex. -/
def colorsTried (g : ColoredGraph V) (v : V) : List ℤ :=
  match possibleColors ord g v ((g.colorAt v).getD 0) with
  | .ok s => colorOrd.iterate s.elems
  | .error _ => []

def childrenAt (repo : ColorRepository) (n : Node V) (v : V) (c : ℤ) : List (Node V) :=
  match pruneGraph ord (n.graph.withColor v c), repo.getColor c with
  | .ok q, .ok color => [⟨q, n.path ++ [⟨color, v⟩]⟩]
  | _, _ => []

def children (repo : ColorRepository) (n : Node V) : List (Node V) :=
  (ord.iterate n.graph.getVertexSet).flatMap fun v =>
    (colorsTried ord colorOrd n.graph v).flatMap (childrenAt ord repo n v)

variable {ord colorOrd}

theorem getVertexColors_spec {h : ColoredGraph V} (hwf : h.WF) (vs : List V) (hvs : ∀ v ∈ vs, v ∈ h) :
    ∃ cs, getVertexColors h vs = .ok cs ∧ ∀ c, c ∈ cs ↔ ∃ v ∈ vs, h.colorAt v = some c := by
  induction vs with
  | nil => exact ⟨[], rfl, by simp⟩
  | cons v vs ih =>
    obtain ⟨hv, hvs⟩ := List.forall_mem_cons.mp hvs
    obtain ⟨cs, hrun, hmem⟩ := ih hvs
    obtain ⟨c, hc⟩ := hwf.exists_color hv
    refine ⟨c :: cs, ?_, fun d => ?_⟩
    · rw [getVertexColors, call_ok (getVertexColor_ok hv hc)]
      change (getVertexColors h vs >>= fun cs => pure (c :: cs)) = _
      rw [hrun]
      rfl
    · rw [List.mem_cons, hmem, List.exists_mem_cons_iff, hc, Option.some.injEq, eq_comm]

variable (ord colorOrd) in
/-- The solver tries the colours of the neighbours that differ from the vertex's own. -/
theorem possibleColors_spec {h : ColoredGraph V} (hwf : h.WF) {v : V} (hv : v ∈ h) {orgColor : ℤ}
    (horg : h.colorAt v = some orgColor) :
    ∃ s, possibleColors ord h v orgColor = .ok s ∧
      colorsTried ord colorOrd h v = colorOrd.iterate s.elems ∧
      ∀ c, c ∈ s ↔ c ≠ orgColor ∧ ∃ w, h.Adj v w ∧ h.colorAt w = some c := by
  obtain ⟨nbrs, hs, hmem⟩ := exists_neighbors hv
  obtain ⟨cs, hrun, hcs⟩ := getVertexColors_spec hwf (ord.iterate nbrs.elems) fun w hw =>
    hwf.mem_right ((hmem w).mp (ord.mem_iterate.mp hw))
  have hposs : possibleColors ord h v orgColor = .ok ((HashSet.ofList cs).remove orgColor) := by
    rw [possibleColors, hs]
    change (getVertexColors h (ord.iterate nbrs.elems) >>= fun cs =>
      pure ((HashSet.ofList cs).remove orgColor)) = _
    rw [hrun]
    rfl
  refine ⟨_, hposs, ?_, fun c => ?_⟩
  · rw [colorsTried, horg, Option.getD_some, hposs]
  · simp only [HashSet.mem_remove, HashSet.mem_ofList, hcs, ord.mem_iterate, HashSet.mem_elems, hmem]

variable (ord) in
/-- A known colour gives a child. -/
theorem exists_child (hwf : n.graph.WF) (hnn : n.graph.NonNeg) {v : V} (hv : v ∈ n.graph) {c : ℤ}
    (hc : Known repo c) :
    ∃ q color, pruneGraph ord (n.graph.withColor v c) = .ok q ∧ repo.getColor c = .ok color ∧
      childrenAt ord repo n v c = [⟨q, n.path ++ [⟨color, v⟩]⟩] ∧
      Represents (n.graph.withColor v c) (n.graph.withColor v c).colorAt q := by
  obtain ⟨color, hcolor, -⟩ := hc.getColor
  obtain ⟨q, hq, hrep⟩ := pruneGraph_spec ord (hwf.withColor c hv) (hnn.withColor v hc.nonneg)
  exact ⟨q, color, hq, hcolor, by simp only [childrenAt, hq, hcolor], hrep⟩

variable (ord) in
/-- A colour the solver tries gives a child, and the child is what it says. -/
theorem Node.Valid.child (hg : g.WF) (h : n.Valid g repo) {v : V} (hv : v ∈ n.graph) {c : ℤ}
    (hc : ∃ w, n.graph.colorAt w = some c) :
    ∃ q color, pruneGraph ord (n.graph.withColor v c) = .ok q ∧ repo.getColor c = .ok color ∧
      childrenAt ord repo n v c = [⟨q, n.path ++ [⟨color, v⟩]⟩] ∧
      Node.Valid g repo ⟨q, n.path ++ [⟨color, v⟩]⟩ ∧
      Node.coloring g ⟨q, n.path ++ [⟨color, v⟩]⟩ = flood g.Adj (n.coloring g) v (some c) := by
  obtain ⟨w, hw⟩ := hc
  have hknown := h.known_graph hw
  obtain ⟨color, hcolor, hid⟩ := hknown.getColor
  obtain ⟨q, hq, hrep⟩ := h.represents.flood ord hg h.nonNeg hv hknown.nonneg
  have hcol : Node.coloring g ⟨q, n.path ++ [⟨color, v⟩]⟩ =
      flood g.Adj (n.coloring g) v (some c) := by
    simp only [Node.coloring, List.map_append, play_append, List.map_singleton, play, Move.fill, hid]
  refine ⟨q, color, hq, hcolor, by simp only [childrenAt, hq, hcolor],
    ⟨?_, fun u d hu hd => ?_, ?_, ?_⟩, hcol⟩
  · rw [hcol]
    exact hrep
  · rw [hcol] at hd
    by_cases hvu : Mono g.Adj (n.coloring g) v u
    · rw [flood_of_mono hvu, Option.some.injEq] at hd
      exact hd ▸ hknown
    · exact h.known u d hu (flood_of_not_mono hvu ▸ hd)
  · intro m hm
    rcases List.mem_append.mp hm with hm | hm
    · exact h.path_mem m hm
    · rw [List.mem_singleton.mp hm]
      exact h.represents.sub v hv
  · intro m hm
    rcases List.mem_append.mp hm with hm | hm
    · exact h.path_color m hm
    · rw [List.mem_singleton.mp hm, hid]
      exact hcolor

theorem mem_colorsTried {h : ColoredGraph V} (hwf : h.WF) {v : V} (hv : v ∈ h) {c : ℤ} :
    c ∈ colorsTried ord colorOrd h v ↔
      some c ≠ h.colorAt v ∧ ∃ w, h.Adj v w ∧ h.colorAt w = some c := by
  obtain ⟨orgColor, horg⟩ := hwf.exists_color hv
  obtain ⟨s, -, htried, hmem⟩ := possibleColors_spec ord colorOrd hwf hv horg
  rw [htried, colorOrd.mem_iterate, HashSet.mem_elems, hmem, horg, Ne, Ne, Option.some.injEq]

/-! ## Paths in the maps -/

variable {st st' st'' : SolverState V}

/-- Following `prevGraph` from the graph object `id` to the start meets the moves `ms`, last first. -/
inductive Traces (st : SolverState V) : ℕ → List (Move V) → Prop
  | start {id : ℕ} : st.prevGraph.get id = some none → Traces st id []
  | move {src id : ℕ} {ms : List (Move V)} {m : Move V} : Traces st src ms → src < id →
      st.prevGraph.get id = some (some src) → st.moves.get id = some (some m) →
      Traces st id (ms ++ [m])

/-- The maps keep what they hold, and new keys are new. -/
structure Extends (st st' : SolverState V) : Prop where
  next : st.nextUuid ≤ st'.nextUuid
  prevGraph : ∀ k < st.nextUuid, st'.prevGraph.get k = st.prevGraph.get k
  moves : ∀ k < st.nextUuid, st'.moves.get k = st.moves.get k
  distances : ∀ k < st.nextUuid, st'.distances.get k = st.distances.get k

/-- A graph object stands for a node. -/
structure Holds (st : SolverState V) (obj : ℕ × ColoredGraph V) (n : Node V) : Prop where
  graph : obj.2 = n.graph
  traces : Traces st obj.1 n.path
  lt : obj.1 < st.nextUuid
  distance : ∃ d, st.distances.get obj.1 = some d

omit [DecidableEq V] in
theorem Extends.refl (st : SolverState V) : Extends st st :=
  ⟨le_rfl, fun _ _ => rfl, fun _ _ => rfl, fun _ _ => rfl⟩

omit [DecidableEq V] in
theorem Extends.trans (h : Extends st st') (h' : Extends st' st'') : Extends st st'' where
  next := h.next.trans h'.next
  prevGraph k hk := (h'.prevGraph k (hk.trans_le h.next)).trans (h.prevGraph k hk)
  moves k hk := (h'.moves k (hk.trans_le h.next)).trans (h.moves k hk)
  distances k hk := (h'.distances k (hk.trans_le h.next)).trans (h.distances k hk)

omit [DecidableEq V] in
theorem Traces.extend {id : ℕ} {ms : List (Move V)} (h : Traces st id ms) (hext : Extends st st')
    (hlt : id < st.nextUuid) : Traces st' id ms := by
  induction h with
  | start hp => exact .start ((hext.prevGraph _ hlt).trans hp)
  | move _ hsrc hp hm ih =>
    exact .move (ih (hsrc.trans hlt)) hsrc ((hext.prevGraph _ hlt).trans hp)
      ((hext.moves _ hlt).trans hm)

omit [DecidableEq V] in
theorem Traces.length_le {id : ℕ} {ms : List (Move V)} (h : Traces st id ms) : ms.length ≤ id := by
  induction h with
  | start _ => exact Nat.zero_le _
  | move _ hsrc _ _ ih =>
    rw [List.length_append, List.length_singleton]
    omega

omit [DecidableEq V] in
theorem Holds.extend {obj : ℕ × ColoredGraph V} (h : Holds st obj n) (hext : Extends st st') :
    Holds st' obj n where
  graph := h.graph
  traces := h.traces.extend hext h.lt
  lt := h.lt.trans_le hext.next
  distance := by
    obtain ⟨d, hd⟩ := h.distance
    exact ⟨d, (hext.distances _ h.lt).trans hd⟩

/-- The way back gives the moves. -/
theorem traceBack_spec {id : ℕ} {ms : List (Move V)} (h : Traces st id ms) :
    ∀ fuel ≥ ms.length, ∀ solution,
      traceBack st fuel (some id) solution = .ok (ms.map some ++ solution) := by
  induction h with
  | start hp =>
    intro fuel _ solution
    cases fuel <;> simp [traceBack, hp, pure, Except.pure]
  | move _ _ hp hm ih =>
    intro fuel hfuel solution
    rw [List.length_append, List.length_singleton] at hfuel
    cases fuel with
    | zero => omega
    | succ fuel => simp [traceBack, hp, hm, ih fuel (by omega)]

omit [DecidableEq V] in
theorem traceBack_none (fuel : ℕ) : traceBack st fuel none [] = .ok [] := by
  cases fuel <;> rfl

/-! ## The loops -/

/-- From `st` to `st'` the nodes `ns` have joined the queue, and the last goal among them is found. -/
structure Emits (st st' : SolverState V) (ns : List (Node V)) : Prop where
  ext : Extends st st'
  queue : ∃ objs, st'.queue = st.queue ++ objs ∧ List.Forall₂ (Holds st') objs ns
  none_found : (ns.filter Node.isGoal).getLast? = none → st'.foundResult = st.foundResult
  found : ∀ b, (ns.filter Node.isGoal).getLast? = some b →
    ∃ id, st'.foundResult = some id ∧ id < st'.nextUuid ∧ Traces st' id b.path

omit [DecidableEq V] in
theorem Emits.nil (st : SolverState V) : Emits st st [] :=
  ⟨.refl st, ⟨[], by simp, .nil⟩, fun _ => rfl, by simp⟩

omit [DecidableEq V] in
theorem Emits.append {ns ns' : List (Node V)} (h : Emits st st' ns) (h' : Emits st' st'' ns') :
    Emits st st'' (ns ++ ns') := by
  obtain ⟨objs, hq, hobjs⟩ := h.queue
  obtain ⟨objs', hq', hobjs'⟩ := h'.queue
  refine ⟨h.ext.trans h'.ext, ⟨objs ++ objs', by rw [hq', hq, List.append_assoc],
    List.rel_append (hobjs.imp fun _ _ ho => ho.extend h'.ext) hobjs'⟩, fun hnone => ?_,
    fun b hb => ?_⟩
  · rw [List.filter_append, List.getLast?_append, Option.or_eq_none_iff] at hnone
    rw [h'.none_found hnone.1, h.none_found hnone.2]
  · rw [List.filter_append, List.getLast?_append] at hb
    cases hlast : (ns'.filter Node.isGoal).getLast? with
    | some b' =>
      rw [hlast, Option.some_or] at hb
      exact h'.found b (hlast.trans hb)
    | none =>
      rw [hlast, Option.none_or] at hb
      obtain ⟨id, hid, hlt, htr⟩ := h.found b hb
      exact ⟨id, (h'.none_found hlast).trans hid, hlt.trans_le h'.ext.next, htr.extend h'.ext hlt⟩

omit [DecidableEq V] in
/-- A new graph object. -/
theorem SolverState.add_emits {source d : ℕ} {ms : List (Move V)} (hsrc : Traces st source ms)
    (hlt : source < st.nextUuid) (move : Move V) (q : ColoredGraph V) :
    Emits st (st.add source d move q) [⟨q, ms ++ [move]⟩] := by
  have hext : Extends st (st.add source d move q) :=
    ⟨Nat.le_succ _, fun k hk => HashMap.get_put_of_ne _ _ hk.ne,
      fun k hk => HashMap.get_put_of_ne _ _ hk.ne, fun k hk => HashMap.get_put_of_ne _ _ hk.ne⟩
  have htr : Traces (st.add source d move q) st.nextUuid (ms ++ [move]) :=
    .move (hsrc.extend hext hlt) hlt (HashMap.get_put_self ..) (HashMap.get_put_self ..)
  refine ⟨hext, ⟨[(st.nextUuid, q)], rfl, .cons ⟨rfl, htr, Nat.lt_succ_self _, d + 1,
    HashMap.get_put_self ..⟩ .nil⟩, fun hnone => ?_, fun b hb => ?_⟩
  · have hgoal : ¬ q.getNumVertices = 1 := by
      intro hone
      simp [Node.isGoal, hone] at hnone
    exact if_neg hgoal
  · by_cases hone : q.getNumVertices = 1
    · have hb' : b = ⟨q, ms ++ [move]⟩ := by
        simpa [List.filter_cons, Node.isGoal, hone] using hb.symm
      subst hb'
      exact ⟨st.nextUuid, if_pos hone, Nat.lt_succ_self _, htr⟩
    · simp [Node.isGoal, hone] at hb

/-- The source graph while the colours of `v` are tried: only `v` may differ. -/
def Twin (p h : ColoredGraph V) (v : V) : Prop :=
  SameShape p h ∧ ∀ u, u ≠ v → h.colorAt u = p.colorAt u

theorem Twin.withColor_eq {p h : ColoredGraph V} {v : V} (ht : Twin p h v) (c : ℤ) :
    h.withColor v c = p.withColor v c := by
  obtain ⟨hshape, hcol⟩ := ht
  cases p with
  | mk padj pcol =>
    cases h with
    | mk hadj hcolor =>
      obtain rfl : hadj = padj := hshape.adj
      simp only [withColor, ColoredGraph.mk.injEq, true_and]
      refine HashMap.ext ?_ (funext fun u => ?_)
      · exact congrArg (List.insert v) hshape.colorKeys
      · rw [HashMap.get_put, HashMap.get_put]
        split
        · rfl
        · exact hcol u ‹_›

theorem Twin.withColor {p h : ColoredGraph V} {v : V} (ht : Twin p h v) (hp : p.WF) (hv : v ∈ p)
    (c : ℤ) : Twin p (h.withColor v c) v := by
  rw [ht.withColor_eq]
  exact ⟨hp.sameShape_withColor c hv, fun u hu => by rw [colorAt_withColor, if_neg hu]⟩

theorem withColor_self {p : ColoredGraph V} (hp : p.WF) {v : V} {c : ℤ} (hc : p.colorAt v = some c) :
    p.withColor v c = p := by
  have hv : v ∈ p.colorMap := HashMap.mem_of_get hc
  cases p with
  | mk padj pcol =>
    simp only [ColoredGraph.withColor, ColoredGraph.mk.injEq, true_and]
    refine HashMap.ext (HashMap.keySet_put_of_mem hv) (funext fun u => ?_)
    rw [HashMap.get_put]
    split
    · rename_i huv
      rw [huv]
      exact hc.symm
    · rfl

variable (ord) in
theorem tryColors_spec (hwf : n.graph.WF) (hnn : n.graph.NonNeg) {v : V} (hv : v ∈ n.graph)
    (source : ℕ) (cs : List ℤ) : ∀ {h : ColoredGraph V} {st : SolverState V},
      (∀ c ∈ cs, Known repo c) → Twin n.graph h v → Holds st (source, n.graph) n →
      ∃ h' st', tryColors ord repo source v cs h st = .ok (h', st') ∧ Twin n.graph h' v ∧
        Emits st st' (cs.flatMap (childrenAt ord repo n v)) := by
  induction cs with
  | nil => exact fun _ ht _ => ⟨_, _, rfl, ht, .nil _⟩
  | cons c cs ih =>
    intro h st hcs ht hholds
    obtain ⟨hc, hcs⟩ := List.forall_mem_cons.mp hcs
    obtain ⟨q, color, hq, hcolor, hchild, -⟩ := exists_child ord hwf hnn hv hc
    obtain ⟨d, hd⟩ := hholds.distance
    have hemit := SolverState.add_emits (d := d) hholds.traces hholds.lt ⟨color, v⟩ q
    obtain ⟨h', st', hrun, ht', hemit'⟩ := ih hcs (ht.withColor hwf hv c) (hholds.extend hemit.ext)
    refine ⟨h', st', ?_, ht', ?_⟩
    · rw [tryColors, call_ok (setVertexColor_ok (ht.1.mem.mpr hv))]
      simp only [bind, Except.bind, ht.withColor_eq c, hq, hcolor, hd]
      rw [← ht.withColor_eq c]
      exact hrun
    · rw [List.flatMap_cons, hchild]
      exact hemit.append hemit'

variable (colorOrd) in
/-- A vertex whose colours are all tried, and which has its own colour back. -/
theorem tryVertices_cons (hwf : n.graph.WF) (hnn : n.graph.NonNeg) {source : ℕ} {v : V}
    (hv : v ∈ n.graph) (hknown : ∀ c ∈ colorsTried ord colorOrd n.graph v, Known repo c)
    {st : SolverState V} (hholds : Holds st (source, n.graph) n) (vs : List V) :
    ∃ st', tryVertices ord colorOrd repo source (v :: vs) n.graph st =
        tryVertices ord colorOrd repo source vs n.graph st' ∧
      Emits st st' ((colorsTried ord colorOrd n.graph v).flatMap (childrenAt ord repo n v)) := by
  obtain ⟨orgColor, horg⟩ := hwf.exists_color hv
  obtain ⟨s, hposs, htried, -⟩ := possibleColors_spec ord colorOrd hwf hv horg
  rw [htried] at hknown ⊢
  obtain ⟨h', st', hrun, ht, hemit⟩ := tryColors_spec ord hwf hnn hv source
    (colorOrd.iterate s.elems) hknown ⟨.refl _, fun _ _ => rfl⟩ hholds
  refine ⟨st', ?_, hemit⟩
  rw [tryVertices, call_ok (getVertexColor_ok hv horg)]
  simp only [bind, Except.bind, hposs, hrun,
    call_ok (setVertexColor_ok (c := orgColor) (ht.1.mem.mpr hv)), ht.withColor_eq,
    withColor_self hwf horg]

variable (ord colorOrd) in
theorem tryVertices_spec (hn : n.Tryable repo) (source : ℕ) (vs : List V) :
    ∀ {st : SolverState V}, (∀ v ∈ vs, v ∈ n.graph) → Holds st (source, n.graph) n →
      ∃ st', tryVertices ord colorOrd repo source vs n.graph st = .ok st' ∧
        Emits st st' (vs.flatMap fun v =>
          (colorsTried ord colorOrd n.graph v).flatMap (childrenAt ord repo n v)) := by
  induction vs with
  | nil => exact fun _ _ => ⟨_, rfl, .nil _⟩
  | cons v vs ih =>
    intro st hvs hholds
    obtain ⟨hv, hvs⟩ := List.forall_mem_cons.mp hvs
    obtain ⟨st₁, hrun₁, hemit₁⟩ := tryVertices_cons colorOrd hn.wf hn.nonNeg hv (fun c hc => by
      obtain ⟨-, w, hvw, hw⟩ := (mem_colorsTried hn.wf hv).mp hc
      exact hn.known v w c hvw hw) hholds vs
    obtain ⟨st₂, hrun₂, hemit₂⟩ := ih hvs (hholds.extend hemit₁.ext)
    refine ⟨st₂, hrun₁.trans hrun₂, ?_⟩
    rw [List.flatMap_cons]
    exact hemit₁.append hemit₂

variable (ord colorOrd repo) in
theorem searchLoop_cons (fuel : ℕ) {source : ℕ} {h : ColoredGraph V} {queue}
    (hfound : st.foundResult = none) (hq : st.queue = (source, h) :: queue) :
    searchLoop ord colorOrd repo (fuel + 1) st =
      (tryVertices ord colorOrd repo source (ord.iterate h.getVertexSet) h { st with queue } >>=
        searchLoop ord colorOrd repo fuel) := by
  rw [searchLoop, hfound, hq]

variable (ord colorOrd) in
/-- **The `while` loop is the level-order search of the nodes.** -/
theorem searchLoop_spec {Inv : Node V → Prop} (hinv : ∀ n, Inv n → n.Tryable repo)
    (hchildren : ∀ n, Inv n → ∀ n' ∈ children ord colorOrd repo n, Inv n') (fuel : ℕ) :
    ∀ {st : SolverState V} {ns : List (Node V)}, st.foundResult = none →
      List.Forall₂ (Holds st) st.queue ns → (∀ n ∈ ns, Inv n) →
      ∀ r, search (children ord colorOrd repo) Node.isGoal fuel ns = some r →
        ∃ st', searchLoop ord colorOrd repo fuel st = .ok st' ∧
          (r = none → st'.foundResult = none) ∧
          ∀ b, r = some b → ∃ id, st'.foundResult = some id ∧ id < st'.nextUuid ∧
            Traces st' id b.path := by
  -- On the rounds: the queue holds the nodes of the search, in its order.
  induction fuel with
  | zero =>
    intro st ns hfound hqueue _ r hr
    cases hns : ns with
    | nil =>
      rw [hns] at hqueue hr
      have hq := List.forall₂_nil_right_iff.mp hqueue
      rw [search, Option.some.injEq] at hr
      subst hr
      refine ⟨st, ?_, fun _ => hfound, fun b hb => by cases hb⟩
      simp [searchLoop, hfound, hq, pure, Except.pure]
    | cons n ns => simp [hns, search] at hr
  | succ fuel ih =>
    intro st ns hfound hqueue hvalid r hr
    cases hns : ns with
    | nil =>
      rw [hns] at hqueue hr
      have hq := List.forall₂_nil_right_iff.mp hqueue
      rw [search, Option.some.injEq] at hr
      subst hr
      refine ⟨st, ?_, fun _ => hfound, fun b hb => by cases hb⟩
      simp [searchLoop, hfound, hq, pure, Except.pure]
    | cons n ns =>
      rw [hns] at hqueue hr hvalid
      obtain ⟨hn, hvalid⟩ := List.forall_mem_cons.mp hvalid
      obtain ⟨obj, rest, hobj, hrest, hq⟩ := List.forall₂_cons_right_iff.mp hqueue
      obtain ⟨source, h⟩ := obj
      obtain rfl : h = n.graph := hobj.graph
      have hpoll : Extends st { st with queue := rest } :=
        ⟨le_rfl, fun _ _ => rfl, fun _ _ => rfl, fun _ _ => rfl⟩
      obtain ⟨st₁, hrun₁, hemit⟩ := tryVertices_spec ord colorOrd (hinv n hn) source
        (ord.iterate n.graph.getVertexSet) (fun v hv => by simpa using hv) (hobj.extend hpoll)
      change Emits _ st₁ (children ord colorOrd repo n) at hemit
      have hloop : searchLoop ord colorOrd repo (fuel + 1) st =
          searchLoop ord colorOrd repo fuel st₁ := by
        rw [searchLoop_cons repo ord colorOrd fuel hfound hq, hrun₁]
        rfl
      rw [hloop]
      rw [search] at hr
      -- The last goal among the children is the one `foundResult` keeps, and the loop ends there.
      cases hlast : ((children ord colorOrd repo n).filter Node.isGoal).getLast? with
      | some b =>
        rw [hlast] at hr
        obtain ⟨id, hid, hlt, htr⟩ := hemit.found b hlast
        have hstop : searchLoop ord colorOrd repo fuel st₁ = .ok st₁ := by
          cases fuel <;> simp [searchLoop, hid, pure, Except.pure]
        refine ⟨st₁, hstop, fun hnone => by simp [hnone] at hr, fun b' hb' => ?_⟩
        obtain rfl : b = b' := by simpa [hb'] using hr
        exact ⟨id, hid, hlt, htr⟩
      | none =>
        rw [hlast] at hr
        obtain ⟨objs, hqueue₁, hobjs⟩ := hemit.queue
        -- Without a goal among them the children go to the end of the queue.
        refine ih ((hemit.none_found hlast).trans hfound) ?_ ?_ r hr
        · rw [hqueue₁]
          exact List.rel_append (hrest.imp fun _ _ ho => ho.extend (hpoll.trans hemit.ext)) hobjs
        · intro n' hn'
          rcases List.mem_append.mp hn' with hn' | hn'
          · exact hvalid n' hn'
          · exact hchildren n hn n' hn'

end UnionCollegeCode.Kami3
