import UnionCollegeCode.Kami3.SolverOptimal

/-!
# What the solver does with a graph in several pieces

No move joins two connected components, so the search meets no graph of one vertex. It ends all the
same, since every child has a vertex less than its parent, and with no result found the way back is no
way at all: `call()` returns an empty list. Only a colour it cannot use makes it throw, which shows
when it prunes the graph or in the first round (`trial_fails`).
-/

set_option autoImplicit false

namespace UnionCollegeCode.Kami3

open Lib.EState Lib.JavaCollections Lib.Coloring Lib.LevelOrder ColoredGraph

variable {V : Type} {g p q : ColoredGraph V} {repo : ColorRepository}

/-! ## Pieces stay apart -/

namespace ColoredGraph

variable {col : V → Option ℤ}

theorem reach_of_mono {u w : V} (h : Mono g.Adj col u w) : Relation.ReflTransGen g.Adj u w :=
  Relation.ReflTransGen.mono (fun _ _ hstep => hstep.1) u w h

/-- A path between vertices that stand for components is a path between the components. -/
theorem Represents.reach (h : Represents g col q) (hg : g.WF) {a b : V}
    (hab : Relation.ReflTransGen q.Adj a b) : Relation.ReflTransGen g.Adj a b := by
  induction hab with
  | refl => exact .refl
  | @tail x y _ hstep ih =>
    obtain ⟨-, -, -, u, w, hxu, hyw, huw⟩ := (h.adj x y).mp hstep
    exact ih.trans ((reach_of_mono hxu).trans (.head huw (reach_of_mono (hg.mono_symm hyw))))

theorem Represents.connected (h : Represents g col q) (hg : g.WF) (hq : q.Connected) :
    g.Connected := by
  intro u w hu hw
  obtain ⟨a, ha, hau⟩ := h.exists_rep u hu
  obtain ⟨b, hb, hbw⟩ := h.exists_rep w hw
  exact (reach_of_mono (hg.mono_symm hau)).trans
    ((h.reach hg (hq a b ha hb)).trans (reach_of_mono hbw))

theorem connected_of_one (h : q.getNumVertices = 1) : q.Connected := by
  obtain ⟨x, hx⟩ := List.length_eq_one_iff.mp h
  intro u w hu hw
  have hu' : u ∈ q.adjVertices.keySet := hu
  have hw' : w ∈ q.adjVertices.keySet := hw
  rw [hx, List.mem_singleton] at hu' hw'
  rw [hu', hw']

/-- Two vertices of one component leave only one vertex for it. -/
theorem Represents.numVertices_lt [DecidableEq V] (h : Represents g col q) {v w : V}
    (hv : v ∈ g) (hw : w ∈ g) (hne : v ≠ w) (hvw : Mono g.Adj col v w) :
    q.getNumVertices < g.getNumVertices := by
  obtain ⟨x, hx, hout⟩ : ∃ x, x ∈ g ∧ x ∉ q := by
    by_cases hvq : v ∈ q
    · exact ⟨w, hw, fun hwq => hne (h.rep_unique v w hvq hwq hvw)⟩
    · exact ⟨v, hv, hvq⟩
  have hsub : q.adjVertices.keySet ⊆ g.adjVertices.keySet.erase x := by
    intro r hr
    refine (g.adjVertices.nodup.mem_erase_iff).mpr ⟨?_, h.sub r hr⟩
    rintro rfl
    exact hout hr
  have hle := (List.subperm_of_subset q.adjVertices.nodup hsub).length_le
  have hlen := List.length_erase_of_mem (mem_def.mp hx)
  have hpos := List.length_pos_of_mem (mem_def.mp hx)
  unfold getNumVertices HashMap.size
  omega

end ColoredGraph

/-! ## The search -/

variable [DecidableEq V] {ord : HashOrder V} {colorOrd : HashOrder ℤ} {n : Node V}

/-- A node the search gets to: it can be tried, and it is in pieces. -/
def Apart (repo : ColorRepository) (n : Node V) : Prop := n.Tryable repo ∧ ¬ n.graph.Connected

theorem apart_child (h : Apart repo n) {n' : Node V} (hn' : n' ∈ children ord colorOrd repo n) :
    Apart repo n' ∧ n'.graph.getNumVertices < n.graph.getNumVertices ∧ n'.isGoal = false := by
  obtain ⟨htry, hdis⟩ := h
  obtain ⟨v, hv, hn'⟩ := List.mem_flatMap.mp hn'
  obtain ⟨c, hc, hn'⟩ := List.mem_flatMap.mp hn'
  have hvn : v ∈ n.graph := by simpa using hv
  obtain ⟨-, w, hvw, hw⟩ := (mem_colorsTried htry.wf hvn).mp hc
  have hknown := htry.known v w c hvw hw
  obtain ⟨q, color, -, -, hchild, hq⟩ := exists_child ord htry.wf htry.nonNeg hvn hknown
  rw [hchild, List.mem_singleton] at hn'
  subst hn'
  have hwf := htry.wf.withColor c hvn
  have hqdis : ¬ q.Connected := fun hconn => hdis (hq.connected hwf hconn)
  have hwn := htry.wf.mem_right hvw
  have hne : v ≠ w := by
    rintro rfl
    exact htry.wf.irrefl v hvw
  have hcolor : ∀ x y d, n.graph.Adj x y → (n.graph.withColor v c).colorAt y = some d →
      Known repo d := by
    intro x y d hxy hd
    rw [colorAt_withColor] at hd
    split at hd
    · exact Option.some.inj hd ▸ hknown
    · exact htry.known x y d hxy hd
  refine ⟨⟨⟨hq.wf, fun r d hd => ?_, fun a b d hab hd => ?_⟩, hqdis⟩, ?_, ?_⟩
  · rw [hq.color r (hq.wf.mem_of_color hd)] at hd
    exact htry.nonNeg.withColor v hknown.nonneg r d hd
  · obtain ⟨-, -, hb, x, y, -, hby, hxy⟩ := (hq.adj a b).mp hab
    rw [hq.color b hb, hby.color_eq] at hd
    exact hcolor x y d hxy hd
  · refine hq.numVertices_lt hvn hwn hne (.single hvw ?_)
    rw [colorAt_withColor, colorAt_withColor, if_pos rfl, if_neg hne.symm, hw]
  · rw [Node.isGoal, decide_eq_false_iff_not]
    exact fun hone => hqdis (connected_of_one hone)

/-- With every colour it tries known, the search ends and finds nothing. -/
theorem solverCall_empty (hprune : pruneGraph ord g = .ok p) (h : Apart repo ⟨p, []⟩) :
    ∃ N, ∀ fuel ≥ N, solverCall ord colorOrd repo g fuel = .ok [] := by
  have hchild : ∀ n : Node V, Apart repo n → ∀ n' ∈ children ord colorOrd repo n, Apart repo n' ∧
      n'.graph.getNumVertices < n.graph.getNumVertices ∧ n'.isGoal = false :=
    fun n hn n' hn' => apart_child hn hn'
  have hstart : ∀ n ∈ [(⟨p, []⟩ : Node V)], Apart repo n ∧
      n.graph.getNumVertices ≤ p.getNumVertices := by simpa using h
  obtain ⟨N, hsearch⟩ := search_exhausts hchild p.getNumVertices hstart
  refine ⟨N, fun fuel hfuel => ?_⟩
  have htry : ∀ n : Node V, Apart repo n → n.Tryable repo := fun n hn => hn.1
  have hstay : ∀ n : Node V, Apart repo n → ∀ n' ∈ children ord colorOrd repo n, Apart repo n' :=
    fun n hn n' hn' => (hchild n hn n' hn').1
  obtain ⟨st, hrun, hnone, -⟩ := searchLoop_spec ord colorOrd htry hstay fuel rfl
    (start_holds p) (by simpa using h) none (hsearch fuel hfuel)
  rw [solverCall, hprune]
  change (searchLoop ord colorOrd repo fuel (.start p) >>= fun st =>
    traceBack st st.nextUuid st.foundResult []) = _
  rw [hrun]
  change traceBack st st.nextUuid st.foundResult [] = _
  rw [hnone rfl, traceBack_none]

/-! ## Colours the solver cannot use -/

theorem getColor_unknown {c : ℤ} (h : ¬ Known repo c) :
    repo.getColor c = .error (.illegalArgument "unknown color id") := by
  unfold ColorRepository.getColor
  cases hget : repo.colorMap.get c with
  | some color => exact absurd ⟨color, hget⟩ h
  | none => rfl

theorem tryColors_unknown (hwf : n.graph.WF) (hnn : n.graph.NonNeg) {v : V} (hv : v ∈ n.graph)
    (source : ℕ) (cs : List ℤ) : ∀ {h : ColoredGraph V} {st : SolverState V},
      (∀ c ∈ cs, 0 ≤ c) → (∃ c ∈ cs, ¬ Known repo c) → Twin n.graph h v →
      Holds st (source, n.graph) n →
      tryColors ord repo source v cs h st = .error (.illegalArgument "unknown color id") := by
  induction cs with
  | nil => simp
  | cons c cs ih =>
    intro h st hpos hex ht hholds
    obtain ⟨hc, hpos⟩ := List.forall_mem_cons.mp hpos
    rw [tryColors, call_ok (setVertexColor_ok (ht.1.mem.mpr hv))]
    by_cases hknown : Known repo c
    · obtain ⟨q, color, hq, hcolor, -⟩ := exists_child ord hwf hnn hv hknown
      obtain ⟨d, hd⟩ := hholds.distance
      have hemit := SolverState.add_emits (d := d) hholds.traces hholds.lt ⟨color, v⟩ q
      have hrest := ih (h := h.withColor v c) hpos
        ((List.exists_mem_cons_iff ..).mp hex |>.resolve_left (not_not.mpr hknown))
        (ht.withColor hwf hv c) (hholds.extend hemit.ext)
      simp only [bind, Except.bind, ht.withColor_eq c, hq, hcolor, hd]
      rw [← ht.withColor_eq c]
      exact hrest
    · obtain ⟨q, hq, -⟩ := pruneGraph_spec ord (hwf.withColor c hv) (hnn.withColor v hc)
      simp only [bind, Except.bind, ht.withColor_eq c, hq, getColor_unknown hknown]

/-- A vertex with a colour to try that is not known ends the round. -/
theorem tryVertices_unknown (hwf : n.graph.WF) (hnn : n.graph.NonNeg) (source : ℕ) (vs : List V) :
    ∀ {st : SolverState V}, (∀ v ∈ vs, v ∈ n.graph) → Holds st (source, n.graph) n →
      (∃ v ∈ vs, ∃ c ∈ colorsTried ord colorOrd n.graph v, ¬ Known repo c) →
      tryVertices ord colorOrd repo source vs n.graph st =
        .error (.illegalArgument "unknown color id") := by
  induction vs with
  | nil => simp
  | cons v vs ih =>
    intro st hvs hholds hex
    obtain ⟨hv, hvs⟩ := List.forall_mem_cons.mp hvs
    by_cases hknown : ∀ c ∈ colorsTried ord colorOrd n.graph v, Known repo c
    · obtain ⟨st', hrun, hemit⟩ := tryVertices_cons colorOrd hwf hnn hv hknown hholds vs
      rw [hrun]
      refine ih hvs (hholds.extend hemit.ext) ?_
      obtain ⟨u, hu, c, hc, hunknown⟩ := hex
      rcases List.mem_cons.mp hu with rfl | hu
      · exact absurd (hknown c hc) hunknown
      · exact ⟨u, hu, c, hc, hunknown⟩
    · push Not at hknown
      obtain ⟨orgColor, horg⟩ := hwf.exists_color hv
      obtain ⟨s, hposs, htried, hmem⟩ := possibleColors_spec ord colorOrd hwf hv horg
      rw [htried] at hknown
      have hpos : ∀ c ∈ colorOrd.iterate s.elems, 0 ≤ c := by
        intro c hc
        rw [colorOrd.mem_iterate, HashSet.mem_elems, hmem] at hc
        obtain ⟨-, w, -, hw⟩ := hc
        exact hnn w c hw
      rw [tryVertices, call_ok (getVertexColor_ok hv horg)]
      simp only [bind, Except.bind, hposs]
      rw [tryColors_unknown hwf hnn hv source _ hpos hknown ⟨.refl _, fun _ _ => rfl⟩ hholds]

/-- The first round. -/
theorem trial_fails (hprune : pruneGraph ord g = .ok p) (hwf : p.WF) (hnn : p.NonNeg)
    (hex : ∃ v, v ∈ p ∧ ∃ c ∈ colorsTried ord colorOrd p v, ¬ Known repo c) (fuel : ℕ) :
    solverCall ord colorOrd repo g (fuel + 1) = .error (.illegalArgument "unknown color id") := by
  have hholds : Holds { SolverState.start p with queue := [] } (0, p) ⟨p, []⟩ :=
    ⟨rfl, .start (HashMap.get_put_self ..), Nat.one_pos, 0, HashMap.get_put_self ..⟩
  obtain ⟨v, hv, hex⟩ := hex
  have hround := tryVertices_unknown (n := ⟨p, []⟩) hwf hnn 0
    (ord.iterate p.getVertexSet) (fun u hu => by simpa using hu) hholds ⟨v, by simpa using hv, hex⟩
  rw [solverCall, hprune]
  change (searchLoop ord colorOrd repo (fuel + 1) (.start p) >>= fun st =>
    traceBack st st.nextUuid st.foundResult []) = _
  rw [searchLoop_cons repo ord colorOrd fuel rfl rfl, hround]
  rfl

/-- A copy of a vertex with a colour below zero is refused. -/
theorem copyVertices_negative (hg : g.WF) {vs : List V} : ∀ {h : ColoredGraph V},
    (∀ v ∈ vs, v ∈ g) → vs.Nodup → (∀ v ∈ vs, v ∉ h) →
      (∃ v ∈ vs, ∃ c, g.colorAt v = some c ∧ c < 0) →
      ∃ h', copyVertices g vs h = .error (.illegalArgument "invalid color") h' := by
  induction vs with
  | nil => simp
  | cons v vs ih =>
    intro h hvs hnd hnew hex
    obtain ⟨hv, hnd⟩ := List.nodup_cons.mp hnd
    obtain ⟨hvg, hvs⟩ := List.forall_mem_cons.mp hvs
    obtain ⟨hvh, hnew⟩ := List.forall_mem_cons.mp hnew
    obtain ⟨c, hc⟩ := hg.exists_color hvg
    rw [copyVertices, getVertexColor_ok hvg hc]
    by_cases hneg : c < 0
    · refine ⟨h, bind_error ?_⟩
      simp [addVertex, bind, EStateM.bind, get_ok, hvh, hneg, throw_error]
    · obtain ⟨h', hrun⟩ := ih (h := h.withVertex v c) hvs hnd (fun u hu => by
          rw [mem_withVertex, not_or]
          exact ⟨fun he => hv (he ▸ hu), hnew u hu⟩) (by
        obtain ⟨u, hu, d, hd, hneg'⟩ := hex
        rcases List.mem_cons.mp hu with rfl | hu
        · exact absurd (Option.some.inj (hc.symm.trans hd) ▸ hneg') hneg
        · exact ⟨u, hu, d, hd, hneg'⟩)
      exact ⟨h', (bind_ok (addVertex_ok hvh (Int.not_lt.mp hneg))).trans hrun⟩

theorem solverCall_negative (hg : g.WF) (hneg : ¬ g.NonNeg) (fuel : ℕ) :
    solverCall ord colorOrd repo g fuel = .error (.illegalArgument "invalid color") := by
  obtain ⟨v, c, hc, hlt⟩ : ∃ v c, g.colorAt v = some c ∧ c < 0 := by
    simpa [NonNeg] using hneg
  have hvs : ∀ u ∈ ord.iterate g.getVertexSet, u ∈ g := fun u hu => by simpa using hu
  obtain ⟨h', hrun⟩ := copyVertices_negative hg (h := .new V) hvs
    (ord.nodup_iterate g.adjVertices.nodup) (fun u _ => HashMap.not_mem_empty)
    ⟨v, by simpa using hg.mem_of_color hc, c, hc, hlt⟩
  have hcopy : copy ord g = .error (.illegalArgument "invalid color") := by
    unfold copy call
    rw [hrun]
    rfl
  rw [solverCall, pruneGraph, hcopy]
  rfl

/-! ## When failure is signalled -/

/-- An edge leads to another colour that is not in the repository. -/
def LeadsToUnknown (repo : ColorRepository) (g : ColoredGraph V) : Prop :=
  ∃ v w c, g.Adj v w ∧ g.colorAt v ≠ g.colorAt w ∧ g.colorAt w = some c ∧ ¬ Known repo c

theorem exists_unknown_iff (ord : HashOrder V) (colorOrd : HashOrder ℤ) (hg : g.WF) (hp : Represents g g.colorAt p) :
    (∃ v, v ∈ p ∧ ∃ c ∈ colorsTried ord colorOrd p v, ¬ Known repo c) ↔ LeadsToUnknown repo g := by
  constructor
  · rintro ⟨a, ha, c, hc, hunknown⟩
    obtain ⟨hne, b, hab, hb⟩ := (mem_colorsTried hp.wf ha).mp hc
    obtain ⟨-, -, hbp, u, w, hau, hbw, huw⟩ := (hp.adj a b).mp hab
    have hw : g.colorAt w = some c := by rw [← hbw.color_eq, ← hp.color b hbp, hb]
    refine ⟨u, w, c, huw, ?_, hw, hunknown⟩
    rw [← hau.color_eq, ← hp.color a ha, hw]
    exact hne.symm
  · rintro ⟨v, w, c, hvw, hne, hw, hunknown⟩
    obtain ⟨a, ha, hav⟩ := hp.exists_rep v hvw.mem_left
    obtain ⟨b, hb, hbw⟩ := hp.exists_rep w (hg.mem_right hvw)
    have hac : p.colorAt a = g.colorAt v := (hp.color a ha).trans hav.color_eq
    have hbc : p.colorAt b = some c := ((hp.color b hb).trans hbw.color_eq).trans hw
    have hab : p.Adj a b := by
      refine (hp.adj a b).mpr ⟨?_, ha, hb, v, w, hav, hbw, hvw⟩
      rintro rfl
      exact hne (hac.symm.trans (hbc.trans hw.symm))
    refine ⟨a, ha, c, (mem_colorsTried hp.wf ha).mpr ⟨?_, b, hab, hbc⟩, hunknown⟩
    rw [hac, ← hw]
    exact hne.symm

/-- The task ends in an exception, however many rounds it is given from some number on. -/
def SignalsFailure (ord : HashOrder V) (colorOrd : HashOrder ℤ) (repo : ColorRepository)
    (g : ColoredGraph V) : Prop :=
  ∃ e, e ≠ .outOfFuel ∧ ∃ N, ∀ fuel ≥ N, solverCall ord colorOrd repo g fuel = .error e

theorem not_signalsFailure (h : ∃ N, ∀ fuel ≥ N, solverCall ord colorOrd repo g fuel = .ok []) :
    ¬ SignalsFailure ord colorOrd repo g := by
  rintro ⟨e, -, M, hfail⟩
  obtain ⟨N, hok⟩ := h
  have hboth := (hok (N + M) (Nat.le_add_right ..)).symm.trans (hfail (N + M) (Nat.le_add_left ..))
  cases hboth

/-- With colours it can use, the solver returns an empty list for a graph in pieces. -/
theorem returns_empty (hg : g.WF) (hn : g.NonNeg) (hdis : ¬ g.Connected)
    (hcol : ¬ LeadsToUnknown repo g) :
    ∃ N, ∀ fuel ≥ N, solverCall ord colorOrd repo g fuel = .ok [] := by
  obtain ⟨p, hprune, hp⟩ := pruneGraph_spec ord hg hn
  refine solverCall_empty hprune ⟨⟨hp.wf, hp.nonNeg hn, ?_⟩, fun hconn =>
    hdis (hp.connected hg hconn)⟩
  intro v w c hvw hw
  by_contra hc
  have hvp := hvw.mem_left
  refine hcol ((exists_unknown_iff ord colorOrd hg hp).mp
    ⟨v, hvp, c, (mem_colorsTried hp.wf hvp).mpr ⟨?_, w, hvw, hw⟩, hc⟩)
  rw [← hw]
  exact (hp.color_ne hg hvw).symm

/-- **A graph in pieces is reported only for a colour the solver cannot use.** -/
theorem signalsFailure_iff (ord : HashOrder V) (colorOrd : HashOrder ℤ) (repo : ColorRepository)
    (hg : g.WF) (hdis : ¬ g.Connected) :
    SignalsFailure ord colorOrd repo g ↔ ¬ g.NonNeg ∨ LeadsToUnknown repo g := by
  by_cases hn : g.NonNeg
  · by_cases hunknown : LeadsToUnknown repo g
    · obtain ⟨p, hprune, hp⟩ := pruneGraph_spec ord hg hn
      refine iff_of_true ⟨.illegalArgument "unknown color id", by simp, 1, fun fuel hfuel => ?_⟩
        (.inr hunknown)
      obtain ⟨k, rfl⟩ := Nat.exists_eq_add_of_le' hfuel
      have htry := (exists_unknown_iff ord colorOrd hg hp).mpr hunknown
      exact trial_fails hprune hp.wf (hp.nonNeg hn) htry k
    · exact iff_of_false (not_signalsFailure (returns_empty hg hn hdis hunknown))
        (not_or.mpr ⟨not_not.mpr hn, hunknown⟩)
  · exact iff_of_true ⟨.illegalArgument "invalid color", by simp, 0,
      fun fuel _ => solverCall_negative hg hn fuel⟩ (.inl hn)

/-! ## Two vertices without an edge -/

def twoPieces : ColoredGraph Bool := ((new Bool).withVertex false 0).withVertex true 1

theorem twoPieces_wf : twoPieces.WF := ⟨by decide, by decide, by decide⟩

theorem twoPieces_apart : ¬ twoPieces.Connected := by
  intro hconn
  have hpath := hconn false true (by decide) (by decide)
  obtain heq | ⟨w, hw, -⟩ := Relation.ReflTransGen.cases_head hpath
  · cases heq
  · revert w
    decide

theorem twoPieces_reported : SignalsFailure (.insertion _) (.insertion _) .new twoPieces ↔
    ¬ twoPieces.NonNeg ∨ LeadsToUnknown .new twoPieces :=
  signalsFailure_iff (.insertion _) (.insertion _) .new twoPieces_wf twoPieces_apart

/-- An empty list comes back, and leaves two colours. -/
theorem twoPieces_unreported : ¬ SignalsFailure (.insertion _) (.insertion _) twoColors twoPieces ∧
    ¬ twoPieces.Connected ∧ ¬ twoPieces.Monochromatic := by
  have hn : twoPieces.NonNeg := by
    intro v c h
    cases v <;> cases h <;> decide
  have hcol : ¬ LeadsToUnknown twoColors twoPieces := by
    rintro ⟨v, w, c, hvw, -⟩
    revert v w
    decide
  refine ⟨not_signalsFailure (returns_empty twoPieces_wf hn twoPieces_apart hcol), twoPieces_apart, ?_⟩
  intro hmono
  exact absurd (hmono false true (by decide) (by decide)) (by decide)

end UnionCollegeCode.Kami3
