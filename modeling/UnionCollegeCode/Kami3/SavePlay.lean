import UnionCollegeCode.Kami3.LevelRun

/-!
# Saved with its solution, loaded and played

`LevelRepository.saveLevel` solves the level it saves. What it writes is a file of the codec, so the
loaded level has the solver's moves as its hints, on a grid that tells the same as the one that was
solved. Playing them fills that grid as the solver's replay does; the level is not won before the
last of them since no shorter play solves it.

The solver runs in a thread of its own and is given up after some seconds; `fuel` is how many rounds
of its search fit into them.
-/

set_option autoImplicit false

namespace UnionCollegeCode.Kami3

open Lib.EState Lib.JavaCollections Lib.Scanner Lib.Coloring ColoredGraph

/-- `saveLevel(LevelBuilder, …)` of a repository whose `_saveLevel` is `save`. A `null` among the
moves would end the writing with a `NullPointerException`, wrapped once there. -/
def LevelRepository.saveLevel (ord : HashOrder RectangleGridCell) (colorOrd : HashOrder ℤ)
    (repo : ColorRepository)
    (save : RectangleGridLevelBuilder → List (Move RectangleGridCell) → Except JavaException (List Char))
    (fuel : ℕ) (levelBuilder : RectangleGridLevelBuilder) : Except JavaException (List Char) :=
  match solverCall ord colorOrd repo levelBuilder.graph fuel with
  | .error e => .error (.runtime e)
  | .ok solution =>
    match solution.mapM id with
    | none => .error (.runtime (.runtime .nullPointer))
    | some hints => (save levelBuilder hints).mapError .runtime

/-- Moves played one after the other, on a level no view is attached to. -/
def playHints (ord : HashOrder RectangleGridCell) : List (Move RectangleGridCell) →
    LevelM RectangleGridCell Unit
  | [] => pure ()
  | move :: moves => do
    Level.play ord (fun _ => .ok ()) move
    playHints ord moves

/-! ## Playing -/

section Playing

variable (ord : HashOrder RectangleGridCell) {l : Level RectangleGridCell}

theorem play_ok {move : Move RectangleGridCell} (hmoves : l.numMoveRemaining ≠ 0)
    {g : ColoredGraph RectangleGridCell}
    (hrun : colorFloodFill ord move.vertex move.color.colorId l.graph = .ok () g) :
    Level.play ord (fun _ => .ok ()) move l =
      .ok () { l with graph := g, curNumTurn := l.curNumTurn + 1 } := by
  have hon : Level.onGraph (colorFloodFill ord move.vertex move.color.colorId) l =
      .ok () { l with graph := g } := by simp only [Level.onGraph, hrun]
  refine (bind_ok (m := get) rfl).trans ?_
  rw [if_neg hmoves]
  exact (bind_ok hon).trans ((bind_ok (m := modify _) rfl).trans (notifyObservers_ok rfl))

/-- Playing fills the level's graph as the replay of the moves does. -/
theorem playHints_ok {rows cols : ℤ} {hints : List (Move RectangleGridCell)}
    (ms : List (Move RectangleGridCell)) : ∀ {l : Level RectangleGridCell},
    InPlay rows cols hints l → (∀ m ∈ ms, m.vertex ∈ l.graph) →
    (ms.length : ℤ) ≤ l.numMoveRemaining →
    ∃ l', playHints ord ms l = .ok () l' ∧ InPlay rows cols hints l' ∧
      replay ord (ms.map Move.step) l.graph = .ok () l'.graph ∧
      l'.curNumTurn = l.curNumTurn + ms.length := by
  induction ms with
  | nil => exact fun h _ _ => ⟨_, rfl, h, rfl, rfl⟩
  | cons m ms ih =>
    intro l h hvs hlen
    obtain ⟨hv, hvs⟩ := List.forall_mem_cons.mp hvs
    rw [List.length_cons, Nat.cast_add, Nat.cast_one] at hlen
    obtain ⟨g₁, hrun₁, hshape, -⟩ := colorFloodFill_spec ord h.grid.wf hv m.color.colorId
    have hplay := play_ok ord (by omega) hrun₁
    have h₁ : InPlay rows cols hints { l with graph := g₁, curNumTurn := l.curNumTurn + 1 } := by
      apply h.step (c := .play m)
      rw [Level.step, LevelCall.run, levelAfter, hplay]
    obtain ⟨l', hrun, h', hreplay, hturn⟩ := ih h₁ (fun m hm => hshape.mem.mpr (hvs m hm)) (by
      simp only [Level.numMoveRemaining, Nat.cast_add, Nat.cast_one] at hlen ⊢
      omega)
    refine ⟨l', (bind_ok hplay).trans hrun, h', (bind_ok hrun₁).trans hreplay, ?_⟩
    rw [hturn, List.length_cons, Nat.add_assoc, Nat.add_comm 1]

end Playing

/-! ## The solver's time -/

section Solver

variable {V : Type} [DecidableEq V] (ord : HashOrder V) (colorOrd : HashOrder ℤ)
  (repo : ColorRepository)

theorem searchLoop_succ (fuel : ℕ) : ∀ {st st' : SolverState V},
    searchLoop ord colorOrd repo fuel st = .ok st' →
    searchLoop ord colorOrd repo (fuel + 1) st = .ok st' := by
  induction fuel with
  | zero =>
    intro st st' h
    unfold searchLoop at h ⊢
    cases hfound : st.foundResult with
    | some id =>
      rw [hfound] at h
      exact h
    | none =>
      cases hqueue : st.queue with
      | nil =>
        rw [hfound, hqueue] at h
        exact h
      | cons obj queue =>
        rw [hfound, hqueue] at h
        cases h
  | succ fuel ih =>
    intro st st' h
    rw [searchLoop] at h ⊢
    cases hfound : st.foundResult with
    | some id =>
      rw [hfound] at h
      exact h
    | none =>
      cases hqueue : st.queue with
      | nil =>
        rw [hfound, hqueue] at h
        exact h
      | cons obj queue =>
        rw [hfound, hqueue] at h
        dsimp only [bind, Except.bind] at h ⊢
        split at h
        · cases h
        · exact ih h

/-- More time does not change the solution. -/
theorem solverCall_mono {g : ColoredGraph V} {fuel fuel' : ℕ} (hle : fuel ≤ fuel')
    {solution : List (Option (Move V))} (h : solverCall ord colorOrd repo g fuel = .ok solution) :
    solverCall ord colorOrd repo g fuel' = .ok solution := by
  induction hle with
  | refl => exact h
  | @step m _ ih =>
    unfold solverCall at ih ⊢
    cases hprune : pruneGraph ord g with
    | error e => simp [hprune, bind, Except.bind] at ih
    | ok p =>
      simp only [hprune, bind, Except.bind] at ih ⊢
      cases hloop : searchLoop ord colorOrd repo m (.start p) with
      | error e => simp [hloop] at ih
      | ok st =>
        rw [hloop] at ih
        rw [searchLoop_succ ord colorOrd repo m hloop]
        exact ih

end Solver

/-! ## As long as a walk over the cells -/

/-- Filling vertices with a colour one by one gives all of them the colour. -/
theorem play_fill {V : Type} {adj : V → V → Prop} (c : Option ℤ) (vs : List V) :
    ∀ {col : V → Option ℤ} {u : V}, col u = c ∨ u ∈ vs →
      play adj col (vs.map fun v => (v, c)) u = c := by
  induction vs with
  | nil => exact fun h => h.resolve_right List.not_mem_nil
  | cons v vs ih =>
    intro col u h
    refine ih ?_
    by_cases hmono : Mono adj col v u
    · exact .inl (flood_of_mono hmono)
    · rcases h with h | h
      · exact .inl ((flood_of_not_mono hmono).trans h)
      · rcases List.mem_cons.mp h with rfl | h
        · exact .inl flood_self
        · exact .inr h

theorem length_cells {rows cols : ℤ} (hrows : 0 ≤ rows) (hcols : 0 ≤ cols) :
    ((cells rows cols).length : ℤ) = rows * cols := by
  simp only [cells, List.length_flatMap, List.length_map, List.length_range, List.map_const',
    List.sum_replicate, smul_eq_mul]
  rw [Nat.cast_mul, Int.toNat_of_nonneg hrows, Int.toNat_of_nonneg hcols]

/-! ## The chain -/

section Chain

variable (loc : ScanLocale) (ord : HashOrder RectangleGridCell) (colorOrd : HashOrder ℤ)
  {repo : ColorRepository} {b : RectangleGridLevelBuilder} {hints : List (Move RectangleGridCell)}

/-- A saved level is loaded at its start. -/
theorem savable_loads (h : Savable repo b.numRows b.numCols b.graph hints) :
    ∀ save ∈ [TextRectangleGridLevelRepository.saveLevelBuilder repo,
      Text2RectangleGridLevelRepository.saveLevelBuilder repo],
    ∃ text l, save b hints = .ok text ∧
      LevelRepository.loadLevel (TextRectangleGridLevelRepository.loadLevel loc ord repo)
        [Text2RectangleGridLevelRepository.loadLevel loc ord repo] text = .ok l ∧
      Restores b.numRows b.numCols b.graph hints l ∧ l.level.curNumTurn = 0 ∧
      InPlay b.numRows b.numCols hints l.level := by
  have hplay : ∀ {d : Delimiter} {text : List Char} {l : RectangleGridLevel},
      loadFile loc d ord repo text = .ok l → Restores b.numRows b.numCols b.graph hints l →
      InPlay b.numRows b.numCols hints l.level := by
    intro d text l hload hl
    obtain ⟨-, -, hinv⟩ := loadFile_inPlay ord hload
    rw [hl.numRows, hl.numCols, hl.hints] at hinv
    exact hinv
  simp only [List.forall_mem_cons]
  refine ⟨?_, ?_, by simp⟩
  · obtain ⟨text, l, hsave, -, hload, hl, hturn⟩ := text_saves loc ord h
    refine ⟨text, l, ?_, ?_, hl, hturn, hplay hload hl⟩
    · rw [TextRectangleGridLevelRepository.saveLevelBuilder, saveBuilder, hsave]
      rfl
    · rw [LevelRepository.loadLevel, hload]
  · obtain ⟨rest, l, hsave, hload, hl, hturn⟩ := text2_saves loc ord h
    refine ⟨intToString b.numRows ++ [','] ++ (intToString b.numCols ++ [',', '\n'] ++ rest), l, ?_,
      ?_, hl, hturn, hplay hload hl⟩
    · rw [Text2RectangleGridLevelRepository.saveLevelBuilder, saveBuilder, hsave]
      rfl
    · rw [LevelRepository.loadLevel, text_rejects]
      simp only [LevelRepository.loadLevel, hload]

/-- Played in their order, the hints never throw. The level is won after the last of them, when no
move remains, and goes on before. -/
def PlaysOut (l : Level RectangleGridCell) : Prop :=
  ∀ k ≤ l.hints.length, ∃ l', playHints ord (l.hints.take k) l = .ok () l' ∧
    l'.numMoveRemaining = l.hints.length - k ∧
    l'.getLevelState ord = .ok (if k = l.hints.length then .win else .ongoing)

/-- A shortest solution of the grid plays out. -/
theorem playsOut_of_shortest (h : Savable repo b.numRows b.numCols b.graph hints)
    (hsolved : ∃ g, replay ord (hints.map Move.step) b.graph = .ok () g ∧ g.Monochromatic)
    (hmin : ∀ ms : List (RectangleGridCell × ℤ), (∀ m ∈ ms, m.1 ∈ b.graph) → ∀ g,
      replay ord ms b.graph = .ok () g → g.Monochromatic → hints.length ≤ ms.length)
    {l : RectangleGridLevel} (hl : Restores b.numRows b.numCols b.graph hints l)
    (hturn : l.level.curNumTurn = 0) (hinv : InPlay b.numRows b.numCols hints l.level) :
    PlaysOut ord l.level := by
  have hsame : Same b.graph l.level.graph := by
    refine ⟨fun c => ?_, fun c c' => ?_, hl.color⟩
    · rw [hinv.grid.mem, h.grid.mem]
    · rw [hinv.grid.adj, h.grid.adj, hinv.grid.mem, hinv.grid.mem, h.grid.mem, h.grid.mem]
  rw [PlaysOut, hinv.hints_eq]
  intro k hk
  have htake : (hints.take k).length = k := by rw [List.length_take, Nat.min_eq_left hk]
  have hvertex : ∀ m ∈ hints.take k, m.vertex ∈ b.graph := fun m hm =>
    h.hint_vertex m (List.mem_of_mem_take hm)
  have hremaining : ((hints.take k).length : ℤ) ≤ l.level.numMoveRemaining := by
    rw [htake, Level.numMoveRemaining, hinv.hints_eq, hturn]
    omega
  obtain ⟨l', hrun, hinv', hreplay, hturn'⟩ := playHints_ok ord (hints.take k) hinv
    (fun m hm => (hsame.mem _).mpr (hvertex m hm)) hremaining
  have hsteps : ∀ m ∈ (hints.take k).map Move.step, m.1 ∈ b.graph := by
    intro m hm
    obtain ⟨m', hm', rfl⟩ := List.mem_map.mp hm
    exact hvertex m' hm'
  obtain ⟨g, g', hreplay₁, hreplay₂, hsame'⟩ := replay_same ord _ hsame h.grid.wf hsteps
  obtain ⟨-, rfl⟩ := EStateM.Result.ok.inj (hreplay.symm.trans hreplay₂)
  have hremaining' : l'.numMoveRemaining = hints.length - k := by
    rw [Level.numMoveRemaining, hinv'.hints_eq, hturn', hturn, htake, Nat.zero_add]
  -- One colour after `k` moves would be a solution of `k` moves, and none is shorter than the hints.
  have hone : OneColor b.numRows b.numCols l' ↔ k = hints.length := by
    have hmono : OneColor b.numRows b.numCols l' ↔ g.Monochromatic := by
      rw [← hsame'.monochromatic_iff]
      simp only [OneColor, Monochromatic, ← hinv'.grid.mem]
      exact ⟨fun hm c c' hc hc' => hm c hc c' hc', fun hm c hc c' hc' => hm c c' hc hc'⟩
    rw [hmono]
    constructor
    · intro hg
      have := hmin _ hsteps g hreplay₁ hg
      rw [List.length_map, htake] at this
      omega
    · intro hlast
      obtain ⟨g₀, hreplay₀, hg₀⟩ := hsolved
      rw [hlast, List.take_length, hreplay₀] at hreplay₁
      exact (EStateM.Result.ok.inj hreplay₁).2 ▸ hg₀
  refine ⟨l', hrun, hremaining', ?_⟩
  rw [hinv'.getLevelState_eq ord h.rows_pos h.cols_pos]
  by_cases hlast : k = hints.length
  · rw [if_pos (hone.mpr hlast), if_pos hlast]
  · rw [if_neg fun hc => hlast (hone.mp hc), if_neg (by omega), if_neg hlast]

/-- No solution need be longer than the grid has cells. -/
theorem length_le_cells (h : Savable repo b.numRows b.numCols b.graph [])
    {ms : List (Move RectangleGridCell)}
    (hmin : ∀ ms' : List (RectangleGridCell × ℤ), (∀ m ∈ ms', m.1 ∈ b.graph) → ∀ g,
      replay ord ms' b.graph = .ok () g → g.Monochromatic → ms.length ≤ ms'.length) :
    (ms.length : ℤ) ≤ b.numRows * b.numCols := by
  have hvs : ∀ m ∈ (cells b.numRows b.numCols).map fun c => (c, (0 : ℤ)), m.1 ∈ b.graph := by
    intro m hm
    obtain ⟨c, hc, rfl⟩ := List.mem_map.mp hm
    exact (h.grid.mem c).mpr hc
  obtain ⟨g, hrun, hshape, hcol⟩ := replay_spec ord _ h.grid.wf hvs
  have hall : ∀ c, c ∈ g → g.colorAt c = some 0 := by
    intro c hc
    rw [hcol, List.map_map]
    exact play_fill (some 0) _ (.inr ((h.grid.mem c).mp (hshape.mem.mp hc)))
  have hlen := hmin _ hvs g hrun fun c c' hc hc' => by rw [hall c hc, hall c' hc']
  rw [List.length_map] at hlen
  have hrows := h.rows_pos
  have hcols := h.cols_pos
  rw [← length_cells (by omega) (by omega)]
  exact Int.ofNat_le.mpr hlen

theorem mapM_map_some {α : Type} (l : List α) : (l.map some).mapM id = some l := by
  induction l with
  | nil => rfl
  | cons a l ih =>
    rw [List.map_cons, List.mapM_cons, ih]
    rfl

/-- **Saved, loaded and played.** Given time, every grid is saved. Whatever was saved is loaded to a
level whose hints play out; on a grid of one colour there are none, and the level is won at once. -/
theorem saveLevel_plays (h : Savable repo b.numRows b.numCols b.graph []) :
    ∀ save ∈ [TextRectangleGridLevelRepository.saveLevelBuilder repo,
      Text2RectangleGridLevelRepository.saveLevelBuilder repo],
    (∃ N, ∀ fuel ≥ N, ∃ text,
      LevelRepository.saveLevel ord colorOrd repo save fuel b = .ok text) ∧
    ∀ fuel text, LevelRepository.saveLevel ord colorOrd repo save fuel b = .ok text →
      ∃ l, LevelRepository.loadLevel (TextRectangleGridLevelRepository.loadLevel loc ord repo)
          [Text2RectangleGridLevelRepository.loadLevel loc ord repo] text = .ok l ∧
        (∀ c, l.level.graph.colorAt c = b.graph.colorAt c) ∧ PlaysOut ord l.level ∧
        (b.graph.Monochromatic → l.level.hints = [] ∧ l.level.getLevelState ord = .ok .win) := by
  intro save hsave
  obtain ⟨N, ms, hsolve, hvertex, hcolor, hsolved, hmin⟩ :=
    solverCall_spec ord colorOrd repo h.grid.wf h.grid.connected h.known
  have hlen := length_le_cells ord h hmin
  have hms : Savable repo b.numRows b.numCols b.graph ms :=
    ⟨h.rows_pos, h.cols_pos, h.grid, h.known, hvertex, hcolor, h.cells_int,
      lt_of_le_of_lt hlen h.cells_int, h.colors_int⟩
  obtain ⟨text, l, htext, hload, hl, hturn, hinv⟩ := savable_loads loc ord hms save hsave
  have hsaved : ∀ fuel ≥ N, LevelRepository.saveLevel ord colorOrd repo save fuel b = .ok text := by
    intro fuel hfuel
    rw [LevelRepository.saveLevel, hsolve fuel hfuel]
    simp only [mapM_map_some, htext]
    rfl
  have hplays := playsOut_of_shortest ord hms hsolved hmin hl hturn hinv
  refine ⟨⟨N, fun fuel hfuel => ⟨text, hsaved fuel hfuel⟩⟩, fun fuel text' htext' => ?_⟩
  -- With the time the solver needs the same file is written.
  have hmore : LevelRepository.saveLevel ord colorOrd repo save (max fuel N) b = .ok text' := by
    rw [LevelRepository.saveLevel] at htext' ⊢
    cases hrun : solverCall ord colorOrd repo b.graph fuel with
    | error e => simp [hrun] at htext'
    | ok solution =>
      rw [hrun] at htext'
      rw [solverCall_mono ord colorOrd repo (le_max_left fuel N) hrun]
      exact htext'
  obtain rfl := Except.ok.inj (hmore.symm.trans (hsaved _ (le_max_right fuel N)))
  refine ⟨l, hload, hl.color, hplays, fun hmono => ?_⟩
  have hnil : ms = [] := by
    have := hmin [] (by simp) b.graph rfl hmono
    exact List.eq_nil_of_length_eq_zero (Nat.le_zero.mp this)
  obtain ⟨l', hrun, -, hstate⟩ := hplays 0 (Nat.zero_le _)
  obtain ⟨-, rfl⟩ := EStateM.Result.ok.inj hrun
  rw [hl.hints, hnil, List.length_nil, if_pos rfl] at hstate
  exact ⟨hl.hints.trans hnil, hstate⟩

end Chain

/-- A red and a blue cell are saved, loaded and played. -/
theorem saveLevel_plays_pair : ∃ b : RectangleGridLevelBuilder, ∃ fuel text l,
    b.numRows = 1 ∧ b.numCols = 2 ∧
    LevelRepository.saveLevel (.insertion _) (.insertion _) twoColors
      (Text2RectangleGridLevelRepository.saveLevelBuilder twoColors) fuel b = .ok text ∧
    LevelRepository.loadLevel (TextRectangleGridLevelRepository.loadLevel .ascii (.insertion _) twoColors)
      [Text2RectangleGridLevelRepository.loadLevel .ascii (.insertion _) twoColors] text = .ok l ∧
    PlaysOut (.insertion _) l.level := by
  obtain ⟨b, hrows, hcols, hsavable⟩ := exists_pair
  obtain ⟨⟨N, hsave⟩, hload⟩ := saveLevel_plays .ascii (.insertion _) (.insertion _)
    (hsavable [] (by decide) (by simp))
    (Text2RectangleGridLevelRepository.saveLevelBuilder twoColors) (by simp)
  obtain ⟨text, htext⟩ := hsave N le_rfl
  obtain ⟨l, hl, -, hplays, -⟩ := hload N text htext
  exact ⟨b, N, text, l, hrows, hcols, htext, hl, hplays⟩

end UnionCollegeCode.Kami3
