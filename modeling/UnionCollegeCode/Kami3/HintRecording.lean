import UnionCollegeCode.Kami3.HintInput

/-!
# When the queue is in step with the level

Every handler leaves the level a grid of known colours; that is `HintBound`. On such a level the
view's update throws exactly when there are more rows than columns, and each handler comes down to
one equation for the state it leaves. From these `consistent_step_iff`: a step keeps the queue in
step with the level exactly when it meets `KeepsStep`.
-/

set_option autoImplicit false

namespace UnionCollegeCode.Kami3

open Lib.EState Lib.JavaCollections Lib.Run Lib.Scanner Lib.Coloring ColoredGraph

/-! ## The invariant -/

structure HintLevelOk (repo : ColorRepository) (l : RectangleHintInputLevel) : Prop where
  rows_pos : 1 ≤ l.numRows
  cols_pos : 1 ≤ l.numCols
  start : IsGrid l.numRows l.numCols l.startGraph
  startKnown : ∀ c id, l.startGraph.colorAt c = some id → Known repo id
  grid : IsGrid l.numRows l.numCols l.graph
  known : ∀ c id, l.graph.colorAt c = some id → Known repo id
  curColor : repo.colorMap.get l.curColor.colorId = some l.curColor

structure HintBound (repo : ColorRepository) (s : HintInput) : Prop where
  level : HintLevelOk repo s.level
  queue : ∀ m ∈ s.commandQueue, m.vertex ∈ s.level.startGraph

variable {ord : HashOrder RectangleGridCell} {repo : ColorRepository}
  {l : RectangleHintInputLevel} {s : HintInput}

/-- The level with another graph of the same shape and known colours. -/
theorem HintLevelOk.withGraph (h : HintLevelOk repo l) {g : ColoredGraph RectangleGridCell}
    (hg : IsGrid l.numRows l.numCols g) (hknown : ∀ c id, g.colorAt c = some id → Known repo id) :
    HintLevelOk repo { l with graph := g } :=
  ⟨h.rows_pos, h.cols_pos, h.start, h.startKnown, hg, hknown, h.curColor⟩

theorem HintLevelOk.curKnown (h : HintLevelOk repo l) : Known repo l.curColor.colorId :=
  ⟨_, h.curColor⟩

/-! ## The view -/

theorem getColorAt_error {g : ColoredGraph RectangleGridCell} {c : RectangleGridCell} (hc : c ∉ g) :
    getColorAt repo g c = .error (.illegalArgument "the vertex is not in the graph") := by
  rw [getColorAt, call, getVertexColor_of_not_mem hc]
  rfl

theorem HintLevelOk.getColorAt_mem (h : HintLevelOk repo l) {c : RectangleGridCell}
    (hc : c ∈ l.graph) : ∃ color, getColorAt repo l.graph c = .ok color := by
  obtain ⟨id, hid⟩ := h.grid.wf.exists_color hc
  obtain ⟨color, hcolor, -⟩ := getColorAt_ok h.grid.wf hid (h.known c id hid)
  exact ⟨color, hcolor⟩

theorem HintLevelOk.redraw_ok (h : HintLevelOk repo l) (cs : List RectangleGridCell)
    (hcs : ∀ c ∈ cs, c ∈ l.graph) : redraw repo l cs = .ok () := by
  induction cs with
  | nil => rfl
  | cons c cs ih =>
    obtain ⟨hc, hcs⟩ := List.forall_mem_cons.mp hcs
    obtain ⟨color, hcolor⟩ := h.getColorAt_mem hc
    have hcol : c.col < l.numCols := (mem_cells.mp ((h.grid.mem c).mp hc)).2.2
    rw [redraw, hcolor]
    simp only [bind, Except.bind, not_true_eq_false, if_false, hcol]
    exact ih hcs

theorem HintLevelOk.redraw_error (h : HintLevelOk repo l) (cs : List RectangleGridCell)
    (hcs : ∃ c ∈ cs, c ∉ l.graph) : ∃ e, redraw repo l cs = .error e := by
  induction cs with
  | nil =>
    obtain ⟨c, hc, -⟩ := hcs
    exact absurd hc List.not_mem_nil
  | cons c cs ih =>
    by_cases hc : c ∈ l.graph
    · have hrest : ∃ c ∈ cs, c ∉ l.graph := by
        obtain ⟨c', hc', hno⟩ := hcs
        rcases List.mem_cons.mp hc' with rfl | hc'
        · exact absurd hc hno
        · exact ⟨c', hc', hno⟩
      obtain ⟨color, hcolor⟩ := h.getColorAt_mem hc
      have hcol : c.col < l.numCols := (mem_cells.mp ((h.grid.mem c).mp hc)).2.2
      obtain ⟨e, he⟩ := ih hrest
      refine ⟨e, ?_⟩
      rw [redraw, hcolor]
      simp only [bind, Except.bind, not_true_eq_false, if_false, hcol]
      exact he
    · refine ⟨.illegalArgument "the vertex is not in the graph", ?_⟩
      rw [redraw, getColorAt_error hc]
      rfl

/-- With no more rows than columns the view can be redrawn. -/
theorem HintLevelOk.updateView_ok (h : HintLevelOk repo l) (hle : l.numRows ≤ l.numCols) :
    updateView ord repo l = .ok () := by
  have hcells : ∀ c ∈ cells l.numRows l.numRows, c ∈ l.graph := by
    intro c hc
    rw [h.grid.mem]
    rw [mem_cells] at hc ⊢
    omega
  have hbutton : (repo.colorMap.values.any fun c => c.rValue = l.curColor.rValue ∧
      c.gValue = l.curColor.gValue ∧ c.bValue = l.curColor.bValue) = true := by
    rw [List.any_eq_true]
    refine ⟨l.curColor, ?_, by simp⟩
    rw [HashMap.values, List.mem_filterMap]
    exact ⟨_, HashMap.mem_def.mp (HashMap.mem_of_get h.curColor), h.curColor⟩
  have hn : l.graph.NonNeg := fun c id hid => (h.known c id hid).nonneg
  obtain ⟨p, hprune, -⟩ := pruneGraph_spec ord h.grid.wf hn
  have hstate : ∃ st, l.getLevelState ord = .ok st := by
    by_cases hone : p.getNumVertices = 1
    · refine ⟨.win, ?_⟩
      simp [RectangleHintInputLevel.getLevelState, hprune, hone, bind, Except.bind, pure, Except.pure]
    · refine ⟨.ongoing, ?_⟩
      simp [RectangleHintInputLevel.getLevelState, hprune, hone, bind, Except.bind, pure, Except.pure]
  obtain ⟨st, hst⟩ := hstate
  rw [updateView, h.redraw_ok _ hcells]
  simp only [bind, Except.bind, hbutton, hst, not_true_eq_false, if_false]
  rfl

variable (ord) in
/-- With more rows than columns the redraw of the first row leaves the grid. -/
theorem HintLevelOk.updateView_error (h : HintLevelOk repo l) (hlt : ¬ l.numRows ≤ l.numCols) :
    ∃ e, updateView ord repo l = .error e := by
  have hcols := h.cols_pos
  have hout : ∃ c ∈ cells l.numRows l.numRows, c ∉ l.graph := by
    refine ⟨⟨0, l.numCols⟩, ?_, ?_⟩
    · rw [mem_cells]
      dsimp only
      omega
    · rw [h.grid.mem, mem_cells]
      dsimp only
      omega
  obtain ⟨e, he⟩ := h.redraw_error _ hout
  refine ⟨e, ?_⟩
  rw [updateView, he]
  rfl

/-! ## The level's methods -/

variable {update : RectangleHintInputLevel → Except JavaException Unit}

theorem hintNotify_ok (h : update l = .ok ()) :
    RectangleHintInputLevel.notifyObservers update l = .ok () l :=
  (bind_ok (m := get) rfl).trans (by rw [h]; rfl)

theorem hintNotify_error {e : JavaException} (h : update l = .error e) :
    RectangleHintInputLevel.notifyObservers update l = .error e l :=
  (bind_ok (m := get) rfl).trans (by rw [h]; rfl)

/-- A play up to its observers. -/
theorem HintLevelOk.play_eq (h : HintLevelOk repo l) (ord : HashOrder RectangleGridCell)
    (update : RectangleHintInputLevel → Except JavaException Unit) {c : RectangleGridCell}
    (hc : c ∈ l.graph) :
    ∃ g, colorFloodFill ord c l.curColor.colorId l.graph = .ok () g ∧ SameShape l.graph g ∧
      g.colorAt = flood l.graph.Adj l.graph.colorAt c (some (l.curColor.colorId : ℤ)) ∧
      HintLevelOk repo { l with graph := g } ∧
      RectangleHintInputLevel.play update ord ⟨l.curColor, c⟩ l =
        RectangleHintInputLevel.notifyObservers update { l with graph := g } := by
  obtain ⟨g, hrun, hshape, hcol⟩ := colorFloodFill_spec ord h.grid.wf hc l.curColor.colorId
  have hon : RectangleHintInputLevel.onGraph (colorFloodFill ord c l.curColor.colorId) l =
      .ok () { l with graph := g } := by simp only [RectangleHintInputLevel.onGraph, hrun]
  refine ⟨g, hrun, hshape, hcol, h.withGraph (h.grid.of_sameShape hshape) fun v id hid => ?_,
    bind_ok hon⟩
  rw [hcol] at hid
  unfold flood at hid
  split at hid
  · exact Option.some.inj hid ▸ h.curKnown
  · exact h.known v id hid

theorem HintLevelOk.nonNegStart (h : HintLevelOk repo l) : l.startGraph.NonNeg :=
  fun c id hid => (h.startKnown c id hid).nonneg

/-- The graph goes back to a copy of the start graph. -/
theorem HintLevelOk.resetGraph_eq (h : HintLevelOk repo l) (ord : HashOrder RectangleGridCell) :
    ∃ g, Same l.startGraph g ∧ HintLevelOk repo { l with graph := g } ∧
      RectangleHintInputLevel.resetGraph ord l = .ok () { l with graph := g } := by
  obtain ⟨g, hcopy, hsame⟩ := copy_spec ord h.start.wf h.nonNegStart
  refine ⟨g, hsame, h.withGraph (h.start.of_same hsame) fun c id hid => ?_, ?_⟩
  · exact h.startKnown c id (hsame.color c ▸ hid)
  · refine (bind_ok (m := get) rfl).trans ?_
    rw [hcopy]
    rfl

/-! ## The handlers -/

theorem onLevel_ok {m : HintM Unit} {l' : RectangleHintInputLevel} (h : m s.level = .ok () l') :
    HintInput.onLevel m s = .ok () { s with level := l' } := by
  simp only [HintInput.onLevel, zoom, h]

theorem onLevel_error {m : HintM Unit} {l' : RectangleHintInputLevel} {e : JavaException}
    (h : m s.level = .error e l') : HintInput.onLevel m s = .error e { s with level := l' } := by
  simp only [HintInput.onLevel, zoom, h]

/-- A click fills the level's graph, and is recorded when the view could be redrawn. -/
theorem HintBound.click (h : HintBound repo s) (ord : HashOrder RectangleGridCell) {row col : ℤ}
    (hc : (⟨row, col⟩ : RectangleGridCell) ∈ s.level.graph) :
    ∃ g, colorFloodFill ord ⟨row, col⟩ s.level.curColor.colorId s.level.graph = .ok () g ∧
      g.colorAt = flood s.level.graph.Adj s.level.graph.colorAt ⟨row, col⟩
        (some (s.level.curColor.colorId : ℤ)) ∧
      SameShape s.level.graph g ∧ HintLevelOk repo { s.level with graph := g } ∧
      s.after (HintInput.handleColorGridBtn ord repo row col) = { s with
        level := { s.level with graph := g }
        commandQueue := if s.level.numRows ≤ s.level.numCols
          then s.commandQueue ++ [⟨s.level.curColor, ⟨row, col⟩⟩] else s.commandQueue } := by
  obtain ⟨g, hrun, hshape, hcol, hok, hplay⟩ := h.level.play_eq ord (updateView ord repo) hc
  refine ⟨g, hrun, hcol, hshape, hok, ?_⟩
  unfold HintInput.after
  by_cases hle : s.level.numRows ≤ s.level.numCols
  · have hlevel := onLevel_ok (hplay.trans (hintNotify_ok (hok.updateView_ok hle)))
    have hhandler : HintInput.handleColorGridBtn ord repo row col s = .ok none { s with
        level := { s.level with graph := g }
        commandQueue := s.commandQueue ++ [⟨s.level.curColor, ⟨row, col⟩⟩] } :=
      tryCatch_ok ((bind_ok (m := get) rfl).trans (bind_ok ((bind_ok hlevel).trans rfl)))
    rw [hhandler, if_pos hle]
  · obtain ⟨e, he⟩ := hok.updateView_error ord hle
    have hlevel := onLevel_error (hplay.trans (hintNotify_error he))
    have hhandler : HintInput.handleColorGridBtn ord repo row col s =
        .ok (some (.exception e)) { s with level := { s.level with graph := g } } :=
      (tryCatch_error ((bind_ok (m := get) rfl).trans (bind_error (bind_error hlevel)))).trans rfl
    rw [hhandler, if_neg hle]

theorem after_choose (color : Color) :
    s.after (HintInput.handleChooseColorBtn ord repo color) =
      { s with level := { s.level with curColor := color } } := by
  have hswitch : RectangleHintInputLevel.switchColor (updateView ord repo) color s.level =
      RectangleHintInputLevel.notifyObservers (updateView ord repo)
        { s.level with curColor := color } := bind_ok (m := modify _) rfl
  unfold HintInput.after
  cases hup : updateView ord repo { s.level with curColor := color } with
  | ok u =>
    have hhandler : HintInput.handleChooseColorBtn ord repo color s = .ok none
        { s with level := { s.level with curColor := color } } :=
      tryCatch_ok ((bind_ok (onLevel_ok (hswitch.trans (hintNotify_ok hup)))).trans rfl)
    rw [hhandler]
  | error e =>
    have hhandler : HintInput.handleChooseColorBtn ord repo color s = .ok (some (.exception e))
        { s with level := { s.level with curColor := color } } :=
      (tryCatch_error (bind_error (onLevel_error (hswitch.trans (hintNotify_error hup))))).trans rfl
    rw [hhandler]

/-- A restart empties the queue and goes back to the start, whatever the view says. -/
theorem HintBound.restart (h : HintBound repo s) (ord : HashOrder RectangleGridCell) :
    ∃ g, Same s.level.startGraph g ∧ HintLevelOk repo { s.level with graph := g } ∧
      s.after (HintInput.handleRestartBtn ord repo) =
        { s with level := { s.level with graph := g }, commandQueue := [] } := by
  obtain ⟨g, hsame, hok, hreset⟩ := h.level.resetGraph_eq ord
  refine ⟨g, hsame, hok, ?_⟩
  have hrun : HintInput.handleRestartBtn ord repo s = HintInput.onLevel
      (RectangleHintInputLevel.restart (updateView ord repo) ord) { s with commandQueue := [] } :=
    bind_ok (m := HintInput.reset) rfl
  have hrestart : RectangleHintInputLevel.restart (updateView ord repo) ord s.level =
      RectangleHintInputLevel.notifyObservers (updateView ord repo) { s.level with graph := g } :=
    bind_ok hreset
  unfold HintInput.after
  cases hup : updateView ord repo { s.level with graph := g } with
  | ok u =>
    have hlevel := onLevel_ok (s := { s with commandQueue := [] })
      (hrestart.trans (hintNotify_ok hup))
    rw [hrun, hlevel]
  | error e =>
    have hlevel := onLevel_error (s := { s with commandQueue := [] })
      (hrestart.trans (hintNotify_error hup))
    rw [hrun, hlevel]

/-! ## Saving -/

section Saving

variable (sep eol : List Char)

theorem getColorAt_same {g g' : ColoredGraph RectangleGridCell} (hg : g.WF) (hsame : Same g g')
    (c : RectangleGridCell) : getColorAt repo g' c = getColorAt repo g c := by
  by_cases hc : c ∈ g
  · obtain ⟨id, hid⟩ := hg.exists_color hc
    rw [getColorAt, getColorAt, call_ok (getVertexColor_ok hc hid),
      call_ok (getVertexColor_ok ((hsame.mem c).mpr hc) ((hsame.color c).trans hid))]
    rfl
  · rw [getColorAt_error hc, getColorAt_error fun hc' => hc ((hsame.mem c).mp hc')]

/-- Graphs that tell the same are written the same. -/
theorem writeLevel_same {g g' : ColoredGraph RectangleGridCell} (hg : g.WF) (hsame : Same g g')
    (numRows numCols : ℤ) (hints : List (Move RectangleGridCell)) :
    writeLevel sep eol repo g' numRows numCols hints =
      writeLevel sep eol repo g numRows numCols hints := by
  have hcell : ∀ row col, writeCell repo g' row col = writeCell repo g row col := fun row col => by
    rw [writeCell, writeCell, getColorAt_same hg hsame]
  have hcells : ∀ (row : ℤ) (n j : ℕ),
      writeCells sep repo g' row j n = writeCells sep repo g row j n := by
    intro row n
    induction n with
    | zero => exact fun j => rfl
    | succ n ih => exact fun j => by rw [writeCells, writeCells, hcell, ih]
  have hrow : ∀ row : ℤ,
      writeRow sep eol repo g' numCols row = writeRow sep eol repo g numCols row := fun row => by
    rw [writeRow, writeRow, hcell, hcells]
  have hrows : ∀ n i : ℕ,
      writeRows sep eol repo g' numCols i n = writeRows sep eol repo g numCols i n := by
    intro n
    induction n with
    | zero => exact fun i => rfl
    | succ n ih => exact fun i => by rw [writeRows, writeRows, hrow, ih]
  rw [writeLevel, writeLevel, hrows]

theorem HintLevelOk.writeLevel_ok (h : HintLevelOk repo l) (hints : List (Move RectangleGridCell)) :
    ∃ file, writeLevel sep eol repo l.startGraph l.numRows l.numCols hints = .ok file := by
  have hcolor : ∀ c, ∃ id : ℤ, c ∈ cells l.numRows l.numCols → l.startGraph.colorAt c = some id := by
    intro c
    by_cases hc : c ∈ cells l.numRows l.numCols
    · obtain ⟨id, hid⟩ := h.start.wf.exists_color ((h.start.mem c).mpr hc)
      exact ⟨id, fun _ => hid⟩
    · exact ⟨0, fun hc' => absurd hc' hc⟩
  have hlaid : ∀ seps : List Char → Prop, seps sep → seps eol → ∃ text, _ :=
    fun seps hsep heol => writeLevel_laid h.start.wf h.startKnown hsep heol h.cols_pos
      (fun c hc => (hcolor c).choose_spec hc) hints
  obtain ⟨text, hrun, -⟩ := hlaid (fun _ => True) trivial trivial
  exact ⟨_, hrun⟩

theorem saveLevel_ok {file : List Char} (h : saveHint repo sep eol s.level = .ok file)
    {hints : List (Move RectangleGridCell)} {seen : ColoredGraph RectangleGridCell} :
    HintInput.saveLevel repo sep eol none none hints seen s =
      .ok () { s with saved := ⟨file, hints, seen⟩ :: s.saved } := by
  simp [HintInput.saveLevel, bind, EStateM.bind, get_ok, h,
    MonadExcept.ofExcept, pure, EStateM.pure, modify_ok]

/-- The file is there when the manager's observers throw. -/
theorem saveLevel_observers {file : List Char} (h : saveHint repo sep eol s.level = .ok file)
    {hints : List (Move RectangleGridCell)} {seen : ColoredGraph RectangleGridCell}
    (e : JavaException) : HintInput.saveLevel repo sep eol none (some e) hints seen s =
      .error e { s with saved := ⟨file, hints, seen⟩ :: s.saved } := by
  simp [HintInput.saveLevel, bind, EStateM.bind, get_ok, h,
    MonadExcept.ofExcept, pure, EStateM.pure, modify_ok, throw_error]

/-- What a save leaves: the level back at its start with the queue among its hints, and a file unless
the repository throws. -/
theorem HintBound.save (h : HintBound repo s) (ord : HashOrder RectangleGridCell)
    (repository observers : Option JavaException) :
    ∃ g file, Same s.level.startGraph g ∧
      HintLevelOk repo
        { s.level with graph := g, hintList := s.level.hintList ++ s.commandQueue } ∧
      writeLevel sep eol repo s.level.startGraph s.level.numRows s.level.numCols
        (s.level.hintList ++ s.commandQueue) = .ok file ∧
      s.after (HintInput.handleSave ord repo sep eol repository observers) = {
        level := { s.level with graph := g, hintList := s.level.hintList ++ s.commandQueue }
        commandQueue := if repository = none ∧ observers = none then [] else s.commandQueue
        saved := if repository = none then ⟨file, s.commandQueue, s.level.graph⟩ :: s.saved
          else s.saved } := by
  have hhints : HintLevelOk repo { s.level with hintList := s.level.hintList ++ s.commandQueue } :=
    ⟨h.level.rows_pos, h.level.cols_pos, h.level.start, h.level.startKnown, h.level.grid,
      h.level.known, h.level.curColor⟩
  obtain ⟨g, hsame, hok, hreset⟩ := hhints.resetGraph_eq ord
  obtain ⟨file, hfile⟩ := h.level.writeLevel_ok sep eol (s.level.hintList ++ s.commandQueue)
  have hwrite : saveHint repo sep eol
      { s.level with graph := g, hintList := s.level.hintList ++ s.commandQueue } = .ok file :=
    (writeLevel_same sep eol h.level.start.wf hsame _ _ _).trans hfile
  refine ⟨g, file, hsame, hok, hfile, ?_⟩
  have hset : HintInput.onLevel (RectangleHintInputLevel.setHints s.commandQueue) s = .ok ()
      { s with level := { s.level with hintList := s.level.hintList ++ s.commandQueue } } := rfl
  have hrun : HintInput.handleSave ord repo sep eol repository observers s =
      (HintInput.saveLevel repo sep eol repository observers s.commandQueue s.level.graph >>= fun _ =>
        HintInput.reset) { s with
          level := { s.level with graph := g, hintList := s.level.hintList ++ s.commandQueue } } :=
    (bind_ok (m := get) rfl).trans ((bind_ok (m := get) rfl).trans
      ((bind_ok hset).trans (bind_ok (onLevel_ok hreset))))
  unfold HintInput.after
  rw [hrun]
  cases repository with
  | some e => rfl
  | none =>
    cases observers with
    | none =>
      rw [bind_ok (saveLevel_ok sep eol hwrite)]
      rfl
    | some e =>
      rw [bind_error (saveLevel_observers sep eol hwrite e)]
      rfl

theorem length_intToString_le {m n : ℕ} (h : m ≤ n) :
    (intToString m).length ≤ (intToString n).length := by
  have hdigits : ∀ k : ℕ, intToString k = Nat.toDigits 10 k := fun k => by
    rw [intToString, if_neg (by omega), Int.natAbs_natCast]
  rw [hdigits, hdigits, Nat.length_toDigits_le_iff (by decide) Nat.length_toDigits_pos]
  exact lt_of_le_of_lt h
    ((Nat.length_toDigits_le_iff (by decide) Nat.length_toDigits_pos).mp le_rfl)

/-- A file with more hints is another file. -/
theorem hints_eq_nil_of_writeLevel {g : ColoredGraph RectangleGridCell} {numRows numCols : ℤ}
    {old hints : List (Move RectangleGridCell)} {file : List Char}
    (h : writeLevel sep eol repo g numRows numCols (old ++ hints) = .ok file)
    (h' : writeLevel sep eol repo g numRows numCols hints = .ok file) : old = [] := by
  unfold writeLevel at h h'
  cases hrows : writeRows sep eol repo g numCols 0 numRows.toNat with
  | error e => simp [hrows, bind, Except.bind] at h
  | ok rows =>
    simp only [hrows, bind, Except.bind, pure, Except.pure, Except.ok.injEq] at h h'
    have hlen := congrArg List.length (h.trans h'.symm)
    have hcount := length_intToString_le (show hints.length ≤ (old ++ hints).length by simp)
    simp only [List.length_append, List.flatMap_append] at hlen hcount
    cases old with
    | nil => rfl
    | cons m old =>
      have hm := List.length_pos_of_ne_nil (intToString_ne_nil m.color.colorId)
      simp only [List.flatMap_cons, List.length_append, writeMove] at hlen
      omega

end Saving

/-! ## Steps -/

section Steps

variable (ord : HashOrder RectangleGridCell) {sep eol : List Char}

/-- Every step keeps the level a grid of known colours. -/
theorem HintBound.step (h : HintBound repo s) {e : HintEvent} {s' : HintInput}
    (hs : s.step ord repo sep eol e = some s') : HintBound repo s' := by
  have hmem : ∀ c, c ∈ s.level.graph ↔ c ∈ s.level.startGraph := fun c => by
    rw [h.level.grid.mem, h.level.start.mem]
  cases e with
  | click row col =>
    simp only [HintInput.step] at hs
    split at hs
    · rename_i hc
      have hc := (h.level.grid.mem _).mpr hc
      obtain ⟨g, -, -, -, hok, hafter⟩ := h.click ord hc
      obtain rfl := Option.some.inj hs
      rw [hafter]
      refine ⟨hok, ?_⟩
      -- Recorded or not, the click is on a cell of the grid, and so of the one the level starts from.
      dsimp only
      split
      · intro m hm
        rcases List.mem_append.mp hm with hm | hm
        · exact h.queue m hm
        · rw [List.mem_singleton.mp hm]
          exact (hmem _).mp hc
      · exact h.queue
    · cases hs
  | choose color =>
    simp only [HintInput.step] at hs
    split at hs
    · rename_i hc
      obtain rfl := Option.some.inj hs
      rw [after_choose]
      exact ⟨⟨h.level.rows_pos, h.level.cols_pos, h.level.start, h.level.startKnown, h.level.grid,
        h.level.known, hc⟩, h.queue⟩
    · cases hs
  | restart =>
    obtain ⟨g, -, hok, hafter⟩ := h.restart ord
    obtain rfl := Option.some.inj hs
    rw [hafter]
    exact ⟨hok, by simp⟩
  | save repository observers =>
    obtain ⟨g, file, -, hok, -, hafter⟩ := h.save sep eol ord repository observers
    obtain rfl := Option.some.inj hs
    rw [hafter]
    refine ⟨hok, ?_⟩
    dsimp only
    split
    · simp
    · exact h.queue

/-- The queue so far, replayed. -/
theorem HintBound.replay_queue (h : HintBound repo s) :
    ∀ m ∈ s.commandQueue.map Move.step, m.1 ∈ s.level.startGraph := by
  intro m hm
  obtain ⟨m', hm', rfl⟩ := List.mem_map.mp hm
  exact h.queue m' hm'

/-- Same shape and same colours. -/
theorem same_iff_colorAt {g g' : ColoredGraph RectangleGridCell} {rows cols : ℤ}
    (hg : IsGrid rows cols g) (hg' : IsGrid rows cols g') :
    Same g g' ↔ ∀ c, g'.colorAt c = g.colorAt c := by
  refine ⟨Same.color, fun hcolor => ⟨fun c => ?_, fun c c' => ?_, hcolor⟩⟩
  · rw [hg.mem, hg'.mem]
  · rw [hg.adj, hg'.adj, hg.mem, hg.mem, hg'.mem, hg'.mem]

/-- The replay of the queue, on a grid that tells the same as the level's. -/
theorem Consistent.exists_grid (hcons : Consistent ord repo sep eol s) (h : HintBound repo s) :
    ∃ g₀, replay ord (s.commandQueue.map Move.step) s.level.startGraph = .ok () g₀ ∧
      Same g₀ s.level.graph ∧ IsGrid s.level.numRows s.level.numCols g₀ := by
  obtain ⟨g₀, hreplay, hsame⟩ := hcons.graph
  obtain ⟨g, hrun, hshape, -⟩ := replay_spec ord _ h.level.start.wf h.replay_queue
  obtain ⟨-, rfl⟩ := EStateM.Result.ok.inj (hrun.symm.trans hreplay)
  exact ⟨g, hreplay, hsame, h.level.start.of_sameShape hshape⟩

/-- A click in step: it is recorded, or fills nothing. -/
theorem consistent_click_iff (h : HintBound repo s) (hcons : Consistent ord repo sep eol s)
    {row col : ℤ} (hc : (⟨row, col⟩ : RectangleGridCell) ∈ s.level.graph) :
    Consistent ord repo sep eol (s.after (HintInput.handleColorGridBtn ord repo row col)) ↔
      KeepsStep s (.click row col) := by
  obtain ⟨g₀, hreplay, hsame, hgrid₀⟩ := hcons.exists_grid ord h
  obtain ⟨g, hrun, hcol, hshape, hok, hafter⟩ := h.click ord hc
  rw [hafter]
  by_cases hle : s.level.numRows ≤ s.level.numCols
  · refine iff_of_true ⟨?_, hcons.saved⟩ (.inl hle)
    -- The command that is recorded fills the replay as the click filled the level.
    have hcell : ∀ m ∈ [((⟨row, col⟩ : RectangleGridCell), (s.level.curColor.colorId : ℤ))], m.1 ∈ g₀ := by
      intro m hm
      rw [List.mem_singleton.mp hm]
      exact (hsame.mem _).mp hc
    obtain ⟨g₁, g', hrun₁, hrun', hsame'⟩ := replay_same ord _ hsame hgrid₀.wf hcell
    obtain ⟨-, rfl⟩ := EStateM.Result.ok.inj ((bind_ok hrun).symm.trans hrun')
    refine ⟨g₁, ?_, hsame'⟩
    dsimp only
    rw [if_pos hle, List.map_append, replay_append ord _ _ hreplay]
    exact hrun₁
  · rw [KeepsStep, or_iff_right hle]
    have hfill : (∀ v, g.colorAt v = g₀.colorAt v) ↔
        s.level.graph.colorAt ⟨row, col⟩ = some (s.level.curColor.colorId : ℤ) := by
      rw [hcol]
      constructor
      · intro hsameColor
        rw [hsame.color, ← hsameColor, flood_self]
      · intro hcolor v
        rw [← hcolor, flood_same, hsame.color]
    rw [← hfill, ← same_iff_colorAt hgrid₀ hok.grid]
    constructor
    · intro hcons'
      obtain ⟨g₁, hreplay₁, hsame₁⟩ := hcons'.graph
      dsimp only at hreplay₁ hsame₁
      rw [if_neg hle, hreplay] at hreplay₁
      obtain ⟨-, rfl⟩ := EStateM.Result.ok.inj hreplay₁
      exact hsame₁
    · intro hsame₁
      refine ⟨⟨g₀, ?_, hsame₁⟩, hcons.saved⟩
      dsimp only
      rw [if_neg hle]
      exact hreplay

/-- A save in step. -/
theorem consistent_save_iff (h : HintBound repo s) (hcons : Consistent ord repo sep eol s)
    (repository observers : Option JavaException) :
    Consistent ord repo sep eol
        (s.after (HintInput.handleSave ord repo sep eol repository observers)) ↔
      KeepsStep s (.save repository observers) := by
  obtain ⟨g₀, hreplay, hsame, hgrid₀⟩ := hcons.exists_grid ord h
  obtain ⟨g, file, hstart, hok, hfile, hafter⟩ := h.save sep eol ord repository observers
  rw [hafter]
  -- The level is back at its start, which is the replay of an emptied queue.
  have hgraph : (∃ g₁, replay ord ((if repository = none ∧ observers = none then []
        else s.commandQueue).map Move.step) s.level.startGraph = .ok () g₁ ∧ Same g₁ g) ↔
      (repository ≠ none ∨ observers ≠ none →
        ∀ c, s.level.graph.colorAt c = s.level.startGraph.colorAt c) := by
    by_cases hthrough : repository = none ∧ observers = none
    · rw [if_pos hthrough]
      refine iff_of_true ⟨_, rfl, hstart⟩ fun hno => ?_
      exact absurd hno (not_or.mpr ⟨not_not.mpr hthrough.1, not_not.mpr hthrough.2⟩)
    · rw [if_neg hthrough, forall_prop_of_true (by tauto)]
      have hback : Same g₀ g ↔ ∀ c, s.level.graph.colorAt c = s.level.startGraph.colorAt c := by
        rw [same_iff_colorAt hgrid₀ hok.grid]
        refine forall_congr' fun c => ?_
        rw [hstart.color c, ← hsame.color c]
        exact eq_comm
      rw [← hback]
      constructor
      · rintro ⟨g₁, hreplay₁, hsame₁⟩
        obtain ⟨-, rfl⟩ := EStateM.Result.ok.inj (hreplay.symm.trans hreplay₁)
        exact hsame₁
      · exact fun hsame₁ => ⟨g₀, hreplay, hsame₁⟩
  have hsaved : (∀ x ∈ (if repository = none then
        (⟨file, s.commandQueue, s.level.graph⟩ : SavedHints) :: s.saved else s.saved),
      writeLevel sep eol repo s.level.startGraph s.level.numRows s.level.numCols x.hints =
        .ok x.file ∧
      ∃ g, replay ord (x.hints.map Move.step) s.level.startGraph = .ok () g ∧ Same g x.seen) ↔
      (repository = none → s.level.hintList = []) := by
    by_cases hrepo : repository = none
    · rw [if_pos hrepo, List.forall_mem_cons, forall_prop_of_true hrepo]
      constructor
      · rintro ⟨⟨hwrite, -⟩, -⟩
        exact hints_eq_nil_of_writeLevel sep eol hfile hwrite
      · intro hnil
        rw [hnil, List.nil_append] at hfile
        exact ⟨⟨hfile, g₀, hreplay, hsame⟩, hcons.saved⟩
    · rw [if_neg hrepo]
      exact iff_of_true hcons.saved fun hnone => absurd hnone hrepo
  rw [KeepsStep, ← hgraph, ← hsaved]
  exact ⟨fun hc => ⟨hc.saved, hc.graph⟩, fun hc => ⟨hc.2, hc.1⟩⟩

/-- **A step keeps the queue in step with the level exactly when it meets `KeepsStep`.** -/
theorem consistent_step_iff (h : HintBound repo s) (hcons : Consistent ord repo sep eol s)
    {e : HintEvent} {s' : HintInput} (hs : s.step ord repo sep eol e = some s') :
    Consistent ord repo sep eol s' ↔ KeepsStep s e := by
  cases e with
  | click row col =>
    simp only [HintInput.step] at hs
    split at hs
    · rename_i hc
      obtain rfl := Option.some.inj hs
      exact consistent_click_iff ord h hcons ((h.level.grid.mem _).mpr hc)
    · cases hs
  | choose color =>
    simp only [HintInput.step] at hs
    split at hs
    · obtain rfl := Option.some.inj hs
      rw [after_choose]
      exact iff_of_true ⟨hcons.graph, hcons.saved⟩ trivial
    · cases hs
  | restart =>
    obtain ⟨g, hstart, -, hafter⟩ := h.restart ord
    obtain rfl := Option.some.inj hs
    rw [hafter]
    exact iff_of_true ⟨⟨_, rfl, hstart⟩, hcons.saved⟩ trivial
  | save repository observers =>
    obtain rfl := Option.some.inj hs
    exact consistent_save_iff ord h hcons repository observers

end Steps

/-! ## Runs -/

/-- A level fresh from its constructor, with nothing recorded. -/
theorem hintInput_start (ord : HashOrder RectangleGridCell)
    {graph : ColoredGraph RectangleGridCell} {rows cols : ℤ} (hrows : 1 ≤ rows) (hcols : 1 ≤ cols)
    (hgrid : IsGrid rows cols graph)
    (hknown : ∀ c id, graph.colorAt c = some id → Known repo id) {colorOrd : HashOrder ℤ}
    (hnew : RectangleHintInputLevel.new ord colorOrd repo graph rows cols = .ok l)
    (sep eol : List Char) :
    HintBound repo ⟨l, [], []⟩ ∧ Consistent ord repo sep eol ⟨l, [], []⟩ := by
  have hn : graph.NonNeg := fun c id hid => (hknown c id hid).nonneg
  obtain ⟨start, hcopy, hsame⟩ := copy_spec ord hgrid.wf hn
  unfold RectangleHintInputLevel.new at hnew
  rw [hcopy] at hnew
  cases hcolors : getColors colorOrd repo with
  | nil => simp [hcolors, bind, Except.bind, throw, throwThe, MonadExceptOf.throw] at hnew
  | cons curColor colors =>
    simp only [hcolors, bind, Except.bind, pure, Except.pure, Except.ok.injEq] at hnew
    subst hnew
    have hcur : repo.colorMap.get curColor.colorId = some curColor := by
      have hmem : curColor ∈ getColors colorOrd repo := hcolors ▸ List.mem_cons_self
      obtain ⟨id, -, hid⟩ := List.mem_filterMap.mp hmem
      rw [repo.colorId_eq id curColor hid]
      exact hid
    have hback : Same start graph :=
      ⟨fun c => (hsame.mem c).symm, fun c c' => (hsame.adj c c').symm, fun c => (hsame.color c).symm⟩
    exact ⟨⟨⟨hrows, hcols, hgrid.of_same hsame, fun c id hid => hknown c id (hsame.color c ▸ hid),
      hgrid, hknown, hcur⟩, by simp⟩, ⟨⟨start, rfl, hback⟩, by simp⟩⟩

/-- **Hints are recorded as they were played exactly along the runs whose steps all keep step.** -/
theorem hintRecording_iff (ord : HashOrder RectangleGridCell) (colorOrd : HashOrder ℤ)
    (sep eol : List Char) {graph : ColoredGraph RectangleGridCell} {rows cols : ℤ} (hrows : 1 ≤ rows)
    (hcols : 1 ≤ cols) (hgrid : IsGrid rows cols graph)
    (hknown : ∀ c id, graph.colorAt c = some id → Known repo id)
    (hnew : RectangleHintInputLevel.new ord colorOrd repo graph rows cols = .ok l)
    (es : List HintEvent) :
    Along (HintInput.step ord repo sep eol) (Consistent ord repo sep eol) ⟨l, [], []⟩ es ↔
      Meets (HintInput.step ord repo sep eol) KeepsStep ⟨l, [], []⟩ es := by
  obtain ⟨hbound, hcons⟩ := hintInput_start ord hrows hcols hgrid hknown hnew sep eol
  exact along_iff_meets (fun s e s' h hs => h.step ord hs)
    (fun s e s' h hc hs => consistent_step_iff ord h hc hs) hbound hcons

/-! ## Two cells -/

/-- A level of red and blue cells starts with red. -/
theorem hintNew_twoColors {g : ColoredGraph RectangleGridCell} {rows cols : ℤ}
    (hgrid : IsGrid rows cols g) (hknown : ∀ c id, g.colorAt c = some id → Known twoColors id) :
    ∃ l, RectangleHintInputLevel.new (.insertion _) (.insertion _) twoColors g rows cols = .ok l ∧
      l.graph = g ∧ l.curColor = ⟨0, 255, 0, 0⟩ ∧ l.hintList = [] ∧ l.numRows = rows ∧
      l.numCols = cols := by
  have hn : g.NonNeg := fun c id hid => (hknown c id hid).nonneg
  obtain ⟨start, hcopy, -⟩ := copy_spec (.insertion _) hgrid.wf hn
  have hcolors : getColors (.insertion _) twoColors = [⟨0, 255, 0, 0⟩, ⟨1, 0, 0, 255⟩] := by decide
  refine ⟨⟨⟨g, start, ⟨0, 255, 0, 0⟩, []⟩, rows, cols⟩, ?_, rfl, rfl, rfl, rfl, rfl⟩
  rw [RectangleHintInputLevel.new, hcopy, hcolors]
  rfl

/-- Two cells in a row: a click and a save. -/
theorem hintRecording_pair : ∃ b : RectangleGridLevelBuilder, ∃ l,
    RectangleHintInputLevel.new (.insertion _) (.insertion _) twoColors b.graph 1 2 = .ok l ∧
    Along (HintInput.step (.insertion _) twoColors [' '] ['\n'])
      (Consistent (.insertion _) twoColors [' '] ['\n']) ⟨l, [], []⟩
      [.click 0 1, .save none none] := by
  obtain ⟨b, hrows, hcols, hsavable⟩ := exists_pair
  have hb := hsavable [] (by decide) (by simp)
  rw [hrows, hcols] at hb
  obtain ⟨l, hnew, -, -, hhints, hnumRows, hnumCols⟩ := hintNew_twoColors hb.grid hb.known
  obtain ⟨hbound, -⟩ := hintInput_start (.insertion _) (by decide) (by decide) hb.grid hb.known hnew
    [' '] ['\n']
  refine ⟨b, l, hnew, (hintRecording_iff (.insertion _) (.insertion _) [' '] ['\n'] (by decide)
    (by decide) hb.grid hb.known hnew _).mpr ?_⟩
  have hle : l.numRows ≤ l.numCols := by rw [hnumRows, hnumCols]; decide
  intro s hs
  refine ⟨.inl hle, fun s' hs' => ⟨⟨fun _ => ?_, by simp⟩, trivial⟩⟩
  have hc : (⟨0, 1⟩ : RectangleGridCell) ∈ cells l.numRows l.numCols := by
    rw [hnumRows, hnumCols]
    decide
  simp only [HintInput.step, if_pos hc, Option.some.injEq] at hs
  obtain ⟨g, -, -, -, -, hafter⟩ := hbound.click (.insertion _) ((hbound.level.grid.mem _).mpr hc)
  rw [← hs, hafter]
  exact hhints

/-- **A click on a level of two rows and one column is not recorded**, though it recolours its cell. -/
theorem column_click_unrecorded : ∃ g l, IsGrid 2 1 g ∧
    (∀ c id, g.colorAt c = some id → Known twoColors id) ∧
    RectangleHintInputLevel.new (.insertion _) (.insertion _) twoColors g 2 1 = .ok l ∧
    ¬ Along (HintInput.step (.insertion _) twoColors [' '] ['\n'])
      (Consistent (.insertion _) twoColors [' '] ['\n']) ⟨l, [], []⟩ [.click 0 0] := by
  obtain ⟨b, -, hgrid, -, -, hcol⟩ := RectangleGridLevelBuilder.exists_painted (.insertion _)
    (.insertion _) twoColors (by decide) 2 1 fun _ => ⟨1, 0, 0, 255⟩
  have hknown : ∀ c id, b.graph.colorAt c = some id → Known twoColors id := by
    intro c id hid
    rw [hcol] at hid
    split at hid
    · obtain rfl := Option.some.inj hid
      exact ⟨⟨1, 0, 0, 255⟩, rfl⟩
    · cases hid
  obtain ⟨l, hnew, hgraph, hcur, -, hnumRows, hnumCols⟩ := hintNew_twoColors hgrid hknown
  obtain ⟨hbound, hcons⟩ := hintInput_start (.insertion _) (by decide) (by decide) hgrid hknown hnew
    [' '] ['\n']
  refine ⟨b.graph, l, hgrid, hknown, hnew, fun halong => ?_⟩
  have hc : (⟨0, 0⟩ : RectangleGridCell) ∈ cells l.numRows l.numCols := by
    rw [hnumRows, hnumCols]
    decide
  have hs : HintInput.step (.insertion _) twoColors [' '] ['\n'] ⟨l, [], []⟩ (.click 0 0) =
      some _ := if_pos hc
  rcases (consistent_step_iff (.insertion _) hbound hcons hs).mp (halong.2 _ hs) with hle | hcolor
  · rw [hnumRows, hnumCols] at hle
    exact absurd hle (by decide)
  · rw [hgraph, hcol, if_pos (by decide), hcur] at hcolor
    exact absurd (Option.some.inj hcolor) (by decide)

end UnionCollegeCode.Kami3
