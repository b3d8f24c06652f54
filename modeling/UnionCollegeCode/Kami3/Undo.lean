import UnionCollegeCode.Lib.Run
import UnionCollegeCode.Kami3.FloodFill
import UnionCollegeCode.Kami3.Level

/-!
# Undo over whole plays

A player clicks cells, chooses colours and asks for undos, in any order. `Game` is the level as the
handlers leave it, together with the record the undo button is meant to follow: what the level
showed before each successful move not yet undone.

`handleColorGridBtn` records a memento before it knows whether `play` takes the click. When `play`
throws, the memento stays, and the stack no longer follows the record. `Follows` is the invariant as
long as every click is accepted, and a click that is not breaks it for good: `undoSafe_iff`.
-/

set_option autoImplicit false

namespace UnionCollegeCode.Kami3

open Lib.EState Lib.JavaCollections Lib.Coloring Lib.Run

/-! ## Games -/

structure Game where
  level : Level RectangleGridCell
  /-- What the level showed before each successful move not yet undone, latest first. -/
  history : List (Snapshot RectangleGridCell)

inductive Event
  | click (row col : ℤ)
  | choose (color : Color)
  | undo
  deriving DecidableEq, Repr

def Event.isClick : Event → Bool
  | .click _ _ => true
  | _ => false

/-- The level a handler leaves behind. -/
def levelAfter {α : Type} (m : LevelM RectangleGridCell α) (l : Level RectangleGridCell) :
    Level RectangleGridCell :=
  match m l with
  | .ok _ l' => l'
  | .error _ l' => l'

variable (ord : HashOrder RectangleGridCell)
  (update : Snapshot RectangleGridCell → Except JavaException Unit)

/-- An event. A move is successful when its click raises no alert. -/
def Game.step (s : Game) : Event → Option Game
  | .click row col =>
    match handleColorGridBtn ord update row col s.level with
    | .ok none l => some ⟨l, s.level.snapshot :: s.history⟩
    | .ok (some _) l => some ⟨l, s.history⟩
    | .error _ l => some ⟨l, s.history⟩
  | .choose color => some ⟨levelAfter (handleChooseColorBtn update color) s.level, s.history⟩
  | .undo => some ⟨levelAfter (handleUndoButton update) s.level, s.history.tail⟩

/-- An undo, asked for now, restores what the level showed before the last successful move not yet
undone, and changes nothing when there is none. -/
def UndoExact (s : Game) : Prop :=
  (levelAfter (handleUndoButton update) s.level).snapshot = s.history.headD s.level.snapshot

/-- Every undo is exact from now on, until the next click. -/
def UndoSafe (s : Game) : Prop :=
  ∀ es : List Event, (∀ e ∈ es, e.isClick = false) →
    Along (Game.step ord update) (UndoExact update) s es

/-- What a level shows once the flood fill of a click at `cell` is done. -/
noncomputable def Level.clicked (l : Level RectangleGridCell) (cell : RectangleGridCell) :
    Snapshot RectangleGridCell where
  colorAt := flood l.graph.Adj l.graph.colorAt cell (some (l.curColor.colorId : ℤ))
  adj := l.graph.Adj
  curNumTurn := l.curNumTurn + 1
  curColor := l.curColor

/-- The click finds a move left, names a cell of the level, and leads to a level the views can
show. Everything else is accepted as it is. -/
def Accepts (s : Game) : Event → Prop
  | .click row col => s.level.numMoveRemaining ≠ 0 ∧ (⟨row, col⟩ : RectangleGridCell) ∈ s.level.graph ∧
      update (s.level.clicked ⟨row, col⟩) = .ok ()
  | _ => True

/-- A level as it is loaded. -/
structure Level.Fresh (l : Level RectangleGridCell) : Prop where
  wf : l.graph.WF
  nonNeg : l.graph.NonNeg
  mementoStack : l.mementoStack = []

/-- A level built by the constructor on a well-formed graph is fresh. -/
theorem Level.new_fresh {ord : HashOrder RectangleGridCell} {repo : ColorRepository}
    {graph : ColoredGraph RectangleGridCell} {hints : List (Move RectangleGridCell)}
    {l : Level RectangleGridCell} (hg : graph.WF) (hn : graph.NonNeg)
    (h : Level.new ord repo graph hints = .ok l) : l.Fresh := by
  unfold Level.new at h
  cases hcolors : repo.listColors (graph.getColorIds ord) with
  | error e => simp [hcolors, bind, Except.bind] at h
  | ok colors =>
    cases hmin : colors.argmin Color.colorId with
    | none => simp [hcolors, hmin, bind, Except.bind, throw, throwThe, MonadExceptOf.throw] at h
    | some color =>
      simp only [hcolors, hmin, bind, Except.bind, pure, Except.pure, Except.ok.injEq] at h
      subst h
      exact ⟨hg, hn, rfl⟩

/-! ## The handlers -/

def LevelMemento.snapshot {V : Type} (m : LevelMemento V) : Snapshot V :=
  ⟨m.graph.colorAt, m.graph.Adj, m.curNumTurn, m.curColor⟩

variable {ord update} {l : Level RectangleGridCell}

theorem notifyObservers_ok (h : update l.snapshot = .ok ()) :
    Level.notifyObservers update l = .ok () l :=
  (bind_ok (m := get) rfl).trans (by rw [h]; rfl)

theorem notifyObservers_error {e : JavaException} (h : update l.snapshot = .error e) :
    Level.notifyObservers update l = .error e l :=
  (bind_ok (m := get) rfl).trans (by rw [h]; rfl)

/-- Whatever the views say, the colour is switched. -/
theorem levelAfter_choose (color : Color) :
    levelAfter (handleChooseColorBtn update color) l = { l with curColor := color } := by
  have hswitch : Level.switchColor update color l =
      Level.notifyObservers update { l with curColor := color } := bind_ok (m := modify _) rfl
  unfold levelAfter
  cases h : update ({ l with curColor := color } : Level RectangleGridCell).snapshot with
  | ok u =>
    have hrun : handleChooseColorBtn update color l = .ok none { l with curColor := color } :=
      tryCatch_ok ((bind_ok (hswitch.trans (notifyObservers_ok h))).trans rfl)
    rw [hrun]
  | error e =>
    have hrun : handleChooseColorBtn update color l =
        .ok (some (.exception e)) { l with curColor := color } :=
      (tryCatch_error (bind_error (hswitch.trans (notifyObservers_error h)))).trans rfl
    rw [hrun]

/-- Whatever the views say, the latest memento is restored. -/
theorem levelAfter_undo {m : LevelMemento RectangleGridCell} {rest}
    (h : l.mementoStack = m :: rest) :
    levelAfter (handleUndoButton update) l = { l with
      graph := m.graph, curNumTurn := m.curNumTurn, curColor := m.curColor, mementoStack := rest } := by
  have hundoable : l.undoable = true := by simp [Level.undoable, h]
  have hundo : Level.undo update l = Level.notifyObservers update { l with
      graph := m.graph, curNumTurn := m.curNumTurn, curColor := m.curColor, mementoStack := rest } := by
    refine (bind_ok (m := get) rfl).trans ?_
    rw [h]
    rfl
  unfold levelAfter
  rw [show handleUndoButton update l = (Level.undo update >>= fun _ => pure none) l by
    refine (bind_ok (m := get) rfl).trans ?_
    rw [if_pos hundoable]]
  cases hup : update (Level.snapshot { l with
      graph := m.graph, curNumTurn := m.curNumTurn, curColor := m.curColor, mementoStack := rest }) with
  | ok u => rw [bind_ok (hundo.trans (notifyObservers_ok hup))]; rfl
  | error e => rw [bind_error (hundo.trans (notifyObservers_error hup))]

theorem levelAfter_undo_nil (h : l.mementoStack = []) :
    levelAfter (handleUndoButton update) l = l := by
  have hundoable : ¬ l.undoable = true := by simp [Level.undoable, h]
  unfold levelAfter
  rw [show handleUndoButton update l = .ok (some .noPreviousMoves) l by
    refine (bind_ok (m := get) rfl).trans ?_
    rw [if_neg hundoable]
    rfl]

variable (ord) in
/-- A recorded memento shows what the level shows. -/
theorem recordOriginator_spec (hwf : l.graph.WF) (hn : l.graph.NonNeg) :
    ∃ m : LevelMemento RectangleGridCell, m.snapshot = l.snapshot ∧ m.graph.WF ∧ m.graph.NonNeg ∧
      Level.recordOriginator ord l = .ok () { l with mementoStack := m :: l.mementoStack } := by
  obtain ⟨g, hg, hsame⟩ := ColoredGraph.copy_spec ord hwf hn
  refine ⟨⟨g, l.curNumTurn, l.curColor⟩, ?_, hsame.wf hwf, hsame.nonNeg hn, ?_⟩
  · ext
    · simp only [LevelMemento.snapshot, Level.snapshot, hsame.color]
    · exact hsame.adj _ _
    · rfl
    · rfl
  · have hm : Level.createMemento ord l = .ok ⟨g, l.curNumTurn, l.curColor⟩ l :=
      (bind_ok (m := get) rfl).trans (by rw [hg]; rfl)
    exact (bind_ok hm).trans rfl

variable (ord update) in
/-- `play` up to its observers. -/
theorem play_spec (hwf : l.graph.WF) {cell : RectangleGridCell} (hmoves : l.numMoveRemaining ≠ 0)
    (hcell : cell ∈ l.graph) :
    ∃ g, ColoredGraph.SameShape l.graph g ∧
      ({ l with graph := g, curNumTurn := l.curNumTurn + 1 } : Level _).snapshot = l.clicked cell ∧
      Level.play ord update ⟨l.curColor, cell⟩ l =
        Level.notifyObservers update { l with graph := g, curNumTurn := l.curNumTurn + 1 } := by
  obtain ⟨g, hg, hshape, hcol⟩ := ColoredGraph.colorFloodFill_spec ord hwf hcell l.curColor.colorId
  refine ⟨g, hshape, ?_, ?_⟩
  · ext
    · simp only [Level.snapshot, Level.clicked, hcol]
    · exact hshape.adj_iff
    · rfl
    · rfl
  · have hon : Level.onGraph (ColoredGraph.colorFloodFill ord cell l.curColor.colorId) l =
        .ok () { l with graph := g } := by simp only [Level.onGraph, hg]
    refine (bind_ok (m := get) rfl).trans ?_
    rw [if_neg hmoves]
    exact (bind_ok hon).trans (bind_ok (m := modify _) rfl)

variable (ord update) in
theorem play_error {cell : RectangleGridCell} (h : l.numMoveRemaining = 0 ∨ cell ∉ l.graph) :
    ∃ e, Level.play ord update ⟨l.curColor, cell⟩ l = .error e l := by
  by_cases hmoves : l.numMoveRemaining = 0
  · refine ⟨.illegalArgument "No move left", (bind_ok (m := get) rfl).trans ?_⟩
    rw [if_pos hmoves]
    rfl
  · have hcell := h.resolve_left hmoves
    have hon : Level.onGraph (ColoredGraph.colorFloodFill ord cell l.curColor.colorId) l =
        .error (.illegalArgument "the vertex is not in the graph") l := by
      simp only [Level.onGraph, ColoredGraph.colorFloodFill_of_not_mem ord hcell]
    refine ⟨.illegalArgument "the vertex is not in the graph", (bind_ok (m := get) rfl).trans ?_⟩
    rw [if_neg hmoves]
    exact bind_error hon

variable (ord) in
/-- A click that is accepted. -/
theorem handleColorGridBtn_accepted (hwf : l.graph.WF) (hn : l.graph.NonNeg) {row col : ℤ}
    (hmoves : l.numMoveRemaining ≠ 0) (hcell : (⟨row, col⟩ : RectangleGridCell) ∈ l.graph)
    (hup : update (l.clicked ⟨row, col⟩) = .ok ()) :
    ∃ l' m, handleColorGridBtn ord update row col l = .ok none l' ∧
      l'.mementoStack = m :: l.mementoStack ∧ m.snapshot = l.snapshot ∧
      m.graph.WF ∧ m.graph.NonNeg ∧ l'.graph.WF ∧ l'.graph.NonNeg ∧
      l'.snapshot = l.clicked ⟨row, col⟩ := by
  obtain ⟨m, hm, hmwf, hmn, hrec⟩ := recordOriginator_spec ord hwf hn
  obtain ⟨g, hshape, hsnap, hplay⟩ := play_spec ord update
    (l := { l with mementoStack := m :: l.mementoStack }) hwf hmoves hcell
  have hup' : update (Level.snapshot { l with
      graph := g, curNumTurn := l.curNumTurn + 1, mementoStack := m :: l.mementoStack }) =
      .ok () := by
    rw [← hup]
    exact congrArg update hsnap
  refine ⟨_, m, tryCatch_ok ((bind_ok hrec).trans ((bind_ok (m := get) rfl).trans
    (bind_ok (hplay.trans (notifyObservers_ok hup'))))), rfl, hm, hmwf, hmn, hshape.wf hwf, ?_, hsnap⟩
  -- The new colour is an id, and the others were there before.
  intro v c hc
  have hcol : g.colorAt v = (l.clicked ⟨row, col⟩).colorAt v := congrArg (·.colorAt v) hsnap
  replace hc : g.colorAt v = some c := hc
  rw [hcol] at hc
  simp only [Level.clicked, flood] at hc
  split at hc
  · rw [Option.some.injEq] at hc
    omega
  · exact hn v c hc

variable (ord) in
/-- A click that is not accepted leaves its memento behind. -/
theorem handleColorGridBtn_rejected (hwf : l.graph.WF) (hn : l.graph.NonNeg) {row col : ℤ}
    (hno : ¬ (l.numMoveRemaining ≠ 0 ∧ (⟨row, col⟩ : RectangleGridCell) ∈ l.graph ∧
      update (l.clicked ⟨row, col⟩) = .ok ())) :
    ∃ e l' m, handleColorGridBtn ord update row col l = .ok (some (.exception e)) l' ∧
      l'.mementoStack = m :: l.mementoStack ∧ m.snapshot = l.snapshot := by
  obtain ⟨m, hm, -, -, hrec⟩ := recordOriginator_spec ord hwf hn
  by_cases hplay : l.numMoveRemaining = 0 ∨ (⟨row, col⟩ : RectangleGridCell) ∉ l.graph
  · obtain ⟨e, he⟩ := play_error ord update
      (l := { l with mementoStack := m :: l.mementoStack }) hplay
    exact ⟨e, _, m, (tryCatch_error ((bind_ok hrec).trans ((bind_ok (m := get) rfl).trans
      (bind_error he)))).trans rfl, rfl, hm⟩
  · rw [not_or, not_not] at hplay
    obtain ⟨g, -, hsnap, hrun⟩ := play_spec ord update
      (l := { l with mementoStack := m :: l.mementoStack }) hwf hplay.1 hplay.2
    cases hup : update (l.clicked ⟨row, col⟩) with
    | ok u => exact absurd ⟨hplay.1, hplay.2, hup⟩ hno
    | error e =>
      have hup' : update (Level.snapshot { l with
          graph := g, curNumTurn := l.curNumTurn + 1, mementoStack := m :: l.mementoStack }) =
          .error e := by
        rw [← hup]
        exact congrArg update hsnap
      exact ⟨e, _, m, (tryCatch_error ((bind_ok hrec).trans ((bind_ok (m := get) rfl).trans
        (bind_error (hrun.trans (notifyObservers_error hup')))))).trans rfl, rfl, hm⟩

/-! ## The invariant -/

/-- The stack of mementos follows the record, and the record goes back turn by turn. -/
structure Follows (s : Game) : Prop where
  wf : s.level.graph.WF
  nonNeg : s.level.graph.NonNeg
  mementos : ∀ m ∈ s.level.mementoStack, m.graph.WF ∧ m.graph.NonNeg
  stack : s.level.mementoStack.map LevelMemento.snapshot = s.history
  turns : (s.level.curNumTurn :: s.history.map Snapshot.curNumTurn).Pairwise (· > ·)

variable {s s' : Game}

theorem Follows.undoExact (h : Follows s) : UndoExact update s := by
  unfold UndoExact
  cases hst : s.level.mementoStack with
  | nil =>
    have hhist : s.history = [] := by rw [← h.stack, hst, List.map_nil]
    rw [levelAfter_undo_nil hst, hhist, List.headD_nil]
  | cons m rest =>
    have hhist : s.history = m.snapshot :: rest.map LevelMemento.snapshot := by
      rw [← h.stack, hst, List.map_cons]
    rw [levelAfter_undo hst, hhist, List.headD_cons]
    rfl

theorem Follows.undo (h : Follows s) :
    Follows ⟨levelAfter (handleUndoButton update) s.level, s.history.tail⟩ := by
  cases hst : s.level.mementoStack with
  | nil =>
    have hhist : s.history = [] := by rw [← h.stack, hst, List.map_nil]
    rw [levelAfter_undo_nil hst, hhist, List.tail_nil, ← hhist]
    exact h
  | cons m rest =>
    have hhist : s.history = m.snapshot :: rest.map LevelMemento.snapshot := by
      rw [← h.stack, hst, List.map_cons]
    rw [levelAfter_undo hst, hhist, List.tail_cons]
    obtain ⟨hmwf, hmn⟩ := h.mementos m (hst ▸ List.mem_cons_self)
    refine ⟨hmwf, hmn, fun m' hm' => h.mementos m' (hst ▸ List.mem_cons_of_mem m hm'), rfl, ?_⟩
    have hturns := h.turns
    rw [hhist, List.map_cons] at hturns
    exact hturns.of_cons

/-- **Accepted events keep the stack and the record together.** -/
theorem Follows.step (h : Follows s) {e : Event} (hs : s.step ord update e = some s')
    (hok : Accepts update s e) : Follows s' := by
  cases e with
  | click row col =>
    obtain ⟨hmoves, hcell, hup⟩ := hok
    obtain ⟨l', m, hrun, hstack, hm, hmwf, hmn, hwf, hn, hsnap⟩ :=
      handleColorGridBtn_accepted ord h.wf h.nonNeg hmoves hcell hup
    simp only [Game.step, hrun, Option.some.injEq] at hs
    subst hs
    refine ⟨hwf, hn, ?_, ?_, ?_⟩
    · rw [hstack, List.forall_mem_cons]
      exact ⟨⟨hmwf, hmn⟩, h.mementos⟩
    · rw [hstack, List.map_cons, hm, h.stack]
    · have hturn : l'.curNumTurn = s.level.curNumTurn + 1 := congrArg Snapshot.curNumTurn hsnap
      rw [List.map_cons, List.pairwise_cons, hturn]
      refine ⟨fun t ht => ?_, h.turns⟩
      rcases List.mem_cons.mp ht with rfl | ht
      · exact Nat.lt_succ_self _
      · exact Nat.lt_succ_of_lt (List.rel_of_pairwise_cons h.turns ht)
  | choose color =>
    simp only [Game.step, levelAfter_choose, Option.some.injEq] at hs
    subst hs
    exact ⟨h.wf, h.nonNeg, h.mementos, h.stack, h.turns⟩
  | undo =>
    simp only [Game.step, Option.some.injEq] at hs
    subst hs
    exact h.undo

theorem Follows.undoSafe (h : Follows s) : UndoSafe ord update s := by
  intro es
  induction es generalizing s with
  | nil => exact fun _ => h.undoExact
  | cons e es ih =>
    intro hes
    obtain ⟨he, hes⟩ := List.forall_mem_cons.mp hes
    refine ⟨h.undoExact, fun s' hs' => ih (h.step hs' ?_) hes⟩
    cases e with
    | click row col => simp [Event.isClick] at he
    | choose color => trivial
    | undo => trivial

/-- A click that is not accepted breaks the undo: after one more choice of colour, it goes back to a
level no successful move started from. -/
theorem Follows.not_undoSafe (h : Follows s) {e : Event} (hs : s.step ord update e = some s')
    (hno : ¬ Accepts update s e) : ¬ UndoSafe ord update s' := by
  cases e with
  | choose color => exact absurd trivial hno
  | undo => exact absurd trivial hno
  | click row col =>
    obtain ⟨e, l', m, hrun, hstack, hm⟩ :=
      handleColorGridBtn_rejected ord h.wf h.nonNeg hno
    simp only [Game.step, hrun, Option.some.injEq] at hs
    subst hs
    intro hsafe
    obtain ⟨color, hcolor⟩ : ∃ color : Color, color ≠ s.level.curColor :=
      ⟨{ s.level.curColor with colorId := s.level.curColor.colorId + 1 },
        fun he => Nat.succ_ne_self _ (congrArg Color.colorId he)⟩
    -- The undo restores the stale memento.
    have hexact := (hsafe [.choose color] (by simp [Event.isClick])).2 _ rfl
    simp only [Along, UndoExact, levelAfter_choose] at hexact
    rw [levelAfter_undo (l := { l' with curColor := color }) hstack] at hexact
    replace hexact : s.level.snapshot = s.history.headD _ := hm.symm.trans hexact
    cases hhist : s.history with
    | nil =>
      rw [hhist, List.headD_nil] at hexact
      exact hcolor (congrArg Snapshot.curColor hexact).symm
    | cons b rest =>
      rw [hhist, List.headD_cons] at hexact
      have hturns := h.turns
      rw [hhist, List.map_cons, ← hexact] at hturns
      exact lt_irrefl _ (List.rel_of_pairwise_cons hturns List.mem_cons_self)

/-- **Undo is exact as long as every click is accepted, and only so.** -/
theorem undoSafe_iff (ord : HashOrder RectangleGridCell)
    (update : Snapshot RectangleGridCell → Except JavaException Unit)
    {l : Level RectangleGridCell} (hl : l.Fresh) (es : List Event) :
    Along (Game.step ord update) (UndoSafe ord update) ⟨l, []⟩ es ↔
      Meets (Game.step ord update) (Accepts update) ⟨l, []⟩ es := by
  refine along_iff_meets_of_break (I := Follows) (fun s h => h.undoSafe)
    (fun s e s' h hs hok => h.step hs hok) (fun s e s' h hs hno => h.not_undoSafe hs hno) ?_
  exact ⟨hl.wf, hl.nonNeg, by simp [hl.mementoStack], by simp [hl.mementoStack], by simp⟩

/-! ## One cell -/

/-- A level of one cell of colour 0, with as many moves as hints. -/
def oneCell (hints : List (Move RectangleGridCell)) : Level RectangleGridCell where
  graph := (ColoredGraph.new _).withVertex ⟨0, 0⟩ 0
  hints := hints
  curNumTurn := 0
  curColor := ⟨0, ⟨255, by decide⟩, ⟨0, by decide⟩, ⟨0, by decide⟩⟩
  mementoStack := []

theorem oneCell_fresh (hints : List (Move RectangleGridCell)) : (oneCell hints).Fresh where
  wf := ColoredGraph.wf_new.withVertex 0 HashMap.not_mem_empty
  nonNeg v c h := by
    simp only [oneCell, ColoredGraph.colorAt_withVertex] at h
    split at h
    · rw [Option.some.injEq] at h
      omega
    · cases h
  mementoStack := rfl

/-- With a move left, the click on the cell can be undone. -/
theorem undoSafe_oneCell :
    Along (Game.step (.insertion _) fun _ => .ok ()) (UndoSafe (.insertion _) fun _ => .ok ())
      ⟨oneCell [⟨⟨1, 0, 255, 0⟩, ⟨0, 0⟩⟩], []⟩ [.choose ⟨1, 0, 255, 0⟩, .click 0 0, .undo] := by
  refine (undoSafe_iff (.insertion _) (fun _ => .ok ()) (oneCell_fresh _) _).mpr ?_
  intro s hs
  obtain rfl := Option.some.inj hs
  refine ⟨trivial, fun s hs => ⟨⟨by decide, by decide, rfl⟩, fun s' hs' => ⟨trivial, trivial⟩⟩⟩

/-- **A click with no move left spoils the next undo.** It takes back the colour chosen since,
though there is no move to undo. -/
theorem stale_memento : ¬ Along (Game.step (.insertion _) fun _ => .ok ()) (UndoExact fun _ => .ok ())
    ⟨oneCell [], []⟩ [.click 0 0, .choose ⟨1, 0, 255, 0⟩] := by
  intro h
  have hexact := (h.2 _ rfl).2 _ rfl
  have hcolor := congrArg (fun t => t.curColor.colorId) hexact
  revert hcolor
  decide

end UnionCollegeCode.Kami3
