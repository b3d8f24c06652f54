import UnionCollegeCode.Kami3.LevelCodec
import UnionCollegeCode.Kami3.Undo

/-!
# The level as a state machine

A loaded level is played on, switched, remembered and taken back in any order, with arguments that
need not make sense and views that may throw. `InPlay` is what every call keeps: the graph stays the
grid that was loaded, and neither the turn nor a remembered turn passes the number of hints.
-/

set_option autoImplicit false

namespace UnionCollegeCode.Kami3

open Lib.EState Lib.JavaCollections Lib.Run Lib.Scanner ColoredGraph

inductive LevelCall
  | play (move : Move RectangleGridCell)
  | switchColor (color : Color)
  | recordOriginator
  | undo
  deriving DecidableEq, Repr

variable (ord : HashOrder RectangleGridCell)
  (update : Snapshot RectangleGridCell → Except JavaException Unit)

def LevelCall.run : LevelCall → LevelM RectangleGridCell Unit
  | .play move => Level.play ord update move
  | .switchColor color => Level.switchColor update color
  | .recordOriginator => Level.recordOriginator ord
  | .undo => Level.undo update

/-- A call, with the level it leaves behind also when it throws. -/
def Level.step (l : Level RectangleGridCell) (call : LevelCall) : Option (Level RectangleGridCell) :=
  some (levelAfter (call.run ord update) l)

/-- All cells of the rectangle have one colour. -/
def OneColor (rows cols : ℤ) (l : Level RectangleGridCell) : Prop :=
  ∀ c ∈ cells rows cols, ∀ c' ∈ cells rows cols, l.graph.colorAt c = l.graph.colorAt c'

/-- What a level of `rows` by `cols` cells and these hints is, whatever was called on it. -/
structure InPlay (rows cols : ℤ) (hints : List (Move RectangleGridCell))
    (l : Level RectangleGridCell) : Prop where
  hints_eq : l.hints = hints
  grid : IsGrid rows cols l.graph
  nonNeg : l.graph.NonNeg
  turn : l.curNumTurn ≤ hints.length
  mementos : ∀ m ∈ l.mementoStack,
    IsGrid rows cols m.graph ∧ m.graph.NonNeg ∧ m.curNumTurn ≤ hints.length

variable {rows cols : ℤ} {hints : List (Move RectangleGridCell)} {l : Level RectangleGridCell}

/-! ## What a call leaves -/

section Calls

variable {ord update}

variable (update) in
theorem levelAfter_notify {m : LevelM RectangleGridCell Unit} {l' : Level RectangleGridCell}
    (h : m l = Level.notifyObservers update l') : levelAfter m l = l' := by
  unfold levelAfter
  rw [h]
  cases hup : update l'.snapshot with
  | ok u => rw [notifyObservers_ok hup]
  | error e => rw [notifyObservers_error hup]

theorem play_no_move_left (h : l.numMoveRemaining = 0) (move : Move RectangleGridCell) :
    Level.play ord update move l = .error (.illegalArgument "No move left") l := by
  refine (bind_ok (m := get) rfl).trans ?_
  rw [if_pos h]
  rfl

variable (ord update) in
/-- A play does nothing, or fills and takes a turn. -/
theorem levelAfter_play (hwf : l.graph.WF) (hn : l.graph.NonNeg) (move : Move RectangleGridCell) :
    levelAfter (Level.play ord update move) l = l ∨
      l.numMoveRemaining ≠ 0 ∧ ∃ g, SameShape l.graph g ∧ g.NonNeg ∧
        levelAfter (Level.play ord update move) l =
          { l with graph := g, curNumTurn := l.curNumTurn + 1 } := by
  by_cases hmoves : l.numMoveRemaining = 0
  · left
    rw [levelAfter, play_no_move_left hmoves]
  have hplay : Level.play ord update move l =
      (Level.onGraph (colorFloodFill ord move.vertex move.color.colorId) >>= fun _ =>
        modify (fun l => { l with curNumTurn := l.curNumTurn + 1 }) >>= fun _ =>
          Level.notifyObservers update) l := by
    refine (bind_ok (m := get) rfl).trans ?_
    rw [if_neg hmoves]
  by_cases hv : move.vertex ∈ l.graph
  · right
    obtain ⟨g, hrun, hshape, hcol⟩ := colorFloodFill_spec ord hwf hv move.color.colorId
    have hon : Level.onGraph (colorFloodFill ord move.vertex move.color.colorId) l =
        .ok () { l with graph := g } := by simp only [Level.onGraph, hrun]
    refine ⟨hmoves, g, hshape, ?_, levelAfter_notify update (hplay.trans ?_)⟩
    · intro c id hc
      rw [hcol] at hc
      unfold Lib.Coloring.flood at hc
      split at hc
      · rw [← Option.some.inj hc]
        exact Int.natCast_nonneg _
      · exact hn c id hc
    · exact (bind_ok hon).trans (bind_ok (m := modify _) rfl)
  · left
    have hon : Level.onGraph (colorFloodFill ord move.vertex move.color.colorId) l =
        .error (.illegalArgument "the vertex is not in the graph") l := by
      simp only [Level.onGraph, colorFloodFill_of_not_mem ord hv]
    rw [levelAfter, hplay, bind_error hon]

theorem levelAfter_switchColor (color : Color) :
    levelAfter (Level.switchColor update color) l = { l with curColor := color } :=
  levelAfter_notify update (bind_ok (m := modify _) rfl)

theorem levelAfter_undo_cons {m : LevelMemento RectangleGridCell} {rest}
    (h : l.mementoStack = m :: rest) : levelAfter (Level.undo update) l = { l with
      graph := m.graph, curNumTurn := m.curNumTurn, curColor := m.curColor, mementoStack := rest } := by
  apply levelAfter_notify
  refine (bind_ok (m := get) rfl).trans ?_
  rw [h]
  rfl

theorem levelAfter_undo_empty (h : l.mementoStack = []) : levelAfter (Level.undo update) l = l := by
  have hundo : Level.undo update l = .error .emptyStack l := by
    refine (bind_ok (m := get) rfl).trans ?_
    rw [h]
    rfl
  rw [levelAfter, hundo]

/-! ## The invariant -/

/-- A graph that tells the same of colours and neighbours is the same grid. -/
theorem IsGrid.of_memento {m : LevelMemento RectangleGridCell} (h : IsGrid rows cols l.graph)
    (hwf : m.graph.WF) (hm : m.snapshot = l.snapshot) : IsGrid rows cols m.graph := by
  have hcolor : m.graph.colorAt = l.graph.colorAt := congrArg Snapshot.colorAt hm
  have hadj : m.graph.Adj = l.graph.Adj := congrArg Snapshot.adj hm
  have hmem : ∀ c, c ∈ m.graph ↔ c ∈ l.graph := by
    intro c
    rw [hwf.colored, h.wf.colored, HashMap.mem_iff, HashMap.mem_iff]
    exact exists_congr fun id => by rw [show m.graph.colorMap.get c = _ from congrFun hcolor c]; rfl
  exact ⟨hwf, fun c => (hmem c).trans (h.mem c), fun c c' => by rw [hadj, h.adj, hmem, hmem]⟩

/-- **Every call keeps a level in play.** -/
theorem InPlay.step (h : InPlay rows cols hints l) {c : LevelCall} {l' : Level RectangleGridCell}
    (hs : l.step ord update c = some l') : InPlay rows cols hints l' := by
  obtain rfl := Option.some.inj hs
  cases c with
  | play move =>
    rcases levelAfter_play ord update h.grid.wf h.nonNeg move with he | he
    · rw [LevelCall.run, he]
      exact h
    · obtain ⟨hmoves, g, hshape, hn, he⟩ := he
      rw [LevelCall.run, he]
      refine ⟨h.hints_eq, h.grid.of_sameShape hshape, hn, ?_, h.mementos⟩
      -- A move was left, so the turn was below the number of hints.
      have hturn := h.turn
      rw [Level.numMoveRemaining, h.hints_eq] at hmoves
      dsimp only
      omega
  | switchColor color =>
    rw [LevelCall.run, levelAfter_switchColor]
    exact ⟨h.hints_eq, h.grid, h.nonNeg, h.turn, h.mementos⟩
  | recordOriginator =>
    obtain ⟨m, hm, hmwf, hmn, hrun⟩ := recordOriginator_spec ord h.grid.wf h.nonNeg
    rw [LevelCall.run, levelAfter, hrun]
    refine ⟨h.hints_eq, h.grid, h.nonNeg, h.turn, List.forall_mem_cons.mpr ⟨?_, h.mementos⟩⟩
    have hturn : m.curNumTurn = l.curNumTurn := congrArg Snapshot.curNumTurn hm
    exact ⟨h.grid.of_memento hmwf hm, hmn, hturn ▸ h.turn⟩
  | undo =>
    cases hst : l.mementoStack with
    | nil =>
      rw [LevelCall.run, levelAfter_undo_empty hst]
      exact h
    | cons m rest =>
      rw [LevelCall.run, levelAfter_undo_cons hst]
      obtain ⟨⟨hgrid, hn, hturn⟩, hrest⟩ := List.forall_mem_cons.mp (hst ▸ h.mementos)
      exact ⟨h.hints_eq, hgrid, hn, hturn, hrest⟩

end Calls

/-! ## The state of a level -/

open Classical in
/-- **A level is won when its cells have one colour**, and lost when they do not and no move is
left. -/
theorem InPlay.getLevelState_eq (h : InPlay rows cols hints l) (hrows : 1 ≤ rows) (hcols : 1 ≤ cols) :
    l.getLevelState ord = .ok (if OneColor rows cols l then .win
      else if l.numMoveRemaining = 0 then .lose else .ongoing) := by
  obtain ⟨p, hprune, hp⟩ := pruneGraph_spec ord h.grid.wf h.nonNeg
  have hne : ∃ c, c ∈ l.graph := ⟨⟨0, 0⟩, by
    rw [h.grid.mem, mem_cells]
    dsimp only
    omega⟩
  have hone : p.getNumVertices = 1 ↔ OneColor rows cols l := by
    rw [hp.numVertices_eq_one h.grid.wf h.grid.connected hne]
    simp only [OneColor, ← h.grid.mem]
    exact ⟨fun hm c hc c' hc' => hm c c' hc hc', fun hm c c' hc hc' => hm c hc c' hc'⟩
  have hturn := h.turn
  have hremaining : l.numMoveRemaining > 0 ↔ ¬ l.numMoveRemaining = 0 := by
    rw [Level.numMoveRemaining, h.hints_eq]
    omega
  rw [Level.getLevelState, hprune]
  simp only [bind, Except.bind, pure, Except.pure, ne_eq, hone, hremaining]
  by_cases hmono : OneColor rows cols l
  · simp [hmono]
  · by_cases hmoves : l.numMoveRemaining = 0 <;> simp [hmono, hmoves]

/-- What a level of the state machine is like, whatever was called on it. -/
structure Sound (rows cols : ℤ) (hints : List (Move RectangleGridCell))
    (l : Level RectangleGridCell) : Prop where
  hints_eq : l.hints = hints
  turn : 0 ≤ (l.curNumTurn : ℤ) ∧ (l.curNumTurn : ℤ) ≤ hints.length
  win : l.getLevelState ord = .ok .win ↔ OneColor rows cols l
  lose : l.getLevelState ord = .ok .lose ↔ ¬ OneColor rows cols l ∧ l.numMoveRemaining = 0
  ongoing : l.getLevelState ord = .ok .ongoing ↔ ¬ OneColor rows cols l ∧ l.numMoveRemaining ≠ 0
  /-- With no move left a play throws, and the level it leaves behind is the same. -/
  play : l.numMoveRemaining = 0 → ∀ move,
    Level.play ord update move l = .error (.illegalArgument "No move left") l

theorem InPlay.sound (h : InPlay rows cols hints l) (hrows : 1 ≤ rows) (hcols : 1 ≤ cols) :
    Sound ord update rows cols hints l := by
  have hstate := h.getLevelState_eq ord hrows hcols
  refine ⟨h.hints_eq, ⟨Int.natCast_nonneg _, Int.ofNat_le.mpr h.turn⟩, ?_, ?_, ?_,
    fun hmoves move => play_no_move_left hmoves move⟩
  · rw [hstate]
    split_ifs <;> simp [*]
  · rw [hstate]
    split_ifs <;> simp [*]
  · rw [hstate]
    split_ifs <;> simp [*]

/-- The level a chain of loaders gives is the level one of them gives. -/
theorem loadLevel_eq_ok {file : List Char} {l : RectangleGridLevel}
    (successors : List (List Char → Except JavaException RectangleGridLevel)) :
    ∀ load, LevelRepository.loadLevel load successors file = .ok l →
      ∃ loader ∈ load :: successors, loader file = .ok l := by
  induction successors with
  | nil =>
    intro load h
    rw [LevelRepository.loadLevel] at h
    split at h
    · exact ⟨load, List.mem_cons_self, by rw [← h]; assumption⟩
    · cases h
  | cons successor successors ih =>
    intro load h
    rw [LevelRepository.loadLevel] at h
    split at h
    · exact ⟨load, List.mem_cons_self, by rw [← h]; assumption⟩
    · obtain ⟨loader, hmem, hloader⟩ := ih successor h
      exact ⟨loader, List.mem_cons_of_mem load hmem, hloader⟩

/-- A level out of a file, before any call. -/
theorem loadFile_inPlay {loc : ScanLocale} {d : Delimiter} {repo : ColorRepository} {file : List Char}
    {l : RectangleGridLevel} (h : loadFile loc d ord repo file = .ok l) :
    1 ≤ l.numRows ∧ 1 ≤ l.numCols ∧ InPlay l.numRows l.numCols l.level.hints l.level := by
  unfold loadFile at h
  split at h
  · rename_i l' s' hrun
    obtain rfl := Except.ok.inj h
    obtain ⟨hrows, hcols, hgrid, hn, hturn, hstack⟩ := readLevel_eq_ok loc ord hrun
    exact ⟨hrows, hcols, rfl, hgrid, hn, by omega, by simp [hstack]⟩
  · cases h

/-- **The level state machine**, from any file that loads and over any calls. -/
theorem level_stateMachine (loc : ScanLocale) (repo : ColorRepository)
    (load : List Char → Except JavaException RectangleGridLevel)
    (successors : List (List Char → Except JavaException RectangleGridLevel))
    (hloaders : ∀ loader ∈ load :: successors,
      loader = TextRectangleGridLevelRepository.loadLevel loc ord repo ∨
        loader = Text2RectangleGridLevelRepository.loadLevel loc ord repo)
    {file : List Char} {l : RectangleGridLevel}
    (hload : LevelRepository.loadLevel load successors file = .ok l) (calls : List LevelCall) :
    Along (Level.step ord update) (Sound ord update l.numRows l.numCols l.level.hints) l.level
      calls := by
  obtain ⟨loader, hmem, hloader⟩ := loadLevel_eq_ok successors load hload
  have hplay : 1 ≤ l.numRows ∧ 1 ≤ l.numCols ∧
      InPlay l.numRows l.numCols l.level.hints l.level := by
    rcases hloaders loader hmem with rfl | rfl
    · exact loadFile_inPlay ord hloader
    · exact loadFile_inPlay ord hloader
  obtain ⟨hrows, hcols, hinv⟩ := hplay
  have hrun : Along (Level.step ord update) (InPlay l.numRows l.numCols l.level.hints) l.level
      calls := along_of_step (fun s c s' hs hstep => hs.step hstep) hinv
  exact hrun.mono fun s hs => hs.sound ord update hrows hcols

/-- A file of a red and a blue cell, with the hint to paint the first one blue. -/
def pairFile : List Char :=
  ['1', ' ', '2', '\n', '0', ' ', '1', '\n', '1', '\n', '1', ' ', '0', ' ', '0', '\n']

theorem pairFile_loads : ∃ l,
    TextRectangleGridLevelRepository.loadLevel .ascii (.insertion _) twoColors pairFile = .ok l := by
  have hsome : (TextRectangleGridLevelRepository.loadLevel .ascii (.insertion _) twoColors
      pairFile).toOption.isSome = true := by decide +kernel
  cases h : TextRectangleGridLevelRepository.loadLevel .ascii (.insertion _) twoColors pairFile with
  | ok l => exact ⟨l, rfl⟩
  | error e => simp [h, Except.toOption] at hsome

/-- Plays, a memento and an undo on it, under a view that always throws. -/
theorem level_stateMachine_pair : ∃ l,
    TextRectangleGridLevelRepository.loadLevel .ascii (.insertion _) twoColors pairFile = .ok l ∧
    Along (Level.step (.insertion _) fun _ => .error .nullPointer)
      (Sound (.insertion _) (fun _ => .error .nullPointer) l.numRows l.numCols l.level.hints) l.level
      [.recordOriginator, .play ⟨⟨1, 0, 0, 255⟩, ⟨0, 0⟩⟩, .play ⟨⟨0, 255, 0, 0⟩, ⟨0, 0⟩⟩, .undo] := by
  obtain ⟨l, hl⟩ := pairFile_loads
  refine ⟨l, hl, level_stateMachine (.insertion _) (fun _ => .error .nullPointer) .ascii twoColors
    (TextRectangleGridLevelRepository.loadLevel .ascii (.insertion _) twoColors) [] (by simp)
    (?_ : LevelRepository.loadLevel _ [] pairFile = _) _⟩
  rw [LevelRepository.loadLevel, hl]

end UnionCollegeCode.Kami3
