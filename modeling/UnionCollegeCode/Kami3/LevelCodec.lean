import UnionCollegeCode.Kami3.LevelRepository
import UnionCollegeCode.Kami3.SolverOptimal

/-!
# Saved files load as they were saved

A saver lays out the numbers of a level, and a loader asks for them in the same order. Each loader
stops at the first token of a file in the other format, so the chain gives a file to the one that
reads it.
-/

set_option autoImplicit false

namespace UnionCollegeCode.Kami3

open Lib.EState Lib.JavaCollections Lib.Scanner ColoredGraph

/-! ## What is saved -/

/-- A level that a designer can save. The numbers are Java's: an `int` counts the cells, the hints
and the colours. -/
structure Savable (repo : ColorRepository) (rows cols : ℤ) (g : ColoredGraph RectangleGridCell)
    (hints : List (Move RectangleGridCell)) : Prop where
  rows_pos : 1 ≤ rows
  cols_pos : 1 ≤ cols
  grid : IsGrid rows cols g
  known : ∀ c color, g.colorAt c = some color → Known repo color
  hint_vertex : ∀ m ∈ hints, m.vertex ∈ g
  hint_color : ∀ m ∈ hints, repo.getColor m.color.colorId = .ok m.color
  cells_int : rows * cols < 2 ^ 31
  hints_int : (hints.length : ℤ) < 2 ^ 31
  colors_int : ∀ color, Known repo color → color < 2 ^ 31

/-- The loaded level is the one that was saved: its size, its colours, cells adjacent exactly to
their four neighbours, and its hints. -/
structure Restores (rows cols : ℤ) (g : ColoredGraph RectangleGridCell)
    (hints : List (Move RectangleGridCell)) (l : RectangleGridLevel) : Prop where
  numRows : l.numRows = rows
  numCols : l.numCols = cols
  color : ∀ c, l.level.graph.colorAt c = g.colorAt c
  mem : ∀ c, c ∈ l.level.graph ↔ (0 ≤ c.row ∧ c.row < rows) ∧ 0 ≤ c.col ∧ c.col < cols
  adj : ∀ c c', l.level.graph.Adj c c' ↔ c ∈ l.level.graph ∧ c' ∈ l.level.graph ∧
    (c.row - c'.row).natAbs + (c.col - c'.col).natAbs = 1
  hints : l.level.hints = hints

/-- The numbers of a move, in the order of the file. -/
def Move.numbers (m : Move RectangleGridCell) : List ℤ :=
  [(m.color.colorId : ℤ), m.vertex.row, m.vertex.col]

/-- The numbers of a level, in the order of the file. -/
def levelNumbers (rows cols : ℤ) (color : RectangleGridCell → ℤ)
    (hints : List (Move RectangleGridCell)) : List ℤ :=
  rows :: cols :: ((cells rows cols).map color ++ (hints.length : ℤ) :: hints.flatMap Move.numbers)

/-! ## Writing -/

section Writing

variable {repo : ColorRepository} {g : ColoredGraph RectangleGridCell} {sep eol : List Char}
  {seps : List Char → Prop} {color : RectangleGridCell → ℤ}

theorem getColorAt_ok {V : Type} [DecidableEq V] {repo : ColorRepository} {g : ColoredGraph V}
    (hg : g.WF) {v : V} {id : ℤ} (hv : g.colorAt v = some id) (hid : Known repo id) :
    ∃ c, getColorAt repo g v = .ok c ∧ repo.getColor id = .ok c ∧ (c.colorId : ℤ) = id := by
  obtain ⟨c, hc⟩ := hid
  have hget : repo.getColor id = .ok c := by
    rw [ColorRepository.getColor, hc]
    rfl
  refine ⟨c, ?_, hget, repo.colorId_eq id c hc⟩
  rw [getColorAt, call_ok (getVertexColor_ok (hg.mem_of_color hv) hv)]
  exact hget

theorem writeCell_ok (hg : g.WF) (hknown : ∀ c id, g.colorAt c = some id → Known repo id)
    {row col : ℤ} (h : g.colorAt ⟨row, col⟩ = some (color ⟨row, col⟩)) :
    writeCell repo g row col = .ok (intToString (color ⟨row, col⟩)) := by
  obtain ⟨c, hc, -, hid⟩ := getColorAt_ok hg h (hknown _ _ h)
  rw [writeCell, hc, ← hid]
  rfl

variable (hg : g.WF) (hknown : ∀ c id, g.colorAt c = some id → Known repo id) (hsep : seps sep)
  (heol : seps eol)

include hg hknown hsep heol

/-- The rest of a row, behind a number. -/
theorem writeCells_laid (row : ℤ) (n : ℕ) : ∀ (j : ℕ) (z : ℤ),
    (∀ k ∈ List.range' j n, g.colorAt ⟨row, (k : ℕ)⟩ = some (color ⟨row, (k : ℕ)⟩)) →
    ∃ text, writeCells sep repo g row j n = .ok text ∧
      Laid seps (intToString z ++ text ++ eol)
        (z :: (List.range' j n).map fun k : ℕ => color ⟨row, k⟩) := by
  induction n with
  | zero =>
    intro j z _
    refine ⟨[], rfl, ?_⟩
    have := (Laid.nil seps).cons z heol
    rwa [List.append_nil] at this ⊢
  | succ n ih =>
    intro j z h
    rw [List.range'_succ, List.forall_mem_cons] at h
    obtain ⟨text, htext, hlaid⟩ := ih (j + 1) (color ⟨row, j⟩) h.2
    refine ⟨sep ++ intToString (color ⟨row, j⟩) ++ text, ?_, ?_⟩
    · rw [writeCells, writeCell_ok hg hknown h.1, htext]
      rfl
    · have := hlaid.cons z hsep
      rw [List.range'_succ, List.map_cons]
      simpa only [List.append_assoc] using this

theorem writeRow_laid {numCols row : ℤ} (hcols : 1 ≤ numCols)
    (h : ∀ k ∈ List.range numCols.toNat, g.colorAt ⟨row, (k : ℕ)⟩ = some (color ⟨row, (k : ℕ)⟩)) :
    ∃ text, writeRow sep eol repo g numCols row = .ok text ∧
      Laid seps text ((List.range numCols.toNat).map fun k : ℕ => color ⟨row, k⟩) := by
  obtain ⟨n, hn⟩ : ∃ n, numCols.toNat = n + 1 := ⟨numCols.toNat - 1, by omega⟩
  have hrange : List.range numCols.toNat = 0 :: List.range' 1 n := by
    rw [hn, List.range_eq_range', List.range'_succ]
  rw [hrange, List.forall_mem_cons] at h
  obtain ⟨text, htext, hlaid⟩ := writeCells_laid hg hknown hsep heol row n 1 (color ⟨row, (0 : ℕ)⟩) h.2
  refine ⟨intToString (color ⟨row, (0 : ℕ)⟩) ++ text ++ eol, ?_, ?_⟩
  · have hcell : writeCell repo g row 0 = .ok (intToString (color ⟨row, (0 : ℕ)⟩)) :=
      writeCell_ok hg hknown h.1
    rw [writeRow, hcell, hn, Nat.add_sub_cancel, htext]
    rfl
  · rw [hrange, List.map_cons]
    exact hlaid

theorem writeRows_laid {numCols : ℤ} (hcols : 1 ≤ numCols) (n : ℕ) : ∀ i : ℕ,
    (∀ r ∈ List.range' i n, ∀ k ∈ List.range numCols.toNat,
      g.colorAt ⟨(r : ℕ), (k : ℕ)⟩ = some (color ⟨(r : ℕ), (k : ℕ)⟩)) →
    ∃ text, writeRows sep eol repo g numCols i n = .ok text ∧
      Laid seps text ((List.range' i n).flatMap fun r : ℕ =>
        (List.range numCols.toNat).map fun k : ℕ => color ⟨r, k⟩) := by
  induction n with
  | zero => exact fun i _ => ⟨[], rfl, Laid.nil seps⟩
  | succ n ih =>
    intro i h
    rw [List.range'_succ, List.forall_mem_cons] at h
    obtain ⟨line, hline, hlaid⟩ := writeRow_laid hg hknown hsep heol hcols h.1
    obtain ⟨text, htext, hlaid'⟩ := ih (i + 1) h.2
    refine ⟨line ++ text, ?_, ?_⟩
    · rw [writeRows, hline, htext]
      rfl
    · rw [List.range'_succ, List.flatMap_cons]
      exact hlaid.append hlaid'

omit hg hknown in
theorem writeMove_laid (m : Move RectangleGridCell) : Laid seps (writeMove sep eol m) m.numbers := by
  have := (((Laid.nil seps).cons m.vertex.col heol).cons m.vertex.row hsep).cons m.color.colorId hsep
  simpa only [writeMove, Move.numbers, List.append_assoc, List.append_nil] using this

/-- **A saved file is the numbers of its level.** -/
theorem writeLevel_laid {rows cols : ℤ} (hcols : 1 ≤ cols)
    (h : ∀ c ∈ cells rows cols, g.colorAt c = some (color c)) (hints : List (Move RectangleGridCell)) :
    ∃ text, writeLevel sep eol repo g rows cols hints =
        .ok (intToString rows ++ sep ++ (intToString cols ++ eol ++ text)) ∧
      Laid seps (intToString rows ++ sep ++ (intToString cols ++ eol ++ text))
        (levelNumbers rows cols color hints) := by
  have hcell : ∀ r ∈ List.range' 0 rows.toNat, ∀ k ∈ List.range cols.toNat,
      g.colorAt ⟨(r : ℕ), (k : ℕ)⟩ = some (color ⟨(r : ℕ), (k : ℕ)⟩) := by
    intro r hr k hk
    rw [← List.range_eq_range', List.mem_range] at hr
    rw [List.mem_range] at hk
    apply h
    rw [mem_cells]
    dsimp only
    omega
  obtain ⟨rowsText, hrun, hlaid⟩ := writeRows_laid hg hknown hsep heol hcols rows.toNat 0 hcell
  have hmoves : Laid seps (hints.flatMap (writeMove sep eol)) (hints.flatMap Move.numbers) := by
    clear h hcell hrun hlaid
    induction hints with
    | nil => exact Laid.nil seps
    | cons m hints ih => exact (writeMove_laid hsep heol m).append ih
  refine ⟨rowsText ++ (intToString hints.length ++ eol ++ hints.flatMap (writeMove sep eol)), ?_, ?_⟩
  · rw [writeLevel, hrun]
    simp only [bind, Except.bind, pure, Except.pure, List.append_assoc]
  · rw [← List.range_eq_range'] at hlaid
    have hcells : (cells rows cols).map color = (List.range rows.toNat).flatMap fun r : ℕ =>
        (List.range cols.toNat).map fun k : ℕ => color ⟨r, k⟩ := by
      simp only [cells, List.map_flatMap, List.map_map, Function.comp_def]
    rw [levelNumbers, hcells]
    exact ((hlaid.append (hmoves.cons hints.length heol)).cons cols heol).cons rows hsep

end Writing

/-! ## Reading -/

section Reading

variable (loc : ScanLocale) {d : Delimiter} (ord : HashOrder RectangleGridCell) {repo : ColorRepository}

theorem nextInt_ok (hd : d.Separates) {s : List Char} {z : ℤ} {zs : List ℤ}
    (h : Feeds d s (z :: zs)) : ∃ s', nextInt loc d s = .ok z s' ∧ Feeds d s' zs := by
  obtain ⟨s', hrun, hs'⟩ := h.nextInt loc hd
  refine ⟨s', ?_, hs'⟩
  rw [nextInt, hrun]

/-- The cells get the colours the file has for them. -/
theorem readCells_ok (hd : d.Separates) {color : RectangleGridCell → ℤ} {zs : List ℤ}
    (cs : List RectangleGridCell) (hcolor : ∀ c ∈ cs, 0 ≤ color c) (hnd : cs.Nodup) :
    ∀ (graph : ColoredGraph RectangleGridCell) (s : List Char), (∀ c ∈ cs, c ∉ graph) →
      Feeds d s (cs.map color ++ zs) →
      ∃ graph' s', readCells loc d cs graph s = .ok graph' s' ∧ Feeds d s' zs ∧
        ∀ c, graph'.colorAt c = if c ∈ cs then some (color c) else graph.colorAt c := by
  induction cs with
  | nil => exact fun graph s _ hs => ⟨graph, s, rfl, hs, by simp⟩
  | cons cell cs ih =>
    intro graph s hnew hs
    obtain ⟨hc, hcolor⟩ := List.forall_mem_cons.mp hcolor
    obtain ⟨hcell, hnd⟩ := List.nodup_cons.mp hnd
    obtain ⟨hn, hnew⟩ := List.forall_mem_cons.mp hnew
    obtain ⟨s₁, hrun₁, hs₁⟩ := nextInt_ok loc hd hs
    obtain ⟨graph', s', hrun, hs', hcol⟩ := ih hcolor hnd (graph.withVertex cell (color cell)) s₁
      (fun c hcs => by
        rw [mem_withVertex, not_or]
        exact ⟨fun he => hcell (he ▸ hcs), hnew c hcs⟩) hs₁
    refine ⟨graph', s', ?_, hs', fun c => ?_⟩
    · rw [readCells, bind_ok hrun₁, call_ok (addVertex_ok hn hc)]
      exact hrun
    · rw [hcol, colorAt_withVertex]
      by_cases hmem : c ∈ cs
      · rw [if_pos hmem, if_pos (List.mem_cons_of_mem cell hmem)]
      · by_cases heq : c = cell
        · rw [if_neg hmem, if_pos heq, heq, if_pos List.mem_cons_self]
        · rw [if_neg hmem, if_neg heq, if_neg (by simp [hmem, heq])]

/-- What reading the cells leaves, whatever the file says of their colours. -/
theorem readCells_eq_ok (cs : List RectangleGridCell) :
    ∀ {graph graph' : ColoredGraph RectangleGridCell} {s s' : List Char},
      readCells loc d cs graph s = .ok graph' s' → graph.WF → graph.NonNeg →
      graph'.WF ∧ graph'.NonNeg ∧ ∀ c, c ∈ graph' ↔ c ∈ cs ∨ c ∈ graph := by
  induction cs with
  | nil =>
    intro graph graph' s s' h hwf hn
    obtain ⟨rfl, -⟩ := pure_eq_ok.mp h
    exact ⟨hwf, hn, by simp⟩
  | cons cell cs ih =>
    intro graph graph' s s' h hwf hn
    obtain ⟨colorId, s₁, -, h⟩ := bind_eq_ok.mp h
    obtain ⟨⟨u, graph₁⟩, s₂, hcall, h⟩ := bind_eq_ok.mp h
    by_cases hcell : cell ∈ graph
    · simp [call, addVertex, bind, EStateM.bind, get_ok, hcell,
        throw_error, MonadExcept.ofExcept] at hcall
    · by_cases hneg : colorId < 0
      · simp [call, addVertex, bind, EStateM.bind, get_ok, hcell,
          throw_error, MonadExcept.ofExcept, hneg] at hcall
      · rw [call_ok (addVertex_ok hcell (Int.not_lt.mp hneg))] at hcall
        obtain ⟨he, -⟩ := pure_eq_ok.mp hcall
        obtain ⟨-, rfl⟩ := Prod.mk.inj he
        obtain ⟨hwf', hn', hmem⟩ := ih h (hwf.withVertex colorId hcell) fun c id hc => by
          rw [colorAt_withVertex] at hc
          split at hc
          · rw [← Option.some.inj hc]
            exact Int.not_lt.mp hneg
          · exact hn c id hc
        refine ⟨hwf', hn', fun c => ?_⟩
        rw [hmem, mem_withVertex, List.mem_cons]
        tauto

/-- The hints come back as they were written. -/
theorem readHints_ok (hd : d.Separates) (hints : List (Move RectangleGridCell))
    (hcolor : ∀ m ∈ hints, repo.getColor m.color.colorId = .ok m.color) :
    ∀ s : List Char, Feeds d s (hints.flatMap Move.numbers) →
      ∃ s', readHints loc d repo hints.length s = .ok hints s' := by
  induction hints with
  | nil => exact fun s _ => ⟨s, rfl⟩
  | cons m hints ih =>
    intro s hs
    obtain ⟨hm, hcolor⟩ := List.forall_mem_cons.mp hcolor
    obtain ⟨s₁, hrun₁, hs₁⟩ := nextInt_ok loc hd hs
    obtain ⟨s₂, hrun₂, hs₂⟩ := nextInt_ok loc hd hs₁
    obtain ⟨s₃, hrun₃, hs₃⟩ := nextInt_ok loc hd hs₂
    obtain ⟨s', hrun⟩ := ih hcolor s₃ hs₃
    refine ⟨s', ?_⟩
    rw [List.length_cons, readHints, bind_ok hrun₁, bind_ok hrun₂, bind_ok hrun₃, hm]
    exact bind_ok hrun

/-! ## The constructor -/

theorem listColors_ok (repo : ColorRepository) (ids : List ℤ) (h : ∀ id ∈ ids, Known repo id) :
    ∃ colors, repo.listColors ids = .ok colors ∧ colors.length = ids.length := by
  induction ids with
  | nil => exact ⟨[], rfl, rfl⟩
  | cons id ids ih =>
    obtain ⟨⟨color, hid⟩, h⟩ := List.forall_mem_cons.mp h
    obtain ⟨colors, hcolors, hlen⟩ := ih h
    have hget : repo.getColor id = .ok color := by
      rw [ColorRepository.getColor, hid]
      rfl
    refine ⟨color :: colors, ?_, by rw [List.length_cons, hlen, List.length_cons]⟩
    rw [ColorRepository.listColors] at hcolors ⊢
    rw [List.mapM_cons, hget]
    change (List.mapM repo.getColor ids >>= fun colors => pure (color :: colors)) = _
    rw [hcolors]
    rfl

/-- A level of known colours is built. -/
theorem levelNew_ok {g : ColoredGraph RectangleGridCell} (hwf : g.WF) (hne : ∃ c, c ∈ g)
    (hknown : ∀ c id, g.colorAt c = some id → Known repo id) (hints : List (Move RectangleGridCell)) :
    ∃ curColor, Level.new ord repo g hints = .ok ⟨g, hints, 0, curColor, []⟩ := by
  have hids : ∀ id, id ∈ g.getColorIds ord ↔ ∃ c, g.colorAt c = some id := fun id => by
    simp only [getColorIds, List.mem_dedup, List.mem_filterMap, ord.mem_iterate]
    constructor
    · rintro ⟨c, -, hc⟩
      exact ⟨c, hc⟩
    · rintro ⟨c, hc⟩
      exact ⟨c, HashMap.mem_def.mp (HashMap.mem_of_get hc), hc⟩
  obtain ⟨colors, hcolors, hlen⟩ := listColors_ok repo (g.getColorIds ord)
    fun id hid => by
      obtain ⟨c, hc⟩ := (hids id).mp hid
      exact hknown c id hc
  obtain ⟨c, hc⟩ := hne
  obtain ⟨id, hid⟩ := hwf.exists_color hc
  have hpos : colors ≠ [] := by
    intro he
    have := List.length_pos_of_mem ((hids id).mpr ⟨c, hid⟩)
    rw [← hlen, he] at this
    exact absurd this (Nat.lt_irrefl 0)
  cases hmin : colors.argmin Color.colorId with
  | none => exact absurd (List.argmin_eq_none.mp hmin) hpos
  | some curColor =>
    refine ⟨curColor, ?_⟩
    simp only [Level.new, hcolors, bind, Except.bind, hmin, pure, Except.pure]

/-- A level that is built starts at the beginning, on a graph with a vertex. -/
theorem levelNew_eq_ok {g : ColoredGraph RectangleGridCell} (hwf : g.WF)
    {hints : List (Move RectangleGridCell)} {level : Level RectangleGridCell}
    (h : Level.new ord repo g hints = .ok level) :
    (∃ c, c ∈ g) ∧ ∃ curColor, level = ⟨g, hints, 0, curColor, []⟩ := by
  unfold Level.new at h
  cases hcolors : repo.listColors (g.getColorIds ord) with
  | error e => simp [hcolors, bind, Except.bind] at h
  | ok colors =>
    cases hmin : colors.argmin Color.colorId with
    | none => simp [hcolors, hmin, bind, Except.bind, throw, throwThe, MonadExceptOf.throw] at h
    | some color =>
      simp only [hcolors, hmin, bind, Except.bind, pure, Except.pure, Except.ok.injEq] at h
      refine ⟨?_, color, h.symm⟩
      cases hids : g.getColorIds ord with
      | nil =>
        rw [hids, ColorRepository.listColors, List.mapM_nil] at hcolors
        obtain rfl : [] = colors := Except.ok.inj hcolors
        cases hmin
      | cons id ids =>
        have hid : id ∈ g.getColorIds ord := hids ▸ List.mem_cons_self
        simp only [getColorIds, List.mem_dedup, List.mem_filterMap] at hid
        obtain ⟨c, -, hc⟩ := hid
        exact ⟨c, hwf.mem_of_color hc⟩

theorem foldl_max_eq {α : Type} {f : α → ℤ} {m : ℤ} (l : List α) : ∀ n : ℤ, n ≤ m →
    (∀ x ∈ l, f x ≤ m) → (n = m ∨ ∃ x ∈ l, f x = m) → l.foldl (fun n x => max n (f x)) n = m := by
  induction l with
  | nil =>
    intro n _ _ h
    rcases h with h | ⟨x, hx, -⟩
    · exact h
    · exact absurd hx List.not_mem_nil
  | cons x l ih =>
    intro n hn hl h
    obtain ⟨hx, hl⟩ := List.forall_mem_cons.mp hl
    rw [List.foldl_cons]
    refine ih (max n (f x)) (max_le hn hx) hl ?_
    rcases h with h | ⟨y, hy, hym⟩
    · exact .inl (by rw [h, max_eq_left hx])
    · rcases List.mem_cons.mp hy with rfl | hy
      · exact .inl (by rw [hym, max_eq_right hn])
      · exact .inr ⟨y, hy, hym⟩

/-- The constructor finds the size of a grid. -/
theorem rectangleGridLevelNew_ok {rows cols : ℤ} {g : ColoredGraph RectangleGridCell}
    (hg : IsGrid rows cols g) (hrows : 1 ≤ rows) (hcols : 1 ≤ cols)
    {hints : List (Move RectangleGridCell)} {level : Level RectangleGridCell}
    (h : Level.new ord repo g hints = .ok level) :
    RectangleGridLevel.new ord repo g hints = .ok ⟨level, rows, cols⟩ := by
  have hvertices : ∀ c, c ∈ ord.iterate g.getVertexSet ↔ c ∈ cells rows cols := fun c => by
    rw [ord.mem_iterate, mem_getVertexSet, hg.mem]
  have hlast : (⟨rows - 1, cols - 1⟩ : RectangleGridCell) ∈ cells rows cols := by
    rw [mem_cells]
    dsimp only
    omega
  have hbound := fun c hc => mem_cells.mp ((hvertices c).mp hc)
  have hrow : (ord.iterate g.getVertexSet).foldl (fun n cell => max n cell.row) 0 = rows - 1 :=
    foldl_max_eq _ 0 (by omega) (fun c hc => by have := hbound c hc; omega)
      (.inr ⟨_, (hvertices _).mpr hlast, rfl⟩)
  have hcol : (ord.iterate g.getVertexSet).foldl (fun n cell => max n cell.col) 0 = cols - 1 :=
    foldl_max_eq _ 0 (by omega) (fun c hc => by have := hbound c hc; omega)
      (.inr ⟨_, (hvertices _).mpr hlast, rfl⟩)
  simp only [RectangleGridLevel.new, h, bind, Except.bind, pure, Except.pure, hrow, hcol,
    Int.sub_add_cancel]

/-- The cells of a rectangle, joined as neighbours. -/
theorem buildGrid_ok {rows cols : ℤ} {g : ColoredGraph RectangleGridCell} (hg : g.WF)
    (hmem : ∀ c, c ∈ g ↔ c ∈ cells rows cols) :
    ∃ g', call (buildGraphWithAdjacency ord RectangleGridCell.adjacentTo) g = .ok ((), g') ∧
      IsGrid rows cols g' ∧ g'.colorMap = g.colorMap := by
  obtain ⟨g', hrun, hwf, h⟩ := buildGraphWithAdjacency_spec ord hg
    RectangleGridCell.adjacentTo_symm RectangleGridCell.adjacentTo_irrefl
  refine ⟨g', call_ok hrun, ⟨hwf, fun c => h.mem.trans (hmem c), fun c c' => ?_⟩, h.color⟩
  rw [h.adj, h.mem, h.mem]

/-- **The numbers of a level are read as that level.** -/
theorem readLevel_ok (hd : d.Separates) {rows cols : ℤ} {g : ColoredGraph RectangleGridCell}
    {hints : List (Move RectangleGridCell)} (h : Savable repo rows cols g hints)
    {color : RectangleGridCell → ℤ} (hcolor : ∀ c ∈ cells rows cols, g.colorAt c = some (color c))
    {s : List Char} (hs : Feeds d s (levelNumbers rows cols color hints)) :
    ∃ l s', readLevel loc d ord repo s = .ok l s' ∧ Restores rows cols g hints l ∧
      l.level.curNumTurn = 0 := by
  -- The parts are read one after the other, each from where the one before has stopped.
  obtain ⟨s₁, hrun₁, hs₁⟩ := nextInt_ok loc hd hs
  obtain ⟨s₂, hrun₂, hs₂⟩ := nextInt_ok loc hd hs₁
  have hempty : ∀ c, c ∉ ColoredGraph.new RectangleGridCell := fun c => HashMap.not_mem_empty
  obtain ⟨g₁, s₃, hrun₃, hs₃, hcol₁⟩ := readCells_ok loc hd (cells rows cols)
    (fun c hc => (h.known c _ (hcolor c hc)).nonneg) (nodup_cells rows cols) (.new _) s₂
    (fun c _ => hempty c) hs₂
  obtain ⟨hwf₁, -, hmem₁⟩ := readCells_eq_ok loc _ hrun₃ wf_new fun c id hc => by cases hc
  obtain ⟨g₂, hrun₄, hgrid, hcolors⟩ := buildGrid_ok ord hwf₁
    fun c => (hmem₁ c).trans (or_iff_left (hempty c))
  obtain ⟨s₅, hrun₅, hs₅⟩ := nextInt_ok loc hd hs₃
  obtain ⟨s₆, hrun₆⟩ := readHints_ok loc hd hints h.hint_color s₅ hs₅
  -- Edges leave the colours alone, so that the graph has those of the file.
  have hcol : ∀ c, g₂.colorAt c = g.colorAt c := by
    intro c
    have : g₂.colorAt c = g₁.colorAt c := by rw [colorAt, hcolors]; rfl
    rw [this, hcol₁]
    split
    · rename_i hc
      rw [hcolor c hc]
    · rename_i hc
      refine Eq.trans rfl (HashMap.get_eq_none.mpr ?_).symm
      exact fun hmem => hc ((h.grid.mem c).mp ((h.grid.wf.colored c).mpr hmem))
  have hrows := h.rows_pos
  have hcols := h.cols_pos
  have hne : ∃ c, c ∈ g₂ := ⟨⟨0, 0⟩, by
    rw [hgrid.mem, mem_cells]
    dsimp only
    omega⟩
  obtain ⟨curColor, hnew⟩ := levelNew_ok ord hgrid.wf hne
    (fun c id hc => h.known c id (hcol c ▸ hc)) hints
  refine ⟨⟨⟨g₂, hints, 0, curColor, []⟩, rows, cols⟩, s₆, ?_, ⟨rfl, rfl, hcol, ?_, ?_, rfl⟩, rfl⟩
  · rw [readLevel, bind_ok hrun₁, bind_ok hrun₂, bind_ok hrun₃, hrun₄]
    refine (bind_ok hrun₅).trans ?_
    rw [Int.toNat_natCast]
    refine (bind_ok hrun₆).trans ?_
    rw [rectangleGridLevelNew_ok ord hgrid h.rows_pos h.cols_pos hnew]
    rfl
  · exact fun c => (hgrid.mem c).trans mem_cells
  · intro c c'
    change g₂.Adj c c' ↔ c ∈ g₂ ∧ c' ∈ g₂ ∧ _
    rw [hgrid.adj]
    simp only [RectangleGridCell.adjacentTo, decide_eq_true_eq]
    grind

/-- **Whatever file a level was loaded from, it is a grid at its start.** -/
theorem readLevel_eq_ok {s s' : List Char} {l : RectangleGridLevel}
    (h : readLevel loc d ord repo s = .ok l s') :
    1 ≤ l.numRows ∧ 1 ≤ l.numCols ∧ IsGrid l.numRows l.numCols l.level.graph ∧
      l.level.graph.NonNeg ∧ l.level.curNumTurn = 0 ∧ l.level.mementoStack = [] := by
  obtain ⟨rows, s₁, -, h⟩ := bind_eq_ok.mp h
  obtain ⟨cols, s₂, -, h⟩ := bind_eq_ok.mp h
  obtain ⟨g₁, s₃, hrun₃, h⟩ := bind_eq_ok.mp h
  have hempty : ∀ c, c ∉ ColoredGraph.new RectangleGridCell := fun c => HashMap.not_mem_empty
  obtain ⟨hwf₁, hn₁, hmem₁⟩ := readCells_eq_ok loc _ hrun₃ wf_new fun c id hc => by cases hc
  obtain ⟨g₂, hrun₄, hgrid, hcolors⟩ := buildGrid_ok ord hwf₁
    fun c => (hmem₁ c).trans (or_iff_left (hempty c))
  have hn₂ : g₂.NonNeg := fun c id hc => by
    rw [colorAt, hcolors] at hc
    exact hn₁ c id hc
  rw [hrun₄] at h
  obtain ⟨⟨u, g₃⟩, s₄, hcall, h⟩ := bind_eq_ok.mp h
  obtain ⟨he, -⟩ := pure_eq_ok.mp hcall
  obtain ⟨-, rfl⟩ := Prod.mk.inj he
  obtain ⟨n, s₅, -, h⟩ := bind_eq_ok.mp h
  obtain ⟨hints, s₆, -, h⟩ := bind_eq_ok.mp h
  cases hnew : Level.new ord repo g₂ hints with
  | error e =>
    simp [RectangleGridLevel.new, hnew, bind, Except.bind, MonadExcept.ofExcept] at h
  | ok level =>
    obtain ⟨⟨c, hc⟩, curColor, rfl⟩ := levelNew_eq_ok ord hgrid.wf hnew
    have hbound := mem_cells.mp ((hgrid.mem c).mp hc)
    have hrows : 1 ≤ rows := by omega
    have hcols : 1 ≤ cols := by omega
    rw [rectangleGridLevelNew_ok ord hgrid hrows hcols hnew] at h
    obtain ⟨rfl, -⟩ := pure_eq_ok.mp h
    exact ⟨hrows, hcols, hgrid, hn₂, rfl, rfl⟩

end Reading

/-! ## The two formats -/

theorem toNat_of_isDigit {c : Char} (h : c.isDigit = true) : 48 ≤ c.toNat ∧ c.toNat ≤ 57 := by
  simp only [Char.isDigit, Bool.and_eq_true, decide_eq_true_eq] at h
  exact ⟨UInt32.le_iff_toNat_le.mp h.1, UInt32.le_iff_toNat_le.mp h.2⟩

/-- What stands in an integer is far from white space, commas and semicolons. -/
theorem toNat_of_numeral {c : Char} (h : c = '-' ∨ c.isDigit = true) :
    c.toNat = 45 ∨ (48 ≤ c.toNat ∧ c.toNat ≤ 57) := by
  rcases h with rfl | h
  · exact .inl rfl
  · exact .inr (toNat_of_isDigit h)

theorem isJavaWhitespace_eq_false {c : Char} (h : 33 ≤ c.toNat) (h' : c.toNat ≤ 127) :
    isJavaWhitespace c = false := by
  simp only [isJavaWhitespace, List.mem_cons, List.not_mem_nil, or_false, decide_eq_false_iff_not]
  omega

theorem semicolonOrComma_eq_false {c : Char} (h : c.toNat ≠ 44) (h' : c.toNat ≠ 59) :
    semicolonOrComma.first c = false := by
  simp only [semicolonOrComma, decide_eq_false_iff_not, not_or]
  exact ⟨fun he => h' (by rw [he]; rfl), fun he => h (by rw [he]; rfl)⟩

theorem javaWhitespace_separates : javaWhitespace.Separates := by
  intro c hc
  have hc := toNat_of_numeral hc
  have hspace : isJavaWhitespace c = false := isJavaWhitespace_eq_false (by omega) (by omega)
  exact ⟨hspace, hspace⟩

theorem semicolonOrComma_separates : semicolonOrComma.Separates := by
  intro c hc
  have hc := toNat_of_numeral hc
  refine ⟨semicolonOrComma_eq_false (by omega) (by omega), ?_⟩
  have hspace : c ≠ ' ' := fun he => by rw [he] at hc; exact absurd hc (by decide)
  simp only [semicolonOrComma, decide_eq_false_iff_not, not_or]
  exact ⟨hspace, by omega⟩

/-- What the text format puts behind a number. -/
def textSeps (sep : List Char) : Prop := sep = [' '] ∨ sep = ['\n']

/-- What the comma format puts behind a number. -/
def text2Seps (sep : List Char) : Prop := sep = [','] ∨ sep = [',', '\n']

theorem isSep_of_textSeps (sep : List Char) (h : textSeps sep) : javaWhitespace.IsSep sep := by
  rcases h with rfl | rfl
  · exact ⟨' ', [], rfl, by decide, by simp⟩
  · exact ⟨'\n', [], rfl, by decide, by simp⟩

theorem isSep_of_text2Seps (sep : List Char) (h : text2Seps sep) : semicolonOrComma.IsSep sep := by
  rcases h with rfl | rfl
  · exact ⟨',', [], rfl, by decide, by simp⟩
  · exact ⟨',', ['\n'], rfl, by decide, by simp [semicolonOrComma]⟩

section Formats

variable (loc : ScanLocale) (ord : HashOrder RectangleGridCell) (repo : ColorRepository)

theorem loadFile_mismatch {d : Delimiter} {file : List Char}
    (h : Lib.Scanner.nextInt loc d file = .error .inputMismatch) :
    loadFile loc d ord repo file = .error (.runtime .inputMismatch) := by
  have hnext : nextInt loc d file = .error .inputMismatch file := by rw [nextInt, h]
  have hread : readLevel loc d ord repo file = .error .inputMismatch file := bind_error hnext
  rw [loadFile, hread]

/-- A space-separated file is one token to the comma loader. -/
theorem text2_rejects {file : List Char} {zs : List ℤ} (h : Laid textSeps file zs) (hzs : zs ≠ []) :
    Text2RectangleGridLevelRepository.loadLevel loc ord repo file =
      .error (.runtime .inputMismatch) := by
  have hsep : ∀ sep, textSeps sep → ∀ c ∈ sep, c = ' ' ∨ c = '\n' := by
    rintro sep (rfl | rfl) c hc
    · exact .inl (List.mem_singleton.mp hc)
    · exact .inr (List.mem_singleton.mp hc)
  obtain ⟨sep, c, hseps, hc, hlast⟩ := h.getLast? hzs (by rintro sep (rfl | rfl) <;> simp)
  have hfirst : ∀ c ∈ file, semicolonOrComma.first c = false := by
    intro c hc
    rcases h.mem hc with hnum | ⟨sep, hseps, hc⟩
    · exact (semicolonOrComma_separates c hnum).1
    · rcases hsep sep hseps c hc with rfl | rfl <;> decide
  have hnext : semicolonOrComma.next (file ++ []) = some (file, []) :=
    Delimiter.next_token (fun he => by simp [he] at hlast) hfirst (by simp)
  rw [List.append_nil] at hnext
  rcases hsep sep hseps c (List.mem_of_getLast? hc) with rfl | rfl
  · exact loadFile_mismatch loc ord repo (nextInt_mismatch loc hnext hlast (by decide) (by decide))
  · exact loadFile_mismatch loc ord repo (nextInt_mismatch loc hnext hlast (by decide) (by decide))

/-- The first line of a comma-separated file is one token to the other loader. -/
theorem text_rejects (rows cols : ℤ) (file : List Char) :
    TextRectangleGridLevelRepository.loadLevel loc ord repo
      (intToString rows ++ [','] ++ (intToString cols ++ [',', '\n'] ++ file)) =
      .error (.runtime .inputMismatch) := by
  have hchars : ∀ c ∈ intToString rows ++ [','] ++ (intToString cols ++ [',']),
      javaWhitespace.first c = false := by
    intro c hc
    simp only [List.mem_append, List.mem_singleton] at hc
    rcases hc with (hc | rfl) | hc | rfl
    · exact (javaWhitespace_separates c (isDigit_intToString hc)).1
    · decide
    · exact (javaWhitespace_separates c (isDigit_intToString hc)).1
    · decide
  have hnext : javaWhitespace.next
      ((intToString rows ++ [','] ++ (intToString cols ++ [','])) ++ '\n' :: file) = _ :=
    Delimiter.next_token (by simp) hchars (by simp; decide)
  have hfile : intToString rows ++ [','] ++ (intToString cols ++ [',', '\n'] ++ file) =
      (intToString rows ++ [','] ++ (intToString cols ++ [','])) ++ '\n' :: file := by simp
  rw [hfile]
  exact loadFile_mismatch loc ord repo
    (nextInt_mismatch loc hnext (c := ',') (by rw [← List.append_assoc, List.getLast?_concat])
      (by decide) (by decide))

variable {repo} {rows cols : ℤ} {g : ColoredGraph RectangleGridCell}
  {hints : List (Move RectangleGridCell)}

theorem known_of_getColor {id : ℤ} {color : Color} (h : repo.getColor id = .ok color) :
    Known repo id := by
  unfold ColorRepository.getColor at h
  split at h
  · exact ⟨_, ‹_›⟩
  · cases h

/-- Every number of a level is an `int`. -/
theorem Savable.inRange (h : Savable repo rows cols g hints) {color : RectangleGridCell → ℤ}
    (hcolor : ∀ c ∈ cells rows cols, g.colorAt c = some (color c)) :
    ∀ z ∈ levelNumbers rows cols color hints, InRange z := by
  have hrows := h.rows_pos
  have hcols := h.cols_pos
  have hbound := h.cells_int
  have hrow : rows ≤ rows * cols := le_mul_of_one_le_right (by omega) hcols
  have hcol : cols ≤ rows * cols := le_mul_of_one_le_left (by omega) hrows
  have hcolorInt : ∀ id, Known repo id → InRange id := fun id hid =>
    ⟨by have := hid.nonneg; omega, h.colors_int id hid⟩
  intro z hz
  simp only [levelNumbers, List.mem_cons, List.mem_append, List.mem_map, List.mem_flatMap] at hz
  rcases hz with rfl | rfl | ⟨c, hc, rfl⟩ | rfl | ⟨m, hm, hz⟩
  · exact ⟨by omega, by omega⟩
  · exact ⟨by omega, by omega⟩
  · exact hcolorInt _ (h.known c _ (hcolor c hc))
  · exact ⟨by omega, h.hints_int⟩
  · have hv := mem_cells.mp ((h.grid.mem _).mp (h.hint_vertex m hm))
    simp only [Move.numbers, List.mem_cons, List.not_mem_nil, or_false] at hz
    rcases hz with rfl | rfl | rfl
    · exact hcolorInt _ (known_of_getColor (h.hint_color m hm))
    · exact ⟨by omega, by omega⟩
    · exact ⟨by omega, by omega⟩

theorem loadFile_ok {d : Delimiter} (hd : d.Separates) (h : Savable repo rows cols g hints)
    {color : RectangleGridCell → ℤ} (hcolor : ∀ c ∈ cells rows cols, g.colorAt c = some (color c))
    {seps : List Char → Prop} (hseps : ∀ sep, seps sep → d.IsSep sep) {file : List Char}
    (hfile : Laid seps file (levelNumbers rows cols color hints)) :
    ∃ l, loadFile loc d ord repo file = .ok l ∧ Restores rows cols g hints l ∧
      l.level.curNumTurn = 0 := by
  obtain ⟨l, s', hrun, hl⟩ := readLevel_ok loc ord hd h hcolor
    (hfile.feeds hseps (h.inRange hcolor))
  refine ⟨l, ?_, hl⟩
  rw [loadFile, hrun]

/-- The colours of a grid, as a function. -/
theorem Savable.exists_color (h : Savable repo rows cols g hints) :
    ∃ color : RectangleGridCell → ℤ, ∀ c ∈ cells rows cols, g.colorAt c = some (color c) := by
  have hcolor : ∀ c, ∃ id : ℤ, c ∈ cells rows cols → g.colorAt c = some id := by
    intro c
    by_cases hc : c ∈ cells rows cols
    · obtain ⟨id, hid⟩ := h.grid.wf.exists_color ((h.grid.mem c).mpr hc)
      exact ⟨id, fun _ => hid⟩
    · exact ⟨0, fun hc' => absurd hc' hc⟩
  exact ⟨fun c => (hcolor c).choose, fun c => (hcolor c).choose_spec⟩

/-- A file of the space-separated format. -/
theorem text_saves (h : Savable repo rows cols g hints) :
    ∃ text l, writeLevel [' '] ['\n'] repo g rows cols hints = .ok text ∧
      (∃ color, Laid textSeps text (levelNumbers rows cols color hints)) ∧
      TextRectangleGridLevelRepository.loadLevel loc ord repo text = .ok l ∧
      Restores rows cols g hints l ∧ l.level.curNumTurn = 0 := by
  obtain ⟨color, hcolor⟩ := h.exists_color
  obtain ⟨rest, hrun, hlaid⟩ := writeLevel_laid h.grid.wf h.known
    (show textSeps [' '] from .inl rfl) (.inr rfl) h.cols_pos hcolor hints
  obtain ⟨l, hload, hl⟩ := loadFile_ok loc ord javaWhitespace_separates h hcolor
    isSep_of_textSeps hlaid
  exact ⟨_, l, hrun, ⟨color, hlaid⟩, hload, hl⟩

/-- A file of the comma-separated format. -/
theorem text2_saves (h : Savable repo rows cols g hints) :
    ∃ rest l, writeLevel [','] [',', '\n'] repo g rows cols hints =
        .ok (intToString rows ++ [','] ++ (intToString cols ++ [',', '\n'] ++ rest)) ∧
      Text2RectangleGridLevelRepository.loadLevel loc ord repo
        (intToString rows ++ [','] ++ (intToString cols ++ [',', '\n'] ++ rest)) = .ok l ∧
      Restores rows cols g hints l ∧ l.level.curNumTurn = 0 := by
  obtain ⟨color, hcolor⟩ := h.exists_color
  obtain ⟨rest, hrun, hlaid⟩ := writeLevel_laid h.grid.wf h.known
    (show text2Seps [','] from .inl rfl) (.inr rfl) h.cols_pos hcolor hints
  obtain ⟨l, hload, hl⟩ := loadFile_ok loc ord semicolonOrComma_separates h hcolor
    isSep_of_text2Seps hlaid
  exact ⟨rest, l, hrun, hload, hl⟩

/-- **The codec.** Both savers of a format write the same file, every order of the two loaders loads
either format as it was saved, and neither loader takes a file of the other. -/
theorem levelCodec_roundTrip (loc : ScanLocale) (ord : HashOrder RectangleGridCell)
    {repo : ColorRepository} {b : RectangleGridLevelBuilder} {hints : List (Move RectangleGridCell)}
    (h : Savable repo b.numRows b.numCols b.graph hints) :
    ∃ text text2,
      TextRectangleGridLevelRepository.saveLevelBuilder repo b hints = .ok text ∧
      Text2RectangleGridLevelRepository.saveLevelBuilder repo b hints = .ok text2 ∧
      (∀ l : RectangleHintInputLevel, l.graph = b.graph → l.numRows = b.numRows →
        l.numCols = b.numCols → l.hintList = hints →
        TextRectangleGridLevelRepository.saveLevelHint repo l = .ok text ∧
          Text2RectangleGridLevelRepository.saveLevelHint repo l = .ok text2) ∧
      (∀ file ∈ [text, text2],
        (∃ l, LevelRepository.loadLevel (TextRectangleGridLevelRepository.loadLevel loc ord repo)
            [Text2RectangleGridLevelRepository.loadLevel loc ord repo] file = .ok l ∧
          Restores b.numRows b.numCols b.graph hints l) ∧
        ∃ l, LevelRepository.loadLevel (Text2RectangleGridLevelRepository.loadLevel loc ord repo)
            [TextRectangleGridLevelRepository.loadLevel loc ord repo] file = .ok l ∧
          Restores b.numRows b.numCols b.graph hints l) ∧
      TextRectangleGridLevelRepository.loadLevel loc ord repo text2 =
        .error (.runtime .inputMismatch) ∧
      Text2RectangleGridLevelRepository.loadLevel loc ord repo text =
        .error (.runtime .inputMismatch) := by
  obtain ⟨text, l, hsave, ⟨color, hlaid⟩, hload, hl, -⟩ := text_saves loc ord h
  obtain ⟨rest, l₂, hsave₂, hload₂, hl₂, -⟩ := text2_saves loc ord h
  have hreject := text_rejects loc ord repo b.numRows b.numCols rest
  have hreject₂ := text2_rejects loc ord repo hlaid (List.cons_ne_nil _ _)
  refine ⟨text, _, ?_, ?_, ?_, ?_, hreject, hreject₂⟩
  · rw [TextRectangleGridLevelRepository.saveLevelBuilder, saveBuilder, hsave]
    rfl
  · rw [Text2RectangleGridLevelRepository.saveLevelBuilder, saveBuilder, hsave₂]
    rfl
  · intro l hg hrows hcols hhints
    rw [TextRectangleGridLevelRepository.saveLevelHint,
      Text2RectangleGridLevelRepository.saveLevelHint, saveHint, saveHint, hg, hrows, hcols, hhints]
    exact ⟨hsave, hsave₂⟩
  · simp only [List.forall_mem_cons, LevelRepository.loadLevel, hload, hload₂, hreject, hreject₂]
    exact ⟨⟨⟨l, rfl, hl⟩, l, rfl, hl⟩, ⟨⟨l₂, rfl, hl₂⟩, l₂, rfl, hl₂⟩, by simp⟩

end Formats

/-! ## A pair of cells -/

theorem known_twoColors {id : ℤ} (h : Known twoColors id) : id < 2 := by
  obtain ⟨color, h⟩ := h
  simp only [twoColors, HashMap.get_put] at h
  split at h
  · omega
  · split at h
    · omega
    · cases h

/-- A red and a blue cell in a row, as a level to save. -/
theorem exists_pair : ∃ b : RectangleGridLevelBuilder, b.numRows = 1 ∧ b.numCols = 2 ∧
    ∀ hints : List (Move RectangleGridCell), (hints.length : ℤ) < 2 ^ 31 →
      (∀ m ∈ hints, m.vertex ∈ cells 1 2 ∧ twoColors.getColor m.color.colorId = .ok m.color) →
      Savable twoColors b.numRows b.numCols b.graph hints := by
  obtain ⟨b, -, hgrid, hrows, hcols, hcol⟩ := RectangleGridLevelBuilder.exists_painted (.insertion _)
    (.insertion _) twoColors (by decide) 1 2
    fun c => if c.col = 0 then ⟨0, 255, 0, 0⟩ else ⟨1, 0, 0, 255⟩
  refine ⟨b, hrows, hcols, fun hints hlen hhints => ?_⟩
  rw [hrows, hcols]
  refine ⟨by decide, by decide, hgrid, fun c id hid => ?_, fun m hm => (hgrid.mem _).mpr (hhints m hm).1,
    fun m hm => (hhints m hm).2, by decide, hlen,
    fun id hid => lt_trans (known_twoColors hid) (by decide)⟩
  rw [hcol] at hid
  split at hid
  · split at hid
    · obtain rfl := Option.some.inj hid
      exact ⟨⟨0, 255, 0, 0⟩, rfl⟩
    · obtain rfl := Option.some.inj hid
      exact ⟨⟨1, 0, 0, 255⟩, rfl⟩
  · cases hid

/-- The pair, with the hint to paint its first cell blue, is saved and loaded in either format. -/
theorem levelCodec_roundTrip_pair : ∃ b : RectangleGridLevelBuilder, ∃ text l,
    b.numRows = 1 ∧ b.numCols = 2 ∧
    Text2RectangleGridLevelRepository.saveLevelBuilder twoColors b
      [⟨⟨1, 0, 0, 255⟩, ⟨0, 0⟩⟩] = .ok text ∧
    LevelRepository.loadLevel (TextRectangleGridLevelRepository.loadLevel .ascii (.insertion _) twoColors)
      [Text2RectangleGridLevelRepository.loadLevel .ascii (.insertion _) twoColors] text = .ok l ∧
    Restores 1 2 b.graph [⟨⟨1, 0, 0, 255⟩, ⟨0, 0⟩⟩] l := by
  obtain ⟨b, hrows, hcols, hsavable⟩ := exists_pair
  have hhint := hsavable [⟨⟨1, 0, 0, 255⟩, ⟨0, 0⟩⟩] (by decide) fun m hm => by
    rw [List.mem_singleton.mp hm]
    exact ⟨by decide, rfl⟩
  obtain ⟨text, text2, -, hsave, -, hload, -⟩ := levelCodec_roundTrip .ascii (.insertion _) hhint
  obtain ⟨l, hl, hrestores⟩ := (hload text2 (by simp)).1
  rw [hrows, hcols] at hrestores
  exact ⟨b, text2, l, hrows, hcols, hsave, hl, hrestores⟩

end UnionCollegeCode.Kami3
