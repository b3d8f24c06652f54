import UnionCollegeCode.Lib.Slots
import UnionCollegeCode.OS161.Files.Syscalls

/-!
# `file_table_add`

One loop looks for a slot in two tables. A file that is in neither gets the first free slot of each, or
none; a file that has a master slot gets one of its own table, but where there is none the rollback
takes its master slot away too.
-/

set_option autoImplicit false

namespace UnionCollegeCode.OS161.Files

open Function (update)
open Lib.EState

/-! ## Statements that end -/

section Statements

variable {s s' : FileKernel} {p : Ptr} {l : LockId} {u : Unit}

theorem derefFile_eq_ok {f : File} : derefFile p s = .ok f s' ↔ s.files p = some f ∧ s = s' := by
  rw [eq_ok_iff_wp, wp_derefFile]
  cases s.files p <;> simp

theorem derefTable_eq_ok {t : FileTable} :
    derefTable p s = .ok t s' ↔ s.tables p = some t ∧ s = s' := by
  rw [eq_ok_iff_wp, wp_derefTable]
  cases s.tables p <;> simp

theorem nonNull_eq_ok {o : Option Ptr} {q : Ptr} : nonNull o s = .ok q s' ↔ o = some q ∧ s = s' := by
  rw [eq_ok_iff_wp, wp_nonNull]
  cases o <;> simp

theorem lockAcquire_eq_ok :
    lockAcquire l s = .ok u s' ↔ l ∉ s.held ∧ s.setHeld (l :: s.held) = s' := by
  rw [eq_ok_iff_wp, wp_lockAcquire]
  by_cases h : l ∈ s.held <;> simp [h]

theorem lockRelease_eq_ok :
    lockRelease l s = .ok u s' ↔ l ∈ s.held ∧ s.setHeld (s.held.erase l) = s' := by
  rw [eq_ok_iff_wp, wp_lockRelease]
  by_cases h : l ∈ s.held <;> simp [h]

theorem vopIncref_eq_ok {v : Ptr} : vopIncref (some v) s = .ok u s' ↔
    s.vnRefcount v ≠ 0 ∧ s.setCount v (s.vnRefcount v + 1) = s' := by
  rw [eq_ok_iff_wp, wp_vopIncref]
  by_cases h : s.vnRefcount v = 0 <;> simp [h]

theorem vopDecref_eq_ok {v : Ptr} : vopDecref (some v) s = .ok u s' ↔
    s.vnRefcount v ≠ 0 ∧ s.setCount v (s.vnRefcount v - 1) = s' := by
  rw [eq_ok_iff_wp, wp_vopDecref]
  by_cases h : s.vnRefcount v = 0 <;> simp [h]

theorem vopIncref_ok {o : Option Ptr} (h : vopIncref o s = .ok u s') :
    ∃ v, o = some v ∧ s.vnRefcount v ≠ 0 ∧ s.setCount v (s.vnRefcount v + 1) = s' := by
  cases o with
  | none =>
    simp only [vopIncref, derefVnode, bind_eq_ok, nonNull_eq_ok] at h
    obtain ⟨_, _, ⟨_, _, ⟨habs, -⟩, -⟩, -⟩ := h
    cases habs
  | some v => exact ⟨v, rfl, vopIncref_eq_ok.mp h⟩

theorem indexed_eq_ok {fd : ℤ} :
    indexed fd s = .ok u s' ↔ (0 ≤ fd ∧ fd < openMax) ∧ s = s' := by
  rw [eq_ok_iff_wp, wp_indexed]
  by_cases h : 0 ≤ fd ∧ fd < openMax <;> simp [h]

theorem fileLockAcquire_eq_ok : fileLockAcquire p s = .ok u s' ↔
    s.files p ≠ none ∧ .file p ∉ s.held ∧ s.setHeld (.file p :: s.held) = s' := by
  rw [eq_ok_iff_wp, fileLockAcquire, wp_bind, wp_derefFile]
  by_cases h : .file p ∈ s.held <;> cases s.files p <;> simp [wp_lockAcquire, h]

theorem fileLockRelease_eq_ok : fileLockRelease p s = .ok u s' ↔
    s.files p ≠ none ∧ .file p ∈ s.held ∧ s.setHeld (s.held.erase (.file p)) = s' := by
  rw [eq_ok_iff_wp, fileLockRelease, wp_bind, wp_derefFile]
  by_cases h : .file p ∈ s.held <;> cases s.files p <;> simp [wp_lockRelease, h]

theorem tableLockAcquire_eq_ok : tableLockAcquire p s = .ok u s' ↔
    s.tables p ≠ none ∧ .table p ∉ s.held ∧ s.setHeld (.table p :: s.held) = s' := by
  rw [eq_ok_iff_wp, tableLockAcquire, wp_bind, wp_derefTable]
  by_cases h : .table p ∈ s.held <;> cases s.tables p <;> simp [wp_lockAcquire, h]

theorem tableLockRelease_eq_ok : tableLockRelease p s = .ok u s' ↔
    s.tables p ≠ none ∧ .table p ∈ s.held ∧ s.setHeld (s.held.erase (.table p)) = s' := by
  rw [eq_ok_iff_wp, tableLockRelease, wp_bind, wp_derefTable]
  by_cases h : .table p ∈ s.held <;> cases s.tables p <;> simp [wp_lockRelease, h]

/-- A lookup that ends has found what the descriptor refers to. -/
theorem fileTableLookup_ok {fileT r : Option Ptr} {fd : ℤ} (hs : s.held = [])
    (hfd : minFd ≤ fd ∧ fd < openMax) (h : fileTableLookup fileT fd s = .ok r s') :
    r = s.descriptor fileT fd ∧ s' = s := by
  rw [eq_ok_iff_wp, wp_fileTableLookup hs hfd] at h
  obtain ⟨hnone, hsome⟩ := h
  cases fileT with
  | none =>
    obtain ⟨rfl, rfl⟩ := hnone rfl
    exact ⟨rfl, rfl⟩
  | some q =>
    obtain ⟨hfound, hmissing⟩ := hsome q rfl
    cases ht : s.tables q with
    | none => exact (hmissing ht).elim
    | some t =>
      obtain ⟨rfl, rfl⟩ := hfound t ht
      exact ⟨by simp [FileKernel.descriptor, ht], rfl⟩

/-- A `file_destroy` that ends had a file, on a vnode in memory. -/
theorem fileDestroy_ok {r : ℤ} (h : fileDestroy (some p) s = .ok r s') :
    ∃ f v, s.files p = some f ∧ f.fileVnode = some v ∧ s.vnRefcount v ≠ 0 ∧
      s' = s.dropFile p f v := by
  have hp : LockId.file p ∉ s.held := by
    simp only [fileDestroy, bind_eq_ok, fileLockAcquire_eq_ok] at h
    obtain ⟨_, _, ⟨-, hp, -⟩, -⟩ := h
    exact hp
  rw [eq_ok_iff_wp] at h
  by_cases hfile : ∃ f v, s.files p = some f ∧ f.fileVnode = some v ∧ s.vnRefcount v ≠ 0
  · obtain ⟨f, v, hf, hv, hn⟩ := hfile
    rw [wp_fileDestroy (E := fun _ => False) hp hf hv hn] at h
    refine ⟨f, v, hf, hv, hn, ?_⟩
    refine (h.2 fun hlast => ?_).2.symm
    obtain ⟨hmaster, hrange⟩ := h.1 hlast
    have hfree : LockId.master ∉ s.held := hmaster
    exact ⟨hfree, Classical.not_not.mp (hrange hfree)⟩
  · rw [wp_fileDestroy_fault (E := fun _ => False) hp hfile] at h
    exact h.elim

end Statements

/-! ## `file_table_add` -/

/-- A file given slot `m` of the master table and slot `l` of table `q`, each if there is one. -/
def FileKernel.given (s : FileKernel) (q p : Ptr) (t : FileTable) (f : File) (v : Ptr)
    (m l : Option ℤ) : FileKernel :=
  let s₁ := match m with
    | none => s
    | some i => (s.setMaster i (some p)).setFile p (some { f with masterFd := i })
  match l with
  | none => s₁
  | some i => (s₁.setTable q (some { t with fileArr := update t.fileArr i (some p) })).setCount v
      (s.vnRefcount v + 1)

/-- A file that is open on `v`, and in no table yet; a table to put it in. -/
structure Adding (s : FileKernel) (q p : Ptr) (t : FileTable) (f : File) (v : Ptr) : Prop where
  file : s.files p = some f
  floating : f.masterFd = floatingFile
  vnode : f.fileVnode = some v
  table : s.tables q = some t

section Add

open Lib.Slots (free firstFree LeastFree leastFree_of_firstFree firstFree_eq_some firstFree_eq_none)

variable {s s' : FileKernel} {q p : Ptr} {t : FileTable} {f : File} {v : Ptr} {m l : Option ℤ}

theorem given_files (h : Adding s q p t f v) :
    (s.given q p t f v m l).files p = some { f with masterFd := m.getD floatingFile } := by
  have hf : f = { f with masterFd := floatingFile } := by rw [← h.floating]
  cases m <;> cases l <;>
    simp [FileKernel.given, FileKernel.setFile, FileKernel.setMaster, FileKernel.setTable,
      FileKernel.setCount, h.file]
  all_goals exact hf

theorem given_tables (h : Adding s q p t f v) : (s.given q p t f v m none).tables q = some t := by
  cases m <;> exact h.table

theorem given_table_local {i : ℤ} : (s.given q p t f v m (some i)).tables q =
    some { t with fileArr := update t.fileArr i (some p) } := by
  cases m <;> simp [FileKernel.given, FileKernel.setTable, FileKernel.setCount]

theorem given_count_local {i : ℤ} :
    (s.given q p t f v m (some i)).vnRefcount v = s.vnRefcount v + 1 := by
  cases m <;> simp [FileKernel.given, FileKernel.setCount]

/-! ### A round of the loop -/

theorem addMaster_eq {i : ℤ} (h : Adding s q p t f v) (hm : ∀ j, m = some j → j ≠ floatingFile) :
    addMaster p i (s.given q p t f v m l) =
      .ok () (s.given q p t f v (m.or (free s.master.fileArr i)) l) := by
  rw [addMaster, bind_ok (derefFile_eq_ok.mpr ⟨given_files h, rfl⟩),
    bind_ok get_ok]
  cases m with
  | some j =>
    have hj := hm j rfl
    rw [if_neg fun hboth => hj hboth.2]
    rfl
  | none =>
    have hmaster : (s.given q p t f v none l).master = s.master := by cases l <;> rfl
    rw [hmaster]
    by_cases hfree : s.master.fileArr i = none
    · rw [if_pos ⟨hfree, rfl⟩]
      simp only [free, hfree, Option.isNone_none, if_true, Option.none_or]
      cases l <;> rfl
    · rw [if_neg fun hboth => hfree hboth.1]
      simp [free, hfree, pure, EStateM.pure]

theorem addLocal_eq {i : ℤ} (h : Adding s q p t f v) (hn : s.vnRefcount v ≠ 0)
    (hl : ∀ j, l = some j → minFd ≤ j) :
    addLocal q p i (l.getD floatingFile) (s.given q p t f v m l) =
      .ok ((l.or (free t.fileArr i)).getD floatingFile)
        (s.given q p t f v m (l.or (free t.fileArr i))) := by
  rw [addLocal, bind_ok (derefFile_eq_ok.mpr ⟨given_files h, rfl⟩)]
  cases l with
  | some j =>
    rw [bind_ok (derefTable_eq_ok.mpr ⟨given_table_local, rfl⟩),
      if_neg fun hboth => Int.not_lt.mpr (hl j rfl) hboth.2]
    rfl
  | none =>
    rw [bind_ok (derefTable_eq_ok.mpr ⟨given_tables h, rfl⟩)]
    by_cases hfree : t.fileArr i = none
    · have hcount : (s.given q p t f v m none).vnRefcount v ≠ 0 := by
        cases m <;> exact hn
      have hincref : ∀ t', vopIncref (some v) ((s.given q p t f v m none).setTable q t') =
          .ok () (((s.given q p t f v m none).setTable q t').setCount v
            ((s.given q p t f v m none).vnRefcount v + 1)) :=
        fun t' => vopIncref_eq_ok.mpr ⟨hcount, rfl⟩
      rw [if_pos ⟨hfree, (by decide : floatingFile < minFd)⟩, bind_ok modify_ok, h.vnode,
        bind_ok (hincref _)]
      simp only [free, hfree, Option.isNone_none, if_true, Option.none_or, Option.getD_some]
      cases m <;> rfl
    · rw [if_neg fun hboth => hfree hboth.1]
      simp [free, hfree, pure, EStateM.pure]

/-- The loop gives the file the first free slot of each table. -/
theorem addFrom_eq {n : ℕ} (h : Adding s q p t f v) (hn : s.vnRefcount v ≠ 0) :
    ∀ {m l : Option ℤ} {i : ℤ}, minFd ≤ i → (∀ j, m = some j → minFd ≤ j) →
    (∀ j, l = some j → minFd ≤ j) → (m = none ∨ l = none) →
    addFrom q p n i (l.getD floatingFile) (s.given q p t f v m l) =
      .ok ((l.or (firstFree t.fileArr n i)).getD floatingFile,
          (m.or (firstFree s.master.fileArr n i)).isSome &&
            (l.or (firstFree t.fileArr n i)).isSome)
        (s.given q p t f v (m.or (firstFree s.master.fileArr n i))
          (l.or (firstFree t.fileArr n i))) := by
  have hlow : ∀ {j}, minFd ≤ j → j ≠ floatingFile := by
    intro j hj habs
    rw [habs] at hj
    exact absurd hj (by decide)
  induction n with
  | zero =>
    intro m l i _ _ _ hone
    rcases hone with rfl | rfl <;> simp [addFrom, firstFree, pure, EStateM.pure]
  | succ n ih =>
    intro m l i hi hm hl hone
    have hfree : ∀ (arr : ℤ → Option Ptr) {o : Option ℤ}, (∀ j, o = some j → minFd ≤ j) →
        ∀ j, o.or (free arr i) = some j → minFd ≤ j := by
      intro arr o ho j hj
      cases o with
      | some k => exact ho j hj
      | none =>
        simp only [free, Option.none_or] at hj
        split at hj <;> cases hj
        exact hi
    rw [addFrom, bind_ok (addMaster_eq h fun j hj => hlow (hm j hj)), bind_ok (addLocal_eq h hn hl),
      bind_ok (derefFile_eq_ok.mpr ⟨given_files h, rfl⟩)]
    have hm' := hfree s.master.fileArr hm
    have hl' := hfree t.fileArr hl
    simp only [firstFree, ← Option.or_assoc]
    revert hm' hl'
    -- Each side keeps what it has, or takes the slot if it has none.
    generalize m.or (free s.master.fileArr i) = m'
    generalize l.or (free t.fileArr i) = l'
    intro hm' hl'
    split
    case isTrue hboth =>
      obtain ⟨hfd, hmfd⟩ := hboth
      cases m' with
      | none => exact absurd rfl hmfd
      | some a =>
        cases l' with
        | none => exact absurd hfd (by decide)
        | some b => rfl
    -- One side still has none, and the loop goes on for that side alone.
    case isFalse hnot =>
      have hone' : m' = none ∨ l' = none := by
        cases m' with
        | none => exact Or.inl rfl
        | some a =>
          cases l' with
          | none => exact Or.inr rfl
          | some b => exact absurd ⟨hl' b rfl, hlow (hm' a rfl)⟩ hnot
      exact ih (Int.le_trans hi (by omega)) hm' hl' hone'

/-! ### The rollback -/

/-- No slot left for another file. -/
def FileKernel.Full (s : FileKernel) (procFt : Option Ptr) : Prop :=
  s.master.numFiles = openMax ∨
    (∀ fd, minFd ≤ fd → fd < openMax → s.master.fileArr fd ≠ none) ∨
    ∀ fd, minFd ≤ fd → fd < openMax → s.descriptor procFt fd ≠ none

theorem setHeld_self {held : List LockId} (h : s.held = held) : s.setHeld held = s := by
  rw [← h]
  rfl

theorem given_setHeld {held : List LockId} :
    (s.setHeld held).given q p t f v m l = (s.given q p t f v m l).setHeld held := by
  cases m <;> cases l <;> rfl

theorem given_held : (s.given q p t f v m l).held = s.held := by
  cases m <;> cases l <;> rfl

/-- The slot of table `q` and the reference that goes with it are given back. -/
theorem undoLocal_eq (h : Adding s q p t f v) (hl : ∀ j, l = some j → minFd ≤ j)
    (hfree : ∀ j, l = some j → t.fileArr j = none) :
    undoLocal q p (l.getD floatingFile) (s.given q p t f v m l) = .ok () (s.given q p t f v m none) := by
  cases l with
  | none =>
    rw [undoLocal, if_neg (by decide)]
    rfl
  | some i =>
    have htables : update s.tables q (some t) = s.tables := by simp [h.table]
    have harr : update t.fileArr i none = t.fileArr := by simp [hfree i rfl]
    have hcount : (s.given q p t f v m (some i)).vnRefcount v ≠ 0 := by
      rw [given_count_local]
      exact Nat.succ_ne_zero _
    have hsame : ((s.given q p t f v m (some i)).setTable q (some t)).setCount v (s.vnRefcount v) =
        s.given q p t f v m none := by
      cases m <;>
        simp [FileKernel.given, FileKernel.setTable, FileKernel.setCount, FileKernel.setMaster,
          FileKernel.setFile, htables]
    have hfile : derefFile p ((s.given q p t f v m (some i)).setTable q (some t)) =
        .ok { f with masterFd := m.getD floatingFile }
          ((s.given q p t f v m (some i)).setTable q (some t)) := by
      apply derefFile_eq_ok.mpr
      have hfiles : (s.given q p t f v m (some i)).files p = _ := given_files h
      exact ⟨hfiles, rfl⟩
    have hdecref : vopDecref (some v) ((s.given q p t f v m (some i)).setTable q (some t)) =
        .ok () (((s.given q p t f v m (some i)).setTable q (some t)).setCount v (s.vnRefcount v)) := by
      apply vopDecref_eq_ok.mpr
      refine ⟨hcount, ?_⟩
      show FileKernel.setCount _ v ((s.given q p t f v m (some i)).vnRefcount v - 1) = _
      rw [given_count_local]
      rfl
    rw [undoLocal, Option.getD_some, if_pos (hl i rfl),
      bind_ok (derefTable_eq_ok.mpr ⟨given_table_local, rfl⟩), bind_ok modify_ok]
    simp only [Function.update_idem, harr]
    rw [bind_ok hfile, h.vnode, hdecref, hsame]

/-- So is the master slot. -/
theorem undoMaster_eq (h : Adding s q p t f v) (hm : ∀ j, m = some j → minFd ≤ j ∧ j < openMax)
    (hfree : ∀ j, m = some j → s.master.fileArr j = none) :
    undoMaster p (s.given q p t f v m none) = .ok () s := by
  rw [undoMaster, bind_ok (derefFile_eq_ok.mpr ⟨given_files h, rfl⟩)]
  cases m with
  | none =>
    rw [if_neg (by simp)]
    rfl
  | some j =>
    have hj : j ≠ floatingFile := fun habs => absurd (habs ▸ (hm j rfl).1) (by decide)
    have hrange : 0 ≤ j ∧ j < openMax := ⟨Int.le_trans (by decide) (hm j rfl).1, (hm j rfl).2⟩
    have harr : update s.master.fileArr j none = s.master.fileArr := by simp [hfree j rfl]
    have hfile : some { f with masterFd := floatingFile } = s.files p := by
      rw [← h.floating, h.file]
    have hfiles : update s.files p (some { f with masterFd := floatingFile }) = s.files := by
      rw [hfile]
      exact Function.update_eq_self p s.files
    have hindexed : indexed j (s.given q p t f v (some j) none) =
        .ok () (s.given q p t f v (some j) none) := indexed_eq_ok.mpr ⟨hrange, rfl⟩
    simp only [Option.getD_some]
    rw [if_pos hj, bind_ok hindexed, modify_ok]
    simp [FileKernel.given, FileKernel.setMaster, FileKernel.setFile, harr, hfiles]

/-! ### The whole call -/

/-- What `file_table_add` does with what its loop has found. -/
def addEnd (q p : Ptr) (fd : ℤ) (both : Bool) : FileM ℤ := do
  if both then
    lockRelease .master
    tableLockRelease q
    fileLockRelease p
    return fd
  else
    undoLocal q p fd
    undoMaster p
    lockRelease .master
    tableLockRelease q
    fileLockRelease p
    return -1

/-- Past the check and the locks. -/
theorem fileTableAdd_locked (hs : s.held = []) (hf : s.files p = some f) (hv : f.fileVnode = some v)
    (ht : s.tables q = some t) (hnum : s.master.numFiles ≠ openMax) :
    fileTableAdd (some q) (some p) s =
      (do
        let (fd, both) ← addFrom q p 125 minFd floatingFile
        addEnd q p fd both) (s.setHeld [.master, .table q, .file p]) := by
  have hfile : fileLockAcquire p s = .ok () (s.setHeld [.file p]) := by
    apply fileLockAcquire_eq_ok.mpr
    simp [hf, hs]
  have htable : tableLockAcquire q (s.setHeld [.file p]) = .ok () (s.setHeld [.table q, .file p]) := by
    apply tableLockAcquire_eq_ok.mpr
    simp [FileKernel.setHeld, ht]
  have hmaster : lockAcquire .master (s.setHeld [.table q, .file p]) =
      .ok () (s.setHeld [.master, .table q, .file p]) := by
    apply lockAcquire_eq_ok.mpr
    simp [FileKernel.setHeld]
  rw [fileTableAdd, bind_ok get_ok, if_neg (by simp [hnum]),
    bind_ok (nonNull_eq_ok.mpr ⟨rfl, rfl⟩), bind_ok (derefFile_eq_ok.mpr ⟨hf, rfl⟩),
    if_neg (by simp [hv]), bind_ok hfile, bind_ok (nonNull_eq_ok.mpr ⟨rfl, rfl⟩), bind_ok htable,
    bind_ok hmaster]
  rfl

/-- The three locks are given back. -/
theorem unlock_eq {r : ℤ} (hs : s.held = []) (hf : s.files p ≠ none) (ht : s.tables q ≠ none) :
    (do
      lockRelease .master
      tableLockRelease q
      fileLockRelease p
      return r : FileM ℤ) (s.setHeld [.master, .table q, .file p]) = .ok r s := by
  have hmaster : lockRelease .master (s.setHeld [.master, .table q, .file p]) =
      .ok () (s.setHeld [.table q, .file p]) := by
    apply lockRelease_eq_ok.mpr
    simp [FileKernel.setHeld]
  have htable : tableLockRelease q (s.setHeld [.table q, .file p]) = .ok () (s.setHeld [.file p]) := by
    apply tableLockRelease_eq_ok.mpr
    simp [FileKernel.setHeld, ht]
  have hfile : fileLockRelease p (s.setHeld [.file p]) = .ok () (s.setHeld []) := by
    apply fileLockRelease_eq_ok.mpr
    simp [FileKernel.setHeld, hf]
  rw [bind_ok hmaster, bind_ok htable, bind_ok hfile, setHeld_self hs]
  rfl

/-- **A file that is in no table** gets the first free slot of both tables, or nothing happens. -/
theorem fileTableAdd_eq (hs : s.held = []) (h : Adding s q p t f v) (hn : s.vnRefcount v ≠ 0)
    (hnum : s.master.numFiles ≠ openMax) :
    fileTableAdd (some q) (some p) s =
      match firstFree s.master.fileArr 125 minFd, firstFree t.fileArr 125 minFd with
      | some m, some l => .ok l (s.given q p t f v (some m) (some l))
      | _, _ => .ok (-1) s := by
  have h' : Adding (s.setHeld [.master, .table q, .file p]) q p t f v :=
    ⟨h.file, h.floating, h.vnode, h.table⟩
  have hloop := addFrom_eq (n := 125) h' hn (m := none) (l := none) (Int.le_refl minFd) (by simp)
    (by simp) (Or.inl rfl)
  have hmaster : ∀ j, firstFree s.master.fileArr 125 minFd = some j →
      (minFd ≤ j ∧ j < openMax) ∧ s.master.fileArr j = none := fun j => firstFree_eq_some
  have hlocal : ∀ j, firstFree t.fileArr 125 minFd = some j →
      (minFd ≤ j ∧ j < openMax) ∧ t.fileArr j = none := fun j => firstFree_eq_some
  have hsame : (s.setHeld [.master, .table q, .file p]).master = s.master := rfl
  rw [Option.none_or, Option.none_or, hsame] at hloop
  rw [fileTableAdd_locked hs h.file h.vnode h.table hnum]
  refine (bind_ok hloop).trans ?_
  revert hmaster hlocal
  -- Of the two slots all that is needed from here on is that they are free.
  generalize firstFree s.master.fileArr 125 minFd = m
  generalize firstFree t.fileArr 125 minFd = l
  intro hmaster hlocal
  -- With one table full, what the other one gave is taken back.
  have hundo : addEnd q p (l.getD floatingFile) false
      ((s.setHeld [.master, .table q, .file p]).given q p t f v m l) = .ok (-1) s := by
    have hrolled := undoLocal_eq (m := m) h' (fun j hj => (hlocal j hj).1.1)
      fun j hj => (hlocal j hj).2
    have hback := undoMaster_eq h' (fun j hj => (hmaster j hj).1) fun j hj => (hmaster j hj).2
    rw [addEnd, if_neg (by decide), bind_ok hrolled, bind_ok hback]
    exact unlock_eq hs (by simp [h.file]) (by simp [h.table])
  cases m with
  | none => exact hundo
  | some m =>
    cases l with
    | none => exact hundo
    | some l =>
      rw [given_setHeld]
      have hfiles := given_files (m := some m) (l := some l) h
      have htables := given_table_local (s := s) (q := q) (p := p) (t := t) (f := f) (v := v)
        (m := some m) (i := l)
      exact unlock_eq (given_held.trans hs) (by simp [hfiles]) (by simp [htables])

/-- A call that ends has added the file to both tables, or found no slot and left all as before. -/
theorem fileTableAdd_ok {fileT : Option Ptr} {r : ℤ} (hs : s.held = []) (hfile : s.files p = some f)
    (hfloating : f.masterFd = floatingFile) (hvnode : f.fileVnode = some v)
    (hn : s.vnRefcount v ≠ 0) (hrun : fileTableAdd fileT (some p) s = .ok r s') :
    (∃ q t m, fileT = some q ∧ Adding s q p t f v ∧
      firstFree s.master.fileArr 125 minFd = some m ∧ firstFree t.fileArr 125 minFd = some r ∧
      s.master.numFiles ≠ openMax ∧ s' = s.given q p t f v (some m) (some r)) ∨
      r = -1 ∧ s.Full fileT ∧ s' = s := by
  have hprefix := hrun
  simp only [fileTableAdd, bind_eq_ok, get_eq_ok] at hprefix
  obtain ⟨_, _, ⟨rfl, rfl⟩, hprefix⟩ := hprefix
  split at hprefix
  case isTrue hearly =>
    obtain ⟨rfl, rfl⟩ := pure_eq_ok.mp hprefix
    exact Or.inr ⟨rfl, Or.inl (hearly.resolve_right (by simp)), rfl⟩
  case isFalse hearly =>
    have hnum : s.master.numFiles ≠ openMax := fun habs => hearly (Or.inl habs)
    simp only [bind_eq_ok, nonNull_eq_ok, derefFile_eq_ok] at hprefix
    obtain ⟨_, _, ⟨hp, rfl⟩, _, _, ⟨hf, rfl⟩, hprefix⟩ := hprefix
    obtain rfl := Option.some.inj hp
    obtain rfl := Option.some.inj (hfile.symm.trans hf)
    rw [if_neg (by simp [hvnode])] at hprefix
    simp only [bind_eq_ok, nonNull_eq_ok, fileLockAcquire_eq_ok, tableLockAcquire_eq_ok] at hprefix
    obtain ⟨_, _, ⟨-, -, rfl⟩, q, _, ⟨hq, rfl⟩, _, _, ⟨htable, -, -⟩, -⟩ := hprefix
    obtain ⟨t, ht⟩ : ∃ t, s.tables q = some t := Option.ne_none_iff_exists'.mp htable
    have hadd : Adding s q p t f v := ⟨hfile, hfloating, hvnode, ht⟩
    -- A call that ends has passed every check, and `fileTableAdd_eq` says what it does.
    rw [hq, fileTableAdd_eq hs hadd hn hnum] at hrun
    cases hm : firstFree s.master.fileArr 125 minFd with
    | none =>
      rw [hm] at hrun
      cases hrun
      exact Or.inr ⟨rfl, Or.inr (Or.inl fun fd hlow hhigh => firstFree_eq_none hm ⟨hlow, hhigh⟩), rfl⟩
    | some m =>
      cases hl : firstFree t.fileArr 125 minFd with
      | none =>
        rw [hm, hl] at hrun
        cases hrun
        refine Or.inr ⟨rfl, Or.inr (Or.inr fun fd hlow hhigh => ?_), rfl⟩
        rw [hq]
        simp only [FileKernel.descriptor, Option.bind_some, ht]
        exact firstFree_eq_none hl ⟨hlow, hhigh⟩
      | some l =>
        rw [hm, hl] at hrun
        cases hrun
        exact Or.inl ⟨q, t, m, hq, hadd, rfl, hl, hnum, rfl⟩

end Add

/-! ## What it is for -/

section AddRight

open Lib.Slots (firstFree LeastFree leastFree_of_firstFree firstFree_eq_none)

variable {s s' : FileKernel} {q p : Ptr} {t : FileTable} {f : File} {v : Ptr}

/-- A call that gets past its check: a file on a vnode in memory, a table that is there, and a thread
without locks. -/
structure Checked (s : FileKernel) (q p : Ptr) (t : FileTable) (f : File) (v : Ptr) : Prop where
  held : s.held = []
  numFiles : s.master.numFiles ≠ openMax
  file : s.files p = some f
  vnode : f.fileVnode = some v
  inMemory : s.vnRefcount v ≠ 0
  table : s.tables q = some t

/-- One of a table's slots for files is empty. -/
def HasSlot (arr : ℤ → Option Ptr) : Prop := ∃ fd, (minFd ≤ fd ∧ fd < openMax) ∧ arr fd = none

/-- The slots that the file needs: one of its own table, and one of the master table while it has none
there. -/
def Room (s : FileKernel) (t : FileTable) (f : File) : Prop :=
  HasSlot t.fileArr ∧ (f.masterFd = floatingFile → HasSlot s.master.fileArr)

/-- With room the file gets the least free slots and one reference; without, the call returns -1. In
neither case is anything else changed. -/
structure AddRight (s : FileKernel) (q p : Ptr) (t : FileTable) (f : File) (v : Ptr) : Prop where
  adds : Room s t f → ∃ fd m, LeastFree t.fileArr minFd 125 fd ∧
    (if f.masterFd = floatingFile then ∃ k, m = some k ∧ LeastFree s.master.fileArr minFd 125 k
      else m = none) ∧
    fileTableAdd (some q) (some p) s = .ok fd (s.given q p t f v m (some fd))
  refuses : ¬ Room s t f → fileTableAdd (some q) (some p) s = .ok (-1) s

theorem hasSlot_iff {arr : ℤ → Option Ptr} : HasSlot arr ↔ firstFree arr 125 minFd ≠ none := by
  constructor
  · rintro ⟨fd, hrange, hfree⟩ hnone
    exact firstFree_eq_none hnone hrange hfree
  · intro hne
    obtain ⟨fd, hfd⟩ := Option.ne_none_iff_exists'.mp hne
    have hleast := leastFree_of_firstFree hfd
    exact ⟨fd, hleast.range, hleast.empty⟩

theorem addRight_floating (h : Checked s q p t f v) (hfloating : f.masterFd = floatingFile) :
    AddRight s q p t f v := by
  have hadd : Adding s q p t f v := ⟨h.file, hfloating, h.vnode, h.table⟩
  have hrun := fileTableAdd_eq h.held hadd h.inMemory h.numFiles
  constructor
  · rintro ⟨hlocal, hmaster⟩
    rw [hasSlot_iff] at hlocal hmaster
    obtain ⟨l, hl⟩ := Option.ne_none_iff_exists'.mp hlocal
    obtain ⟨m, hm⟩ := Option.ne_none_iff_exists'.mp (hmaster hfloating)
    refine ⟨l, some m, leastFree_of_firstFree hl, ?_, ?_⟩
    · rw [if_pos hfloating]
      exact ⟨m, rfl, leastFree_of_firstFree hm⟩
    · rw [hrun, hm, hl]
  · intro hfull
    rw [hrun]
    cases hm : firstFree s.master.fileArr 125 minFd with
    | none => rfl
    | some m =>
      cases hl : firstFree t.fileArr 125 minFd with
      | none => rfl
      | some l =>
        refine absurd ⟨?_, fun _ => ?_⟩ hfull
        · exact hasSlot_iff.mpr (by simp [hl])
        · exact hasSlot_iff.mpr (by simp [hm])

/-- The loop on a file that has its master slot. -/
theorem addFrom_homed {n : ℕ} (hf : s.files p = some f) (hv : f.fileVnode = some v)
    (ht : s.tables q = some t) (hn : s.vnRefcount v ≠ 0) (hhome : f.masterFd ≠ floatingFile) :
    ∀ {i : ℤ}, minFd ≤ i → addFrom q p n i floatingFile s =
      match firstFree t.fileArr n i with
      | some l => .ok (l, true) (s.given q p t f v none (some l))
      | none => .ok (floatingFile, false) s := by
  induction n with
  | zero => intro i _; rfl
  | succ n ih =>
    intro i hi
    have hmaster : addMaster p i s = .ok () s := by
      rw [addMaster, bind_ok (derefFile_eq_ok.mpr ⟨hf, rfl⟩), bind_ok get_ok,
        if_neg fun hboth => hhome hboth.2]
      rfl
    by_cases hfree : t.fileArr i = none
    · have hincref : ∀ t', vopIncref (some v) (s.setTable q t') =
          .ok () ((s.setTable q t').setCount v (s.vnRefcount v + 1)) :=
        fun t' => vopIncref_eq_ok.mpr ⟨hn, rfl⟩
      have hlocal : addLocal q p i floatingFile s = .ok i (s.given q p t f v none (some i)) := by
        rw [addLocal, bind_ok (derefFile_eq_ok.mpr ⟨hf, rfl⟩), bind_ok (derefTable_eq_ok.mpr ⟨ht, rfl⟩),
          if_pos ⟨hfree, (by decide : floatingFile < minFd)⟩, bind_ok modify_ok, hv, bind_ok (hincref _)]
        rfl
      have hfile : derefFile p (s.given q p t f v none (some i)) =
          .ok f (s.given q p t f v none (some i)) := derefFile_eq_ok.mpr ⟨hf, rfl⟩
      rw [addFrom, bind_ok hmaster, bind_ok hlocal, bind_ok hfile, if_pos ⟨hi, hhome⟩]
      simp only [firstFree, Lib.Slots.free, hfree, Option.isNone_none, if_true, Option.some_or]
      rfl
    · have hlocal : addLocal q p i floatingFile s = .ok floatingFile s := by
        rw [addLocal, bind_ok (derefFile_eq_ok.mpr ⟨hf, rfl⟩), bind_ok (derefTable_eq_ok.mpr ⟨ht, rfl⟩),
          if_neg fun hboth => hfree hboth.1]
        rfl
      rw [addFrom, bind_ok hmaster, bind_ok hlocal, bind_ok (derefFile_eq_ok.mpr ⟨hf, rfl⟩),
        if_neg fun hboth => absurd hboth.1 (by decide), ih (by omega)]
      simp [firstFree, Lib.Slots.free, hfree]

theorem addRight_homed (h : Checked s q p t f v) (hhome : f.masterFd ≠ floatingFile) :
    AddRight s q p t f v ↔ HasSlot t.fileArr := by
  have hloop := addFrom_homed (s := s.setHeld [.master, .table q, .file p]) (n := 125) h.file h.vnode
    h.table h.inMemory hhome (Int.le_refl minFd)
  have hlocked := fileTableAdd_locked h.held h.file h.vnode h.table h.numFiles
  cases hl : firstFree t.fileArr 125 minFd with
  | some l =>
    have hslot : HasSlot t.fileArr := hasSlot_iff.mpr (by simp [hl])
    simp only [hl, given_setHeld] at hloop
    refine iff_of_true ⟨fun _ => ⟨l, none, leastFree_of_firstFree hl, by rw [if_neg hhome], ?_⟩,
      fun hfull => absurd ⟨hslot, fun habs => absurd habs hhome⟩ hfull⟩ hslot
    rw [hlocked]
    refine (bind_ok hloop).trans ?_
    have htables := given_table_local (s := s) (q := q) (p := p) (t := t) (f := f) (v := v)
      (m := none) (i := l)
    have hfiles : (s.given q p t f v none (some l)).files p = some f := h.file
    exact unlock_eq h.held (by simp [hfiles]) (by simp [htables])
  | none =>
    have hslot : ¬ HasSlot t.fileArr := fun hslot => hasSlot_iff.mp hslot hl
    simp only [hl] at hloop
    refine iff_of_false (fun hright => ?_) hslot
    -- The rollback takes the slot that the file had before the call.
    have hrun := hright.refuses fun hroom => hslot hroom.1
    rw [hlocked, bind_ok hloop] at hrun
    have hlow : ¬ floatingFile ≥ minFd := by decide
    simp only [addEnd, undoLocal, undoMaster, Bool.false_eq_true, if_false, hlow, bind_eq_ok,
      pure_eq_ok, derefFile_eq_ok] at hrun
    obtain ⟨_, _, ⟨-, rfl⟩, _, s₁, ⟨g, _, ⟨hg, rfl⟩, hundo⟩, hrest⟩ := hrun
    obtain rfl := Option.some.inj (h.file.symm.trans hg)
    rw [if_pos hhome] at hundo
    simp only [bind_eq_ok, indexed_eq_ok, modify_eq_ok] at hundo
    obtain ⟨_, _, ⟨-, rfl⟩, rfl⟩ := hundo
    simp only [lockRelease_eq_ok, tableLockRelease_eq_ok, fileLockRelease_eq_ok] at hrest
    obtain ⟨_, _, ⟨-, rfl⟩, _, _, ⟨-, -, rfl⟩, _, _, ⟨-, -, rfl⟩, -, hsame⟩ := hrest
    have hfloats : some { f with masterFd := floatingFile } = s.files p := by
      rw [← hsame]
      exact (Function.update_self p _ s.files).symm
    rw [h.file] at hfloats
    exact hhome (congrArg File.masterFd (Option.some.inj hfloats)).symm

/-- **`file_table_add` is exact and atomic** for a file that is in no table, and for one that has its
master slot exactly where its own table has a slot for it. -/
theorem addRight_iff (h : Checked s q p t f v) :
    AddRight s q p t f v ↔ f.masterFd = floatingFile ∨ HasSlot t.fileArr := by
  by_cases hhome : f.masterFd = floatingFile
  · exact iff_of_true (addRight_floating h hhome) (Or.inl hhome)
  · rw [addRight_homed h hhome, or_iff_right hhome]

/-! ### A full table -/

/-- File 2 on vnode 1, with master slot `home`, beside table 0 with `arr`. -/
def oneFile (home : ℤ) (arr : ℤ → Option Ptr) : FileKernel where
  vnRefcount := update (fun _ => 0) 1 1
  files := update (fun _ => none) 2 (some ⟨some 1, 0, home⟩)
  tables := update (fun _ => none) 0 (some ⟨arr, 0⟩)
  master := ⟨update (fun _ => none) home (some 2), 0⟩
  contents _ := []
  console := []
  held := []
  next := 3

theorem oneFile_checked (home : ℤ) (arr : ℤ → Option Ptr) :
    Checked (oneFile home arr) 0 2 ⟨arr, 0⟩ ⟨some 1, 0, home⟩ 1 where
  held := rfl
  numFiles := (by decide : (0 : ℤ) ≠ openMax)
  file := rfl
  vnode := rfl
  inMemory := by simp [oneFile]
  table := rfl

theorem addRight_iff_empty :
    AddRight (oneFile 5 fun _ => none) 0 2 ⟨fun _ => none, 0⟩ ⟨some 1, 0, 5⟩ 1 :=
  (addRight_iff (oneFile_checked 5 fun _ => none)).mpr (Or.inr ⟨3, by decide, rfl⟩)

/-- File 2 has master slot 5, its own table is full, and the call that returns -1 has cleared slot 5. -/
theorem homed_file_evicted :
    (match fileTableAdd (some 0) (some 2) (oneFile 5 fun _ => some 2) with
      | .ok r s' => some (r, s'.master.fileArr 5, (s'.files 2).map File.masterFd)
      | .error _ _ => none) = some (-1, none, some floatingFile) ∧
    ¬ AddRight (oneFile 5 fun _ => some 2) 0 2 ⟨fun _ => some 2, 0⟩ ⟨some 1, 0, 5⟩ 1 := by
  refine ⟨by decide +kernel, fun hright => ?_⟩
  rcases (addRight_homed (oneFile_checked 5 _) (by decide)).mp hright with ⟨fd, -, hfree⟩
  cases hfree

end AddRight

end UnionCollegeCode.OS161.Files
