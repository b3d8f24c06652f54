import UnionCollegeCode.OS161.Files.Add

/-!
# What a descriptor call leaves behind

The state in which `sys_open`, `sys_close`, `sys_dup2` and `file_table_copy` leave the tables, the
files and the counts, where they come to their end.
-/

set_option autoImplicit false

namespace UnionCollegeCode.OS161.Files

open Function (update)
open Lib.EState

/-! ## The calls -/

section Calls

variable {s s' : FileKernel} {procFt : Option Ptr} {r : ℤ}

/-- A new file on `v`, with the reference that `vfs_open` hands over. -/
def FileKernel.opened (s : FileKernel) (v : Ptr) : FileKernel :=
  { (s.setCount v (s.vnRefcount v + 1)).setFile s.next (some ⟨some v, 0, floatingFile⟩) with
    next := s.next + 1 }

/-- `openFile` on a new file gives it its slots, or finds no slots and drops it. -/
theorem openFile_ok {v : Ptr} (hs : s.held = [])
    (h : openFile procFt s.next (some v) { (s.setCount v (s.vnRefcount v + 1)).setFile s.next
      (some ⟨none, 0, floatingFile⟩) with next := s.next + 1 } = .ok r s') :
    (∃ q t m fd, procFt = some q ∧ s.tables q = some t ∧ (minFd ≤ m ∧ m < openMax) ∧
      (minFd ≤ fd ∧ fd < openMax) ∧ s.master.fileArr m = none ∧ t.fileArr fd = none ∧
      ¬ s.Full procFt ∧
      s' = (s.opened v).given q s.next t ⟨some v, 0, floatingFile⟩ v (some m) (some fd)) ∨
    s.Full procFt ∧ s' = (s.opened v).dropFile s.next ⟨some v, 0, floatingFile⟩ v := by
  simp only [openFile, bind_eq_ok, derefFile_eq_ok, modify_eq_ok] at h
  obtain ⟨f, _, ⟨hf, rfl⟩, _, s₀, hset, result, s₁, hadd, h⟩ := h
  have hf : some ⟨none, 0, floatingFile⟩ = some f := by
    rw [← hf]
    exact (Function.update_self s.next _ s.files).symm
  obtain rfl := Option.some.inj hf
  obtain rfl : s₀ = s.opened v := by
    rw [← hset]
    simp [FileKernel.opened, FileKernel.setFile, FileKernel.setCount]
  have hfile : (s.opened v).files s.next = some ⟨some v, 0, floatingFile⟩ :=
    Function.update_self s.next _ s.files
  have hheld : (s.opened v).held = [] := hs
  have hn : (s.opened v).vnRefcount v ≠ 0 := by simp [FileKernel.opened, FileKernel.setCount,
    FileKernel.setFile]
  -- With no slot the file is dropped at once, with the reference it came with.
  rcases fileTableAdd_ok hheld hfile rfl rfl hn hadd with
    ⟨q, t, m, rfl, hadding, hm, hl, hnum, rfl⟩ | ⟨rfl, hfull, rfl⟩
  · obtain ⟨hm, hmaster⟩ := Lib.Slots.firstFree_eq_some hm
    obtain ⟨hresult, hlocal⟩ := Lib.Slots.firstFree_eq_some hl
    rw [if_neg (Int.not_lt.mpr hresult.1)] at h
    obtain ⟨rfl, rfl⟩ := pure_eq_ok.mp h
    refine Or.inl ⟨q, t, m, result, rfl, hadding.table, hm, hresult, hmaster, hlocal, ?_, rfl⟩
    intro hfull
    rcases hfull with habs | habs | habs
    · exact hnum habs
    · exact habs m hm.1 hm.2 hmaster
    · refine habs result hresult.1 hresult.2 ?_
      have htable : s.tables q = some t := hadding.table
      simp only [FileKernel.descriptor, Option.bind_some, htable, hlocal]
  · rw [if_pos (by decide)] at h
    simp only [bind_eq_ok, pure_eq_ok] at h
    obtain ⟨_, _, hdestroy, rfl, rfl⟩ := h
    obtain ⟨f, w, hf, hw, -, rfl⟩ := fileDestroy_ok hdestroy
    obtain rfl := Option.some.inj (hfile.symm.trans hf)
    obtain rfl := Option.some.inj hw
    exact Or.inr ⟨hfull, rfl⟩

/-- All that `sys_open` needs before it turns to the tables. -/
structure OpenAnswers.Opens (a : OpenAnswers) (filename : Option Ptr) (v : Ptr) : Prop where
  filename : filename ≠ none
  buf : a.buf = true
  copyin : a.copyin = 0
  vfsOpen : a.vfsOpen = (0, some v)
  file : a.file = true

theorem vnodeCleanup_ok {v : Ptr} {u : Unit} (h : vnodeCleanup (some v) s = .ok u s') :
    s.vnRefcount v = 1 ∧ s' = s.setCount v 0 := by
  simp only [eq_ok_iff_wp, vnodeCleanup, wp_bind, wp_derefVnode, wp_kassert, wp_modify] at h
  by_cases hzero : s.vnRefcount v = 0
  · exact (h.2 fun w hw => by cases hw; exact hzero).elim
  · obtain ⟨hone, hother⟩ := h.1 v rfl hzero
    have hcount : s.vnRefcount v = 1 := Classical.not_not.mp hother
    exact ⟨hcount, (hone hcount).2.symm⟩

theorem vfsOpen_ok {answer found : ℕ × Option Ptr} (h : vfsOpen answer s = .ok found s') :
    found = answer ∧ ((∃ v, answer = (0, some v) ∧ s' = s.setCount v (s.vnRefcount v + 1)) ∨
      (∀ v, answer ≠ (0, some v)) ∧ s' = s) := by
  obtain ⟨result, vnode⟩ := answer
  cases vnode with
  | none =>
    have h : (pure (result, none) : FileM (ℕ × Option Ptr)) s = .ok found s' := by
      cases result <;> exact h
    obtain ⟨rfl, rfl⟩ := pure_eq_ok.mp h
    exact ⟨rfl, Or.inr ⟨fun v => by simp, rfl⟩⟩
  | some v =>
    cases result with
    | zero =>
      simp only [vfsOpen, bind_eq_ok, modify_eq_ok, pure_eq_ok] at h
      obtain ⟨_, _, rfl, rfl, rfl⟩ := h
      exact ⟨rfl, Or.inl ⟨v, rfl, rfl⟩⟩
    | succ n =>
      obtain ⟨rfl, rfl⟩ := pure_eq_ok.mp h
      exact ⟨rfl, Or.inr ⟨fun v => by simp, rfl⟩⟩

/-- `sys_open` gives a new file its slots, or finds no slots and drops it, or changes nothing. -/
theorem sysOpen_ok {filename : Option Ptr} {flags : ℤ} {a : OpenAnswers} (hs : s.held = [])
    (h : sysOpen procFt filename flags a s = .ok r s') :
    s' = s ∧ (∀ v, ¬ a.Opens filename v) ∨ ∃ v, a.Opens filename v ∧
      ((∃ q t m fd, procFt = some q ∧ s.tables q = some t ∧ (minFd ≤ m ∧ m < openMax) ∧
        (minFd ≤ fd ∧ fd < openMax) ∧ s.master.fileArr m = none ∧ t.fileArr fd = none ∧
        ¬ s.Full procFt ∧
        s' = (s.opened v).given q s.next t ⟨some v, 0, floatingFile⟩ v (some m) (some fd)) ∨
      s.Full procFt ∧ s' = (s.opened v).dropFile s.next ⟨some v, 0, floatingFile⟩ v) := by
  unfold sysOpen at h
  split at h
  case isTrue hname => exact Or.inl ⟨(pure_eq_ok.mp h).2.symm, fun v hv => hv.filename hname⟩
  case isFalse hname =>
  split at h
  case isTrue hbuf =>
    exact Or.inl ⟨(pure_eq_ok.mp h).2.symm, fun v hv => by rw [hv.buf] at hbuf; cases hbuf⟩
  case isFalse hbuf =>
  split at h
  case isTrue hcopyin => exact Or.inl ⟨(pure_eq_ok.mp h).2.symm, fun v hv => hcopyin hv.copyin⟩
  case isFalse hcopyin =>
  -- Past the checks of its arguments: `vfs_open` may have opened a vnode.
  simp only [bind_eq_ok] at h
  obtain ⟨⟨result, vnode⟩, s₁, hvfs, h⟩ := h
  split at h
  case isTrue => exact absurd h throw_eq_ok
  case isFalse hresult =>
  obtain rfl : result = 0 := Classical.not_not.mp hresult
  split at h
  case isTrue hnull =>
    obtain ⟨hfound, hstate⟩ := vfsOpen_ok hvfs
    obtain rfl : vnode = none := hnull
    have hno : ∀ v, a.vfsOpen ≠ (0, some v) := fun v hv => by
      rw [← hfound] at hv
      cases hv
    rcases hstate with ⟨v, hv, -⟩ | ⟨-, rfl⟩
    · exact absurd hv (hno v)
    · exact Or.inl ⟨(pure_eq_ok.mp h).2.symm, fun v hv => hno v hv.vfsOpen⟩
  case isFalse hnull =>
  obtain ⟨hfound, hstate⟩ := vfsOpen_ok hvfs
  obtain ⟨v, rfl⟩ := Option.ne_none_iff_exists'.mp hnull
  rcases hstate with ⟨w, hw, rfl⟩ | ⟨hno, -⟩
  case inr => exact absurd hfound.symm (hno v)
  obtain rfl : v = w := by
    rw [hw] at hfound
    cases hfound
    rfl
  simp only [bind_eq_ok] at h
  obtain ⟨made, s₂, hcreate, h⟩ := h
  -- Without memory for the file the vnode is closed again; nobody else had it open.
  cases hfile : a.file with
  | false =>
    simp only [fileCreate, hfile, Bool.false_eq_true, if_false, pure_eq_ok] at hcreate
    obtain ⟨rfl, rfl⟩ := hcreate
    simp only [bind_eq_ok, pure_eq_ok] at h
    obtain ⟨_, _, hcleanup, -, rfl⟩ := h
    obtain ⟨hone, rfl⟩ := vnodeCleanup_ok hcleanup
    have hzero : s.vnRefcount v = 0 := by
      have hcount : (s.setCount v (s.vnRefcount v + 1)).vnRefcount v = s.vnRefcount v + 1 :=
        Function.update_self v _ s.vnRefcount
      omega
    refine Or.inl ⟨?_, fun w hw => by rw [hw.file] at hfile; cases hfile⟩
    have hsame : update s.vnRefcount v 0 = s.vnRefcount := by
      rw [← hzero]
      exact Function.update_eq_self v s.vnRefcount
    simp only [FileKernel.setCount, Function.update_idem, hsame]
  | true =>
    simp only [fileCreate, hfile, if_true, bind_eq_ok, get_eq_ok, set_eq_ok, pure_eq_ok] at hcreate
    obtain ⟨_, _, ⟨rfl, rfl⟩, _, _, rfl, rfl, rfl⟩ := hcreate
    refine Or.inr ⟨v, ⟨hname, by simpa using hbuf, Classical.not_not.mp hcopyin, hw, hfile⟩, ?_⟩
    exact openFile_ok hs (by exact h)

/-- `sys_close` takes the descriptor away and destroys its file, or finds none. -/
theorem sysClose_ok {fd : ℤ} (hs : s.held = []) (h : sysClose procFt fd s = .ok r s') :
    s' = s ∧ ¬ (minFd ≤ fd ∧ fd < openMax ∧ s.descriptor procFt fd ≠ none) ∨
    ∃ q t p f v, procFt = some q ∧ s.tables q = some t ∧ (minFd ≤ fd ∧ fd < openMax) ∧
      t.fileArr fd = some p ∧ s.files p = some f ∧ f.fileVnode = some v ∧ s.vnRefcount v ≠ 0 ∧
      s' = (s.setTable q (some { t with fileArr := update t.fileArr fd none })).dropFile p f v := by
  unfold sysClose at h
  split at h
  case isTrue hout =>
    refine Or.inl ⟨(pure_eq_ok.mp h).2.symm, fun hin => ?_⟩
    rcases hout with hlow | hhigh
    · exact absurd hin.1 (Int.not_le.mpr hlow)
    · exact absurd hin.2.1 (Int.not_lt.mpr hhigh)
  case isFalse hout =>
  have hfd : minFd ≤ fd ∧ fd < openMax :=
    ⟨Int.not_lt.mp fun habs => hout (Or.inl habs), Int.not_le.mp fun habs => hout (Or.inr habs)⟩
  simp only [withFile, bind_eq_ok] at h
  obtain ⟨file, s₁, hlookup, h⟩ := h
  obtain ⟨hfile, hs₁⟩ := fileTableLookup_ok hs hfd hlookup
  rw [hs₁] at h
  cases file with
  | none => exact Or.inl ⟨(pure_eq_ok.mp h).2.symm, fun hin => hin.2.2 hfile.symm⟩
  | some p =>
    simp only [bind_eq_ok, nonNull_eq_ok, tableLockAcquire_eq_ok, derefTable_eq_ok, modify_eq_ok,
      tableLockRelease_eq_ok, pure_eq_ok] at h
    obtain ⟨q, _, ⟨rfl, rfl⟩, _, _, ⟨-, -, rfl⟩, t, _, ⟨ht, rfl⟩, _, _, rfl, _, _, ⟨-, -, rfl⟩, _, _,
      hdestroy, -, rfl⟩ := h
    have ht : s.tables q = some t := ht
    have hslot : t.fileArr fd = some p := by
      rw [hfile]
      simp [FileKernel.descriptor, ht]
    -- The table's lock is back before the file is destroyed, so nothing is held there.
    have hunlocked : (((s.setHeld (.table q :: s.held)).setTable q
        (some { t with fileArr := update t.fileArr fd none })).setHeld
          ((LockId.table q :: s.held).erase (.table q))) =
        s.setTable q (some { t with fileArr := update t.fileArr fd none }) := by
      rw [List.erase_cons_head]
      rfl
    have hdestroy : fileDestroy (some p) (s.setTable q
        (some { t with fileArr := update t.fileArr fd none })) = .ok _ _ := hunlocked ▸ hdestroy
    obtain ⟨f, v, hf, hv, hn, rfl⟩ := fileDestroy_ok hdestroy
    exact Or.inr ⟨q, t, p, f, v, rfl, ht, hfd, hslot, hf, hv, hn, rfl⟩

/-- The check of `file_copy` succeeds. -/
structure FileKernel.Copies (s : FileKernel) (procFt : Option Ptr) (oldfd newfd : ℤ) : Prop where
  old : minFd ≤ oldfd ∧ oldfd < openMax
  new : minFd ≤ newfd ∧ newfd < openMax
  table : procFt ≠ none
  master : s.master.fileArr oldfd ≠ none

theorem FileKernel.not_copies_iff {oldfd newfd : ℤ} : ¬ s.Copies procFt oldfd newfd ↔
    oldfd < minFd ∨ newfd < minFd ∨ oldfd ≥ openMax ∨ newfd ≥ openMax ∨ procFt = none ∨
      s.master.fileArr oldfd = none := by
  constructor
  · intro h
    by_contra hno
    simp only [not_or, Int.not_lt, ge_iff_le, Int.not_le] at hno
    obtain ⟨hold, hnew, hold', hnew', htable, hmaster⟩ := hno
    exact h ⟨⟨hold, hold'⟩, ⟨hnew, hnew'⟩, htable, hmaster⟩
  · intro hcheck hcopies
    rcases hcheck with habs | habs | habs | habs | habs | habs
    · exact Int.not_le.mpr habs hcopies.old.1
    · exact Int.not_le.mpr habs hcopies.new.1
    · exact Int.not_lt.mpr habs hcopies.old.2
    · exact Int.not_lt.mpr habs hcopies.new.2
    · exact hcopies.table habs
    · exact hcopies.master habs

/-- The master table's file under `oldfd` goes to slot `newfd` of table `q`. -/
def FileKernel.install (s : FileKernel) (q : Ptr) (t : FileTable) (oldfd newfd : ℤ) : FileKernel :=
  s.setTable q (some { t with fileArr := update t.fileArr newfd (s.master.fileArr oldfd) })

theorem dropFile_setHeld {held : List LockId} {p v : Ptr} {f : File} :
    (s.setHeld held).dropFile p f v = (s.dropFile p f v).setHeld held := by
  by_cases hcount : s.vnRefcount v = oneFileOwner
  · by_cases hfd : f.masterFd = floatingFile <;>
      simp [FileKernel.dropFile, FileKernel.setHeld, FileKernel.setCount, FileKernel.setFile,
        FileKernel.setMaster, hcount, hfd]
  · simp [FileKernel.dropFile, FileKernel.setHeld, FileKernel.setCount, hcount]

theorem dropFile_tables {p v : Ptr} {f : File} : (s.dropFile p f v).tables = s.tables := by
  simp only [FileKernel.dropFile]
  split
  · split <;> rfl
  · rfl

theorem dropFile_count {p v : Ptr} {f : File} :
    (s.dropFile p f v).vnRefcount = update s.vnRefcount v (s.vnRefcount v - 1) := by
  simp only [FileKernel.dropFile]
  split
  · split <;> rfl
  · rfl

/-- A file among others gives up a reference. -/
theorem dropFile_of_ne {p v : Ptr} {f : File} (h : s.vnRefcount v ≠ oneFileOwner) :
    s.dropFile p f v = s.setCount v (s.vnRefcount v - 1) :=
  if_neg h

theorem installCopy_ok {q : Ptr} {t : FileTable} {oldfd newfd : ℤ} (ht : s.tables q = some t)
    (h : installCopy q oldfd newfd s = .ok r s') :
    ∃ held, s' = (s.install q t oldfd newfd).setHeld held := by
  simp only [installCopy, bind_eq_ok, derefTable_eq_ok, modify_eq_ok, lockRelease_eq_ok,
    nonNull_eq_ok, fileLockRelease_eq_ok, tableLockRelease_eq_ok, pure_eq_ok] at h
  obtain ⟨t', _, ⟨ht', rfl⟩, _, _, rfl, _, _, ⟨-, rfl⟩, _, _, ⟨-, rfl⟩, _, _, ⟨-, rfl⟩, _, _,
    ⟨-, -, rfl⟩, _, _, ⟨-, -, rfl⟩, -, rfl⟩ := h
  obtain rfl := Option.some.inj (ht.symm.trans ht')
  exact ⟨_, rfl⟩

/-- A `dup2` that gets past the check of `file_copy` destroys what is in the new slot and leaves the
master table's file there, counted or not. -/
theorem sysDup2_ok {oldfd newfd : ℤ} (hs : s.held = [])
    (h : sysDup2 procFt oldfd newfd s = .ok r s') :
    s' = s ∧ ¬ s.Copies procFt oldfd newfd ∨ s.Copies procFt oldfd newfd ∧
      ∃ q t held, procFt = some q ∧ s.tables q = some t ∧
        (t.fileArr newfd = none ∧ s' = (s.install q t oldfd newfd).setHeld held ∨
          ∃ g f v, t.fileArr newfd = some g ∧ s.files g = some f ∧ f.fileVnode = some v ∧
            s.vnRefcount v ≠ 0 ∧
            s' = ((s.dropFile g f v).install q t oldfd newfd).setHeld held) := by
  simp only [sysDup2, bind_eq_ok] at h
  obtain ⟨copied, s₁, hcopy, h⟩ := h
  have hsame : s₁ = s' := by
    split at h
    · exact (pure_eq_ok.mp h).2
    · exact (pure_eq_ok.mp h).2
  subst hsame
  -- Whatever `file_copy` returns, `sys_dup2` does nothing more.
  simp only [fileCopy, bind_eq_ok, get_eq_ok] at hcopy
  obtain ⟨_, _, ⟨rfl, rfl⟩, hcopy⟩ := hcopy
  split at hcopy
  case isTrue hcheck =>
    exact Or.inl ⟨(pure_eq_ok.mp hcopy).2.symm, FileKernel.not_copies_iff.mpr hcheck⟩
  case isFalse hcheck =>
    refine Or.inr ⟨not_not.mp fun hno => hcheck (FileKernel.not_copies_iff.mp hno), ?_⟩
    simp only [copyOnto, bind_eq_ok, nonNull_eq_ok, tableLockAcquire_eq_ok, derefTable_eq_ok,
      fileLockAcquire_eq_ok, lockAcquire_eq_ok] at hcopy
    obtain ⟨q, _, ⟨rfl, rfl⟩, _, _, ⟨-, -, rfl⟩, t, _, ⟨ht, rfl⟩, p, _, ⟨-, rfl⟩, _, _, ⟨-, -, rfl⟩,
      _, _, ⟨-, rfl⟩, _, s₂, hdestroy, hinstall⟩ := hcopy
    have ht : s.tables q = some t := ht
    have hheld : ((s.setHeld (.table q :: s.held)).setHeld (.file p :: .table q :: s.held)).setHeld
        (.master :: .file p :: .table q :: s.held) = s.setHeld [.master, .file p, .table q] := by
      rw [hs]
      rfl
    have hdestroy : fileDestroy (t.fileArr newfd) (s.setHeld [.master, .file p, .table q]) =
        .ok _ s₂ := hheld ▸ hdestroy
    -- `file_destroy` runs first; it does nothing where the slot is empty.
    cases hg : t.fileArr newfd with
    | none =>
      rw [hg] at hdestroy
      obtain ⟨-, rfl⟩ := pure_eq_ok.mp hdestroy
      obtain ⟨held, rfl⟩ := installCopy_ok (by exact ht) hinstall
      exact ⟨q, t, held, rfl, ht, Or.inl ⟨hg, rfl⟩⟩
    | some g =>
      rw [hg] at hdestroy
      obtain ⟨f, v, hf, hv, hn, rfl⟩ := fileDestroy_ok hdestroy
      rw [dropFile_setHeld] at hinstall
      obtain ⟨held, rfl⟩ := installCopy_ok
        (show ((s.dropFile g f v).setHeld _).tables q = some t by
          show (s.dropFile g f v).tables q = _
          rw [dropFile_tables]
          exact ht) hinstall
      exact ⟨q, t, held, rfl, ht, Or.inr ⟨g, f, v, hg, hf, hv, hn, rfl⟩⟩

/-- An empty table at the next address. -/
def FileKernel.withTable (s : FileKernel) (numFiles : ℤ) : FileKernel :=
  { s.setTable s.next (some ⟨fun _ => none, numFiles⟩) with next := s.next + 1 }

theorem fileTableCreate_ok {a : TableAlloc} {made : Option Ptr}
    (h : fileTableCreate a s = .ok made s') :
    made = none ∧ s' = s ∨ made = some s.next ∧ s' = s.withTable 0 := by
  cases a with
  | noTable =>
    obtain ⟨rfl, rfl⟩ := pure_eq_ok.mp h
    exact Or.inl ⟨rfl, rfl⟩
  | noLock => exact absurd h throw_eq_ok
  | ok =>
    simp only [fileTableCreate, bind_eq_ok, get_eq_ok, set_eq_ok, pure_eq_ok] at h
    obtain ⟨_, _, ⟨rfl, rfl⟩, _, _, rfl, rfl, rfl⟩ := h
    exact Or.inr ⟨rfl, rfl⟩

/-- One slot of a table copied to `new`, with a reference for it. -/
theorem copySlot_ok {q new : Ptr} {i : ℤ} {u : Unit} (h : copySlot q new i s = .ok u s') :
    ∃ t, s.tables q = some t ∧ (t.fileArr i = none ∧ s' = s ∨ ∃ p f v tmp held,
      t.fileArr i = some p ∧ s.files p = some f ∧ f.fileVnode = some v ∧ s.tables new = some tmp ∧
      s' = ((s.setTable new (some { tmp with fileArr := update tmp.fileArr i (some p) })).setCount v
        (s.vnRefcount v + 1)).setHeld held) := by
  simp only [copySlot, bind_eq_ok, derefTable_eq_ok] at h
  obtain ⟨t, _, ⟨ht, rfl⟩, h⟩ := h
  refine ⟨t, ht, ?_⟩
  cases hslot : t.fileArr i with
  | none =>
    rw [hslot] at h
    exact Or.inl ⟨rfl, (pure_eq_ok.mp h).2.symm⟩
  | some p =>
    simp only [hslot, bind_eq_ok, fileLockAcquire_eq_ok, derefTable_eq_ok, modify_eq_ok,
      derefFile_eq_ok, fileLockRelease_eq_ok] at h
    obtain ⟨_, _, ⟨-, -, rfl⟩, tmp, _, ⟨htmp, rfl⟩, _, _, rfl, f, _, ⟨hf, rfl⟩, _, _, hincref,
      -, -, rfl⟩ := h
    obtain ⟨v, hv, -, rfl⟩ := vopIncref_ok hincref
    exact Or.inr ⟨p, f, v, tmp, _, rfl, hf, hv, htmp, rfl⟩

/-- A copy fills a new table slot by slot. -/
theorem fileTableCopy_ok {a : TableAlloc} {made : Option Ptr}
    (hq : ∀ q, procFt = some q → q ≠ s.next) (h : fileTableCopy procFt a s = .ok made s') :
    (made = none ∧ ∃ held, s' = s.setHeld held) ∨ ∃ q t held s₁ u held', made = some s.next ∧
      procFt = some q ∧ s.tables q = some t ∧
      copyFrom q s.next 125 minFd ((s.setHeld held).withTable t.numFiles) = .ok u s₁ ∧
      s' = s₁.setHeld held' := by
  cases procFt with
  | none =>
    obtain ⟨rfl, rfl⟩ := pure_eq_ok.mp h
    exact Or.inl ⟨rfl, _, rfl⟩
  | some q =>
    simp only [fileTableCopy, bind_eq_ok, tableLockAcquire_eq_ok] at h
    obtain ⟨_, _, ⟨-, -, rfl⟩, new, s₁, hcreate, h⟩ := h
    rcases fileTableCreate_ok hcreate with ⟨rfl, rfl⟩ | ⟨rfl, rfl⟩
    · obtain ⟨rfl, rfl⟩ := pure_eq_ok.mp h
      exact Or.inl ⟨rfl, _, rfl⟩
    · simp only [fillTable, bind_eq_ok, derefTable_eq_ok, modify_eq_ok, tableLockRelease_eq_ok,
        pure_eq_ok] at h
      obtain ⟨t, _, ⟨ht, rfl⟩, tmp, _, ⟨htmp, rfl⟩, _, _, rfl, u, s₁, hcopy, _, _, ⟨-, -, rfl⟩,
        rfl, rfl⟩ := h
      have ht : s.tables q = some t := by
        rw [← ht]
        exact (Function.update_of_ne (hq q rfl) _ s.tables).symm
      have htmp : some ⟨fun _ => none, 0⟩ = some tmp := by
        rw [← htmp]
        exact (Function.update_self s.next _ s.tables).symm
      obtain rfl := Option.some.inj htmp
      have hbegun : ((s.setHeld (.table q :: s.held)).withTable 0).setTable s.next
          (some ⟨fun _ => none, t.numFiles⟩) =
          (s.setHeld (.table q :: s.held)).withTable t.numFiles := by
        simp [FileKernel.withTable, FileKernel.setTable, FileKernel.setHeld]
      exact Or.inr ⟨q, t, _, s₁, u, _, rfl, rfl, ht, hbegun ▸ hcopy, rfl⟩

/-- The table's lock is looked for in the freed table. -/
theorem fileTableDestroy_stops {q : Ptr} :
    ¬ fileTableDestroy q s = .ok r s' := by
  intro h
  simp only [fileTableDestroy, tableLockRelease, derefTable, bind_eq_ok, modify_eq_ok,
    get_eq_ok] at h
  obtain ⟨_, _, -, _, s₁, -, _, _, rfl, _, _, ⟨_, _, ⟨_, _, ⟨rfl, rfl⟩, h⟩, -⟩, -⟩ := h
  simp [FileKernel.setTable] at h

end Calls

end UnionCollegeCode.OS161.Files
