import UnionCollegeCode.OS161.Files.Outcomes

/-!
# `sys_dup2`

`file_copy` returns 0 when it has copied and -1 when it has not, and `sys_dup2` takes either for the
new descriptor, finds it below `MIN_FD`, and answers `-EBADF`. Its check is made on the master table,
whose slots have nothing to do with the descriptors of a process, so it lets descriptors pass that are
not open; the copy then follows a `NULL` pointer.
-/

set_option autoImplicit false

namespace UnionCollegeCode.OS161.Files

open Function (update)
open Lib.EState

variable {s s' : FileKernel} {procFt : Option Ptr} {oldfd newfd r : ℤ}

/-! ## What `dup2` is for -/

/-- The vnode of the file under a descriptor. -/
def FileKernel.vnodeOf (s : FileKernel) (procFt : Option Ptr) (fd : ℤ) : Option Ptr :=
  (s.descriptor procFt fd).bind fun p => (s.files p).bind File.fileVnode

/-- `oldfd` is open, and both numbers are descriptors. -/
structure FileKernel.Dups (s : FileKernel) (procFt : Option Ptr) (oldfd newfd : ℤ) : Prop where
  old : minFd ≤ oldfd ∧ oldfd < openMax
  new : minFd ≤ newfd ∧ newfd < openMax
  isOpen : ∃ p f, s.descriptor procFt oldfd = some p ∧ s.files p = some f

/-- Both descriptors are for the file `oldfd` was for, and it has the reference that the file `newfd`
was for has lost. -/
structure FileKernel.Dupped (s s' : FileKernel) (procFt : Option Ptr) (oldfd newfd : ℤ) : Prop where
  shared : s'.descriptor procFt newfd = s.descriptor procFt oldfd
  others : ∀ fd, fd ≠ newfd → s'.descriptor procFt fd = s.descriptor procFt fd
  file : ∀ p, s.descriptor procFt oldfd = some p → s'.files p = s.files p
  references : ∀ v,
    s'.vnRefcount v + (if s.vnodeOf procFt newfd = some v then 1 else 0) =
      s.vnRefcount v + if s.vnodeOf procFt oldfd = some v then 1 else 0

/-- The call does what `dup2` is for, or refuses and leaves everything as it is. -/
def FileKernel.Dup2Right (s : FileKernel) (procFt : Option Ptr) (oldfd newfd : ℤ) : Prop :=
  (s.Dups procFt oldfd newfd →
    ∃ s', sysDup2 procFt oldfd newfd s = .ok newfd s' ∧ s.Dupped s' procFt oldfd newfd) ∧
  (¬ s.Dups procFt oldfd newfd → ∃ e, 0 < e ∧ sysDup2 procFt oldfd newfd s = .ok (-e) s)

/-! ## What it returns -/

theorem installCopy_returns {q : Ptr} (h : installCopy q oldfd newfd s = .ok r s') : r = 0 := by
  simp only [installCopy, bind_eq_ok, pure_eq_ok] at h
  obtain ⟨_, _, -, _, _, -, _, _, -, _, _, -, _, _, -, _, _, -, _, _, -, rfl, -⟩ := h
  rfl

theorem fileCopy_returns (h : fileCopy procFt oldfd newfd s = .ok r s') : r = -1 ∨ r = 0 := by
  simp only [fileCopy, bind_eq_ok, get_eq_ok] at h
  obtain ⟨_, _, ⟨rfl, rfl⟩, h⟩ := h
  split at h
  case isTrue => exact Or.inl (pure_eq_ok.mp h).1.symm
  case isFalse =>
    simp only [copyOnto, bind_eq_ok] at h
    obtain ⟨_, _, -, _, _, -, _, _, -, _, _, -, _, _, -, _, _, -, _, _, -, h⟩ := h
    exact Or.inr (installCopy_returns h)

/-- **Whatever it has done, it answers `-EBADF`.** -/
theorem sysDup2_returns (h : sysDup2 procFt oldfd newfd s = .ok r s') : r = -EBADF := by
  simp only [sysDup2, bind_eq_ok] at h
  obtain ⟨copied, s₁, hcopy, h⟩ := h
  have hlow : copied < minFd := by
    rcases fileCopy_returns hcopy with rfl | rfl <;> decide
  rw [if_pos hlow] at h
  exact (pure_eq_ok.mp h).1.symm

theorem sysDup2_of_not_copies (h : ¬ s.Copies procFt oldfd newfd) :
    sysDup2 procFt oldfd newfd s = .ok (-EBADF) s := by
  have hcopy : fileCopy procFt oldfd newfd s = .ok (-1) s := by
    simp only [fileCopy, bind_eq_ok, get_eq_ok]
    refine ⟨s, s, ⟨rfl, rfl⟩, ?_⟩
    rw [if_pos (FileKernel.not_copies_iff.mp h)]
    rfl
  rw [sysDup2, bind_ok hcopy, if_pos (by decide : (-1 : ℤ) < minFd)]
  rfl

/-- A descriptor that is not open gets past the check, and `file_copy` follows it. -/
theorem fileCopy_fault (hs : s.held = []) (h : s.Copies procFt oldfd newfd)
    (hopen : ¬ s.Dups procFt oldfd newfd) : ¬ fileCopy procFt oldfd newfd s = .ok r s' := by
  intro hrun
  obtain ⟨q, rfl⟩ := Option.ne_none_iff_exists'.mp h.table
  simp only [fileCopy, bind_eq_ok, get_eq_ok] at hrun
  obtain ⟨_, _, ⟨rfl, rfl⟩, hrun⟩ := hrun
  have hno : ¬ ∃ p f, s.descriptor (some q) oldfd = some p ∧ s.files p = some f :=
    fun hsome => hopen ⟨h.old, h.new, hsome⟩
  split at hrun
  case isTrue hcheck => exact FileKernel.not_copies_iff.mpr hcheck h
  case isFalse =>
    simp only [bind_eq_ok, nonNull_eq_ok] at hrun
    obtain ⟨_, _, ⟨hq, rfl⟩, hrun⟩ := hrun
    obtain rfl := Option.some.inj hq
    exact (wp_copyOnto_fault (Q := fun _ _ => True) (E := fun _ => False) hs hno).mp
      ((wp_of_ok hrun).mpr trivial)

/-- **`sys_dup2` is right exactly where it has to refuse and the master table makes it.** -/
theorem dup2Right_iff (hs : s.held = []) : s.Dup2Right procFt oldfd newfd ↔
    ¬ s.Dups procFt oldfd newfd ∧ ¬ s.Copies procFt oldfd newfd := by
  constructor
  · intro ⟨hdoes, hrefuses⟩
    have hnot : ¬ s.Dups procFt oldfd newfd := by
      intro hdups
      obtain ⟨s', hrun, -⟩ := hdoes hdups
      have hlow : newfd = -EBADF := sysDup2_returns hrun
      exact absurd (hlow ▸ hdups.new.1) (by decide)
    refine ⟨hnot, fun hcopies => ?_⟩
    obtain ⟨e, -, hrun⟩ := hrefuses hnot
    simp only [sysDup2, bind_eq_ok] at hrun
    obtain ⟨copied, s₁, hcopy, -⟩ := hrun
    exact fileCopy_fault hs hcopies hnot hcopy
  · intro ⟨hnot, hcopies⟩
    exact ⟨fun hdups => absurd hdups hnot, fun _ => ⟨EBADF, by decide, sysDup2_of_not_copies hcopies⟩⟩

/-! ## One open file -/

/-- Descriptor 3 is for file 2 on vnode 1; the file is in slot 3 of the master table too. -/
def oneOpenFile : FileKernel where
  vnRefcount := update (fun _ => 0) 1 2
  files := update (fun _ => none) 2 (some ⟨some 1, 0, 3⟩)
  tables := update (fun _ => none) 0 (some ⟨update (fun _ => none) 3 (some 2), 1⟩)
  master := ⟨update (fun _ => none) 3 (some 2), 1⟩
  contents _ := []
  console := []
  held := []
  next := 3

theorem oneOpenFile_dups : oneOpenFile.Dups (some 0) 3 4 :=
  ⟨by decide, by decide, 2, ⟨some 1, 0, 3⟩, rfl, rfl⟩

theorem oneOpenFile_not_dups : ¬ oneOpenFile.Dups (some 0) 4 5 := by
  intro hdups
  obtain ⟨p, f, hslot, -⟩ := hdups.isOpen
  cases hslot

/-- Descriptor 4 is refused. -/
theorem dup2Right_iff_closed : oneOpenFile.Dup2Right (some 0) 4 5 :=
  (dup2Right_iff rfl).mpr ⟨oneOpenFile_not_dups, fun hcopies => hcopies.master rfl⟩

/-- What `dup2(3, 4)` answers there, what is under descriptor 4 then, and the count of the vnode. -/
def dupAnswer : Option (ℤ × Option Ptr × ℕ) :=
  match sysDup2 (some 0) 3 4 oneOpenFile with
  | .ok r s' => some (r, s'.descriptor (some 0) 4, s'.vnRefcount 1)
  | .error _ _ => none

/-- It copies, takes no reference, and answers `-EBADF`. -/
theorem dup2_returns_ebadf :
    dupAnswer = some (-EBADF, some 2, 2) ∧ ¬ oneOpenFile.Dup2Right (some 0) 3 4 := by
  refine ⟨by decide +kernel, fun hright => ?_⟩
  obtain ⟨s', hrun, -⟩ := hright.1 oneOpenFile_dups
  have hlow : (4 : ℤ) = - EBADF := sysDup2_returns hrun
  exact absurd hlow (by decide)

end UnionCollegeCode.OS161.Files
