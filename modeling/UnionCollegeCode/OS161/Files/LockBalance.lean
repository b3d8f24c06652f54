import UnionCollegeCode.OS161.Files.Syscalls

/-!
# Which descriptor calls give back the locks they take

A call starts from user mode with no lock in the thread's hands. It misuses a lock where a `KASSERT`
of `lock_acquire` or `lock_release` fails, and it is balanced when it does not and returns with the
locks it came with.

`Moves h h' m`: from the locks `h`, whatever else the state is, `m` ends with the locks `h'`, misusing
none on its way.
-/

set_option autoImplicit false

namespace UnionCollegeCode.OS161.Files

open Lib.EState

/-- A lock is acquired that the thread has, or released that it has not. -/
def LockMisuse (e : Stop) : Prop :=
  e = .kassert "lock_do_i_hold(lock)==false" ∨ e = .kassert "lock_do_i_hold(lock)"

def LockBalanced {α : Type} (m : FileM α) (s : FileKernel) : Prop :=
  wp m (fun _ t => ∀ l, l ∈ t.held ↔ l ∈ s.held) (fun e _ => ¬ LockMisuse e) s

def Moves {α : Type} (h h' : List LockId) (m : FileM α) : Prop :=
  ∀ s, s.held = h → wp m (fun _ t => t.held = h') (fun e _ => ¬ LockMisuse e) s

/-! ## Rules -/

section Rules

variable {α β : Type} {h h' h'' : List LockId} {m : FileM α} {f : α → FileM β} {s : FileKernel}
  {p : Ptr} {l : LockId}

theorem Moves.balanced (hm : Moves h h m) (hs : s.held = h) : LockBalanced m s := by
  refine wp_mono (fun _ t ht => ?_) (fun _ _ he => he) (hm s hs)
  rw [ht, hs]
  exact fun _ => Iff.rfl

theorem Moves.bind (hm : Moves h h' m) (hf : ∀ a, Moves h' h'' (f a)) : Moves h h'' (m >>= f) := by
  intro s hs
  rw [wp_bind]
  exact wp_mono (fun a t ht => hf a t ht) (fun _ _ he => he) (hm s hs)

theorem moves_pure (a : α) : Moves h h (pure a : FileM α) := fun _ hs => hs

theorem Moves.ite {c : Prop} [Decidable c] {m' : FileM α} (hm : c → Moves h h' m)
    (hm' : ¬ c → Moves h h' m') : Moves h h' (if c then m else m') := by
  intro s hs
  rw [wp_ite]
  exact ⟨fun hc => hm hc s hs, fun hc => hm' hc s hs⟩

theorem not_misuse_fault : ¬ LockMisuse .fault := by simp [LockMisuse]

theorem moves_fault : Moves h h' (throw .fault : FileM α) := fun _ _ => not_misuse_fault

theorem moves_get : Moves h h (get : FileM FileKernel) := fun _ hs => hs

theorem moves_modify {g : FileKernel → FileKernel} (hg : ∀ s, (g s).held = s.held) :
    Moves h h (modify g : FileM PUnit) := fun s hs => (hg s).trans hs

theorem moves_derefFile : Moves h h (derefFile p) := fun _ hs =>
  wp_derefFile.mpr ⟨fun _ _ => hs, fun _ => not_misuse_fault⟩

theorem moves_derefTable : Moves h h (derefTable p) := fun _ hs =>
  wp_derefTable.mpr ⟨fun _ _ => hs, fun _ => not_misuse_fault⟩

theorem moves_nonNull (o : Option Ptr) : Moves h h (nonNull o) := fun _ hs =>
  wp_nonNull.mpr ⟨fun _ _ => hs, fun _ => not_misuse_fault⟩

theorem moves_derefVnode (v : Option Ptr) : Moves h h (derefVnode v) := fun _ hs =>
  wp_derefVnode.mpr ⟨fun _ _ _ => hs, fun _ => not_misuse_fault⟩

theorem moves_vopIncref (v : Option Ptr) : Moves h h (vopIncref v) := fun _ hs =>
  wp_vopIncref.mpr ⟨fun _ _ _ => hs, fun _ => not_misuse_fault⟩

theorem moves_vopDecref (v : Option Ptr) : Moves h h (vopDecref v) := fun _ hs =>
  wp_vopDecref.mpr ⟨fun _ _ _ => hs, fun _ => not_misuse_fault⟩

theorem moves_indexed (fd : ℤ) : Moves h h (indexed fd) := fun _ hs =>
  wp_indexed.mpr ⟨fun _ => hs, fun _ => not_misuse_fault⟩

theorem moves_kassert {c : Prop} [Decidable c] {expr : String}
    (hexpr : ¬ LockMisuse (.kassert expr)) : Moves h h (kassert c expr) := fun _ hs =>
  wp_kassert.mpr ⟨fun _ => hs, fun _ => hexpr⟩

theorem moves_lockAcquire (hl : l ∉ h) : Moves h (l :: h) (lockAcquire l) := fun s hs => by
  refine wp_lockAcquire.mpr ⟨fun _ => ?_, fun hin => absurd (hs ▸ hin) hl⟩
  show l :: s.held = l :: h
  rw [hs]

theorem moves_lockRelease : Moves (l :: h) h (lockRelease l) := fun s hs => by
  refine wp_lockRelease.mpr ⟨fun _ => ?_, fun hout => absurd (hs ▸ List.mem_cons_self) hout⟩
  show s.held.erase l = h
  rw [hs, List.erase_cons_head]

theorem moves_lockDestroy : Moves h h (lockDestroy l) := fun _ hs =>
  wp_lockDestroy.mpr ⟨fun _ => hs, fun _ => by simp [LockMisuse]⟩

theorem moves_fileLockAcquire (hp : .file p ∉ h) : Moves h (.file p :: h) (fileLockAcquire p) :=
  moves_derefFile.bind fun _ => moves_lockAcquire hp

theorem moves_fileLockRelease : Moves (.file p :: h) h (fileLockRelease p) :=
  moves_derefFile.bind fun _ => moves_lockRelease

theorem moves_tableLockAcquire (hp : .table p ∉ h) : Moves h (.table p :: h) (tableLockAcquire p) :=
  moves_derefTable.bind fun _ => moves_lockAcquire hp

theorem moves_tableLockRelease : Moves (.table p :: h) h (tableLockRelease p) :=
  moves_derefTable.bind fun _ => moves_lockRelease

end Rules

/-! ## The functions of `file_table.c` -/

section Functions

variable {h : List LockId} {q p : Ptr}

theorem moves_fileCreate (ok : Bool) : Moves h h (fileCreate ok) := by
  intro s hs
  cases ok <;> exact hs

theorem moves_clearMaster (fd : ℤ) (hmaster : .master ∉ h) : Moves h h (clearMaster fd) :=
  Moves.ite (fun _ => (moves_lockAcquire hmaster).bind fun _ => (moves_indexed _).bind fun _ =>
    (moves_modify fun _ => by rfl).bind fun _ => moves_lockRelease) fun _ => moves_pure _

/-- A file is destroyed under its own lock and, at most, the master table's. -/
theorem moves_fileDestroy {file : Option Ptr} (hfile : ∀ p, file = some p → .file p ∉ h)
    (hmaster : .master ∉ h) : Moves h h (fileDestroy file) := by
  cases file with
  | none => exact moves_pure 0
  | some p =>
    have hne : LockId.master ∉ LockId.file p :: h := by simp [hmaster]
    refine (moves_fileLockAcquire (hfile p rfl)).bind fun _ => moves_derefFile.bind fun f =>
      (moves_derefVnode _).bind fun r => Moves.ite (fun _ => ?_) fun _ => ?_
    · exact (moves_vopDecref _).bind fun _ => (moves_clearMaster _ hne).bind fun _ =>
        moves_fileLockRelease.bind fun _ => moves_lockDestroy.bind fun _ =>
          (moves_modify fun _ => by rfl).bind fun _ => moves_pure 0
    · exact (moves_vopDecref _).bind fun _ => moves_fileLockRelease.bind fun _ => moves_pure 0

theorem moves_addMaster (i : ℤ) : Moves h h (addMaster p i) :=
  moves_derefFile.bind fun _ => moves_get.bind fun _ =>
    Moves.ite (fun _ => moves_modify fun _ => by rfl) fun _ => moves_pure _

theorem moves_addLocal (i fd : ℤ) : Moves h h (addLocal q p i fd) :=
  moves_derefFile.bind fun _ => moves_derefTable.bind fun _ =>
    Moves.ite (fun _ => (moves_modify fun _ => by rfl).bind fun _ => (moves_vopIncref _).bind fun _ =>
      moves_pure _) fun _ => moves_pure _

theorem moves_addFrom (n : ℕ) : ∀ i fd, Moves h h (addFrom q p n i fd) := by
  induction n with
  | zero => exact fun _ _ => moves_pure _
  | succ n ih =>
    intro i fd
    exact (moves_addMaster i).bind fun _ => (moves_addLocal i fd).bind fun _ =>
      moves_derefFile.bind fun _ => Moves.ite (fun _ => moves_pure _) fun _ => ih _ _

theorem moves_undoLocal (fd : ℤ) : Moves h h (undoLocal q p fd) :=
  Moves.ite (fun _ => moves_derefTable.bind fun _ => (moves_modify fun _ => by rfl).bind fun _ =>
    moves_derefFile.bind fun _ => moves_vopDecref _) fun _ => moves_pure _

theorem moves_undoMaster : Moves h h (undoMaster p) :=
  moves_derefFile.bind fun _ => Moves.ite (fun _ => (moves_indexed _).bind fun _ =>
    moves_modify fun _ => by rfl) fun _ => moves_pure _

theorem moves_fileTableAdd (fileT file : Option Ptr) : Moves [] [] (fileTableAdd fileT file) := by
  refine moves_get.bind fun s => Moves.ite (fun _ => moves_pure _) fun _ =>
    (moves_nonNull _).bind fun p => moves_derefFile.bind fun f => Moves.ite (fun _ => moves_pure _)
      fun _ => (moves_fileLockAcquire (by simp)).bind fun _ => (moves_nonNull _).bind fun q =>
        (moves_tableLockAcquire (by simp)).bind fun _ => (moves_lockAcquire (by simp)).bind fun _ =>
          (moves_addFrom 125 _ _).bind fun r => Moves.ite (fun _ => ?_) fun _ => ?_
  · exact moves_lockRelease.bind fun _ => moves_tableLockRelease.bind fun _ =>
      moves_fileLockRelease.bind fun _ => moves_pure _
  · exact (moves_undoLocal _).bind fun _ => moves_undoMaster.bind fun _ =>
      moves_lockRelease.bind fun _ => moves_tableLockRelease.bind fun _ =>
        moves_fileLockRelease.bind fun _ => moves_pure _

theorem moves_fileTableLookup (fileT : Option Ptr) (fd : ℤ) :
    Moves [] [] (fileTableLookup fileT fd) :=
  Moves.ite (fun _ => moves_pure _) fun _ => (moves_nonNull _).bind fun _ =>
    (moves_tableLockAcquire (by simp)).bind fun _ => moves_derefTable.bind fun _ =>
      (moves_indexed _).bind fun _ => moves_tableLockRelease.bind fun _ => moves_pure _

end Functions

/-! ## The descriptor calls -/

/-- The calls of a process on its descriptors, with their arguments and what the rest of the kernel
answers. -/
inductive DescriptorCall
  | open (filename : Option Ptr) (flags : ℤ) (a : OpenAnswers)
  | close (fd : ℤ)
  | dup2 (oldfd newfd : ℤ)
  | read (fd : ℤ) (buf : Option Ptr) (buflen : UInt32) (a : ReadAnswers)
  | write (fd : ℤ) (buf : Option Ptr) (user : List UInt8) (buflen : ℤ) (a : WriteAnswers)
  | lseek (fd offset whence : ℤ) (a : SeekAnswers)
  /-- The `file_table_copy` of `sys_fork`. -/
  | forkCopy (a : TableAlloc)

namespace DescriptorCall

def run (procFt : Option Ptr) : DescriptorCall → FileM Unit
  | .open filename flags a => do
    let _ ← sysOpen procFt filename flags a
  | .close fd => do
    let _ ← sysClose procFt fd
  | .dup2 oldfd newfd => do
    let _ ← sysDup2 procFt oldfd newfd
  | .read fd buf buflen a => do
    let _ ← sysRead procFt fd buf buflen a
  | .write fd buf user buflen a => do
    let _ ← sysWrite procFt fd buf user buflen a
  | .lseek fd offset whence a => do
    let _ ← sysLseek procFt fd offset whence a
  | .forkCopy a => do
    let _ ← fileTableCopy procFt a

/-- What goes wrong with the locks of a call, and when.

* `dup2` onto the file that it copies from, or onto one that only its own slot keeps alive: it has
  that file's lock, or the master table's, already;
* `read` where `VOP_READ` fails: it returns with the file's lock;
* `lseek` where the first `VOP_STAT` fails: it releases the file's lock before it has it;
* the copy where there is no memory for a table: it returns with the old table's lock. -/
def Unbalanced (procFt : Option Ptr) (s : FileKernel) : DescriptorCall → Prop
  | .open _ _ _ | .close _ | .write _ _ _ _ _ => False
  | .dup2 oldfd newfd => ∃ p f g,
      (minFd ≤ oldfd ∧ oldfd < openMax) ∧ (minFd ≤ newfd ∧ newfd < openMax) ∧
      s.master.fileArr oldfd ≠ none ∧ s.descriptor procFt oldfd = some p ∧ s.files p = some f ∧
      s.descriptor procFt newfd = some g ∧
      (g = p ∨ ∃ f' v, s.OpenAs procFt newfd g f' v ∧ s.vnRefcount v = oneFileOwner ∧
        f'.masterFd ≠ floatingFile)
  | .read fd buf _ a => buf ≠ none ∧ a.vopRead.result ≠ 0 ∧ ∃ p f v, s.OpenAs procFt fd p f v
  | .lseek fd _ _ a => a.isSeekable = true ∧ a.stat ≠ 0 ∧ ∃ p f v, s.OpenAs procFt fd p f v
  | .forkCopy a => a = .noTable ∧ ∃ q t, procFt = some q ∧ s.tables q = some t

end DescriptorCall

section Calls

variable {h : List LockId} {q p : Ptr}

theorem moves_vfsOpen (answer : ℕ × Option Ptr) : Moves h h (vfsOpen answer) := by
  unfold vfsOpen
  split
  · exact (moves_modify fun _ => by rfl).bind fun _ => moves_pure _
  · exact moves_pure _

theorem moves_vnodeCleanup (v : Option Ptr) : Moves h h (vnodeCleanup v) :=
  (moves_derefVnode v).bind fun _ => (moves_kassert (by simp [LockMisuse])).bind fun _ =>
    moves_modify fun _ => by rfl

theorem moves_withFile {α : Type} {e : α} {found : Ptr → FileM α} (procFt : Option Ptr) (fd : ℤ)
    (hfound : ∀ p, Moves [] [] (found p)) : Moves [] [] (withFile procFt fd e found) := by
  refine (moves_fileTableLookup _ _).bind fun file => ?_
  cases file with
  | none => exact moves_pure _
  | some p => exact hfound p

theorem moves_openFile (procFt : Option Ptr) (v : Option Ptr) : Moves [] [] (openFile procFt p v) :=
  moves_derefFile.bind fun _ => (moves_modify fun _ => by rfl).bind fun _ =>
    (moves_fileTableAdd _ _).bind fun _ => Moves.ite
      (fun _ => (moves_fileDestroy (by simp) (by simp)).bind fun _ => moves_pure _)
      fun _ => moves_pure _

theorem moves_sysOpen (procFt filename : Option Ptr) (flags : ℤ) (a : OpenAnswers) :
    Moves [] [] (sysOpen procFt filename flags a) := by
  refine Moves.ite (fun _ => moves_pure _) fun _ => Moves.ite (fun _ => moves_pure _) fun _ =>
    Moves.ite (fun _ => moves_pure _) fun _ => (moves_vfsOpen _).bind fun r =>
      Moves.ite (fun _ => moves_fault) fun _ => Moves.ite (fun _ => moves_pure _) fun _ =>
        (moves_fileCreate _).bind fun file => ?_
  cases file with
  | none => exact (moves_vnodeCleanup _).bind fun _ => moves_pure _
  | some p => exact moves_openFile _ _

theorem moves_sysClose (procFt : Option Ptr) (fd : ℤ) : Moves [] [] (sysClose procFt fd) := by
  refine Moves.ite (fun _ => moves_pure _) fun _ => moves_withFile _ _ fun p => ?_
  exact (moves_nonNull _).bind fun _ => (moves_tableLockAcquire (by simp)).bind fun _ =>
    moves_derefTable.bind fun _ => (moves_modify fun _ => by rfl).bind fun _ =>
      moves_tableLockRelease.bind fun _ => (moves_fileDestroy (by simp) (by simp)).bind fun _ =>
        moves_pure _

theorem moves_vopWrite (v : Option Ptr) (data : List UInt8) (off : ℤ) (r : VopResult) :
    Moves h h (vopWrite v data off r) := by
  refine (moves_derefVnode v).bind fun w => ?_
  intro s hs
  simp only [wp_bind, wp_ite, wp_modify, wp_pure]
  exact ⟨fun _ => hs, fun _ => hs⟩

theorem moves_writeFile (data : List UInt8) (r : VopResult) : Moves [] [] (writeFile p data r) :=
  (moves_fileLockAcquire (by simp)).bind fun _ => moves_derefFile.bind fun _ =>
    (moves_vopWrite _ _ _ _).bind fun _ => moves_fileLockRelease.bind fun _ =>
      Moves.ite (fun _ => moves_pure _) fun _ => moves_pure _

theorem moves_writeConsole (data : List UInt8) (buflen : ℤ) : Moves h h (writeConsole data buflen) :=
  (moves_modify fun _ => by rfl).bind fun _ => moves_pure _

theorem moves_sysWrite (procFt : Option Ptr) (fd : ℤ) (buf : Option Ptr) (user : List UInt8)
    (buflen : ℤ) (a : WriteAnswers) : Moves [] [] (sysWrite procFt fd buf user buflen a) :=
  Moves.ite (fun _ => moves_pure _) fun _ => Moves.ite (fun _ => moves_pure _) fun _ =>
    Moves.ite (fun _ => moves_pure _) fun _ => Moves.ite (fun _ => moves_pure _) fun _ =>
      Moves.ite (fun _ => moves_pure _) fun _ => Moves.ite (fun _ => moves_writeConsole _ _) fun _ =>
        Moves.ite (fun _ => moves_writeConsole _ _) fun _ =>
          moves_withFile _ _ fun _ => moves_writeFile _ _

theorem moves_seekTo (newPos : ℤ) : Moves (.file p :: h) h (seekTo p newPos) :=
  moves_derefFile.bind fun _ => (moves_modify fun _ => by rfl).bind fun _ =>
    moves_fileLockRelease.bind fun _ => moves_pure _

theorem moves_seekFile (curPos whence : ℤ) (a : SeekAnswers) :
    Moves [] [] (seekFile p curPos whence a) := by
  have hfail : ∀ e : ℤ, Moves [.file p] [] (do
      fileLockRelease p
      return e) := fun e => moves_fileLockRelease.bind fun _ => moves_pure _
  exact (moves_fileLockAcquire (by simp)).bind fun _ => moves_derefFile.bind fun _ =>
    (moves_derefVnode _).bind fun _ => moves_get.bind fun _ =>
      Moves.ite (fun _ => moves_seekTo _) fun _ => Moves.ite (fun _ => moves_seekTo _) fun _ =>
        Moves.ite (fun _ => Moves.ite (fun _ => hfail _) fun _ => moves_seekTo _) fun _ => hfail _

theorem moves_getchFrom (getch : ℕ → ℤ) (buf : Bool) (n : ℕ) :
    ∀ i, Moves h h (getchFrom getch buf n i) := by
  induction n with
  | zero => exact fun _ => moves_pure _
  | succ n ih =>
    intro i
    refine Moves.ite (fun _ => moves_pure _) fun _ => Moves.ite (fun _ => moves_fault) fun _ =>
      Moves.ite (fun _ => moves_pure _) fun _ => (ih _).bind fun r => ?_
    cases r <;> exact moves_pure _

theorem moves_readConsole (buflen : UInt32) (a : ReadAnswers) : Moves h h (readConsole buflen a) := by
  refine (moves_getchFrom _ _ _ _).bind fun r => ?_
  cases r with
  | inl e => exact moves_pure _
  | inr chars => exact Moves.ite (fun _ => moves_pure _) fun _ => moves_pure _

end Calls

/-! ## The calls that do not always -/

section Conditions

variable {s : FileKernel} {procFt : Option Ptr} {fd : ℤ} {p : Ptr}

theorem readFile_balanced_iff {n : UInt32} {r : VopResult} (hp : .file p ∉ s.held) :
    LockBalanced (readFile p n r) s ↔ ∀ f v, s.files p = some f → f.fileVnode = some v →
      s.vnRefcount v ≠ 0 → r.result = 0 := by
  simp only [LockBalanced, readFile, fileLockAcquire, fileLockRelease, wp_bind, wp_derefFile,
    wp_lockAcquire, wp_vopRead, wp_ite, wp_pure, wp_modify, wp_lockRelease, not_misuse_fault, hp,
    FileKernel.setHeld, FileKernel.setFile]
  simp only [Function.update_self]
  simp [hp]
  grind

theorem lockBalanced_pure {α : Type} (a : α) : LockBalanced (pure a : FileM α) s := fun _ => Iff.rfl

/-- A call that looks a descriptor up is balanced when what it does with the file is. -/
theorem withFile_balanced_iff {α : Type} {e : α} {found : Ptr → FileM α} (hs : s.held = [])
    (hfd : minFd ≤ fd ∧ fd < openMax) :
    LockBalanced (withFile procFt fd e found) s ↔
      ∀ p, s.descriptor procFt fd = some p → LockBalanced (found p) s := by
  rw [LockBalanced, withFile, wp_bind, wp_fileTableLookup hs hfd]
  cases procFt with
  | none => simp [FileKernel.descriptor, wp_pure]
  | some q =>
    cases ht : s.tables q with
    | none => simp [FileKernel.descriptor, ht, not_misuse_fault]
    | some t =>
      cases hp : t.fileArr fd with
      | none => simp [FileKernel.descriptor, ht, hp, wp_pure]
      | some p =>
        simp [FileKernel.descriptor, ht, hp]
        rfl

theorem sysRead_balanced_iff {buf : Option Ptr} {n : UInt32} {a : ReadAnswers} (hs : s.held = []) :
    LockBalanced (sysRead procFt fd buf n a) s ↔ ¬ (buf ≠ none ∧ a.vopRead.result ≠ 0 ∧
      ∃ p f v, s.OpenAs procFt fd p f v) := by
  have hfree : ∀ l, l ∉ s.held := fun l => by simp [hs]
  by_cases hfile : buf ≠ none ∧ minFd ≤ fd ∧ fd < openMax
  · obtain ⟨hbuf, hfd⟩ := hfile
    have hcases : ¬ (fd < 0 ∨ fd ≥ openMax) ∧ fd ≠ 0 ∧ fd ≠ 1 ∧ fd ≠ 2 := by
      simp only [minFd] at hfd
      omega
    simp only [sysRead, hbuf, hcases, if_false]
    rw [withFile_balanced_iff hs hfd]
    simp only [readFile_balanced_iff (hfree _)]
    constructor
    · rintro h ⟨-, hres, p, f, v, ho⟩
      exact hres (h p ho.slot f v ho.file ho.vnode ho.inMemory)
    · intro h p hp f v hf hv hn
      by_contra hres
      exact h ⟨hbuf, hres, p, f, v, hfd, hp, hf, hv, hn⟩
  · refine iff_of_true ?_ fun ⟨hbuf, _, p, f, v, ho⟩ => hfile ⟨hbuf, ho.range⟩
    unfold sysRead
    split
    · exact lockBalanced_pure _
    · next hrange =>
      split
      · exact lockBalanced_pure _
      · next hbuf =>
        split
        · exact (moves_readConsole _ _).balanced rfl
        · split
          · exact lockBalanced_pure _
          · split
            · exact lockBalanced_pure _
            · refine absurd ⟨hbuf, ?_⟩ hfile
              simp only [minFd]
              omega

theorem sysLseek_balanced_iff {offset whence : ℤ} {a : SeekAnswers} (hs : s.held = []) :
    LockBalanced (sysLseek procFt fd offset whence a) s ↔ ¬ (a.isSeekable = true ∧ a.stat ≠ 0 ∧
      ∃ p f v, s.OpenAs procFt fd p f v) := by
  by_cases hfd : minFd ≤ fd ∧ fd < openMax
  · have hcases : ¬ (fd < 0 ∨ fd ≥ openMax) ∧ fd ≠ 0 ∧ fd ≠ 1 ∧ fd ≠ 2 := by
      simp only [minFd] at hfd
      omega
    simp only [sysLseek, hcases, if_false]
    rw [withFile_balanced_iff hs hfd]
    by_cases hbad : a.isSeekable = true ∧ a.stat ≠ 0
    · obtain ⟨hseek, hstat⟩ := hbad
      simp only [LockBalanced, fileLockRelease, wp_bind, wp_derefFile, wp_derefVnode, wp_ite,
        wp_lockRelease, wp_pure, hseek, hs]
      constructor
      · rintro h ⟨-, -, p, f, v, ho⟩
        have := ((h p ho.slot).1 f ho.file).1 v ho.vnode ho.inMemory
        simp [ho.file, LockMisuse] at this
        exact hstat this.1
      · intro h p hp
        refine ⟨fun f hf => ⟨fun v hv hn => ?_, fun _ => not_misuse_fault⟩, fun _ => not_misuse_fault⟩
        exact absurd ⟨trivial, hstat, p, f, v, hfd, hp, hf, hv, hn⟩ h
    · refine iff_of_true (fun p _ => ?_) fun h => hbad ⟨h.1, h.2.1⟩
      refine Moves.balanced (moves_derefFile.bind fun f => (moves_derefVnode _).bind fun _ =>
        Moves.ite (fun _ => moves_pure _) fun hseek => Moves.ite (fun hstat => ?_) fun _ =>
          Moves.ite (fun _ => moves_pure _) fun _ => Moves.ite (fun _ => moves_pure _) fun _ =>
            moves_seekFile _ _ _) hs
      exact absurd ⟨by simpa using hseek, hstat⟩ hbad
  · have hclosed : ¬ (a.isSeekable = true ∧ a.stat ≠ 0 ∧ ∃ p f v, s.OpenAs procFt fd p f v) := by
      rintro ⟨-, -, p, f, v, ho⟩
      exact hfd ho.range
    refine iff_of_true ?_ hclosed
    unfold sysLseek
    refine Moves.balanced (Moves.ite (fun _ => moves_pure _) fun hrange => Moves.ite
      (fun _ => moves_pure _) fun _ => Moves.ite (fun _ => moves_pure _) fun _ => Moves.ite
        (fun _ => moves_pure _) fun _ => absurd ?_ hfd) hs
    simp only [minFd]
    omega

theorem moves_copySlot {q new : Ptr} (i : ℤ) :
    Moves [.table q] [.table q] (copySlot q new i) := by
  refine moves_derefTable.bind fun t => ?_
  split
  · exact moves_pure _
  · exact (moves_fileLockAcquire (by simp)).bind fun _ => moves_derefTable.bind fun _ =>
      (moves_modify fun _ => by rfl).bind fun _ => moves_derefFile.bind fun _ =>
        (moves_vopIncref _).bind fun _ => moves_fileLockRelease

theorem moves_copyFrom {q new : Ptr} (n : ℕ) :
    ∀ i, Moves [.table q] [.table q] (copyFrom q new n i) := by
  induction n with
  | zero => exact fun _ => moves_pure _
  | succ n ih => exact fun i => (moves_copySlot i).bind fun _ => ih _

theorem moves_fillTable {q new : Ptr} : Moves [.table q] [] (fillTable q new) :=
  moves_derefTable.bind fun _ => moves_derefTable.bind fun _ =>
    (moves_modify fun _ => by rfl).bind fun _ => (moves_copyFrom 125 _).bind fun _ =>
      moves_tableLockRelease.bind fun _ => moves_pure _

theorem fileTableCopy_balanced_iff {a : TableAlloc} (hs : s.held = []) :
    LockBalanced (fileTableCopy procFt a) s ↔
      ¬ (a = .noTable ∧ ∃ q t, procFt = some q ∧ s.tables q = some t) := by
  cases procFt with
  | none => exact iff_of_true (lockBalanced_pure _) fun ⟨_, _, _, hq, _⟩ => by cases hq
  | some q =>
    cases ht : s.tables q with
    | none =>
      refine iff_of_true ?_ fun ⟨_, q', t, hq, ht'⟩ => by
        cases hq
        cases ht.symm.trans ht'
      simp [LockBalanced, fileTableCopy, tableLockAcquire, wp_bind, wp_derefTable, ht,
        not_misuse_fault]
    | some t =>
      cases a with
      | noTable =>
        refine iff_of_false (fun h => ?_) fun h => h ⟨rfl, q, t, rfl, ht⟩
        simp only [LockBalanced, fileTableCopy, fileTableCreate, tableLockAcquire, wp_bind,
          wp_derefTable, wp_lockAcquire, wp_pure, hs] at h
        have := (h.1 t ht).1 (by simp) (.table q)
        simp [FileKernel.setHeld] at this
      | noLock =>
        refine iff_of_true ?_ fun h => TableAlloc.noConfusion h.1
        simp [LockBalanced, fileTableCopy, fileTableCreate, tableLockAcquire, wp_bind, wp_derefTable,
          wp_lockAcquire, wp_throw, ht, hs, LockMisuse]
      | ok =>
        refine iff_of_true (Moves.balanced ?_ hs) fun h => TableAlloc.noConfusion h.1
        refine (moves_tableLockAcquire (by simp)).bind fun _ => fun s' hs' => ?_
        rw [fileTableCreate, wp_bind, wp_bind, wp_get, wp_bind, wp_set, wp_pure]
        exact moves_fillTable _ hs'

/-- The end of `file_copy` gives back its three locks, if the slot it copies from is another. -/
theorem installCopy_balanced {q : Ptr} {t : FileTable} {f : File} {oldfd newfd : ℤ}
    (hs : s.held = [.master, .file p, .table q]) (ht : s.tables q = some t)
    (hold : t.fileArr oldfd = some p) (hf : s.files p = some f) (hne : oldfd ≠ newfd) :
    wp (installCopy q oldfd newfd) (fun _ t => t.held = []) (fun e _ => ¬ LockMisuse e) s := by
  simp only [installCopy, fileLockRelease, tableLockRelease, wp_bind, wp_derefTable, wp_modify,
    wp_lockRelease, wp_nonNull, wp_derefFile, wp_pure]
  simp [FileKernel.setTable, FileKernel.setHeld, hs, ht, hold, hf, hne]

/-- `file_copy` past its check: the file it replaces must be another, and one it need not free. -/
theorem copyOnto_balanced_iff {q : Ptr} {oldfd newfd : ℤ} (hs : s.held = [])
    (hnew : minFd ≤ newfd ∧ newfd < openMax) :
    LockBalanced (copyOnto q oldfd newfd) s ↔ ¬ ∃ p f g,
      s.descriptor (some q) oldfd = some p ∧ s.files p = some f ∧
      s.descriptor (some q) newfd = some g ∧
      (g = p ∨ ∃ f' v, s.OpenAs (some q) newfd g f' v ∧ s.vnRefcount v = oneFileOwner ∧
        f'.masterFd ≠ floatingFile) := by
  simp only [LockBalanced, hs, List.not_mem_nil, iff_false]
  by_cases hfound : ∃ p f, s.descriptor (some q) oldfd = some p ∧ s.files p = some f
  · obtain ⟨p, f, hp, hf⟩ := hfound
    obtain ⟨t, ht, hold⟩ : ∃ t, s.tables q = some t ∧ t.fileArr oldfd = some p := by
      simpa [FileKernel.descriptor, Option.bind_eq_some_iff] using hp
    have hslot : ∀ fd, s.descriptor (some q) fd = t.fileArr fd := fun fd => by
      simp [FileKernel.descriptor, ht]
    rw [wp_copyOnto hs ht hold hf]
    -- The second half of `file_copy` gives every lock back, from any state with these three held.
    have hinstall : ∀ s' : FileKernel, s'.held = [.master, .file p, .table q] → s'.tables = s.tables →
        s'.files p = some f → oldfd ≠ newfd →
        wp (installCopy q oldfd newfd) (fun _ t => ∀ l, l ∉ t.held) (fun e _ => ¬ LockMisuse e) s' :=
      fun s' hs' ht' hf' hne => wp_mono (fun _ t h => by simp [h]) (fun _ _ h => h)
        (installCopy_balanced hs' (ht' ▸ ht) hold hf' hne)
    -- What `file_destroy` asks for depends on what the new slot holds: nothing, the file that is
    -- copied, or another.
    cases hg : t.fileArr newfd with
    | none =>
      refine iff_of_true (hinstall _ rfl rfl hf ?_) ?_
      · rintro rfl
        cases hold.symm.trans hg
      · rintro ⟨_, _, g, -, -, hg', -⟩
        rw [hslot, hg] at hg'
        cases hg'
    | some g =>
      let s₁ := s.setHeld [.master, .file p, .table q]
      have hheld : ∀ l, l ∈ s₁.held ↔ l ∈ [.master, .file p, .table q] := fun _ => Iff.rfl
      by_cases hgp : g = p
      · -- The lock of the old file is asked for again.
        subst hgp
        rw [wp_fileDestroy_twice (s := s₁) (by simp [hheld]) hf]
        exact iff_of_false (fun h => h (Or.inl rfl))
          fun h => h ⟨g, f, g, hp, hf, (hslot _).trans hg, Or.inl rfl⟩
      · by_cases hlive : ∃ f' v, s.files g = some f' ∧ f'.fileVnode = some v ∧ s.vnRefcount v ≠ 0
        · obtain ⟨f', v, hf', hv, hn⟩ := hlive
          have hopen : s.OpenAs (some q) newfd g f' v := ⟨hnew, (hslot _).trans hg, hf', hv, hn⟩
          rw [wp_fileDestroy (s := s₁) (by simp [hheld, hgp]) hf' hv hn]
          by_cases hlast : s.vnRefcount v = oneFileOwner ∧ f'.masterFd ≠ floatingFile
          · -- So is the master table's.
            refine iff_of_false (fun h => ?_)
              fun h => h ⟨p, f, g, hp, hf, hopen.slot, Or.inr ⟨f', v, hopen, hlast⟩⟩
            exact (h.1 hlast).1 (by simp [hheld]) (Or.inl rfl)
          · have hframe := s₁.dropFile_frame g f' v
            refine iff_of_true ⟨fun h => absurd h hlast, fun _ => ?_⟩ ?_
            · refine hinstall _ hframe.1 hframe.2.1 ((hframe.2.2 p (Ne.symm hgp)).trans hf) ?_
              rintro rfl
              exact hgp (Option.some.inj (hg.symm.trans hold))
            · rintro ⟨p', _, g', hp', -, hg', hbad⟩
              cases hp.symm.trans hp'
              cases hopen.slot.symm.trans hg'
              rcases hbad with hbad | ⟨f'', w, hopen', hbad⟩
              · exact hgp hbad
              · cases hf'.symm.trans hopen'.file
                cases hv.symm.trans hopen'.vnode
                exact hlast hbad
        · rw [wp_fileDestroy_fault (s := s₁) (by simp [hheld, hgp]) hlive]
          refine iff_of_true not_misuse_fault ?_
          rintro ⟨p', _, g', hp', -, hg', hbad⟩
          cases hp.symm.trans hp'
          cases ((hslot _).trans hg).symm.trans hg'
          rcases hbad with hbad | ⟨f'', w, hopen', -⟩
          · exact hgp hbad
          · exact hlive ⟨f'', w, hopen'.file, hopen'.vnode, hopen'.inMemory⟩
  · rw [wp_copyOnto_fault hs hfound]
    refine iff_of_true not_misuse_fault ?_
    rintro ⟨p, f, g, hp, hf, -⟩
    exact hfound ⟨p, f, hp, hf⟩

theorem fileCopy_balanced_iff {oldfd newfd : ℤ} (hs : s.held = []) :
    LockBalanced (fileCopy procFt oldfd newfd) s ↔
      ¬ (DescriptorCall.dup2 oldfd newfd).Unbalanced procFt s := by
  rw [LockBalanced, fileCopy, wp_bind, wp_get]
  by_cases hearly : oldfd < minFd ∨ newfd < minFd ∨ oldfd ≥ openMax ∨ newfd ≥ openMax ∨
      procFt = none ∨ s.master.fileArr oldfd = none
  · rw [if_pos hearly]
    refine iff_of_true (fun _ => Iff.rfl) ?_
    rintro ⟨p, f, g, hold, hnew, hmaster, hp, -⟩
    have hproc : procFt ≠ none := by
      rintro rfl
      cases hp
    simp only [hproc, hmaster, or_false] at hearly
    omega
  · have hargs := hearly
    simp only [not_or, Int.not_lt, ge_iff_le, Int.not_le] at hargs
    obtain ⟨holdMin, hnewMin, holdMax, hnewMax, hproc, hmaster⟩ := hargs
    obtain ⟨q, rfl⟩ := Option.ne_none_iff_exists'.mp hproc
    rw [if_neg hearly, wp_bind]
    simp only [wp_nonNull, Option.some.injEq, reduceCtorEq, false_implies, forall_eq', and_true]
    refine (copyOnto_balanced_iff hs ⟨hnewMin, hnewMax⟩).trans (not_congr ?_)
    constructor
    · rintro ⟨p, f, g, h⟩
      exact ⟨p, f, g, ⟨holdMin, holdMax⟩, ⟨hnewMin, hnewMax⟩, hmaster, h⟩
    · rintro ⟨p, f, g, -, -, -, h⟩
      exact ⟨p, f, g, h⟩

end Conditions

namespace DescriptorCall

/-- The state of the kernel when a thread comes from user mode: no lock is in its hands. -/
def fromUser (s : FileKernel) : FileKernel := s.setHeld []

theorem lockBalanced_discard {α : Type} {m : FileM α} {s : FileKernel} :
    LockBalanced (do
      let _ ← m) s ↔ LockBalanced m s := by
  simp only [LockBalanced, wp_bind, wp_pure]

theorem sysDup2_balanced {procFt : Option Ptr} {oldfd newfd : ℤ} {s : FileKernel} :
    LockBalanced (sysDup2 procFt oldfd newfd) s ↔ LockBalanced (fileCopy procFt oldfd newfd) s := by
  simp only [LockBalanced, sysDup2, wp_bind, wp_ite, wp_pure]
  constructor
  · exact wp_mono (fun a t h => (em (a < minFd)).elim h.1 h.2) fun _ _ h => h
  · exact wp_mono (fun a t h => ⟨fun _ => h, fun _ => h⟩) fun _ _ h => h

/-- **Which descriptor calls keep the balance of their locks**, for every argument, every state of
the tables and every answer of the rest of the kernel. -/
theorem lockBalanced_iff (procFt : Option Ptr) (call : DescriptorCall) (s : FileKernel) :
    LockBalanced (call.run procFt) (fromUser s) ↔ ¬ call.Unbalanced procFt (fromUser s) := by
  have hs : (fromUser s).held = [] := rfl
  cases call with
  | «open» filename flags a =>
    exact iff_of_true (lockBalanced_discard.mpr ((moves_sysOpen _ _ _ _).balanced hs)) fun h => h
  | close fd =>
    exact iff_of_true (lockBalanced_discard.mpr ((moves_sysClose _ _).balanced hs)) fun h => h
  | dup2 oldfd newfd =>
    exact lockBalanced_discard.trans (sysDup2_balanced.trans (fileCopy_balanced_iff hs))
  | read fd buf buflen a => exact lockBalanced_discard.trans (sysRead_balanced_iff hs)
  | write fd buf user buflen a =>
    exact iff_of_true (lockBalanced_discard.mpr ((moves_sysWrite _ _ _ _ _ _).balanced hs)) fun h => h
  | lseek fd offset whence a => exact lockBalanced_discard.trans (sysLseek_balanced_iff hs)
  | forkCopy a => exact lockBalanced_discard.trans (fileTableCopy_balanced_iff hs)

/-- Descriptor 3 of table 1 is file 2 on vnode 0. -/
def oneOpenFile : FileKernel where
  vnRefcount := fun v => if v = 0 then 2 else 0
  files := fun p => if p = 2 then some ⟨some 0, 0, 3⟩ else none
  tables := fun q => if q = 1 then some ⟨fun fd => if fd = 3 then some 2 else none, 0⟩ else none
  master := ⟨fun fd => if fd = 3 then some 2 else none, 0⟩
  contents := fun _ => []
  console := []
  held := []
  next := 3

/-- A disk error on a read. -/
def failingRead : DescriptorCall :=
  .read 3 (some 0) 1 ⟨fun _ => 0, true, 0, ⟨32, 0⟩⟩

theorem failingRead_keeps_lock :
    (∃ u t, failingRead.run (some 1) (fromUser oneOpenFile) = .ok u t ∧ t.held = [.file 2]) ∧
      ¬ LockBalanced (failingRead.run (some 1)) (fromUser oneOpenFile) := by
  have hrun : ∃ t, failingRead.run (some 1) (fromUser oneOpenFile) = .ok () t ∧
      t.held = [.file 2] := ⟨_, rfl, rfl⟩
  obtain ⟨t, hrun, hheld⟩ := hrun
  refine ⟨⟨_, t, hrun, hheld⟩, fun h => ?_⟩
  have := (wp_of_ok hrun).mp h (.file 2)
  rw [hheld] at this
  simp [fromUser, FileKernel.setHeld] at this

end DescriptorCall

end UnionCollegeCode.OS161.Files
