import UnionCollegeCode.OS161.Kernel

/-!
# `file_table.c`

Open files, the table of each process and the master table of the kernel process, which makes no
descriptor call itself. A file's lock and a table's lock live and die with their object. A function
runs in `FileM`: it stops at a failed `KASSERT` and where it follows a `NULL` or freed pointer.

`held` are the locks of the running thread. A lock that another thread has is waited for, so
`lock_acquire` ends with the lock in the thread's hands or with its own `KASSERT`.
-/

set_option autoImplicit false

namespace UnionCollegeCode.OS161.Files

open Function (update)
open Lib.EState

def openMax : ℤ := 128
def minFd : ℤ := 3
def floatingFile : ℤ := -1
def oneFileOwner : ℕ := 2

structure File where
  fileVnode : Option Ptr
  seekPos : ℤ
  masterFd : ℤ
  deriving DecidableEq, Repr

structure FileTable where
  fileArr : ℤ → Option Ptr
  numFiles : ℤ

inductive LockId
  | file (f : Ptr)
  | table (ft : Ptr)
  /-- `kproc->proc_ft->file_table_lock`. -/
  | master
  deriving DecidableEq, Repr

structure FileKernel where
  /-- `vn_refcount`; 0 when the vnode is not in memory. -/
  vnRefcount : Ptr → ℕ
  files : Ptr → Option File
  tables : Ptr → Option FileTable
  master : FileTable
  /-- What a regular file holds. -/
  contents : Ptr → List UInt8
  console : List UInt8
  held : List LockId
  next : Ptr

abbrev FileM (α : Type) := EStateM Stop FileKernel α

namespace FileKernel

def setCount (s : FileKernel) (v : Ptr) (n : ℕ) : FileKernel :=
  { s with vnRefcount := update s.vnRefcount v n }

def setFile (s : FileKernel) (p : Ptr) (f : Option File) : FileKernel :=
  { s with files := update s.files p f }

def setTable (s : FileKernel) (q : Ptr) (t : Option FileTable) : FileKernel :=
  { s with tables := update s.tables q t }

def setMaster (s : FileKernel) (fd : ℤ) (p : Option Ptr) : FileKernel :=
  { s with master := { s.master with fileArr := update s.master.fileArr fd p } }

def setHeld (s : FileKernel) (held : List LockId) : FileKernel := { s with held := held }

/-- What a table has under a descriptor. -/
def descriptor (s : FileKernel) (fileT : Option Ptr) (fd : ℤ) : Option Ptr :=
  (fileT.bind s.tables).bind fun t => t.fileArr fd

/-- The descriptor is in use, for a file that is not destroyed and whose vnode is in memory. -/
structure OpenAs (s : FileKernel) (fileT : Option Ptr) (fd : ℤ) (p : Ptr) (f : File) (v : Ptr) :
    Prop where
  range : minFd ≤ fd ∧ fd < openMax
  slot : s.descriptor fileT fd = some p
  file : s.files p = some f
  vnode : f.fileVnode = some v
  inMemory : s.vnRefcount v ≠ 0

end FileKernel

/-! ## Pointers, locks and vnodes -/

def kassert (p : Prop) [Decidable p] (expr : String) : FileM Unit :=
  if p then pure () else throw (.kassert expr)

def derefFile (p : Ptr) : FileM File := do
  match (← get).files p with
  | none => throw .fault
  | some f => return f

def derefTable (q : Ptr) : FileM FileTable := do
  match (← get).tables q with
  | none => throw .fault
  | some t => return t

/-- The pointer itself, unless it is `NULL`. -/
def nonNull (p : Option Ptr) : FileM Ptr :=
  match p with
  | none => throw .fault
  | some q => return q

def lockAcquire (l : LockId) : FileM Unit := do
  let s ← get
  kassert (l ∉ s.held) "lock_do_i_hold(lock)==false"
  set (s.setHeld (l :: s.held))

def lockRelease (l : LockId) : FileM Unit := do
  let s ← get
  kassert (l ∈ s.held) "lock_do_i_hold(lock)"
  set (s.setHeld (s.held.erase l))

def lockDestroy (l : LockId) : FileM Unit := do
  let s ← get
  kassert (l ∉ s.held) "!lock_do_i_hold(lock)"

/-- `lock_acquire(file->file_lock)`. -/
def fileLockAcquire (p : Ptr) : FileM Unit := do
  let _ ← derefFile p
  lockAcquire (.file p)

def fileLockRelease (p : Ptr) : FileM Unit := do
  let _ ← derefFile p
  lockRelease (.file p)

/-- `lock_acquire(file_t->file_table_lock)`. -/
def tableLockAcquire (q : Ptr) : FileM Unit := do
  let _ ← derefTable q
  lockAcquire (.table q)

def tableLockRelease (q : Ptr) : FileM Unit := do
  let _ ← derefTable q
  lockRelease (.table q)

/-- A vnode in memory, with its count. -/
def derefVnode (v : Option Ptr) : FileM (Ptr × ℕ) := do
  let v ← nonNull v
  let n := (← get).vnRefcount v
  if n = 0 then
    throw .fault
  return (v, n)

def vopIncref (v : Option Ptr) : FileM Unit := do
  let (v, n) ← derefVnode v
  modify fun s => s.setCount v (n + 1)

/-- The last reference goes to `VOP_RECLAIM`, which takes the vnode out of memory. -/
def vopDecref (v : Option Ptr) : FileM Unit := do
  let (v, n) ← derefVnode v
  modify fun s => s.setCount v (n - 1)

def vnodeCleanup (v : Option Ptr) : FileM Unit := do
  let (v, n) ← derefVnode v
  kassert (n = 1) "vn->vn_refcount == 1"
  modify fun s => s.setCount v 0

/-- `fd` indexes a table's array. -/
def indexed (fd : ℤ) : FileM Unit := if 0 ≤ fd ∧ fd < openMax then pure () else throw .fault

/-! ### What they need and what they do -/

section Rules

variable {s : FileKernel} {E : Stop → FileKernel → Prop} {p : Ptr} {l : LockId}

theorem wp_kassert {c : Prop} [Decidable c] {expr : String} {Q : Unit → FileKernel → Prop} :
    wp (kassert c expr) Q E s ↔ (c → Q () s) ∧ (¬ c → E (.kassert expr) s) := by
  unfold kassert
  rw [wp_ite]
  rfl

theorem wp_derefFile {Q : File → FileKernel → Prop} :
    wp (derefFile p) Q E s ↔ (∀ f, s.files p = some f → Q f s) ∧ (s.files p = none → E .fault s) := by
  simp only [derefFile, wp_bind, wp_get]
  cases s.files p <;> simp [wp_pure, wp_throw]

theorem wp_derefTable {Q : FileTable → FileKernel → Prop} :
    wp (derefTable p) Q E s ↔
      (∀ t, s.tables p = some t → Q t s) ∧ (s.tables p = none → E .fault s) := by
  simp only [derefTable, wp_bind, wp_get]
  cases s.tables p <;> simp [wp_pure, wp_throw]

theorem wp_nonNull {o : Option Ptr} {Q : Ptr → FileKernel → Prop} :
    wp (nonNull o) Q E s ↔ (∀ q, o = some q → Q q s) ∧ (o = none → E .fault s) := by
  cases o <;> simp [nonNull, wp_pure, wp_throw]

theorem wp_lockAcquire {Q : Unit → FileKernel → Prop} :
    wp (lockAcquire l) Q E s ↔ (l ∉ s.held → Q () (s.setHeld (l :: s.held))) ∧
      (l ∈ s.held → E (.kassert "lock_do_i_hold(lock)==false") s) := by
  simp only [lockAcquire, wp_bind, wp_get, wp_kassert, wp_set, not_not]

theorem wp_lockRelease {Q : Unit → FileKernel → Prop} :
    wp (lockRelease l) Q E s ↔ (l ∈ s.held → Q () (s.setHeld (s.held.erase l))) ∧
      (l ∉ s.held → E (.kassert "lock_do_i_hold(lock)") s) := by
  simp only [lockRelease, wp_bind, wp_get, wp_kassert, wp_set]

theorem wp_lockDestroy {Q : Unit → FileKernel → Prop} :
    wp (lockDestroy l) Q E s ↔
      (l ∉ s.held → Q () s) ∧ (l ∈ s.held → E (.kassert "!lock_do_i_hold(lock)") s) := by
  simp only [lockDestroy, wp_bind, wp_get, wp_kassert, not_not]

theorem wp_derefVnode {v : Option Ptr} {Q : Ptr × ℕ → FileKernel → Prop} :
    wp (derefVnode v) Q E s ↔
      (∀ w, v = some w → s.vnRefcount w ≠ 0 → Q (w, s.vnRefcount w) s) ∧
      ((∀ w, v = some w → s.vnRefcount w = 0) → E .fault s) := by
  cases v with
  | none => simp [derefVnode, wp_bind, wp_nonNull]
  | some w =>
    simp only [derefVnode, wp_bind, wp_nonNull, wp_get, wp_ite, wp_throw, wp_pure]
    by_cases h : s.vnRefcount w = 0 <;> simp [h]

theorem wp_vopIncref {v : Option Ptr} {Q : Unit → FileKernel → Prop} :
    wp (vopIncref v) Q E s ↔
      (∀ w, v = some w → s.vnRefcount w ≠ 0 → Q () (s.setCount w (s.vnRefcount w + 1))) ∧
      ((∀ w, v = some w → s.vnRefcount w = 0) → E .fault s) := by
  simp only [vopIncref, wp_bind, wp_derefVnode, wp_modify]

theorem wp_vopDecref {v : Option Ptr} {Q : Unit → FileKernel → Prop} :
    wp (vopDecref v) Q E s ↔
      (∀ w, v = some w → s.vnRefcount w ≠ 0 → Q () (s.setCount w (s.vnRefcount w - 1))) ∧
      ((∀ w, v = some w → s.vnRefcount w = 0) → E .fault s) := by
  simp only [vopDecref, wp_bind, wp_derefVnode, wp_modify]

theorem wp_indexed {fd : ℤ} {Q : Unit → FileKernel → Prop} :
    wp (indexed fd) Q E s ↔
      (0 ≤ fd ∧ fd < openMax → Q () s) ∧ (¬ (0 ≤ fd ∧ fd < openMax) → E .fault s) := by
  unfold indexed
  rw [wp_ite]
  rfl

end Rules

/-! ## File methods -/

/-- `ok` tells whether all of its allocations find memory. -/
def fileCreate (ok : Bool) : FileM (Option Ptr) := do
  if ok then
    let s ← get
    set { s.setFile s.next (some ⟨none, 0, floatingFile⟩) with next := s.next + 1 }
    return some s.next
  else
    return none

/-- A file that is in the master table leaves it. -/
def clearMaster (masterFd : ℤ) : FileM Unit := do
  if masterFd ≠ floatingFile then
    lockAcquire .master
    indexed masterFd
    modify fun s => s.setMaster masterFd none
    lockRelease .master

def fileDestroy (file : Option Ptr) : FileM ℤ := do
  match file with
  | none => return 0
  | some p =>
    fileLockAcquire p
    let f ← derefFile p
    let (_, count) ← derefVnode f.fileVnode
    if count = oneFileOwner then
      vopDecref f.fileVnode
      clearMaster f.masterFd
      fileLockRelease p
      lockDestroy (.file p)
      modify fun s => s.setFile p none
      return 0
    else
      vopDecref f.fileVnode
      fileLockRelease p
      return 0

/-- What `file_destroy` leaves of a file on `v`: it gives up one reference, and if that was one of two
the file is gone. -/
def FileKernel.dropFile (s : FileKernel) (p : Ptr) (f : File) (v : Ptr) : FileKernel :=
  let s' := s.setCount v (s.vnRefcount v - 1)
  if s.vnRefcount v = oneFileOwner then
    if f.masterFd = floatingFile then s'.setFile p none
    else (s'.setMaster f.masterFd none).setFile p none
  else s'

section FileDestroy

/-- Locks, tables and the other files are left as they are. -/
theorem FileKernel.dropFile_frame (s : FileKernel) (p : Ptr) (f : File) (v : Ptr) :
    (s.dropFile p f v).held = s.held ∧ (s.dropFile p f v).tables = s.tables ∧
      ∀ g, g ≠ p → (s.dropFile p f v).files g = s.files g := by
  unfold FileKernel.dropFile
  split
  · split <;> exact ⟨rfl, rfl, fun g hg => Function.update_of_ne hg _ _⟩
  · exact ⟨rfl, rfl, fun _ _ => rfl⟩

variable {s : FileKernel} {E : Stop → Prop} {p v : Ptr} {f : File} {Q : ℤ → FileKernel → Prop}

theorem wp_clearMaster {fd : ℤ} {Q : Unit → FileKernel → Prop} :
    wp (clearMaster fd) Q (fun e _ => E e) s ↔
      (fd = floatingFile → Q () s) ∧ (fd ≠ floatingFile →
        (.master ∈ s.held → E (.kassert "lock_do_i_hold(lock)==false")) ∧
        (.master ∉ s.held → (0 ≤ fd ∧ fd < openMax → Q () (s.setMaster fd none)) ∧
          (¬ (0 ≤ fd ∧ fd < openMax) → E .fault))) := by
  simp only [clearMaster, wp_ite, wp_bind, wp_lockAcquire, wp_indexed, wp_modify, wp_lockRelease,
    wp_pure]
  by_cases hfd : fd = floatingFile
  · simp [hfd]
  · by_cases hheld : LockId.master ∈ s.held
    · simp [hfd, hheld]
    · simp [hfd, hheld, FileKernel.setHeld, FileKernel.setMaster]

/-- `file_destroy` of a file that is there, with its lock free. -/
theorem wp_fileDestroy (hp : .file p ∉ s.held) (hf : s.files p = some f) (hv : f.fileVnode = some v)
    (hn : s.vnRefcount v ≠ 0) :
    wp (fileDestroy (some p)) Q (fun e _ => E e) s ↔
      (s.vnRefcount v = oneFileOwner ∧ f.masterFd ≠ floatingFile →
        (.master ∈ s.held → E (.kassert "lock_do_i_hold(lock)==false")) ∧
        (.master ∉ s.held → ¬ (0 ≤ f.masterFd ∧ f.masterFd < openMax) → E .fault)) ∧
      ((s.vnRefcount v = oneFileOwner ∧ f.masterFd ≠ floatingFile →
        .master ∉ s.held ∧ 0 ≤ f.masterFd ∧ f.masterFd < openMax) → Q 0 (s.dropFile p f v)) := by
  simp only [fileDestroy, fileLockAcquire, fileLockRelease, wp_bind, wp_ite, wp_derefFile,
    wp_lockAcquire, wp_lockRelease, wp_lockDestroy, wp_derefVnode, wp_vopDecref, wp_clearMaster,
    wp_modify, wp_pure]
  by_cases hcount : s.vnRefcount v = oneFileOwner
  · have hn' : oneFileOwner ≠ 0 := by decide
    by_cases hfd : f.masterFd = floatingFile
    · simp [hf, hp, hv, hcount, hfd, hn', FileKernel.setHeld, FileKernel.setCount,
        FileKernel.dropFile]
    · by_cases hheld : LockId.master ∈ s.held
      · simp [hf, hp, hv, hcount, hfd, hn', hheld, FileKernel.setHeld, FileKernel.setCount]
      · simp [hf, hp, hv, hcount, hfd, hn', hheld, FileKernel.setHeld, FileKernel.setCount,
          FileKernel.setMaster, FileKernel.dropFile]
        exact And.comm
  · simp [hf, hp, hv, hcount, hn, FileKernel.setHeld, FileKernel.setCount, FileKernel.dropFile]

theorem wp_fileDestroy_twice (hp : .file p ∈ s.held) (hf : s.files p = some f) :
    wp (fileDestroy (some p)) Q (fun e _ => E e) s ↔ E (.kassert "lock_do_i_hold(lock)==false") := by
  simp only [fileDestroy, fileLockAcquire, wp_bind, wp_derefFile, wp_lockAcquire]
  simp [hf, hp]

/-- Nothing to be found at the pointer, or no vnode behind it. -/
theorem wp_fileDestroy_fault (hp : .file p ∉ s.held)
    (hno : ¬ ∃ f v, s.files p = some f ∧ f.fileVnode = some v ∧ s.vnRefcount v ≠ 0) :
    wp (fileDestroy (some p)) Q (fun e _ => E e) s ↔ E .fault := by
  simp only [fileDestroy, fileLockAcquire, wp_bind, wp_derefFile, wp_lockAcquire, wp_derefVnode]
  cases hf : s.files p with
  | none => simp
  | some f =>
    have hv : ∀ w, f.fileVnode = some w → s.vnRefcount w = 0 := fun w hw => by
      by_contra hn
      exact hno ⟨f, w, hf, hw, hn⟩
    simp only [hp, FileKernel.setHeld, hf, Option.some.injEq, forall_eq', not_false_eq_true,
      forall_const, reduceCtorEq, false_implies, and_true]
    constructor
    · exact fun h => h.2 hv
    · exact fun h => ⟨fun w hw hn => absurd (hv w hw) hn, fun _ => h⟩

end FileDestroy

/-- `file_copy` from its assignment on. -/
def installCopy (q : Ptr) (oldfd newfd : ℤ) : FileM ℤ := do
  let t ← derefTable q
  modify fun s => s.setTable q (some { t with
    fileArr := update t.fileArr newfd (s.master.fileArr oldfd) })
  lockRelease .master
  let t ← derefTable q
  let old ← nonNull (t.fileArr oldfd)
  fileLockRelease old
  tableLockRelease q
  return 0

/-- `file_copy` past its check: `oldfd` is looked up in the local table for its lock. -/
def copyOnto (q : Ptr) (oldfd newfd : ℤ) : FileM ℤ := do
  tableLockAcquire q
  let t ← derefTable q
  let old ← nonNull (t.fileArr oldfd)
  fileLockAcquire old
  lockAcquire .master
  -- Nothing is done for a free slot.
  let _ ← fileDestroy (t.fileArr newfd)
  installCopy q oldfd newfd

/-- The check looks `oldfd` up in the master table. -/
def fileCopy (fileT : Option Ptr) (oldfd newfd : ℤ) : FileM ℤ := do
  if oldfd < minFd ∨ newfd < minFd ∨ oldfd ≥ openMax ∨ newfd ≥ openMax ∨ fileT = none
      ∨ (← get).master.fileArr oldfd = none then
    return -1
  else
    copyOnto (← nonNull fileT) oldfd newfd

/-- `file_copy` reaches its `file_destroy` with three locks. -/
theorem wp_copyOnto {s : FileKernel} {q p : Ptr} {t : FileTable} {f : File} {oldfd newfd : ℤ}
    {Q : ℤ → FileKernel → Prop} {E : Stop → FileKernel → Prop} (hs : s.held = [])
    (ht : s.tables q = some t) (hold : t.fileArr oldfd = some p) (hf : s.files p = some f) :
    wp (copyOnto q oldfd newfd) Q E s ↔
      wp (fileDestroy (t.fileArr newfd)) (fun _ s' => wp (installCopy q oldfd newfd) Q E s') E
        (s.setHeld [.master, .file p, .table q]) := by
  simp only [copyOnto, tableLockAcquire, fileLockAcquire, wp_bind, wp_derefTable, wp_lockAcquire,
    wp_nonNull, wp_derefFile]
  simp [FileKernel.setHeld, hs, ht, hold, hf]

/-- A table, a descriptor or a file that is not there. -/
theorem wp_copyOnto_fault {s : FileKernel} {q : Ptr} {oldfd newfd : ℤ} {Q : ℤ → FileKernel → Prop}
    {E : Stop → Prop} (hs : s.held = [])
    (hno : ¬ ∃ p f, s.descriptor (some q) oldfd = some p ∧ s.files p = some f) :
    wp (copyOnto q oldfd newfd) Q (fun e _ => E e) s ↔ E .fault := by
  simp only [copyOnto, tableLockAcquire, fileLockAcquire, wp_bind, wp_derefTable, wp_lockAcquire,
    wp_nonNull, wp_derefFile]
  cases ht : s.tables q with
  | none => simp
  | some t =>
    cases hold : t.fileArr oldfd with
    | none => simp [FileKernel.setHeld, hs, ht, hold]
    | some p =>
      have hf : s.files p = none := by
        by_contra hf
        obtain ⟨f, hf⟩ := Option.ne_none_iff_exists'.mp hf
        exact hno ⟨p, f, by simp [FileKernel.descriptor, ht, hold], hf⟩
      simp [FileKernel.setHeld, hs, ht, hold, hf]

/-! ## File table methods -/

/-- How the two allocations of `file_table_create` end. -/
inductive TableAlloc
  | noTable
  | noLock
  | ok
  deriving DecidableEq, Repr

/-- Without a lock the table is freed twice, its array being its first field. -/
def fileTableCreate (a : TableAlloc) : FileM (Option Ptr) := do
  match a with
  | .noTable => return none
  | .noLock => throw (.kassert "fl != fl->next")
  | .ok =>
    let s ← get
    set { s.setTable s.next (some ⟨fun _ => none, 0⟩) with next := s.next + 1 }
    return some s.next

/-- `file_destroy` on the entries of a table, `n` of them from `i` on. -/
def destroyFrom (q : Ptr) : ℕ → ℤ → FileM Unit
  | 0, _ => return ()
  | n + 1, i => do
    let t ← derefTable q
    let _ ← fileDestroy (t.fileArr i)
    destroyFrom q n (i + 1)

/-- `kfree(file_t->file_arr)` frees the table, and the lock is then looked for in what was freed. -/
def fileTableDestroy (q : Ptr) : FileM ℤ := do
  tableLockAcquire q
  destroyFrom q 128 0
  modify fun s => s.setTable q none
  tableLockRelease q
  lockDestroy (.table q)
  return 0

/-- A free slot of the master table, for a file that has none yet. -/
def addMaster (p : Ptr) (i : ℤ) : FileM Unit := do
  let f ← derefFile p
  if (← get).master.fileArr i = none ∧ f.masterFd = floatingFile then
    modify fun s => (s.setMaster i (some p)).setFile p (some { f with masterFd := i })

/-- A free slot of the local table, while `fd` is none: the descriptor from then on. -/
def addLocal (q p : Ptr) (i fd : ℤ) : FileM ℤ := do
  let f ← derefFile p
  let t ← derefTable q
  if t.fileArr i = none ∧ fd < minFd then
    modify fun s => s.setTable q (some { t with fileArr := update t.fileArr i (some p) })
    vopIncref f.fileVnode
    return i
  else
    return fd

/-- The loop of `file_table_add`, `n` rounds from `i` on: the descriptor and whether both tables had
a slot. -/
def addFrom (q p : Ptr) : ℕ → ℤ → ℤ → FileM (ℤ × Bool)
  | 0, _, fd => return (fd, false)
  | n + 1, i, fd => do
    addMaster p i
    let fd ← addLocal q p i fd
    let f ← derefFile p
    if fd ≥ minFd ∧ f.masterFd ≠ floatingFile then
      return (fd, true)
    else
      addFrom q p n (i + 1) fd

def undoLocal (q p : Ptr) (fd : ℤ) : FileM Unit := do
  if fd ≥ minFd then
    let t ← derefTable q
    modify fun s => s.setTable q (some { t with fileArr := update t.fileArr fd none })
    vopDecref (← derefFile p).fileVnode

def undoMaster (p : Ptr) : FileM Unit := do
  let f ← derefFile p
  if f.masterFd ≠ floatingFile then
    indexed f.masterFd
    modify fun s => (s.setMaster f.masterFd none).setFile p (some { f with masterFd := floatingFile })

def fileTableAdd (fileT file : Option Ptr) : FileM ℤ := do
  if (← get).master.numFiles = openMax ∨ file = none then
    return -1
  let p ← nonNull file
  if (← derefFile p).fileVnode = none then
    return -1
  fileLockAcquire p
  let q ← nonNull fileT
  tableLockAcquire q
  lockAcquire .master
  let (fd, both) ← addFrom q p 125 minFd floatingFile
  if both then
    lockRelease .master
    tableLockRelease q
    fileLockRelease p
    return fd
  else
    undoLocal q p fd
    undoMaster p
    lockRelease .master
    tableLockRelease q
    fileLockRelease p
    return -1

def fileTableLookup (fileT : Option Ptr) (fd : ℤ) : FileM (Option Ptr) := do
  if fileT = none ∨ fd < 3 then
    return none
  let q ← nonNull fileT
  tableLockAcquire q
  let t ← derefTable q
  indexed fd
  tableLockRelease q
  return t.fileArr fd

/-- A lookup changes nothing. -/
theorem wp_fileTableLookup {s : FileKernel} {E : Stop → FileKernel → Prop} {fileT : Option Ptr}
    {fd : ℤ} {Q : Option Ptr → FileKernel → Prop} (hs : s.held = [])
    (hfd : minFd ≤ fd ∧ fd < openMax) :
    wp (fileTableLookup fileT fd) Q E s ↔ (fileT = none → Q none s) ∧
      ∀ q, fileT = some q → (∀ t, s.tables q = some t → Q (t.fileArr fd) s) ∧
        (s.tables q = none → E .fault s) := by
  obtain ⟨hmin, hmax⟩ := hfd
  have hlow : ¬ fd < 3 := Int.not_lt.mpr hmin
  have hrange : 0 ≤ fd ∧ fd < openMax := ⟨Int.le_trans (by decide) hmin, hmax⟩
  have hfree : ∀ l, l ∉ s.held := fun l => by simp [hs]
  cases fileT with
  | none => simp [fileTableLookup, wp_pure]
  | some q =>
    simp only [fileTableLookup, tableLockAcquire, tableLockRelease, wp_bind, wp_ite, wp_nonNull,
      wp_derefTable, wp_lockAcquire, wp_lockRelease, wp_indexed, wp_pure, hlow, hrange]
    cases ht : s.tables q with
    | none => simp [ht]
    | some t => simp [ht, FileKernel.setHeld, hfree]

/-- One round of the loop of `file_table_copy`, from table `q` to table `new`. -/
def copySlot (q new : Ptr) (i : ℤ) : FileM Unit := do
  let t ← derefTable q
  match t.fileArr i with
  | none => return ()
  | some p =>
    fileLockAcquire p
    let tmp ← derefTable new
    modify fun s => s.setTable new (some { tmp with fileArr := update tmp.fileArr i (some p) })
    vopIncref (← derefFile p).fileVnode
    fileLockRelease p

/-- `n` rounds from `i` on. -/
def copyFrom (q new : Ptr) : ℕ → ℤ → FileM Unit
  | 0, _ => return ()
  | n + 1, i => do
    copySlot q new i
    copyFrom q new n (i + 1)

/-- `file_table_copy` once it has its new table. -/
def fillTable (q new : Ptr) : FileM (Option Ptr) := do
  let t ← derefTable q
  let tmp ← derefTable new
  modify fun s => s.setTable new (some { tmp with numFiles := t.numFiles })
  copyFrom q new 125 minFd
  tableLockRelease q
  return some new

/-- Without a new table it returns with the lock of the old one in its hands. -/
def fileTableCopy (fileT : Option Ptr) (a : TableAlloc) : FileM (Option Ptr) := do
  match fileT with
  | none => return none
  | some q =>
    tableLockAcquire q
    match ← fileTableCreate a with
    | none => return none
    | some new => fillTable q new

end UnionCollegeCode.OS161.Files
