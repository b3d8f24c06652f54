import Mathlib.Algebra.Order.Ring.Int
import UnionCollegeCode.OS161.Kernel

/-!
# `proc.c`, `fork.c`, `waitpid.c`, `exit.c`

The process functions, each cut where it lets go of a spinlock that another thread may be waiting
for. The parts of one function follow each other in the source's order and are put together again
under the function's own name.

`kmalloc` and what rests on it may fail: a structure of `Bool`s says how each call of a creation
ends. File tables and the contents of address spaces are not part of these functions' state.
-/

set_option autoImplicit false

namespace UnionCollegeCode.OS161

open Lib.EState

/-- `_MKWAIT_EXIT(x)`: a left shift of a 32-bit `int`. -/
def mkwaitExit (x : ℤ) : ℤ := Int.bmod (x * 4) (2 ^ 32)

def EINVAL : ℤ := 8
def ESRCH : ℤ := 15
def ECHILD : ℤ := 16

/-! ## Creation -/

/-- Which allocations of one `proc_create` find memory. -/
structure Allocs where
  proc : Bool
  name : Bool
  children : Bool
  childrenLock : Bool
  exitSem : Bool
  exitLock : Bool
  exitCv : Bool
  deriving DecidableEq, Repr

def Allocs.all : Allocs := ⟨true, true, true, true, true, true, true⟩

/-- `linked_list_create` fills the list in without looking whether it got one. -/
def linkedListCreate (listOk lockOk : Bool) : KernelM LinkedList := do
  if listOk then
    return ⟨[], ← lockCreate lockOk⟩
  else
    throw .fault

/-- What `proc_create` fills a process in with. -/
def Proc.new (pid : ℤ) (children : LinkedList) (sem : Option Semaphore) : Proc where
  pNumthreads := 0
  pAddrspace := none
  pPid := pid
  pPpid := -1
  pChildrenLl := children
  exitcode := -1
  parentProc := none
  pExitSem := sem

def semCreate (ok : Bool) (initialCount : ℕ) : Option Semaphore :=
  if ok then some ⟨initialCount, []⟩ else none

/-- `proc_create` up to its `add_proc`: the process has its pid and is not in the table yet. -/
def procCreateBegin (a : Allocs) : KernelM (Option Ptr) := do
  if a.proc = false ∨ a.name = false then
    return none
  let pid ← assignPid
  if pid = -1 then
    return none
  let children ← linkedListCreate a.children a.childrenLock
  let s ← get
  set { s.setProc s.next (some (.new pid children (semCreate a.exitSem 0))) with
    next := s.next + 1 }
  return some s.next

/-- `add_proc(proc, proc->p_pid)`. -/
def procRegister (a : Allocs) (proc : Ptr) : KernelM Unit := do
  let (_, p) ← follow Kernel.procHeap (some proc)
  addProc proc p.pPid a.exitLock a.exitCv

def procCreate (a : Allocs) : KernelM (Option Ptr) := do
  match ← procCreateBegin a with
  | none => return none
  | some proc =>
    procRegister a proc
    return some proc

/-- `thread_fork` into `proc`: `tid` is the thread made, if there is memory for it. -/
def threadFork (proc : Ptr) (tid : Option Tid) : KernelM Bool := do
  match tid with
  | none => return false
  | some t =>
    let (_, p) ← follow Kernel.procHeap (some proc)
    modify fun s => s.setProc proc (some { p with pNumthreads := p.pNumthreads + 1 })
    modify fun s => s.setThread t (some ⟨some proc⟩)
    return true

/-- Before `proc_bootstrap`: an empty table. -/
def Kernel.empty : Kernel where
  procHeap := fun _ => none
  lockHeap := fun _ => none
  cvHeap := fun _ => none
  threads := fun _ => none
  procTable := .empty
  kproc := 0
  next := 0

/-- `proc_bootstrap`, and the thread `thread_bootstrap` gives the kernel process. -/
def procBootstrap (a : Allocs) : KernelM Unit := do
  match ← procCreate a with
  | none => throw (.panic "proc_create for kproc failed\n")
  | some proc =>
    modify fun s => { s with kproc := proc }
    let _ ← threadFork proc (some 0)

def kprocCreated : Proc := .new 2 ⟨[], some 0⟩ (some ⟨0, []⟩)

/-- The kernel once it is up: `kproc` at address 1 with its list's lock at 0, its exit lock at 2 and
its exit condition variable at 3. -/
def bootKernel : Kernel where
  procHeap := Function.update (fun _ => none) 1 (some { kprocCreated with pNumthreads := 1 })
  lockHeap := Function.update (Function.update (fun _ => none) 0 (some ⟨false, none, []⟩)) 2
    (some ⟨false, none, []⟩)
  cvHeap := Function.update (fun _ => none) 3 (some ⟨[]⟩)
  threads := Function.update (fun _ => none) 0 (some ⟨some 1⟩)
  procTable := {
    procs := Function.update (fun _ => none) 2 (some 1)
    exitCvs := Function.update (fun _ => none) 2 (some 3)
    exitLocks := Function.update (fun _ => none) 2 (some 2)
    activeProcs := 1 }
  kproc := 1
  next := 4

/-- Booting with enough memory leaves the kernel so. -/
theorem procBootstrap_all : procBootstrap .all .empty = .ok () bootKernel :=
  calc procBootstrap .all .empty
    _ = .ok () { bootKernel with
          procHeap := Function.update (Function.update (fun _ => none) 1 (some kprocCreated)) 1
            (some { kprocCreated with pNumthreads := 1 }) } := rfl
    _ = .ok () bootKernel := by
      rw [Function.update_idem]
      rfl

/-- `runprogram` once it has an address space for the process, which had none. -/
def runprogramSetas (t : Tid) (addrspace : Ptr) : KernelM Unit := do
  let s ← get
  let (proc, p) ← follow Kernel.procHeap (s.curproc t)
  kassert (p.pAddrspace = none) "proc_getas() == NULL"
  modify fun s => s.setProc proc (some { p with pAddrspace := some addrspace })

/-! ## Destruction -/

def semDestroy (sem : Option Semaphore) : KernelM Unit := do
  match sem with
  | none => throw (.kassert "sem != NULL")
  | some s => wchanDestroy s.semWchan

def linkedListDestroy (t : Tid) (list : LinkedList) : KernelM Unit := do
  let taken ← lockAcquire t list.llLock
  if taken then
    lockRelease t list.llLock
    lockDestroy t list.llLock
  else
    throw .asleep

/-- `proc_setas(NULL)` of the current process. -/
def procClearas (t : Tid) : KernelM Unit := do
  let s ← get
  kassert (s.curproc t ≠ none) "proc != NULL"
  let (p, proc) ← follow Kernel.procHeap (s.curproc t)
  modify fun s => s.setProc p (some { proc with pAddrspace := none })

/-- `proc_destroy` up to and with its `remove_proc`. -/
def procDestroyBegin (t : Tid) (proc : Ptr) : KernelM Unit := do
  let s ← get
  kassert (proc ≠ s.kproc) "proc != kproc"
  let (_, p) ← follow Kernel.procHeap (some proc)
  if p.pAddrspace.isSome then
    if s.curproc t = some proc then
      procClearas t
    else
      modify fun s => s.setProc proc (some { p with pAddrspace := none })
  removeProc t p.pPid

/-- `proc_destroy` after its `remove_proc`. -/
def procDestroyEnd (t : Tid) (proc : Ptr) : KernelM Unit := do
  let (_, p) ← follow Kernel.procHeap (some proc)
  match p.parentProc with
  | none => pure ()
  | some parent => modify fun s => s.setProc parent none
  let (_, p) ← follow Kernel.procHeap (some proc)
  kassert (p.pNumthreads = 0) "proc->p_numthreads == 0"
  semDestroy p.pExitSem
  linkedListDestroy t p.pChildrenLl
  modify fun s => s.setProc proc none

def procDestroy (t : Tid) (proc : Ptr) : KernelM Unit := do
  procDestroyBegin t proc
  procDestroyEnd t proc

/-- `proc_remthread` up to its `proc_destroy`: the process loses one thread. -/
def procRemthreadBegin (t : Tid) : KernelM Ptr := do
  let s ← get
  kassert (s.curproc t ≠ none) "proc != NULL"
  let (proc, p) ← follow Kernel.procHeap (s.curproc t)
  kassert (0 < p.pNumthreads) "proc->p_numthreads > 0"
  modify fun s => s.setProc proc (some { p with pNumthreads := p.pNumthreads - 1 })
  return proc

/-- `thread_exit` after its `proc_remthread`; the thread becomes a zombie. -/
def threadExitEnd (t : Tid) : KernelM Unit := do
  modify fun s => s.setThread t (some ⟨none⟩)
  let s ← get
  kassert (s.curproc t = none) "cur->t_proc == NULL"
  set (s.setThread t none)

def threadExit (t : Tid) : KernelM Unit := do
  let proc ← procRemthreadBegin t
  procDestroy t proc
  threadExitEnd t

/-- `sys_exit` up to its `thread_exit`. The argument is not looked at. -/
def sysExitBegin (t : Tid) (_exitcode : ℤ) : KernelM Unit := do
  let s ← get
  match s.curproc t with
  | none => throw (.panic "cannot call _exit: curproc is NULL\n")
  | some curProc =>
    let (_, p) ← follow Kernel.procHeap (some curProc)
    indexed p.pPid
    cvBroadcast t (s.procTable.exitCvs p.pPid) (s.procTable.exitLocks p.pPid)
    let p := { p with exitcode := mkwaitExit p.exitcode }
    modify fun s => s.setProc curProc (some p)
    match p.parentProc with
    | none => pure ()
    | some parent =>
      let (_, q) ← follow Kernel.procHeap (some parent)
      modify fun s => s.setProc parent (some { q with exitcode := p.exitcode })

/-- `thread_exit` does not return: what follows it in `sys_exit` is never run. -/
def sysExit (t : Tid) (exitcode : ℤ) : KernelM Unit := do
  sysExitBegin t exitcode
  threadExit t

/-! ## `sys_fork` -/

/-- How `sys_fork` goes on once its child is in the table. -/
inductive ForkEnd
  | asCopyFails
  /-- The address space was copied; the file table, the trapframe or the thread was not made. -/
  | laterFails (addrspace : Ptr)
  | succeeds (addrspace : Ptr) (tid : Tid)
  deriving DecidableEq, Repr

/-- The thread the child starts with. -/
def ForkEnd.thread : ForkEnd → Option Tid
  | .succeeds _ tid => some tid
  | _ => none

/-- `sys_fork` up to the `add_proc` in its `proc_create`; `none` is the result `-EINVAL`. A `NULL`
from `proc_create` is followed before it is checked. -/
def sysForkBegin (t : Tid) (a : Allocs) : KernelM (Option Ptr) := do
  let s ← get
  let (_, p) ← follow Kernel.procHeap (s.curproc t)
  if p.pAddrspace = none then
    return none
  match ← procCreateBegin a with
  | none => throw .fault
  | some child => return some child

/-- `child->p_ppid = curproc->p_pid` and the second `add_proc`. -/
def sysForkAdd (t : Tid) (child : Ptr) (lockOk cvOk : Bool) : KernelM Unit := do
  let s ← get
  let (_, p) ← follow Kernel.procHeap (s.curproc t)
  let (_, c) ← follow Kernel.procHeap (some child)
  modify fun s => s.setProc child (some { c with pPpid := p.pPid })
  addProc child c.pPid lockOk cvOk

/-- From the `as_copy` on; `false` when the child is to be destroyed. -/
def sysForkEnd (child : Ptr) : ForkEnd → KernelM Bool
  | .asCopyFails => return false
  | .laterFails as => do
    let (_, c) ← follow Kernel.procHeap (some child)
    modify fun s => s.setProc child (some { c with pAddrspace := some as })
    return false
  | .succeeds as tid => do
    let (_, c) ← follow Kernel.procHeap (some child)
    modify fun s => s.setProc child (some { c with pAddrspace := some as })
    threadFork child (some tid)

/-! ## `sys_waitpid` -/

/-- The walk over `curproc->p_children_ll`: whether it finds the pid. -/
def isListedChild (t : Tid) (pid : ℤ) : KernelM Bool := do
  let s ← get
  let (_, p) ← follow Kernel.procHeap (s.curproc t)
  return p.pChildrenLl.data.contains pid

/-- What `sys_waitpid` does with `exit_locks[pid]` in its hands: `-ECHILD` and let go of the lock,
or go to sleep in `cv_wait`. -/
def sysWaitpidCheck (t : Tid) (pid : ℤ) : KernelM Bool := do
  let found ← isListedChild t pid
  let s ← get
  indexed pid
  if found then
    cvWait t (s.procTable.exitCvs pid) (s.procTable.exitLocks pid)
    return true
  else
    lockRelease t (s.procTable.exitLocks pid)
    return false

/-- `exit_locks[pid]` is read from the table and acquired; `none` when the thread went to sleep. -/
def sysWaitpidAcquire (t : Tid) (pid : ℤ) : KernelM (Option Ptr × Bool) := do
  indexed pid
  let s ← get
  let lock := s.procTable.exitLocks pid
  let taken ← lockAcquire t lock
  return (lock, taken)

/-- The status word of the caller is not written: only the parameter is assigned. -/
def sysWaitpidEnd (t : Tid) (pid : ℤ) : KernelM ℤ := do
  let s ← get
  indexed pid
  lockRelease t (s.procTable.exitLocks pid)
  return pid

end UnionCollegeCode.OS161
