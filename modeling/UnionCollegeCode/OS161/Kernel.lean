import Mathlib.Data.Int.Notation
import Mathlib.Data.Nat.Notation
import Mathlib.Logic.Function.Basic
import UnionCollegeCode.Lib.EState

/-!
# The kernel's shared objects: `synch.c`, `proctable.c`

Processes, sleep locks and condition variables are heap objects; a pointer is `none` for `NULL`.
A function runs in `KernelM` and stops where the kernel does: at a failed `KASSERT`, at a `panic`,
or where it follows a `NULL` or freed pointer. `t` is `curthread` throughout.

Spinlocks are not part of the state. A function that holds one from its first shared access to its
last is one atomic section; a function that does not is cut into its sections, and the thread's
place between two of them is a control point of the machine built on these functions. Which
allocations fail is the caller's argument.
-/

set_option autoImplicit false

namespace UnionCollegeCode.OS161

open Lib.EState

/-- A thread. A pid is a plain `ℤ`. -/
abbrev Tid := ℕ
abbrev Ptr := ℕ

def pidMax : ℤ := 32767

/-- Why a section does not come to its end. -/
inductive Stop
  | kassert (expr : String)
  | panic (msg : String)
  /-- A pointer that is `NULL` or freed is followed, or an array is left. -/
  | fault
  /-- The thread sleeps in the middle of the section. -/
  | asleep
  deriving DecidableEq, Repr

structure Lock where
  isBusy : Bool
  lkOwner : Option Tid
  lkWchan : List Tid
  deriving DecidableEq, Repr

structure Cv where
  cvWchan : List Tid
  deriving DecidableEq, Repr

structure Semaphore where
  semCount : ℕ
  semWchan : List Tid
  deriving DecidableEq, Repr

/-- A `Linked_List`: what its nodes point to, first to last, and its lock. -/
structure LinkedList where
  data : List ℤ
  llLock : Option Ptr
  deriving DecidableEq, Repr

structure Proc where
  pNumthreads : ℕ
  pAddrspace : Option Ptr
  pPid : ℤ
  pPpid : ℤ
  pChildrenLl : LinkedList
  exitcode : ℤ
  parentProc : Option Ptr
  pExitSem : Option Semaphore
  deriving DecidableEq, Repr

structure Thread where
  tProc : Option Ptr
  deriving DecidableEq, Repr

structure ProcTable where
  procs : ℤ → Option Ptr
  exitCvs : ℤ → Option Ptr
  exitLocks : ℤ → Option Ptr
  activeProcs : ℤ

structure Kernel where
  procHeap : Ptr → Option Proc
  lockHeap : Ptr → Option Lock
  cvHeap : Ptr → Option Cv
  threads : Tid → Option Thread
  procTable : ProcTable
  kproc : Ptr
  /-- Where the next object is allocated: an address is never used twice. -/
  next : Ptr

abbrev KernelM (α : Type) := EStateM Stop Kernel α

def kassert (p : Prop) [Decidable p] (expr : String) : KernelM Unit :=
  if p then pure () else throw (.kassert expr)

/-- Follow a pointer into one of the heaps. -/
def follow {α : Type} (heap : Kernel → Ptr → Option α) (p : Option Ptr) : KernelM (Ptr × α) := do
  match p with
  | none => throw .fault
  | some q =>
    match heap (← get) q with
    | none => throw .fault
    | some a => return (q, a)

@[simp] theorem kassert_eq_ok {p : Prop} [Decidable p] {expr : String} {u : Unit} {s s' : Kernel} :
    kassert p expr s = .ok u s' ↔ p ∧ s = s' := by
  unfold kassert
  split <;> simp_all

@[simp] theorem follow_eq_ok {α : Type} {heap : Kernel → Ptr → Option α} {p : Option Ptr}
    {r : Ptr × α} {s s' : Kernel} :
    follow heap p s = .ok r s' ↔ (p = some r.1 ∧ heap s r.1 = some r.2) ∧ s = s' := by
  obtain ⟨q', a'⟩ := r
  unfold follow
  cases p with
  | none => simp
  | some q =>
    simp only [bind_eq_ok, get_eq_ok, Option.some.injEq]
    constructor
    · rintro ⟨t, t', ⟨rfl, rfl⟩, h⟩
      cases hq : heap s q with
      | none => simp [hq] at h
      | some a =>
        simp only [hq, pure_eq_ok, Prod.mk.injEq] at h
        obtain ⟨⟨rfl, rfl⟩, rfl⟩ := h
        exact ⟨⟨rfl, hq⟩, rfl⟩
    · rintro ⟨⟨rfl, hq⟩, rfl⟩
      exact ⟨s, s, ⟨rfl, rfl⟩, by simp [hq]⟩

namespace Kernel

def setProc (s : Kernel) (p : Ptr) (proc : Option Proc) : Kernel :=
  { s with procHeap := Function.update s.procHeap p proc }

def setLock (s : Kernel) (p : Ptr) (l : Option Lock) : Kernel :=
  { s with lockHeap := Function.update s.lockHeap p l }

def setCv (s : Kernel) (p : Ptr) (cv : Option Cv) : Kernel :=
  { s with cvHeap := Function.update s.cvHeap p cv }

def setThread (s : Kernel) (t : Tid) (th : Option Thread) : Kernel :=
  { s with threads := Function.update s.threads t th }

def setTable (s : Kernel) (tbl : ProcTable) : Kernel := { s with procTable := tbl }

theorem setProc_procHeap (s : Kernel) (p : Ptr) (proc : Option Proc) :
    (s.setProc p proc).procHeap = Function.update s.procHeap p proc := rfl

/-- `curproc`. -/
def curproc (s : Kernel) (t : Tid) : Option Ptr := (s.threads t).bind Thread.tProc

end Kernel

/-! ## Wait channels, locks and condition variables -/

/-- `threadlist_cleanup` asserts that nobody sleeps here. -/
def wchanDestroy (wc : List Tid) : KernelM Unit := kassert (wc = []) "threadlist_isempty(tl)"

def lockCreate (ok : Bool) : KernelM (Option Ptr) := do
  if ok then
    let s ← get
    set { s.setLock s.next (some ⟨false, none, []⟩) with next := s.next + 1 }
    return some s.next
  else
    return none

def lockDoIHold (t : Tid) (lock : Option Ptr) : KernelM Bool := do
  kassert (lock ≠ none) "lock != NULL"
  let (_, l) ← follow Kernel.lockHeap lock
  return l.lkOwner = some t

def lockDestroy (t : Tid) (lock : Option Ptr) : KernelM Unit := do
  kassert (lock ≠ none) "lock != NULL"
  let held ← lockDoIHold t lock
  kassert (held = false) "!lock_do_i_hold(lock)"
  let (p, l) ← follow Kernel.lockHeap lock
  wchanDestroy l.lkWchan
  modify fun s => s.setLock p none

/-- One round of `while (lock->is_busy) wchan_sleep(..)`: the lock is taken, or the thread sleeps. -/
def lockTake (t : Tid) (lock : Option Ptr) : KernelM Bool := do
  let (p, l) ← follow Kernel.lockHeap lock
  if l.isBusy then
    modify fun s => s.setLock p (some { l with lkWchan := l.lkWchan ++ [t] })
    return false
  else
    modify fun s => s.setLock p (some { l with isBusy := true, lkOwner := some t })
    return true

/-- `false` when the thread went to sleep; it goes on with `lockTake` once woken. -/
def lockAcquire (t : Tid) (lock : Option Ptr) : KernelM Bool := do
  kassert (lock ≠ none) "lock != NULL"
  let held ← lockDoIHold t lock
  kassert (held = false) "lock_do_i_hold(lock)==false"
  lockTake t lock

def lockRelease (t : Tid) (lock : Option Ptr) : KernelM Unit := do
  kassert (lock ≠ none) "lock != NULL"
  let held ← lockDoIHold t lock
  kassert (held = true) "lock_do_i_hold(lock)"
  let (p, l) ← follow Kernel.lockHeap lock
  kassert (l.isBusy = true) "lock->is_busy==true"
  kassert (l.lkOwner ≠ none) "lock->lk_owner!=NULL"
  modify fun s => s.setLock p (some ⟨false, none, l.lkWchan.tail⟩)

def cvCreate (ok : Bool) : KernelM (Option Ptr) := do
  if ok then
    let s ← get
    set { s.setCv s.next (some ⟨[]⟩) with next := s.next + 1 }
    return some s.next
  else
    return none

def cvDestroy (cv : Option Ptr) : KernelM Unit := do
  kassert (cv ≠ none) "cv != NULL"
  let (p, c) ← follow Kernel.cvHeap cv
  wchanDestroy c.cvWchan
  modify fun s => s.setCv p none

/-- `cv_wait` up to where the thread sleeps. Once woken it takes the lock again. -/
def cvWait (t : Tid) (cv lock : Option Ptr) : KernelM Unit := do
  let (_, l) ← follow Kernel.lockHeap lock
  kassert (l.lkOwner = some t) "curthread == lock->lk_owner"
  let (p, c) ← follow Kernel.cvHeap cv
  lockRelease t lock
  modify fun s => s.setCv p (some ⟨c.cvWchan ++ [t]⟩)

def cvBroadcast (t : Tid) (cv lock : Option Ptr) : KernelM Unit := do
  let held ← lockDoIHold t lock
  kassert (held = true) "lock_do_i_hold(lock)"
  let (p, _) ← follow Kernel.cvHeap cv
  modify fun s => s.setCv p (some ⟨[]⟩)

/-! ## The process table -/

/-- The index is inside the three arrays of the table. -/
def indexed (pid : ℤ) : KernelM Unit := if 0 ≤ pid ∧ pid < pidMax then pure () else throw .fault

@[simp] theorem indexed_eq_ok {pid : ℤ} {u : Unit} {s s' : Kernel} :
    indexed pid s = .ok u s' ↔ (0 ≤ pid ∧ pid < pidMax) ∧ s = s' := by
  unfold indexed
  by_cases h : 0 ≤ pid ∧ pid < pidMax
  · simp [h]
  · rw [if_neg h]
    simp only [throw_eq_ok, h, false_and]

def ProcTable.empty : ProcTable := ⟨fun _ => none, fun _ => none, fun _ => none, 0⟩

/-- The loop of `assign_pid`, `n` candidates from `i` on. -/
def assignPidFrom (procs : ℤ → Option Ptr) : ℕ → ℤ → ℤ
  | 0, _ => -1
  | n + 1, i => if procs i = none then i else assignPidFrom procs n (i + 1)

/-- The least free index from 2 on, or -1. -/
def assignPid : KernelM ℤ := do
  let s ← get
  return assignPidFrom s.procTable.procs 32765 2

/-- `lockOk`, `cvOk`: whether `lock_create` and `cv_create` find memory. -/
def addProc (newProc : Ptr) (pid : ℤ) (lockOk cvOk : Bool) : KernelM Unit := do
  indexed pid
  modify fun s => s.setTable { s.procTable with
    procs := Function.update s.procTable.procs pid (some newProc)
    activeProcs := s.procTable.activeProcs + 1 }
  let lock ← lockCreate lockOk
  modify fun s => s.setTable { s.procTable with
    exitLocks := Function.update s.procTable.exitLocks pid lock }
  let cv ← cvCreate cvOk
  modify fun s => s.setTable { s.procTable with
    exitCvs := Function.update s.procTable.exitCvs pid cv }

def removeProc (t : Tid) (pid : ℤ) : KernelM Unit := do
  indexed pid
  let s ← get
  kassert (s.procTable.procs pid ≠ none) "proc_table->procs[pid] != NULL"
  set (s.setTable { s.procTable with
    procs := Function.update s.procTable.procs pid none
    activeProcs := s.procTable.activeProcs - 1 })
  lockDestroy t (s.procTable.exitLocks pid)
  modify fun s => s.setTable { s.procTable with
    exitLocks := Function.update s.procTable.exitLocks pid none }
  cvDestroy (s.procTable.exitCvs pid)
  modify fun s => s.setTable { s.procTable with
    exitCvs := Function.update s.procTable.exitCvs pid none }

def findProcess (pid : ℤ) : KernelM (Option Ptr) := do
  indexed pid
  let s ← get
  return s.procTable.procs pid

end UnionCollegeCode.OS161
