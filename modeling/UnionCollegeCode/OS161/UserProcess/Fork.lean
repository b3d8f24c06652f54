import UnionCollegeCode.OS161.UserProcess.Image

/-!
# `fork.c`: failures of `sys_fork`

`sys_fork` with everything it touches. Of its failures only the first, a parent without an address
space, leaves no trace. A `NULL` from `proc_create` is followed; the failures after the `as_copy`
destroy the child's address space twice, once themselves and once in `proc_destroy`; and a failing
`as_copy` leaves `active_procs` one too high, the child having been added to the table twice.
-/

set_option autoImplicit false

namespace UnionCollegeCode.OS161.UserProcess

open Function (update)
open Lib.EState
open Files (TableAlloc)
open Syscall (Trapframe Answer)

/-- How the calls that `sys_fork` makes end. -/
structure ForkAnswers where
  /-- `proc_create`, and its `file_table_create`. -/
  allocs : Allocs
  table : TableAlloc
  /-- The second `add_proc`. -/
  lockOk : Bool
  cvOk : Bool
  asCopy : AsCopyAnswers
  fileTableCopy : TableAlloc
  childTf : Bool
  /-- The thread that `thread_fork` makes. -/
  thread : Option Tid
  deriving DecidableEq, Repr

/-- What `sys_fork` does when one of the steps after the `as_copy` fails. -/
def forkUndo (t : Tid) (child : Ptr) (childTf : Option Ptr) : ImageM Answer := do
  let (_, c) ← onKernel (follow Kernel.procHeap (some child))
  asDestroy c.pAddrspace
  tfDestroy childTf
  procDestroy t child
  return ⟨-ENOMEM, 0⟩

/-- `sys_fork` from its `thread_fork` on. -/
def forkThread (t : Tid) (child childTf : Ptr) (retval : UInt32) (thread : Option Tid) :
    ImageM Answer := do
  let (_, c) ← onKernel (follow Kernel.procHeap (some child))
  let forked ← onKernel (threadFork child thread)
  match forked, thread with
  | true, some tid =>
    modify fun s => { s with starts := update s.starts tid (some (childTf, c.pAddrspace)) }
    storeInt t retval c.pPid
    return ⟨0, c.pPid⟩
  | _, _ => forkUndo t child (some childTf)

/-- `sys_fork` from its `file_table_copy` on. -/
def forkTable (t : Tid) (parent child : Ptr) (parentTf : Trapframe) (retval : UInt32)
    (a : ForkAnswers) : ImageM Answer := do
  let s ← get
  let ft ← onFiles (Files.fileTableCopy (s.procFt parent) a.fileTableCopy)
  setProcFt child ft
  if ft = none then
    forkUndo t child none
  else
    match ← tfCreate a.childTf parentTf with
    | none => forkUndo t child none
    | some childTf => forkThread t child childTf retval a.thread

/-- `sys_fork` from its `as_copy` on. -/
def forkAs (t : Tid) (parent child : Ptr) (parentTf : Trapframe) (retval : UInt32)
    (a : ForkAnswers) : ImageM Answer := do
  let (_, p) ← onKernel (follow Kernel.procHeap (some parent))
  let (result, as) ← asCopy p.pAddrspace a.asCopy
  if result ≠ 0 then
    procDestroy t child
    return ⟨result, 0⟩
  else
    setAddrspace child as
    forkTable t parent child parentTf retval a

/-- `sys_fork` from the `file_table_create` in its `proc_create` to its own `add_proc`. -/
def forkRegister (t : Tid) (child : Ptr) (a : ForkAnswers) : ImageM Unit := do
  setProcFt child (← onFiles (Files.fileTableCreate a.table))
  onKernel (procRegister a.allocs child)
  onKernel (sysForkAdd t child a.lockOk a.cvOk)

/-- The child's pid goes to the parent's memory at `retval`. -/
def sysFork (t : Tid) (parentTf : Trapframe) (retval : UInt32) (a : ForkAnswers) :
    ImageM Answer := do
  let s ← get
  let (parent, _) ← onKernel (follow Kernel.procHeap (s.kernel.curproc t))
  match ← onKernel (sysForkBegin t a.allocs) with
  | none => return ⟨-EINVAL, 0⟩
  | some child =>
    forkRegister t child a
    forkAs t parent child parentTf retval a

/-! ## Failures -/

/-- Some step of `sys_fork` fails. -/
def ForkAnswers.Fails (a : ForkAnswers) (s : Image) (parent : Ptr) (p : Proc) : Prop :=
  p.pAddrspace = none ∨ a.allocs.proc = false ∨ a.allocs.name = false ∨ a.allocs.children = false ∨
    s.kernel.newPid = -1 ∨ a.asCopy.asCreate = false ∨ a.asCopy.asPrepareLoad ≠ 0 ∨
    s.procFt parent = none ∨ a.fileTableCopy ≠ .ok ∨ a.childTf = false ∨ a.thread = none

/-- What a failed `sys_fork` must leave as it was: the process table with its locks and count, the
processes (the parent with its list of children, and none of them new), the address spaces, the
trapframes, the vnodes' counts, and the parent's name and descriptors. -/
structure Untouched (s t : Image) (parent : Ptr) : Prop where
  procTable : t.kernel.procTable = s.kernel.procTable
  processes : t.kernel.procHeap = s.kernel.procHeap
  addrspaces : t.addrspaces = s.addrspaces
  trapframes : t.trapframes = s.trapframes
  vnodes : t.files.vnRefcount = s.files.vnRefcount
  name : t.pName parent = s.pName parent
  procFt : t.procFt parent = s.procFt parent
  descriptors : t.files.descriptor (t.procFt parent) = s.files.descriptor (s.procFt parent)

section Runs

variable {t : Tid} {s s' : Image} {parent child : Ptr} {c : Proc} {r : Answer} {u : Unit}

theorem tfDestroy_frame {tf : Option Ptr} (h : tfDestroy tf s = .ok u s') :
    s'.kernel = s.kernel ∧ s'.addrspaces = s.addrspaces := by
  cases tf with
  | none =>
    obtain ⟨-, rfl⟩ := pure_eq_ok.mp h
    exact ⟨rfl, rfl⟩
  | some p =>
    simp only [tfDestroy, bind_eq_ok, get_eq_ok] at h
    obtain ⟨_, _, ⟨rfl, rfl⟩, h⟩ := h
    split at h
    · exact absurd h throw_eq_ok
    · obtain rfl := modify_eq_ok.mp h
      exact ⟨rfl, rfl⟩

/-- The child's address space, once destroyed, is destroyed again by `proc_destroy`. -/
theorem forkUndo_stops {as : Ptr} {childTf : Option Ptr} (hc : s.kernel.procHeap child = some c)
    (has : c.pAddrspace = some as) : ¬ forkUndo t child childTf s = .ok r s' := by
  intro h
  simp only [forkUndo, bind_eq_ok, onKernel_eq_ok, follow_eq_ok] at h
  obtain ⟨⟨q, C⟩, _, ⟨_, ⟨⟨hq, hC⟩, rfl⟩, rfl⟩, _, s₂, hdestroy, _, s₃, htf, _, s₄, hproc, -⟩ := h
  obtain rfl : child = q := Option.some.inj hq
  obtain rfl : c = C := Option.some.inj (hc.symm.trans hC)
  rw [has, asDestroy_some] at hdestroy
  obtain ⟨-, rfl⟩ := hdestroy
  obtain ⟨hkernel, haddrspaces⟩ := tfDestroy_frame htf
  simp only [procDestroy, bind_eq_ok] at hproc
  obtain ⟨pid, s₅, hbegin, -⟩ := hproc
  obtain ⟨-, hlive, -⟩ := procDestroyAs_spec (by rw [hkernel]; exact hc) hbegin
  refine hlive as has ?_
  simp [haddrspaces]

theorem forkThread_ok {as : Ptr} {childTf : Ptr} {retval : UInt32} {thread : Option Tid}
    (hc : s.kernel.procHeap child = some c) (has : c.pAddrspace = some as)
    (h : forkThread t child childTf retval thread s = .ok r s') : thread ≠ none := by
  rintro rfl
  simp only [forkThread, threadFork, bind_eq_ok, onKernel_eq_ok, follow_eq_ok, pure_eq_ok] at h
  obtain ⟨⟨q, C⟩, _, ⟨_, ⟨-, rfl⟩, rfl⟩, _, _, ⟨_, ⟨rfl, rfl⟩, rfl⟩, h⟩ := h
  exact forkUndo_stops hc has h

/-- The thread runs a process that is on the heap. -/
structure Running (s : Image) (t : Tid) (parent : Ptr) (p : Proc) : Prop where
  curproc : s.kernel.curproc t = some parent
  proc : s.kernel.procHeap parent = some p
  allocated : parent < s.kernel.next

/-- Both `add_proc`s count the child. -/
theorem forkRegister_spec {a : ForkAnswers} (hc : s.kernel.procHeap child = some c)
    (hparent : c.parentProc = none) (h : forkRegister t child a s = .ok u s') :
    s'.kernel.procTable.activeProcs = s.kernel.procTable.activeProcs + 2 ∧
      (∃ C, s'.kernel.procHeap = update s.kernel.procHeap child (some C) ∧ C.pPid = c.pPid ∧
        C.parentProc = none) ∧
      ∀ q, q ≠ child → s'.procFt q = s.procFt q := by
  simp only [forkRegister, setProcFt, bind_eq_ok, onFiles_eq_ok, modify_eq_ok, onKernel_eq_ok] at h
  obtain ⟨ft, _, ⟨f, -, rfl⟩, _, _, rfl, _, _, ⟨k₁, hregister, rfl⟩, k₂, hadd, rfl⟩ := h
  obtain ⟨P, -, haddProc⟩ := procRegister_spec hregister
  obtain ⟨l, cv, -, -, -, -, -, -, htable₁, hheap₁, -⟩ := addProc_spec haddProc
  obtain ⟨_, parentProc, C, -, -, hC, haddProc'⟩ := sysForkAdd_spec hadd
  obtain ⟨l', cv', -, -, -, -, -, -, htable₂, hheap₂, -⟩ := addProc_spec haddProc'
  have hC : k₁.procHeap child = some C := hC
  rw [hheap₁] at hC
  obtain rfl : c = C := Option.some.inj (hc.symm.trans hC)
  refine ⟨?_, ⟨{ c with pPpid := parentProc.pPid }, ?_, rfl, hparent⟩,
    fun q hq => Function.update_of_ne hq _ _⟩
  · show k₂.procTable.activeProcs = _
    rw [htable₂]
    show k₁.procTable.activeProcs + 1 = s.kernel.procTable.activeProcs + (1 + 1)
    rw [htable₁, ← Int.add_assoc]
    rfl
  · show k₂.procHeap = _
    rw [hheap₂]
    show update k₁.procHeap child _ = _
    rw [hheap₁]
    rfl

end Runs

/-- `-EINVAL` for a parent without an address space, and nothing is touched. -/
theorem sysFork_einval {t : Tid} {tf : Trapframe} {retval : UInt32} {a : ForkAnswers} {s : Image}
    {parent : Ptr} {p : Proc} (hrun : Running s t parent p) (has : p.pAddrspace = none) :
    sysFork t tf retval a s = .ok ⟨-EINVAL, 0⟩ s := by
  have hbegin : sysForkBegin t a.allocs s.kernel = .ok none s.kernel := by
    simp only [sysForkBegin, bind_eq_ok, get_eq_ok, follow_eq_ok]
    refine ⟨s.kernel, s.kernel, ⟨rfl, rfl⟩, (parent, p), s.kernel,
      ⟨⟨hrun.curproc, hrun.proc⟩, rfl⟩, ?_⟩
    rw [if_pos has, pure_eq_ok]
    exact ⟨rfl, rfl⟩
  simp only [sysFork, bind_eq_ok, get_eq_ok, onKernel_eq_ok, follow_eq_ok]
  refine ⟨s, s, ⟨rfl, rfl⟩, (parent, p), s, ⟨s.kernel, ⟨⟨hrun.curproc, hrun.proc⟩, rfl⟩, rfl⟩,
    none, s, ⟨s.kernel, hbegin, rfl⟩, ?_⟩
  rfl

/-- Process 3, at address 4, with thread 1, address space 0 and no file open. -/
def userProc : Proc := { Proc.new 3 ⟨[], some 5⟩ (some ⟨0, []⟩) with
  pNumthreads := 1
  pAddrspace := some 0 }

/-- The kernel with `userProc`. -/
def userImage : Image where
  kernel := { bootKernel with
    procHeap := update bootKernel.procHeap 4 (some userProc)
    lockHeap := update (update bootKernel.lockHeap 5 (some ⟨false, none, []⟩)) 6
      (some ⟨false, none, []⟩)
    cvHeap := update bootKernel.cvHeap 7 (some ⟨[]⟩)
    threads := update bootKernel.threads 1 (some ⟨some 4⟩)
    procTable := bootKernel.procTable.add 4 3 (some 6) (some 7)
    next := 8 }
  files := ⟨fun _ => 0, fun _ => none, fun q => if q = 0 then some ⟨fun _ => none, 0⟩ else none,
    ⟨fun _ => none, 0⟩, fun _ => [], [], [], 1⟩
  pName := fun _ => []
  procFt := fun p => if p = 4 then some 0 else none
  addrspaces := fun p => if p = 0 then some ⟨4096, 0, 8192, 0, [], [], []⟩ else none
  trapframes := fun _ => none
  starts := fun _ => none
  next := 1

theorem userImage_running : Running userImage 1 4 userProc := ⟨rfl, rfl, by decide⟩

/-- Everything succeeds but the `as_copy`. -/
def asCopyFails : ForkAnswers := ⟨.all, .ok, true, true, ⟨false, 0⟩, .ok, true, some 2⟩

end UnionCollegeCode.OS161.UserProcess
