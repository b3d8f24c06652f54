import UnionCollegeCode.Lib.Run
import UnionCollegeCode.OS161.Process

/-!
# The kernel under any interleaving

A machine is a kernel with a control point for each thread. One step runs one section of one thread;
which thread, and everything the section leaves open (allocations, a new thread's name, arguments),
is the step's label. A section that stops short has no step: the kernel is down, or the thread
sleeps.

The machine also keeps a diary that no step reads: where each process is in its life, what the last
`sys_waitpid` of a thread returned, and which `sys_exit` got past its `cv_broadcast`.
-/

set_option autoImplicit false

namespace UnionCollegeCode.OS161

open Function (update)

/-- Who wants a process. -/
inductive Creator
  | commonProg
  | sysFork
  deriving DecidableEq, Repr

/-- Where a thread is between two of its sections. -/
inductive Pc
  | outside
  /-- In `proc_create`, before `add_proc`. -/
  | creating (c : Creator) (proc : Ptr)
  /-- In `sys_fork`, before its own `add_proc`. -/
  | forked (child : Ptr)
  | starting (c : Creator) (proc : Ptr)
  /-- In `proc_destroy`, before `remove_proc`; `exiting` when `thread_exit` called it. -/
  | destroying (proc : Ptr) (exiting : Bool)
  | removed (proc : Ptr) (exiting : Bool)
  /-- In `sys_exit`, before `thread_exit`. -/
  | leaving
  /-- In `sys_waitpid`, after `find_process`. -/
  | found (pid : ℤ) (target : Ptr)
  | acquiring (pid : ℤ) (target : Ptr) (lock : Option Ptr)
  | locked (pid : ℤ) (target : Ptr)
  /-- In `cv_wait`, asleep or woken. -/
  | waiting (pid : ℤ) (target : Ptr) (cv lock : Option Ptr)
  | reacquiring (pid : ℤ) (target : Ptr) (lock : Option Ptr)
  | woken (pid : ℤ) (target : Ptr)
  deriving DecidableEq, Repr

/-- A process is live from when it has its pid until `remove_proc` takes it from the table. -/
inductive Life
  | absent
  | created
  | registered
  | removed
  deriving DecidableEq, Repr

/-- A `cv_broadcast` of `sys_exit`: by which process, and what its exit code was to be. -/
structure Broadcast where
  proc : Ptr
  pid : ℤ
  exitcode : ℤ
  deriving DecidableEq, Repr

structure Machine where
  kernel : Kernel
  pc : Tid → Pc
  /-- The word of user memory that the status argument of a thread's `sys_waitpid` points to. -/
  status : Tid → ℤ
  life : Ptr → Life
  /-- ℤ and result of the last `sys_waitpid` of a thread. -/
  waited : Tid → Option (ℤ × ℤ)
  broadcasts : List Broadcast

inductive Action
  /-- `common_prog` calls `proc_create_runprogram`. -/
  | create (t : Tid) (a : Allocs)
  | fork (t : Tid) (a : Allocs)
  | register (t : Tid) (a : Allocs)
  | forkAdd (t : Tid) (lockOk cvOk : Bool)
  | forkEnd (t : Tid) (e : ForkEnd)
  /-- `common_prog` calls `thread_fork`. -/
  | launch (t : Tid) (tid : Option Tid)
  | runprogram (t : Tid) (addrspace : Ptr)
  /-- A kernel thread makes another. -/
  | kernelThread (t tid : Tid)
  | exit (t : Tid) (exitcode : ℤ)
  | threadExit (t : Tid)
  | remove (t : Tid)
  | destroy (t : Tid)
  | waitpid (t : Tid) (pid : ℤ) (options : ℤ)
  | acquire (t : Tid)
  | check (t : Tid)
  | wake (t : Tid)
  | waitEnd (t : Tid)
  deriving DecidableEq, Repr

namespace Machine

/-- One section, and what the machine is after it. -/
def run {α : Type} (m : Machine) (section_ : KernelM α) (next : α → Machine → Machine) :
    Option Machine :=
  match section_ m.kernel with
  | .ok a k => some (next a { m with kernel := k })
  | .error _ _ => none

def goto (t : Tid) (pc : Pc) (m : Machine) : Machine := { m with pc := update m.pc t pc }

def setLife (p : Ptr) (l : Life) (m : Machine) : Machine := { m with life := update m.life p l }

/-- `sys_waitpid` returns. -/
def waitReturns (t : Tid) (pid : ℤ) (r : ℤ) (m : Machine) : Machine :=
  { m with pc := update m.pc t .outside, waited := update m.waited t (some (pid, r)) }

/-- A process fresh out of `proc_create`'s first part. -/
def created (t : Tid) (c : Creator) : Option Ptr → Machine → Machine
  | none, m => m
  | some p, m => (m.setLife p .created).goto t (.creating c p)

/-- Nobody has woken the thread. -/
def asleepOn (t : Tid) (wchan : Option (List Tid)) : Prop := ∃ wc, wchan = some wc ∧ t ∈ wc

instance (t : Tid) (wchan : Option (List Tid)) : Decidable (asleepOn t wchan) :=
  match wchan with
  | none => isFalse fun ⟨_, h, _⟩ => by cases h
  | some wc => decidable_of_iff (t ∈ wc) ⟨fun h => ⟨wc, rfl, h⟩, fun ⟨_, h, hm⟩ => by cases h; exact hm⟩

def lockWchan (m : Machine) (lock : Option Ptr) : Option (List Tid) :=
  (lock.bind m.kernel.lockHeap).map Lock.lkWchan

def cvWchan (m : Machine) (cv : Option Ptr) : Option (List Tid) :=
  (cv.bind m.kernel.cvHeap).map Cv.cvWchan

def broadcastsOf (m : Machine) (t : Tid) (code : ℤ) : List Broadcast :=
  match m.kernel.curproc t with
  | none => []
  | some p => (m.kernel.procHeap p).toList.map fun P => ⟨p, P.pPid, code⟩

def isRunning (m : Machine) (t : Tid) : Prop := m.pc t = .outside ∧ m.kernel.threads t ≠ none

instance (m : Machine) (t : Tid) : Decidable (m.isRunning t) :=
  inferInstanceAs (Decidable (_ ∧ _))

def isNew (m : Machine) (tid : Tid) : Prop := m.kernel.threads tid = none

instance (m : Machine) (tid : Tid) : Decidable (m.isNew tid) :=
  inferInstanceAs (Decidable (_ = _))

def step (m : Machine) : Action → Option Machine
  | .create t a =>
    if m.isRunning t then m.run (procCreateBegin a) (created t .commonProg) else none
  | .fork t a => if m.isRunning t then m.run (sysForkBegin t a) (created t .sysFork) else none
  | .register t a =>
    match m.pc t with
    | .creating .commonProg p =>
      m.run (procRegister a p) fun _ m => (m.setLife p .registered).goto t (.starting .commonProg p)
    | .creating .sysFork p =>
      m.run (procRegister a p) fun _ m => (m.setLife p .registered).goto t (.forked p)
    | _ => none
  | .forkAdd t lockOk cvOk =>
    match m.pc t with
    | .forked p => m.run (sysForkAdd t p lockOk cvOk) fun _ m => m.goto t (.starting .sysFork p)
    | _ => none
  | .forkEnd t e =>
    match m.pc t with
    | .starting .sysFork p =>
      if ∀ t' ∈ e.thread, m.isNew t' then
        m.run (sysForkEnd p e) fun ok m => m.goto t (if ok then .outside else .destroying p false)
      else none
    | _ => none
  | .launch t tid =>
    match m.pc t with
    | .starting .commonProg p =>
      if ∀ t' ∈ tid, m.isNew t' then
        m.run (threadFork p tid) fun ok m => m.goto t (if ok then .outside else .destroying p false)
      else none
    | _ => none
  | .runprogram t as => if m.isRunning t then m.run (runprogramSetas t as) fun _ m => m else none
  | .kernelThread t tid =>
    if m.isRunning t ∧ m.kernel.curproc t = some m.kernel.kproc ∧ m.isNew tid then
      m.run (threadFork m.kernel.kproc (some tid)) fun _ m => m
    else none
  | .exit t code =>
    if m.isRunning t then
      m.run (sysExitBegin t code) fun _ m' =>
        { m'.goto t .leaving with broadcasts := m.broadcastsOf t code ++ m.broadcasts }
    else none
  | .threadExit t =>
    if m.isRunning t ∨ m.pc t = .leaving then
      m.run (procRemthreadBegin t) fun p m => m.goto t (.destroying p true)
    else none
  | .remove t =>
    match m.pc t with
    | .destroying p exiting =>
      m.run (procDestroyBegin t p) fun _ m => (m.setLife p .removed).goto t (.removed p exiting)
    | _ => none
  | .destroy t =>
    match m.pc t with
    | .removed p false =>
      m.run (procDestroyEnd t p) fun _ m => (m.setLife p .absent).goto t .outside
    | .removed p true =>
      m.run (do procDestroyEnd t p; threadExitEnd t) fun _ m =>
        (m.setLife p .absent).goto t .outside
    | _ => none
  | .waitpid t pid options =>
    if m.isRunning t then
      if options ≠ 0 then some (m.waitReturns t pid (-EINVAL))
      else m.run (findProcess pid) fun
        | none, m => m.waitReturns t pid (-ESRCH)
        | some target, m => m.goto t (.found pid target)
    else none
  | .acquire t =>
    match m.pc t with
    | .found pid target =>
      m.run (sysWaitpidAcquire t pid) fun (lock, taken) m =>
        m.goto t (if taken then .locked pid target else .acquiring pid target lock)
    | .acquiring pid target lock =>
      if asleepOn t (m.lockWchan lock) then none
      else m.run (lockTake t lock) fun taken m =>
        m.goto t (if taken then .locked pid target else .acquiring pid target lock)
    | _ => none
  | .check t =>
    match m.pc t with
    | .locked pid target =>
      m.run (sysWaitpidCheck t pid) fun
        | true, m => m.goto t (.waiting pid target (m.kernel.procTable.exitCvs pid)
            (m.kernel.procTable.exitLocks pid))
        | false, m => m.waitReturns t pid (-ECHILD)
    | _ => none
  | .wake t =>
    match m.pc t with
    | .waiting pid target cv lock =>
      if asleepOn t (m.cvWchan cv) then none
      else m.run (lockAcquire t lock) fun taken m =>
        m.goto t (if taken then .woken pid target else .reacquiring pid target lock)
    | .reacquiring pid target lock =>
      if asleepOn t (m.lockWchan lock) then none
      else m.run (lockTake t lock) fun taken m =>
        m.goto t (if taken then .woken pid target else .reacquiring pid target lock)
    | _ => none
  | .waitEnd t =>
    match m.pc t with
    | .woken pid _ => m.run (sysWaitpidEnd t pid) fun r m => m.waitReturns t pid r
    | _ => none

/-- The kernel has booted: its one thread runs in its one process. -/
def boot : Machine where
  kernel := bootKernel
  pc := fun _ => .outside
  status := fun _ => 0
  life := update (fun _ => .absent) 1 .registered
  waited := fun _ => none
  broadcasts := []

end Machine

/-! ## A program that forks -/

/-- The menu starts a program, and the program forks. -/
def forkSchedule : List Action :=
  [.create 0 .all, .register 0 .all, .launch 0 (some 1), .runprogram 1 100, .fork 1 .all,
    .register 1 .all, .forkAdd 1 true true]

def Machine.forkedOnce : Machine :=
  (Lib.Run.exec Machine.step Machine.boot forkSchedule).getD Machine.boot

theorem exec_forkSchedule :
    Lib.Run.exec Machine.step Machine.boot forkSchedule = some Machine.forkedOnce := rfl

end UnionCollegeCode.OS161
