import UnionCollegeCode.OS161.Effects
import UnionCollegeCode.OS161.Exit.Ends

/-!
# The threads of one process on their way out

Each of the threads runs `sys_exit` or `thread_exit`, and they take turns in any order. `proc_remthread`
calls `proc_destroy` whoever leaves, and `sys_exit` broadcasts without a lock; so all goes well where a
user process has one thread, which runs `thread_exit`, and nobody sleeps on what is destroyed.
-/

set_option autoImplicit false

namespace UnionCollegeCode.OS161

open Function (update)
open Lib.EState Lib.Run

/-- How a thread leaves. -/
inductive Leave
  | sysExit (exitcode : ℤ)
  | threadExit
  deriving DecidableEq, Repr

/-- Where it is on its way. -/
inductive ExitPc
  | calling
  /-- In `sys_exit`, before `thread_exit`. -/
  | leaving
  /-- In the `proc_destroy` of `proc_remthread`, before `remove_proc`. -/
  | destroying (proc : Ptr)
  | removed (proc : Ptr)
  | gone
  deriving DecidableEq, Repr

/-- A call of `proc_destroy`: on which process, and how many threads it has left. -/
structure DestroyCall where
  proc : Ptr
  pNumthreads : ℕ
  deriving DecidableEq, Repr

structure ExitState where
  kernel : Kernel
  pc : Tid → ExitPc
  destroyed : List DestroyCall

/-- The next section of a thread. -/
def exitSection (t : Tid) (leave : Leave) : ExitPc → KernelM ExitPc
  | .calling =>
    match leave with
    | .sysExit exitcode => do
      sysExitBegin t exitcode
      return .leaving
    | .threadExit => do return .destroying (← procRemthreadBegin t)
  | .leaving => do return .destroying (← procRemthreadBegin t)
  | .destroying proc => do
    procDestroyBegin t proc
    return .removed proc
  | .removed proc => do
    procDestroyEnd t proc
    threadExitEnd t
    return .gone
  | .gone => return .gone

def Kernel.pNumthreads (s : Kernel) (p : Ptr) : ℕ := ((s.procHeap p).map Proc.pNumthreads).getD 0

/-- The call that a thread has come to. -/
def ExitPc.calls (s : Kernel) : ExitPc → List DestroyCall
  | .destroying proc => [⟨proc, s.pNumthreads proc⟩]
  | _ => []

namespace ExitState

def start (s : Kernel) : ExitState := ⟨s, fun _ => .calling, []⟩

def goto (x : ExitState) (t : Tid) (pc : ExitPc) (s : Kernel) : ExitState :=
  ⟨s, update x.pc t pc, pc.calls s ++ x.destroyed⟩

/-- One section of the thread `t`, or why it does not come to its end. -/
def step (leave : Tid → Leave) (x : ExitState) (t : Tid) : Except Stop ExitState :=
  match exitSection t (leave t) (x.pc t) x.kernel with
  | .ok pc s => .ok (x.goto t pc s)
  | .error e _ => .error e

/-- What is to hold while the threads `ts` of `p` leave. -/
structure Right (leave : Tid → Leave) (ts : List Tid) (kproc p : Ptr) (x : ExitState) : Prop where
  /-- No `KASSERT` fails, no `panic` is reached and no bad pointer followed. -/
  passes : ∀ t ∈ ts, ∀ e, x.step leave t = .error e → e = .asleep
  never_kproc : ∀ d ∈ x.destroyed, d.proc ≠ kproc
  last_removed : ∀ d ∈ x.destroyed, d.pNumthreads = 0
  at_most_once : x.destroyed.countP (·.proc = p) ≤ 1
  once : ts ≠ [] → (∀ t ∈ ts, x.pc t = .gone) → x.destroyed.countP (·.proc = p) = 1

end ExitState

/-- `ts` are the threads of `p`, and `p_numthreads` is their number. -/
structure Kernel.HasThreads (s : Kernel) (p : Ptr) (P : Proc) (ts : List Tid) : Prop where
  proc : s.procHeap p = some P
  curproc : ∀ t, s.curproc t = some p ↔ t ∈ ts
  nodup : ts.Nodup
  count : P.pNumthreads = ts.length

/-- In every state that the threads of `p` can come to. -/
def ExitsRight (leave : Tid → Leave) (ts : List Tid) (p : Ptr) (s : Kernel) : Prop :=
  ∀ order : List {t // t ∈ ts},
    Along (fun x t => (ExitState.step leave x t.1).toOption)
      (ExitState.Right leave ts s.kproc p) (ExitState.start s) order

/-! ## The sections of the machine -/

def ExitPc.toPc : ExitPc → Pc
  | .calling => .outside
  | .leaving => .leaving
  | .destroying proc => .destroying proc true
  | .removed proc => .removed proc true
  | .gone => .outside

def ExitPc.action (t : Tid) (leave : Leave) : ExitPc → Action
  | .calling =>
    match leave with
    | .sysExit exitcode => .exit t exitcode
    | .threadExit => .threadExit t
  | .leaving => .threadExit t
  | .destroying _ => .remove t
  | .removed _ | .gone => .destroy t

/-- A section on the way out is a step of the machine. -/
theorem exitSection_step {m : Machine} {t : Tid} {leave : Leave} {pc pc' : ExitPc} {s : Kernel}
    (hgone : pc ≠ .gone) (hlive : m.kernel.threads t ≠ none) (hpc : m.pc t = pc.toPc)
    (h : exitSection t leave pc m.kernel = .ok pc' s) :
    ∃ m', m.step (pc.action t leave) = some m' ∧ m'.kernel = s ∧ m'.pc = update m.pc t pc'.toPc := by
  cases pc with
  | gone => exact absurd rfl hgone
  | calling =>
    have hrun : m.isRunning t := ⟨hpc, hlive⟩
    cases leave with
    | sysExit exitcode =>
      obtain ⟨_, s₁, hexit, hpure⟩ := bind_eq_ok.mp h
      obtain ⟨rfl, rfl⟩ := pure_eq_ok.mp hpure
      exact ⟨_, (if_pos hrun).trans (Machine.run_eq_some.mpr ⟨_, _, hexit, rfl⟩), rfl, rfl⟩
    | threadExit =>
      obtain ⟨q, s₁, hrem, hpure⟩ := bind_eq_ok.mp h
      obtain ⟨rfl, rfl⟩ := pure_eq_ok.mp hpure
      exact ⟨_, (if_pos (.inl hrun)).trans (Machine.run_eq_some.mpr ⟨_, _, hrem, rfl⟩), rfl, rfl⟩
  | leaving =>
    obtain ⟨q, s₁, hrem, hpure⟩ := bind_eq_ok.mp h
    obtain ⟨rfl, rfl⟩ := pure_eq_ok.mp hpure
    exact ⟨_, (if_pos (.inr hpc)).trans (Machine.run_eq_some.mpr ⟨_, _, hrem, rfl⟩), rfl, rfl⟩
  | destroying q =>
    obtain ⟨_, s₁, hbegin, hpure⟩ := bind_eq_ok.mp h
    obtain ⟨rfl, rfl⟩ := pure_eq_ok.mp hpure
    simp only [ExitPc.action, Machine.step, hpc, ExitPc.toPc]
    exact ⟨_, Machine.run_eq_some.mpr ⟨_, _, hbegin, rfl⟩, rfl, rfl⟩
  | removed q =>
    obtain ⟨_, s₁, hend, hrest⟩ := bind_eq_ok.mp h
    obtain ⟨_, s₂, hexit, hpure⟩ := bind_eq_ok.mp hrest
    obtain ⟨rfl, rfl⟩ := pure_eq_ok.mp hpure
    simp only [ExitPc.action, Machine.step, hpc, ExitPc.toPc]
    exact ⟨_, Machine.run_eq_some.mpr ⟨_, _, bind_eq_ok.mpr ⟨_, _, hend, hexit⟩, rfl⟩, rfl, rfl⟩

/-! ## A thread that leaves alone -/

section Alone

variable {leave : Tid → Leave} {ts : List Tid} {s : Kernel} {t : Tid} {p : Ptr} {P : Proc}
  {x x' : ExitState} {l c : Ptr}

namespace ExitState

theorem step_of_ok {pc : ExitPc} {s' : Kernel}
    (h : exitSection t (leave t) (x.pc t) x.kernel = .ok pc s') :
    x.step leave t = .ok (x.goto t pc s') := by
  rw [step, h]

theorem step_eq_ok : x.step leave t = .ok x' ↔
    ∃ pc s', exitSection t (leave t) (x.pc t) x.kernel = .ok pc s' ∧ x' = x.goto t pc s' := by
  unfold step
  cases h : exitSection t (leave t) (x.pc t) x.kernel with
  | ok pc s' =>
    constructor
    · intro heq
      exact ⟨pc, s', rfl, (Except.ok.inj heq).symm⟩
    · rintro ⟨pc', s'', heq, rfl⟩
      cases heq
      rfl
  | error e s' => simp

theorem step_toOption : (x.step leave t).toOption = some x' ↔ x.step leave t = .ok x' := by
  cases x.step leave t <;> simp [Except.toOption]

theorem passes_iff : (∀ e, x.step leave t = .error e → e = .asleep) ↔
    Ends True (exitSection t (leave t) (x.pc t)) (fun _ _ => True) x.kernel := by
  unfold step Ends
  cases h : exitSection t (leave t) (x.pc t) x.kernel with
  | ok pc s' => simp [wp_of_ok h]
  | error e s' => simp [wp_of_error h]

end ExitState

/-- `P` is as `proc_create` makes a process that gets all its memory, and nobody is in the way: it is
in the table with its lock and its condition variable, it has its semaphore and its list's lock, and no
thread sleeps on them. -/
structure Whole (s : Kernel) (t : Tid) (p : Ptr) (P : Proc) : Prop where
  entry : ∃ l c, TableEntry s t P.pPid l c ∧ P.pChildrenLl.llLock ≠ some l
  list : s.listFree t P.pChildrenLl
  exitSem : ∃ m, P.pExitSem = some m ∧ m.semWchan = []
  parent : P.parentProc ≠ some p

theorem listFree_removeEntry {pid : ℤ} {list : LinkedList} :
    (s.removeEntry pid l c).listFree t list ↔ list.llLock ≠ some l ∧ s.listFree t list := by
  constructor
  · rintro ⟨q, L, hq, hL, hrest⟩
    have hne : q ≠ l := by
      rintro rfl
      exact absurd ((Function.update_self ..).symm.trans hL) (Option.some_ne_none L).symm
    refine ⟨fun heq => hne (Option.some.inj (hq.symm.trans heq)), q, L, hq, ?_, hrest⟩
    exact (Function.update_of_ne hne ..).symm.trans hL
  · rintro ⟨hne, q, L, hq, hL, hrest⟩
    refine ⟨q, L, hq, (Function.update_of_ne ?_ ..).trans hL, hrest⟩
    rintro rfl
    exact hne hq

/-- The kernel once the last thread of `p` is counted out, and once the entry of `p` is removed. -/
def Kernel.countedOut (s : Kernel) (p : Ptr) (P : Proc) : Kernel :=
  s.setProc p (some { P with pNumthreads := 0 })

def Kernel.unlisted (s : Kernel) (p : Ptr) (P : Proc) (l c : Ptr) : Kernel :=
  ((s.countedOut p P).setProc p (some { P with pNumthreads := 0, pAddrspace := none })).removeEntry
    P.pPid l c

/-- The only thread of `p`, on its way out. -/
inductive Alone (s : Kernel) (t : Tid) (p : Ptr) (P : Proc) (l c : Ptr) : ExitState → Prop
  | calling : Alone s t p P l c (.start s)
  | destroying {x : ExitState} (hkernel : x.kernel = s.countedOut p P)
      (hpc : x.pc t = .destroying p) (hcalls : x.destroyed = [⟨p, 0⟩]) : Alone s t p P l c x
  | removed {x : ExitState} (hkernel : x.kernel = s.unlisted p P l c) (hpc : x.pc t = .removed p)
      (hcalls : x.destroyed = [⟨p, 0⟩]) : Alone s t p P l c x
  | gone {x : ExitState} (hpc : x.pc t = .gone) (hcalls : x.destroyed = [⟨p, 0⟩]) :
      Alone s t p P l c x

theorem procRemthreadBegin_ok (hcur : s.curproc t = some p) (hP : s.procHeap p = some P)
    (hpos : 0 < P.pNumthreads) :
    procRemthreadBegin t s =
      .ok p (s.setProc p (some { P with pNumthreads := P.pNumthreads - 1 })) := by
  have hends : Ends False (procRemthreadBegin t) (fun q s' => q = p ∧
      s' = s.setProc p (some { P with pNumthreads := P.pNumthreads - 1 })) s :=
    ends_procRemthreadBegin.mpr ⟨p, P, hcur, hP, hpos, rfl, rfl⟩
  obtain ⟨q, s', hok, rfl, rfl⟩ := ends_awake.mp hends
  exact hok

theorem procRemthreadBegin_alone (hcur : s.curproc t = some p) (hP : s.procHeap p = some P)
    (hcount : P.pNumthreads = 1) : procRemthreadBegin t s = .ok p (s.countedOut p P) := by
  rw [procRemthreadBegin_ok hcur hP (hcount ▸ Nat.zero_lt_one), hcount]
  rfl

theorem procDestroyBegin_alone (hcur : s.curproc t = some p) (hne : p ≠ s.kproc)
    (hentry : TableEntry s t P.pPid l c) :
    procDestroyBegin t p (s.countedOut p P) = .ok () (s.unlisted p P l c) := by
  have hP : (s.countedOut p P).procHeap p = some { P with pNumthreads := 0 } := Function.update_self ..
  have hends : Ends False (procDestroyBegin t p) (fun _ s' => s' = s.unlisted p P l c)
      (s.countedOut p P) := by
    rw [ends_procDestroyBegin (s := s.countedOut p P) hcur hP]
    exact ⟨hne, l, c, ⟨hentry.1, hentry.2, hentry.3, hentry.4, hentry.5, hentry.6⟩, rfl⟩
  obtain ⟨_, s', hok, rfl⟩ := ends_awake.mp hends
  exact hok

theorem ends_removed {leave : Leave} (hP : s.procHeap p = some P) :
    Ends True (exitSection t leave (.removed p)) (fun _ _ => True) s ↔
      P.parentProc ≠ some p ∧ P.pNumthreads = 0 ∧ (∃ m, P.pExitSem = some m ∧ m.semWchan = []) ∧
        s.listFree t P.pChildrenLl := by
  rw [exitSection, ends_bind]
  apply ends_procDestroyEnd hP
  intro s'
  rw [ends_bind]
  exact ends_threadExitEnd fun _ => trivial

namespace Alone

variable (hcur : s.curproc t = some p) (hP : s.procHeap p = some P) (hcount : P.pNumthreads = 1)
  (hne : p ≠ s.kproc) (hentry : TableEntry s t P.pPid l c) (hleave : leave t = .threadExit)

include hcur hP hcount hne hentry hleave

theorem step (h : Alone s t p P l c x) (hs : x.step leave t = .ok x') : Alone s t p P l c x' := by
  obtain ⟨pc, s', hsection, rfl⟩ := ExitState.step_eq_ok.mp hs
  cases h with
  | calling =>
    rw [hleave] at hsection
    obtain ⟨q, s₁, hrem, hpure⟩ := bind_eq_ok.mp hsection
    obtain ⟨rfl, rfl⟩ := pure_eq_ok.mp hpure
    cases (procRemthreadBegin_alone hcur hP hcount).symm.trans hrem
    refine .destroying rfl (Function.update_self ..) ?_
    simp [ExitState.goto, ExitPc.calls, Kernel.pNumthreads, Kernel.countedOut, Kernel.setProc,
      ExitState.start]
  | destroying hkernel hpc hcalls =>
    rw [hpc, hkernel] at hsection
    obtain ⟨_, s₁, hbegin, hpure⟩ := bind_eq_ok.mp hsection
    obtain ⟨rfl, rfl⟩ := pure_eq_ok.mp hpure
    cases (procDestroyBegin_alone hcur hne hentry).symm.trans hbegin
    exact .removed rfl (Function.update_self ..) hcalls
  | removed hkernel hpc hcalls =>
    rw [hpc] at hsection
    obtain ⟨_, s₁, -, hrest⟩ := bind_eq_ok.mp hsection
    obtain ⟨_, s₂, -, hpure⟩ := bind_eq_ok.mp hrest
    obtain ⟨rfl, rfl⟩ := pure_eq_ok.mp hpure
    exact .gone (Function.update_self ..) hcalls
  | gone hpc hcalls =>
    rw [hpc] at hsection
    obtain ⟨rfl, rfl⟩ := pure_eq_ok.mp hsection
    exact .gone (Function.update_self ..) hcalls

theorem passes (hwhole : (s.unlisted p P l c).listFree t P.pChildrenLl)
    (hsem : ∃ m, P.pExitSem = some m ∧ m.semWchan = []) (hparent : P.parentProc ≠ some p)
    (h : Alone s t p P l c x) (e : Stop) (he : x.step leave t = .error e) : e = .asleep := by
  refine ExitState.passes_iff.mpr ?_ e he
  cases h with
  | calling =>
    have hrun : exitSection t (leave t) .calling s = .ok (.destroying p) (s.countedOut p P) := by
      rw [hleave]
      exact bind_ok (procRemthreadBegin_alone hcur hP hcount)
    exact (wp_of_ok hrun).mpr trivial
  | destroying hkernel hpc _ =>
    have hrun : exitSection t (leave t) (.destroying p) (s.countedOut p P) =
        .ok (.removed p) (s.unlisted p P l c) := bind_ok (procDestroyBegin_alone hcur hne hentry)
    rw [hpc, hkernel]
    exact (wp_of_ok hrun).mpr trivial
  | removed hkernel hpc _ =>
    rw [hpc, hkernel, ends_removed (Function.update_self ..)]
    exact ⟨hparent, rfl, hsem, hwhole⟩
  | gone hpc _ =>
    rw [hpc]
    exact trivial

end Alone

theorem Alone.right (hne : p ≠ s.kproc)
    (hpasses : ∀ e, x.step leave t = .error e → e = .asleep) (h : Alone s t p P l c x) :
    x.Right leave [t] s.kproc p := by
  have hcalls : x.destroyed = [] ∧ x.pc t ≠ .gone ∨ x.destroyed = [⟨p, 0⟩] := by
    cases h with
    | calling => exact .inl ⟨rfl, by simp [ExitState.start]⟩
    | destroying _ _ hcalls => exact .inr hcalls
    | removed _ _ hcalls => exact .inr hcalls
    | gone _ hcalls => exact .inr hcalls
  rcases hcalls with ⟨hcalls, hthere⟩ | hcalls
  · refine ⟨by simpa using hpasses, by simp [hcalls], by simp [hcalls], by simp [hcalls], ?_⟩
    intro _ hgone
    exact absurd (hgone t (List.mem_singleton_self t)) hthere
  · exact ⟨by simpa using hpasses, by simp [hcalls, hne], by simp [hcalls], by simp [hcalls],
      by simp [hcalls]⟩

theorem exitsRight_of_alone (h : s.HasThreads p P [t]) (hne : p ≠ s.kproc)
    (hleave : leave t = .threadExit) (hwhole : Whole s t p P) : ExitsRight leave [t] p s := by
  obtain ⟨l, c, hentry, hlock⟩ := hwhole.entry
  have hcur : s.curproc t = some p := (h.curproc t).mpr (List.mem_singleton_self t)
  have hlist : (s.unlisted p P l c).listFree t P.pChildrenLl :=
    listFree_removeEntry.mpr ⟨hlock, hwhole.list⟩
  intro order
  have halong : Along (fun x u => (ExitState.step leave x u.1).toOption) (Alone s t p P l c)
      (.start s) order := by
    refine along_of_step ?_ .calling
    rintro x ⟨u, hu⟩ x' hx hs
    obtain rfl := List.mem_singleton.mp hu
    exact hx.step hcur h.proc h.count hne hentry hleave (ExitState.step_toOption.mp hs)
  refine halong.mono fun x hx => hx.right hne ?_
  exact hx.passes hcur h.proc h.count hne hentry hleave hlist hwhole.exitSem hwhole.parent

/-! ## And no other -/

/-- After a section that comes to its end, the thread's next section has to as well. -/
theorem along_section {order : List {u // u ∈ ts}} {ht : t ∈ ts} {pc : ExitPc} {s' : Kernel}
    (h : Along (fun x u => (ExitState.step leave x u.1).toOption) (ExitState.Right leave ts s.kproc p) x
      (⟨t, ht⟩ :: order))
    (hsection : exitSection t (leave t) (x.pc t) x.kernel = .ok pc s') :
    Along (fun x u => (ExitState.step leave x u.1).toOption) (ExitState.Right leave ts s.kproc p)
        (x.goto t pc s') order ∧
      Ends True (exitSection t (leave t) pc) (fun _ _ => True) s' := by
  have hrest := h.2 _ (ExitState.step_toOption.mpr (ExitState.step_of_ok hsection))
  have hends := ExitState.passes_iff.mp (hrest.head.passes t ht)
  rw [show (x.goto t pc s').pc t = pc from Function.update_self ..] at hends
  exact ⟨hrest, hends⟩

variable (h : s.HasThreads p P ts) (ht : t ∈ ts) (hright : ExitsRight leave ts p s)

include h ht hright

/-- The first thread to count itself out has to be the last one, and of another process than `kproc`. -/
theorem alone_of_right (hleave : leave t = .threadExit) : P.pNumthreads = 1 ∧ p ≠ s.kproc := by
  have hcur : s.curproc t = some p := (h.curproc t).mpr ht
  have hpos : 0 < P.pNumthreads := h.count ▸ List.length_pos_of_mem ht
  have hsection : exitSection t (leave t) .calling s = .ok (.destroying p)
      (s.setProc p (some { P with pNumthreads := P.pNumthreads - 1 })) := by
    rw [hleave]
    exact bind_ok (procRemthreadBegin_ok hcur h.proc hpos)
  have hafter := (along_section (hright [⟨t, ht⟩]) hsection).1.head
  have hcall : (⟨p, P.pNumthreads - 1⟩ : DestroyCall) ∈
      ((ExitState.start s).goto t (.destroying p)
        (s.setProc p (some { P with pNumthreads := P.pNumthreads - 1 }))).destroyed := by
    simp [ExitState.goto, ExitPc.calls, Kernel.pNumthreads, Kernel.setProc]
  have hlast : P.pNumthreads - 1 = 0 := hafter.last_removed _ hcall
  exact ⟨by omega, hafter.never_kproc _ hcall⟩

theorem whole_of_right (hleave : leave t = .threadExit) : Whole s t p P := by
  obtain ⟨hcount, hne⟩ := alone_of_right h ht hright hleave
  have hcur : s.curproc t = some p := (h.curproc t).mpr ht
  have hrem : exitSection t (leave t) .calling s = .ok (.destroying p) (s.countedOut p P) := by
    rw [hleave]
    exact bind_ok (procRemthreadBegin_alone hcur h.proc hcount)
  obtain ⟨hone, hbegin⟩ := along_section (hright [⟨t, ht⟩, ⟨t, ht⟩]) hrem
  rw [exitSection, ends_bind,
    ends_procDestroyBegin (s := s.countedOut p P) hcur (Function.update_self ..)] at hbegin
  obtain ⟨-, l, c, hentry, -⟩ := hbegin
  have hentry : TableEntry s t P.pPid l c :=
    ⟨hentry.1, hentry.2, hentry.3, hentry.4, hentry.5, hentry.6⟩
  have hdestroy : exitSection t (leave t) (.destroying p) (s.countedOut p P) =
      .ok (.removed p) (s.unlisted p P l c) := bind_ok (procDestroyBegin_alone hcur hne hentry)
  have hpc : ((ExitState.start s).goto t (.destroying p) (s.countedOut p P)).pc t = .destroying p :=
    Function.update_self ..
  obtain ⟨-, hend⟩ := along_section hone (hpc.symm ▸ hdestroy)
  rw [ends_removed (Function.update_self ..)] at hend
  obtain ⟨hparent, -, hsem, hlist⟩ := hend
  obtain ⟨hlock, hlist⟩ := listFree_removeEntry.mp hlist
  exact ⟨⟨l, c, hentry, hlock⟩, hlist, hsem, hparent⟩

/-- `sys_exit` broadcasts without the exit lock; and with it, `remove_proc` would destroy a lock that its
caller holds. -/
theorem not_sysExit {exitcode : ℤ} (hleave : leave t = .sysExit exitcode) : False := by
  have hcur : s.curproc t = some p := (h.curproc t).mpr ht
  have hbegin := ExitState.passes_iff.mp ((hright []).head.passes t ht)
  simp only [ExitState.start, hleave, exitSection, ends_bind] at hbegin
  obtain ⟨⟨l, L, hl, hL, howner⟩, s', hexit, hlocks⟩ := ends_sysExitBegin hcur h.proc hbegin
  obtain ⟨hquiet, hthreads⟩ := sysExitBegin_spec hexit
  have hleaves : exitSection t (leave t) .calling s = .ok .leaving s' := by
    rw [hleave]
    exact bind_ok hexit
  obtain ⟨hone, hrem⟩ := along_section (hright [⟨t, ht⟩, ⟨t, ht⟩]) hleaves
  rw [exitSection, ends_bind, ends_procRemthreadBegin] at hrem
  obtain ⟨q, P', hq, hP', hpos, -⟩ := hrem
  have hcur' : s'.curproc t = some p := by
    rw [Kernel.curproc, hthreads]
    exact hcur
  obtain rfl : p = q := Option.some.inj (hcur'.symm.trans hq)
  have hpid : P'.pPid = P.pPid := by
    obtain ⟨P₀, hP₀, hkin⟩ := hquiet.exists_proc hP'
    cases h.proc.symm.trans hP₀
    exact Proc.pPid_of_kin hkin
  have hcounted : exitSection t (leave t) .leaving s' = .ok (.destroying p)
      (s'.setProc p (some { P' with pNumthreads := P'.pNumthreads - 1 })) :=
    bind_ok (procRemthreadBegin_ok hcur' hP' hpos)
  have hpc : ((ExitState.start s).goto t .leaving s').pc t = .leaving := Function.update_self ..
  obtain ⟨-, hbegin⟩ := along_section hone (hpc.symm ▸ hcounted)
  rw [exitSection, ends_bind, ends_procDestroyBegin
    (s := s'.setProc p (some { P' with pNumthreads := P'.pNumthreads - 1 })) hcur'
    (Function.update_self ..)] at hbegin
  obtain ⟨-, l', c, hentry, -⟩ := hbegin
  obtain ⟨L', hL', hnot, -⟩ := hentry.lock
  have hl' : s'.procTable.exitLocks P'.pPid = some l' := hentry.exitLock
  rw [hquiet.procTable, hpid, hl] at hl'
  cases hl'
  have hL' : s'.lockHeap l = some L' := hL'
  rw [hlocks, hL] at hL'
  cases hL'
  exact hnot howner

omit h ht hright

/-- **All goes well on the way out of a process exactly where it is not `kproc`, has one thread, which runs
`thread_exit`, and is whole.** -/
theorem exitsRight_iff (h : s.HasThreads p P ts) :
    ExitsRight leave ts p s ↔
      ∀ t ∈ ts, ts = [t] ∧ p ≠ s.kproc ∧ leave t = .threadExit ∧ Whole s t p P := by
  constructor
  · intro hright t ht
    cases hleave : leave t with
    | sysExit exitcode => exact (not_sysExit h ht hright hleave).elim
    | threadExit =>
      obtain ⟨hcount, hne⟩ := alone_of_right h ht hright hleave
      obtain ⟨u, rfl⟩ := List.length_eq_one_iff.mp (h.count.symm.trans hcount)
      rw [List.mem_singleton.mp ht] at hleave ⊢
      exact ⟨rfl, hne, rfl, whole_of_right h (List.mem_singleton_self u) hright hleave⟩
  · intro hall
    cases ts with
    | nil =>
      -- Nobody leaves.
      intro order
      cases order with
      | nil => exact ⟨by simp, by simp [ExitState.start], by simp [ExitState.start],
          by simp [ExitState.start], by simp⟩
      | cons u order => exact absurd u.2 (List.not_mem_nil)
    | cons t ts =>
      obtain ⟨halone, hne, hleave, hwhole⟩ := hall t List.mem_cons_self
      rw [halone] at h ⊢
      exact exitsRight_of_alone h hne hleave hwhole

end Alone

/-! ## A program from the menu -/

/-- The menu has started a program: process 3, at address 5, with the thread 1. -/
def startedProgram : Kernel :=
  ((exec Machine.step Machine.boot (forkSchedule.take 3)).getD Machine.boot).kernel

def programProc : Proc := { Proc.new 3 ⟨[], some 4⟩ (some ⟨0, []⟩) with pNumthreads := 1 }

theorem startedProgram_hasThreads : startedProgram.HasThreads 5 programProc [1] where
  proc := rfl
  curproc t := by
    have hcur : startedProgram.curproc =
        fun t => (update (update (fun _ => none) 0 (some ⟨some 1⟩)) 1 (some ⟨some 5⟩) t).bind
          Thread.tProc := rfl
    rw [hcur, List.mem_singleton]
    by_cases h1 : t = 1
    · simp [h1]
    · by_cases h0 : t = 0 <;> simp [h0, h1]
  nodup := by simp
  count := rfl

theorem bootKernel_hasThreads :
    bootKernel.HasThreads 1 { kprocCreated with pNumthreads := 1 } [0] where
  proc := rfl
  curproc t := by
    rw [List.mem_singleton]
    by_cases h : t = 0 <;> simp [bootKernel, Kernel.curproc, h]
  nodup := by simp
  count := rfl

/-- Its thread may return from its main function. -/
theorem exitsRight_program : ExitsRight (fun _ => .threadExit) [1] 5 startedProgram := by
  refine (exitsRight_iff startedProgram_hasThreads).mpr fun t ht => ?_
  obtain rfl := List.mem_singleton.mp ht
  refine ⟨rfl, by decide, rfl, ⟨6, 7, ⟨by decide, by decide, rfl, ⟨_, rfl, by decide, rfl⟩, rfl,
    ⟨_, rfl, rfl⟩⟩, by decide⟩, ⟨4, _, rfl, rfl, by decide, fun _ => rfl⟩, ⟨_, rfl, rfl⟩, by decide⟩

/-- Its `_exit` fails a `KASSERT`, and so does a thread of the kernel that exits. -/
theorem exits_fail : ¬ ExitsRight (fun _ => .sysExit 0) [1] 5 startedProgram ∧
    ¬ ExitsRight (fun _ => .threadExit) [0] 1 bootKernel := by
  constructor
  · intro hright
    exact not_sysExit startedProgram_hasThreads (List.mem_singleton_self 1) hright rfl
  · intro hright
    exact (alone_of_right bootKernel_hasThreads (List.mem_singleton_self 0) hright rfl).2 rfl

end UnionCollegeCode.OS161
