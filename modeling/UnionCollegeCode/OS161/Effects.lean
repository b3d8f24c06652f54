import UnionCollegeCode.OS161.Machine
import UnionCollegeCode.OS161.Sections

/-!
# What a step of the machine can do

`step_effect` sorts the steps by what they do to the processes and the table. Everything said about
runs of the machine is read off this list; no later proof unfolds `step` on an unknown label.
-/

set_option autoImplicit false

namespace UnionCollegeCode.OS161

open Function (update)
open Lib.EState

namespace Pc

/-- The process a thread is making or destroying, whether it destroys it as its own, and where in
its life that process is. -/
def handles : Pc → Option (Ptr × Bool × Life)
  | .creating _ p => some (p, false, .created)
  | .forked p => some (p, false, .registered)
  | .starting _ p => some (p, false, .registered)
  | .destroying p exiting => some (p, exiting, .registered)
  | .removed p exiting => some (p, exiting, .removed)
  | _ => none

/-- From where `cv_wait` sleeps to the end of the `sys_waitpid`. -/
def inCvWait : Pc → Bool
  | .waiting .. => true
  | .reacquiring .. => true
  | .woken .. => true
  | _ => false

structure Idle (pc : Pc) : Prop where
  handles : pc.handles = none
  inCvWait : pc.inCvWait = false

theorem idle_outside : Idle .outside := ⟨rfl, rfl⟩

end Pc

/-- Labels of steps that leave processes and table alone. -/
def Action.IsQuiet : Action → Prop
  | .runprogram .. => True
  | .exit .. => True
  | .waitpid .. => True
  | .acquire _ => True
  | .check _ => True
  | .wake _ => True
  | .waitEnd _ => True
  | _ => False

/-- `sys_fork` returns `-EINVAL` to a process without an address space, and `proc_create` needs
memory and a pid. -/
def Machine.Refuses (m : Machine) : Action → Prop
  | .create _ a => a.proc = true ∧ a.name = true → m.kernel.newPid = -1
  | .fork t _ => ∃ q Q, m.kernel.curproc t = some q ∧ m.kernel.procHeap q = some Q ∧
      Q.pAddrspace = none
  | _ => False

/-- The step hands out a pid. -/
def Machine.HandsOutPid (m : Machine) : Action → Prop
  | .create _ a => a.proc = true ∧ a.name = true
  | .fork t a => (a.proc = true ∧ a.name = true) ∧
      ∃ q Q, m.kernel.curproc t = some q ∧ m.kernel.procHeap q = some Q ∧ Q.pAddrspace ≠ none
  | _ => False

inductive Effect (m : Machine) : Action → Machine → Prop
  | quiet {a : Action} {t : Tid} {pc' : Pc} {m' : Machine} (ha : a.IsQuiet)
      (hpc : (m.pc t).Idle) (hpc' : pc'.Idle) (hquiet : Quiet m.kernel m'.kernel)
      (hthreads : m'.kernel.threads = m.kernel.threads)
      (hlive : m.kernel.threads t ≠ none ∨ m.pc t ≠ .outside) (hnext : m'.pc = update m.pc t pc') (hlife : m'.life = m.life)
      (hwaited : ∀ t' pid r, m'.waited t' = some (pid, r) → m.waited t' = some (pid, r) ∨ r < 0) :
      Effect m a m'
  /-- The thread waits in `cv_wait`, or goes to sleep there for a pid of its list. -/
  | inCvWait {a : Action} {t : Tid} {m' : Machine} (ha : a.IsQuiet)
      (hwait : (m.pc t).inCvWait = true ∨
        ∃ q Q, m.kernel.curproc t = some q ∧ m.kernel.procHeap q = some Q ∧
          Q.pChildrenLl.data ≠ []) : Effect m a m'
  | refused {a : Action} (ha : m.Refuses a) : Effect m a m
  | created {a : Action} {t : Tid} {c : Creator} {p : Ptr} {lock : Option Ptr}
      {sem : Option Semaphore} {m' : Machine} (ha : m.HandsOutPid a) (hpc : (m.pc t).Idle)
      (hlive : m.kernel.threads t ≠ none) (hfresh : m.kernel.next ≤ p) (hlt : p < m'.kernel.next)
      (hfree : IsFree m.kernel m.kernel.newPid)
      (hlock : ∀ l ∈ lock, m.kernel.next ≤ l ∧ l < m'.kernel.next)
      (hheap : m'.kernel.procHeap =
        update m.kernel.procHeap p (some (.new m.kernel.newPid ⟨[], lock⟩ sem)))
      (htable : m'.kernel.procTable = m.kernel.procTable)
      (hthreads : m'.kernel.threads = m.kernel.threads) (hkproc : m'.kernel.kproc = m.kernel.kproc)
      (hgrows : Grows m.kernel m'.kernel) (hnext : m'.pc = update m.pc t (.creating c p))
      (hlife : m'.life = update m.life p .created) (hwaited : m'.waited = m.waited) : Effect m a m'
  | registered {t : Tid} {a : Allocs} {c : Creator} {p : Ptr} {P : Proc} {pc' : Pc} {m' : Machine}
      (hpc : m.pc t = .creating c p) (hP : m.kernel.procHeap p = some P)
      (hadd : addProc p P.pPid a.exitLock a.exitCv m.kernel = .ok () m'.kernel)
      (hpc' : pc'.handles = some (p, false, .registered) ∧ pc'.inCvWait = false)
      (hnext : m'.pc = update m.pc t pc') (hlife : m'.life = update m.life p .registered)
      (hwaited : m'.waited = m.waited) : Effect m (.register t a) m'
  | forkAdded {t : Tid} {lockOk cvOk : Bool} {q p : Ptr} {Q P : Proc} {m' : Machine}
      (hpc : m.pc t = .forked p) (hq : m.kernel.curproc t = some q)
      (hQ : m.kernel.procHeap q = some Q) (hP : m.kernel.procHeap p = some P)
      (hadd : addProc p P.pPid lockOk cvOk
        (m.kernel.setProc p (some { P with pPpid := Q.pPid })) = .ok () m'.kernel)
      (hnext : m'.pc = update m.pc t (.starting .sysFork p)) (hlife : m'.life = m.life)
      (hwaited : m'.waited = m.waited) : Effect m (.forkAdd t lockOk cvOk) m'
  /-- The process is handed over to its first thread. -/
  | started {a : Action} {t tid : Tid} {c : Creator} {p : Ptr} {m' : Machine}
      (ha : (∃ e, a = .forkEnd t e) ∨ a = .launch t (some tid)) (hpc : m.pc t = .starting c p)
      (hnew : m.isNew tid) (hquiet : Quiet m.kernel m'.kernel)
      (hthreads : m'.kernel.threads = update m.kernel.threads tid (some ⟨some p⟩))
      (hnext : m'.pc = update m.pc t .outside) (hlife : m'.life = m.life)
      (hwaited : m'.waited = m.waited) : Effect m a m'
  | failed {a : Action} {t : Tid} {c : Creator} {p : Ptr} {m' : Machine}
      (ha : (∃ e, a = .forkEnd t e) ∨ a = .launch t none) (hpc : m.pc t = .starting c p)
      (hquiet : Quiet m.kernel m'.kernel) (hthreads : m'.kernel.threads = m.kernel.threads)
      (hnext : m'.pc = update m.pc t (.destroying p false)) (hlife : m'.life = m.life)
      (hwaited : m'.waited = m.waited) : Effect m a m'
  | kernelThread {t tid : Tid} {m' : Machine} (hnew : m.isNew tid)
      (hquiet : Quiet m.kernel m'.kernel)
      (hthreads : m'.kernel.threads = update m.kernel.threads tid (some ⟨some m.kernel.kproc⟩))
      (hnext : m'.pc = m.pc) (hlife : m'.life = m.life) (hwaited : m'.waited = m.waited) :
      Effect m (.kernelThread t tid) m'
  | exiting {t : Tid} {p : Ptr} {m' : Machine} (hpc : (m.pc t).Idle)
      (hcur : m.kernel.curproc t = some p) (hquiet : Quiet m.kernel m'.kernel)
      (hthreads : m'.kernel.threads = m.kernel.threads)
      (hnext : m'.pc = update m.pc t (.destroying p true)) (hlife : m'.life = m.life)
      (hwaited : m'.waited = m.waited) : Effect m (.threadExit t) m'
  | removed {t : Tid} {p : Ptr} {P : Proc} {exiting : Bool} {s₁ : Kernel} {m' : Machine}
      (hpc : m.pc t = .destroying p exiting) (hne : p ≠ m.kernel.kproc)
      (hP : m.kernel.procHeap p = some P) (hquiet : Quiet m.kernel s₁)
      (hthreads : s₁.threads = m.kernel.threads)
      (hremove : removeProc t P.pPid s₁ = .ok () m'.kernel)
      (hnext : m'.pc = update m.pc t (.removed p exiting))
      (hlife : m'.life = update m.life p .removed) (hwaited : m'.waited = m.waited) :
      Effect m (.remove t) m'
  | destroyed {t : Tid} {p : Ptr} {exiting : Bool} {s₁ : Kernel} {m' : Machine}
      (hpc : m.pc t = .removed p exiting) (hend : procDestroyEnd t p m.kernel = .ok () s₁)
      (hkernel : m'.kernel = if exiting then s₁.setThread t none else s₁)
      (hnext : m'.pc = update m.pc t .outside) (hlife : m'.life = update m.life p .absent)
      (hwaited : m'.waited = m.waited) : Effect m (.destroy t) m'

namespace Machine

variable {m m' : Machine}

theorem run_eq_some {α : Type} {sec : KernelM α} {next : α → Machine → Machine} :
    m.run sec next = some m' ↔
      ∃ a k, sec m.kernel = .ok a k ∧ m' = next a { m with kernel := k } := by
  unfold run
  cases h : sec m.kernel with
  | ok a k =>
    simp only [Option.some.injEq]
    constructor
    · rintro rfl
      exact ⟨a, k, rfl, rfl⟩
    · rintro ⟨a', k', ha, rfl⟩
      cases ha
      rfl
  | error e k => simp

theorem waitReturns_waited {t : Tid} {pid r : ℤ} (hr : r < 0) (k : Kernel) (t' : Tid) (pid' r' : ℤ)
    (h : ({ m with kernel := k }.waitReturns t pid r).waited t' = some (pid', r')) :
    m.waited t' = some (pid', r') ∨ r' < 0 := by
  by_cases ht : t' = t
  · subst ht
    simp only [waitReturns, Function.update_self, Option.some.injEq, Prod.mk.injEq] at h
    exact Or.inr (h.2 ▸ hr)
  · simp only [waitReturns, Function.update_of_ne ht] at h
    exact Or.inl h

/-- A section that leaves processes and table alone, run by a thread that neither makes nor destroys
a process before or after it. -/
theorem quiet_goto {a : Action} {t : Tid} {pc' : Pc} {k : Kernel} (ha : a.IsQuiet)
    (hpc : (m.pc t).Idle) (hlive : m.kernel.threads t ≠ none ∨ m.pc t ≠ .outside)
    (hpc' : pc'.Idle) (hquiet : Quiet m.kernel k) (hthreads : k.threads = m.kernel.threads) :
    Effect m a ({ m with kernel := k }.goto t pc') :=
  .quiet ha hpc hpc' hquiet hthreads hlive rfl rfl fun _ _ _ h => Or.inl h

theorem quiet_waitReturns {a : Action} {t : Tid} {pid r : ℤ} {k : Kernel} (ha : a.IsQuiet)
    (hpc : (m.pc t).Idle) (hlive : m.kernel.threads t ≠ none ∨ m.pc t ≠ .outside) (hr : r < 0)
    (hquiet : Quiet m.kernel k) (hthreads : k.threads = m.kernel.threads) :
    Effect m a ({ m with kernel := k }.waitReturns t pid r) :=
  .quiet ha hpc Pc.idle_outside hquiet hthreads hlive rfl rfl (waitReturns_waited hr k)

theorem created_effect {a : Action} {t : Tid} {c : Creator} {al : Allocs} {r : Option Ptr}
    {k : Kernel} (hout : al.proc = true ∧ al.name = true → m.HandsOutPid a)
    (href : (al.proc = true ∧ al.name = true → m.kernel.newPid = -1) → r = none → m.Refuses a)
    (hrun : m.isRunning t) (h : procCreateBegin al m.kernel = .ok r k) :
    Effect m a (created t c r { m with kernel := k }) := by
  rcases procCreateBegin_spec h with ⟨rfl, rfl, hfull⟩ |
    ⟨p, lock, sem, rfl, hfresh, hlt, hfree, hok, hlock, hheap, htable, hthreads, hkproc, hgrows⟩
  · exact .refused (href hfull rfl)
  · exact .created (hout hok) (hrun.1 ▸ Pc.idle_outside) hrun.2 hfresh hlt hfree hlock hheap htable
      hthreads hkproc hgrows rfl rfl rfl

theorem registered_effect {t : Tid} {a : Allocs} {c : Creator} {p : Ptr} {pc' : Pc} {k : Kernel}
    (hpc : m.pc t = .creating c p)
    (hpc' : pc'.handles = some (p, false, .registered) ∧ pc'.inCvWait = false)
    (h : procRegister a p m.kernel = .ok () k) :
    Effect m (.register t a) (({ m with kernel := k }.setLife p .registered).goto t pc') := by
  obtain ⟨P, hP, hadd⟩ := procRegister_spec h
  exact .registered hpc hP hadd hpc' rfl rfl rfl

/-- **The steps.** Every step of the machine is one of the effects. -/
theorem step_effect {a : Action} (h : m.step a = some m') : Effect m a m' := by
  cases a with
  | create t al =>
    simp only [step, Option.ite_none_right_eq_some, run_eq_some] at h
    obtain ⟨hrun, r, k, hk, rfl⟩ := h
    exact created_effect (fun hok => hok) (fun hfull _ => hfull) hrun hk
  | fork t al =>
    simp only [step, Option.ite_none_right_eq_some, run_eq_some] at h
    obtain ⟨hrun, r, k, hk, rfl⟩ := h
    rcases sysForkBegin_spec hk with ⟨rfl, rfl, hnone⟩ | ⟨hsome, hr, hk⟩
    · exact .refused hnone
    · exact created_effect (fun hok => ⟨hok, hsome⟩) (fun _ hnone => absurd hnone hr) hrun hk
  | register t al =>
    simp only [step] at h
    split at h
    case h_1 p hpc =>
      obtain ⟨u, k, hk, rfl⟩ := run_eq_some.mp h
      exact registered_effect hpc ⟨rfl, rfl⟩ hk
    case h_2 p hpc =>
      obtain ⟨u, k, hk, rfl⟩ := run_eq_some.mp h
      exact registered_effect hpc ⟨rfl, rfl⟩ hk
    case h_3 => cases h
  | forkAdd t lockOk cvOk =>
    simp only [step] at h
    split at h
    case h_1 p hpc =>
      obtain ⟨u, k, hk, rfl⟩ := run_eq_some.mp h
      obtain ⟨q, Q, P, hq, hQ, hP, hadd⟩ := sysForkAdd_spec hk
      exact .forkAdded hpc hq hQ hP hadd rfl rfl rfl
    case h_2 => cases h
  | forkEnd t e =>
    simp only [step] at h
    split at h
    case h_1 p hpc =>
      simp only [Option.ite_none_right_eq_some, run_eq_some] at h
      obtain ⟨hnew, r, k, hk, rfl⟩ := h
      rcases sysForkEnd_spec hk with ⟨rfl, hquiet, hthreads⟩ | ⟨tid, htid, rfl, hquiet, hthreads⟩
      · exact .failed (Or.inl ⟨e, rfl⟩) hpc hquiet hthreads rfl rfl rfl
      · exact .started (Or.inl ⟨e, rfl⟩) hpc (hnew tid htid) hquiet hthreads rfl rfl rfl
    case h_2 => cases h
  | launch t tid =>
    simp only [step] at h
    split at h
    case h_1 p hpc =>
      simp only [Option.ite_none_right_eq_some, run_eq_some] at h
      obtain ⟨hnew, r, k, hk, rfl⟩ := h
      rcases threadFork_spec hk with ⟨rfl, rfl, rfl⟩ | ⟨tid, rfl, rfl, hquiet, hthreads⟩
      · exact .failed (Or.inr rfl) hpc (SyncOnly.refl _).quiet rfl rfl rfl rfl
      · exact .started (Or.inr rfl) hpc (hnew tid rfl) hquiet hthreads rfl rfl rfl
    case h_2 => cases h
  | runprogram t as =>
    simp only [step, Option.ite_none_right_eq_some, run_eq_some] at h
    obtain ⟨hrun, u, k, hk, rfl⟩ := h
    obtain ⟨hquiet, hthreads⟩ := runprogramSetas_spec hk
    have hidle : (m.pc t).Idle := hrun.1 ▸ Pc.idle_outside
    exact .quiet trivial hidle hidle hquiet hthreads (Or.inl hrun.2)
      (Function.update_eq_self t m.pc).symm rfl fun _ _ _ h => Or.inl h
  | kernelThread t tid =>
    simp only [step, Option.ite_none_right_eq_some, run_eq_some] at h
    obtain ⟨⟨hrun, hcur, hnew⟩, r, k, hk, rfl⟩ := h
    rcases threadFork_spec hk with ⟨habs, -, -⟩ | ⟨tid', htid, -, hquiet, hthreads⟩
    · cases habs
    · cases htid
      exact .kernelThread hnew hquiet hthreads rfl rfl rfl
  | exit t code =>
    simp only [step, Option.ite_none_right_eq_some, run_eq_some] at h
    obtain ⟨hrun, u, k, hk, rfl⟩ := h
    obtain ⟨hquiet, hthreads⟩ := sysExitBegin_spec hk
    exact .quiet trivial (hrun.1 ▸ Pc.idle_outside) ⟨rfl, rfl⟩ hquiet hthreads (Or.inl hrun.2) rfl
      rfl fun _ _ _ h => Or.inl h
  | threadExit t =>
    simp only [step, Option.ite_none_right_eq_some, run_eq_some] at h
    obtain ⟨hrun, p, k, hk, rfl⟩ := h
    obtain ⟨hcur, hquiet, hthreads⟩ := procRemthreadBegin_spec hk
    refine .exiting ?_ hcur hquiet hthreads rfl rfl rfl
    rcases hrun with hrun | hleaving
    · exact hrun.1 ▸ Pc.idle_outside
    · exact hleaving ▸ ⟨rfl, rfl⟩
  | remove t =>
    simp only [step] at h
    split at h
    case h_1 p exiting hpc =>
      obtain ⟨u, k, hk, rfl⟩ := run_eq_some.mp h
      obtain ⟨hne, P, s₁, hP, hquiet, hthreads, hremove⟩ := procDestroyBegin_spec hk
      exact .removed hpc hne hP hquiet hthreads hremove rfl rfl rfl
    case h_2 => cases h
  | destroy t =>
    simp only [step] at h
    split at h
    case h_1 p hpc =>
      obtain ⟨u, k, hk, rfl⟩ := run_eq_some.mp h
      exact .destroyed hpc hk rfl rfl rfl rfl
    case h_2 p hpc =>
      obtain ⟨u, k, hk, rfl⟩ := run_eq_some.mp h
      obtain ⟨u₁, s₁, hend, hexit⟩ := bind_eq_ok.mp hk
      exact .destroyed hpc hend (threadExitEnd_spec hexit) rfl rfl rfl
    case h_3 => cases h
  | waitpid t pid options =>
    simp only [step] at h
    split at h
    case isFalse => cases h
    case isTrue hrun =>
      have hidle : (m.pc t).Idle := hrun.1 ▸ Pc.idle_outside
      split at h
      case isTrue =>
        cases h
        exact quiet_waitReturns trivial hidle (Or.inl hrun.2) (by decide) (SyncOnly.refl _).quiet rfl
      case isFalse =>
        obtain ⟨r, k, hk, rfl⟩ := run_eq_some.mp h
        obtain ⟨-, rfl⟩ := findProcess_spec hk
        cases r with
        | none =>
          exact quiet_waitReturns trivial hidle (Or.inl hrun.2) (by decide) (SyncOnly.refl _).quiet
            rfl
        | some target =>
          exact quiet_goto trivial hidle (Or.inl hrun.2) ⟨rfl, rfl⟩ (SyncOnly.refl _).quiet rfl
  | acquire t =>
    simp only [step] at h
    split at h
    case h_1 pid target hpc =>
      obtain ⟨⟨lock, taken⟩, k, hk, rfl⟩ := run_eq_some.mp h
      have hsync := sysWaitpidAcquire_sync hk
      refine quiet_goto trivial (hpc ▸ ⟨rfl, rfl⟩) (Or.inr (by simp [hpc])) ?_ hsync.quiet
        hsync.threads
      cases taken <;> exact ⟨rfl, rfl⟩
    case h_2 pid target lock hpc =>
      split at h
      case isTrue => cases h
      case isFalse =>
        obtain ⟨taken, k, hk, rfl⟩ := run_eq_some.mp h
        have hsync := lockTake_sync hk
        refine quiet_goto trivial (hpc ▸ ⟨rfl, rfl⟩) (Or.inr (by simp [hpc])) ?_ hsync.quiet
          hsync.threads
        cases taken <;> exact ⟨rfl, rfl⟩
    case h_3 => cases h
  | check t =>
    simp only [step] at h
    split at h
    case h_1 pid target hpc =>
      obtain ⟨r, k, hk, rfl⟩ := run_eq_some.mp h
      obtain ⟨hsync, hlisted⟩ := sysWaitpidCheck_spec hk
      cases r with
      | true =>
        obtain ⟨-, q, Q, hq, hQ, hmem⟩ := isListedChild_spec hlisted
        refine .inCvWait (t := t) trivial (Or.inr ⟨q, Q, hq, hQ, ?_⟩)
        intro hnil
        simp [hnil] at hmem
      | false =>
        exact quiet_waitReturns trivial (hpc ▸ ⟨rfl, rfl⟩) (Or.inr (by simp [hpc])) (by decide)
          hsync.quiet hsync.threads
    case h_2 => cases h
  | wake t =>
    refine .inCvWait (t := t) trivial (Or.inl ?_)
    simp only [step] at h
    split at h
    case h_1 hpc => rw [hpc]; rfl
    case h_2 hpc => rw [hpc]; rfl
    case h_3 => cases h
  | waitEnd t =>
    refine .inCvWait (t := t) trivial (Or.inl ?_)
    simp only [step] at h
    split at h
    case h_1 hpc => rw [hpc]; rfl
    case h_2 => cases h

end Machine

end UnionCollegeCode.OS161
