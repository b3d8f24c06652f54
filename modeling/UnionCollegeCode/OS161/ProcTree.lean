import UnionCollegeCode.OS161.Ownership

/-!
# Parents and children

Who is whose child is written down three times: `p_ppid` in the child, the child's pid in its
parent's list, `parent_proc` in the child. Only the first is ever written. So the three agree exactly
as long as nothing is written at all, and `sys_waitpid`, which goes by the list, takes every process
for a stranger.
-/

set_option autoImplicit false

namespace UnionCollegeCode.OS161

open Function (update)
open Lib.EState Lib.Run

/-- The walk of `sys_waitpid` over the caller's list ends without the pid: the call lets go of the
exit lock and returns `-ECHILD`. -/
def Machine.FailsWithEchild (m : Machine) (t : Tid) (pid : ℤ) : Prop :=
  isListedChild t pid m.kernel = .ok false m.kernel

/-- A process of the table. -/
def Machine.HasProc (m : Machine) (p : Ptr) (P : Proc) : Prop :=
  m.life p = .registered ∧ m.kernel.procHeap p = some P

structure FamilyAgrees (m : Machine) : Prop where
  listed : ∀ p q P Q, m.HasProc p P → m.HasProc q Q →
    (Q.pPpid = P.pPid ↔ P.pChildrenLl.data.count Q.pPid = 1)
  parentProc : ∀ p q P Q, m.HasProc p P → m.HasProc q Q →
    (Q.pPpid = P.pPid ↔ Q.parentProc = some p)
  waitpid : ∀ t p q P Q, m.kernel.curproc t = some p → m.HasProc p P → m.HasProc q Q →
    (m.FailsWithEchild t Q.pPid ↔ Q.pPpid ≠ P.pPid)

/-- The step does not give a process a parent. -/
def Machine.LeavesOrphan (_ : Machine) : Action → Prop
  | .forkAdd .. => False
  | _ => True

structure OrphansOnly (m : Machine) : Prop where
  consistent : Consistent m
  ppid : ∀ p P, m.kernel.procHeap p = some P → P.pPpid = -1

theorem isListedChild_ok {s : Kernel} {t : Tid} {p : Ptr} {P : Proc} (pid : ℤ)
    (ht : s.curproc t = some p) (hP : s.procHeap p = some P) :
    isListedChild t pid s = .ok (P.pChildrenLl.data.contains pid) s := by
  simp only [isListedChild, bind_eq_ok, get_eq_ok, follow_eq_ok, pure_eq_ok]
  exact ⟨s, s, ⟨rfl, rfl⟩, (p, P), s, ⟨⟨ht, hP⟩, rfl⟩, rfl, rfl⟩

/-- Whatever the pid, the walk finds nothing. -/
theorem Consistent.failsWithEchild {m : Machine} (h : Consistent m) {t : Tid} {p : Ptr} {P : Proc}
    (pid : ℤ) (ht : m.kernel.curproc t = some p) (hP : m.kernel.procHeap p = some P) :
    m.FailsWithEchild t pid := by
  have hnil := (h.objects.childless p P hP).1
  rw [Machine.FailsWithEchild, isListedChild_ok pid ht hP, hnil]
  rfl

namespace OrphansOnly

variable {m m' : Machine} {a : Action}

theorem familyAgrees (h : OrphansOnly m) : FamilyAgrees m := by
  have hne {p q : Ptr} {P Q : Proc} (hp : m.HasProc p P) (hq : m.HasProc q Q) :
      Q.pPpid ≠ P.pPid := by
    rw [h.ppid q Q hq.2]
    have := (h.consistent.objects.pids p P hp.2).1
    omega
  refine ⟨?_, ?_, ?_⟩
  · intro p q P Q hp hq
    have hnil := (h.consistent.objects.childless p P hp.2).1
    simp [hne hp hq, hnil]
  · intro p q P Q hp hq
    have hnone := (h.consistent.objects.childless q Q hq.2).2
    simp [hne hp hq, hnone]
  · intro t p q P Q ht hp hq
    simp [hne hp hq, h.consistent.failsWithEchild Q.pPid ht hp.2]

theorem boot : OrphansOnly Machine.boot where
  consistent := .boot
  ppid := by
    intro p P hP
    simp only [Machine.boot, bootKernel] at hP
    by_cases hp : p = 1
    · rw [hp, Function.update_self, Option.some.injEq] at hP
      rw [← hP]
      rfl
    · simp [hp] at hP

theorem of_kin (h : OrphansOnly m) (hs : m.step a = some m')
    (hkin : ∀ p P', m'.kernel.procHeap p = some P' →
      ∃ P, m.kernel.procHeap p = some P ∧ P'.kin = P.kin) : OrphansOnly m' where
  consistent := h.consistent.step hs
  ppid := fun p P' hP' => by
    obtain ⟨P, hP, heq⟩ := hkin p P' hP'
    rw [Proc.pPpid_of_kin heq]
    exact h.ppid p P hP

theorem step (h : OrphansOnly m) (hs : m.step a = some m') (hok : m.LeavesOrphan a) :
    OrphansOnly m' := by
  -- A new process has no parent's pid, and only the second part of a `fork` would give it one.
  cases Machine.step_effect hs with
  | quiet ha hpc hpc' hquiet => exact h.of_kin hs fun _ _ => hquiet.exists_proc
  | @inCvWait _ t _ ha hwait =>
    rcases hwait with hwait | ⟨q, Q, -, hQ, hne⟩
    · rw [h.consistent.awake t] at hwait
      cases hwait
    · exact absurd (h.consistent.objects.childless q Q hQ).1 hne
  | refused ha => exact h
  | @created _ t c p lock sem _ ha hpc hlive hfresh hlt hfree hlock hheap =>
    refine ⟨h.consistent.step hs, fun q Q hQ => ?_⟩
    rw [hheap] at hQ
    by_cases hqp : q = p
    · rw [hqp, Function.update_self, Option.some.injEq] at hQ
      rw [← hQ]
      rfl
    · rw [Function.update_of_ne hqp] at hQ
      exact h.ppid q Q hQ
  | registered hpc hP hadd =>
    obtain ⟨lock, cv, -, -, -, -, -, -, -, hheap, -, -⟩ := addProc_spec hadd
    exact h.of_kin hs fun q Q hQ => ⟨Q, hheap ▸ hQ, rfl⟩
  | forkAdded => exact hok.elim
  | started ha hpc hnew hquiet => exact h.of_kin hs fun _ _ => hquiet.exists_proc
  | failed ha hpc hquiet => exact h.of_kin hs fun _ _ => hquiet.exists_proc
  | kernelThread hnew hquiet => exact h.of_kin hs fun _ _ => hquiet.exists_proc
  | exiting hpc hcur hquiet => exact h.of_kin hs fun _ _ => hquiet.exists_proc
  | removed hpc hne hP hquiet hthreads hremove =>
    obtain ⟨l, c, -, -, -, -, hk⟩ := removeProc_spec hremove
    refine h.of_kin hs fun q Q hQ => hquiet.exists_proc ?_
    rw [hk] at hQ
    exact hQ
  | @destroyed t p exiting s₁ _ hpc hend hk =>
    have hhandles : (m.pc t).handles = some (p, exiting, .removed) := by rw [hpc]; rfl
    obtain ⟨P, hP⟩ := Option.ne_none_iff_exists'.mp (h.consistent.heap_of_handles hhandles)
    obtain ⟨l, s₂, -, -, hsync, rfl⟩ :=
      procDestroyEnd_spec hP (h.consistent.objects.childless p P hP).2 hend
    have hheap : m'.kernel.procHeap = update m.kernel.procHeap p none := by
      rw [hk, ← hsync.procHeap]
      cases exiting <;> rfl
    refine h.of_kin hs fun q Q hQ => ⟨Q, ?_, rfl⟩
    rw [hheap] at hQ
    by_cases hqp : q = p
    · simp [hqp] at hQ
    · rwa [Function.update_of_ne hqp] at hQ

/-- `child->p_ppid = curproc->p_pid` is all the child's family ever learns. -/
theorem step_break (h : OrphansOnly m) (hs : m.step a = some m') (hno : ¬ m.LeavesOrphan a) :
    ¬ FamilyAgrees m' := by
  intro hagrees
  have heffect := Machine.step_effect hs
  cases a with
  | forkAdd t lockOk cvOk =>
    cases heffect with
    | quiet ha => exact ha
    | inCvWait ha => exact ha
    | refused ha => exact ha
    | created ha => exact ha
    | started ha => simp at ha
    | failed ha => simp at ha
    | @forkAdded _ _ _ q p Q P _ hpc hq hQ hP hadd hnext hlife hwaited =>
      obtain ⟨lock, cv, -, -, -, -, -, -, -, hheap, -, -⟩ := addProc_spec hadd
      have hhandles : (m.pc t).handles = some (p, false, .registered) := by rw [hpc]; rfl
      have hqp : q ≠ p := fun heq => h.consistent.ownership.no_thread t t p _ hhandles (heq ▸ hq)
      have hqlife : m.life q = .registered := by
        refine (h.consistent.ownership.alive t q hq).resolve_right fun hremoved => ?_
        rw [hhandles] at hremoved
        cases hremoved
      have hp' : m'.HasProc p { P with pPpid := Q.pPid } :=
        ⟨hlife ▸ h.consistent.life_of_handles hhandles, by
          rw [hheap, Kernel.setProc_procHeap, Function.update_self]⟩
      have hq' : m'.HasProc q Q :=
        ⟨hlife ▸ hqlife, by
          rw [hheap, Kernel.setProc_procHeap, Function.update_of_ne hqp, hQ]⟩
      have hcount := (hagrees.listed q p Q _ hq' hp').mp rfl
      rw [(h.consistent.objects.childless q Q hQ).1] at hcount
      cases hcount
  | _ => exact hno trivial

end OrphansOnly

/-- **The process tree.** The three records of parentage, and with them the verdict of
`sys_waitpid`, agree in every state of a run exactly when no `sys_fork` of the run gets to write its
child's `p_ppid`. -/
theorem familyAgrees_iff_leavesOrphan (schedule : List Action) :
    Along Machine.step FamilyAgrees Machine.boot schedule ↔
      Meets Machine.step Machine.LeavesOrphan Machine.boot schedule :=
  along_iff_meets_of_break (I := OrphansOnly) (fun _ h => h.familyAgrees)
    (fun _ _ _ h hs hok => h.step hs hok) (fun _ _ _ h hs hno => h.step_break hs hno) .boot

/-- Pid 4 has `p_ppid` 3, and 3 has no children in its list. -/
theorem fork_child_unlisted : ¬ Along Machine.step FamilyAgrees Machine.boot forkSchedule := by
  intro h
  have hparent : Machine.forkedOnce.HasProc 5
      { Proc.new 3 ⟨[], some 4⟩ (some ⟨0, []⟩) with pNumthreads := 1, pAddrspace := some 100 } :=
    ⟨rfl, rfl⟩
  have hchild : Machine.forkedOnce.HasProc 9
      { Proc.new 4 ⟨[], some 8⟩ (some ⟨0, []⟩) with pPpid := 3 } := ⟨rfl, rfl⟩
  have hcount := ((h.last exec_forkSchedule).listed _ _ _ _ hparent hchild).mp rfl
  cases hcount

end UnionCollegeCode.OS161
