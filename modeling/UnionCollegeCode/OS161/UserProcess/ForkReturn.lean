import UnionCollegeCode.OS161.UserProcess.Fork

/-!
# `SYS_fork` from one user program to two

The dispatcher hands `sys_fork` the user's `a0` for the place of the child's pid and keeps 0 for the
result, so a parent is never told its child's pid in `v0`.
-/

set_option autoImplicit false

namespace UnionCollegeCode.OS161.UserProcess

open Function (update)
open Lib.EState
open Syscall (Trapframe Answer Call word)

/-- What the first thread of the child runs: the frame it goes to user mode with. -/
def entrypoint (t : Tid) (data1 : Ptr) (data2 : Option Ptr) : ImageM Trapframe := do
  let s ← get
  match s.trapframes data1 with
  | none => throw .fault
  | some tf =>
    let (proc, _) ← onKernel (follow Kernel.procHeap (s.kernel.curproc t))
    setAddrspace proc data2
    return { tf with tfV0 := 0, tfA3 := 0, tfEpc := tf.tfEpc + 4 }

/-- The handlers, with `sys_fork` among them. -/
def handlers (t : Tid) (a : ForkAnswers) (others : Call → ImageM Answer) : Call → ImageM Answer
  | .fork parentTf retval => sysFork t parentTf retval a
  | call => others call

/-- What a `fork` that takes `s` to `s'` and the parent's frame `tf` to `tf'` is to do, when it makes
process `child` with thread `tid`. -/
structure ForkSemantics (s s' : Image) (tf tf' : Trapframe) (parent child : Ptr) (tid : Tid) :
    Prop where
  isNew : s.kernel.procHeap child = none
  runs : s'.kernel.curproc tid = some child
  /-- The parent gets the child's pid, with nothing else changed in its registers. -/
  parentFrame : ∃ c, s'.kernel.procHeap child = some c ∧
    tf' = { tf with tfV0 := word c.pPid, tfA3 := 0, tfEpc := tf.tfEpc + 4 }
  /-- Nor in its memory. -/
  memory : ∃ p p', s.kernel.procHeap parent = some p ∧ s'.kernel.procHeap parent = some p' ∧
    p'.pAddrspace = p.pAddrspace ∧ p.pAddrspace.bind s'.addrspaces = p.pAddrspace.bind s.addrspaces
  /-- The child goes on with 0. -/
  childFrame : ∃ data1 data2 s'', s'.starts tid = some (data1, data2) ∧
    entrypoint tid data1 data2 s' =
      .ok { tf with tfV0 := 0, tfA3 := 0, tfEpc := tf.tfEpc + 4 } s''
  descriptors : ∀ fd,
    s'.files.descriptor (s'.procFt child) fd = s.files.descriptor (s.procFt parent) fd

section Runs

variable {t : Tid} {s s' : Image} {parent child : Ptr} {c : Proc} {r : Answer} {u : Unit}

/-- Only `child` is a new process, and its pid is `pid`. -/
def MakesOnly (child : Ptr) (pid : ℤ) (s s' : Image) : Prop :=
  ∃ C, s'.kernel.procHeap = update s.kernel.procHeap child (some C) ∧ C.pPid = pid

theorem storeInt_kernel {addr : UInt32} {x : ℤ} (h : storeInt t addr x s = .ok u s') :
    s'.kernel = s.kernel := by
  unfold storeInt at h
  split at h
  · exact absurd h throw_eq_ok
  · split at h
    · simp only [storeUser, bind_eq_ok, get_eq_ok, onKernel_eq_ok, follow_eq_ok, derefAs_eq_ok] at h
      obtain ⟨_, _, ⟨rfl, rfl⟩, ⟨q, Q⟩, _, ⟨_, ⟨-, rfl⟩, rfl⟩, ⟨as, A⟩, _, ⟨-, rfl⟩, h⟩ := h
      cases hstore : A.store addr.toNat (intBytes x) with
      | none =>
        simp only [hstore] at h
        exact absurd h throw_eq_ok
      | some a =>
        simp only [hstore] at h
        obtain rfl := modify_eq_ok.mp h
        rfl
    · obtain ⟨-, rfl⟩ := pure_eq_ok.mp h
      rfl

theorem forkThread_makes {as childTf : Ptr} {retval : UInt32} {thread : Option Tid}
    (hc : s.kernel.procHeap child = some c) (has : c.pAddrspace = some as)
    (h : forkThread t child childTf retval thread s = .ok r s') : MakesOnly child c.pPid s s' := by
  have hthread := forkThread_ok hc has h
  obtain ⟨tid, rfl⟩ := Option.ne_none_iff_exists'.mp hthread
  simp only [forkThread, threadFork, bind_eq_ok, onKernel_eq_ok, follow_eq_ok, pure_eq_ok,
    modify_eq_ok] at h
  obtain ⟨⟨q, C⟩, _, ⟨_, ⟨⟨hq, hC⟩, rfl⟩, rfl⟩, _, _,
    ⟨_, ⟨⟨q', C'⟩, _, ⟨⟨hq', hC'⟩, rfl⟩, _, _, rfl, _, _, rfl, rfl, rfl⟩, rfl⟩, h⟩ := h
  simp only [bind_eq_ok, modify_eq_ok, pure_eq_ok] at h
  obtain ⟨_, _, rfl, _, _, hstore, -, rfl⟩ := h
  obtain rfl : child = q' := Option.some.inj hq'
  obtain rfl : c = C' := Option.some.inj (hc.symm.trans hC')
  exact ⟨{ c with pNumthreads := c.pNumthreads + 1 }, by rw [storeInt_kernel hstore]; rfl, rfl⟩

/-- The trapframe is new, and its address is the next one. -/
theorem tfCreate_kernel {ok : Bool} {tf : Trapframe} {p : Option Ptr}
    (h : tfCreate ok tf s = .ok p s') : s'.kernel = s.kernel := by
  cases ok with
  | false =>
    obtain ⟨-, rfl⟩ := pure_eq_ok.mp h
    rfl
  | true =>
    simp only [tfCreate, if_true, bind_eq_ok, get_eq_ok, set_eq_ok, pure_eq_ok] at h
    obtain ⟨_, _, ⟨rfl, rfl⟩, _, _, rfl, -, rfl⟩ := h
    rfl

theorem forkTable_makes {as : Ptr} {tf : Trapframe} {retval : UInt32} {a : ForkAnswers}
    (hc : s.kernel.procHeap child = some c) (has : c.pAddrspace = some as)
    (h : forkTable t parent child tf retval a s = .ok r s') : MakesOnly child c.pPid s s' := by
  simp only [forkTable, setProcFt, bind_eq_ok, get_eq_ok, onFiles_eq_ok, modify_eq_ok] at h
  obtain ⟨_, _, ⟨rfl, rfl⟩, ft, _, ⟨f, -, rfl⟩, _, _, rfl, h⟩ := h
  split at h
  · exact absurd h (forkUndo_stops hc has)
  · simp only [bind_eq_ok] at h
    obtain ⟨made, s₁, htf, h⟩ := h
    have hkernel : s₁.kernel = s.kernel := (tfCreate_kernel htf).trans rfl
    have hc₁ : s₁.kernel.procHeap child = some c := by rw [hkernel]; exact hc
    cases made with
    | none => exact absurd h (forkUndo_stops hc₁ has)
    | some childTf =>
      obtain ⟨C, hheap, hpid⟩ := forkThread_makes hc₁ has h
      exact ⟨C, by rw [hheap, hkernel], hpid⟩

/-- A `fork` that answers 0 has made one process. -/
theorem forkAs_makes {tf : Trapframe} {retval : UInt32} {a : ForkAnswers}
    (hc : s.kernel.procHeap child = some c) (h : forkAs t parent child tf retval a s = .ok r s')
    (hr : r.ret = 0) : MakesOnly child c.pPid s s' := by
  simp only [forkAs, bind_eq_ok, onKernel_eq_ok, follow_eq_ok] at h
  obtain ⟨⟨q, P⟩, _, ⟨_, ⟨-, rfl⟩, rfl⟩, ⟨result, as⟩, s₁, hcopy, h⟩ := h
  obtain ⟨hkernel, -, -, hok⟩ := asCopy_spec hcopy
  rw [Image.setKernel_self] at hkernel
  split at h
  case isTrue hresult =>
    simp only [bind_eq_ok, pure_eq_ok] at h
    obtain ⟨_, _, -, rfl, -⟩ := h
    exact absurd hr hresult
  case isFalse hresult =>
    obtain ⟨-, -, has⟩ := hok (Classical.not_not.mp hresult)
    obtain ⟨new, rfl⟩ := Option.ne_none_iff_exists'.mp has
    simp only [setAddrspace, bind_eq_ok, onKernel_eq_ok, follow_eq_ok, modify_eq_ok] at h
    obtain ⟨_, _, ⟨⟨q, C⟩, _, ⟨_, ⟨⟨hq, hC⟩, rfl⟩, rfl⟩, rfl⟩, h⟩ := h
    obtain rfl : child = q := Option.some.inj hq
    have hC : s.kernel.procHeap child = some C := by rw [← hkernel]; exact hC
    obtain rfl : c = C := Option.some.inj (hc.symm.trans hC)
    obtain ⟨D, hheap, hpid⟩ := forkTable_makes (Function.update_self child _ _) rfl h
    refine ⟨D, ?_, hpid⟩
    rw [hheap]
    show update (update s₁.kernel.procHeap child _) child _ = _
    rw [Function.update_idem, hkernel]

theorem sysFork_makes {p : Proc} {tf : Trapframe} {retval : UInt32} {a : ForkAnswers}
    (hrun : Running s t parent p) (h : sysFork t tf retval a s = .ok r s') (hr : r.ret = 0) :
    ∃ child, MakesOnly child s.kernel.newPid s s' ∧ IsFree s.kernel s.kernel.newPid := by
  have has : p.pAddrspace ≠ none := fun hnone => by
    rw [sysFork_einval hrun hnone] at h
    cases h
    exact absurd hr (by decide)
  simp only [sysFork, bind_eq_ok, get_eq_ok, onKernel_eq_ok, follow_eq_ok] at h
  obtain ⟨_, _, ⟨rfl, rfl⟩, ⟨q, Q⟩, _, ⟨_, ⟨-, rfl⟩, rfl⟩, begun, _, ⟨k, hbegin, rfl⟩, h⟩ := h
  rw [Image.setKernel_self] at hbegin
  rcases sysForkBegin_spec hbegin with ⟨rfl, -, -⟩ | ⟨-, hsome, hcreate⟩
  · obtain ⟨rfl, -⟩ := pure_eq_ok.mp h
    exact absurd hr (by decide)
  · obtain ⟨child, rfl⟩ := Option.ne_none_iff_exists'.mp hsome
    rcases procCreateBegin_spec hcreate with ⟨habs, -⟩ |
      ⟨child', lock, sem, hchild, -, -, hfree, -, -, hheap, -⟩
    · cases habs
    obtain rfl : child = child' := Option.some.inj hchild
    simp only [bind_eq_ok] at h
    obtain ⟨_, s₁, hregister, h⟩ := h
    have hnew : k.procHeap child = some (.new s.kernel.newPid ⟨[], lock⟩ sem) := by
      rw [hheap]
      exact Function.update_self child _ _
    obtain ⟨-, ⟨C, hheap₁, hpid, -⟩, -⟩ := forkRegister_spec (by exact hnew) rfl hregister
    have hC : s₁.kernel.procHeap child = some C := by
      rw [hheap₁]
      exact Function.update_self child _ _
    obtain ⟨D, hheap₂, hpid'⟩ := forkAs_makes hC h hr
    refine ⟨child, ⟨D, ?_, hpid'.trans hpid⟩, hfree⟩
    rw [hheap₂, hheap₁]
    show update (update k.procHeap child _) child _ = _
    rw [hheap, Function.update_idem, Function.update_idem]

end Runs

/-- No pid is 0, whatever is left of it in a register. -/
theorem word_pid_ne_zero {k : Kernel} {pid : ℤ} (h : IsFree k pid) : word pid ≠ 0 := by
  intro habs
  obtain ⟨hlow, hhigh, -⟩ := h
  have hsmall : pid < 32767 := hhigh
  have hnat : (UInt32.ofNat (pid % 2 ^ 32).toNat).toNat = 0 := congrArg UInt32.toNat habs
  rw [UInt32.toNat_ofNat'] at hnat
  omega

section Answer

variable {t : Tid} {s s' : Image} {tf tf' : Trapframe} {parent : Ptr} {p : Proc} {a : ForkAnswers}

/-- A `fork` that succeeds for the dispatcher has succeeded in `sys_fork`, and `v0` is 0. -/
theorem fork_answered {others : Call → ImageM Answer} (hcall : tf.tfV0 = 0)
    (h : Syscall.syscall (handlers t a others) tf s = .ok tf' s') (hsuccess : tf'.tfA3 = 0) :
    tf'.tfV0 = 0 ∧ ∃ answer, sysFork t tf tf.tfA0 a s = .ok answer s' ∧ answer.ret = 0 := by
  have hmarshal : Syscall.marshal tf = some (.fork tf tf.tfA0) := by
    simp [Syscall.marshal, hcall]
  simp only [Syscall.syscall, hmarshal, bind_eq_ok, pure_eq_ok] at h
  obtain ⟨answer, s₁, hsys, htf, rfl⟩ := h
  have hleave : Syscall.leave tf (0, answer.ret) = tf' := by
    rw [← htf, Syscall.answered, hmarshal]
    rfl
  have hret : answer.ret = 0 := by
    by_contra hne
    rw [← hleave, (Syscall.leave_fails hne).2] at hsuccess
    exact absurd hsuccess (by decide)
  refine ⟨?_, answer, hsys, hret⟩
  rw [← hleave, hret]
  exact Syscall.leave_word.1

/-- With the semantics of `fork`, `v0` is the pid of the process made. -/
theorem ForkSemantics.tfV0_ne_zero {child : Ptr} {tid : Tid} {answer : Answer} {retval : UInt32}
    (h : ForkSemantics s s' tf tf' parent child tid) (hrun : Running s t parent p)
    (hsys : sysFork t tf retval a s = .ok answer s') (hret : answer.ret = 0) : tf'.tfV0 ≠ 0 := by
  intro hv0
  obtain ⟨made, ⟨C, hheap, hpid⟩, hfree⟩ := sysFork_makes hrun hsys hret
  obtain ⟨c, hc, hframe⟩ := h.parentFrame
  have hchild : child = made := by
    by_contra hne
    rw [hheap, Function.update_of_ne hne, h.isNew] at hc
    cases hc
  rw [hheap, hchild, Function.update_self] at hc
  obtain rfl : C = c := Option.some.inj hc
  have hword : word C.pPid = 0 := by
    rw [← hv0, hframe]
  rw [hpid] at hword
  exact word_pid_ne_zero hfree hword

end Answer

/-- **No `fork` that succeeds has the semantics of `fork`**: the parent gets 0. -/
theorem forkSemantics_never {t : Tid} {s s' : Image} {tf tf' : Trapframe} {parent : Ptr} {p : Proc}
    {a : ForkAnswers} {others : Call → ImageM Answer} (hrun : Running s t parent p)
    (hcall : tf.tfV0 = 0) (h : Syscall.syscall (handlers t a others) tf s = .ok tf' s')
    (hsuccess : tf'.tfA3 = 0) : ¬ ∃ child tid, ForkSemantics s s' tf tf' parent child tid := by
  intro ⟨child, tid, hfork⟩
  obtain ⟨hv0, answer, hsys, hret⟩ := fork_answered hcall h hsuccess
  exact hfork.tfV0_ne_zero hrun hsys hret hv0

/-- Everything succeeds. -/
def forkSucceeds : ForkAnswers := ⟨.all, .ok, true, true, ⟨true, 0⟩, .ok, true, some 2⟩

/-- The parent's `a0` is an address of the kernel's, where the pid can be stored. -/
def callFrame : Trapframe := Syscall.frame 0 0x80000000 0 0 0

/-- Thread 1 forks, and its child gets pid 4. -/
def forked : EStateM.Result Stop Image Trapframe :=
  Syscall.syscall (handlers 1 forkSucceeds fun _ => throw .fault) callFrame userImage

/-- What the parent sees of it in `v0` and `a3`, and the pid of the child. -/
def forkedAnswer : Option (UInt32 × UInt32 × Option ℤ) :=
  match forked with
  | .ok tf s => some (tf.tfV0, tf.tfA3, (s.kernel.procHeap 9).map Proc.pPid)
  | .error _ _ => none

theorem forkedAnswer_eq : forkedAnswer = some (0, 0, some 4) := by decide +kernel

theorem forked_ok : ∃ tf' s', forked = .ok tf' s' ∧ (tf'.tfV0 = 0 ∧ tf'.tfA3 = 0) ∧
    (s'.kernel.procHeap 9).map Proc.pPid = some 4 := by
  have h := forkedAnswer_eq
  unfold forkedAnswer at h
  cases hforked : forked with
  | ok tf' s' =>
    rw [hforked] at h
    simp only [Option.some.injEq, Prod.mk.injEq] at h
    exact ⟨tf', s', rfl, ⟨h.1, h.2.1⟩, h.2.2⟩
  | error e s' =>
    rw [hforked] at h
    cases h

theorem forkSemantics_never_forked : Running userImage 1 4 userProc ∧
    ∃ tf' s', forked = .ok tf' s' ∧ tf'.tfA3 = 0 ∧
      ¬ ∃ child tid, ForkSemantics userImage s' callFrame tf' 4 child tid := by
  obtain ⟨tf', s', hrun, ⟨-, ha3⟩, -⟩ := forked_ok
  exact ⟨userImage_running, tf', s', hrun, ha3,
    forkSemantics_never userImage_running rfl hrun ha3⟩

/-- The parent of process 4 is told that it is process 0. -/
theorem fork_returns_zero : ∃ tf' s', forked = .ok tf' s' ∧ (tf'.tfV0 = 0 ∧ tf'.tfA3 = 0) ∧
    (s'.kernel.procHeap 9).map Proc.pPid = some 4 ∧
    ¬ ∃ child tid, ForkSemantics userImage s' callFrame tf' 4 child tid := by
  obtain ⟨tf', s', hrun, ⟨hv0, ha3⟩, hpid⟩ := forked_ok
  refine ⟨tf', s', hrun, ⟨hv0, ha3⟩, hpid, fun ⟨child, tid, hfork⟩ => ?_⟩
  obtain ⟨-, answer, hsys, hret⟩ := fork_answered rfl hrun ha3
  exact hfork.tfV0_ne_zero userImage_running hsys hret hv0

end UnionCollegeCode.OS161.UserProcess
