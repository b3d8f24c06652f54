import UnionCollegeCode.OS161.Sections

/-!
# What a section needs to come to its end

`Ends` is the weakest precondition of a section that is to fail no `KASSERT`, reach no `panic` and follow no
bad pointer. For the sections of `proc_remthread`, `proc_destroy` and `thread_exit` it is worked out in
full: what has to be in the table and on the heaps, and who may not be asleep there.
-/

set_option autoImplicit false

namespace UnionCollegeCode.OS161

open Function (update)
open Lib.EState

/-! ## How a section ends -/

/-- `m` comes to its end with `Q`, or the thread sleeps in it, if it may. -/
def Ends {α : Type} (sleeps : Prop) (m : KernelM α) (Q : α → Kernel → Prop) (s : Kernel) : Prop :=
  wp m Q (fun e _ => e = .asleep ∧ sleeps) s

section Ends

variable {α β : Type} {sleeps : Prop} {m : KernelM α} {Q : α → Kernel → Prop} {s : Kernel} {t : Tid}
  {p : Ptr} {P : Proc} {pid : ℤ}

theorem ends_awake : Ends False m Q s ↔ ∃ a s', m s = .ok a s' ∧ Q a s' := by
  unfold Ends
  cases h : m s with
  | ok a s' =>
    rw [wp_of_ok h]
    constructor
    · intro hQ
      exact ⟨a, s', rfl, hQ⟩
    · rintro ⟨a', s'', heq, hQ⟩
      cases heq
      exact hQ
  | error e s' => simp [wp_of_error h]

theorem ends_bind {f : α → KernelM β} {Q : β → Kernel → Prop} :
    Ends sleeps (m >>= f) Q s ↔ Ends sleeps m (fun a => Ends sleeps (f a) Q) s := wp_bind

theorem ends_pure {a : α} : Ends sleeps (pure a) Q s ↔ Q a s := Iff.rfl

theorem ends_get {Q : Kernel → Kernel → Prop} : Ends sleeps get Q s ↔ Q s s := Iff.rfl

theorem ends_set {s' : Kernel} {Q : PUnit → Kernel → Prop} : Ends sleeps (set s') Q s ↔ Q ⟨⟩ s' :=
  Iff.rfl

theorem ends_modify {g : Kernel → Kernel} {Q : PUnit → Kernel → Prop} :
    Ends sleeps (modify g) Q s ↔ Q ⟨⟩ (g s) := Iff.rfl

theorem ends_throw {e : Stop} : Ends sleeps (throw e : KernelM α) Q s ↔ e = .asleep ∧ sleeps := Iff.rfl

theorem ends_kassert {c : Prop} [Decidable c] {expr : String} {Q : Unit → Kernel → Prop} :
    Ends sleeps (kassert c expr) Q s ↔ c ∧ Q () s := by
  unfold kassert
  by_cases h : c <;> simp [h, ends_pure, ends_throw]

theorem ends_follow {heap : Kernel → Ptr → Option α} {q : Option Ptr} {Q : Ptr × α → Kernel → Prop} :
    Ends sleeps (follow heap q) Q s ↔ ∃ r a, q = some r ∧ heap s r = some a ∧ Q (r, a) s := by
  unfold follow
  cases q with
  | none => simp [ends_throw]
  | some r =>
    rw [ends_bind, ends_get]
    cases h : heap s r with
    | none => simp [h, ends_throw]
    | some a => simp [h, ends_pure]

theorem ends_follow_some {heap : Kernel → Ptr → Option α} {r : Ptr} {a : α} {Q : Ptr × α → Kernel → Prop}
    (h : heap s r = some a) : Ends sleeps (follow heap (some r)) Q s ↔ Q (r, a) s := by
  rw [ends_follow]
  constructor
  · rintro ⟨r', a', hr, ha, hQ⟩
    cases hr
    cases h.symm.trans ha
    exact hQ
  · intro hQ
    exact ⟨r, a, rfl, h, hQ⟩

theorem ends_indexed {Q : Unit → Kernel → Prop} :
    Ends sleeps (indexed pid) Q s ↔ (0 ≤ pid ∧ pid < pidMax) ∧ Q () s := by
  unfold indexed
  by_cases h : 0 ≤ pid ∧ pid < pidMax
  · simp [h, ends_pure]
  · rw [if_neg h, ends_throw]
    exact iff_of_false (fun habs => absurd habs.1 (by decide)) (fun habs => h habs.1)

theorem ends_lockDoIHold {lock : Option Ptr} {Q : Bool → Kernel → Prop} :
    Ends sleeps (lockDoIHold t lock) Q s ↔
      ∃ l L, lock = some l ∧ s.lockHeap l = some L ∧ Q (decide (L.lkOwner = some t)) s := by
  simp only [lockDoIHold, ends_bind, ends_kassert, ends_follow, ends_pure]
  constructor
  · rintro ⟨-, h⟩
    exact h
  · rintro ⟨l, L, rfl, hL, hQ⟩
    exact ⟨by simp, l, L, rfl, hL, hQ⟩

/-! ## What the sections ask for -/

theorem ends_lockDestroy {lock : Option Ptr} {Q : Unit → Kernel → Prop} :
    Ends sleeps (lockDestroy t lock) Q s ↔
      ∃ l L, lock = some l ∧ s.lockHeap l = some L ∧ L.lkOwner ≠ some t ∧ L.lkWchan = [] ∧
        Q () (s.setLock l none) := by
  simp only [lockDestroy, wchanDestroy, ends_bind, ends_kassert, ends_lockDoIHold, ends_follow,
    ends_modify, decide_eq_false_iff_not]
  constructor
  · rintro ⟨-, l, L, rfl, hL, howner, l', L', hl, hL', hwchan, hQ⟩
    cases hl
    cases hL.symm.trans hL'
    exact ⟨l, L, rfl, hL, howner, hwchan, hQ⟩
  · rintro ⟨l, L, rfl, hL, howner, hwchan, hQ⟩
    exact ⟨Option.some_ne_none l, l, L, rfl, hL, howner, l, L, rfl, hL, hwchan, hQ⟩

theorem ends_cvDestroy {cv : Option Ptr} {Q : Unit → Kernel → Prop} :
    Ends sleeps (cvDestroy cv) Q s ↔
      ∃ c C, cv = some c ∧ s.cvHeap c = some C ∧ C.cvWchan = [] ∧ Q () (s.setCv c none) := by
  simp only [cvDestroy, wchanDestroy, ends_bind, ends_kassert, ends_follow, ends_modify]
  constructor
  · rintro ⟨-, h⟩
    exact h
  · rintro ⟨c, C, rfl, h⟩
    exact ⟨Option.some_ne_none c, c, C, rfl, h⟩

/-- The entry of a pid: its lock and its condition variable are there, `t` does not hold the lock, and
nobody sleeps on either. -/
structure TableEntry (s : Kernel) (t : Tid) (pid : ℤ) (l c : Ptr) : Prop where
  indexed : 0 ≤ pid ∧ pid < pidMax
  proc : s.procTable.procs pid ≠ none
  exitLock : s.procTable.exitLocks pid = some l
  lock : ∃ L, s.lockHeap l = some L ∧ L.lkOwner ≠ some t ∧ L.lkWchan = []
  exitCv : s.procTable.exitCvs pid = some c
  cv : ∃ C, s.cvHeap c = some C ∧ C.cvWchan = []

def Kernel.removeEntry (s : Kernel) (pid : ℤ) (l c : Ptr) : Kernel :=
  ((s.setLock l none).setCv c none).setTable (s.procTable.remove pid)

theorem ends_removeProc {Q : Unit → Kernel → Prop} :
    Ends sleeps (removeProc t pid) Q s ↔
      ∃ l c, TableEntry s t pid l c ∧ Q () (s.removeEntry pid l c) := by
  simp only [removeProc, ends_bind, ends_indexed, ends_get, ends_kassert, ends_set,
    ends_lockDestroy, ends_modify, ends_cvDestroy]
  constructor
  · rintro ⟨hindexed, hproc, l, L, hl, hL, howner, hwchan, c, C, hc, hC, hcv, hQ⟩
    exact ⟨l, c, ⟨hindexed, hproc, hl, ⟨L, hL, howner, hwchan⟩, hc, ⟨C, hC, hcv⟩⟩, hQ⟩
  · rintro ⟨l, c, h, hQ⟩
    obtain ⟨L, hL, howner, hwchan⟩ := h.lock
    obtain ⟨C, hC, hcv⟩ := h.cv
    exact ⟨h.indexed, h.proc, l, L, h.exitLock, hL, howner, hwchan, c, C, h.exitCv, hC, hcv, hQ⟩

theorem ends_procRemthreadBegin {Q : Ptr → Kernel → Prop} :
    Ends sleeps (procRemthreadBegin t) Q s ↔
      ∃ p P, s.curproc t = some p ∧ s.procHeap p = some P ∧ 0 < P.pNumthreads ∧
        Q p (s.setProc p (some { P with pNumthreads := P.pNumthreads - 1 })) := by
  simp only [procRemthreadBegin, ends_bind, ends_get, ends_kassert, ends_follow, ends_modify,
    ends_pure]
  constructor
  · rintro ⟨-, p, P, hcur, hP, hcount, hQ⟩
    exact ⟨p, P, hcur, hP, hcount, hQ⟩
  · rintro ⟨p, P, hcur, hP, hcount, hQ⟩
    exact ⟨by simp [hcur], p, P, hcur, hP, hcount, hQ⟩

/-- The address space goes first, if there is one. -/
theorem ends_procDestroyBegin {Q : Unit → Kernel → Prop} (hcur : s.curproc t = some p)
    (hP : s.procHeap p = some P) :
    Ends sleeps (procDestroyBegin t p) Q s ↔
      p ≠ s.kproc ∧ ∃ l c, TableEntry s t P.pPid l c ∧
        Q () ((s.setProc p (some { P with pAddrspace := none })).removeEntry P.pPid l c) := by
  have hclear : Ends sleeps (removeProc t P.pPid) Q
        (s.setProc p (some { P with pAddrspace := none })) ↔
      ∃ l c, TableEntry s t P.pPid l c ∧
        Q () ((s.setProc p (some { P with pAddrspace := none })).removeEntry P.pPid l c) := by
    rw [ends_removeProc]
    refine exists_congr fun l => exists_congr fun c => and_congr_left fun _ => ?_
    exact ⟨fun h => ⟨h.1, h.2, h.3, h.4, h.5, h.6⟩, fun h => ⟨h.1, h.2, h.3, h.4, h.5, h.6⟩⟩
  rw [← hclear, procDestroyBegin, ends_bind, ends_get, ends_bind, ends_kassert, ends_bind,
    ends_follow_some hP]
  refine and_congr_right fun _ => ?_
  dsimp only
  by_cases hsome : P.pAddrspace.isSome = true
  · rw [if_pos hsome, if_pos hcur, ends_bind, procClearas, ends_bind, ends_get, ends_bind,
      ends_kassert, ends_bind, hcur, ends_follow_some hP, ends_modify]
    exact and_iff_right (Option.some_ne_none p)
  · have hnone : P.pAddrspace = none := by simpa using hsome
    have hsame : s.setProc p (some { P with pAddrspace := none }) = s := by
      rw [← hnone, Kernel.setProc, Function.update_eq_self_iff.mpr hP.symm]
    rw [if_neg hsome, hsame]

theorem ends_semDestroy {sem : Option Semaphore} {Q : Unit → Kernel → Prop} :
    Ends sleeps (semDestroy sem) Q s ↔ (∃ m, sem = some m ∧ m.semWchan = []) ∧ Q () s := by
  cases sem with
  | none => simp [semDestroy, ends_throw]
  | some m => simp [semDestroy, wchanDestroy, ends_kassert]

/-- The list's lock is there and `t` does not hold it; if it is free, at most one thread, which is woken
up, sleeps on it. -/
def Kernel.listFree (s : Kernel) (t : Tid) (list : LinkedList) : Prop :=
  ∃ l L, list.llLock = some l ∧ s.lockHeap l = some L ∧ L.lkOwner ≠ some t ∧
    (L.isBusy = false → L.lkWchan.tail = [])

theorem ends_lockAcquire {lock : Option Ptr} {Q : Bool → Kernel → Prop} :
    Ends sleeps (lockAcquire t lock) Q s ↔
      ∃ l L, lock = some l ∧ s.lockHeap l = some L ∧ L.lkOwner ≠ some t ∧
        if L.isBusy = true then Q false (s.setLock l (some { L with lkWchan := L.lkWchan ++ [t] }))
        else Q true (s.setLock l (some { L with isBusy := true, lkOwner := some t })) := by
  simp only [lockAcquire, ends_bind, ends_kassert, ends_lockDoIHold, decide_eq_false_iff_not]
  constructor
  · rintro ⟨-, l, L, rfl, hL, howner, htake⟩
    refine ⟨l, L, rfl, hL, howner, ?_⟩
    rw [lockTake, ends_bind, ends_follow_some hL] at htake
    dsimp only at htake
    split at htake
    · rw [if_pos ‹_›]
      exact htake
    · rw [if_neg ‹_›]
      exact htake
  · rintro ⟨l, L, rfl, hL, howner, hQ⟩
    refine ⟨Option.some_ne_none l, l, L, rfl, hL, howner, ?_⟩
    rw [lockTake, ends_bind, ends_follow_some hL]
    dsimp only
    split
    · rwa [if_pos ‹_›] at hQ
    · rwa [if_neg ‹_›] at hQ

theorem ends_lockRelease {l : Ptr} {L : Lock} {Q : Unit → Kernel → Prop} (hL : s.lockHeap l = some L)
    (howner : L.lkOwner = some t) (hbusy : L.isBusy = true) :
    Ends sleeps (lockRelease t (some l)) Q s ↔ Q () (s.setLock l (some ⟨false, none, L.lkWchan.tail⟩)) := by
  simp only [lockRelease, ends_bind, ends_kassert, ends_lockDoIHold, ends_follow_some hL, ends_modify]
  constructor
  · rintro ⟨-, l', L', hl', hL', -, -, -, hQ⟩
    exact hQ
  · intro hQ
    exact ⟨Option.some_ne_none l, l, L, rfl, hL, by simp [howner], hbusy, by simp [howner], hQ⟩

/-- The lock is taken, let go of and destroyed, in one section, unless the thread sleeps. -/
theorem ends_linkedListDestroy {list : LinkedList} {Q : Unit → Kernel → Prop} (hQ : ∀ s, Q () s) :
    Ends True (linkedListDestroy t list) Q s ↔ s.listFree t list := by
  rw [linkedListDestroy, ends_bind, ends_lockAcquire]
  refine exists_congr fun l => exists_congr fun L => and_congr_right fun hl => and_congr_right fun hL =>
    and_congr_right fun _ => ?_
  by_cases hbusy : L.isBusy = true
  · rw [if_pos hbusy]
    simp [ends_throw, hbusy]
  · have hfree : L.isBusy = false := by simpa using hbusy
    rw [if_neg hbusy, if_pos rfl, ends_bind, hl, ends_lockRelease (Function.update_self ..) rfl rfl,
      ends_lockDestroy]
    constructor
    · rintro ⟨l', L', hl', hL', -, hwchan, -⟩ -
      cases hl'
      cases (Function.update_self ..).symm.trans hL'
      exact hwchan
    · intro hwchan
      exact ⟨l, _, rfl, Function.update_self .., by simp, hwchan hfree, hQ _⟩

/-- `proc_destroy` after it has freed `parent_proc`. -/
theorem ends_destroyRest {Q : Unit → Kernel → Prop} (hP : s.procHeap p = some P) (hQ : ∀ s, Q () s) :
    Ends True (do
        let (_, p') ← follow Kernel.procHeap (some p)
        kassert (p'.pNumthreads = 0) "proc->p_numthreads == 0"
        semDestroy p'.pExitSem
        linkedListDestroy t p'.pChildrenLl
        modify fun s => s.setProc p none) Q s ↔
      P.pNumthreads = 0 ∧ (∃ m, P.pExitSem = some m ∧ m.semWchan = []) ∧
        s.listFree t P.pChildrenLl := by
  rw [ends_bind, ends_follow_some hP]
  dsimp only
  rw [ends_bind, ends_kassert, ends_bind, ends_semDestroy, ends_bind]
  exact and_congr_right fun _ => and_congr_right fun _ => ends_linkedListDestroy fun s => hQ _

theorem ends_procDestroyEnd {Q : Unit → Kernel → Prop} (hP : s.procHeap p = some P)
    (hQ : ∀ s, Q () s) :
    Ends True (procDestroyEnd t p) Q s ↔
      P.parentProc ≠ some p ∧ P.pNumthreads = 0 ∧ (∃ m, P.pExitSem = some m ∧ m.semWchan = []) ∧
        s.listFree t P.pChildrenLl := by
  rw [procDestroyEnd, ends_bind, ends_follow_some hP]
  dsimp only
  cases hparent : P.parentProc with
  | none =>
    rw [and_iff_right (Option.some_ne_none p).symm]
    exact ends_destroyRest hP hQ
  | some parent =>
    by_cases hself : parent = p
    · -- The process would be its own parent, freed before it is looked at again.
      subst hself
      apply iff_of_false
      · intro hend
        obtain ⟨q, a, hq, ha, -⟩ := ends_follow.mp (ends_bind.mp hend)
        cases hq
        exact absurd ((Function.update_self ..).symm.trans ha) (Option.some_ne_none a).symm
      · exact fun habs => habs.1 rfl
    · have hne : some parent ≠ some p := fun heq => hself (Option.some.inj heq)
      rw [and_iff_right hne]
      exact ends_destroyRest (s := s.setProc parent none)
        ((Function.update_of_ne (Ne.symm hself) ..).trans hP) hQ

theorem ends_threadExitEnd {Q : Unit → Kernel → Prop} (hQ : ∀ s, Q () s) :
    Ends sleeps (threadExitEnd t) Q s := by
  rw [threadExitEnd, ends_bind, ends_modify, ends_bind, ends_get, ends_bind, ends_kassert, ends_set]
  exact ⟨by simp [Kernel.curproc, Kernel.setThread], hQ _⟩

/-- `sys_exit` asks for the one thing it does not see to: that its caller holds the exit lock. -/
theorem ends_sysExitBegin {exitcode : ℤ} (hcur : s.curproc t = some p) (hP : s.procHeap p = some P)
    (h : Ends True (sysExitBegin t exitcode) (fun _ _ => True) s) :
    (∃ l L, s.procTable.exitLocks P.pPid = some l ∧ s.lockHeap l = some L ∧ L.lkOwner = some t) ∧
      ∃ s', sysExitBegin t exitcode s = .ok () s' ∧ s'.lockHeap = s.lockHeap := by
  simp only [sysExitBegin, ends_bind, ends_get, hcur, ends_follow_some hP, ends_indexed, cvBroadcast,
    ends_lockDoIHold, ends_kassert, ends_follow, ends_modify, decide_eq_true_eq] at h
  obtain ⟨hpid, l, L, hl, hL, howner, c, C, hc, hC, hparent⟩ := h
  refine ⟨⟨l, L, hl, hL, howner⟩, ?_⟩
  have hawake : Ends False (sysExitBegin t exitcode) (fun _ s' => s'.lockHeap = s.lockHeap) s := by
    simp only [sysExitBegin, ends_bind, ends_get, hcur, ends_follow_some hP, ends_indexed, cvBroadcast,
      ends_lockDoIHold, ends_kassert, ends_follow, ends_modify, decide_eq_true_eq]
    refine ⟨hpid, l, L, hl, hL, howner, c, C, hc, hC, ?_⟩
    cases hnull : P.parentProc with
    | none => exact rfl
    | some parent =>
      simp only [hnull, ends_bind, ends_follow] at hparent ⊢
      obtain ⟨q, Q, hq, hQ, -⟩ := hparent
      exact ⟨q, Q, hq, hQ, rfl⟩
  obtain ⟨_, s', hok, hheap⟩ := ends_awake.mp hawake
  exact ⟨s', hok, hheap⟩

end Ends

end UnionCollegeCode.OS161
