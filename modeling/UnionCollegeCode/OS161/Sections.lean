import Mathlib.Algebra.Order.Group.Int
import UnionCollegeCode.OS161.Process

/-!
# What each section does

One lemma for each section that came to its end: which objects it changed, and how. Sections that
only move threads between a lock, a wait channel and their own code change nothing else
(`SyncOnly`).
-/

set_option autoImplicit false

namespace UnionCollegeCode.OS161

open Function (update)
open Lib.EState

variable {s s' : Kernel} {t : Tid} {p : Ptr} {pid : ℤ}

/-- Locks and condition variables may have changed hands; none is gone. -/
structure SyncOnly (s s' : Kernel) : Prop where
  procHeap : s'.procHeap = s.procHeap
  procTable : s'.procTable = s.procTable
  threads : s'.threads = s.threads
  kproc : s'.kproc = s.kproc
  next : s'.next = s.next
  locks : ∀ l, s.lockHeap l ≠ none → s'.lockHeap l ≠ none
  cvs : ∀ c, s.cvHeap c ≠ none → s'.cvHeap c ≠ none

theorem SyncOnly.refl (s : Kernel) : SyncOnly s s :=
  ⟨rfl, rfl, rfl, rfl, rfl, fun _ h => h, fun _ h => h⟩

theorem SyncOnly.trans {s₁ s₂ s₃ : Kernel} (h₁ : SyncOnly s₁ s₂) (h₂ : SyncOnly s₂ s₃) :
    SyncOnly s₁ s₃ where
  procHeap := h₂.procHeap.trans h₁.procHeap
  procTable := h₂.procTable.trans h₁.procTable
  threads := h₂.threads.trans h₁.threads
  kproc := h₂.kproc.trans h₁.kproc
  next := h₂.next.trans h₁.next
  locks := fun l h => h₂.locks l (h₁.locks l h)
  cvs := fun c h => h₂.cvs c (h₁.cvs c h)

theorem SyncOnly.setLock (s : Kernel) (q : Ptr) (l : Lock) : SyncOnly s (s.setLock q (some l)) := by
  refine ⟨rfl, rfl, rfl, rfl, rfl, fun q' h => ?_, fun _ h => h⟩
  by_cases hq : q' = q
  · simp [Kernel.setLock, hq]
  · simpa [Kernel.setLock, hq] using h

theorem SyncOnly.setCv (s : Kernel) (q : Ptr) (c : Cv) : SyncOnly s (s.setCv q (some c)) := by
  refine ⟨rfl, rfl, rfl, rfl, rfl, fun _ h => h, fun q' h => ?_⟩
  by_cases hq : q' = q
  · simp [Kernel.setCv, hq]
  · simpa [Kernel.setCv, hq] using h

/-! ## Locks -/

@[simp] theorem wchanDestroy_eq_ok {wc : List Tid} {u : Unit} :
    wchanDestroy wc s = .ok u s' ↔ wc = [] ∧ s = s' := by
  simp only [wchanDestroy, kassert_eq_ok]

@[simp] theorem lockDoIHold_eq_ok {lock : Option Ptr} {held : Bool} :
    lockDoIHold t lock s = .ok held s' ↔
      ∃ q l, lock = some q ∧ s.lockHeap q = some l ∧ held = decide (l.lkOwner = some t) ∧ s = s' := by
  simp only [lockDoIHold, bind_eq_ok, kassert_eq_ok, follow_eq_ok, pure_eq_ok]
  constructor
  · rintro ⟨-, s₁, ⟨-, rfl⟩, ⟨q, l⟩, s₂, ⟨⟨hq, hl⟩, rfl⟩, rfl, rfl⟩
    exact ⟨q, l, hq, hl, rfl, rfl⟩
  · rintro ⟨q, l, rfl, hl, rfl, rfl⟩
    exact ⟨(), s, ⟨by simp, rfl⟩, (q, l), s, ⟨⟨rfl, hl⟩, rfl⟩, rfl, rfl⟩

theorem lockTake_sync {lock : Option Ptr} {taken : Bool} (h : lockTake t lock s = .ok taken s') :
    SyncOnly s s' := by
  simp only [lockTake, bind_eq_ok, follow_eq_ok] at h
  obtain ⟨⟨q, l⟩, s₁, ⟨-, rfl⟩, h⟩ := h
  split at h
  · simp only [bind_eq_ok, modify_eq_ok, pure_eq_ok] at h
    obtain ⟨-, s₂, rfl, -, rfl⟩ := h
    exact .setLock ..
  · simp only [bind_eq_ok, modify_eq_ok, pure_eq_ok] at h
    obtain ⟨-, s₂, rfl, -, rfl⟩ := h
    exact .setLock ..

theorem lockAcquire_sync {lock : Option Ptr} {taken : Bool}
    (h : lockAcquire t lock s = .ok taken s') : SyncOnly s s' := by
  simp only [lockAcquire, bind_eq_ok, kassert_eq_ok, lockDoIHold_eq_ok] at h
  obtain ⟨-, s₁, ⟨-, rfl⟩, -, s₂, ⟨-, -, -, -, -, rfl⟩, -, s₃, ⟨-, rfl⟩, h⟩ := h
  exact lockTake_sync h

theorem lockRelease_sync {lock : Option Ptr} {u : Unit} (h : lockRelease t lock s = .ok u s') :
    SyncOnly s s' := by
  simp only [lockRelease, bind_eq_ok, kassert_eq_ok, lockDoIHold_eq_ok, follow_eq_ok,
    modify_eq_ok] at h
  obtain ⟨-, s₁, ⟨-, rfl⟩, -, s₂, ⟨-, -, -, -, -, rfl⟩, -, s₃, ⟨-, rfl⟩, ⟨q, l⟩, s₄, ⟨-, rfl⟩,
    -, s₅, ⟨-, rfl⟩, -, s₆, ⟨-, rfl⟩, rfl⟩ := h
  exact .setLock ..

theorem lockDestroy_spec {lock : Option Ptr} {u : Unit} (h : lockDestroy t lock s = .ok u s') :
    ∃ q l, lock = some q ∧ s.lockHeap q = some l ∧ l.lkWchan = [] ∧ l.lkOwner ≠ some t ∧
      s' = s.setLock q none := by
  simp only [lockDestroy, bind_eq_ok, kassert_eq_ok, lockDoIHold_eq_ok, follow_eq_ok,
    wchanDestroy_eq_ok, modify_eq_ok] at h
  obtain ⟨-, s₁, ⟨-, rfl⟩, held, s₂, ⟨q₀, l₀, hq₀, hl₀, hheld, rfl⟩, -, s₃, ⟨hnot, rfl⟩, ⟨q, l⟩, s₄,
    ⟨⟨hq, hl⟩, rfl⟩, -, s₅, ⟨hwc, rfl⟩, rfl⟩ := h
  obtain rfl : q₀ = q := Option.some.inj (hq₀.symm.trans hq)
  obtain rfl : l₀ = l := Option.some.inj (hl₀.symm.trans hl)
  refine ⟨q₀, l₀, hq₀, hl₀, hwc, ?_, rfl⟩
  rw [hheld] at hnot
  exact of_decide_eq_false hnot

theorem cvDestroy_spec {cv : Option Ptr} {u : Unit} (h : cvDestroy cv s = .ok u s') :
    ∃ q c, cv = some q ∧ s.cvHeap q = some c ∧ c.cvWchan = [] ∧ s' = s.setCv q none := by
  simp only [cvDestroy, bind_eq_ok, kassert_eq_ok, follow_eq_ok, wchanDestroy_eq_ok,
    modify_eq_ok] at h
  obtain ⟨-, s₁, ⟨-, rfl⟩, ⟨q, c⟩, s₂, ⟨⟨hq, hc⟩, rfl⟩, -, s₃, ⟨hwc, rfl⟩, rfl⟩ := h
  exact ⟨q, c, hq, hc, hwc, rfl⟩

theorem cvWait_sync {cv lock : Option Ptr} {u : Unit} (h : cvWait t cv lock s = .ok u s') :
    SyncOnly s s' := by
  simp only [cvWait, bind_eq_ok, kassert_eq_ok, follow_eq_ok, modify_eq_ok] at h
  obtain ⟨⟨q, l⟩, s₁, ⟨-, rfl⟩, -, s₂, ⟨-, rfl⟩, ⟨q', c⟩, s₃, ⟨-, rfl⟩, u', s₄, hrel,
    rfl⟩ := h
  exact (lockRelease_sync hrel).trans (.setCv ..)

theorem cvBroadcast_sync {cv lock : Option Ptr} {u : Unit} (h : cvBroadcast t cv lock s = .ok u s') :
    SyncOnly s s' := by
  simp only [cvBroadcast, bind_eq_ok, kassert_eq_ok, lockDoIHold_eq_ok, follow_eq_ok,
    modify_eq_ok] at h
  obtain ⟨-, s₁, ⟨-, -, -, -, -, rfl⟩, -, s₂, ⟨-, rfl⟩, ⟨q, c⟩, s₃, ⟨-, rfl⟩, rfl⟩ := h
  exact .setCv ..

/-! ## The process table -/

/-- Everything allocated stays allocated. -/
structure Grows (s s' : Kernel) : Prop where
  next : s.next ≤ s'.next
  locks : ∀ l, s.lockHeap l ≠ none → s'.lockHeap l ≠ none
  cvs : ∀ c, s.cvHeap c ≠ none → s'.cvHeap c ≠ none

theorem lockCreate_spec {ok : Bool} {r : Option Ptr} (h : lockCreate ok s = .ok r s') :
    (r ≠ none ↔ ok = true) ∧ (∀ l ∈ r, s.next ≤ l ∧ l < s'.next) ∧ Grows s s' ∧
      s'.procHeap = s.procHeap ∧ s'.procTable = s.procTable ∧ s'.threads = s.threads ∧
      s'.kproc = s.kproc := by
  unfold lockCreate at h
  split at h
  case isTrue hok =>
    simp only [bind_eq_ok, get_eq_ok, set_eq_ok, pure_eq_ok] at h
    obtain ⟨s₁, s₂, ⟨rfl, rfl⟩, -, s₃, rfl, rfl, rfl⟩ := h
    refine ⟨by simp [hok], by simp, ⟨Nat.le_succ _, fun l hl => ?_, fun c hc => hc⟩,
      rfl, rfl, rfl, rfl⟩
    exact (SyncOnly.setLock ..).locks l hl
  case isFalse hok =>
    simp only [pure_eq_ok] at h
    obtain ⟨rfl, rfl⟩ := h
    exact ⟨by simp [hok], by simp, ⟨Nat.le_refl _, fun l hl => hl, fun c hc => hc⟩, rfl, rfl, rfl, rfl⟩

theorem cvCreate_spec {ok : Bool} {r : Option Ptr} (h : cvCreate ok s = .ok r s') :
    (r ≠ none ↔ ok = true) ∧ (∀ c ∈ r, s.next ≤ c ∧ c < s'.next) ∧ Grows s s' ∧
      s'.procHeap = s.procHeap ∧ s'.procTable = s.procTable ∧ s'.threads = s.threads ∧
      s'.kproc = s.kproc := by
  unfold cvCreate at h
  split at h
  case isTrue hok =>
    simp only [bind_eq_ok, get_eq_ok, set_eq_ok, pure_eq_ok] at h
    obtain ⟨s₁, s₂, ⟨rfl, rfl⟩, -, s₃, rfl, rfl, rfl⟩ := h
    refine ⟨by simp [hok], by simp, ⟨Nat.le_succ _, fun l hl => hl, fun c hc => ?_⟩,
      rfl, rfl, rfl, rfl⟩
    exact (SyncOnly.setCv ..).cvs c hc
  case isFalse hok =>
    simp only [pure_eq_ok] at h
    obtain ⟨rfl, rfl⟩ := h
    exact ⟨by simp [hok], by simp, ⟨Nat.le_refl _, fun l hl => hl, fun c hc => hc⟩, rfl, rfl, rfl, rfl⟩

theorem assignPidFrom_spec (procs : ℤ → Option Ptr) (n : ℕ) (i : ℤ) :
    assignPidFrom procs n i = -1 ∨
      (i ≤ assignPidFrom procs n i ∧ assignPidFrom procs n i < i + n ∧
        procs (assignPidFrom procs n i) = none) := by
  induction n generalizing i with
  | zero => exact Or.inl rfl
  | succ n ih =>
    unfold assignPidFrom
    split
    case isTrue hfree => exact Or.inr ⟨le_refl _, by omega, hfree⟩
    case isFalse =>
      rcases ih (i + 1) with hnone | ⟨hle, hlt, hfree⟩
      · exact Or.inl hnone
      · exact Or.inr ⟨by omega, by push_cast; omega, hfree⟩

/-- A pid `assign_pid` may hand out. -/
structure IsFree (s : Kernel) (pid : ℤ) : Prop where
  two_le : 2 ≤ pid
  lt : pid < pidMax
  procs : s.procTable.procs pid = none

/-- What `assign_pid` returns. -/
def Kernel.newPid (s : Kernel) : ℤ := assignPidFrom s.procTable.procs 32765 2

theorem Kernel.isFree_newPid (h : s.newPid ≠ -1) : IsFree s s.newPid := by
  rcases assignPidFrom_spec s.procTable.procs 32765 2 with hnone | ⟨hle, hlt, hfree⟩
  · exact absurd hnone h
  · exact ⟨hle, by unfold pidMax Kernel.newPid; omega, hfree⟩

theorem assignPid_spec {r : ℤ} (h : assignPid s = .ok r s') : s' = s ∧ r = s.newPid := by
  simp only [assignPid, bind_eq_ok, get_eq_ok, pure_eq_ok] at h
  obtain ⟨s₁, s₂, ⟨rfl, rfl⟩, rfl, rfl⟩ := h
  exact ⟨rfl, rfl⟩

/-- The table after `add_proc`. -/
def ProcTable.add (tbl : ProcTable) (newProc : Ptr) (pid : ℤ) (lock cv : Option Ptr) :
    ProcTable where
  procs := update tbl.procs pid (some newProc)
  exitCvs := update tbl.exitCvs pid cv
  exitLocks := update tbl.exitLocks pid lock
  activeProcs := tbl.activeProcs + 1

def ProcTable.remove (tbl : ProcTable) (pid : ℤ) : ProcTable where
  procs := update tbl.procs pid none
  exitCvs := update tbl.exitCvs pid none
  exitLocks := update tbl.exitLocks pid none
  activeProcs := tbl.activeProcs - 1

theorem addProc_spec {lockOk cvOk : Bool} {u : Unit}
    (h : addProc p pid lockOk cvOk s = .ok u s') :
    ∃ lock cv, (lock ≠ none ↔ lockOk = true) ∧ (cv ≠ none ↔ cvOk = true) ∧
      (∀ l ∈ lock, s.next ≤ l ∧ l < s'.next) ∧ (∀ c ∈ cv, s.next ≤ c ∧ c < s'.next) ∧
      Grows s s' ∧ (0 ≤ pid ∧ pid < pidMax) ∧ s'.procTable = s.procTable.add p pid lock cv ∧
      s'.procHeap = s.procHeap ∧ s'.threads = s.threads ∧ s'.kproc = s.kproc := by
  simp only [addProc, bind_eq_ok, indexed_eq_ok, modify_eq_ok] at h
  obtain ⟨-, s₁, ⟨hpid, rfl⟩, -, s₂, rfl, lock, s₃, hlock, -, s₄, rfl, cv, s₅, hcv, rfl⟩ := h
  obtain ⟨hl, hfresh, hgrow, hheap, htbl, hthr, hk⟩ := lockCreate_spec hlock
  obtain ⟨hc, hfresh', hgrow', hheap', htbl', hthr', hk'⟩ := cvCreate_spec hcv
  refine ⟨lock, cv, hl, hc, fun l hm => ?_, fun c hm => ?_, ?_, hpid, ?_, hheap'.trans hheap,
    hthr'.trans hthr, hk'.trans hk⟩
  · exact ⟨(hfresh l hm).1, Nat.lt_of_lt_of_le (hfresh l hm).2 hgrow'.next⟩
  · exact ⟨Nat.le_trans hgrow.next (hfresh' c hm).1, (hfresh' c hm).2⟩
  · exact ⟨Nat.le_trans hgrow.next hgrow'.next, fun l hl => hgrow'.locks l (hgrow.locks l hl),
      fun c hc => hgrow'.cvs c (hgrow.cvs c hc)⟩
  · simp only [Kernel.setTable, htbl', htbl, ProcTable.add]

theorem removeProc_spec {u : Unit} (h : removeProc t pid s = .ok u s') :
    ∃ l c, s.procTable.procs pid ≠ none ∧ s.procTable.exitLocks pid = some l ∧
      s.procTable.exitCvs pid = some c ∧ (0 ≤ pid ∧ pid < pidMax) ∧
      s' = ((s.setLock l none).setCv c none).setTable (s.procTable.remove pid) := by
  simp only [removeProc, bind_eq_ok, indexed_eq_ok, get_eq_ok, kassert_eq_ok, set_eq_ok,
    modify_eq_ok] at h
  obtain ⟨-, s₁, ⟨hpid, rfl⟩, s₂, s₃, ⟨rfl, rfl⟩, -, s₄, ⟨hproc, rfl⟩, -, s₅, rfl, u₁, s₆, hlock,
    -, s₇, rfl, u₂, s₈, hcv, rfl⟩ := h
  obtain ⟨l, lock, hl, -, -, -, rfl⟩ := lockDestroy_spec hlock
  obtain ⟨c, cv, hc, -, -, rfl⟩ := cvDestroy_spec hcv
  exact ⟨l, c, hproc, hl, hc, hpid, rfl⟩

/-! ## Processes -/

/-- What `proc_create` and `sys_fork` decide about a process's family and nothing else changes. -/
def Proc.kin (p : Proc) : ℤ × ℤ × LinkedList × Option Ptr :=
  (p.pPid, p.pPpid, p.pChildrenLl, p.parentProc)

theorem Proc.pPid_of_kin {P Q : Proc} (h : P.kin = Q.kin) : P.pPid = Q.pPid :=
  congrArg (fun k => k.1) h

theorem Proc.pPpid_of_kin {P Q : Proc} (h : P.kin = Q.kin) : P.pPpid = Q.pPpid :=
  congrArg (fun k => k.2.1) h

theorem Proc.children_of_kin {P Q : Proc} (h : P.kin = Q.kin) : P.pChildrenLl = Q.pChildrenLl :=
  congrArg (fun k => k.2.2.1) h

theorem Proc.parent_of_kin {P Q : Proc} (h : P.kin = Q.kin) : P.parentProc = Q.parentProc :=
  congrArg (fun k => k.2.2.2) h

/-- Processes may have gained or lost threads and address spaces; the table is as it was. -/
structure Quiet (s s' : Kernel) : Prop where
  kin : ∀ p, (s'.procHeap p).map Proc.kin = (s.procHeap p).map Proc.kin
  procTable : s'.procTable = s.procTable
  kproc : s'.kproc = s.kproc
  grows : Grows s s'

theorem Quiet.trans {s₁ s₂ s₃ : Kernel} (h₁ : Quiet s₁ s₂) (h₂ : Quiet s₂ s₃) : Quiet s₁ s₃ where
  kin := fun p => (h₂.kin p).trans (h₁.kin p)
  procTable := h₂.procTable.trans h₁.procTable
  kproc := h₂.kproc.trans h₁.kproc
  grows := ⟨Nat.le_trans h₁.grows.next h₂.grows.next,
    fun l h => h₂.grows.locks l (h₁.grows.locks l h), fun c h => h₂.grows.cvs c (h₁.grows.cvs c h)⟩

theorem Quiet.exists_proc (h : Quiet s s') {P' : Proc}
    (hP' : s'.procHeap p = some P') : ∃ P, s.procHeap p = some P ∧ P'.kin = P.kin := by
  have hkin := h.kin p
  rw [hP'] at hkin
  cases hP : s.procHeap p with
  | none => simp [hP] at hkin
  | some P => exact ⟨P, rfl, by simpa [hP] using hkin⟩

theorem SyncOnly.quiet (h : SyncOnly s s') : Quiet s s' where
  kin := fun p => by rw [h.procHeap]
  procTable := h.procTable
  kproc := h.kproc
  grows := ⟨Nat.le_of_eq h.next.symm, h.locks, h.cvs⟩

theorem Quiet.setProc {P Q : Proc} (h : s.procHeap p = some P) (hkin : Q.kin = P.kin) :
    Quiet s (s.setProc p (some Q)) := by
  refine ⟨fun p' => ?_, rfl, rfl, ⟨Nat.le_refl _, fun _ h => h, fun _ h => h⟩⟩
  by_cases hp : p' = p
  · subst hp
    simp [Kernel.setProc, h, hkin]
  · simp [Kernel.setProc, hp]

theorem procCreateBegin_spec {a : Allocs} {r : Option Ptr} (h : procCreateBegin a s = .ok r s') :
    (r = none ∧ s' = s ∧ (a.proc = true ∧ a.name = true → s.newPid = -1)) ∨
      ∃ p lock sem, r = some p ∧ s.next ≤ p ∧ p < s'.next ∧ IsFree s s.newPid ∧
        (a.proc = true ∧ a.name = true) ∧ (∀ l ∈ lock, s.next ≤ l ∧ l < s'.next) ∧
        s'.procHeap = update s.procHeap p (some (.new s.newPid ⟨[], lock⟩ sem)) ∧
        s'.procTable = s.procTable ∧ s'.threads = s.threads ∧ s'.kproc = s.kproc ∧ Grows s s' := by
  unfold procCreateBegin at h
  split at h
  case isTrue hfail =>
    obtain ⟨rfl, rfl⟩ := pure_eq_ok.mp h
    refine Or.inl ⟨rfl, rfl, fun hok => ?_⟩
    simp [hok.1, hok.2] at hfail
  case isFalse hok =>
    simp only [not_or, Bool.not_eq_false] at hok
    simp only [bind_eq_ok] at h
    obtain ⟨pid, s₁, hpid, h⟩ := h
    obtain ⟨rfl, rfl⟩ := assignPid_spec hpid
    split at h
    case isTrue hfull =>
      obtain ⟨rfl, rfl⟩ := pure_eq_ok.mp h
      exact Or.inl ⟨rfl, rfl, fun _ => hfull⟩
    case isFalse hne =>
      simp only [linkedListCreate, bind_eq_ok, get_eq_ok, set_eq_ok, pure_eq_ok] at h
      obtain ⟨children, s₂, hchildren, s₃, s₄, ⟨rfl, rfl⟩, -, s₅, rfl, rfl, rfl⟩ := h
      split at hchildren
      case isFalse => exact absurd hchildren throw_eq_ok
      case isTrue =>
        simp only [bind_eq_ok, pure_eq_ok] at hchildren
        obtain ⟨lock, s₆, hlock, rfl, rfl⟩ := hchildren
        obtain ⟨-, hfresh, hgrow, hheap, htbl, hthr, hk⟩ := lockCreate_spec hlock
        refine Or.inr ⟨s₆.next, lock, semCreate a.exitSem 0, rfl, hgrow.next, Nat.lt_succ_self _,
          Kernel.isFree_newPid hne, hok, fun l hl => ⟨(hfresh l hl).1, Nat.lt_succ_of_lt (hfresh l hl).2⟩, ?_, htbl, hthr, hk,
          ⟨Nat.le_succ_of_le hgrow.next, hgrow.locks, hgrow.cvs⟩⟩
        rw [← hheap]
        rfl

theorem procRegister_spec {a : Allocs} {u : Unit} (h : procRegister a p s = .ok u s') :
    ∃ P, s.procHeap p = some P ∧ addProc p P.pPid a.exitLock a.exitCv s = .ok u s' := by
  simp only [procRegister, bind_eq_ok, follow_eq_ok] at h
  obtain ⟨⟨q, P⟩, s₁, ⟨⟨hq, hP⟩, rfl⟩, h⟩ := h
  obtain rfl : p = q := Option.some.inj hq
  exact ⟨P, hP, h⟩

theorem threadFork_spec {tid : Option Tid} {r : Bool} (h : threadFork p tid s = .ok r s') :
    (tid = none ∧ r = false ∧ s' = s) ∨
      ∃ t', tid = some t' ∧ r = true ∧ Quiet s s' ∧
        s'.threads = update s.threads t' (some ⟨some p⟩) := by
  cases tid with
  | none =>
    simp only [threadFork, pure_eq_ok] at h
    exact Or.inl ⟨rfl, h.1.symm, h.2.symm⟩
  | some t' =>
    simp only [threadFork, bind_eq_ok, follow_eq_ok, modify_eq_ok, pure_eq_ok] at h
    obtain ⟨⟨q, P⟩, s₁, ⟨⟨hq, hP⟩, rfl⟩, -, s₂, rfl, -, s₃, rfl, rfl, rfl⟩ := h
    obtain rfl : p = q := Option.some.inj hq
    have hset : Quiet s (s.setProc p (some { P with pNumthreads := P.pNumthreads + 1 })) :=
      .setProc hP rfl
    exact Or.inr ⟨t', rfl, rfl,
      ⟨hset.kin, rfl, rfl, ⟨hset.grows.next, hset.grows.locks, hset.grows.cvs⟩⟩, rfl⟩

theorem runprogramSetas_spec {as : Ptr} {u : Unit} (h : runprogramSetas t as s = .ok u s') :
    Quiet s s' ∧ s'.threads = s.threads := by
  simp only [runprogramSetas, bind_eq_ok, get_eq_ok, follow_eq_ok, kassert_eq_ok,
    modify_eq_ok] at h
  obtain ⟨s₁, s₂, ⟨rfl, rfl⟩, ⟨q, P⟩, s₃, ⟨⟨-, hP⟩, rfl⟩, -, s₄, ⟨-, rfl⟩, rfl⟩ := h
  exact ⟨.setProc hP rfl, rfl⟩

theorem procRemthreadBegin_spec (h : procRemthreadBegin t s = .ok p s') :
    s.curproc t = some p ∧ Quiet s s' ∧ s'.threads = s.threads := by
  simp only [procRemthreadBegin, bind_eq_ok, get_eq_ok, follow_eq_ok, kassert_eq_ok, modify_eq_ok,
    pure_eq_ok] at h
  obtain ⟨s₁, s₂, ⟨rfl, rfl⟩, -, s₃, ⟨-, rfl⟩, ⟨q, P⟩, s₄, ⟨⟨hq, hP⟩, rfl⟩, -, s₅, ⟨-, rfl⟩, -, s₆,
    rfl, rfl, rfl⟩ := h
  exact ⟨hq, .setProc hP rfl, rfl⟩

theorem threadExitEnd_spec {u : Unit} (h : threadExitEnd t s = .ok u s') :
    s' = s.setThread t none := by
  simp only [threadExitEnd, bind_eq_ok, get_eq_ok, kassert_eq_ok, modify_eq_ok, set_eq_ok] at h
  obtain ⟨-, s₁, rfl, s₂, s₃, ⟨rfl, rfl⟩, -, s₄, ⟨-, rfl⟩, rfl⟩ := h
  simp [Kernel.setThread]

/-- `proc_destroy` up to its `remove_proc` changes what `removeProc` changes. -/
theorem procDestroyBegin_spec {u : Unit} (h : procDestroyBegin t p s = .ok u s') :
    p ≠ s.kproc ∧ ∃ P s₁, s.procHeap p = some P ∧ Quiet s s₁ ∧ s₁.threads = s.threads ∧
      removeProc t P.pPid s₁ = .ok u s' := by
  simp only [procDestroyBegin, bind_eq_ok, get_eq_ok, kassert_eq_ok, follow_eq_ok] at h
  obtain ⟨s₁, s₂, ⟨rfl, rfl⟩, -, s₃, ⟨hne, rfl⟩, ⟨q, P⟩, s₄, ⟨⟨hq, hP⟩, rfl⟩, h⟩ := h
  obtain rfl : p = q := Option.some.inj hq
  refine ⟨hne, P, ?_⟩
  split at h
  case isFalse => exact ⟨s, hP, (SyncOnly.refl s).quiet, rfl, h⟩
  case isTrue =>
    split at h
    case isTrue hcur =>
      simp only [procClearas, bind_eq_ok, get_eq_ok, kassert_eq_ok, follow_eq_ok,
        modify_eq_ok] at h
      obtain ⟨-, s₅, ⟨s₆, s₇, ⟨rfl, rfl⟩, -, s₈, ⟨-, rfl⟩, ⟨q, Q⟩, s₉, ⟨⟨hq, hQ⟩, rfl⟩, rfl⟩, h⟩ := h
      exact ⟨_, hP, .setProc hQ (by rfl), rfl, h⟩
    case isFalse =>
      simp only [bind_eq_ok, modify_eq_ok] at h
      obtain ⟨-, s₅, rfl, h⟩ := h
      exact ⟨_, hP, .setProc hP (by rfl), rfl, h⟩

theorem linkedListDestroy_spec {list : LinkedList} {u : Unit}
    (h : linkedListDestroy t list s = .ok u s') :
    ∃ l s₁, list.llLock = some l ∧ SyncOnly s s₁ ∧ s' = s₁.setLock l none := by
  simp only [linkedListDestroy, bind_eq_ok] at h
  obtain ⟨taken, s₁, htake, h⟩ := h
  split at h
  case isFalse => exact absurd h throw_eq_ok
  case isTrue =>
    simp only [bind_eq_ok] at h
    obtain ⟨u₁, s₂, hrel, h⟩ := h
    obtain ⟨l, lock, hl, -, -, -, rfl⟩ := lockDestroy_spec h
    exact ⟨l, s₂, hl, (lockAcquire_sync htake).trans (lockRelease_sync hrel), rfl⟩

/-- The rest of `proc_destroy` on a process whose `parent_proc` was never set. -/
theorem procDestroyEnd_spec {P : Proc} {u : Unit} (hP : s.procHeap p = some P)
    (hparent : P.parentProc = none) (h : procDestroyEnd t p s = .ok u s') :
    ∃ l s₁, P.pChildrenLl.llLock = some l ∧ P.pNumthreads = 0 ∧ SyncOnly s s₁ ∧
      s' = (s₁.setLock l none).setProc p none := by
  simp only [procDestroyEnd, bind_eq_ok, follow_eq_ok] at h
  obtain ⟨⟨q, Q⟩, s₁, ⟨⟨hq, hQ⟩, rfl⟩, h⟩ := h
  obtain rfl : p = q := Option.some.inj hq
  obtain rfl : P = Q := Option.some.inj (hP.symm.trans hQ)
  simp only [hparent, bind_eq_ok, follow_eq_ok, kassert_eq_ok, modify_eq_ok] at h
  obtain ⟨⟨q, Q⟩, s₃, ⟨⟨hq, hQ'⟩, rfl⟩, -, s₄, ⟨hthreads, rfl⟩, u₁, s₅, hsem, u₂,
    s₆, hlist, rfl⟩ := h
  obtain rfl : p = q := Option.some.inj hq
  obtain rfl : P = Q := Option.some.inj (hP.symm.trans hQ')
  have hs₅ : s₅ = s := by
    cases hexit : P.pExitSem with
    | none => simp [hexit, semDestroy] at hsem
    | some sem =>
      simp only [hexit, semDestroy, wchanDestroy_eq_ok] at hsem
      exact hsem.2.symm
  subst hs₅
  obtain ⟨l, s₁, hl, hsync, rfl⟩ := linkedListDestroy_spec hlist
  exact ⟨l, s₁, hl, hthreads, hsync, rfl⟩

theorem sysExitBegin_spec {code : ℤ} {u : Unit} (h : sysExitBegin t code s = .ok u s') :
    Quiet s s' ∧ s'.threads = s.threads := by
  simp only [sysExitBegin, bind_eq_ok, get_eq_ok] at h
  obtain ⟨s₁, s₂, ⟨rfl, rfl⟩, h⟩ := h
  cases hcur : s.curproc t with
  | none => simp only [hcur, throw_eq_ok] at h
  | some cur =>
    simp only [hcur, bind_eq_ok, follow_eq_ok, indexed_eq_ok, modify_eq_ok] at h
    obtain ⟨⟨q, P⟩, s₃, ⟨⟨hq, hP⟩, rfl⟩, -, s₄, ⟨-, rfl⟩, u₁, s₅, hcv, -, s₆, rfl, h⟩ := h
    obtain rfl : cur = q := Option.some.inj hq
    have hsync := cvBroadcast_sync hcv
    have hP' : s₅.procHeap cur = some P := by rw [hsync.procHeap]; exact hP
    have hset {Q : Proc} (hkin : Q.kin = P.kin) : Quiet s (s₅.setProc cur (some Q)) :=
      hsync.quiet.trans (.setProc hP' hkin)
    cases hparent : P.parentProc with
    | none =>
      simp only [hparent, pure_eq_ok] at h
      obtain ⟨-, rfl⟩ := h
      exact ⟨hset (by simp [Proc.kin, hparent]), hsync.threads⟩
    | some parent =>
      simp only [hparent, bind_eq_ok, follow_eq_ok, modify_eq_ok] at h
      obtain ⟨⟨q, Q⟩, s₇, ⟨⟨hq, hQ⟩, rfl⟩, rfl⟩ := h
      obtain rfl : parent = q := Option.some.inj hq
      exact ⟨(hset (by simp [Proc.kin, hparent])).trans (.setProc hQ (by rfl)), hsync.threads⟩

/-! ## `sys_fork` -/

theorem sysForkBegin_spec {a : Allocs} {r : Option Ptr} (h : sysForkBegin t a s = .ok r s') :
    (r = none ∧ s' = s ∧ ∃ q Q, s.curproc t = some q ∧ s.procHeap q = some Q ∧ Q.pAddrspace = none) ∨
      ((∃ q Q, s.curproc t = some q ∧ s.procHeap q = some Q ∧ Q.pAddrspace ≠ none) ∧
        r ≠ none ∧ procCreateBegin a s = .ok r s') := by
  simp only [sysForkBegin, bind_eq_ok, get_eq_ok, follow_eq_ok] at h
  obtain ⟨s₁, s₂, ⟨rfl, rfl⟩, ⟨q, P⟩, s₃, ⟨⟨hq, hP⟩, rfl⟩, h⟩ := h
  split at h
  case isTrue hnone =>
    obtain ⟨rfl, rfl⟩ := pure_eq_ok.mp h
    exact Or.inl ⟨rfl, rfl, q, P, hq, hP, hnone⟩
  case isFalse hsome =>
    simp only [bind_eq_ok] at h
    obtain ⟨child, s₄, hcreate, h⟩ := h
    cases child with
    | none => exact absurd h throw_eq_ok
    | some child =>
      obtain ⟨rfl, rfl⟩ := pure_eq_ok.mp h
      exact Or.inr ⟨⟨q, P, hq, hP, hsome⟩, by simp, hcreate⟩

theorem sysForkAdd_spec {lockOk cvOk : Bool} {u : Unit}
    (h : sysForkAdd t p lockOk cvOk s = .ok u s') :
    ∃ q Q P, s.curproc t = some q ∧ s.procHeap q = some Q ∧ s.procHeap p = some P ∧
      addProc p P.pPid lockOk cvOk (s.setProc p (some { P with pPpid := Q.pPid })) = .ok u s' := by
  simp only [sysForkAdd, bind_eq_ok, get_eq_ok, follow_eq_ok, modify_eq_ok] at h
  obtain ⟨s₁, s₂, ⟨rfl, rfl⟩, ⟨q, Q⟩, s₃, ⟨⟨hq, hQ⟩, rfl⟩, ⟨p', P⟩, s₄, ⟨⟨hp, hP⟩, rfl⟩, -, s₅, rfl,
    h⟩ := h
  obtain rfl : p = p' := Option.some.inj hp
  exact ⟨q, Q, P, hq, hQ, hP, h⟩

theorem sysForkEnd_spec {e : ForkEnd} {r : Bool} (h : sysForkEnd p e s = .ok r s') :
    (r = false ∧ Quiet s s' ∧ s'.threads = s.threads) ∨
      ∃ t', e.thread = some t' ∧ r = true ∧ Quiet s s' ∧
        s'.threads = update s.threads t' (some ⟨some p⟩) := by
  cases e with
  | asCopyFails =>
    obtain ⟨rfl, rfl⟩ := pure_eq_ok.mp h
    exact Or.inl ⟨rfl, (SyncOnly.refl s).quiet, rfl⟩
  | laterFails as =>
    simp only [sysForkEnd, bind_eq_ok, follow_eq_ok, modify_eq_ok, pure_eq_ok] at h
    obtain ⟨⟨q, P⟩, s₁, ⟨⟨hq, hP⟩, rfl⟩, -, s₂, rfl, rfl, rfl⟩ := h
    obtain rfl : p = q := Option.some.inj hq
    exact Or.inl ⟨rfl, .setProc hP rfl, rfl⟩
  | succeeds as tid =>
    simp only [sysForkEnd, bind_eq_ok, follow_eq_ok, modify_eq_ok] at h
    obtain ⟨⟨q, P⟩, s₁, ⟨⟨hq, hP⟩, rfl⟩, -, s₂, rfl, h⟩ := h
    obtain rfl : p = q := Option.some.inj hq
    rcases threadFork_spec h with ⟨habs, -, -⟩ | ⟨t', ht', rfl, hquiet, hthreads⟩
    · cases habs
    · exact Or.inr ⟨t', ht', rfl, (Quiet.setProc hP (by rfl)).trans hquiet, hthreads⟩

/-! ## `sys_waitpid` -/

theorem findProcess_spec {r : Option Ptr} (h : findProcess pid s = .ok r s') :
    r = s.procTable.procs pid ∧ s' = s := by
  simp only [findProcess, bind_eq_ok, indexed_eq_ok, get_eq_ok, pure_eq_ok] at h
  obtain ⟨-, s₁, ⟨-, rfl⟩, s₂, s₃, ⟨rfl, rfl⟩, rfl, rfl⟩ := h
  exact ⟨rfl, rfl⟩

theorem isListedChild_spec {r : Bool} (h : isListedChild t pid s = .ok r s') :
    s' = s ∧ ∃ q Q, s.curproc t = some q ∧ s.procHeap q = some Q ∧
      r = Q.pChildrenLl.data.contains pid := by
  simp only [isListedChild, bind_eq_ok, get_eq_ok, follow_eq_ok, pure_eq_ok] at h
  obtain ⟨s₁, s₂, ⟨rfl, rfl⟩, ⟨q, Q⟩, s₃, ⟨⟨hq, hQ⟩, rfl⟩, rfl, rfl⟩ := h
  exact ⟨rfl, q, Q, hq, hQ, rfl⟩

theorem sysWaitpidAcquire_sync {r : Option Ptr × Bool}
    (h : sysWaitpidAcquire t pid s = .ok r s') : SyncOnly s s' := by
  simp only [sysWaitpidAcquire, bind_eq_ok, indexed_eq_ok, get_eq_ok, pure_eq_ok] at h
  obtain ⟨-, s₁, ⟨-, rfl⟩, s₂, s₃, ⟨rfl, rfl⟩, taken, s₄, htake, -, rfl⟩ := h
  exact lockAcquire_sync htake

/-- `sys_waitpid` goes to sleep only for a pid it found in the caller's list. -/
theorem sysWaitpidCheck_spec {r : Bool} (h : sysWaitpidCheck t pid s = .ok r s') :
    SyncOnly s s' ∧ isListedChild t pid s = .ok r s := by
  simp only [sysWaitpidCheck, bind_eq_ok, get_eq_ok, indexed_eq_ok] at h
  obtain ⟨found, s₁, hfound, s₂, s₃, ⟨rfl, rfl⟩, -, s₄, ⟨-, rfl⟩, h⟩ := h
  obtain ⟨rfl, -⟩ := isListedChild_spec hfound
  split at h
  case isTrue htrue =>
    simp only [bind_eq_ok, pure_eq_ok] at h
    obtain ⟨u₁, s₅, hwait, rfl, rfl⟩ := h
    rw [htrue] at hfound
    exact ⟨cvWait_sync hwait, hfound⟩
  case isFalse hfalse =>
    simp only [bind_eq_ok, pure_eq_ok] at h
    obtain ⟨u₁, s₅, hrel, rfl, rfl⟩ := h
    rw [Bool.not_eq_true] at hfalse
    rw [hfalse] at hfound
    exact ⟨lockRelease_sync hrel, hfound⟩

end UnionCollegeCode.OS161
