import UnionCollegeCode.OS161.Process

/-!
# `pt_lock`

`proctable.c` with the spinlock that the sections of the process table run under, and `proc_destroy`
as `destroy_proctable` calls it. The table's own functions are put around the sections modelled
before. Along any sequence of calls two of them break the discipline: `proc_count` returns with the
lock, and `destroy_proctable` asks for it again through `proc_destroy`.
-/

set_option autoImplicit false

namespace UnionCollegeCode.OS161.TableLock

open Lib.EState

/-- Why an operation does not return. -/
inductive TableStop
  /-- For a reason that has nothing to do with `pt_lock`. -/
  | kernel (e : Stop)
  /-- The lock is acquired by the one who holds it. -/
  | deadlock
  /-- The lock is released by one who does not hold it. -/
  | notHolder
  deriving DecidableEq, Repr

structure TableState where
  kernel : Kernel
  /-- Whether `pt_lock` is held; none while `proc_table` is `NULL`. -/
  ptLock : Option Bool

abbrev TableM (α : Type) := EStateM TableStop TableState α

def onKernel {α : Type} (m : KernelM α) : TableM α := fun s =>
  match m s.kernel with
  | .ok a k => .ok a { s with kernel := k }
  | .error e k => .error (.kernel e) { s with kernel := k }

/-! ## The spinlock -/

def spinlockAcquire : TableM Unit := do
  match (← get).ptLock with
  | none => throw (.kernel .fault)
  | some true => throw .deadlock
  | some false => modify fun s => { s with ptLock := some true }

def spinlockRelease : TableM Unit := do
  match (← get).ptLock with
  | none => throw (.kernel .fault)
  | some true => modify fun s => { s with ptLock := some false }
  | some false => throw .notHolder

def spinlockCleanup : TableM Unit := do
  match (← get).ptLock with
  | none => throw (.kernel .fault)
  | some true => throw (.kernel (.kassert "splk->splk_holder == NULL"))
  | some false => pure ()

/-- From `spinlock_acquire(&proc_table->pt_lock)` to its release. -/
def withPtLock {α : Type} (m : KernelM α) : TableM α := do
  spinlockAcquire
  let a ← onKernel m
  spinlockRelease
  return a

/-! ## `proctable.c` -/

/-- `ok`: whether `kmalloc` finds memory. -/
def createProctable (ok : Bool) : TableM Unit := do
  if ok then
    modify fun s => ⟨s.kernel.setTable .empty, some false⟩
  else
    throw (.kernel (.kassert "proc_table != NULL"))

def addProc (newProc : Ptr) (pid : ℤ) (lockOk cvOk : Bool) : TableM Unit := do
  if (← get).ptLock = none then
    throw (.kernel (.kassert "proc_table != NULL"))
  withPtLock (OS161.addProc newProc pid lockOk cvOk)

def removeProc (t : Tid) (pid : ℤ) : TableM Unit := withPtLock (OS161.removeProc t pid)

def findProcess (pid : ℤ) : TableM (Option Ptr) := withPtLock (OS161.findProcess pid)

/-- Each of its two ways out releases the lock. -/
def assignPid : TableM ℤ := withPtLock OS161.assignPid

/-- The release stands behind the `return`. -/
def procCount : TableM ℤ := do
  spinlockAcquire
  return (← get).kernel.procTable.activeProcs

/-- `proc_destroy` up to its `remove_proc`, whose argument it returns. -/
def procDestroyHead (t : Tid) (proc : Ptr) : KernelM ℤ := do
  let s ← get
  kassert (proc ≠ s.kproc) "proc != kproc"
  let (_, p) ← follow Kernel.procHeap (some proc)
  if p.pAddrspace.isSome then
    if s.curproc t = some proc then
      procClearas t
    else
      modify fun s => s.setProc proc (some { p with pAddrspace := none })
  return p.pPid

def procDestroy (t : Tid) (proc : Ptr) : TableM Unit := do
  let pid ← onKernel (procDestroyHead t proc)
  removeProc t pid
  onKernel (procDestroyEnd t proc)

/-- The body of the loop in `destroy_proctable`, where `procs[i]` is not `NULL`. -/
def destroySlot (t : Tid) (i : ℤ) (proc : Ptr) : TableM Unit := do
  procDestroy t proc
  onKernel do
    let s ← get
    lockDestroy t (s.procTable.exitLocks i)
    let s ← get
    cvDestroy (s.procTable.exitCvs i)
    modify fun s => s.setTable { s.procTable with
      procs := Function.update s.procTable.procs i none
      exitLocks := Function.update s.procTable.exitLocks i none
      exitCvs := Function.update s.procTable.exitCvs i none }

/-- The loop over so many slots from `i` on. -/
def destroyFrom (t : Tid) : ℕ → ℤ → TableM Unit
  | 0, _ => pure ()
  | n + 1, i => do
    match (← get).kernel.procTable.procs i with
    | none => pure ()
    | some proc => destroySlot t i proc
    destroyFrom t n (i + 1)

def destroyProctable (t : Tid) : TableM Unit := do
  spinlockAcquire
  destroyFrom t pidMax.toNat 0
  spinlockRelease
  spinlockCleanup
  modify fun s => { s with ptLock := none }

inductive TableOp
  | create (ok : Bool)
  | add (newProc : Ptr) (pid : ℤ) (lockOk cvOk : Bool)
  | remove (pid : ℤ)
  | find (pid : ℤ)
  | assign
  | count
  | destroy
  deriving DecidableEq, Repr

def TableOp.run (t : Tid) : TableOp → TableM Unit
  | .create ok => createProctable ok
  | .add newProc pid lockOk cvOk => addProc newProc pid lockOk cvOk
  | .remove pid => removeProc t pid
  | .find pid => do let _ ← findProcess pid
  | .assign => do let _ ← assignPid
  | .count => do let _ ← procCount
  | .destroy => destroyProctable t

/-! ## The discipline -/

/-- The lock is not held. -/
def TableState.Free (s : TableState) : Prop := s.ptLock ≠ some true

/-- The discipline was not what was broken. -/
def TableStop.Elsewhere (e : TableStop) : Prop := ∃ e', e = .kernel e'

/-- No call acquires the lock twice or releases it without holding it, and each that returns leaves
it free. -/
def Disciplined (t : Tid) : List TableOp → TableState → Prop
  | [], _ => True
  | op :: ops, s => wp (op.run t) (fun _ s' => s'.Free ∧ Disciplined t ops s')
      (fun e _ => e.Elsewhere) s

/-- `p` is in the first slot in use, of the `n` from `i` on. -/
def FirstFrom (procs : ℤ → Option Ptr) (i : ℤ) (n : ℕ) (p : Ptr) : Prop :=
  ∃ j, i ≤ j ∧ j < i + n ∧ procs j = some p ∧ ∀ j', i ≤ j' → j' < j → procs j' = none

/-- A process that `proc_destroy` gets to take out of the table. -/
def Destroyable (k : Kernel) (p : Ptr) : Prop := p ≠ k.kproc ∧ k.procHeap p ≠ none

/-- The calls after which the lock is as it should be. -/
def Harmless (s : TableState) : TableOp → Prop
  | .count => s.ptLock = none
  | .destroy => s.ptLock = none ∨ ∀ p, FirstFrom s.kernel.procTable.procs 0 pidMax.toNat p →
      ¬ Destroyable s.kernel p
  | _ => True

def AllHarmless (t : Tid) : List TableOp → TableState → Prop
  | [], _ => True
  | op :: ops, s => Harmless s op ∧ wp (op.run t) (fun _ s' => AllHarmless t ops s')
      (fun _ _ => True) s

variable {α : Type} {t : Tid} {s : TableState} {m : KernelM α} {op : TableOp} {ops : List TableOp}

/-- It is the `proc_destroy` of the process functions, cut at its `remove_proc`. -/
theorem procDestroyBegin_eq {p : Ptr} :
    procDestroyBegin t p = procDestroyHead t p >>= OS161.removeProc t := by
  simp only [procDestroyBegin, procDestroyHead, bind_assoc]
  refine bind_congr fun s => bind_congr fun _ => bind_congr fun q => ?_
  split
  · split <;> simp only [bind_assoc, pure_bind]
  · simp only [pure_bind]

/-! ## Sections -/

theorem spinlockAcquire_free (h : s.ptLock = some false) :
    spinlockAcquire s = .ok () { s with ptLock := some true } := by
  simp only [spinlockAcquire, bind_ok get_ok, h]
  rfl

theorem spinlockAcquire_held (h : s.ptLock = some true) :
    spinlockAcquire s = .error .deadlock s := by
  simp only [spinlockAcquire, bind_ok get_ok, h]
  rfl

theorem spinlockAcquire_null (h : s.ptLock = none) :
    spinlockAcquire s = .error (.kernel .fault) s := by
  simp only [spinlockAcquire, bind_ok get_ok, h]
  rfl

theorem spinlockRelease_held (h : s.ptLock = some true) :
    spinlockRelease s = .ok () { s with ptLock := some false } := by
  simp only [spinlockRelease, bind_ok get_ok, h]
  rfl

/-- What runs on the kernel alone does not touch the lock. -/
theorem wp_onKernel {Q : α → TableState → Prop} {E : TableStop → TableState → Prop}
    (hQ : ∀ a k, Q a { s with kernel := k }) (hE : ∀ e k, E (.kernel e) { s with kernel := k }) :
    wp (onKernel m) Q E s := by
  cases hm : m s.kernel with
  | ok a k =>
    have hrun : onKernel m s = .ok a { s with kernel := k } := by simp only [onKernel, hm]
    exact (wp_of_ok hrun).mpr (hQ a k)
  | error e k =>
    have hrun : onKernel m s = .error (.kernel e) { s with kernel := k } := by
      simp only [onKernel, hm]
    exact (wp_of_error hrun).mpr (hE e k)

/-- What is asked of one call. -/
def Keeps {β : Type} (prog : TableM β) (s : TableState) : Prop :=
  wp prog (fun _ s' => s'.Free) (fun e _ => e.Elsewhere) s

theorem free_cases (h : s.Free) : s.ptLock = none ∨ s.ptLock = some false := by
  obtain ⟨kernel, lock⟩ := s
  cases lock with
  | none => exact .inl rfl
  | some b =>
    cases b with
    | false => exact .inr rfl
    | true => exact absurd rfl h

theorem free_of_none (h : s.ptLock = none) : s.Free := by
  rw [TableState.Free, h]
  exact (Option.some_ne_none true).symm

theorem elsewhere_kernel (e : Stop) : (TableStop.kernel e).Elsewhere := ⟨e, rfl⟩

theorem withPtLock_keeps (h : s.Free) : Keeps (withPtLock m) s := by
  rcases free_cases h with hnull | hfree
  · have hrun : withPtLock m s = .error (.kernel .fault) s := bind_error (spinlockAcquire_null hnull)
    exact (wp_of_error hrun).mpr (elsewhere_kernel _)
  · rw [Keeps, withPtLock, wp_bind, wp_of_ok (spinlockAcquire_free hfree), wp_bind]
    refine wp_onKernel (fun a k => ?_) (fun e k => elsewhere_kernel e)
    rw [wp_bind, wp_of_ok (spinlockRelease_held rfl), wp_pure]
    exact Bool.noConfusion ∘ Option.some.inj

theorem withPtLock_held (h : s.ptLock = some true) : withPtLock m s = .error .deadlock s :=
  bind_error (spinlockAcquire_held h)

/-! ## `destroy_proctable` -/

variable {k : Kernel} {p : Ptr} {i : ℤ} {n : ℕ}

theorem follow_ok {β : Type} {heap : Kernel → Ptr → Option β} {b : β} (h : heap k p = some b) :
    follow heap (some p) k = .ok (p, b) k := follow_eq_ok.mpr ⟨⟨rfl, h⟩, rfl⟩

theorem kassert_ok {c : Prop} [Decidable c] {expr : String} (h : c) :
    kassert c expr k = .ok () k := kassert_eq_ok.mpr ⟨h, rfl⟩

theorem procClearas_ok {P : Proc} (hcur : k.curproc t = some p) (hP : k.procHeap p = some P) :
    procClearas t k = .ok () (k.setProc p (some { P with pAddrspace := none })) := by
  rw [procClearas, bind_ok get_ok, bind_ok (kassert_ok (by rw [hcur]; simp))]
  rw [hcur, bind_ok (follow_ok hP)]
  rfl

theorem procDestroyHead_of_destroyable (h : Destroyable k p) :
    wp (procDestroyHead t p) (fun _ _ => True) (fun _ _ => False) k := by
  obtain ⟨hne, hp⟩ := h
  obtain ⟨P, hP⟩ := Option.ne_none_iff_exists'.mp hp
  rw [procDestroyHead, wp_bind, wp_get, wp_bind, wp_of_ok (kassert_ok hne), wp_bind,
    wp_of_ok (follow_ok hP)]
  dsimp only
  split
  · split
    · rename_i hcur
      rw [wp_bind, wp_of_ok (procClearas_ok hcur hP)]
      trivial
    · trivial
  · trivial

theorem procDestroyHead_of_not (h : ¬ Destroyable k p) :
    wp (procDestroyHead t p) (fun _ _ => False) (fun _ _ => True) k := by
  rw [procDestroyHead, wp_bind, wp_get, wp_bind, kassert]
  split
  · rename_i hne
    have hP : k.procHeap p = none := by
      by_contra hP
      exact h ⟨hne, hP⟩
    rw [wp_pure, wp_bind, follow, wp_bind, wp_get]
    simp only [hP]
    trivial
  · trivial

/-- `proc_destroy` is called with the lock, and asks for it. -/
theorem destroySlot_stops (h : s.ptLock = some true) : ∃ e s', destroySlot t i p s = .error e s' ∧
    (e.Elsewhere ↔ ¬ Destroyable s.kernel p) := by
  cases hm : procDestroyHead t p s.kernel with
  | ok pid k =>
    have hhead : onKernel (procDestroyHead t p) s = .ok pid { s with kernel := k } := by
      simp only [onKernel, hm]
    have hremove : procDestroy t p s = .error .deadlock { s with kernel := k } :=
      (bind_ok hhead).trans (bind_error (withPtLock_held h))
    refine ⟨.deadlock, _, bind_error hremove, iff_of_false (fun he => nomatch he.choose_spec) ?_⟩
    intro hnot
    exact (wp_of_ok hm).mp (procDestroyHead_of_not hnot)
  | error e k =>
    have hhead : onKernel (procDestroyHead t p) s = .error (.kernel e) { s with kernel := k } := by
      simp only [onKernel, hm]
    refine ⟨.kernel e, _, bind_error (bind_error hhead), iff_of_true (elsewhere_kernel e) ?_⟩
    intro hdestroyable
    exact (wp_of_error hm).mp (procDestroyHead_of_destroyable hdestroyable)

theorem firstFrom_succ {procs : ℤ → Option Ptr} : FirstFrom procs i (n + 1) p ↔
    procs i = some p ∨ procs i = none ∧ FirstFrom procs (i + 1) n p := by
  constructor
  · rintro ⟨j, hij, hjn, hp, hbefore⟩
    rcases Int.lt_or_eq_of_le hij with hlt | rfl
    · refine .inr ⟨hbefore i (Int.le_refl i) hlt, j, hlt, by omega, hp, ?_⟩
      intro j' hj'
      exact hbefore j' (by omega)
    · exact .inl hp
  · rintro (hp | ⟨hnone, j, hij, hjn, hp, hbefore⟩)
    · exact ⟨i, Int.le_refl i, by omega, hp, fun j' hle hlt => absurd hlt (Int.not_lt.mpr hle)⟩
    · refine ⟨j, by omega, by omega, hp, ?_⟩
      intro j' hij' hlt
      rcases Int.lt_or_eq_of_le hij' with hlt' | rfl
      · exact hbefore j' hlt' hlt
      · exact hnone

/-- The loop comes to its end on an empty table only. -/
theorem destroyFrom_outcome (h : s.ptLock = some true) :
    (destroyFrom t n i s = .ok () s ∧ ∀ p, ¬ FirstFrom s.kernel.procTable.procs i n p) ∨
    ∃ e s', destroyFrom t n i s = .error e s' ∧
      (e.Elsewhere ↔ ∀ p, FirstFrom s.kernel.procTable.procs i n p → ¬ Destroyable s.kernel p) := by
  induction n generalizing i with
  | zero =>
    refine .inl ⟨rfl, ?_⟩
    rintro p ⟨j, hij, hjn, -⟩
    omega
  | succ n ih =>
    simp only [firstFrom_succ, destroyFrom, bind_ok get_ok]
    cases hp : s.kernel.procTable.procs i with
    | none => simpa using ih
    | some p =>
      obtain ⟨e, s', hstop, hiff⟩ := destroySlot_stops (t := t) (i := i) (p := p) h
      refine .inr ⟨e, s', bind_error hstop, hiff.trans ?_⟩
      simp

theorem destroyProctable_iff (h : s.Free) : Keeps (destroyProctable t) s ↔ Harmless s .destroy := by
  rcases free_cases h with hnull | hfree
  · have hrun : destroyProctable t s = .error (.kernel .fault) s :=
      bind_error (spinlockAcquire_null hnull)
    exact iff_of_true ((wp_of_error hrun).mpr (elsewhere_kernel _)) (.inl hnull)
  · have hnot : s.ptLock ≠ none := by rw [hfree]; simp
    rw [Keeps, destroyProctable, wp_bind, wp_of_ok (spinlockAcquire_free hfree), wp_bind]
    simp only [Harmless, hnot, false_or]
    rcases destroyFrom_outcome (t := t) (i := 0) (n := pidMax.toNat)
      (s := { s with ptLock := some true }) rfl with ⟨hrun, hempty⟩ | ⟨e, s', hrun, hiff⟩
    · rw [wp_of_ok hrun, wp_bind, wp_of_ok (spinlockRelease_held rfl)]
      exact iff_of_true (free_of_none rfl) fun p hp => absurd hp (hempty p)
    · rw [wp_of_error hrun]
      exact hiff

/-! ## Any sequence of calls -/

theorem procCount_iff (h : s.Free) : Keeps procCount s ↔ Harmless s .count := by
  rcases free_cases h with hnull | hfree
  · have hrun : procCount s = .error (.kernel .fault) s := bind_error (spinlockAcquire_null hnull)
    exact iff_of_true ((wp_of_error hrun).mpr (elsewhere_kernel _)) hnull
  · rw [Keeps, procCount, wp_bind, wp_of_ok (spinlockAcquire_free hfree)]
    refine iff_of_false (fun hkept => hkept rfl) ?_
    rw [Harmless, hfree]
    exact Option.some_ne_none false

theorem keeps_discard {β : Type} {prog : TableM β} :
    Keeps (do let _ ← prog; pure ()) s ↔ Keeps prog s := by
  rw [Keeps, wp_bind]
  rfl

theorem addProc_keeps {newProc : Ptr} {pid : ℤ} {lockOk cvOk : Bool} (h : s.Free) :
    Keeps (addProc newProc pid lockOk cvOk) s := by
  rw [Keeps, addProc, wp_bind, wp_get]
  split
  · exact elsewhere_kernel _
  · exact withPtLock_keeps h

/-- One call from a state in which the lock is free. -/
theorem run_keeps_iff (h : s.Free) : Keeps (op.run t) s ↔ Harmless s op := by
  cases op with
  | create ok =>
    refine iff_of_true ?_ trivial
    cases ok with
    | false => exact elsewhere_kernel _
    | true => exact Bool.noConfusion ∘ Option.some.inj
  | add newProc pid lockOk cvOk => exact iff_of_true (addProc_keeps h) trivial
  | remove pid => exact iff_of_true (withPtLock_keeps h) trivial
  | find pid => exact iff_of_true (keeps_discard.mpr (withPtLock_keeps h)) trivial
  | assign => exact iff_of_true (keeps_discard.mpr (withPtLock_keeps h)) trivial
  | count => exact keeps_discard.trans (procCount_iff h)
  | destroy => exact destroyProctable_iff h

theorem disciplined_iff (h : s.Free) : Disciplined t ops s ↔ AllHarmless t ops s := by
  induction ops generalizing s with
  | nil => exact Iff.rfl
  | cons op ops ih =>
    have hstep : Keeps (op.run t) s ↔ Harmless s op := run_keeps_iff h
    rw [Disciplined, AllHarmless, ← hstep, Keeps]
    cases hrun : op.run t s with
    | ok u s' =>
      simp only [wp_of_ok hrun]
      constructor
      · rintro ⟨hfree, hrest⟩
        exact ⟨hfree, (ih hfree).mp hrest⟩
      · rintro ⟨hfree, hrest⟩
        exact ⟨hfree, (ih hfree).mpr hrest⟩
    | error e s' => simp only [wp_of_error hrun, and_true]

/-- Before `create_proctable`. -/
def noTable : TableState := ⟨.empty, none⟩

theorem disciplined_iff_boot : noTable.Free ∧
    (Disciplined 0 [.create true, .assign, .find 2] noTable ↔
      AllHarmless 0 [.create true, .assign, .find 2] noTable) :=
  ⟨free_of_none rfl, disciplined_iff (free_of_none rfl)⟩

/-- A new table, its processes counted. -/
theorem count_keeps_lock : ¬ Disciplined 0 [.create true, .count] noTable := by
  intro hdisciplined
  obtain ⟨-, hheld, -⟩ := hdisciplined
  exact hheld rfl

end UnionCollegeCode.OS161.TableLock
