import UnionCollegeCode.OS161.Process

/-!
# Where `sys_waitpid` reaches into the process table

`waitpid.c` and `find_process` again, with each access to `procs`, `exit_locks` and `exit_cvs`
recorded before it is made. Between two sections of the call the other threads may leave the kernel
in any state: the slot may be emptied, or filled again. The pid that the user passes is the index of
every access, and nothing looks whether it is one.
-/

set_option autoImplicit false

namespace UnionCollegeCode.OS161.WaitpidBounds

open Lib.EState

inductive TableArray
  | procs
  | exitLocks
  | exitCvs
  deriving DecidableEq, Repr

def TableArray.of : TableArray → ProcTable → ℤ → Option Ptr
  | .procs => ProcTable.procs
  | .exitLocks => ProcTable.exitLocks
  | .exitCvs => ProcTable.exitCvs

structure Access where
  array : TableArray
  index : ℤ
  deriving DecidableEq, Repr

structure Logged where
  kernel : Kernel
  accesses : List Access

abbrev LoggedM (α : Type) := EStateM Stop Logged α

def onKernel {α : Type} (m : KernelM α) : LoggedM α :=
  zoom Logged.kernel (fun s k => { s with kernel := k }) m

/-- `array[i]`. Outside the array there is nothing the source says. -/
def readAt (array : TableArray) (i : ℤ) : LoggedM (Option Ptr) := do
  modify fun s => { s with accesses := s.accesses ++ [⟨array, i⟩] }
  onKernel (indexed i)
  return array.of (← get).kernel.procTable i

/-- A slot that is in use is read twice. -/
def findProcess (pid : ℤ) : LoggedM (Option Ptr) := do
  match ← readAt .procs pid with
  | none => return none
  | some _ => readAt .procs pid

def acquireExitLock (t : Tid) (pid : ℤ) : LoggedM (Option Ptr × Bool) := do
  let lock ← readAt .exitLocks pid
  let taken ← onKernel (lockAcquire t lock)
  return (lock, taken)

/-- The walk over the children, and `cv_wait` up to where it sleeps, or `-ECHILD`; `some` of the
lock that `cv_wait` will take again. -/
def checkChild (t : Tid) (pid : ℤ) : LoggedM (Option (Option Ptr)) := do
  if ← onKernel (isListedChild t pid) then
    let cv ← readAt .exitCvs pid
    let lock ← readAt .exitLocks pid
    onKernel (cvWait t cv lock)
    return some lock
  else
    let lock ← readAt .exitLocks pid
    onKernel (lockRelease t lock)
    return none

def finish (t : Tid) (pid : ℤ) : LoggedM ℤ := do
  let lock ← readAt .exitLocks pid
  onKernel (lockRelease t lock)
  return pid

/-! ## The call -/

/-- Where the thread is in its `sys_waitpid`. -/
inductive Place
  | entry
  | found
  | acquiring (lock : Option Ptr)
  | locked
  /-- In `cv_wait`, asleep or woken. -/
  | waiting (lock : Option Ptr)
  | reacquiring (lock : Option Ptr)
  | woken
  | returned (r : ℤ)
  | stopped (e : Stop)
  deriving DecidableEq, Repr

/-- One section of `sys_waitpid(pid, status, options)`. -/
def section_ (t : Tid) (pid options : ℤ) : Place → LoggedM Place
  | .entry => do
    if options ≠ 0 then
      return .returned (-EINVAL)
    else
      match ← findProcess pid with
      | none => return .returned (-ESRCH)
      | some _ => return .found
  | .found => do
    let (lock, taken) ← acquireExitLock t pid
    return if taken then .locked else .acquiring lock
  | .acquiring lock => do
    let taken ← onKernel (lockTake t lock)
    return if taken then .locked else .acquiring lock
  | .locked => do
    match ← checkChild t pid with
    | some lock => return .waiting lock
    | none => return .returned (-ECHILD)
  | .waiting lock => do
    let taken ← onKernel (lockAcquire t lock)
    return if taken then .woken else .reacquiring lock
  | .reacquiring lock => do
    let taken ← onKernel (lockTake t lock)
    return if taken then .woken else .reacquiring lock
  | .woken => return .returned (← finish t pid)
  | .returned r => return .returned r
  | .stopped e => return .stopped e

/-- What a call made in the state `k` comes through. -/
inductive Runs (t : Tid) (pid options : ℤ) (k : Kernel) : Logged → Place → Prop
  | call : Runs t pid options k ⟨k, []⟩ .entry
  | goesOn {s s' : Logged} {p p' : Place} (h : Runs t pid options k s p)
      (hrun : section_ t pid options p s = .ok p' s') : Runs t pid options k s' p'
  | stops {s s' : Logged} {p : Place} {e : Stop} (h : Runs t pid options k s p)
      (hrun : section_ t pid options p s = .error e s') : Runs t pid options k s' (.stopped e)
  | others {s : Logged} {p : Place} (h : Runs t pid options k s p) (k' : Kernel) :
      Runs t pid options k { s with kernel := k' } p

/-- The pid names a process. -/
def Names (k : Kernel) (pid : ℤ) : Prop :=
  (0 ≤ pid ∧ pid < pidMax) ∧ k.procTable.procs pid ≠ none

structure PidBounds (t : Tid) (pid options : ℤ) (k : Kernel) : Prop where
  in_bounds : ∀ s p, Runs t pid options k s p → ∀ a ∈ s.accesses, 0 ≤ a.index ∧ a.index < pidMax
  esrch : ¬ Names k pid → ∃ s', section_ t pid options .entry ⟨k, []⟩ = .ok (.returned (-ESRCH)) s' ∧
    s'.kernel = k

variable {t : Tid} {pid options : ℤ} {k : Kernel} {s s' : Logged} {p : Place}

/-! ## The sections without their record -/

/-- What is left of a run on the kernel. -/
def forget {α : Type} : EStateM.Result Stop Logged α → EStateM.Result Stop Kernel α
  | .ok a s => .ok a s.kernel
  | .error e s => .error e s.kernel

/-- `m` is `m'` with a record of the accesses. -/
def Records {α : Type} (m : LoggedM α) (m' : KernelM α) : Prop := ∀ s, forget (m s) = m' s.kernel

variable {α β : Type}

theorem records_pure (a : α) : Records (pure a) (pure a) := fun _ => rfl

theorem records_onKernel (m : KernelM α) : Records (onKernel m) m := by
  intro s
  cases hm : m s.kernel with
  | ok a k =>
    have hrun : onKernel m s = .ok a { s with kernel := k } := by rw [onKernel, zoom, hm]
    rw [hrun, forget]
  | error e k =>
    have hrun : onKernel m s = .error e { s with kernel := k } := by rw [onKernel, zoom, hm]
    rw [hrun, forget]

theorem Records.bind {m : LoggedM α} {m' : KernelM α} {f : α → LoggedM β} {f' : α → KernelM β}
    (hm : Records m m') (hf : ∀ a, Records (f a) (f' a)) : Records (m >>= f) (m' >>= f') := by
  intro s
  have hs := hm s
  cases hrun : m s with
  | ok a s₁ =>
    rw [hrun, forget] at hs
    rw [bind_ok hrun, bind_ok hs.symm]
    exact hf a s₁
  | error e s₁ =>
    rw [hrun, forget] at hs
    rw [bind_error hrun, bind_error hs.symm, forget]

/-- The read itself. -/
def elementAt (array : TableArray) (i : ℤ) : KernelM (Option Ptr) := do
  indexed i
  let s ← get
  return array.of s.procTable i

theorem records_readAt (array : TableArray) (i : ℤ) :
    Records (readAt array i) (elementAt array i) := by
  have hlog : Records (modify fun s : Logged => { s with accesses := s.accesses ++ [⟨array, i⟩] })
      (pure ⟨⟩) := fun _ => rfl
  have helement : Records (do return array.of (← get).kernel.procTable i) (do
      let s ← get
      return array.of s.procTable i) := fun _ => rfl
  exact hlog.bind fun _ => (records_onKernel (indexed i)).bind fun _ => helement

theorem indexed_ok {i : ℤ} (h : 0 ≤ i ∧ i < pidMax) : indexed i k = .ok () k :=
  indexed_eq_ok.mpr ⟨h, rfl⟩

theorem elementAt_ok {array : TableArray} {i : ℤ} (h : 0 ≤ i ∧ i < pidMax) :
    elementAt array i k = .ok (array.of k.procTable i) k := by
  rw [elementAt, bind_ok (indexed_ok h)]
  rfl

theorem indexed_error {i : ℤ} (h : ¬ (0 ≤ i ∧ i < pidMax)) : indexed i k = .error .fault k := by
  rw [indexed, if_neg h]
  rfl

/-- Reading the slot once more changes nothing. -/
theorem findProcess_records : Records (findProcess pid) (OS161.findProcess pid) := by
  have htwice : Records (findProcess pid) (do
      match ← elementAt .procs pid with
      | none => return none
      | some _ => elementAt .procs pid) := by
    refine (records_readAt .procs pid).bind fun proc => ?_
    cases proc with
    | none => exact records_pure _
    | some _ => exact records_readAt .procs pid
  intro s
  rw [htwice s]
  by_cases hi : 0 ≤ pid ∧ pid < pidMax
  · rw [OS161.findProcess, bind_ok (elementAt_ok hi), bind_ok (indexed_ok hi)]
    show _ = EStateM.Result.ok (s.kernel.procTable.procs pid) s.kernel
    cases hproc : TableArray.of .procs s.kernel.procTable pid with
    | none => exact congrArg (EStateM.Result.ok · s.kernel) hproc.symm
    | some q => exact elementAt_ok hi
  · rw [OS161.findProcess, elementAt, bind_error (bind_error (indexed_error hi)),
      bind_error (indexed_error hi)]

theorem acquireExitLock_records : Records (acquireExitLock t pid) (sysWaitpidAcquire t pid) := by
  have h : Records (acquireExitLock t pid) (do
      let lock ← elementAt .exitLocks pid
      let taken ← lockAcquire t lock
      return (lock, taken)) :=
    (records_readAt .exitLocks pid).bind fun _ => (records_onKernel _).bind fun _ => records_pure _
  simp only [elementAt, bind_assoc, pure_bind] at h
  exact h

theorem finish_records : Records (finish t pid) (sysWaitpidEnd t pid) := by
  have h : Records (finish t pid) (do
      let lock ← elementAt .exitLocks pid
      lockRelease t lock
      return pid) :=
    (records_readAt .exitLocks pid).bind fun _ => (records_onKernel _).bind fun _ => records_pure _
  intro s
  rw [h s, sysWaitpidEnd, bind_ok get_ok]
  by_cases hi : 0 ≤ pid ∧ pid < pidMax
  · rw [bind_ok (elementAt_ok hi), bind_ok (indexed_ok hi)]
    rfl
  · rw [elementAt, bind_error (bind_error (indexed_error hi)), bind_error (indexed_error hi)]

theorem checkChild_records :
    Records (Option.isSome <$> checkChild t pid) (sysWaitpidCheck t pid) := by
  have h : Records (Option.isSome <$> checkChild t pid) (do
      if ← isListedChild t pid then
        let cv ← elementAt .exitCvs pid
        let lock ← elementAt .exitLocks pid
        cvWait t cv lock
        return true
      else
        let lock ← elementAt .exitLocks pid
        lockRelease t lock
        return false) := by
    rw [map_eq_pure_bind, checkChild, bind_assoc]
    refine (records_onKernel _).bind fun listed => ?_
    split
    · simp only [bind_assoc, pure_bind]
      exact (records_readAt _ _).bind fun _ => (records_readAt _ _).bind fun _ =>
        (records_onKernel _).bind fun _ => records_pure _
    · simp only [bind_assoc, pure_bind]
      exact (records_readAt _ _).bind fun _ => (records_onKernel _).bind fun _ => records_pure _
  intro s
  rw [h s, sysWaitpidCheck]
  cases hlisted : isListedChild t pid s.kernel with
  | error e k => rw [bind_error hlisted, bind_error hlisted]
  | ok listed k =>
    rw [bind_ok hlisted, bind_ok hlisted, bind_ok get_ok]
    by_cases hi : 0 ≤ pid ∧ pid < pidMax
    · rw [bind_ok (indexed_ok hi)]
      cases listed with
      | false => exact bind_ok (elementAt_ok hi)
      | true => exact (bind_ok (elementAt_ok hi)).trans (bind_ok (elementAt_ok hi))
    · rw [bind_error (indexed_error hi)]
      cases listed with
      | false => exact bind_error (bind_error (indexed_error hi))
      | true => exact bind_error (bind_error (indexed_error hi))

/-! ## The accesses -/

/-- Every access so far was to the slot of the pid. -/
def AllAt (pid : ℤ) (s : Logged) : Prop := ∀ a ∈ s.accesses, a.index = pid

theorem readAt_maintains (array : TableArray) : Maintains (AllAt pid) (readAt array pid) := by
  refine .bind ?_ fun _ => .bind (maintains_zoom fun _ _ h => h) fun _ => .bind ?_ fun _ =>
    maintains_pure _
  · intro s hs a ha
    rcases List.mem_append.mp ha with ha | ha
    · exact hs a ha
    · rw [List.mem_singleton.mp ha]
  · exact fun _ h => h

theorem onKernel_maintains (m : KernelM α) : Maintains (AllAt pid) (onKernel m) :=
  maintains_zoom fun _ _ h => h

theorem findProcess_maintains : Maintains (AllAt pid) (findProcess pid) := by
  refine .bind (readAt_maintains _) fun proc => ?_
  cases proc with
  | none => exact maintains_pure _
  | some _ => exact readAt_maintains _

theorem checkChild_maintains : Maintains (AllAt pid) (checkChild t pid) := by
  refine .bind (onKernel_maintains _) fun listed => ?_
  split
  · exact .bind (readAt_maintains _) fun _ => .bind (readAt_maintains _) fun _ =>
      .bind (onKernel_maintains _) fun _ => maintains_pure _
  · exact .bind (readAt_maintains _) fun _ => .bind (onKernel_maintains _) fun _ =>
      maintains_pure _

theorem section_maintains : Maintains (AllAt pid) (section_ t pid options p) := by
  cases p with
  | entry =>
    rw [section_]
    split
    · exact maintains_pure _
    · refine .bind findProcess_maintains fun proc => ?_
      cases proc with
      | none => exact maintains_pure _
      | some _ => exact maintains_pure _
  | found =>
    exact .bind (.bind (readAt_maintains _) fun _ => .bind (onKernel_maintains _) fun _ =>
      maintains_pure _) fun _ => maintains_pure _
  | acquiring lock => exact .bind (onKernel_maintains _) fun _ => maintains_pure _
  | locked =>
    refine .bind checkChild_maintains fun lock => ?_
    cases lock with
    | none => exact maintains_pure _
    | some _ => exact maintains_pure _
  | waiting lock => exact .bind (onKernel_maintains _) fun _ => maintains_pure _
  | reacquiring lock => exact .bind (onKernel_maintains _) fun _ => maintains_pure _
  | woken =>
    exact .bind (.bind (readAt_maintains _) fun _ => .bind (onKernel_maintains _) fun _ =>
      maintains_pure _) fun _ => maintains_pure _
  | returned r => exact maintains_pure _
  | stopped e => exact maintains_pure _

theorem Runs.allAt (h : Runs t pid options k s p) : AllAt pid s := by
  induction h with
  | call => exact fun a ha => nomatch ha
  | goesOn _ hrun ih => exact (wp_of_ok hrun).mp (section_maintains _ ih)
  | stops _ hrun ih => exact (wp_of_error hrun).mp (section_maintains _ ih)
  | others _ _ ih => exact ih

/-- With options the call is over before it looks at the table. -/
theorem Runs.of_options (h : Runs t pid options k s p) (hoptions : options ≠ 0) :
    s.accesses = [] ∧ (p = .entry ∨ p = .returned (-EINVAL)) := by
  induction h with
  | call => exact ⟨rfl, .inl rfl⟩
  | goesOn _ hrun ih =>
    obtain ⟨hnone, rfl | rfl⟩ := ih
    · rw [section_, if_pos hoptions] at hrun
      obtain ⟨rfl, rfl⟩ := pure_eq_ok.mp hrun
      exact ⟨hnone, .inr rfl⟩
    · obtain ⟨rfl, rfl⟩ := pure_eq_ok.mp hrun
      exact ⟨hnone, .inr rfl⟩
  | stops _ hrun ih =>
    obtain ⟨-, rfl | rfl⟩ := ih
    · rw [section_, if_pos hoptions] at hrun
      cases hrun
    · cases hrun
  | others _ _ ih => exact ih

theorem readAt_ok {array : TableArray} {i : ℤ} (h : 0 ≤ i ∧ i < pidMax) :
    readAt array i s = .ok (array.of s.kernel.procTable i)
      { s with accesses := s.accesses ++ [⟨array, i⟩] } := by
  have hindexed : onKernel (indexed i) { s with accesses := s.accesses ++ [⟨array, i⟩] } =
      .ok () { s with accesses := s.accesses ++ [⟨array, i⟩] } :=
    zoom_eq_ok.mpr ⟨s.kernel, indexed_ok h, rfl⟩
  rw [readAt, bind_ok modify_ok, bind_ok hindexed]
  rfl

theorem readAt_error {array : TableArray} {i : ℤ} (h : ¬ (0 ≤ i ∧ i < pidMax)) :
    readAt array i s = .error .fault { s with accesses := s.accesses ++ [⟨array, i⟩] } := by
  have hindexed : onKernel (indexed i) { s with accesses := s.accesses ++ [⟨array, i⟩] } =
      .error .fault { s with accesses := s.accesses ++ [⟨array, i⟩] } := by
    rw [onKernel, zoom, indexed_error h]
  rw [readAt, bind_ok modify_ok, bind_error hindexed]

theorem entry_esrch (h : 0 ≤ pid ∧ pid < pidMax) (hproc : k.procTable.procs pid = none) :
    section_ t pid 0 .entry ⟨k, []⟩ = .ok (.returned (-ESRCH)) ⟨k, [⟨.procs, pid⟩]⟩ := by
  have hread : readAt .procs pid ⟨k, []⟩ = .ok (k.procTable.procs pid) ⟨k, [⟨.procs, pid⟩]⟩ :=
    readAt_ok h
  have hfind : findProcess pid ⟨k, []⟩ = .ok none ⟨k, [⟨.procs, pid⟩]⟩ := by
    rw [findProcess, bind_ok hread, hproc]
    rfl
  exact bind_ok hfind

/-- The first access of the call is made before anything has looked at the pid. -/
theorem outside_access (h : ¬ (0 ≤ pid ∧ pid < pidMax)) :
    Runs t pid 0 k ⟨k, [⟨.procs, pid⟩]⟩ (.stopped .fault) := by
  have hread : readAt .procs pid ⟨k, []⟩ = .error .fault ⟨k, [⟨.procs, pid⟩]⟩ := readAt_error h
  have hrun : section_ t pid 0 .entry ⟨k, []⟩ = .error .fault ⟨k, [⟨.procs, pid⟩]⟩ :=
    bind_error (bind_error hread)
  exact .stops .call hrun

/-- Without options the pid has to be an index; with options, which are refused first, it has to
name a process. -/
theorem pidBounds_iff : PidBounds t pid options k ↔
    (options = 0 → 0 ≤ pid ∧ pid < pidMax) ∧ (options ≠ 0 → Names k pid) := by
  constructor
  · intro h
    constructor
    · rintro rfl
      by_contra hout
      exact hout (h.in_bounds _ _ (outside_access hout) _ List.mem_cons_self)
    · intro hoptions
      by_contra hnot
      obtain ⟨s', hrun, -⟩ := h.esrch hnot
      rw [section_, if_pos hoptions] at hrun
      cases hrun
  · rintro ⟨hindex, hnames⟩
    rcases Decidable.em (options = 0) with rfl | hoptions
    · have hpid := hindex rfl
      refine ⟨fun s p hruns a ha => ?_, fun hnot => ?_⟩
      · rw [hruns.allAt a ha]
        exact hpid
      · have hproc : k.procTable.procs pid = none := by
          by_contra hproc
          exact hnot ⟨hpid, hproc⟩
        exact ⟨_, entry_esrch hpid hproc, rfl⟩
    · refine ⟨fun s p hruns a ha => ?_, fun hnot => absurd (hnames hoptions) hnot⟩
      rw [(hruns.of_options hoptions).1] at ha
      cases ha

/-- `waitpid(-1, NULL, 0)`. -/
theorem reads_before_the_table : ¬ PidBounds 0 (-1) 0 bootKernel := by
  intro h
  have hruns : Runs 0 (-1) 0 bootKernel _ _ := outside_access (by decide)
  have hbounds := (h.in_bounds _ _ hruns _ List.mem_cons_self).1
  exact absurd hbounds (by decide)

end UnionCollegeCode.OS161.WaitpidBounds
