import UnionCollegeCode.OS161.Ownership

/-!
# `sys_waitpid` against `sys_exit`

What a `sys_waitpid` relies on between its `find_process` and the end of its `cv_wait`, over every
interleaving: that the exit lock and the exit condition variable of the pid stay there. Nothing in
the code keeps them there, so the schedule has to: they stay exactly when no process is taken from
the table while a thread is inside `sys_waitpid` on its pid, and no second `add_proc` on the pid runs
out of memory meanwhile.

The other two things asked of the two calls hold of every schedule because neither gets that far: a
`sys_waitpid` finds no child in the caller's list and never sleeps, and never returns a pid.
-/

set_option autoImplicit false

namespace UnionCollegeCode.OS161

open Function (update)
open Lib.EState Lib.Run

/-- The pid of the `sys_waitpid` a thread is in, from its `find_process` to the end of its
`cv_wait`. -/
def Pc.waitsFor : Pc → Option ℤ
  | .found pid _ => some pid
  | .acquiring pid _ _ => some pid
  | .locked pid _ => some pid
  | .waiting pid _ _ _ => some pid
  | .reacquiring pid _ _ => some pid
  | _ => none

def Machine.SomeoneWaits (m : Machine) (pid : ℤ) : Prop := ∃ t, (m.pc t).waitsFor = some pid

structure WaitSound (m : Machine) : Prop where
  /-- A `sys_waitpid` that returned its pid left the child's exit code in the status word. -/
  status : ∀ t pid, 0 ≤ pid → m.waited t = some (pid, pid) →
    ∃ b ∈ m.broadcasts, b.pid = pid ∧ m.status t = mkwaitExit b.exitcode
  /-- Who sleeps in `cv_wait` waits for a process that is in the table and has not broadcast. -/
  asleep : ∀ t pid target cv lock, m.pc t = .waiting pid target cv lock →
    Machine.asleepOn t (m.cvWchan cv) →
      m.kernel.procTable.procs pid = some target ∧ ∀ b ∈ m.broadcasts, b.proc ≠ target

/-- The step neither clears a slot of the table nor destroys what was in it. -/
structure KeepsSlot (column column' : ℤ → Option Ptr) (there there' : Ptr → Prop) (pid : ℤ) :
    Prop where
  slot : column pid ≠ none → column' pid ≠ none
  object : ∀ l, column pid = some l → there l → there' l

/-- The entries that somebody in `sys_waitpid` relies on survive the step. -/
def KeepsEntries (m : Machine) (_ : Action) (m' : Machine) : Prop :=
  ∀ pid, m.SomeoneWaits pid →
    KeepsSlot m.kernel.procTable.exitLocks m'.kernel.procTable.exitLocks
      (m.kernel.lockHeap · ≠ none) (m'.kernel.lockHeap · ≠ none) pid ∧
    KeepsSlot m.kernel.procTable.exitCvs m'.kernel.procTable.exitCvs
      (m.kernel.cvHeap · ≠ none) (m'.kernel.cvHeap · ≠ none) pid

/-- `add_proc` on a pid that somebody waits for replaces no entry by `NULL`. -/
def Machine.MayAdd (m : Machine) (pid : ℤ) (lockOk cvOk : Bool) : Prop :=
  m.SomeoneWaits pid → (m.kernel.procTable.exitLocks pid ≠ none → lockOk = true) ∧
    (m.kernel.procTable.exitCvs pid ≠ none → cvOk = true)

/-- Nobody is in `sys_waitpid` on the pid of the process that the step takes from the table. -/
def Machine.RemovesUnwaited (m : Machine) : Action → Prop
  | .remove t => ∀ p exiting P, m.pc t = .destroying p exiting → m.kernel.procHeap p = some P →
      ¬ m.SomeoneWaits P.pPid
  | .register t al => ∀ c p P, m.pc t = .creating c p → m.kernel.procHeap p = some P →
      m.MayAdd P.pPid al.exitLock al.exitCv
  | .forkAdd t lockOk cvOk => ∀ p P, m.pc t = .forked p → m.kernel.procHeap p = some P →
      m.MayAdd P.pPid lockOk cvOk
  | _ => True

/-! ## What a `sys_waitpid` returns -/

structure WaitsInVain (m : Machine) : Prop where
  consistent : Consistent m
  waited : ∀ t pid r, m.waited t = some (pid, r) → r < 0

namespace WaitsInVain

variable {m m' : Machine} {a : Action}

theorem boot : WaitsInVain Machine.boot := ⟨.boot, fun _ _ _ h => by cases h⟩

theorem step (h : WaitsInVain m) (hs : m.step a = some m') : WaitsInVain m' := by
  refine ⟨h.consistent.step hs, fun t pid r hr => ?_⟩
  have hsame (heq : m'.waited = m.waited) : r < 0 := h.waited t pid r (heq ▸ hr)
  cases Machine.step_effect hs with
  | quiet ha hpc hpc' hquiet hthreads hlive hnext hlife hwaited =>
    exact (hwaited t pid r hr).elim (h.waited t pid r) id
  | @inCvWait _ t _ ha hwait =>
    rcases hwait with hwait | ⟨q, Q, -, hQ, hne⟩
    · rw [h.consistent.awake t] at hwait
      cases hwait
    · exact absurd (h.consistent.objects.childless q Q hQ).1 hne
  | refused => exact h.waited t pid r hr
  | created => exact hsame ‹_›
  | registered => exact hsame ‹_›
  | forkAdded => exact hsame ‹_›
  | started => exact hsame ‹_›
  | failed => exact hsame ‹_›
  | kernelThread => exact hsame ‹_›
  | exiting => exact hsame ‹_›
  | removed => exact hsame ‹_›
  | destroyed => exact hsame ‹_›

theorem waitSound (h : WaitsInVain m) : WaitSound m where
  status := fun t pid hpid hr => absurd (h.waited t pid pid hr) (by omega)
  asleep := fun t pid target cv lock hpc => by
    have hawake := h.consistent.awake t
    rw [hpc] at hawake
    cases hawake

end WaitsInVain

/-! ## What happens to the entries -/

theorem KeepsSlot.refl {column : ℤ → Option Ptr} {there there' : Ptr → Prop}
    (hthere : ∀ l, there l → there' l) (pid : ℤ) : KeepsSlot column column there there' pid :=
  ⟨id, fun l _ => hthere l⟩

/-- Storing in a slot keeps the slots, its own unless it stores `NULL` over an entry. -/
theorem keepsSlot_store {column : ℤ → Option Ptr} {there there' : Ptr → Prop}
    (hthere : ∀ l, there l → there' l) {pid i : ℤ} {new : Option Ptr} :
    KeepsSlot column (update column i new) there there' pid ↔
      (pid = i → column i ≠ none → new ≠ none) := by
  by_cases hi : pid = i
  · subst hi
    constructor
    · intro h _ hcol
      have hslot := h.slot hcol
      rwa [Function.update_self] at hslot
    · intro h
      refine ⟨fun hcol => ?_, fun l _ => hthere l⟩
      rw [Function.update_self]
      exact h rfl hcol
  · refine iff_of_true ⟨fun hcol => ?_, fun l _ => hthere l⟩ fun heq => absurd heq hi
    rwa [Function.update_of_ne hi]

variable {m m' : Machine} {a : Action}

theorem keepsEntries_of_grows (htable : m'.kernel.procTable = m.kernel.procTable)
    (hgrows : Grows m.kernel m'.kernel) : KeepsEntries m a m' := by
  intro pid _
  rw [htable]
  exact ⟨.refl hgrows.locks pid, .refl hgrows.cvs pid⟩

/-- `add_proc` on a pid keeps the entries exactly when it may add there. -/
theorem keepsEntries_add {s : Kernel} {p : Ptr} {pid : ℤ} {lockOk cvOk : Bool}
    (htable : s.procTable = m.kernel.procTable) (hlocks : s.lockHeap = m.kernel.lockHeap)
    (hcvs : s.cvHeap = m.kernel.cvHeap) (hadd : addProc p pid lockOk cvOk s = .ok () m'.kernel) :
    KeepsEntries m a m' ↔ m.MayAdd pid lockOk cvOk := by
  obtain ⟨lock, cv, hl, hc, -, -, hgrows, -, htable', -, -, -⟩ := addProc_spec hadd
  rw [htable] at htable'
  have hthere : ∀ l, m.kernel.lockHeap l ≠ none → m'.kernel.lockHeap l ≠ none := by
    rw [← hlocks]
    exact hgrows.locks
  have hthere' : ∀ c, m.kernel.cvHeap c ≠ none → m'.kernel.cvHeap c ≠ none := by
    rw [← hcvs]
    exact hgrows.cvs
  simp only [KeepsEntries, Machine.MayAdd, htable', ProcTable.add, keepsSlot_store hthere,
    keepsSlot_store hthere', hl, hc]
  constructor
  · intro h hwait
    exact ⟨(h pid hwait).1 rfl, (h pid hwait).2 rfl⟩
  · intro h i hwait
    constructor
    · rintro rfl
      exact (h hwait).1
    · rintro rfl
      exact (h hwait).2

/-- Taking a process from the table keeps the entries exactly when nobody waits for its pid. -/
theorem keepsEntries_remove (h : Consistent m) {s₁ : Kernel} {t : Tid} {pid : ℤ}
    (hquiet : Quiet m.kernel s₁) (hremove : removeProc t pid s₁ = .ok () m'.kernel) :
    KeepsEntries m a m' ↔ ¬ m.SomeoneWaits pid := by
  obtain ⟨l, c, -, hl, hc, -, hk⟩ := removeProc_spec hremove
  rw [hquiet.procTable] at hl hc
  have htable : m'.kernel.procTable = m.kernel.procTable.remove pid := by
    rw [hk, ← hquiet.procTable]
    rfl
  constructor
  · intro hkeeps hwait
    have hslot := (hkeeps pid hwait).1.slot (by simp [hl])
    simp [htable, ProcTable.remove] at hslot
  · intro hnobody i hwait
    have hi : i ≠ pid := by
      rintro rfl
      exact hnobody hwait
    rw [htable]
    simp only [ProcTable.remove]
    refine ⟨⟨fun hslot => ?_, fun l' hl' hthere => ?_⟩, ⟨fun hslot => ?_, fun c' hc' hthere => ?_⟩⟩
    · rwa [Function.update_of_ne hi]
    · have hne : l' ≠ l := by
        rintro rfl
        exact hi (h.objects.exitLocks.injective i pid l' hl' hl)
      rw [hk]
      simp only [Kernel.setTable, Kernel.setCv, Kernel.setLock, Function.update_of_ne hne]
      exact hquiet.grows.locks l' hthere
    · rwa [Function.update_of_ne hi]
    · have hne : c' ≠ c := by
        rintro rfl
        exact hi (h.objects.exitCvs.injective i pid c' hc' hc)
      rw [hk]
      simp only [Kernel.setTable, Kernel.setCv, Kernel.setLock, Function.update_of_ne hne]
      exact hquiet.grows.cvs c' hthere

/-- The lock a process takes with it is the one of its list. -/
theorem keepsEntries_destroy (h : Consistent m) {t : Tid} {p : Ptr} {exiting : Bool} {s₁ : Kernel}
    (hheap : m.kernel.procHeap p ≠ none) (hend : procDestroyEnd t p m.kernel = .ok () s₁)
    (hk : m'.kernel = if exiting then s₁.setThread t none else s₁) : KeepsEntries m a m' := by
  obtain ⟨P, hP⟩ := Option.ne_none_iff_exists'.mp hheap
  obtain ⟨l, s₂, hl, -, hsync, rfl⟩ := procDestroyEnd_spec hP (h.objects.childless p P hP).2 hend
  have htable : m'.kernel.procTable = m.kernel.procTable := by
    rw [hk, ← hsync.procTable]
    cases exiting <;> rfl
  have hlocks : m'.kernel.lockHeap = update s₂.lockHeap l none := by
    rw [hk]
    cases exiting <;> rfl
  have hcvs : m'.kernel.cvHeap = s₂.cvHeap := by
    rw [hk]
    cases exiting <;> rfl
  intro pid _
  rw [htable, hcvs, hlocks]
  refine ⟨⟨id, fun l' hl' hthere => ?_⟩, .refl hsync.cvs pid⟩
  have hne : l' ≠ l := by
    rintro rfl
    exact (h.objects.listLock p P l' hP hl).2 pid hl'
  rw [Function.update_of_ne hne]
  exact hsync.locks l' hthere

/-- One step, both ways. -/
theorem keepsEntries_iff_removesUnwaited (h : Consistent m) (hs : m.step a = some m') :
    KeepsEntries m a m' ↔ m.RemovesUnwaited a := by
  -- Only `add_proc` and `remove_proc` write to the table; every other step keeps what it holds.
  cases Machine.step_effect hs with
  | quiet ha hpc hpc' hquiet =>
    refine iff_of_true (keepsEntries_of_grows hquiet.procTable hquiet.grows) ?_
    cases a <;> trivial
  | @inCvWait _ t _ ha hwait =>
    rcases hwait with hwait | ⟨q, Q, -, hQ, hne⟩
    · rw [h.awake t] at hwait
      cases hwait
    · exact absurd (h.objects.childless q Q hQ).1 hne
  | refused ha =>
    refine iff_of_true (fun pid _ => ⟨.refl (fun _ h => h) pid, .refl (fun _ h => h) pid⟩) ?_
    cases a <;> trivial
  | created ha hpc hlive hfresh hlt hfree hlock hheap htable hthreads hkproc hgrows =>
    refine iff_of_true (keepsEntries_of_grows htable hgrows) ?_
    cases a <;> trivial
  | @registered t al c p P pc' _ hpc hP hadd =>
    rw [keepsEntries_add rfl rfl rfl hadd]
    constructor
    · intro hmay c' p' P' hpc' hP'
      cases hpc.symm.trans hpc'
      cases hP.symm.trans hP'
      exact hmay
    · exact fun hok => hok c p P hpc hP
  | @forkAdded t lockOk cvOk q p Q P _ hpc hq hQ hP hadd =>
    rw [keepsEntries_add (s := m.kernel.setProc p _) rfl rfl rfl hadd]
    constructor
    · intro hmay p' P' hpc' hP'
      cases hpc.symm.trans hpc'
      cases hP.symm.trans hP'
      exact hmay
    · exact fun hok => hok p P hpc hP
  | started ha hpc hnew hquiet =>
    refine iff_of_true (keepsEntries_of_grows hquiet.procTable hquiet.grows) ?_
    rcases ha with ⟨e, rfl⟩ | rfl <;> trivial
  | failed ha hpc hquiet =>
    refine iff_of_true (keepsEntries_of_grows hquiet.procTable hquiet.grows) ?_
    rcases ha with ⟨e, rfl⟩ | rfl <;> trivial
  | kernelThread hnew hquiet =>
    exact iff_of_true (keepsEntries_of_grows hquiet.procTable hquiet.grows) trivial
  | exiting hpc hcur hquiet =>
    exact iff_of_true (keepsEntries_of_grows hquiet.procTable hquiet.grows) trivial
  | @removed t p P exiting s₁ _ hpc hne hP hquiet hthreads hremove =>
    rw [keepsEntries_remove h hquiet hremove]
    constructor
    · intro hnobody p' exiting' P' hpc' hP'
      cases hpc.symm.trans hpc'
      cases hP.symm.trans hP'
      exact hnobody
    · exact fun hok => hok p exiting P hpc hP
  | @destroyed t p exiting s₁ _ hpc hend hk =>
    have hhandles : (m.pc t).handles = some (p, exiting, .removed) := by rw [hpc]; rfl
    exact iff_of_true (keepsEntries_destroy h (h.heap_of_handles hhandles) hend hk) trivial

/-- **Wait and exit.** In a run of the kernel all that `sys_waitpid` and `sys_exit` owe each other
holds exactly when no entry is taken away from a thread in `sys_waitpid`. -/
theorem waitExit_iff_removesUnwaited (schedule : List Action) :
    (Along Machine.step WaitSound Machine.boot schedule ∧
        AlongSteps Machine.step KeepsEntries Machine.boot schedule) ↔
      Meets Machine.step Machine.RemovesUnwaited Machine.boot schedule := by
  have hsound : Along Machine.step WaitSound Machine.boot schedule :=
    (along_of_step (fun _ _ _ h hs => h.step hs) WaitsInVain.boot).mono fun _ h => h.waitSound
  rw [and_iff_right hsound]
  exact alongSteps_iff_meets (W := Consistent) (R := KeepsEntries) (fun _ _ _ h hs => h.step hs)
    (fun _ _ _ h hs => keepsEntries_iff_removesUnwaited h hs) .boot

/-- The program forks a child and then once more; while the child, in `sys_waitpid(5)`, has found
the second one, there is no memory for its address space. -/
def forkFailsSchedule : List Action :=
  [.forkEnd 1 (.succeeds 101 2), .fork 1 .all, .register 1 .all, .forkAdd 1 true true,
    .waitpid 2 5 0, .forkEnd 1 .asCopyFails]

def Machine.childWaits : Machine :=
  (exec Machine.step Machine.forkedOnce forkFailsSchedule).getD Machine.boot

theorem exec_forkFailsSchedule :
    exec Machine.step Machine.forkedOnce forkFailsSchedule = some Machine.childWaits := rfl

/-- The child's `exit_locks[5]` is destroyed under it. -/
theorem fork_failure_clears_awaited_entry :
    exec Machine.step Machine.boot (forkSchedule ++ forkFailsSchedule) = some Machine.childWaits ∧
      Machine.childWaits.pc 2 = .found 5 15 ∧
      ∃ m', Machine.childWaits.step (.remove 1) = some m' ∧
        ¬ KeepsEntries Machine.childWaits (.remove 1) m' := by
  refine ⟨?_, rfl, _, rfl, fun hkeeps => ?_⟩
  · rw [exec_append, exec_forkSchedule]
    exact exec_forkFailsSchedule
  · have hslot := (hkeeps 5 ⟨2, rfl⟩).1.slot
    exact hslot (by decide) rfl

end UnionCollegeCode.OS161
