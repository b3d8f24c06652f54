import Mathlib.Algebra.Order.Group.Int
import Mathlib.Data.Finset.Image
import UnionCollegeCode.Lib.Slots
import UnionCollegeCode.OS161.Ownership

/-!
# Integrity of the process table

The four fields of the table tell the same, and what they tell is which processes are live. A run of
the machine keeps them so exactly when every creation of the run is alone with its pid, finds memory
for its exit lock and condition variable, and is not a `sys_fork` that gets to its own `add_proc`:
`proc_create` has registered the child already.
-/

set_option autoImplicit false

namespace UnionCollegeCode.OS161

open Function (update)
open Lib.Run Lib.Slots

/-- From `assign_pid` to `remove_proc`. -/
def Machine.Live (m : Machine) (p : Ptr) : Prop := m.life p = .created ∨ m.life p = .registered

/-- The indices of the table's three arrays. -/
def pids : Finset ℤ := (Finset.range pidMax.toNat).image Int.ofNat

theorem mem_pids {i : ℤ} : i ∈ pids ↔ 0 ≤ i ∧ i < pidMax := by
  simp only [pids, pidMax, Finset.mem_image, Finset.mem_range, Int.ofNat_eq_natCast]
  constructor
  · rintro ⟨n, hn, rfl⟩
    omega
  · intro hi
    exact ⟨i.toNat, by omega, by omega⟩

def ProcTable.entries (tbl : ProcTable) : Finset ℤ := occupied pids tbl.procs

structure Integrity (m : Machine) : Prop where
  distinct : ∀ p q P Q, m.Live p → m.Live q → m.kernel.procHeap p = some P →
    m.kernel.procHeap q = some Q → P.pPid = Q.pPid → p = q
  registered : ∀ p P, m.life p = .registered → m.kernel.procHeap p = some P →
    m.kernel.procTable.procs P.pPid = some p
  entry : ∀ i p, m.kernel.procTable.procs i = some p →
    ∃ P, m.kernel.procHeap p = some P ∧ P.pPid = i
  exitLocks : ∀ i, m.kernel.procTable.exitLocks i ≠ none ↔ m.kernel.procTable.procs i ≠ none
  exitCvs : ∀ i, m.kernel.procTable.exitCvs i ≠ none ↔ m.kernel.procTable.procs i ≠ none
  activeProcs : m.kernel.procTable.activeProcs = m.kernel.procTable.entries.card

/-- The step hands out a pid that no other creation holds, and a process it registers was not in the
table and gets its lock and condition variable. -/
def Machine.RegistersOnce (m : Machine) (a : Action) : Prop :=
  match a with
  | .register _ al => al.exitLock = true ∧ al.exitCv = true
  | .forkAdd .. => False
  | a => m.HandsOutPid a → ∀ p P, m.life p = .created → m.kernel.procHeap p = some P →
      P.pPid ≠ m.kernel.newPid

/-- What carries the induction: a process that is not registered yet has its slot to itself. -/
structure TableInv (m : Machine) : Prop where
  consistent : Consistent m
  integrity : Integrity m
  unregistered : ∀ p P, m.life p = .created → m.kernel.procHeap p = some P →
    m.kernel.procTable.procs P.pPid = none
  entry_life : ∀ i p, m.kernel.procTable.procs i = some p → m.life p = .registered

namespace Integrity

variable {m m' : Machine}

theorem of_quiet (h : Integrity m) (hquiet : Quiet m.kernel m'.kernel) (hlife : m'.life = m.life) :
    Integrity m' where
  distinct := fun p q P' Q' hp hq hP' hQ' hpid => by
    obtain ⟨P, hP, hkinP⟩ := hquiet.exists_proc hP'
    obtain ⟨Q, hQ, hkinQ⟩ := hquiet.exists_proc hQ'
    rw [Machine.Live, hlife] at hp hq
    refine h.distinct p q P Q hp hq hP hQ ?_
    rw [← Proc.pPid_of_kin hkinP, ← Proc.pPid_of_kin hkinQ, hpid]
  registered := fun p P' hp hP' => by
    obtain ⟨P, hP, hkin⟩ := hquiet.exists_proc hP'
    rw [hquiet.procTable, Proc.pPid_of_kin hkin]
    exact h.registered p P (hlife ▸ hp) hP
  entry := fun i p hi => by
    rw [hquiet.procTable] at hi
    obtain ⟨P, hP, hpid⟩ := h.entry i p hi
    have hkin := hquiet.kin p
    cases hP' : m'.kernel.procHeap p with
    | none => simp [hP, hP'] at hkin
    | some P' =>
      simp only [hP, hP', Option.map_some, Option.some.injEq] at hkin
      exact ⟨P', rfl, (Proc.pPid_of_kin hkin).trans hpid⟩
  exitLocks := hquiet.procTable ▸ h.exitLocks
  exitCvs := hquiet.procTable ▸ h.exitCvs
  activeProcs := hquiet.procTable ▸ h.activeProcs

end Integrity

namespace TableInv

variable {m m' : Machine} {a : Action} {t : Tid}

theorem of_quiet (h : TableInv m) (hs : m.step a = some m') (hquiet : Quiet m.kernel m'.kernel)
    (hlife : m'.life = m.life) : TableInv m' where
  consistent := h.consistent.step hs
  integrity := h.integrity.of_quiet hquiet hlife
  unregistered := fun p P' hp hP' => by
    obtain ⟨P, hP, hkin⟩ := hquiet.exists_proc hP'
    rw [hquiet.procTable, Proc.pPid_of_kin hkin]
    exact h.unregistered p P (hlife ▸ hp) hP
  entry_life := hquiet.procTable ▸ hlife ▸ h.entry_life

theorem pid_mem (h : TableInv m) {p : Ptr} {P : Proc} (hP : m.kernel.procHeap p = some P) :
    P.pPid ∈ pids := by
  obtain ⟨hlo, hhi⟩ := h.consistent.objects.pids p P hP
  exact mem_pids.mpr ⟨by omega, hhi⟩

/-! ### A pid is handed out -/

section Created

variable {p : Ptr} {lock : Option Ptr} {sem : Option Semaphore} (hfresh : m.kernel.next ≤ p)
  (hfree : IsFree m.kernel m.kernel.newPid)
  (hheap : m'.kernel.procHeap =
    update m.kernel.procHeap p (some (.new m.kernel.newPid ⟨[], lock⟩ sem)))
  (htable : m'.kernel.procTable = m.kernel.procTable)
  (hlife : m'.life = update m.life p .created)

include hfresh in
theorem ne_of_heap (h : TableInv m) {q : Ptr} (hq : m.kernel.procHeap q ≠ none) : q ≠ p :=
  fun heq => Nat.lt_irrefl p (Nat.lt_of_lt_of_le (heq ▸ h.consistent.objects.fresh q hq) hfresh)

include hlife in
theorem live_of_created {q : Ptr} (hq : q ≠ p) : m'.Live q ↔ m.Live q := by
  simp only [Machine.Live, hlife, Function.update_of_ne hq]

include hfresh hfree hheap htable hlife in
theorem created (h : TableInv m) (hs : m.step a = some m')
    (halone : ∀ q Q, m.life q = .created → m.kernel.procHeap q = some Q →
      Q.pPid ≠ m.kernel.newPid) : TableInv m' := by
  have hself : m'.kernel.procHeap p = some (.new m.kernel.newPid ⟨[], lock⟩ sem) := by
    rw [hheap, Function.update_self]
  have hother {q : Ptr} (hq : q ≠ p) : m'.kernel.procHeap q = m.kernel.procHeap q := by
    rw [hheap, Function.update_of_ne hq]
  -- A live process has another pid than the one handed out: it waits for its slot, or has it.
  have hpid {q : Ptr} {Q : Proc} (hq : m.Live q) (hQ : m.kernel.procHeap q = some Q) :
      Q.pPid ≠ m.kernel.newPid := by
    rcases hq with hq | hq
    · exact halone q Q hq hQ
    · intro heq
      have hslot := h.integrity.registered q Q hq hQ
      rw [heq, hfree.procs] at hslot
      cases hslot
  refine ⟨h.consistent.step hs, ⟨?_, ?_, ?_, ?_, ?_, ?_⟩, ?_, ?_⟩
  · intro q r Q R hq hr hQ hR heq
    by_cases hqp : q = p <;> by_cases hrp : r = p
    · rw [hqp, hrp]
    · rw [hqp, hself, Option.some.injEq] at hQ
      rw [hother hrp] at hR
      exact absurd (heq.symm.trans (hQ ▸ rfl)) (hpid ((live_of_created hlife hrp).mp hr) hR)
    · rw [hrp, hself, Option.some.injEq] at hR
      rw [hother hqp] at hQ
      exact absurd (heq.trans (hR ▸ rfl)) (hpid ((live_of_created hlife hqp).mp hq) hQ)
    · rw [hother hqp] at hQ
      rw [hother hrp] at hR
      exact h.integrity.distinct q r Q R ((live_of_created hlife hqp).mp hq)
        ((live_of_created hlife hrp).mp hr) hQ hR heq
  · intro q Q hq hQ
    have hqp : q ≠ p := by
      rintro rfl
      rw [hlife, Function.update_self] at hq
      cases hq
    rw [hlife, Function.update_of_ne hqp] at hq
    rw [htable]
    exact h.integrity.registered q Q hq (hother hqp ▸ hQ)
  · intro i q hi
    rw [htable] at hi
    obtain ⟨Q, hQ, hQi⟩ := h.integrity.entry i q hi
    exact ⟨Q, (hother (h.ne_of_heap hfresh (q := q) (by simp [hQ]))).trans hQ, hQi⟩
  · exact htable ▸ h.integrity.exitLocks
  · exact htable ▸ h.integrity.exitCvs
  · exact htable ▸ h.integrity.activeProcs
  · intro q Q hq hQ
    rw [htable]
    by_cases hqp : q = p
    · rw [hqp, hself, Option.some.injEq] at hQ
      rw [← hQ]
      exact hfree.procs
    · rw [hlife, Function.update_of_ne hqp] at hq
      exact h.unregistered q Q hq (hother hqp ▸ hQ)
  · intro i q hi
    rw [htable] at hi
    obtain ⟨Q, hQ, -⟩ := h.integrity.entry i q hi
    rw [hlife, Function.update_of_ne (h.ne_of_heap hfresh (by simp [hQ]))]
    exact h.entry_life i q hi

include hfresh hheap hlife in
/-- The pid of another creation is handed out once more. -/
theorem created_break (h : TableInv m) {q : Ptr} {Q : Proc} (hq : m.life q = .created)
    (hQ : m.kernel.procHeap q = some Q) (hpid : Q.pPid = m.kernel.newPid) : ¬ Integrity m' := by
  intro hi
  have hqp := h.ne_of_heap hfresh (q := q) (by simp [hQ])
  refine hqp (hi.distinct q p Q _ ?_ ?_ ?_ (by rw [hheap, Function.update_self]) hpid)
  · exact (live_of_created hlife hqp).mpr (Or.inl hq)
  · exact Or.inl (by rw [hlife, Function.update_self])
  · rw [hheap, Function.update_of_ne hqp, hQ]

end Created

/-! ### A process goes into the table -/

section Added

variable {p : Ptr} {P : Proc} {lockOk cvOk : Bool}

theorem registered (h : TableInv m) (hs : m.step a = some m') (hp : m.life p = .created)
    (hP : m.kernel.procHeap p = some P) (hlock : lockOk = true) (hcv : cvOk = true)
    (hadd : addProc p P.pPid lockOk cvOk m.kernel = .ok () m'.kernel)
    (hlife : m'.life = update m.life p .registered) : TableInv m' := by
  obtain ⟨lock, cv, hl, hc, -, -, -, -, htable, hheap, -, -⟩ := addProc_spec hadd
  have hlive {q : Ptr} : m'.Live q ↔ m.Live q := by
    unfold Machine.Live
    rw [hlife]
    by_cases hq : q = p
    · simp [hq, hp]
    · simp [Function.update_of_ne hq]
  have hpid {q : Ptr} {Q : Proc} (hqp : q ≠ p) (hq : m.Live q)
      (hQ : m.kernel.procHeap q = some Q) : Q.pPid ≠ P.pPid :=
    fun heq => hqp (h.integrity.distinct q p Q P hq (Or.inl hp) hQ hP heq)
  -- Only the slot of `P.pPid` changes, and no other live process has that pid.
  refine ⟨h.consistent.step hs, ⟨?_, ?_, ?_, ?_, ?_, ?_⟩, ?_, ?_⟩
  · intro q r Q R hq hr hQ hR
    exact h.integrity.distinct q r Q R (hlive.mp hq) (hlive.mp hr) (hheap ▸ hQ) (hheap ▸ hR)
  · intro q Q hq hQ
    rw [hheap] at hQ
    rw [htable]
    simp only [ProcTable.add]
    by_cases hqp : q = p
    · subst hqp
      obtain rfl : P = Q := Option.some.inj (hP.symm.trans hQ)
      rw [Function.update_self]
    · rw [hlife, Function.update_of_ne hqp] at hq
      rw [Function.update_of_ne (hpid hqp (Or.inr hq) hQ)]
      exact h.integrity.registered q Q hq hQ
  · intro i q hi
    rw [htable] at hi
    simp only [ProcTable.add] at hi
    rw [hheap]
    by_cases hip : i = P.pPid
    · rw [hip, Function.update_self, Option.some.injEq] at hi
      exact ⟨P, hi ▸ hP, hip.symm⟩
    · rw [Function.update_of_ne hip] at hi
      exact h.integrity.entry i q hi
  · intro i
    rw [htable]
    simp only [ProcTable.add]
    by_cases hip : i = P.pPid
    · simp [hip, hl.mpr hlock]
    · simpa only [Function.update_of_ne hip] using h.integrity.exitLocks i
  · intro i
    rw [htable]
    simp only [ProcTable.add]
    by_cases hip : i = P.pPid
    · simp [hip, hc.mpr hcv]
    · simpa only [Function.update_of_ne hip] using h.integrity.exitCvs i
  · rw [htable]
    simp only [ProcTable.entries, ProcTable.add]
    -- The slot was empty: one process more is in the table, and `active_procs` goes up by one.
    rw [card_occupied_store (h.pid_mem hP) (h.unregistered p P hp hP), h.integrity.activeProcs]
    rfl
  · intro q Q hq hQ
    have hqp : q ≠ p := by
      rintro rfl
      rw [hlife, Function.update_self] at hq
      cases hq
    rw [hlife, Function.update_of_ne hqp] at hq
    rw [hheap] at hQ
    rw [htable]
    simp only [ProcTable.add]
    rw [Function.update_of_ne (hpid hqp (Or.inl hq) hQ)]
    exact h.unregistered q Q hq hQ
  · intro i q hi
    rw [htable] at hi
    simp only [ProcTable.add] at hi
    by_cases hqp : q = p
    · rw [hlife, hqp, Function.update_self]
    · rw [hlife, Function.update_of_ne hqp]
      by_cases hip : i = P.pPid
      · rw [hip, Function.update_self, Option.some.injEq] at hi
        exact absurd hi.symm hqp
      · rw [Function.update_of_ne hip] at hi
        exact h.entry_life i q hi

/-- There is no memory for the lock or the condition variable. -/
theorem registered_break (hfail : ¬ (lockOk = true ∧ cvOk = true))
    (hadd : addProc p P.pPid lockOk cvOk m.kernel = .ok () m'.kernel) : ¬ Integrity m' := by
  intro hi
  obtain ⟨lock, cv, hl, hc, -, -, -, -, htable, -, -, -⟩ := addProc_spec hadd
  have hlocks := hi.exitLocks P.pPid
  have hcvs := hi.exitCvs P.pPid
  simp only [htable, ProcTable.add, Function.update_self, ne_eq, reduceCtorEq, not_false_eq_true,
    iff_true] at hlocks hcvs
  exact hfail ⟨hl.mp hlocks, hc.mp hcvs⟩

/-- The process is in the table already: it is counted twice. -/
theorem forkAdded_break (h : TableInv m) {ppid : ℤ} (hp : m.life p = .registered)
    (hP : m.kernel.procHeap p = some P)
    (hadd : addProc p P.pPid lockOk cvOk
      (m.kernel.setProc p (some { P with pPpid := ppid })) = .ok () m'.kernel) : ¬ Integrity m' := by
  intro hi
  obtain ⟨lock, cv, -, -, -, -, -, -, htable, -, -, -⟩ := addProc_spec hadd
  have hslot := h.integrity.registered p P hp hP
  have hcount := hi.activeProcs
  rw [htable] at hcount
  simp only [ProcTable.entries, ProcTable.add, Kernel.setProc] at hcount
  rw [card_occupied_overwrite (h.pid_mem hP) (by simp [hslot]), h.integrity.activeProcs,
    ProcTable.entries] at hcount
  omega

end Added

/-! ### A process leaves the table -/

theorem removed (h : TableInv m) (hs : m.step a = some m') {p : Ptr} {P : Proc} {s₁ : Kernel}
    (hp : m.life p = .registered) (hP : m.kernel.procHeap p = some P) (hquiet : Quiet m.kernel s₁)
    (hremove : removeProc t P.pPid s₁ = .ok () m'.kernel)
    (hlife : m'.life = update m.life p .removed) : TableInv m' := by
  obtain ⟨l, c, -, -, -, -, hk⟩ := removeProc_spec hremove
  have htable : m'.kernel.procTable = m.kernel.procTable.remove P.pPid := by
    rw [hk, ← hquiet.procTable]
    rfl
  have hheap : m'.kernel.procHeap = s₁.procHeap := by
    rw [hk]
    rfl
  have hslot := h.integrity.registered p P hp hP
  -- `p` is on its way out, so that what is to hold is about the other processes only.
  have hne {q : Ptr} (hq : m'.Live q) : q ≠ p := by
    rintro rfl
    rw [Machine.Live, hlife, Function.update_self] at hq
    rcases hq with hq | hq <;> cases hq
  have hlive {q : Ptr} (hq : m'.Live q) : m.Live q := by
    have hqp := hne hq
    rwa [Machine.Live, hlife, Function.update_of_ne hqp] at hq
  have hproc {q : Ptr} {Q' : Proc} (hQ' : m'.kernel.procHeap q = some Q') :
      ∃ Q, m.kernel.procHeap q = some Q ∧ Q'.pPid = Q.pPid := by
    rw [hheap] at hQ'
    obtain ⟨Q, hQ, hkin⟩ := hquiet.exists_proc hQ'
    exact ⟨Q, hQ, Proc.pPid_of_kin hkin⟩
  have hpid {q : Ptr} {Q : Proc} (hq : m'.Live q) (hQ : m.kernel.procHeap q = some Q) :
      Q.pPid ≠ P.pPid :=
    fun heq => hne hq (h.integrity.distinct q p Q P (hlive hq) (Or.inr hp) hQ hP heq)
  refine ⟨h.consistent.step hs, ⟨?_, ?_, ?_, ?_, ?_, ?_⟩, ?_, ?_⟩
  · intro q r Q' R' hq hr hQ' hR' heq
    obtain ⟨Q, hQ, hQpid⟩ := hproc hQ'
    obtain ⟨R, hR, hRpid⟩ := hproc hR'
    exact h.integrity.distinct q r Q R (hlive hq) (hlive hr) hQ hR
      (hQpid.symm.trans (heq.trans hRpid))
  · intro q Q' hq hQ'
    obtain ⟨Q, hQ, hQpid⟩ := hproc hQ'
    rw [htable, hQpid]
    simp only [ProcTable.remove]
    rw [Function.update_of_ne (hpid (Or.inr hq) hQ)]
    have hqp := hne (Or.inr hq)
    rw [hlife, Function.update_of_ne hqp] at hq
    exact h.integrity.registered q Q hq hQ
  · intro i q hi
    rw [htable] at hi
    simp only [ProcTable.remove] at hi
    by_cases hip : i = P.pPid
    · simp [hip] at hi
    · rw [Function.update_of_ne hip] at hi
      -- What `proc_destroy` does before it calls `remove_proc` leaves table and pids alone.
      have hbefore : Integrity { m with kernel := s₁ } := h.integrity.of_quiet hquiet rfl
      obtain ⟨Q, hQ, hQi⟩ := hbefore.entry i q (hquiet.procTable ▸ hi)
      exact ⟨Q, hheap ▸ hQ, hQi⟩
  · intro i
    rw [htable]
    simp only [ProcTable.remove]
    by_cases hip : i = P.pPid
    · simp [hip]
    · simpa only [Function.update_of_ne hip] using h.integrity.exitLocks i
  · intro i
    rw [htable]
    simp only [ProcTable.remove]
    by_cases hip : i = P.pPid
    · simp [hip]
    · simpa only [Function.update_of_ne hip] using h.integrity.exitCvs i
  · rw [htable]
    have hfull : m.kernel.procTable.procs P.pPid ≠ none := by simp [hslot]
    have hcard := card_occupied_clear (h.pid_mem hP) hfull
    have hactive := h.integrity.activeProcs
    simp only [ProcTable.entries, ProcTable.remove] at hactive ⊢
    omega
  · intro q Q' hq hQ'
    obtain ⟨Q, hQ, hQpid⟩ := hproc hQ'
    rw [htable, hQpid]
    simp only [ProcTable.remove]
    rw [Function.update_of_ne (hpid (Or.inl hq) hQ)]
    have hqp := hne (Or.inl hq)
    rw [hlife, Function.update_of_ne hqp] at hq
    exact h.unregistered q Q hq hQ
  · intro i q hi
    rw [htable] at hi
    simp only [ProcTable.remove] at hi
    have hip : i ≠ P.pPid := by
      rintro rfl
      simp at hi
    rw [Function.update_of_ne hip] at hi
    -- `p` was in one slot only, and that one is cleared.
    have hqp : q ≠ p := by
      rintro rfl
      obtain ⟨Q, hQ, hQi⟩ := h.integrity.entry i q hi
      obtain rfl : P = Q := Option.some.inj (hP.symm.trans hQ)
      exact hip hQi.symm
    rw [hlife, Function.update_of_ne hqp]
    exact h.entry_life i q hi

theorem destroyed (h : TableInv m) (hs : m.step a = some m') {p : Ptr} {s₁ : Kernel}
    {exiting : Bool} (hp : m.life p = .removed) (hheap : m.kernel.procHeap p ≠ none)
    (hend : procDestroyEnd t p m.kernel = .ok () s₁)
    (hk : m'.kernel = if exiting then s₁.setThread t none else s₁)
    (hlife : m'.life = update m.life p .absent) : TableInv m' := by
  obtain ⟨P, hP⟩ := Option.ne_none_iff_exists'.mp hheap
  obtain ⟨l, s₂, -, -, hsync, rfl⟩ :=
    procDestroyEnd_spec hP (h.consistent.objects.childless p P hP).2 hend
  have htable : m'.kernel.procTable = m.kernel.procTable := by
    rw [hk, ← hsync.procTable]
    cases exiting <;> rfl
  have hheap' : m'.kernel.procHeap = update m.kernel.procHeap p none := by
    rw [hk, ← hsync.procHeap]
    cases exiting <;> rfl
  have hproc {q : Ptr} {Q : Proc} (hQ : m'.kernel.procHeap q = some Q) :
      q ≠ p ∧ m.kernel.procHeap q = some Q := by
    rw [hheap'] at hQ
    by_cases hq : q = p
    · simp [hq] at hQ
    · exact ⟨hq, by rwa [Function.update_of_ne hq] at hQ⟩
  have hlife' {q : Ptr} (hq : q ≠ p) : m'.life q = m.life q := by
    rw [hlife, Function.update_of_ne hq]
  -- The process has left the table before, so no slot points to the freed memory.
  have hentry {i : ℤ} {q : Ptr} (hi : m.kernel.procTable.procs i = some q) : q ≠ p := by
    rintro rfl
    exact absurd (hp.symm.trans (h.entry_life i q hi)) (by decide)
  refine ⟨h.consistent.step hs, ⟨?_, ?_, ?_, htable ▸ h.integrity.exitLocks,
    htable ▸ h.integrity.exitCvs, htable ▸ h.integrity.activeProcs⟩, ?_, ?_⟩
  · intro q r Q R hq hr hQ hR
    obtain ⟨hqp, hQ⟩ := hproc hQ
    obtain ⟨hrp, hR⟩ := hproc hR
    rw [Machine.Live, hlife' hqp] at hq
    rw [Machine.Live, hlife' hrp] at hr
    exact h.integrity.distinct q r Q R hq hr hQ hR
  · intro q Q hq hQ
    obtain ⟨hqp, hQ⟩ := hproc hQ
    rw [htable]
    exact h.integrity.registered q Q (hlife' hqp ▸ hq) hQ
  · intro i q hi
    rw [htable] at hi
    obtain ⟨Q, hQ, hQi⟩ := h.integrity.entry i q hi
    exact ⟨Q, by rw [hheap', Function.update_of_ne (hentry hi), hQ], hQi⟩
  · intro q Q hq hQ
    obtain ⟨hqp, hQ⟩ := hproc hQ
    rw [htable]
    exact h.unregistered q Q (hlife' hqp ▸ hq) hQ
  · intro i q hi
    rw [htable] at hi
    rw [hlife' (hentry hi)]
    exact h.entry_life i q hi

/-! ### Runs -/

theorem boot : TableInv Machine.boot where
  consistent := .boot
  integrity := by
    refine ⟨?_, ?_, ?_, ?_, ?_, ?_⟩
    · intro p q P Q hp hq _ _ _
      have hone : ∀ r, Machine.boot.Live r → r = 1 := by
        intro r hr
        by_contra hne
        simp [Machine.Live, Machine.boot, hne] at hr
      rw [hone p hp, hone q hq]
    · intro p P hp hP
      have hp1 : p = 1 := by
        by_contra hne
        simp [Machine.boot, hne] at hp
      subst hp1
      simp only [Machine.boot, bootKernel, Function.update_self, Option.some.injEq] at hP ⊢
      rw [← hP]
      rfl
    · intro i p hi
      simp only [Machine.boot, bootKernel] at hi ⊢
      by_cases h2 : i = 2
      · rw [h2, Function.update_self, Option.some.injEq] at hi
        subst hi
        exact ⟨_, Function.update_self .., h2.symm⟩
      · simp [h2] at hi
    · intro i
      by_cases h2 : i = 2 <;> simp [Machine.boot, bootKernel, h2]
    · intro i
      by_cases h2 : i = 2 <;> simp [Machine.boot, bootKernel, h2]
    · simp only [Machine.boot, bootKernel, ProcTable.entries]
      rw [card_occupied_store (mem_pids.mpr (by decide)) rfl]
      simp [occupied]
  unregistered := by
    intro p P hp
    by_cases hp1 : p = 1 <;> simp [Machine.boot, hp1] at hp
  entry_life := by
    intro i p hi
    simp only [Machine.boot, bootKernel] at hi ⊢
    by_cases h2 : i = 2
    · rw [h2, Function.update_self, Option.some.injEq] at hi
      rw [← hi, Function.update_self]
    · simp [h2] at hi

/-- A step that registers once keeps the invariant. -/
theorem step (h : TableInv m) (hs : m.step a = some m') (hok : m.RegistersOnce a) :
    TableInv m' := by
  cases Machine.step_effect hs with
  | quiet ha hpc hpc' hquiet hthreads hlive hnext hlife hwaited => exact h.of_quiet hs hquiet hlife
  | @inCvWait _ t _ ha hwait =>
    rcases hwait with hwait | ⟨q, Q, -, hQ, hne⟩
    · rw [h.consistent.awake t] at hwait
      cases hwait
    · exact absurd (h.consistent.objects.childless q Q hQ).1 hne
  | refused ha => exact h
  | @created _ t c p lock sem _ ha hpc hlive hfresh hlt hfree hlock hheap htable hthreads hkproc
      hgrows hnext hlife hwaited =>
    refine h.created hfresh hfree hheap htable hlife hs ?_
    cases a with
    | create t' al => exact hok ha
    | fork t' al => exact hok ha
    | _ => exact ha.elim
  | @registered t al c p P pc' _ hpc hP hadd hpc' hnext hlife hwaited =>
    exact h.registered hs (h.consistent.life_of_handles (by rw [hpc]; rfl)) hP hok.1 hok.2 hadd hlife
  | forkAdded => exact hok.elim
  | started ha hpc hnew hquiet hthreads hnext hlife hwaited => exact h.of_quiet hs hquiet hlife
  | failed ha hpc hquiet hthreads hnext hlife hwaited => exact h.of_quiet hs hquiet hlife
  | kernelThread hnew hquiet hthreads hnext hlife hwaited => exact h.of_quiet hs hquiet hlife
  | exiting hpc hcur hquiet hthreads hnext hlife hwaited => exact h.of_quiet hs hquiet hlife
  | @removed t p P exiting s₁ _ hpc hne hP hquiet hthreads hremove hnext hlife hwaited =>
    have hhandles : (m.pc t).handles = some (p, exiting, .registered) := by rw [hpc]; rfl
    exact h.removed hs (h.consistent.life_of_handles hhandles) hP hquiet hremove hlife
  | @destroyed t p exiting s₁ _ hpc hend hk hnext hlife hwaited =>
    have hhandles : (m.pc t).handles = some (p, exiting, .removed) := by rw [hpc]; rfl
    exact h.destroyed hs (h.consistent.life_of_handles hhandles)
      (h.consistent.heap_of_handles hhandles) hend hk hlife

/-- Nothing is asked of a step that hands out no pid and does not call `add_proc`. -/
theorem registersOnce_of_not (hout : ¬ m.HandsOutPid a) (hreg : ∀ t al, a ≠ .register t al)
    (hfork : ∀ t l c, a ≠ .forkAdd t l c) : m.RegistersOnce a := by
  cases a with
  | register t al => exact absurd rfl (hreg t al)
  | forkAdd t l c => exact absurd rfl (hfork t l c)
  | _ => exact fun h => absurd h hout

theorem registersOnce_of_quiet (ha : a.IsQuiet) : m.RegistersOnce a := by
  refine registersOnce_of_not ?_ ?_ ?_
  · cases a <;> first | exact ha.elim | exact id
  · rintro _ _ rfl
    exact ha
  · rintro _ _ _ rfl
    exact ha

/-- A step that hands out the pid no creation holds, or none. -/
theorem registersOnce_of_alone (ha : m.HandsOutPid a ∨ m.Refuses a)
    (halone : m.HandsOutPid a → ∀ q Q, m.life q = .created → m.kernel.procHeap q = some Q →
      Q.pPid ≠ m.kernel.newPid) : m.RegistersOnce a := by
  cases a with
  | create t al => exact halone
  | fork t al => exact halone
  | _ => exact ha.elim False.elim False.elim

/-- What is refused hands out a pid only when the table is full. -/
theorem newPid_of_refused (ha : m.Refuses a) (hout : m.HandsOutPid a) : m.kernel.newPid = -1 := by
  cases a with
  | create t al => exact ha hout
  | fork t al =>
    obtain ⟨r, R, hr, hR, hnone⟩ := ha
    obtain ⟨r', R', hr', hR', hsome⟩ := hout.2
    obtain rfl : r = r' := Option.some.inj (hr.symm.trans hr')
    obtain rfl : R = R' := Option.some.inj (hR.symm.trans hR')
    exact absurd hnone hsome
  | _ => exact ha.elim

/-- Any other step breaks the table at once. -/
theorem step_break (h : TableInv m) (hs : m.step a = some m') (hno : ¬ m.RegistersOnce a) :
    ¬ Integrity m' := by
  cases Machine.step_effect hs with
  | @created _ t c p lock sem _ ha hpc hlive hfresh hlt hfree hlock hheap htable hthreads hkproc
      hgrows hnext hlife hwaited =>
    by_cases hex : ∃ q Q, m.life q = .created ∧ m.kernel.procHeap q = some Q ∧
        Q.pPid = m.kernel.newPid
    · obtain ⟨q, Q, hq, hQ, hpid⟩ := hex
      exact h.created_break hfresh hheap hlife hq hQ hpid
    · exact absurd (registersOnce_of_alone (Or.inl ha)
        fun _ q Q hq hQ hpid => hex ⟨q, Q, hq, hQ, hpid⟩) hno
  | registered hpc hP hadd hpc' hnext hlife hwaited => exact registered_break hno hadd
  | @forkAdded t lockOk cvOk q p Q P _ hpc hq hQ hP hadd hnext hlife hwaited =>
    exact h.forkAdded_break (h.consistent.life_of_handles (t := t) (by rw [hpc]; rfl)) hP hadd
  | refused ha =>
    refine absurd (registersOnce_of_alone (Or.inr ha) fun hout q Q hq hQ => ?_) hno
    rw [newPid_of_refused ha hout]
    have := (h.consistent.objects.pids q Q hQ).1
    omega
  | quiet ha => exact absurd (registersOnce_of_quiet ha) hno
  | inCvWait ha => exact absurd (registersOnce_of_quiet ha) hno
  | started ha =>
    refine absurd (registersOnce_of_not ?_ ?_ ?_) hno <;> rcases ha with ⟨e, rfl⟩ | rfl <;>
      simp [Machine.HandsOutPid]
  | failed ha =>
    refine absurd (registersOnce_of_not ?_ ?_ ?_) hno <;> rcases ha with ⟨e, rfl⟩ | rfl <;>
      simp [Machine.HandsOutPid]
  | kernelThread => exact absurd (registersOnce_of_not id (by simp) (by simp)) hno
  | exiting => exact absurd (registersOnce_of_not id (by simp) (by simp)) hno
  | removed => exact absurd (registersOnce_of_not id (by simp) (by simp)) hno
  | destroyed => exact absurd (registersOnce_of_not id (by simp) (by simp)) hno

end TableInv

/-- **Integrity of the process table.** The table is intact in every state of a run exactly when
every creation of the run registers its process once, alone with its pid. -/
theorem integrity_iff_registersOnce (schedule : List Action) :
    Along Machine.step Integrity Machine.boot schedule ↔
      Meets Machine.step Machine.RegistersOnce Machine.boot schedule :=
  along_iff_meets_of_break (I := TableInv) (fun _ h => h.integrity)
    (fun _ _ _ h hs hok => h.step hs hok) (fun _ _ _ h hs hno => h.step_break hs hno) .boot

/-- Three processes are in the table and four are counted. -/
theorem fork_counts_twice : ¬ Along Machine.step Integrity Machine.boot forkSchedule := by
  intro h
  have hcount := (h.last exec_forkSchedule).activeProcs
  have hprocs : Machine.forkedOnce.kernel.procTable.procs =
      update (update (update (update (fun _ => none) 2 (some 1)) 3 (some 5)) 4 (some 9)) 4
        (some 9) := rfl
  rw [show Machine.forkedOnce.kernel.procTable.activeProcs = 4 from rfl, ProcTable.entries, hprocs,
    card_occupied_overwrite (mem_pids.mpr (by decide)) (by simp),
    card_occupied_store (mem_pids.mpr (by decide)) (by simp),
    card_occupied_store (mem_pids.mpr (by decide)) (by simp),
    card_occupied_store (mem_pids.mpr (by decide)) rfl] at hcount
  simp [occupied] at hcount

end UnionCollegeCode.OS161
