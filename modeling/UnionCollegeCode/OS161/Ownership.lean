import UnionCollegeCode.OS161.Effects

/-!
# Consistent machines

Which thread handles which process (`Ownership`), what holds of the objects on the heap (`Objects`),
and that both hold in every state a booted machine reaches (`Consistent`).
-/

set_option autoImplicit false

namespace UnionCollegeCode.OS161

open Function (update)
open Lib.EState

/-! ## Who handles which process -/

/-- Who handles which process. Making a process, or destroying one that never ran, is done by one
thread that is not of it; a process other than the kernel's has at most one thread, which destroys it
when it exits. `handles` is read off the control points, `cur` is `curproc`. -/
structure Ownership (handles : Tid → Option (Ptr × Bool × Life)) (cur : Tid → Option Ptr)
    (life : Ptr → Life) (kproc : Ptr) : Prop where
  life_eq : ∀ t p e l, handles t = some (p, e, l) → life p = l
  present : ∀ t p e l, handles t = some (p, e, l) → l ≠ .absent
  exiting : ∀ t p l, handles t = some (p, true, l) → cur t = some p
  unique : ∀ t t' p l l', handles t = some (p, false, l) → handles t' = some (p, false, l') → t = t'
  no_thread : ∀ t t' p l, handles t = some (p, false, l) → cur t' ≠ some p
  single : ∀ t t' p, cur t = some p → cur t' = some p → p ≠ kproc → t = t'
  alive : ∀ t p, cur t = some p → life p = .registered ∨ handles t = some (p, true, .removed)
  kproc_live : life kproc = .registered
  kproc_free : ∀ t l, handles t ≠ some (kproc, false, l)

namespace Ownership
variable {handles : Tid → Option (Ptr × Bool × Life)} {cur : Tid → Option Ptr}
  {life : Ptr → Life} {kproc : Ptr} {t : Tid} {p : Ptr}

/-- Nobody shares a process other than the kernel's. -/
theorem handler_unique {t' : Tid} {e e' : Bool} {l l' : Life} (h : Ownership handles cur life kproc)
    (hp : p ≠ kproc) (ht : handles t = some (p, e, l)) (ht' : handles t' = some (p, e', l')) :
    t = t' := by
  cases e with
  | false =>
    cases e' with
    | false => exact h.unique t t' p l l' ht ht'
    | true => exact absurd (h.exiting t' p l' ht') (h.no_thread t t' p l ht)
  | true =>
    cases e' with
    | false => exact absurd (h.exiting t p l ht) (h.no_thread t' t p l' ht')
    | true => exact h.single t t' p (h.exiting t p l ht) (h.exiting t' p l' ht') hp

/-- A new process is made by a thread that handles none. -/
theorem take (h : Ownership handles cur life kproc) (ht : handles t = none)
    (hp : life p = .absent) :
    Ownership (update handles t (some (p, false, .created))) cur (update life p .created) kproc := by
  constructor <;> grind [Ownership, Function.update_apply]

/-- The process goes on to the next part of its life. -/
theorem advance {l l' : Life} {e : Bool} (h : Ownership handles cur life kproc)
    (ht : handles t = some (p, e, l)) (hl : l' ≠ .absent) (hk : p = kproc → l' = .registered)
    (he : e = true → l' = .removed ∨ l' = .registered) :
    Ownership (update handles t (some (p, e, l'))) cur (update life p l') kproc := by
  have huniq : ∀ t' e' l'', p ≠ kproc → handles t' = some (p, e', l'') → t = t' :=
    fun _ _ _ hp => h.handler_unique hp ht
  cases e <;> constructor <;> grind [Ownership, Function.update_apply]

/-- The process gets its first thread and is its maker's no more. -/
theorem handOver {tid : Tid} (h : Ownership handles cur life kproc)
    (ht : handles t = some (p, false, .registered)) (hne : handles tid = none) :
    Ownership (update handles t none) (update cur tid (some p)) life kproc := by
  constructor <;> grind [Ownership, Function.update_apply]

/-- The kernel's process gets one more thread. -/
theorem join {tid : Tid} (h : Ownership handles cur life kproc) (hne : handles tid = none) :
    Ownership handles (update cur tid (some kproc)) life kproc := by
  constructor <;> grind [Ownership, Function.update_apply]

/-- A thread starts to destroy its own process. -/
theorem leave (h : Ownership handles cur life kproc) (ht : handles t = none)
    (hcur : cur t = some p) :
    Ownership (update handles t (some (p, true, .registered))) cur life kproc := by
  constructor <;> grind [Ownership, Function.update_apply]

/-- The process is gone, and its thread with it. -/
theorem drop {e : Bool} (h : Ownership handles cur life kproc)
    (ht : handles t = some (p, e, .removed)) :
    Ownership (update handles t none) (if e then update cur t none else cur)
      (update life p .absent) kproc := by
  have hp : p ≠ kproc := by
    rintro rfl
    exact absurd ((h.life_eq t _ e _ ht).symm.trans h.kproc_live) (by decide)
  have huniq : ∀ t' e' l'', handles t' = some (p, e', l'') → t = t' :=
    fun _ _ _ => h.handler_unique hp ht
  constructor <;> grind [Ownership, Function.update_apply]

end Ownership

/-! ## The heap -/

/-- The objects of one column of the table are allocated, each for its own slot. -/
structure Unshared (s : Kernel) (column : ℤ → Option Ptr) : Prop where
  fresh : ∀ pid l, column pid = some l → l < s.next
  injective : ∀ pid pid' l, column pid = some l → column pid' = some l → pid = pid'

namespace Unshared

variable {s s' : Kernel} {column : ℤ → Option Ptr}

theorem mono (h : Unshared s column) (hnext : s.next ≤ s'.next) : Unshared s' column :=
  ⟨fun pid l hl => Nat.lt_of_lt_of_le (h.fresh pid l hl) hnext, h.injective⟩

theorem store (h : Unshared s column) (hnext : s.next ≤ s'.next) {pid : ℤ} {new : Option Ptr}
    (hnew : ∀ l ∈ new, s.next ≤ l ∧ l < s'.next) : Unshared s' (update column pid new) := by
  have hne {i : ℤ} {l : Ptr} (hl : column i = some l) (hm : new = some l) : False :=
    Nat.lt_irrefl l (Nat.lt_of_lt_of_le (h.fresh i l hl) (hnew l hm).1)
  constructor
  · intro i l hl
    by_cases hi : i = pid
    · rw [hi, Function.update_self] at hl
      exact (hnew l hl).2
    · rw [Function.update_of_ne hi] at hl
      exact Nat.lt_of_lt_of_le (h.fresh i l hl) hnext
  · intro i j l hi hj
    by_cases hip : i = pid <;> by_cases hjp : j = pid
    · rw [hip, hjp]
    · rw [hip, Function.update_self] at hi
      rw [Function.update_of_ne hjp] at hj
      exact (hne hj hi).elim
    · rw [hjp, Function.update_self] at hj
      rw [Function.update_of_ne hip] at hi
      exact (hne hi hj).elim
    · rw [Function.update_of_ne hip] at hi
      rw [Function.update_of_ne hjp] at hj
      exact h.injective i j l hi hj

theorem single {pid : ℤ} {l : Ptr} (hl : l < s.next) :
    Unshared s (update (fun _ => none) pid (some l)) := by
  constructor
  · intro i l' hi
    by_cases hip : i = pid <;> simp_all
  · intro i j l' hi hj
    by_cases hip : i = pid <;> by_cases hjp : j = pid <;> simp_all

theorem clear (h : Unshared s column) (pid : ℤ) : Unshared s (update column pid none) :=
  h.store (Nat.le_refl _) (by simp)

end Unshared

structure Objects (s : Kernel) (life : Ptr → Life) : Prop where
  present : ∀ p, s.procHeap p ≠ none ↔ life p ≠ .absent
  fresh : ∀ p, s.procHeap p ≠ none → p < s.next
  pids : ∀ p P, s.procHeap p = some P → 2 ≤ P.pPid ∧ P.pPid < pidMax
  /-- Nothing is ever added to `p_children_ll`, and `parent_proc` stays `NULL`. -/
  childless : ∀ p P, s.procHeap p = some P → P.pChildrenLl.data = [] ∧ P.parentProc = none
  exitLocks : Unshared s s.procTable.exitLocks
  exitCvs : Unshared s s.procTable.exitCvs
  listLock : ∀ p P l, s.procHeap p = some P → P.pChildrenLl.llLock = some l →
    l < s.next ∧ ∀ pid, s.procTable.exitLocks pid ≠ some l

namespace Objects

variable {s s' : Kernel} {life : Ptr → Life} {p : Ptr}

theorem of_quiet (h : Objects s life) (hq : Quiet s s') : Objects s' life where
  present := fun p => by
    rw [← h.present p]
    have hkin := hq.kin p
    cases hP : s.procHeap p <;> cases hP' : s'.procHeap p <;> simp_all
  fresh := fun p hp => by
    obtain ⟨P', hP'⟩ := Option.ne_none_iff_exists'.mp hp
    obtain ⟨P, hP, -⟩ := hq.exists_proc hP'
    exact Nat.lt_of_lt_of_le (h.fresh p (by simp [hP])) hq.grows.next
  pids := fun p P' hP' => by
    obtain ⟨P, hP, hkin⟩ := hq.exists_proc hP'
    rw [Proc.pPid_of_kin hkin]
    exact h.pids p P hP
  childless := fun p P' hP' => by
    obtain ⟨P, hP, hkin⟩ := hq.exists_proc hP'
    rw [Proc.children_of_kin hkin, Proc.parent_of_kin hkin]
    exact h.childless p P hP
  exitLocks := hq.procTable ▸ h.exitLocks.mono hq.grows.next
  exitCvs := hq.procTable ▸ h.exitCvs.mono hq.grows.next
  listLock := fun p P' l hP' hl => by
    obtain ⟨P, hP, hkin⟩ := hq.exists_proc hP'
    rw [Proc.children_of_kin hkin] at hl
    obtain ⟨hlt, hne⟩ := h.listLock p P l hP hl
    rw [hq.procTable]
    exact ⟨Nat.lt_of_lt_of_le hlt hq.grows.next, hne⟩

/-- `proc_create`'s first part. -/
theorem create (h : Objects s life) {pid : ℤ} {lock : Option Ptr} {sem : Option Semaphore}
    (hpid : IsFree s pid) (hlt : p < s'.next)
    (hlock : ∀ l ∈ lock, s.next ≤ l ∧ l < s'.next)
    (hheap : s'.procHeap = update s.procHeap p (some (.new pid ⟨[], lock⟩ sem)))
    (htable : s'.procTable = s.procTable) (hgrows : Grows s s') :
    Objects s' (update life p .created) := by
  have hnext := hgrows.next
  constructor
  · intro q
    rw [hheap]
    by_cases hq : q = p
    · simp [hq]
    · simpa [Function.update_of_ne hq] using h.present q
  · intro q hq
    rw [hheap] at hq
    by_cases hqp : q = p
    · exact hqp ▸ hlt
    · rw [Function.update_of_ne hqp] at hq
      exact Nat.lt_of_lt_of_le (h.fresh q hq) hnext
  · intro q P hP
    rw [hheap] at hP
    by_cases hqp : q = p
    · simp only [hqp, Function.update_self, Option.some.injEq] at hP
      subst hP
      exact ⟨hpid.two_le, hpid.lt⟩
    · exact h.pids q P (by rwa [Function.update_of_ne hqp] at hP)
  · intro q P hP
    rw [hheap] at hP
    by_cases hqp : q = p
    · simp only [hqp, Function.update_self, Option.some.injEq] at hP
      subst hP
      exact ⟨rfl, rfl⟩
    · exact h.childless q P (by rwa [Function.update_of_ne hqp] at hP)
  · exact htable ▸ h.exitLocks.mono hnext
  · exact htable ▸ h.exitCvs.mono hnext
  · intro q P l hP hl
    rw [hheap] at hP
    rw [htable]
    by_cases hqp : q = p
    · simp only [hqp, Function.update_self, Option.some.injEq] at hP
      subst hP
      refine ⟨(hlock l hl).2, fun i hi => ?_⟩
      exact Nat.lt_irrefl l (Nat.lt_of_lt_of_le (h.exitLocks.fresh i l hi) (hlock l hl).1)
    · obtain ⟨hlt', hne⟩ := h.listLock q P l (by rwa [Function.update_of_ne hqp] at hP) hl
      exact ⟨Nat.lt_of_lt_of_le hlt' hnext, hne⟩

/-- `add_proc` puts a new lock in the table, and one that no list has. -/
theorem add (h : Objects s life) {pid : ℤ} {lockOk cvOk : Bool} {u : Unit}
    (hadd : addProc p pid lockOk cvOk s = .ok u s') : Objects s' life := by
  obtain ⟨lock, cv, -, -, hlock, hcv, hgrows, -, htable, hheap, -, -⟩ := addProc_spec hadd
  have hnext := hgrows.next
  refine ⟨hheap ▸ h.present, fun q hq => ?_, hheap ▸ h.pids, hheap ▸ h.childless,
    htable ▸ h.exitLocks.store hnext hlock, htable ▸ h.exitCvs.store hnext hcv,
    fun q P l hP hl => ?_⟩
  · exact Nat.lt_of_lt_of_le (h.fresh q (hheap ▸ hq)) hnext
  · obtain ⟨hlt, hne⟩ := h.listLock q P l (hheap ▸ hP) hl
    refine ⟨Nat.lt_of_lt_of_le hlt hnext, fun i hi => ?_⟩
    rw [htable] at hi
    simp only [ProcTable.add] at hi
    by_cases hip : i = pid
    · rw [hip, Function.update_self] at hi
      exact Nat.lt_irrefl l (Nat.lt_of_lt_of_le hlt (hlock l hi).1)
    · exact hne i (by rwa [Function.update_of_ne hip] at hi)

theorem remove (h : Objects s life) {t : Tid} {pid : ℤ} {u : Unit}
    (hremove : removeProc t pid s = .ok u s') : Objects s' life := by
  obtain ⟨l, c, -, -, -, -, rfl⟩ := removeProc_spec hremove
  have hlocks := h.exitLocks.clear pid
  have hcvs := h.exitCvs.clear pid
  refine ⟨h.present, h.fresh, h.pids, h.childless, ⟨hlocks.fresh, hlocks.injective⟩,
    ⟨hcvs.fresh, hcvs.injective⟩, fun q P l' hP hl' => ?_⟩
  obtain ⟨hlt, hne⟩ := h.listLock q P l' hP hl'
  refine ⟨hlt, fun i hi => hne i ?_⟩
  simp only [ProcTable.remove, Kernel.setTable] at hi
  by_cases hip : i = pid
  · simp [hip] at hi
  · rwa [Function.update_of_ne hip] at hi

/-- The process's life may change as long as it does not end. -/
theorem relive (h : Objects s life) {l : Life} (hp : s.procHeap p ≠ none) (hl : l ≠ .absent) :
    Objects s (update life p l) := by
  refine ⟨fun q => ?_, h.fresh, h.pids, h.childless, h.exitLocks, h.exitCvs, h.listLock⟩
  by_cases hq : q = p
  · subst hq
    simp [hp, hl]
  · rw [Function.update_of_ne hq]
    exact h.present q

theorem setPpid (h : Objects s life) {P : Proc} {ppid : ℤ} (hP : s.procHeap p = some P) :
    Objects (s.setProc p (some { P with pPpid := ppid })) life := by
  have hback : ∀ q Q, (s.setProc p (some { P with pPpid := ppid })).procHeap q = some Q →
      ∃ Q', s.procHeap q = some Q' ∧ Q.pPid = Q'.pPid ∧ Q.pChildrenLl = Q'.pChildrenLl ∧
        Q.parentProc = Q'.parentProc := by
    intro q Q hQ
    by_cases hq : q = p
    · subst hq
      simp only [Kernel.setProc, Function.update_self, Option.some.injEq] at hQ
      subst hQ
      exact ⟨P, hP, rfl, rfl, rfl⟩
    · exact ⟨Q, by simpa [Kernel.setProc, hq] using hQ, rfl, rfl, rfl⟩
  constructor
  · intro q
    rw [← h.present q]
    by_cases hq : q = p
    · simp [Kernel.setProc, hq, hP]
    · simp [Kernel.setProc, hq]
  · intro q hq
    obtain ⟨Q, hQ⟩ := Option.ne_none_iff_exists'.mp hq
    obtain ⟨Q', hQ', -⟩ := hback q Q hQ
    exact h.fresh q (by simp [hQ'])
  · intro q Q hQ
    obtain ⟨Q', hQ', hpid, -, -⟩ := hback q Q hQ
    rw [hpid]
    exact h.pids q Q' hQ'
  · intro q Q hQ
    obtain ⟨Q', hQ', -, hll, hparent⟩ := hback q Q hQ
    rw [hll, hparent]
    exact h.childless q Q' hQ'
  · exact ⟨h.exitLocks.fresh, h.exitLocks.injective⟩
  · exact ⟨h.exitCvs.fresh, h.exitCvs.injective⟩
  · intro q Q l hQ hl
    obtain ⟨Q', hQ', -, hll, -⟩ := hback q Q hQ
    exact h.listLock q Q' l hQ' (by rwa [← hll])

/-- `proc_destroy`'s last part. -/
theorem destroy (h : Objects s life) {t : Tid} {u : Unit} (hp : s.procHeap p ≠ none)
    (hend : procDestroyEnd t p s = .ok u s') : Objects s' (update life p .absent) := by
  obtain ⟨P, hP⟩ := Option.ne_none_iff_exists'.mp hp
  obtain ⟨l, s₁, -, -, hsync, rfl⟩ := procDestroyEnd_spec hP (h.childless p P hP).2 hend
  have hback : ∀ q Q, update s₁.procHeap p none q = some Q → s.procHeap q = some Q := by
    intro q Q hQ
    by_cases hq : q = p
    · simp [hq] at hQ
    · rwa [Function.update_of_ne hq, hsync.procHeap] at hQ
  constructor
  · intro q
    simp only [Kernel.setProc, Kernel.setLock, hsync.procHeap]
    by_cases hq : q = p
    · simp [hq]
    · rw [Function.update_of_ne hq, Function.update_of_ne hq]
      exact h.present q
  · intro q hq
    obtain ⟨Q, hQ⟩ := Option.ne_none_iff_exists'.mp hq
    have := h.fresh q (by simp [hback q Q hQ])
    rwa [← hsync.next] at this
  · exact fun q Q hQ => h.pids q Q (hback q Q hQ)
  · exact fun q Q hQ => h.childless q Q (hback q Q hQ)
  · have hlocks := h.exitLocks.mono (Nat.le_of_eq hsync.next.symm)
    rw [← hsync.procTable] at hlocks
    exact ⟨hlocks.fresh, hlocks.injective⟩
  · have hcvs := h.exitCvs.mono (Nat.le_of_eq hsync.next.symm)
    rw [← hsync.procTable] at hcvs
    exact ⟨hcvs.fresh, hcvs.injective⟩
  · intro q Q l' hQ hl'
    obtain ⟨hlt, hne⟩ := h.listLock q Q l' (hback q Q hQ) hl'
    exact ⟨by rwa [← hsync.next] at hlt, fun i hi => hne i (hsync.procTable ▸ hi)⟩

end Objects

/-! ## Machines -/

theorem Kernel.curproc_update {s s' : Kernel} {t : Tid} {th : Option Thread}
    (h : s'.threads = update s.threads t th) :
    s'.curproc = update s.curproc t (th.bind Thread.tProc) := by
  funext t'
  unfold Kernel.curproc
  rw [h]
  by_cases ht : t' = t
  · simp [ht]
  · simp [Function.update_of_ne ht]

theorem Kernel.curproc_eq {s s' : Kernel} (h : s'.threads = s.threads) : s'.curproc = s.curproc := by
  funext t
  unfold Kernel.curproc
  rw [h]

theorem handles_update {pc : Tid → Pc} (t : Tid) (pc' : Pc) :
    (fun t' => (update pc t pc' t').handles) = update (fun t' => (pc t').handles) t pc'.handles := by
  funext t'
  by_cases ht : t' = t
  · simp [ht]
  · simp [Function.update_of_ne ht]

/-- Every thread handles what its control point says, and none is in `cv_wait`. -/
structure Consistent (m : Machine) : Prop where
  ownership : Ownership (fun t => (m.pc t).handles) m.kernel.curproc m.life m.kernel.kproc
  objects : Objects m.kernel m.life
  awake : ∀ t, (m.pc t).inCvWait = false
  outside_of_new : ∀ t, m.kernel.threads t = none → m.pc t = .outside

namespace Consistent

variable {m m' : Machine} {t : Tid}

theorem awake_update (h : Consistent m) {pc' : Pc} (hpc' : pc'.inCvWait = false) (t' : Tid) :
    (update m.pc t pc' t').inCvWait = false := by
  by_cases ht : t' = t
  · rw [ht, Function.update_self]
    exact hpc'
  · rw [Function.update_of_ne ht]
    exact h.awake t'

/-- A thread that has left the code around `sys_waitpid`, or is there, exists. -/
theorem live (h : Consistent m) (hpc : m.pc t ≠ .outside) : m.kernel.threads t ≠ none :=
  fun hnone => hpc (h.outside_of_new t hnone)

theorem outside_update (h : Consistent m) {pc' : Pc} {threads : Tid → Option Thread}
    (ht : threads t ≠ none ∨ pc' = .outside)
    (hthreads : ∀ t' ≠ t, threads t' = none → m.kernel.threads t' = none) (t' : Tid)
    (hnone : threads t' = none) : update m.pc t pc' t' = .outside := by
  by_cases htt : t' = t
  · subst htt
    rw [Function.update_self]
    exact ht.resolve_left fun hne => hne hnone
  · rw [Function.update_of_ne htt]
    exact h.outside_of_new t' (hthreads t' htt hnone)

/-- The same threads as before, of which `t` is one. -/
theorem outside_of_threads (h : Consistent m) {pc' : Pc} (hlive : m.kernel.threads t ≠ none)
    (hthreads : m'.kernel.threads = m.kernel.threads) (t' : Tid)
    (hnone : m'.kernel.threads t' = none) : update m.pc t pc' t' = .outside := by
  rw [hthreads] at hnone
  exact h.outside_update (Or.inl hlive) (fun _ _ hnone => hnone) t' hnone

/-- A process a thread handles is on the heap. -/
theorem heap_of_handles (h : Consistent m) {p : Ptr} {e : Bool} {l : Life}
    (ht : (m.pc t).handles = some (p, e, l)) : m.kernel.procHeap p ≠ none := by
  rw [h.objects.present p, h.ownership.life_eq t p e l ht]
  exact h.ownership.present t p e l ht

theorem life_of_handles (h : Consistent m) {p : Ptr} {e : Bool} {l : Life}
    (ht : (m.pc t).handles = some (p, e, l)) : m.life p = l :=
  h.ownership.life_eq t p e l ht

/-- Everything but the threads and their control points is as it was. -/
theorem of_quiet (h : Consistent m) {pc' : Pc} (hquiet : Quiet m.kernel m'.kernel)
    (hthreads : m'.kernel.threads = m.kernel.threads) (hnext : m'.pc = update m.pc t pc')
    (hlife : m'.life = m.life) (hwait : pc'.inCvWait = false)
    (hlive : m.kernel.threads t ≠ none ∨ pc' = .outside)
    (howner : Ownership (update (fun t => (m.pc t).handles) t pc'.handles) m.kernel.curproc m.life
      m.kernel.kproc) : Consistent m' where
  ownership := by
    rw [hnext, handles_update, Kernel.curproc_eq hthreads, hlife, hquiet.kproc]
    exact howner
  objects := hlife ▸ h.objects.of_quiet hquiet
  awake := hnext ▸ h.awake_update hwait
  outside_of_new := by
    rw [hnext]
    exact h.outside_update (by rwa [hthreads]) fun t' _ hnone => hthreads ▸ hnone

/-- **Consistency is invariant.** -/
theorem step (h : Consistent m) {a : Action} (hs : m.step a = some m') : Consistent m' := by
  cases Machine.step_effect hs with
  | quiet ha hpc hpc' hquiet hthreads hlive hnext hlife hwaited =>
    refine h.of_quiet hquiet hthreads hnext hlife hpc'.inCvWait ?_ ?_
    · exact Or.inl (hlive.elim id h.live)
    · rw [hpc'.handles, ← hpc.handles, Function.update_eq_self]
      exact h.ownership
  | inCvWait ha hwait =>
    -- Nobody waits, because nobody has a child in its list.
    rcases hwait with hwait | ⟨q, Q, -, hQ, hne⟩
    · rw [h.awake] at hwait
      cases hwait
    · exact absurd (h.objects.childless q Q hQ).1 hne
  | refused ha => exact h
  | @created _ t c p lock sem _ ha hpc hlive hfresh hlt hfree hlock hheap htable hthreads hkproc
      hgrows hnext hlife hwaited =>
    have habsent : m.life p = .absent := by
      by_contra hne
      exact Nat.lt_irrefl _ (Nat.lt_of_lt_of_le (h.objects.fresh p ((h.objects.present p).mpr hne))
        hfresh)
    constructor
    · rw [hnext, handles_update, Kernel.curproc_eq hthreads, hlife, hkproc]
      exact h.ownership.take hpc.handles habsent
    · rw [hlife]
      exact h.objects.create hfree hlt hlock hheap htable hgrows
    · rw [hnext]
      exact h.awake_update rfl
    · rw [hnext]
      exact h.outside_of_threads hlive hthreads
  | @registered t al c p P pc' _ hpc hP hadd hpc' hnext hlife hwaited =>
    obtain ⟨lock, cv, -, -, -, -, -, -, -, -, hthreads, hkproc⟩ := addProc_spec hadd
    have hhandles : (m.pc t).handles = some (p, false, .created) := by rw [hpc]; rfl
    constructor
    · rw [hnext, handles_update, Kernel.curproc_eq hthreads, hlife, hkproc, hpc'.1]
      exact h.ownership.advance hhandles (by decide) (fun _ => rfl) (by decide)
    · rw [hlife]
      exact (h.objects.add hadd).relive
        (by rw [(h.objects.add hadd).present, h.life_of_handles hhandles]; decide) (by decide)
    · rw [hnext]
      exact h.awake_update hpc'.2
    · rw [hnext]
      exact h.outside_of_threads (h.live (by simp [hpc])) hthreads
  | @forkAdded t lockOk cvOk q p Q P _ hpc hq hQ hP hadd hnext hlife hwaited =>
    obtain ⟨lock, cv, -, -, -, -, -, -, -, -, hthreads, hkproc⟩ := addProc_spec hadd
    have hhandles : (m.pc t).handles = some (p, false, .registered) := by rw [hpc]; rfl
    constructor
    · rw [hnext, handles_update, Kernel.curproc_eq hthreads, hlife, hkproc,
        show Pc.handles (.starting .sysFork p) = (m.pc t).handles by rw [hpc]; rfl,
        Function.update_eq_self]
      exact h.ownership
    · rw [hlife]
      exact (h.objects.setPpid hP).add hadd
    · rw [hnext]
      exact h.awake_update rfl
    · rw [hnext]
      exact h.outside_of_threads (h.live (by simp [hpc])) hthreads
  | @started _ t tid c p _ ha hpc hnew hquiet hthreads hnext hlife hwaited =>
    have hhandles : (m.pc t).handles = some (p, false, .registered) := by rw [hpc]; rfl
    have hidle : (m.pc tid).handles = none := by rw [h.outside_of_new tid hnew]; rfl
    constructor
    · rw [hnext, handles_update, Kernel.curproc_update hthreads, hlife, hquiet.kproc]
      exact h.ownership.handOver hhandles hidle
    · rw [hlife]
      exact h.objects.of_quiet hquiet
    · rw [hnext]
      exact h.awake_update rfl
    · rw [hnext]
      refine h.outside_update (Or.inr rfl) fun t' _ hnone => ?_
      rw [hthreads] at hnone
      by_cases htid : t' = tid
      · simp [htid] at hnone
      · rwa [Function.update_of_ne htid] at hnone
  | @failed _ t c p _ ha hpc hquiet hthreads hnext hlife hwaited =>
    refine h.of_quiet hquiet hthreads hnext hlife rfl (Or.inl (h.live (by simp [hpc]))) ?_
    rw [show Pc.handles (.destroying p false) = (m.pc t).handles by rw [hpc]; rfl,
      Function.update_eq_self]
    exact h.ownership
  | @kernelThread t tid _ hnew hquiet hthreads hnext hlife hwaited =>
    have hidle : (m.pc tid).handles = none := by rw [h.outside_of_new tid hnew]; rfl
    constructor
    · rw [hnext, Kernel.curproc_update hthreads, hlife, hquiet.kproc]
      exact h.ownership.join hidle
    · rw [hlife]
      exact h.objects.of_quiet hquiet
    · rw [hnext]
      exact h.awake
    · intro t' hnone
      rw [hnext]
      rw [hthreads] at hnone
      by_cases htid : t' = tid
      · simp [htid] at hnone
      · exact h.outside_of_new t' (by rwa [Function.update_of_ne htid] at hnone)
  | @exiting t p _ hpc hcur hquiet hthreads hnext hlife hwaited =>
    refine h.of_quiet hquiet hthreads hnext hlife rfl (Or.inl ?_)
      (h.ownership.leave hpc.handles hcur)
    intro hnone
    simp [Kernel.curproc, hnone] at hcur
  | @removed t p P exiting s₁ _ hpc hne hP hquiet hthreads hremove hnext hlife hwaited =>
    obtain ⟨l, c, -, -, -, -, hk⟩ := removeProc_spec hremove
    have hhandles : (m.pc t).handles = some (p, exiting, .registered) := by rw [hpc]; rfl
    have hthreads' : m'.kernel.threads = m.kernel.threads := by rw [hk]; exact hthreads
    have hobjects := (h.objects.of_quiet hquiet).remove hremove
    constructor
    · rw [hnext, handles_update, Kernel.curproc_eq hthreads', hlife,
        show m'.kernel.kproc = m.kernel.kproc by rw [hk]; exact hquiet.kproc]
      exact h.ownership.advance hhandles (by decide) (fun heq => absurd heq hne)
        (fun _ => Or.inl rfl)
    · rw [hlife]
      exact hobjects.relive (by rw [hobjects.present, h.life_of_handles hhandles]; decide)
        (by decide)
    · rw [hnext]
      exact h.awake_update rfl
    · rw [hnext]
      exact h.outside_of_threads (h.live (by simp [hpc])) hthreads'
  | @destroyed t p exiting s₁ _ hpc hend hk hnext hlife hwaited =>
    have hhandles : (m.pc t).handles = some (p, exiting, .removed) := by rw [hpc]; rfl
    have hheap := h.heap_of_handles hhandles
    obtain ⟨P, hP⟩ := Option.ne_none_iff_exists'.mp hheap
    obtain ⟨l, s₂, -, -, hsync, hs₁⟩ := procDestroyEnd_spec hP (h.objects.childless p P hP).2 hend
    have hthreads : m'.kernel.threads =
        if exiting then update m.kernel.threads t none else m.kernel.threads := by
      rw [hk, hs₁]
      cases exiting with
      | false => exact hsync.threads
      | true => exact congrArg (fun th => update th t none) hsync.threads
    have hobjects := h.objects.destroy hheap hend
    constructor
    · rw [hnext, handles_update, hlife,
        show m'.kernel.kproc = m.kernel.kproc by
          rw [hk, hs₁]
          cases exiting <;> exact hsync.kproc,
        show m'.kernel.curproc =
            if exiting then update m.kernel.curproc t none else m.kernel.curproc by
          cases exiting with
          | false => exact Kernel.curproc_eq hthreads
          | true => exact Kernel.curproc_update hthreads]
      exact h.ownership.drop hhandles
    · rw [hlife, hk]
      cases exiting with
      | false => exact hobjects
      | true =>
        exact ⟨hobjects.present, hobjects.fresh, hobjects.pids, hobjects.childless,
          ⟨hobjects.exitLocks.fresh, hobjects.exitLocks.injective⟩,
          ⟨hobjects.exitCvs.fresh, hobjects.exitCvs.injective⟩, hobjects.listLock⟩
    · rw [hnext]
      exact h.awake_update rfl
    · rw [hnext]
      refine h.outside_update (Or.inr rfl) fun t' hne hnone => ?_
      rw [hthreads] at hnone
      cases exiting with
      | false => exact hnone
      | true => rwa [if_pos rfl, Function.update_of_ne hne] at hnone

theorem boot : Consistent Machine.boot where
  ownership := by
    have hcur : Machine.boot.kernel.curproc = update (fun _ => none) 0 (some 1) := by
      funext t
      by_cases ht : t = 0
      · simp [ht, Kernel.curproc, Machine.boot, bootKernel]
      · simp [ht, Kernel.curproc, Machine.boot, bootKernel]
    rw [hcur]
    constructor <;> simp [Machine.boot, bootKernel, Pc.handles, Function.update_apply]
  objects := by
    constructor
    · intro p
      by_cases hp : p = 1 <;> simp [Machine.boot, bootKernel, hp]
    case exitLocks => exact .single (by decide)
    case exitCvs => exact .single (by decide)
    all_goals
      simp [Machine.boot, bootKernel, kprocCreated, Proc.new, Function.update_apply, pidMax]
    grind
  awake := fun _ => rfl
  outside_of_new := fun _ _ => rfl

end Consistent

end UnionCollegeCode.OS161
