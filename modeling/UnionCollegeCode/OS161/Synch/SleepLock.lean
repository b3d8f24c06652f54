import UnionCollegeCode.Lib.Run
import UnionCollegeCode.OS161.Kernel

/-!
# A sleep lock between its threads: `lock_acquire`, `lock_release`

One lock and any number of threads. A step is what a thread does from taking a spinlock to giving it
back, or one read outside of every spinlock. Which thread moves, and what a thread outside of the
two functions calls next, is the label: the threads run any programs at all. A failed `KASSERT` stops
the kernel and has no successor.
-/

set_option autoImplicit false

namespace UnionCollegeCode.OS161

open Function (update)
open Lib.EState Lib.Run

/-- Where a thread is in the two functions. -/
inductive LockPc
  | out
  /-- `lock_acquire`, past `KASSERT(lock_do_i_hold(lock)==false)`. -/
  | acquire
  /-- On the lock's wait channel. -/
  | asleep
  /-- Made runnable by `wchan_wakeone`, and not yet back at the test of the loop. -/
  | woken
  /-- `lock_acquire` has returned, `lock_release` is not yet called. -/
  | held
  /-- `lock_release`, past `KASSERT(lock_do_i_hold(lock))`. -/
  | releaseBusy
  /-- Past `KASSERT(lock->is_busy==true)`. -/
  | releaseOwner
  /-- Past `KASSERT(lock->lk_owner!=NULL)`. -/
  | release
  deriving DecidableEq, Repr

/-- Between the return of `lock_acquire` and the end of `lock_release`. -/
def LockPc.holds : LockPc → Bool
  | .held | .releaseBusy | .releaseOwner | .release => true
  | _ => false

/-- The thread is in neither function. -/
def LockPc.idle : LockPc → Bool
  | .out | .held => true
  | _ => false

structure SleepLock where
  lock : Lock
  pc : Tid → LockPc

inductive LockAction
  | acquire (t : Tid)
  | release (t : Tid)
  /-- The thread goes on with the call it is in. -/
  | run (t : Tid)
  deriving DecidableEq, Repr

/-- Whose step it is. -/
def LockAction.thread : LockAction → Tid
  | .acquire t | .release t | .run t => t

/-- The thread that `wchan_wakeone` takes off the channel. -/
def wakeone (wchan : List Tid) (pc : Tid → LockPc) : Tid → LockPc :=
  match wchan with
  | [] => pc
  | w :: _ => update pc w .woken

namespace SleepLock

/-- `lock_create`. -/
def created : SleepLock := ⟨⟨false, none, []⟩, fun _ => .out⟩

def goto (m : SleepLock) (t : Tid) (pc : LockPc) : SleepLock := { m with pc := update m.pc t pc }

/-- With `lk_spinlock` taken, at the test of the loop: sleep, or take the lock and return. -/
def take (m : SleepLock) (t : Tid) : SleepLock :=
  if m.lock.isBusy then
    { lock := { m.lock with lkWchan := m.lock.lkWchan ++ [t] }, pc := update m.pc t .asleep }
  else
    { lock := { m.lock with isBusy := true, lkOwner := some t }, pc := update m.pc t .held }

/-- What `lock_release` does with `lk_spinlock` taken. -/
def letGo (m : SleepLock) (t : Tid) : SleepLock :=
  { lock := ⟨false, none, m.lock.lkWchan.tail⟩, pc := wakeone m.lock.lkWchan (update m.pc t .out) }

def step (m : SleepLock) : LockAction → Option SleepLock
  | .acquire t =>
    if (m.pc t).idle ∧ m.lock.lkOwner ≠ some t then some (m.goto t .acquire) else none
  | .release t =>
    if (m.pc t).idle ∧ m.lock.lkOwner = some t then some (m.goto t .releaseBusy) else none
  | .run t =>
    match m.pc t with
    | .acquire | .woken => some (m.take t)
    | .releaseBusy => if m.lock.isBusy = true then some (m.goto t .releaseOwner) else none
    | .releaseOwner => if m.lock.lkOwner ≠ none then some (m.goto t .release) else none
    | .release => some (m.letGo t)
    | .out | .asleep | .held => none

end SleepLock

/-! ## The one-step functions on the kernel -/

/-- `lockTake` is the section at the test of the loop. -/
theorem lockTake_eq_take {s : Kernel} {p : Ptr} {m : SleepLock} (t : Tid)
    (hp : s.lockHeap p = some m.lock) :
    lockTake t (some p) s = .ok (decide ((m.take t).pc t = .held)) (s.setLock p (m.take t).lock) := by
  have hfollow : follow Kernel.lockHeap (some p) s = .ok (p, m.lock) s :=
    follow_eq_ok.mpr ⟨⟨rfl, hp⟩, rfl⟩
  simp only [lockTake, bind_ok hfollow]
  cases hbusy : m.lock.isBusy with
  | true => simp [SleepLock.take, hbusy]; rfl
  | false => simp [SleepLock.take, hbusy]; rfl

/-- A `lock_release` that passes its `KASSERT`s comes down to its last section. -/
theorem lockRelease_eq_letGo {s : Kernel} {p : Ptr} {m : SleepLock} {t : Tid}
    (hp : s.lockHeap p = some m.lock) (howner : m.lock.lkOwner = some t)
    (hbusy : m.lock.isBusy = true) :
    lockRelease t (some p) s = .ok () (s.setLock p (m.letGo t).lock) := by
  have hfollow : follow Kernel.lockHeap (some p) s = .ok (p, m.lock) s :=
    follow_eq_ok.mpr ⟨⟨rfl, hp⟩, rfl⟩
  have hheld : lockDoIHold t (some p) s = .ok true s := by
    simp only [lockDoIHold, bind_eq_ok, kassert_eq_ok, pure_eq_ok]
    exact ⟨(), s, ⟨by simp, rfl⟩, (p, m.lock), s, hfollow, by simp [howner], rfl⟩
  have hassert : ∀ (P : Prop) [Decidable P] (e : String), P → kassert P e s = .ok () s :=
    fun P _ e h => kassert_eq_ok.mpr ⟨h, rfl⟩
  simp only [lockRelease]
  rw [bind_ok (hassert _ _ (by simp)), bind_ok hheld, bind_ok (hassert _ _ rfl), bind_ok hfollow,
    bind_ok (hassert _ _ hbusy), bind_ok (hassert _ _ (by simp [howner]))]
  rfl

/-! ## The invariant -/

namespace SleepLock

/-- What every step keeps: the owner is the one thread that holds the lock, the channel is the
sleepers, and a free lock with sleepers has a thread on its way back to the test. -/
structure Inv (m : SleepLock) : Prop where
  busy : m.lock.isBusy = true ↔ m.lock.lkOwner ≠ none
  owner : ∀ t, m.lock.lkOwner = some t ↔ (m.pc t).holds = true
  asleep : ∀ t, t ∈ m.lock.lkWchan ↔ m.pc t = .asleep
  nodup : m.lock.lkWchan.Nodup
  retried : m.lock.isBusy = false → m.lock.lkWchan ≠ [] → ∃ t, m.pc t = .woken

variable {m m' : SleepLock} {t : Tid}

theorem inv_created : Inv created where
  busy := by simp [created]
  owner := by simp [created, LockPc.holds]
  asleep := by simp [created]
  nodup := List.nodup_nil
  retried := by simp [created]

/-- Steps that only move the thread inside the calls. -/
theorem Inv.goto {pc : LockPc} (h : Inv m) (hholds : pc.holds = (m.pc t).holds)
    (hfrom : m.pc t ≠ .asleep ∧ m.pc t ≠ .woken) (hto : pc ≠ .asleep) : Inv (m.goto t pc) where
  busy := h.busy
  owner := fun t' => by
    show m.lock.lkOwner = some t' ↔ (update m.pc t pc t').holds = true
    by_cases ht : t' = t
    · rw [ht, Function.update_self, hholds, h.owner t]
    · rw [Function.update_of_ne ht, h.owner t']
  asleep := fun t' => by
    show t' ∈ m.lock.lkWchan ↔ update m.pc t pc t' = .asleep
    rw [h.asleep t']
    by_cases ht : t' = t
    · rw [ht, Function.update_self]
      exact ⟨fun hs => absurd hs hfrom.1, fun hs => absurd hs hto⟩
    · rw [Function.update_of_ne ht]
  nodup := h.nodup
  retried := fun hbusy hwc => by
    obtain ⟨w, hw⟩ := h.retried hbusy hwc
    refine ⟨w, ?_⟩
    show update m.pc t pc w = .woken
    rw [Function.update_of_ne, hw]
    rintro rfl
    exact hfrom.2 hw

theorem take_of_busy (hbusy : m.lock.isBusy = true) : m.take t =
    ⟨⟨true, m.lock.lkOwner, m.lock.lkWchan ++ [t]⟩, update m.pc t .asleep⟩ := by
  simp [SleepLock.take, hbusy]

theorem take_of_free (hbusy : m.lock.isBusy = false) : m.take t =
    ⟨⟨true, some t, m.lock.lkWchan⟩, update m.pc t .held⟩ := by
  simp [SleepLock.take, hbusy]

/-- The thread goes to sleep on the owner's lock. -/
theorem Inv.sleep (h : Inv m) (hbusy : m.lock.isBusy = true) (hholds : (m.pc t).holds = false)
    (hawake : m.pc t ≠ .asleep) :
    Inv ⟨⟨true, m.lock.lkOwner, m.lock.lkWchan ++ [t]⟩, update m.pc t .asleep⟩ where
  busy := hbusy ▸ h.busy
  owner := fun t' => by
    show m.lock.lkOwner = some t' ↔ (update m.pc t .asleep t').holds = true
    by_cases ht : t' = t
    · rw [ht, Function.update_self, h.owner t, hholds]
      rfl
    · rw [Function.update_of_ne ht, h.owner t']
  asleep := fun t' => by
    show t' ∈ m.lock.lkWchan ++ [t] ↔ update m.pc t .asleep t' = .asleep
    by_cases ht : t' = t
    · simp [ht]
    · simp [ht, h.asleep t']
  nodup := by
    refine List.nodup_append.mpr ⟨h.nodup, by simp, ?_⟩
    rintro w hw _ hw' rfl
    rw [List.mem_singleton.mp hw'] at hw
    exact hawake ((h.asleep t).mp hw)
  retried := fun hfree => absurd hfree Bool.noConfusion

/-- The thread takes the free lock. -/
theorem Inv.own (h : Inv m) (hbusy : m.lock.isBusy = false) (hawake : m.pc t ≠ .asleep) :
    Inv ⟨⟨true, some t, m.lock.lkWchan⟩, update m.pc t .held⟩ where
  busy := by simp
  owner := fun t' => by
    show some t = some t' ↔ (update m.pc t .held t').holds = true
    by_cases ht : t' = t
    · simp [ht, LockPc.holds]
    · have hfree : ¬ m.lock.lkOwner = some t' := fun howner => by
        have := h.busy.mpr (by simp [howner])
        exact absurd (hbusy.symm.trans this) Bool.noConfusion
      rw [Function.update_of_ne ht, ← h.owner t']
      simp [Ne.symm ht, hfree]
  asleep := fun t' => by
    show t' ∈ m.lock.lkWchan ↔ update m.pc t .held t' = .asleep
    rw [h.asleep t']
    by_cases ht : t' = t
    · simp [ht, hawake]
    · rw [Function.update_of_ne ht]
  nodup := h.nodup
  retried := fun hfree => absurd hfree Bool.noConfusion

theorem Inv.take (h : Inv m) (hpc : m.pc t = .acquire ∨ m.pc t = .woken) : Inv (m.take t) := by
  have hholds : (m.pc t).holds = false := by
    rcases hpc with hpc | hpc <;> rw [hpc] <;> rfl
  have hawake : m.pc t ≠ .asleep := by
    rcases hpc with hpc | hpc <;> rw [hpc] <;> exact LockPc.noConfusion
  cases hbusy : m.lock.isBusy with
  | true =>
    rw [take_of_busy hbusy]
    exact h.sleep hbusy hholds hawake
  | false =>
    rw [take_of_free hbusy]
    exact h.own hbusy hawake

/-- The lock is free, and the thread that slept longest is on its way back. -/
theorem Inv.letGo (h : Inv m) (hpc : m.pc t = .release) : Inv (m.letGo t) := by
  have howner : m.lock.lkOwner = some t := (h.owner t).mpr (by rw [hpc]; rfl)
  -- Nobody else can hold the lock, so that none does once its owner has let go.
  have hsingle : ∀ t', t' ≠ t → (m.pc t').holds = false := fun t' ht => by
    have : ¬ m.lock.lkOwner = some t' := by simp [howner, Ne.symm ht]
    rw [h.owner t'] at this
    simpa using this
  unfold SleepLock.letGo
  cases hwc : m.lock.lkWchan with
  | nil =>
    constructor
    · simp
    · intro t'
      show none = some t' ↔ (update m.pc t .out t').holds = true
      by_cases ht : t' = t
      · simp [ht, LockPc.holds]
      · simp [ht, hsingle t' ht]
    · intro t'
      show t' ∈ [] ↔ update m.pc t .out t' = .asleep
      by_cases ht : t' = t
      · simp [ht]
      · rw [Function.update_of_ne ht, ← h.asleep t', hwc]
    · exact List.nodup_nil
    · exact fun _ hne => absurd rfl hne
  | cons w rest =>
    have hw : m.pc w = .asleep := (h.asleep w).mp (hwc ▸ List.mem_cons_self)
    -- The thread that is woken is asleep, so it is not the one that lets go.
    have hwt : w ≠ t := by
      rintro rfl
      exact LockPc.noConfusion (hw.symm.trans hpc)
    obtain ⟨hwrest, hrest⟩ := List.nodup_cons.mp (hwc ▸ h.nodup)
    constructor
    · simp
    · intro t'
      show none = some t' ↔ (update (update m.pc t .out) w .woken t').holds = true
      by_cases htw : t' = w
      · simp [htw, LockPc.holds]
      · rw [Function.update_of_ne htw]
        by_cases ht : t' = t
        · simp [ht, LockPc.holds]
        · simp [ht, hsingle t' ht]
    · intro t'
      show t' ∈ rest ↔ update (update m.pc t .out) w .woken t' = .asleep
      by_cases htw : t' = w
      · simp [htw, hwrest]
      · rw [Function.update_of_ne htw]
        have hmem := h.asleep t'
        rw [hwc, List.mem_cons] at hmem
        by_cases ht : t' = t
        · subst ht
          rw [Function.update_self]
          refine ⟨fun hin => ?_, fun ho => LockPc.noConfusion ho⟩
          exact absurd (hmem.mp (Or.inr hin)) (by rw [hpc]; exact LockPc.noConfusion)
        · rw [Function.update_of_ne ht, ← hmem]
          simp [htw]
    · exact hrest
    · exact fun _ _ => ⟨w, Function.update_self ..⟩

/-- Every section keeps the invariant. -/
theorem Inv.step {a : LockAction} (h : Inv m) (hs : m.step a = some m') : Inv m' := by
  cases a with
  | acquire t =>
    simp only [SleepLock.step] at hs
    split at hs
    · next hpc =>
      cases hs
      have hout : m.pc t = .out := by
        have hno : ¬ (m.pc t).holds = true := fun hholds => hpc.2 ((h.owner t).mpr hholds)
        have hidle := hpc.1
        cases hp : m.pc t <;> simp_all [LockPc.holds, LockPc.idle]
      apply h.goto <;> simp [hout, LockPc.holds]
    · cases hs
  | release t =>
    simp only [SleepLock.step] at hs
    split at hs
    · next hpc =>
      cases hs
      have hheld : m.pc t = .held := by
        have hholds := (h.owner t).mp hpc.2
        have hidle := hpc.1
        cases hp : m.pc t <;> simp_all [LockPc.holds, LockPc.idle]
      apply h.goto <;> simp [hheld, LockPc.holds]
    · cases hs
  | run t =>
    cases hp : m.pc t <;> simp only [SleepLock.step, hp] at hs
    case acquire | woken =>
      cases hs
      exact h.take (by simp [hp])
    case releaseBusy =>
      split at hs
      · cases hs
        apply h.goto <;> simp [hp, LockPc.holds]
      · cases hs
    case releaseOwner =>
      split at hs
      · cases hs
        apply h.goto <;> simp [hp, LockPc.holds]
      · cases hs
    case release =>
      cases hs
      exact h.letGo hp
    all_goals cases hs

/-- A step leaves every other thread where it is, but for a sleeper that it wakes. -/
theorem Inv.step_other {a : LockAction} {w : Tid} (h : Inv m) (hs : m.step a = some m')
    (hw : w ≠ a.thread) : m'.pc w = m.pc w ∨ m.pc w = .asleep ∧ m'.pc w = .woken := by
  have hgoto : ∀ pc, (m.goto a.thread pc).pc w = m.pc w := fun pc => Function.update_of_ne hw _ _
  cases a with
  | acquire t =>
    simp only [SleepLock.step] at hs
    split at hs <;> cases hs
    exact Or.inl (hgoto _)
  | release t =>
    simp only [SleepLock.step] at hs
    split at hs <;> cases hs
    exact Or.inl (hgoto _)
  | run t =>
    have hwt : w ≠ t := hw
    cases hp : m.pc t <;> simp only [SleepLock.step, hp] at hs
    case acquire | woken =>
      cases hs
      left
      unfold SleepLock.take
      split <;> exact Function.update_of_ne hwt _ _
    case releaseBusy | releaseOwner =>
      split at hs <;> cases hs
      exact Or.inl (hgoto _)
    case release =>
      cases hs
      unfold SleepLock.letGo
      cases hwc : m.lock.lkWchan with
      | nil => exact Or.inl (Function.update_of_ne hwt _ _)
      | cons v rest =>
        show update (update m.pc t .out) v .woken w = _ ∨ _ ∧ update (update m.pc t .out) v .woken w = _
        by_cases hv : w = v
        · subst hv
          exact Or.inr ⟨(h.asleep w).mp (hwc ▸ List.mem_cons_self), Function.update_self ..⟩
        · exact Or.inl (by rw [Function.update_of_ne hv, Function.update_of_ne hwt])
    all_goals cases hs

/-- A thread that holds the lock can only go on to let it go. -/
theorem Inv.step_holder (h : Inv m) (hholds : (m.pc t).holds = true)
    (hs : m.step (if (m.pc t).idle then .release t else .run t) = some m') :
    (m'.pc t).holds = true ∨ m'.pc t = .out := by
  cases hp : m.pc t <;> rw [hp] at hholds <;> try exact absurd hholds Bool.noConfusion
  all_goals simp only [hp, LockPc.idle, SleepLock.step, if_true, if_false, Bool.false_eq_true] at hs
  case held | releaseBusy | releaseOwner =>
    split at hs <;> cases hs
    left
    simp [SleepLock.goto, LockPc.holds]
  case release =>
    cases hs
    right
    unfold SleepLock.letGo
    cases hwc : m.lock.lkWchan with
    | nil => exact Function.update_self ..
    | cons v rest =>
      have hv : m.pc v = .asleep := (h.asleep v).mp (hwc ▸ List.mem_cons_self)
      have htv : t ≠ v := by
        rintro rfl
        exact LockPc.noConfusion (hp.symm.trans hv)
      show update (update m.pc t .out) v .woken t = .out
      rw [Function.update_of_ne htv, Function.update_self]

/-- A thread without the lock can only go on to take it. -/
theorem step_seeker (hholds : (m.pc t).holds = false)
    (hs : m.step (if (m.pc t).idle then .acquire t else .run t) = some m') :
    (m'.pc t).holds = false ∨ m'.pc t = .held := by
  cases hp : m.pc t <;> rw [hp] at hholds <;> try exact absurd hholds Bool.noConfusion
  all_goals simp only [hp, LockPc.idle, SleepLock.step, if_true, if_false, Bool.false_eq_true] at hs
  case out =>
    split at hs <;> cases hs
    left
    simp [SleepLock.goto, LockPc.holds]
  case acquire | woken =>
    cases hs
    unfold SleepLock.take
    split
    · exact Or.inl (by simp [LockPc.holds])
    · exact Or.inr (Function.update_self ..)
  case asleep => cases hs

/-! ## Safety and progress -/

structure LockSafe (m : SleepLock) : Prop where
  busy_iff_owned : m.lock.isBusy = true ↔ m.lock.lkOwner ≠ none
  one_holder : ∀ t t', (m.pc t).holds = true → (m.pc t').holds = true → t = t'
  holder_owns : ∀ t, (m.pc t).holds = true → m.lock.lkOwner = some t
  not_stranded : ¬ (m.lock.isBusy = false ∧ m.lock.lkWchan ≠ [] ∧ ∀ t, m.pc t ≠ .woken)

theorem Inv.lockSafe (h : Inv m) : LockSafe m where
  busy_iff_owned := h.busy
  one_holder := fun t t' ht ht' => by
    have howner := (h.owner t).mpr ht
    rw [(h.owner t').mpr ht'] at howner
    exact (Option.some.inj howner).symm
  holder_owns := fun t ht => (h.owner t).mpr ht
  not_stranded := fun ⟨hfree, hwc, hnone⟩ => by
    obtain ⟨t, ht⟩ := h.retried hfree hwc
    exact hnone t ht

/-- **Sleep locks are safe and strand nobody**, whatever the threads call and however their steps
are interleaved. -/
theorem sleepLock_safe (as : List LockAction) : Along step LockSafe created as :=
  (along_of_step (fun _ _ _ h hs => Inv.step h hs) inv_created).mono fun _ h => h.lockSafe

end SleepLock

end UnionCollegeCode.OS161
