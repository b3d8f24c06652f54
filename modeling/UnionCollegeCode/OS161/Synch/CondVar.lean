import UnionCollegeCode.OS161.Synch.SleepLock

/-!
# Condition variables under one lock: `cv_wait`, `cv_signal`, `cv_broadcast`

Any number of condition variables, used by any number of threads with one sleep lock. The lock is
`SleepLock`, step for step; `cv_wait` runs its sections from inside. The spinlock of a condition
variable is part of the state here, because `cv_wait` keeps it over several sections: from before it
lets go of the sleep lock until it is on the channel.
-/

set_option autoImplicit false

namespace UnionCollegeCode.OS161

open Function (update)
open Lib.Run

abbrev CvId := ℕ

/-- Where a thread is in the three functions. -/
inductive CvPc
  /-- In none of them; it may be in `lock_acquire` or `lock_release`. -/
  | client
  /-- `cv_wait`, past `KASSERT(curthread == lock->lk_owner)`. -/
  | enter (c : CvId)
  /-- With `cv_spinlock` taken, in `lock_release`. -/
  | releasing (c : CvId)
  /-- `lock_release` has returned, `thread_switch` has not put the thread on the channel. -/
  | parting (c : CvId)
  | asleep (c : CvId)
  /-- Runnable, about to take `cv_spinlock` again and give it back. -/
  | woken (c : CvId)
  /-- In the `lock_acquire` at the end of `cv_wait`. -/
  | reacquiring (c : CvId)
  /-- `cv_signal`, past `KASSERT(lock_do_i_hold(lock))`. -/
  | signal (c : CvId)
  | broadcast (c : CvId)
  deriving DecidableEq, Repr

structure CvMachine where
  lock : SleepLock
  cv : CvId → Cv
  /-- Who has `cv_spinlock`. -/
  spin : CvId → Option Tid
  pc : Tid → CvPc

inductive CvAction
  | acquire (t : Tid)
  | release (t : Tid)
  | wait (t : Tid) (c : CvId)
  | signal (t : Tid) (c : CvId)
  | broadcast (t : Tid) (c : CvId)
  /-- The thread goes on with the call it is in. -/
  | run (t : Tid)
  deriving DecidableEq, Repr

namespace CvMachine

/-- `lock_create` and `cv_create`s. -/
def created : CvMachine := ⟨.created, fun _ => ⟨[]⟩, fun _ => none, fun _ => .client⟩

def goto (m : CvMachine) (t : Tid) (pc : CvPc) : CvMachine := { m with pc := update m.pc t pc }

/-- One section of the lock's functions; where the thread then is depends on where it is there. -/
def lockStep (m : CvMachine) (t : Tid) (a : LockAction) (next : LockPc → CvPc) : Option CvMachine :=
  (m.lock.step a).map fun l => { m with lock := l, pc := update m.pc t (next (l.pc t)) }

/-- The thread is free to call and has the lock, as each of the three functions asserts. -/
def mayUse (m : CvMachine) (t : Tid) : Prop :=
  m.pc t = .client ∧ (m.lock.pc t).idle = true ∧ m.lock.lock.lkOwner = some t

instance (m : CvMachine) (t : Tid) : Decidable (m.mayUse t) := by
  unfold mayUse
  infer_instance

/-- `threadlist_addtail`, and `cv_spinlock` is free. -/
def sleep (m : CvMachine) (t : Tid) (c : CvId) : CvMachine :=
  { m with cv := update m.cv c ⟨(m.cv c).cvWchan ++ [t]⟩, spin := update m.spin c none,
           pc := update m.pc t (.asleep c) }

/-- `wchan_wakeone`. -/
def wakeone (m : CvMachine) (c : CvId) : CvMachine :=
  match (m.cv c).cvWchan with
  | [] => m
  | w :: rest => { m with cv := update m.cv c ⟨rest⟩, pc := update m.pc w (.woken c) }

/-- `wchan_wakeall`. -/
def wakeall (m : CvMachine) (c : CvId) : CvMachine :=
  { m with cv := update m.cv c ⟨[]⟩,
           pc := fun w => if w ∈ (m.cv c).cvWchan then .woken c else m.pc w }

def step (m : CvMachine) : CvAction → Option CvMachine
  | .acquire t => if m.pc t = .client then m.lockStep t (.acquire t) fun _ => .client else none
  | .release t => if m.pc t = .client then m.lockStep t (.release t) fun _ => .client else none
  | .wait t c => if m.mayUse t then some (m.goto t (.enter c)) else none
  | .signal t c => if m.mayUse t then some (m.goto t (.signal c)) else none
  | .broadcast t c => if m.mayUse t then some (m.goto t (.broadcast c)) else none
  | .run t =>
    match m.pc t with
    | .client => m.lockStep t (.run t) fun _ => .client
    | .enter c =>
      if m.spin c = none then
        some { m.goto t (.releasing c) with spin := update m.spin c (some t) }
      else none
    | .releasing c =>
      m.lockStep t (if (m.lock.pc t).idle then .release t else .run t) fun pc =>
        if pc = .out then .parting c else .releasing c
    | .parting c => some (m.sleep t c)
    | .asleep _ => none
    | .woken c => if m.spin c = none then some (m.goto t (.reacquiring c)) else none
    | .reacquiring c =>
      m.lockStep t (if (m.lock.pc t).idle then .acquire t else .run t) fun pc =>
        if pc = .held then .client else .reacquiring c
    | .signal c => if m.spin c = none then some ((m.goto t .client).wakeone c) else none
    | .broadcast c => if m.spin c = none then some ((m.goto t .client).wakeall c) else none

/-! ## The invariant -/

end CvMachine

/-- In `cv_wait`. -/
def CvPc.inWait : CvPc → Bool
  | .enter _ | .releasing _ | .parting _ | .asleep _ | .woken _ | .reacquiring _ => true
  | _ => false

/-- Where in the lock's functions a thread can be, that is here. -/
def CvPc.allows : CvPc → LockPc → Prop
  | .client, _ => True
  | .enter _, pc | .signal _, pc | .broadcast _, pc => pc = .held
  | .releasing _, pc => pc.holds = true
  | .parting _, pc | .asleep _, pc | .woken _, pc => pc = .out
  | .reacquiring _, pc => pc.holds = false

/-- The condition variable whose spinlock a thread keeps between its sections. -/
def CvPc.spins : CvPc → Option CvId
  | .releasing c | .parting c => some c
  | _ => none

def CvPc.sleeps : CvPc → Bool
  | .asleep _ => true
  | _ => false

namespace CvMachine

/-- The spinlocks and the channels are as the threads' places say. -/
structure Channels (m : CvMachine) : Prop where
  spin : ∀ c t, m.spin c = some t ↔ (m.pc t).spins = some c
  asleep : ∀ c t, t ∈ (m.cv c).cvWchan ↔ m.pc t = .asleep c
  nodup : ∀ c, (m.cv c).cvWchan.Nodup

structure Inv (m : CvMachine) : Prop where
  lock : m.lock.Inv
  place : ∀ t, (m.pc t).allows (m.lock.pc t)
  channels : Channels m

variable {m m' : CvMachine} {t : Tid} {c : CvId}

theorem inv_created : Inv created where
  lock := SleepLock.inv_created
  place := fun _ => trivial
  channels := {
    spin := by simp [created, CvPc.spins]
    asleep := by simp [created]
    nodup := fun _ => List.nodup_nil }

theorem ne_asleep {pc : CvPc} (h : pc.sleeps = false) : pc ≠ .asleep c := by
  rintro rfl
  exact Bool.noConfusion h

/-- A thread that is not on a channel goes where it is on none and keeps the same spinlock. -/
theorem Channels.move {pc : CvPc} {l : SleepLock} (h : Channels m)
    (hspins : pc.spins = (m.pc t).spins) (hfrom : (m.pc t).sleeps = false)
    (hto : pc.sleeps = false) : Channels { m with lock := l, pc := update m.pc t pc } where
  spin := fun c w => by
    show m.spin c = some w ↔ (update m.pc t pc w).spins = some c
    by_cases hw : w = t
    · rw [hw, Function.update_self, hspins, h.spin c t]
    · rw [Function.update_of_ne hw, h.spin c w]
  asleep := fun c w => by
    show w ∈ (m.cv c).cvWchan ↔ update m.pc t pc w = .asleep c
    rw [h.asleep c w]
    by_cases hw : w = t
    · rw [hw, Function.update_self]
      exact ⟨fun hs => absurd hs (ne_asleep hfrom), fun hs => absurd hs (ne_asleep hto)⟩
    · rw [Function.update_of_ne hw]
  nodup := h.nodup

/-- `cv_wait` takes `cv_spinlock`. -/
theorem Channels.enter (h : Channels m) (hfree : m.spin c = none) (hfrom : m.pc t = .enter c) :
    Channels { m.goto t (.releasing c) with spin := update m.spin c (some t) } where
  spin := fun c' w => by
    show update m.spin c (some t) c' = some w ↔ (update m.pc t (.releasing c) w).spins = some c'
    have hw := h.spin c' w
    by_cases hc : c' = c <;> by_cases hwt : w = t
    · simp [hc, hwt, CvPc.spins]
    · rw [Function.update_of_ne hwt, ← hw, hc, hfree, Function.update_self]
      simp [Ne.symm hwt]
    · rw [Function.update_of_ne hc, hw, hwt, Function.update_self, hfrom]
      simp [CvPc.spins, Ne.symm hc]
    · rw [Function.update_of_ne hc, Function.update_of_ne hwt, hw]
  asleep := fun c' w => by
    show w ∈ (m.cv c').cvWchan ↔ update m.pc t (.releasing c) w = .asleep c'
    rw [h.asleep c' w]
    by_cases hwt : w = t
    · simp [hwt, hfrom]
    · rw [Function.update_of_ne hwt]
  nodup := h.nodup

/-- The thread goes on the channel and gives `cv_spinlock` back in one. -/
theorem Channels.sleep (h : Channels m) (hfrom : m.pc t = .parting c) :
    Channels (m.sleep t c) where
  spin := fun c' w => by
    show update m.spin c none c' = some w ↔ (update m.pc t (.asleep c) w).spins = some c'
    have hw := h.spin c' w
    have hholder : m.spin c = some t := (h.spin c t).mpr (by rw [hfrom]; rfl)
    by_cases hc : c' = c <;> by_cases hwt : w = t
    · simp [hc, hwt, CvPc.spins]
    · rw [Function.update_of_ne hwt, ← hw, hc, hholder, Function.update_self]
      simp [Ne.symm hwt]
    · rw [Function.update_of_ne hc, hw, hwt, Function.update_self, hfrom]
      simp [CvPc.spins, Ne.symm hc]
    · rw [Function.update_of_ne hc, Function.update_of_ne hwt, hw]
  asleep := fun c' w => by
    show w ∈ (update m.cv c ⟨(m.cv c).cvWchan ++ [t]⟩ c').cvWchan ↔
      update m.pc t (.asleep c) w = .asleep c'
    have hw := h.asleep c' w
    by_cases hc : c' = c <;> by_cases hwt : w = t
    · simp [hc, hwt]
    · rw [Function.update_of_ne hwt, ← hw, hc, Function.update_self]
      simp [hwt]
    · rw [Function.update_of_ne hc, hw, hwt, Function.update_self, hfrom]
      simp [Ne.symm hc]
    · rw [Function.update_of_ne hc, Function.update_of_ne hwt, hw]
  nodup := fun c' => by
    show (update m.cv c ⟨(m.cv c).cvWchan ++ [t]⟩ c').cvWchan.Nodup
    by_cases hc : c' = c
    · rw [hc, Function.update_self]
      have hnot : t ∉ (m.cv c).cvWchan := by
        rw [h.asleep c t, hfrom]
        exact CvPc.noConfusion
      refine List.nodup_append.mpr ⟨h.nodup c, by simp, ?_⟩
      rintro w hw _ hw' rfl
      exact hnot (List.mem_singleton.mp hw' ▸ hw)
    · rw [Function.update_of_ne hc]
      exact h.nodup c'

/-- Waking some of the sleepers of one channel: those that stay on it are the others. -/
theorem Channels.wake (h : Channels m) {rest : List Tid} {pc : Tid → CvPc} (hrest : rest.Nodup)
    (hpc : ∀ w, pc w = m.pc w ∨ m.pc w = .asleep c ∧ pc w = .woken c)
    (hstay : ∀ w, w ∈ rest ↔ pc w = .asleep c) :
    Channels { m with cv := update m.cv c ⟨rest⟩, pc := pc } where
  spin := fun c' w => by
    show m.spin c' = some w ↔ (pc w).spins = some c'
    rw [h.spin c' w]
    rcases hpc w with hw | ⟨hold, hnew⟩
    · rw [hw]
    · rw [hold, hnew]
      rfl
  asleep := fun c' w => by
    show w ∈ (update m.cv c ⟨rest⟩ c').cvWchan ↔ pc w = .asleep c'
    by_cases hc : c' = c
    · rw [hc, Function.update_self]
      exact hstay w
    · rw [Function.update_of_ne hc, h.asleep c' w]
      rcases hpc w with hw | ⟨hold, hnew⟩
      · rw [hw]
      · rw [hold, hnew]
        simp [Ne.symm hc]
  nodup := fun c' => by
    show (update m.cv c ⟨rest⟩ c').cvWchan.Nodup
    by_cases hc : c' = c
    · rw [hc, Function.update_self]
      exact hrest
    · rw [Function.update_of_ne hc]
      exact h.nodup c'

/-! ### What each step keeps -/

theorem Inv.goto {pc : CvPc} (h : Inv m) (hallows : pc.allows (m.lock.pc t))
    (hspins : pc.spins = (m.pc t).spins) (hfrom : (m.pc t).sleeps = false)
    (hto : pc.sleeps = false) : Inv (m.goto t pc) where
  lock := h.lock
  place := fun w => by
    show (update m.pc t pc w).allows (m.lock.pc w)
    by_cases hw : w = t
    · rw [hw, Function.update_self]
      exact hallows
    · rw [Function.update_of_ne hw]
      exact h.place w
  channels := h.channels.move hspins hfrom hto

/-- A thread that slept on the lock's channel may be woken there. -/
theorem allows_woken {pc : CvPc} (h : pc.allows .asleep) : pc.allows .woken := by
  cases pc with
  | client => trivial
  | reacquiring c => rfl
  | enter c | signal c | broadcast c | parting c | asleep c | woken c => exact LockPc.noConfusion h
  | releasing c => exact Bool.noConfusion h

theorem Inv.lockStep {a : LockAction} {next : LockPc → CvPc} (h : Inv m) (ha : a.thread = t)
    (hs : m.lockStep t a next = some m')
    (hallows : ∀ l, m.lock.step a = some l → (next (l.pc t)).allows (l.pc t))
    (hspins : ∀ pc, (next pc).spins = (m.pc t).spins) (hfrom : (m.pc t).sleeps = false)
    (hto : ∀ pc, (next pc).sleeps = false) : Inv m' := by
  obtain ⟨l, hl, rfl⟩ := Option.map_eq_some_iff.mp hs
  refine ⟨h.lock.step hl, fun w => ?_, h.channels.move (hspins _) hfrom (hto _)⟩
  show (update m.pc t (next (l.pc t)) w).allows (l.pc w)
  by_cases hw : w = t
  · rw [hw, Function.update_self]
    exact hallows l hl
  · rw [Function.update_of_ne hw]
    rcases h.lock.step_other hl (ha ▸ hw) with hsame | ⟨hold, hnew⟩
    · rw [hsame]
      exact h.place w
    · rw [hnew]
      exact allows_woken (hold ▸ h.place w)

/-- A section of a client's own `lock_acquire` or `lock_release`. -/
theorem Inv.client {a : LockAction} (h : Inv m) (ha : a.thread = t) (hp : m.pc t = .client)
    (hs : (m.lockStep t a fun _ => .client) = some m') : Inv m' := by
  apply h.lockStep ha hs
  · exact fun _ _ => trivial
  · exact fun _ => by rw [hp]
  · rw [hp]
    rfl
  · exact fun _ => rfl

/-- Waking moves no thread in the lock's functions. -/
theorem Inv.wake (h : Inv m) {rest : List Tid} {pc : Tid → CvPc} (hrest : rest.Nodup)
    (hpc : ∀ w, pc w = m.pc w ∨ m.pc w = .asleep c ∧ pc w = .woken c)
    (hstay : ∀ w, w ∈ rest ↔ pc w = .asleep c) :
    Inv { m with cv := update m.cv c ⟨rest⟩, pc := pc } where
  lock := h.lock
  place := fun w => by
    show (pc w).allows (m.lock.pc w)
    rcases hpc w with hw | ⟨hold, hnew⟩
    · rw [hw]
      exact h.place w
    · rw [hnew]
      have := h.place w
      rwa [hold] at this
  channels := h.channels.wake hrest hpc hstay

theorem Inv.wakeone (h : Inv m) : Inv (m.wakeone c) := by
  unfold CvMachine.wakeone
  cases hwc : (m.cv c).cvWchan with
  | nil => exact h
  | cons w rest =>
    have hw : m.pc w = .asleep c := (h.channels.asleep c w).mp (hwc ▸ List.mem_cons_self)
    obtain ⟨hwrest, hrest⟩ := List.nodup_cons.mp (hwc ▸ h.channels.nodup c)
    refine h.wake hrest (fun v => ?_) (fun v => ?_)
    · by_cases hv : v = w
      · exact Or.inr ⟨hv ▸ hw, hv ▸ Function.update_self ..⟩
      · exact Or.inl (Function.update_of_ne hv _ _)
    · by_cases hv : v = w
      · simp [hv, hwrest]
      · rw [Function.update_of_ne hv, ← h.channels.asleep c v, hwc]
        simp [hv]

theorem Inv.wakeall (h : Inv m) : Inv (m.wakeall c) := by
  refine h.wake List.nodup_nil (fun v => ?_) (fun v => ?_)
  · by_cases hv : v ∈ (m.cv c).cvWchan
    · exact Or.inr ⟨(h.channels.asleep c v).mp hv, if_pos hv⟩
    · exact Or.inl (if_neg hv)
  · by_cases hv : v ∈ (m.cv c).cvWchan
    · simp [hv]
    · simp only [hv, if_false, List.not_mem_nil, false_iff]
      exact fun hs => hv ((h.channels.asleep c v).mpr hs)

/-- The caller of one of the three functions is between two calls and has the lock. -/
theorem Inv.held_of_mayUse (h : Inv m) (hu : m.mayUse t) : m.lock.pc t = .held := by
  have hholds := (h.lock.owner t).mp hu.2.2
  have hidle := hu.2.1
  cases hp : m.lock.pc t <;> simp_all [LockPc.holds, LockPc.idle]

theorem Inv.step {a : CvAction} (h : Inv m) (hs : m.step a = some m') : Inv m' := by
  cases a with
  | acquire t =>
    simp only [CvMachine.step] at hs
    split at hs
    · next hp => exact h.client (by rfl) hp hs
    · cases hs
  | release t =>
    simp only [CvMachine.step] at hs
    split at hs
    · next hp => exact h.client (by rfl) hp hs
    · cases hs
  | wait t c | signal t c | broadcast t c =>
    simp only [CvMachine.step] at hs
    split at hs
    · next hu =>
      cases hs
      have hp := hu.1
      exact h.goto (h.held_of_mayUse hu) (by rw [hp]; rfl) (by rw [hp]; rfl) rfl
    · cases hs
  | run t =>
    have hplace := h.place t
    cases hp : m.pc t <;> simp only [CvMachine.step, hp] at hs <;> rw [hp] at hplace
    case client =>
      exact h.client (by rfl) hp hs
    -- `cv_spinlock` is taken while the thread still has the lock.
    case enter c =>
      split at hs <;> cases hs
      next hfree =>
      have hgoto : ∀ w, (update m.pc t (.releasing c) w).allows (m.lock.pc w) := fun w => by
        by_cases hw : w = t
        · rw [hw, Function.update_self]
          show (m.lock.pc t).holds = true
          rw [show m.lock.pc t = .held from hplace]
          rfl
        · rw [Function.update_of_ne hw]
          exact h.place w
      exact ⟨h.lock, hgoto, h.channels.enter hfree hp⟩
    -- One section of `lock_release`; the thread is on its way to sleep once it is out of it.
    case releasing c =>
      refine h.lockStep (by split <;> rfl) hs (fun l hl => ?_) (fun pc => ?_) (by rw [hp]; rfl) (fun pc => ?_)
      · rcases h.lock.step_holder hplace hl with hholds | hout
        · rw [if_neg (fun ho => by rw [ho] at hholds; exact Bool.noConfusion hholds)]
          exact hholds
        · rw [if_pos hout]
          exact hout
      · rw [hp]
        split <;> rfl
      · split <;> rfl
    case parting c =>
      cases hs
      have hgoto : ∀ w, (update m.pc t (.asleep c) w).allows (m.lock.pc w) := fun w => by
        by_cases hw : w = t
        · rw [hw, Function.update_self]
          exact hplace
        · rw [Function.update_of_ne hw]
          exact h.place w
      exact ⟨h.lock, hgoto, h.channels.sleep hp⟩
    case asleep c => cases hs
    case woken c =>
      split at hs <;> cases hs
      refine h.goto ?_ (by rw [hp]; rfl) (by rw [hp]; rfl) rfl
      show (m.lock.pc t).holds = false
      rw [show m.lock.pc t = .out from hplace]
      rfl
    -- One section of `lock_acquire`; `cv_wait` returns once the lock is held.
    case reacquiring c =>
      refine h.lockStep (by split <;> rfl) hs (fun l hl => ?_) (fun pc => ?_) (by rw [hp]; rfl) (fun pc => ?_)
      · rcases SleepLock.step_seeker hplace hl with hholds | hheld
        · rw [if_neg (fun ho => by rw [ho] at hholds; exact Bool.noConfusion hholds)]
          exact hholds
        · rw [if_pos hheld]
          trivial
      · rw [hp]
        split <;> rfl
      · split <;> rfl
    case signal c =>
      split at hs <;> cases hs
      have hgoto : Inv (m.goto t .client) := h.goto trivial (by rw [hp]; rfl) (by rw [hp]; rfl) rfl
      exact hgoto.wakeone
    case broadcast c =>
      split at hs <;> cases hs
      have hgoto : Inv (m.goto t .client) := h.goto trivial (by rw [hp]; rfl) (by rw [hp]; rfl) rfl
      exact hgoto.wakeall

/-! ## No lost wakeup -/

/-- The thread has let go of the lock in its `cv_wait` and has not been made runnable. -/
def Waits (m : CvMachine) (w : Tid) (c : CvId) : Prop := m.pc w = .parting c ∨ m.pc w = .asleep c

/-- The step makes the sleeper runnable. -/
def Wakes (m m' : CvMachine) (w : Tid) : Prop := (m.pc w).sleeps = true ∧ (m'.pc w).sleeps = false

/-- The thread's next section is the one where its `cv_signal` or `cv_broadcast` takes effect. -/
def Notifies (m : CvMachine) (t : Tid) (c : CvId) : Prop :=
  m.pc t = .signal c ∨ m.pc t = .broadcast c

structure NoLostWakeup (m : CvMachine) (a : CvAction) (m' : CvMachine) : Prop where
  /-- The notifier has the lock, and the channel is exactly those that wait. -/
  present : ∀ t c, a = .run t → m.Notifies t c →
    m.lock.lock.lkOwner = some t ∧ ∀ w, m.Waits w c ↔ w ∈ (m.cv c).cvWchan
  signal_wakes : ∀ t c, a = .run t → m.pc t = .signal c →
    ∀ w, Wakes m m' w ↔ (m.cv c).cvWchan.head? = some w
  broadcast_wakes : ∀ t c, a = .run t → m.pc t = .broadcast c →
    ∀ w, Wakes m m' w ↔ w ∈ (m.cv c).cvWchan
  others_wake_nobody : (∀ t c, a = .run t → ¬ m.Notifies t c) → ∀ w, ¬ Wakes m m' w
  returns : ∀ t, (m.pc t).inWait = true → m'.pc t = .client → m'.lock.lock.lkOwner = some t

/-- While `cv_spinlock` is free, nobody is on the way to the channel. -/
theorem Inv.waits_iff (h : Inv m) (hfree : m.spin c = none) (w : Tid) :
    m.Waits w c ↔ w ∈ (m.cv c).cvWchan := by
  rw [h.channels.asleep c w]
  constructor
  · rintro (hw | hw)
    · have := (h.channels.spin c w).mpr (by rw [hw]; rfl)
      exact absurd (hfree.symm.trans this) (by simp)
    · exact hw
  · exact Or.inr

theorem Inv.owner_of_notifies (h : Inv m) (hn : m.Notifies t c) :
    m.lock.lock.lkOwner = some t := by
  have hheld : m.lock.pc t = .held := by
    have := h.place t
    rcases hn with hp | hp <;> rwa [hp] at this
  exact (h.lock.owner t).mpr (by rw [hheld]; rfl)

/-- The signaller goes on, and so does the thread that slept longest. -/
theorem Inv.wakes_wakeone (h : Inv m) (hp : m.pc t = .signal c) (w : Tid) :
    Wakes m ((m.goto t .client).wakeone c) w ↔ (m.cv c).cvWchan.head? = some w := by
  unfold Wakes CvMachine.wakeone
  cases hwc : (m.cv c).cvWchan with
  | nil =>
    have hwc' : ((m.goto t .client).cv c).cvWchan = [] := hwc
    simp only [hwc', List.head?_nil, reduceCtorEq, iff_false, not_and, Bool.not_eq_false]
    intro hs
    show (update m.pc t .client w).sleeps = true
    rw [Function.update_of_ne, hs]
    rintro rfl
    rw [hp] at hs
    exact Bool.noConfusion hs
  | cons v rest =>
    have hv : m.pc v = .asleep c := (h.channels.asleep c v).mp (hwc ▸ List.mem_cons_self)
    have hwc' : ((m.goto t .client).cv c).cvWchan = v :: rest := hwc
    simp only [hwc', List.head?_cons, Option.some.injEq]
    show (m.pc w).sleeps = true ∧ (update (update m.pc t .client) v (.woken c) w).sleeps = false ↔ _
    by_cases hwv : w = v
    · subst hwv
      simp [hv, CvPc.sleeps]
    · rw [Function.update_of_ne hwv]
      refine ⟨fun ⟨hs, hs'⟩ => ?_, fun hvw => absurd hvw.symm hwv⟩
      by_cases hwt : w = t
      · rw [hwt, hp] at hs
        exact Bool.noConfusion hs
      · rw [Function.update_of_ne hwt, hs] at hs'
        exact Bool.noConfusion hs'

theorem Inv.wakes_wakeall (h : Inv m) (hp : m.pc t = .broadcast c) (w : Tid) :
    Wakes m ((m.goto t .client).wakeall c) w ↔ w ∈ (m.cv c).cvWchan := by
  show (m.pc w).sleeps = true ∧
    (if w ∈ (m.cv c).cvWchan then CvPc.woken c else update m.pc t .client w).sleeps = false ↔ _
  by_cases hw : w ∈ (m.cv c).cvWchan
  · simp [hw, (h.channels.asleep c w).mp hw, CvPc.sleeps]
  · simp only [hw, if_false, iff_false, not_and, Bool.not_eq_false]
    intro hs
    rw [Function.update_of_ne, hs]
    rintro rfl
    rw [hp] at hs
    exact Bool.noConfusion hs

/-- A step that only moves its own thread, from off the channels, wakes nobody. -/
theorem not_wakes_update {pc : CvPc} (hpc : m'.pc = update m.pc t pc)
    (hfrom : (m.pc t).sleeps = false) (w : Tid) : ¬ Wakes m m' w := by
  rintro ⟨hs, hs'⟩
  rw [hpc] at hs'
  by_cases hw : w = t
  · rw [hw, hfrom] at hs
    exact Bool.noConfusion hs
  · rw [Function.update_of_ne hw, hs] at hs'
    exact Bool.noConfusion hs'

/-- Every other step moves one thread, which sleeps on no channel; if that takes it out of
`cv_wait`, it has the lock. -/
theorem Inv.step_moves {a : CvAction} (h : Inv m) (hs : m.step a = some m')
    (hn : ∀ t c, a = .run t → ¬ m.Notifies t c) :
    ∃ t pc, m'.pc = update m.pc t pc ∧ (m.pc t).sleeps = false ∧
      ((m.pc t).inWait = true → pc = .client → m'.lock.lock.lkOwner = some t) := by
  have hlock : ∀ t b next, m.pc t = .client → (m.lockStep t b fun _ => next) = some m' →
      ∃ t pc, m'.pc = update m.pc t pc ∧ (m.pc t).sleeps = false ∧
        ((m.pc t).inWait = true → pc = .client → m'.lock.lock.lkOwner = some t) := by
    intro t b next hp hl
    obtain ⟨l, -, rfl⟩ := Option.map_eq_some_iff.mp hl
    refine ⟨t, next, rfl, by rw [hp]; rfl, fun hw => ?_⟩
    rw [hp] at hw
    exact Bool.noConfusion hw
  cases a with
  | acquire t | release t =>
    simp only [CvMachine.step] at hs
    split at hs
    · next hp => exact hlock t _ _ hp hs
    · cases hs
  | wait t c | signal t c | broadcast t c =>
    simp only [CvMachine.step] at hs
    split at hs
    · next hu =>
      cases hs
      refine ⟨t, _, rfl, by rw [hu.1]; rfl, fun _ hc => CvPc.noConfusion hc⟩
    · cases hs
  | run t =>
    cases hp : m.pc t <;> simp only [CvMachine.step, hp] at hs
    case client => exact hlock t _ _ hp hs
    case enter c | woken c =>
      split at hs <;> cases hs
      exact ⟨t, _, rfl, by rw [hp]; rfl, fun _ hc => CvPc.noConfusion hc⟩
    -- Both ends of the section are inside `cv_wait`.
    case releasing c =>
      obtain ⟨l, -, rfl⟩ := Option.map_eq_some_iff.mp hs
      refine ⟨t, _, rfl, by rw [hp]; rfl, fun _ hc => ?_⟩
      replace hc : (if l.pc t = .out then CvPc.parting c else .releasing c) = .client := hc
      split at hc <;> cases hc
    case parting c =>
      cases hs
      exact ⟨t, _, rfl, by rw [hp]; rfl, fun _ hc => CvPc.noConfusion hc⟩
    case asleep c => cases hs
    -- The only way out of `cv_wait`: `lock_acquire` has ended, and the thread owns the lock.
    case reacquiring c =>
      obtain ⟨l, hl, rfl⟩ := Option.map_eq_some_iff.mp hs
      refine ⟨t, _, rfl, by rw [hp]; rfl, fun _ hc => ?_⟩
      replace hc : (if l.pc t = .held then CvPc.client else .reacquiring c) = .client := hc
      split at hc
      · next hheld => exact ((h.lock.step hl).owner t).mpr (by rw [hheld]; rfl)
      · cases hc
    case signal c => exact absurd (Or.inl hp) (hn t c rfl)
    case broadcast c => exact absurd (Or.inr hp) (hn t c rfl)

/-- A notifier's section takes nobody out of `cv_wait`. -/
theorem not_returns_of_notifies (hs : m.step (.run t) = some m')
    (hn : m.Notifies t c) {w : Tid} (hw : (m.pc w).inWait = true) : m'.pc w ≠ .client := by
  have hwt : w ≠ t := by
    rintro rfl
    rcases hn with hp | hp <;> rw [hp] at hw <;> exact Bool.noConfusion hw
  have hstay : m.pc w ≠ .client := by
    intro hc
    rw [hc] at hw
    exact Bool.noConfusion hw
  rcases hn with hp | hp <;> simp only [CvMachine.step, hp] at hs <;> split at hs <;> cases hs
  · unfold CvMachine.wakeone
    cases hwc : ((m.goto t .client).cv c).cvWchan with
    | nil =>
      show update m.pc t .client w ≠ .client
      rwa [Function.update_of_ne hwt]
    | cons v rest =>
      show update (update m.pc t .client) v (.woken c) w ≠ .client
      by_cases hwv : w = v
      · simp [hwv]
      · rwa [Function.update_of_ne hwv, Function.update_of_ne hwt]
  · show (if w ∈ (m.cv c).cvWchan then CvPc.woken c else update m.pc t .client w) ≠ .client
    split
    · exact CvPc.noConfusion
    · rwa [Function.update_of_ne hwt]

theorem Inv.noLostWakeup {a : CvAction} (h : Inv m) (hs : m.step a = some m') :
    NoLostWakeup m a m' where
  present := fun t c ha hn => by
    subst ha
    have hfree : m.spin c = none := by
      rcases hn with hp | hp <;> simp only [CvMachine.step, hp] at hs <;> split at hs
      · assumption
      · cases hs
      · assumption
      · cases hs
    exact ⟨h.owner_of_notifies hn, h.waits_iff hfree⟩
  signal_wakes := fun t c ha hp => by
    subst ha
    simp only [CvMachine.step, hp] at hs
    split at hs <;> cases hs
    exact h.wakes_wakeone hp
  broadcast_wakes := fun t c ha hp => by
    subst ha
    simp only [CvMachine.step, hp] at hs
    split at hs <;> cases hs
    exact h.wakes_wakeall hp
  others_wake_nobody := fun hn w => by
    obtain ⟨t, pc, hpc, hfrom, -⟩ := h.step_moves hs hn
    exact not_wakes_update hpc hfrom w
  returns := fun w hw hret => by
    by_cases hn : ∃ t c, a = .run t ∧ m.Notifies t c
    · obtain ⟨t, c, rfl, hn⟩ := hn
      exact absurd hret (not_returns_of_notifies hs hn hw)
    · obtain ⟨t, pc, hpc, -, hown⟩ := h.step_moves hs fun t c ha hn' => hn ⟨t, c, ha, hn'⟩
      rw [hpc] at hret
      by_cases hwt : w = t
      · subst hwt
        rw [Function.update_self] at hret
        exact hown hw hret
      · rw [Function.update_of_ne hwt] at hret
        rw [hret] at hw
        exact Bool.noConfusion hw

/-- **Condition variables lose no wakeup**, however the threads' steps are interleaved. -/
theorem condVar_noLostWakeup (as : List CvAction) : AlongSteps step NoLostWakeup created as :=
  alongSteps_of_step (fun _ _ _ h hs => Inv.step h hs) (fun _ _ _ h hs => h.noLostWakeup hs)
    inv_created

end CvMachine

end UnionCollegeCode.OS161
