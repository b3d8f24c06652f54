import Mathlib.Logic.Relation
import UnionCollegeCode.Lib.Run
import UnionCollegeCode.OS161.Kernel

/-!
# Sleep locks with the deadlock detector: `hangman.c`

The kernel built with `options hangman`: any number of threads and sleep locks. Each call into the
detector is a step of its own. `lock_acquire` makes its last one with `lk_spinlock` taken, so the
spinlock is part of the state; `lock_release` makes its one after it has given the spinlock back.
-/

set_option autoImplicit false

namespace UnionCollegeCode.OS161

open Function (update)
open Lib.Run

abbrev LockId := ℕ

/-- Where a thread is in `lock_acquire` and `lock_release`. -/
inductive HangPc
  | out
  /-- Before `HANGMAN_WAIT`. -/
  | wait (l : LockId)
  /-- Before `spinlock_acquire`. -/
  | acquire (l : LockId)
  | asleep (l : LockId)
  | woken (l : LockId)
  /-- With `lk_spinlock` taken and `lk_owner` set, before `HANGMAN_ACQUIRE`. -/
  | mark (l : LockId)
  /-- Before the `spinlock_release` that ends `lock_acquire`. -/
  | unlock (l : LockId)
  /-- `lock_release`, before each of its next two `KASSERT`s and before its spinlock. -/
  | releaseBusy (l : LockId)
  | releaseOwner (l : LockId)
  | release (l : LockId)
  /-- With `lk_spinlock` given back, before `HANGMAN_RELEASE`. -/
  | unmark (l : LockId)
  deriving DecidableEq, Repr

structure HangMachine where
  lock : LockId → Lock
  /-- Who has `lk_spinlock`. -/
  spin : LockId → Option Tid
  /-- `l_holding`. -/
  holding : LockId → Option Tid
  /-- `a_waiting`. -/
  waiting : Tid → Option LockId
  pc : Tid → HangPc
  /-- Why the kernel is down, once it is. -/
  down : Option Stop

inductive HangAction
  | acquire (t : Tid) (l : LockId)
  | release (t : Tid) (l : LockId)
  /-- The thread goes on with the call it is in; `rounds` is how often the loop in `hangman_check`
  goes round at most. -/
  | run (t : Tid) (rounds : ℕ)
  deriving DecidableEq, Repr

namespace HangMachine

def created : HangMachine :=
  ⟨fun _ => ⟨false, none, []⟩, fun _ => none, fun _ => none, fun _ => none, fun _ => .out, none⟩

def goto (m : HangMachine) (t : Tid) (pc : HangPc) : HangMachine :=
  { m with pc := update m.pc t pc }

def stop (m : HangMachine) (why : Stop) : HangMachine := { m with down := some why }

/-- The loop of `hangman_check` from `cur` on: whether it finds `target`, and `none` when it does not
end in so many rounds. -/
def hangmanCheck (m : HangMachine) (target : Tid) : ℕ → Option Tid → Option Bool
  | _, none => some false
  | 0, some _ => none
  | n + 1, some cur =>
    if cur = target then some true
    else
      match m.waiting cur with
      | none => some false
      | some l => hangmanCheck m target n (m.holding l)

def hangmanWait (m : HangMachine) (t : Tid) (l : LockId) (rounds : ℕ) : Option HangMachine :=
  if m.waiting t ≠ none then
    some (m.stop (.panic "hangman_wait: already waiting for something?\n"))
  else
    (m.hangmanCheck t rounds (m.holding l)).map fun found =>
      if found then m.stop (.panic "Deadlock.\n")
      else { m.goto t (.acquire l) with waiting := update m.waiting t (some l) }

def hangmanAcquire (m : HangMachine) (t : Tid) (l : LockId) : HangMachine :=
  if m.waiting t ≠ some l then
    m.stop (.panic "hangman_acquire: not waiting for lock %s (%p)\n")
  else if m.holding l ≠ none then
    m.stop (.panic "hangman_acquire: lock %s (%p) still held by %s (%p)\n")
  else
    { m.goto t (.unlock l) with
      holding := update m.holding l (some t), waiting := update m.waiting t none }

def hangmanRelease (m : HangMachine) (t : Tid) (l : LockId) : HangMachine :=
  if m.waiting t ≠ none then
    m.stop (.panic "hangman_release: waiting for something?\n")
  else if m.holding l ≠ some t then
    m.stop (.panic "hangman_release: not the holder\n")
  else
    { m.goto t .out with holding := update m.holding l none }

/-- `lk_spinlock` is taken: sleep, or own the lock and keep the spinlock. -/
def take (m : HangMachine) (t : Tid) (l : LockId) : HangMachine :=
  if (m.lock l).isBusy then
    { m.goto t (.asleep l) with
      lock := update m.lock l { m.lock l with lkWchan := (m.lock l).lkWchan ++ [t] } }
  else
    { m.goto t (.mark l) with
      lock := update m.lock l { m.lock l with isBusy := true, lkOwner := some t },
      spin := update m.spin l (some t) }

/-- The critical section of `lock_release`, `wchan_wakeone` and `spinlock_release` included. -/
def letGo (m : HangMachine) (t : Tid) (l : LockId) : HangMachine :=
  { m with
    lock := update m.lock l ⟨false, none, (m.lock l).lkWchan.tail⟩,
    pc := match (m.lock l).lkWchan with
      | [] => update m.pc t (.unmark l)
      | w :: _ => update (update m.pc t (.unmark l)) w (.woken l) }

/-- A `KASSERT`, and the place after it. -/
def assert (m : HangMachine) (p : Prop) [Decidable p] (expr : String) (t : Tid) (pc : HangPc) :
    HangMachine :=
  if p then m.goto t pc else m.stop (.kassert expr)

def run (m : HangMachine) (t : Tid) (rounds : ℕ) : Option HangMachine :=
  match m.pc t with
  | .out | .asleep _ => none
  | .wait l => m.hangmanWait t l rounds
  | .acquire l | .woken l => if m.spin l = none then some (m.take t l) else none
  | .mark l => some (m.hangmanAcquire t l)
  | .unlock l => some { m.goto t .out with spin := update m.spin l none }
  | .releaseBusy l =>
    some (m.assert ((m.lock l).isBusy = true) "lock->is_busy==true" t (.releaseOwner l))
  | .releaseOwner l =>
    some (m.assert ((m.lock l).lkOwner ≠ none) "lock->lk_owner!=NULL" t (.release l))
  | .release l => if m.spin l = none then some (m.letGo t l) else none
  | .unmark l => some (m.hangmanRelease t l)

def step (m : HangMachine) (a : HangAction) : Option HangMachine :=
  if m.down ≠ none then none
  else
    match a with
    | .acquire t l =>
      if m.pc t = .out ∧ m.spin l = none then
        some (m.assert ((m.lock l).lkOwner ≠ some t) "lock_do_i_hold(lock)==false" t (.wait l))
      else none
    | .release t l =>
      if m.pc t = .out ∧ m.spin l = none then
        some (m.assert ((m.lock l).lkOwner = some t) "lock_do_i_hold(lock)" t (.releaseBusy l))
      else none
    | .run t rounds => m.run t rounds

/-! ## What the detector is to do -/

/-- The lock a thread is in `lock_acquire` for, without having it. -/
def seeks : HangPc → Option LockId
  | .wait l | .acquire l | .asleep l | .woken l => some l
  | _ => none

/-- `t` is in `lock_acquire` for a lock that `t'` owns. -/
def Blocks (m : HangMachine) (t t' : Tid) : Prop :=
  ∃ l, seeks (m.pc t) = some l ∧ (m.lock l).lkOwner = some t'

/-- The threads form a cycle of owning and waiting. -/
def Deadlock (m : HangMachine) : Prop := ∃ t, Relation.TransGen m.Blocks t t

structure DetectorSound (m : HangMachine) : Prop where
  agrees : ∀ l, m.spin l = none → m.holding l = (m.lock l).lkOwner
  no_false_alarm : ∀ msg, m.down = some (.panic msg) → m.Deadlock

/-- The step is the section of a `lock_release` that frees the lock. -/
def LetsGo (m : HangMachine) (a : HangAction) : Prop :=
  ∃ t rounds l, a = .run t rounds ∧ m.pc t = .release l

/-! ## While no lock is let go -/

/-- The lock a thread owns on its way through the two functions. -/
def owns : HangPc → Option LockId
  | .mark l | .unlock l | .releaseBusy l | .releaseOwner l | .release l => some l
  | _ => none

/-- The lock a thread is noted in the detector as waiting for. -/
def noted : HangPc → Option LockId
  | .acquire l | .asleep l | .woken l | .mark l => some l
  | _ => none

/-- The lock whose spinlock a thread keeps between two steps. -/
def spins : HangPc → Option LockId
  | .mark l | .unlock l => some l
  | _ => none

/-- The detector's notes are the threads' places, and they lag behind the locks only at `mark`. -/
structure Inv (m : HangMachine) : Prop where
  alarm : ∀ msg, m.down = some (.panic msg) → m.Deadlock
  spin : ∀ l t, m.spin l = some t ↔ spins (m.pc t) = some l
  marked : ∀ l t, m.pc t = .mark l → m.holding l = none
  unlocking : ∀ l t, m.pc t = .unlock l → m.holding l = (m.lock l).lkOwner
  agrees : ∀ l, m.spin l = none → m.holding l = (m.lock l).lkOwner
  owner : ∀ l t, owns (m.pc t) = some l → (m.lock l).lkOwner = some t
  waiting : ∀ t, m.waiting t = noted (m.pc t)
  busy : ∀ l, (m.lock l).isBusy = true ↔ (m.lock l).lkOwner ≠ none
  unmark : ∀ t l, m.pc t ≠ .unmark l

variable {m m' : HangMachine} {t : Tid} {l : LockId}

theorem inv_created : Inv created := by
  constructor <;> simp [created, spins, owns, noted]

theorem Inv.detectorSound (h : Inv m) : DetectorSound m where
  agrees := h.agrees
  no_false_alarm := h.alarm

/-- What the detector has on the holder of a lock is true. -/
theorem Inv.owner_of_holding (h : Inv m) {t' : Tid} (hh : m.holding l = some t') :
    (m.lock l).lkOwner = some t' := by
  cases hs : m.spin l with
  | none => rw [← h.agrees l hs, hh]
  | some t =>
    have hp := (h.spin l t).mp hs
    cases hpc : m.pc t <;> rw [hpc] at hp <;> cases hp
    · exact absurd ((h.marked l t hpc).symm.trans hh) (by simp)
    · rw [← h.unlocking l t hpc, hh]

/-- What the loop of `hangman_check` finds is a path of owning and waiting. -/
theorem Inv.path_of_check (h : Inv m) {target : Tid} {n : ℕ} :
    ∀ {cur : Tid}, m.hangmanCheck target n (some cur) = some true →
      Relation.ReflTransGen m.Blocks cur target := by
  induction n with
  | zero => exact fun hc => by cases hc
  | succ n ih =>
    intro cur hc
    simp only [hangmanCheck] at hc
    split at hc
    · next heq => exact heq ▸ .refl
    · cases hw : m.waiting cur with
      | none => simp [hw] at hc
      | some l =>
        simp only [hw] at hc
        cases hh : m.holding l with
        | none => simp [hh, hangmanCheck] at hc
        | some next =>
          rw [hh] at hc
          refine .head ⟨l, ?_, h.owner_of_holding hh⟩ (ih hc)
          -- At `mark` the lock would have no holder in the detector's notes.
          have hnoted := h.waiting cur
          rw [hw] at hnoted
          cases hp : m.pc cur <;> rw [hp] at hnoted <;> cases hnoted <;> try rfl
          exact absurd ((h.marked l cur hp).symm.trans hh) (by simp)

theorem Inv.deadlock_of_check (h : Inv m) {n : ℕ} (hp : m.pc t = .wait l)
    (hc : m.hangmanCheck t n (m.holding l) = some true) : m.Deadlock := by
  cases hh : m.holding l with
  | none => simp [hh, hangmanCheck] at hc
  | some cur =>
    rw [hh] at hc
    refine ⟨t, .head' ⟨l, by rw [hp]; rfl, h.owner_of_holding hh⟩ (h.path_of_check hc)⟩

/-- Stopping where no alarm is given. -/
theorem Inv.kassert (h : Inv m) (expr : String) : Inv (m.stop (.kassert expr)) :=
  { h with alarm := fun _ hm => by cases hm }

/-- No alarm is given by a step that leaves the kernel up. -/
theorem alarm_of_up (hup : m.down = none) : ∀ msg, m.down = some (.panic msg) → m.Deadlock :=
  fun msg hm => by
    rw [hup] at hm
    cases hm

/-- A thread moves on, and neither the locks nor the detector's notes change. -/
theorem Inv.goto {pc : HangPc} (h : Inv m) (hup : m.down = none)
    (hspin : spins (m.pc t) = none ∧ spins pc = none) (hnoted : noted pc = noted (m.pc t))
    (howner : ∀ l, owns pc = some l → (m.lock l).lkOwner = some t) (hun : ∀ l, pc ≠ .unmark l) :
    Inv (m.goto t pc) where
  alarm := alarm_of_up hup
  spin := fun l w => by
    show m.spin l = some w ↔ spins (update m.pc t pc w) = some l
    -- Each clause is about the thread that moves or about another, for which nothing changes.
    by_cases hw : w = t
    · rw [hw, Function.update_self, h.spin l t, hspin.1, hspin.2]
    · rw [Function.update_of_ne hw, h.spin l w]
  marked := fun l w hw => by
    replace hw : update m.pc t pc w = .mark l := hw
    by_cases hwt : w = t
    · rw [hwt, Function.update_self] at hw
      rw [hw] at hspin
      cases hspin.2
    · rw [Function.update_of_ne hwt] at hw
      exact h.marked l w hw
  unlocking := fun l w hw => by
    replace hw : update m.pc t pc w = .unlock l := hw
    by_cases hwt : w = t
    · rw [hwt, Function.update_self] at hw
      rw [hw] at hspin
      cases hspin.2
    · rw [Function.update_of_ne hwt] at hw
      exact h.unlocking l w hw
  agrees := h.agrees
  owner := fun l w hw => by
    replace hw : owns (update m.pc t pc w) = some l := hw
    by_cases hwt : w = t
    · rw [hwt, Function.update_self] at hw
      exact hwt ▸ howner l hw
    · rw [Function.update_of_ne hwt] at hw
      exact h.owner l w hw
  waiting := fun w => by
    show m.waiting w = noted (update m.pc t pc w)
    by_cases hwt : w = t
    · rw [hwt, Function.update_self, hnoted, h.waiting t]
    · rw [Function.update_of_ne hwt, h.waiting w]
  busy := h.busy
  unmark := fun w l => by
    show update m.pc t pc w ≠ .unmark l
    by_cases hwt : w = t
    · rw [hwt, Function.update_self]
      exact hun l
    · rw [Function.update_of_ne hwt]
      exact h.unmark w l

/-- `HANGMAN_WAIT` notes the lock. -/
theorem Inv.note (h : Inv m) (hup : m.down = none) (hp : m.pc t = .wait l) :
    Inv { m.goto t (.acquire l) with waiting := update m.waiting t (some l) } := by
  constructor <;> dsimp only [HangMachine.goto] <;>
    grind [Function.update_apply, Inv, spins, noted, owns]

theorem Inv.sleep (h : Inv m) (hup : m.down = none) (hp : m.pc t = .acquire l ∨ m.pc t = .woken l)
    (hbusy : (m.lock l).isBusy = true) : Inv { m.goto t (.asleep l) with
      lock := update m.lock l { m.lock l with lkWchan := (m.lock l).lkWchan ++ [t] } } := by
  constructor <;> dsimp only [HangMachine.goto] <;>
    grind [Function.update_apply, Inv, spins, noted, owns]

/-- The thread owns the lock, and the detector does not know. -/
theorem Inv.own (h : Inv m) (hup : m.down = none) (hp : m.pc t = .acquire l ∨ m.pc t = .woken l)
    (hfree : m.spin l = none) (hbusy : (m.lock l).isBusy = false) : Inv { m.goto t (.mark l) with
      lock := update m.lock l { m.lock l with isBusy := true, lkOwner := some t },
      spin := update m.spin l (some t) } := by
  constructor <;> dsimp only [HangMachine.goto] <;>
    grind [Function.update_apply, Inv, spins, noted, owns]

/-- `HANGMAN_ACQUIRE` catches up. -/
theorem Inv.catchUp (h : Inv m) (hup : m.down = none) (hp : m.pc t = .mark l) :
    Inv { m.goto t (.unlock l) with
      holding := update m.holding l (some t), waiting := update m.waiting t none } := by
  constructor <;> dsimp only [HangMachine.goto] <;>
    grind [Function.update_apply, Inv, spins, noted, owns]

theorem Inv.unlock (h : Inv m) (hup : m.down = none) (hp : m.pc t = .unlock l) :
    Inv { m.goto t .out with spin := update m.spin l none } := by
  constructor <;> dsimp only [HangMachine.goto] <;>
    grind [Function.update_apply, Inv, spins, noted, owns]

/-- A lock that is let go of is owned by its thread, and the detector knows. -/
theorem Inv.assert {p : Prop} [Decidable p] {expr : String} {pc : HangPc} (h : Inv m)
    (hup : m.down = none) (hspin : spins (m.pc t) = none ∧ spins pc = none)
    (hnoted : noted pc = noted (m.pc t))
    (howner : p → ∀ l, owns pc = some l → (m.lock l).lkOwner = some t)
    (hun : ∀ l, pc ≠ .unmark l) : Inv (m.assert p expr t pc) := by
  unfold HangMachine.assert
  split
  · next hp => exact h.goto hup hspin hnoted (howner hp) hun
  · exact h.kassert expr

theorem Inv.hangmanWait {rounds : ℕ} (h : Inv m) (hup : m.down = none) (hp : m.pc t = .wait l)
    (hs : m.hangmanWait t l rounds = some m') : Inv m' := by
  have hnone : m.waiting t = none := by rw [h.waiting t, hp]; rfl
  simp only [HangMachine.hangmanWait, hnone, ne_eq, not_true_eq_false, if_false] at hs
  obtain ⟨found, hc, rfl⟩ := Option.map_eq_some_iff.mp hs
  cases found with
  | true => exact { h with alarm := fun _ _ => h.deadlock_of_check hp hc }
  | false => exact h.note hup hp

theorem Inv.take (h : Inv m) (hup : m.down = none) (hp : m.pc t = .acquire l ∨ m.pc t = .woken l)
    (hfree : m.spin l = none) : Inv (m.take t l) := by
  unfold HangMachine.take
  cases hbusy : (m.lock l).isBusy with
  | true =>
    rw [if_pos rfl]
    exact h.sleep hup hp hbusy
  | false =>
    rw [if_neg Bool.false_ne_true]
    exact h.own hup hp hfree hbusy

theorem Inv.hangmanAcquire (h : Inv m) (hup : m.down = none) (hp : m.pc t = .mark l) :
    Inv (m.hangmanAcquire t l) := by
  have hwaiting : m.waiting t = some l := by rw [h.waiting t, hp]; rfl
  simp only [HangMachine.hangmanAcquire, hwaiting, h.marked l t hp, ne_eq, not_true_eq_false,
    if_false]
  exact h.catchUp hup hp

/-- Every step but the one that lets a lock go keeps the detector in agreement. -/
theorem Inv.step {a : HangAction} (h : Inv m) (hs : m.step a = some m') (hkeep : ¬ m.LetsGo a) :
    Inv m' := by
  unfold HangMachine.step at hs
  split at hs
  · cases hs
  next hup =>
  replace hup : m.down = none := by simpa using hup
  -- Once the kernel is down nothing moves, so the step is one of a machine that is up.
  cases a with
  | acquire t l =>
    simp only at hs
    split at hs <;> cases hs
    next hp =>
    apply h.assert hup
    · exact ⟨by rw [hp.1]; rfl, rfl⟩
    · rw [hp.1]
      rfl
    · exact fun _ _ ho => by cases ho
    · exact fun _ => HangPc.noConfusion
  | release t l =>
    simp only at hs
    split at hs <;> cases hs
    next hp =>
    apply h.assert hup
    · exact ⟨by rw [hp.1]; rfl, rfl⟩
    · rw [hp.1]
      rfl
    · intro howner l' hl'
      cases hl'
      exact howner
    · exact fun _ => HangPc.noConfusion
  | run t rounds =>
    simp only [run] at hs
    cases hp : m.pc t <;> simp only [hp] at hs
    case out | asleep => cases hs
    case wait l => exact h.hangmanWait hup hp hs
    -- `lk_spinlock` is taken where it is free; a thread that was woken takes it again.
    case acquire l =>
      split at hs <;> cases hs
      next hfree => exact h.take hup (Or.inl hp) hfree
    case woken l =>
      split at hs <;> cases hs
      next hfree => exact h.take hup (Or.inr hp) hfree
    case mark l =>
      cases hs
      exact h.hangmanAcquire hup hp
    case unlock l =>
      cases hs
      exact h.unlock hup hp
    case releaseBusy l | releaseOwner l =>
      cases hs
      apply h.assert hup
      · exact ⟨by rw [hp]; rfl, rfl⟩
      · rw [hp]
        rfl
      · intro _ l' hl'
        cases hl'
        exact h.owner l t (by rw [hp]; rfl)
      · exact fun _ => HangPc.noConfusion
    case release l => exact absurd ⟨t, rounds, l, rfl, hp⟩ hkeep
    case unmark l => exact absurd hp (h.unmark t l)

/-- The section that lets a lock go leaves its spinlock free and the detector behind. -/
theorem Inv.step_letsGo {a : HangAction} (h : Inv m) (hs : m.step a = some m')
    (hlets : m.LetsGo a) : ¬ DetectorSound m' := by
  obtain ⟨t, rounds, l, rfl, hp⟩ := hlets
  unfold HangMachine.step at hs
  split at hs
  · cases hs
  simp only [run, hp] at hs
  split at hs <;> cases hs
  next hfree =>
  intro hsound
  have hholding : m.holding l = some t := by
    rw [h.agrees l hfree]
    exact h.owner l t (by rw [hp]; rfl)
  have hafter : m.holding l = (update m.lock l ⟨false, none, (m.lock l).lkWchan.tail⟩ l).lkOwner :=
    hsound.agrees l hfree
  rw [Function.update_self, hholding] at hafter
  cases hafter

/-- **When the detector agrees with the locks**: along exactly the runs in which no lock is let
go. -/
theorem detectorSound_iff_letsGo (as : List HangAction) :
    Along step DetectorSound created as ↔ Meets step (fun m a => ¬ m.LetsGo a) created as :=
  along_iff_meets_of_break (I := Inv) (fun _ h => h.detectorSound)
    (fun _ _ _ h hs hkeep => h.step hs hkeep)
    (fun _ _ _ h hs hlets => h.step_letsGo hs (not_not.mp hlets)) inv_created

/-- Thread 0 has the lock and lets it go; thread 1 takes it before `HANGMAN_RELEASE`. -/
def falseAlarm : List HangAction :=
  [.acquire 0 0, .run 0 0, .run 0 0, .run 0 0, .run 0 0,
    .release 0 0, .run 0 0, .run 0 0, .run 0 0,
    .acquire 1 0, .run 1 1, .run 1 0, .run 1 0]

theorem not_deadlock_of_nobody_seeks (h : ∀ t, seeks (m.pc t) = none) : ¬ m.Deadlock := by
  rintro ⟨t, hcycle⟩
  obtain ⟨-, ⟨l, hl, -⟩, -⟩ := Relation.TransGen.head'_iff.mp hcycle
  rw [h t] at hl
  cases hl

/-- The detector brings the kernel down although nobody waits for anybody. -/
theorem false_alarm_without_deadlock : ∃ m, exec step created falseAlarm = some m ∧
    m.down = some (.panic "hangman_acquire: lock %s (%p) still held by %s (%p)\n") ∧
    ¬ m.Deadlock ∧ ¬ DetectorSound m := by
  refine ⟨_, rfl, rfl, ?_⟩
  rw [← not_or]
  intro h
  refine not_deadlock_of_nobody_seeks (fun t => ?_) (h.elim id fun hs => hs.no_false_alarm _ rfl)
  match t with
  | 0 => rfl
  | 1 => rfl
  | _ + 2 => rfl

end HangMachine

end UnionCollegeCode.OS161
