import Mathlib.Data.Finset.Card
import UnionCollegeCode.Lib.Run

/-!
# Monitors with signal-and-continue condition variables

Threads call operations of one shape on a store `σ` that a single lock guards:

    acquire; while guard do wait cond; body; signal; release

`acquire` sleeps in a queue while the lock is taken; `release` and `wait` make the first sleeper
runnable, which then competes for the lock with whoever comes. `wait` gives the lock up and joins the
condition's queue in one step. `signal` makes the first of a condition's queue runnable, if there is
one, and goes on; the woken thread has to get the lock and test the guard again. The code between two
of these operations runs with the one that ends it. A `Client` says what the operations are.

`Inv` is what every step keeps of owner and queues, `along_store` the rule for invariants of the
store, and `along_running` adds that what is available is bounded by the threads already woken for it.
-/

set_option autoImplicit false

namespace Lib.Monitor

open Function (update)
open Lib.Run

/-- The operations: `κ` are the calls with their arguments, `ρ` their results, `γ` the conditions,
`ε` the errors that bring the system down. -/
structure Client (σ κ ρ γ ε : Type) where
  /-- Checked before the lock is acquired. -/
  enter : κ → Except ε Unit
  guard : κ → σ → Bool
  cond : κ → γ
  body : κ → σ → Except ε (ρ × σ)
  signals : κ → γ

/-- Where a thread is in its call. `signalled` tells whether it comes from the condition's queue. -/
inductive Place (κ : Type)
  | out
  | entering (k : κ) (signalled : Bool)
  /-- Asleep in the lock's queue. -/
  | blocked (k : κ) (signalled : Bool)
  /-- With the lock, at the test of the guard. -/
  | inside (k : κ) (signalled : Bool)
  /-- Asleep in the queue of its condition. -/
  | waiting (k : κ)
  /-- With the lock, past its signal. -/
  | leaving (k : κ)

namespace Place
variable {κ : Type}

def holds : Place κ → Bool
  | .inside _ _ | .leaving _ => true
  | _ => false

/-- Where a sleeper goes when it is made runnable. -/
def wake : Place κ → Place κ
  | .blocked k b => .entering k b
  | .waiting k => .entering k true
  | p => p

/-- The call of a thread that was signalled and has not yet tested its guard again. -/
def signalledFor : Place κ → Option κ
  | .entering k true | .blocked k true | .inside k true => some k
  | _ => none

def blockedFor : Place κ → Bool
  | .blocked _ _ => true
  | _ => false

def waitingFor : Place κ → Option κ
  | .waiting k => some k
  | _ => none

theorem awake_of_holds {p : Place κ} (h : p.holds = true) :
    p.blockedFor = false ∧ p.waitingFor = none := by
  cases p with
  | inside k b | leaving k => exact ⟨rfl, rfl⟩
  | out | entering k b | blocked k b | waiting k => exact Bool.noConfusion h

end Place

structure State (σ κ ρ γ ε : Type) where
  store : σ
  owner : Option ℕ
  entry : List ℕ
  waiters : γ → List ℕ
  place : ℕ → Place κ
  /-- The bodies that were run, with their results, in the order in which they had the lock. -/
  log : List (κ × ρ)
  /-- The error that brought the system down. -/
  down : Option ε

inductive Action (κ : Type)
  | call (t : ℕ) (k : κ)
  | run (t : ℕ)

/-- The first of a queue is made runnable. -/
def wakeFirst {κ : Type} (queue : List ℕ) (place : ℕ → Place κ) : ℕ → Place κ :=
  match queue with
  | [] => place
  | w :: _ => update place w (place w).wake

variable {σ κ ρ γ ε : Type}

namespace State

def start (s : σ) : State σ κ ρ γ ε := ⟨s, none, [], fun _ => [], fun _ => .out, [], none⟩

/-- Take the lock, or sleep. -/
def acquire (m : State σ κ ρ γ ε) (t : ℕ) (k : κ) (b : Bool) : State σ κ ρ γ ε :=
  match m.owner with
  | none => { m with owner := some t, place := update m.place t (.inside k b) }
  | some _ => { m with entry := m.entry ++ [t], place := update m.place t (.blocked k b) }

/-- Give the lock up, and go to `next`. -/
def release (m : State σ κ ρ γ ε) (t : ℕ) (next : Place κ) : State σ κ ρ γ ε :=
  { m with owner := none, entry := m.entry.tail,
           place := wakeFirst m.entry (update m.place t next) }

def wait [DecidableEq γ] (m : State σ κ ρ γ ε) (t : ℕ) (k : κ) (c : γ) : State σ κ ρ γ ε :=
  { m.release t (.waiting k) with waiters := update m.waiters c (m.waiters c ++ [t]) }

def signal [DecidableEq γ] (m : State σ κ ρ γ ε) (c : γ) : State σ κ ρ γ ε :=
  { m with waiters := update m.waiters c (m.waiters c).tail,
           place := wakeFirst (m.waiters c) m.place }

/-- The body has been run. -/
def finish (m : State σ κ ρ γ ε) (t : ℕ) (k : κ) (r : ρ) (s : σ) : State σ κ ρ γ ε :=
  { m with store := s, log := m.log ++ [(k, r)], place := update m.place t (.leaving k) }

/-- With the lock, from the test of the guard on. -/
def test [DecidableEq γ] (C : Client σ κ ρ γ ε) (m : State σ κ ρ γ ε) (t : ℕ) (k : κ) : State σ κ ρ γ ε :=
  if C.guard k m.store then m.wait t k (C.cond k)
  else
    match C.body k m.store with
    | .error e => { m with down := some e }
    | .ok (r, s) => (m.finish t k r s).signal (C.signals k)

def step [DecidableEq γ] (C : Client σ κ ρ γ ε) (m : State σ κ ρ γ ε) (a : Action κ) :
    Option (State σ κ ρ γ ε) :=
  if m.down.isSome then none
  else
    match a with
    | .call t k =>
      match m.place t with
      | .out =>
        match C.enter k with
        | .error e => some { m with down := some e }
        | .ok _ => some { m with place := update m.place t (.entering k false) }
      | _ => none
    | .run t =>
      match m.place t with
      | .entering k b => some (m.acquire t k b)
      | .inside k _ => some (m.test C t k)
      | .leaving _ => some (m.release t .out)
      | .out | .blocked _ _ | .waiting _ => none

/-- What a step can be. -/
inductive Moves [DecidableEq γ] (C : Client σ κ ρ γ ε) (m : State σ κ ρ γ ε) :
    State σ κ ρ γ ε → Prop
  | refuse {t k e} (hp : m.place t = .out) (he : C.enter k = .error e) :
    Moves C m { m with down := some e }
  | enter {t} (k) (hp : m.place t = .out) :
    Moves C m { m with place := update m.place t (.entering k false) }
  | acquire {t k b} (hp : m.place t = .entering k b) : Moves C m (m.acquire t k b)
  | wait {t k b} (hp : m.place t = .inside k b) (hg : C.guard k m.store = true) :
    Moves C m (m.wait t k (C.cond k))
  | fail {t k b e} (hp : m.place t = .inside k b) (hg : C.guard k m.store = false)
    (he : C.body k m.store = .error e) : Moves C m { m with down := some e }
  | body {t k b r s} (hp : m.place t = .inside k b) (hg : C.guard k m.store = false)
    (hr : C.body k m.store = .ok (r, s)) :
    Moves C m ((m.finish t k r s).signal (C.signals k))
  | release {t k} (hp : m.place t = .leaving k) : Moves C m (m.release t .out)

theorem moves_of_step [DecidableEq γ] {C : Client σ κ ρ γ ε} {m m' : State σ κ ρ γ ε}
    {a : Action κ} (hs : m.step C a = some m') : Moves C m m' := by
  unfold State.step at hs
  split at hs
  · cases hs
  cases a with
  | call t k =>
    cases hp : m.place t <;> simp only [hp] at hs <;> try cases hs
    cases he : C.enter k <;> simp only [he, Option.some.injEq] at hs <;> subst hs
    · exact .refuse hp he
    · exact .enter k hp
  | run t =>
    cases hp : m.place t <;> simp only [hp, Option.some.injEq, reduceCtorEq] at hs <;> subst hs
    · exact .acquire hp
    · unfold State.test
      cases hg : C.guard _ m.store with
      | true => exact .wait hp hg
      | false =>
        simp only [Bool.false_eq_true, if_false]
        cases hr : C.body _ m.store with
        | error e => exact .fail hp hg hr
        | ok p => exact .body hp hg hr
    · exact .release hp

/-! ## Owner and queues -/

/-- The owner is the one thread with the lock, and the queues are those that sleep. -/
structure Inv (C : Client σ κ ρ γ ε) (m : State σ κ ρ γ ε) : Prop where
  owner : ∀ t, m.owner = some t ↔ (m.place t).holds = true
  entry : ∀ t, t ∈ m.entry ↔ (m.place t).blockedFor = true
  waiters : ∀ c t, t ∈ m.waiters c ↔ (m.place t).waitingFor.map C.cond = some c
  nodup : m.entry.Nodup ∧ ∀ c, (m.waiters c).Nodup

variable {C : Client σ κ ρ γ ε} {m m' : State σ κ ρ γ ε} {t : ℕ} {k : κ} {b : Bool} {c : γ}

theorem inv_start (s : σ) : Inv C (start s) := by
  constructor <;> simp [start, Place.holds, Place.blockedFor, Place.waitingFor]

theorem wakeFirst_nil (place : ℕ → Place κ) : wakeFirst [] place = place := rfl

theorem wakeFirst_cons (w : ℕ) (rest : List ℕ) (place : ℕ → Place κ) :
    wakeFirst (w :: rest) place = update place w (place w).wake := rfl

theorem Inv.acquire (h : Inv C m) (hp : m.place t = .entering k b) : Inv C (m.acquire t k b) := by
  have hentry : t ∉ m.entry := by
    rw [h.entry t, hp]
    exact Bool.noConfusion
  unfold State.acquire
  cases howner : m.owner with
  | none =>
    constructor <;> dsimp only <;>
      grind [Inv, Function.update_apply, Place.holds, Place.blockedFor, Place.waitingFor]
  | some o =>
    constructor <;> dsimp only <;>
      grind [Inv, Function.update_apply, Place.holds, Place.blockedFor, Place.waitingFor]

/-- The first sleeper of the lock's queue is on its way to the lock. -/
theorem blocked_of_entry {w : ℕ} {rest : List ℕ} (h : Inv C m) (hq : m.entry = w :: rest) :
    ∃ k b, m.place w = .blocked k b := by
  have hw := (h.entry w).mp (hq ▸ List.mem_cons_self)
  cases hp : m.place w <;> rw [hp] at hw <;> try exact absurd hw Bool.noConfusion
  exact ⟨_, _, rfl⟩

theorem waiting_of_waiters {w : ℕ} {rest : List ℕ} (h : Inv C m) (hq : m.waiters c = w :: rest) :
    ∃ k, m.place w = .waiting k ∧ C.cond k = c := by
  have hw := (h.waiters c w).mp (hq ▸ List.mem_cons_self)
  cases hp : m.place w <;> rw [hp] at hw <;> try cases hw
  exact ⟨_, rfl, rfl⟩

theorem Inv.release (h : Inv C m) (hp : (m.place t).holds = true) : Inv C (m.release t .out) := by
  have howner := (h.owner t).mpr hp
  obtain ⟨hentry, hwaiters⟩ := Place.awake_of_holds hp
  unfold State.release
  cases hq : m.entry with
  | nil =>
    constructor <;> dsimp only [wakeFirst_nil] <;>
      grind [Inv, Function.update_apply, Place.holds, Place.blockedFor, Place.waitingFor]
  | cons w rest =>
    obtain ⟨k, b, hw⟩ := blocked_of_entry h hq
    constructor <;> dsimp only [wakeFirst_cons] <;>
      grind [Inv, Function.update_apply, Place.holds, Place.blockedFor, Place.waitingFor, Place.wake]

theorem Inv.wait [DecidableEq γ] (h : Inv C m) (hp : (m.place t).holds = true) :
    Inv C (m.wait t k (C.cond k)) := by
  have howner := (h.owner t).mpr hp
  obtain ⟨hentry, hwaiters⟩ := Place.awake_of_holds hp
  have hnot : t ∉ m.waiters (C.cond k) := by
    rw [h.waiters, hwaiters]
    exact fun ho => by cases ho
  unfold State.wait State.release
  cases hq : m.entry with
  | nil =>
    constructor <;> dsimp only [wakeFirst_nil] <;>
      grind [Inv, Function.update_apply, Place.holds, Place.blockedFor, Place.waitingFor]
  | cons w rest =>
    obtain ⟨k', b, hw⟩ := blocked_of_entry h hq
    constructor <;> dsimp only [wakeFirst_cons] <;>
      grind [Inv, Function.update_apply, Place.holds, Place.blockedFor, Place.waitingFor, Place.wake]

theorem Inv.signal [DecidableEq γ] (h : Inv C m) : Inv C (m.signal c) := by
  unfold State.signal
  cases hq : m.waiters c with
  | nil =>
    constructor <;> dsimp only [wakeFirst_nil] <;>
      grind [Inv, Function.update_apply, Place.holds, Place.blockedFor, Place.waitingFor]
  | cons w rest =>
    obtain ⟨k, hw, hc⟩ := waiting_of_waiters h hq
    constructor <;> dsimp only [wakeFirst_cons] <;>
      grind [Inv, Function.update_apply, Place.holds, Place.blockedFor, Place.waitingFor, Place.wake]

/-- The holder moves on without giving the lock up. -/
theorem Inv.finish (h : Inv C m) (hp : (m.place t).holds = true) (r : ρ) (s : σ) :
    Inv C (m.finish t k r s) := by
  unfold State.finish
  obtain ⟨hentry, hwaiters⟩ := Place.awake_of_holds hp
  constructor <;> dsimp only <;>
    grind [Inv, Function.update_apply, Place.holds, Place.blockedFor, Place.waitingFor]

theorem Inv.enter (h : Inv C m) (hp : m.place t = .out) :
    Inv C { m with place := update m.place t (.entering k false) } := by
  constructor <;> dsimp only <;>
    grind [Inv, Function.update_apply, Place.holds, Place.blockedFor, Place.waitingFor]

theorem Inv.step [DecidableEq γ] (h : Inv C m) (hs : Moves C m m') : Inv C m' := by
  cases hs with
  | refuse hp he | fail hp hg he => exact ⟨h.owner, h.entry, h.waiters, h.nodup⟩
  | enter k hp => exact h.enter hp
  | acquire hp => exact h.acquire hp
  | wait hp hg => exact h.wait (by rw [hp]; rfl)
  | body hp hg hr => exact (h.finish (by rw [hp]; rfl) _ _).signal
  | release hp => exact h.release (by rw [hp]; rfl)

/-! ## Invariants of the store -/

/-- A store invariant: every body keeps it when the guard lets it run. -/
def Keeps (C : Client σ κ ρ γ ε) (J : σ → List (κ × ρ) → Prop) : Prop :=
  ∀ k s r s' log, J s log → C.guard k s = false → C.body k s = .ok (r, s') → J s' (log ++ [(k, r)])

theorem keeps_step [DecidableEq γ] {J : σ → List (κ × ρ) → Prop} (hJ : Keeps C J)
    (h : J m.store m.log) (hs : Moves C m m') : J m'.store m'.log := by
  cases hs with
  | body hp hg hr => exact hJ _ _ _ _ _ h hg hr
  | acquire hp =>
    unfold State.acquire
    split <;> exact h
  | refuse | enter | wait | fail | release => exact h

/-- **The store rule.** A store invariant that the bodies keep holds in every run. -/
theorem along_store [DecidableEq γ] {J : σ → List (κ × ρ) → Prop} (hJ : Keeps C J) {s : σ}
    (hs : J s []) (as : List (Action κ)) :
    Along (step C) (fun m => J m.store m.log) (start s) as :=
  along_of_step (fun _ _ _ h hstep => keeps_step hJ h (moves_of_step hstep)) hs

/-- Errors of the bodies that a store invariant rules out bring no run down. -/
theorem down_step [DecidableEq γ] {J : σ → List (κ × ρ) → Prop} {bad : ε → Prop}
    (henter : ∀ k e, C.enter k = .error e → ¬ bad e)
    (hbody : ∀ k s log e, J s log → C.guard k s = false → C.body k s = .error e → ¬ bad e)
    (h : J m.store m.log) (hd : ∀ e, m.down = some e → ¬ bad e) (hs : Moves C m m') :
    ∀ e, m'.down = some e → ¬ bad e := by
  cases hs with
  | refuse hp he =>
    rintro e ⟨⟩
    exact henter _ _ he
  | fail hp hg he =>
    rintro e ⟨⟩
    exact hbody _ _ _ _ h hg he
  | acquire hp =>
    unfold State.acquire
    split <;> exact hd
  | enter | wait | body | release => exact hd

/-! ## Nobody is stranded -/

/-- The thread was signalled on `c` and has not yet tested its guard again. -/
def Signalled (C : Client σ κ ρ γ ε) (m : State σ κ ρ γ ε) (c : γ) (t : ℕ) : Prop :=
  (m.place t).signalledFor.map C.cond = some c

/-- When somebody waits for `c`, as many threads are on their way as there are things to be had. -/
def NotStranded (C : Client σ κ ρ γ ε) (avail : γ → σ → ℕ) (m : State σ κ ρ γ ε) : Prop :=
  ∀ c, m.waiters c ≠ [] →
    ∃ S : Finset ℕ, (∀ t ∈ S, Signalled C m c t) ∧ avail c m.store ≤ S.card

/-- `avail c` counts what the calls that wait for `c` take, one each; a body gives at most one for
the condition it signals and nothing for others. -/
structure Counts (C : Client σ κ ρ γ ε) (J : σ → List (κ × ρ) → Prop) (avail : γ → σ → ℕ) :
    Prop where
  waits : ∀ k s log, J s log → C.guard k s = true → avail (C.cond k) s = 0
  takes : ∀ k s log r s', J s log → C.guard k s = false → C.body k s = .ok (r, s') →
    avail (C.cond k) s' + 1 ≤ avail (C.cond k) s
  gives : ∀ k s log r s', J s log → C.guard k s = false → C.body k s = .ok (r, s') →
    avail (C.signals k) s' ≤ avail (C.signals k) s + 1
  others : ∀ k s log r s' c, J s log → C.guard k s = false → C.body k s = .ok (r, s') →
    c ≠ C.cond k → c ≠ C.signals k → avail c s' ≤ avail c s

variable {J : σ → List (κ × ρ) → Prop} {avail : γ → σ → ℕ}

/-- Waking the lock's queue changes nobody's being signalled. -/
theorem signalled_wakeEntry {place : ℕ → Place κ} {queue : List ℕ}
    (hq : ∀ w rest, queue = w :: rest → ∃ k b, place w = .blocked k b) (t : ℕ) :
    (wakeFirst queue place t).signalledFor = (place t).signalledFor := by
  cases queue with
  | nil => rfl
  | cons w rest =>
    obtain ⟨k, b, hw⟩ := hq w rest rfl
    rw [wakeFirst_cons]
    by_cases ht : t = w
    · rw [ht, Function.update_self, hw]
      cases b <;> rfl
    · rw [Function.update_of_ne ht]

/-- Steps that touch neither the store nor the conditions' queues. -/
theorem notStranded_of_same (h : NotStranded C avail m) (hwaiters : m'.waiters = m.waiters)
    (hstore : m'.store = m.store)
    (hsig : ∀ t, (m.place t).signalledFor ≠ none →
      (m'.place t).signalledFor = (m.place t).signalledFor) : NotStranded C avail m' := by
  intro c hc
  obtain ⟨S, hS, hcard⟩ := h c (hwaiters ▸ hc)
  refine ⟨S, fun t ht => ?_, hstore ▸ hcard⟩
  have hst := hS t ht
  rw [Signalled, hsig t fun hnone => by rw [Signalled, hnone] at hst; cases hst]
  exact hst

/-- Moving a thread that was not signalled. -/
theorem signalled_update {place : ℕ → Place κ} {p : Place κ}
    (hp : (place t).signalledFor = none ∨ p.signalledFor = (place t).signalledFor) (w : ℕ)
    (hw : (place w).signalledFor ≠ none) :
    (update place t p w).signalledFor = (place w).signalledFor := by
  by_cases hwt : w = t
  · rw [hwt] at hw ⊢
    rw [Function.update_self]
    exact hp.resolve_left hw
  · rw [Function.update_of_ne hwt]

theorem NotStranded.acquire (h : NotStranded C avail m) (hp : m.place t = .entering k b) :
    NotStranded C avail (m.acquire t k b) := by
  unfold State.acquire
  split
  · refine notStranded_of_same h rfl rfl (signalled_update (Or.inr ?_))
    rw [hp]
    cases b <;> rfl
  · refine notStranded_of_same h rfl rfl (signalled_update (Or.inr ?_))
    rw [hp]
    cases b <;> rfl

/-- The queue of the lock, with the thread that gives it up out of the way. -/
theorem entry_blocked (hinv : Inv C m) (hp : (m.place t).holds = true) (next : Place κ) (w : ℕ)
    (rest : List ℕ) (hq : m.entry = w :: rest) :
    ∃ k b, update m.place t next w = .blocked k b := by
  obtain ⟨k, b, hw⟩ := blocked_of_entry hinv hq
  refine ⟨k, b, ?_⟩
  rw [Function.update_of_ne, hw]
  rintro rfl
  rw [hw] at hp
  exact Bool.noConfusion hp

theorem NotStranded.release (h : NotStranded C avail m) (hinv : Inv C m)
    (hp : m.place t = .leaving k) : NotStranded C avail (m.release t .out) := by
  refine notStranded_of_same h rfl rfl fun w hw => ?_
  show (wakeFirst m.entry (update m.place t .out) w).signalledFor = _
  rw [signalled_wakeEntry (entry_blocked hinv (by rw [hp]; rfl) .out)]
  exact signalled_update (Or.inl (by rw [hp]; rfl)) w hw

/-- Whoever waits finds nothing to be had, and is no longer signalled for anything else. -/
theorem NotStranded.wait [DecidableEq γ] (h : NotStranded C avail m) (hinv : Inv C m)
    (hp : m.place t = .inside k b) (hnone : avail (C.cond k) m.store = 0) :
    NotStranded C avail (m.wait t k (C.cond k)) := by
  intro c hc
  by_cases hck : c = C.cond k
  · refine ⟨∅, fun w hw => absurd hw (Finset.notMem_empty w), ?_⟩
    show avail c m.store ≤ 0
    rw [hck, hnone]
  · have hc' : m.waiters c ≠ [] := by
      have : update m.waiters (C.cond k) (m.waiters (C.cond k) ++ [t]) c ≠ [] := hc
      rwa [Function.update_of_ne hck] at this
    obtain ⟨S, hS, hcard⟩ := h c hc'
    refine ⟨S, fun w hw => ?_, hcard⟩
    have hsw := hS w hw
    show (wakeFirst m.entry (update m.place t (.waiting k)) w).signalledFor.map C.cond = some c
    rw [signalled_wakeEntry (entry_blocked hinv (by rw [hp]; rfl) _), Function.update_of_ne]
    · exact hsw
    · rintro rfl
      rw [Signalled, hp] at hsw
      cases b <;> cases hsw
      exact hck rfl

/-- Whoever was signalled stays so while another thread runs its body. -/
theorem signalled_body (hinv : Inv C m) {w : ℕ}
    (hw : Signalled C m c w) (hwt : w ≠ t) (d : γ) :
    (wakeFirst (m.waiters d) (update m.place t (.leaving k)) w).signalledFor.map C.cond = some c := by
  have hsame : update m.place t (.leaving k) w = m.place w := Function.update_of_ne hwt ..
  cases hq : m.waiters d with
  | nil =>
    rw [wakeFirst_nil, hsame]
    exact hw
  | cons v rest =>
    obtain ⟨k', hv, -⟩ := waiting_of_waiters hinv hq
    have hwv : w ≠ v := by
      rintro rfl
      rw [Signalled, hv] at hw
      cases hw
    rw [wakeFirst_cons, Function.update_of_ne hwv, hsame]
    exact hw

/-- A body takes one of what its own condition counts and gives one for the condition it signals. -/
theorem NotStranded.body [DecidableEq γ] (h : NotStranded C avail m) (hinv : Inv C m)
    (hp : m.place t = .inside k b) {r : ρ} {s : σ}
    (htakes : avail (C.cond k) s + 1 ≤ avail (C.cond k) m.store)
    (hgives : avail (C.signals k) s ≤ avail (C.signals k) m.store + 1)
    (hothers : ∀ c, c ≠ C.cond k → c ≠ C.signals k → avail c s ≤ avail c m.store) :
    NotStranded C avail ((m.finish t k r s).signal (C.signals k)) := by
  intro c hc
  replace hc : update m.waiters (C.signals k) (m.waiters (C.signals k)).tail c ≠ [] := hc
  have hc' : m.waiters c ≠ [] := by
    by_cases hcd : c = C.signals k
    · rw [hcd, Function.update_self] at hc
      intro hnil
      rw [← hcd, hnil] at hc
      exact hc rfl
    · rwa [Function.update_of_ne hcd] at hc
  -- `S` is the threads on their way for `c`, of which there were enough before.
  obtain ⟨S, hS, hcard⟩ := h c hc'
  by_cases hck : c = C.cond k
  · -- The thread itself may be one of those on their way, and takes its own.
    refine ⟨S.erase t, fun w hw => ?_, ?_⟩
    · obtain ⟨hwt, hwS⟩ := Finset.mem_erase.mp hw
      exact signalled_body hinv (hS w hwS) hwt _
    · show avail c s ≤ _
      have := Finset.pred_card_le_card_erase (s := S) (a := t)
      rw [hck] at hcard ⊢
      omega
  · have htS : ∀ w ∈ S, w ≠ t := by
      rintro w hw rfl
      have := hS w hw
      rw [Signalled, hp] at this
      cases b <;> cases this
      exact hck rfl
    by_cases hcd : c = C.signals k
    · -- One more is there, and one more is on its way.
      cases hq : m.waiters (C.signals k) with
      | nil => exact absurd (hcd ▸ hq) hc'
      | cons v rest =>
        obtain ⟨k', hv, hcond⟩ := waiting_of_waiters hinv hq
        have hvt : v ≠ t := by
          rintro rfl
          cases hv.symm.trans hp
        have hvS : v ∉ S := fun hvS => by
          have := hS v hvS
          rw [Signalled, hv] at this
          cases this
        refine ⟨insert v S, fun w hw => ?_, ?_⟩
        · rcases Finset.mem_insert.mp hw with rfl | hw
          · show (wakeFirst (m.waiters (C.signals k)) (update m.place t (.leaving k))
              w).signalledFor.map C.cond = some c
            rw [hq, wakeFirst_cons, Function.update_self, Function.update_of_ne hvt, hv, hcd, ← hcond]
            rfl
          · exact signalled_body hinv (hS w hw) (htS w hw) _
        · rw [Finset.card_insert_of_notMem hvS]
          show avail c s ≤ _
          rw [hcd] at hcard ⊢
          omega
    · exact ⟨S, fun w hw => signalled_body hinv (hS w hw) (htS w hw) _,
        Nat.le_trans (hothers c hck hcd) hcard⟩

/-- What every step keeps, of the machine and of a store invariant with its counts. -/
structure Running (C : Client σ κ ρ γ ε) (J : σ → List (κ × ρ) → Prop) (avail : γ → σ → ℕ)
    (m : State σ κ ρ γ ε) : Prop where
  inv : Inv C m
  store : J m.store m.log
  notStranded : NotStranded C avail m

/-- **The monitor rule.** A store invariant that the bodies keep holds in every run, and nobody is
stranded in it. -/
theorem along_running [DecidableEq γ] (hJ : Keeps C J) (hC : Counts C J avail) {s : σ}
    (hs : J s []) (as : List (Action κ)) : Along (step C) (Running C J avail) (start s) as := by
  refine along_of_step (fun m a m' h hstep => ?_) ⟨inv_start s, hs, fun c hc => absurd rfl hc⟩
  have hmoves := moves_of_step hstep
  refine ⟨h.inv.step hmoves, keeps_step hJ h.store hmoves, ?_⟩
  cases hmoves with
  | refuse hp he | fail hp hg he =>
    exact notStranded_of_same h.notStranded rfl rfl fun _ _ => rfl
  | enter k hp =>
    exact notStranded_of_same h.notStranded rfl rfl
      (signalled_update (Or.inl (by rw [hp]; rfl)))
  | acquire hp => exact h.notStranded.acquire hp
  | wait hp hg => exact h.notStranded.wait h.inv hp (hC.waits _ _ _ h.store hg)
  | body hp hg hr =>
    exact h.notStranded.body h.inv hp (hC.takes _ _ _ _ _ h.store hg hr)
      (hC.gives _ _ _ _ _ h.store hg hr) fun c => hC.others _ _ _ _ _ c h.store hg hr
  | release hp => exact h.notStranded.release h.inv hp

/-- Errors that no check gives, and no body while the store invariant holds, bring no run down. -/
theorem along_down [DecidableEq γ] (bad : ε → Prop) (hJ : Keeps C J)
    (henter : ∀ k e, C.enter k = .error e → ¬ bad e)
    (hbody : ∀ k s log e, J s log → C.guard k s = false → C.body k s = .error e → ¬ bad e)
    {s : σ} (hs : J s []) (as : List (Action κ)) :
    Along (step C) (fun m => ∀ e, m.down = some e → ¬ bad e) (start s) as := by
  have hboth : Along (step C)
      (fun m => J m.store m.log ∧ ∀ e, m.down = some e → ¬ bad e) (start s) as := by
    refine along_of_step (fun m a m' h hstep => ?_) ⟨hs, fun _ he => by cases he⟩
    have hmoves := moves_of_step hstep
    exact ⟨keeps_step hJ h.1 hmoves, down_step henter hbody h.1 h.2 hmoves⟩
  exact hboth.mono fun _ h => h.2

end State

end Lib.Monitor
