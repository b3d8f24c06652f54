import Mathlib.Data.Nat.Notation
import Mathlib.Logic.Function.Basic
import UnionCollegeCode.Lib.Run

/-!
# Processes that talk through channels

Processes run at their own pace and have one channel to each other process, in which messages do not
overtake one another. A receive names its sender and waits. Which process goes next is then without
effect on what comes out: two moves of two processes can be made in either order (`diamond`), so a run
that ends is, but for the order, the only one (`exec_completes`).

`masterWorker` is one such run for a common shape of program: a root hands every worker a task, the
workers answer, and the root takes the answers in rank order.
-/

set_option autoImplicit false

namespace Lib.Kahn

open Function (update)
open Lib.Run

variable {ι M R : Type*}

/-- What a process still has to do. -/
inductive Prog (ι M R : Type*)
  | send (dst : ι) (m : M) (next : Prog ι M R)
  | recv (src : ι) (next : M → Prog ι M R)
  | done (r : R)

structure Net (ι M R : Type*) where
  prog : ι → Prog ι M R
  /-- Messages on their way, by sender and receiver, oldest first. -/
  chan : ι × ι → List M

section Step

variable [DecidableEq ι]

/-- Process `i` makes a move. -/
def step (w : Net ι M R) (i : ι) : Option (Net ι M R) :=
  match w.prog i with
  | .send dst m next =>
    some ⟨update w.prog i next, update w.chan (i, dst) (w.chan (i, dst) ++ [m])⟩
  | .recv src next =>
    match w.chan (src, i) with
    | [] => none
    | m :: rest => some ⟨update w.prog i (next m), update w.chan (src, i) rest⟩
  | .done _ => none

/-- All processes are done. -/
def Net.Finished (w : Net ι M R) : Prop := ∀ i, ∃ r, w.prog i = .done r

variable {w a b f x : Net ι M R} {i j : ι}

theorem step_send {dst : ι} {m : M} {next : Prog ι M R} (h : w.prog i = .send dst m next) :
    step w i = some ⟨update w.prog i next, update w.chan (i, dst) (w.chan (i, dst) ++ [m])⟩ := by
  rw [step, h]

theorem step_recv {src : ι} {m : M} {rest : List M} {next : M → Prog ι M R}
    (h : w.prog i = .recv src next) (hc : w.chan (src, i) = m :: rest) :
    step w i = some ⟨update w.prog i (next m), update w.chan (src, i) rest⟩ := by
  simp only [step, h, hc]

/-- A move is a send or a receive of a message that is there. -/
theorem step_cases (h : step w i = some a) :
    (∃ dst m next, w.prog i = .send dst m next ∧
      a = ⟨update w.prog i next, update w.chan (i, dst) (w.chan (i, dst) ++ [m])⟩) ∨
    ∃ src next m rest, w.prog i = .recv src next ∧ w.chan (src, i) = m :: rest ∧
      a = ⟨update w.prog i (next m), update w.chan (src, i) rest⟩ := by
  cases hp : w.prog i with
  | send dst m next =>
    rw [step_send hp] at h
    exact Or.inl ⟨dst, m, next, rfl, (Option.some.inj h).symm⟩
  | recv src next =>
    cases hc : w.chan (src, i) with
    | nil => simp [step, hp, hc] at h
    | cons m rest =>
      rw [step_recv hp hc] at h
      exact Or.inr ⟨src, next, m, rest, rfl, hc, (Option.some.inj h).symm⟩
  | done r => simp [step, hp] at h

theorem Net.Finished.step_eq_none (h : w.Finished) (i : ι) : step w i = none := by
  obtain ⟨r, hr⟩ := h i
  rw [step, hr]

/-! ## The order of moves -/

theorem send_recv_commute (hij : i ≠ j) {d s : ι} {m m' : M} {next : Prog ι M R} {next' : M → Prog ι M R}
    {rest : List M} (hi : w.prog i = .send d m next) (hj : w.prog j = .recv s next')
    (hc : w.chan (s, j) = m' :: rest) :
    ∃ c, step ⟨update w.prog i next, update w.chan (i, d) (w.chan (i, d) ++ [m])⟩ j = some c ∧
      step ⟨update w.prog j (next' m'), update w.chan (s, j) rest⟩ i = some c := by
  have hji : j ≠ i := hij.symm
  by_cases hs : s = i ∧ d = j
  · -- The message goes to the end of the channel that the other process reads from.
    obtain ⟨rfl, rfl⟩ := hs
    have hchan : update w.chan (s, d) (w.chan (s, d) ++ [m]) (s, d) = m' :: (rest ++ [m]) := by
      rw [Function.update_self, hc, List.cons_append]
    refine ⟨_, step_recv ((Function.update_of_ne hji _ _).trans hj) hchan, ?_⟩
    rw [step_send (w := ⟨_, _⟩) ((Function.update_of_ne hij _ _).trans hi)]
    simp only [Function.update_comm hji, Function.update_self, Function.update_idem]
  · have hne : (i, d) ≠ (s, j) := fun h => hs ⟨(congrArg Prod.fst h).symm, congrArg Prod.snd h⟩
    refine ⟨_, step_recv ((Function.update_of_ne hji _ _).trans hj)
      ((Function.update_of_ne hne.symm _ _).trans hc), ?_⟩
    rw [step_send (w := ⟨_, _⟩) ((Function.update_of_ne hij _ _).trans hi)]
    simp only [Function.update_comm hji, Function.update_comm hne.symm, Function.update_of_ne hne]

/-- **Two moves of two processes can be made in either order.** -/
theorem diamond (hij : i ≠ j) (ha : step w i = some a) (hb : step w j = some b) :
    ∃ c, step a j = some c ∧ step b i = some c := by
  have hji : j ≠ i := hij.symm
  rcases step_cases ha with ⟨d, m, next, hi, rfl⟩ | ⟨s, next, m, rest, hi, hc, rfl⟩
  · rcases step_cases hb with ⟨d', m', next', hj, rfl⟩ | ⟨s', next', m', rest', hj, hc', rfl⟩
    · -- Two sends go into two channels.
      have hne : (i, d) ≠ (j, d') := fun h => hij (congrArg Prod.fst h)
      refine ⟨_, step_send ((Function.update_of_ne hji _ _).trans hj), ?_⟩
      rw [step_send (w := ⟨_, _⟩) ((Function.update_of_ne hij _ _).trans hi)]
      simp only [Function.update_comm hji, Function.update_comm hne.symm,
        Function.update_of_ne hne, Function.update_of_ne hne.symm]
    · exact send_recv_commute hij hi hj hc'
  · rcases step_cases hb with ⟨d', m', next', hj, rfl⟩ | ⟨s', next', m', rest', hj, hc', rfl⟩
    · obtain ⟨c, hrecv, hsend⟩ := send_recv_commute hji hj hi hc
      exact ⟨c, hsend, hrecv⟩
    · -- Two receives take from two channels.
      have hne : (s, i) ≠ (s', j) := fun h => hij (congrArg Prod.snd h)
      refine ⟨_, step_recv ((Function.update_of_ne hji _ _).trans hj)
        ((Function.update_of_ne hne.symm _ _).trans hc'), ?_⟩
      rw [step_recv (w := ⟨_, _⟩) ((Function.update_of_ne hij _ _).trans hi)
        ((Function.update_of_ne hne _ _).trans hc)]
      simp only [Function.update_comm hji, Function.update_comm hne.symm]

/-- A first move does not keep a run from its end. -/
theorem exec_after_step (hf : f.Finished) {is : List ι} :
    ∀ {w b : Net ι M R}, exec step w is = some f → step w j = some b →
      ∃ is', exec step b is' = some f ∧ is'.length + 1 = is.length := by
  induction is with
  | nil =>
    intro w b h hb
    obtain rfl := Option.some.inj h
    rw [hf.step_eq_none j] at hb
    cases hb
  | cons i is ih =>
    intro w b h hb
    obtain ⟨a, ha, h⟩ := Option.bind_eq_some_iff.mp h
    by_cases hij : i = j
    · subst hij
      rw [ha] at hb
      obtain rfl := Option.some.inj hb
      exact ⟨is, h, rfl⟩
    · obtain ⟨c, hac, hbc⟩ := diamond hij ha hb
      obtain ⟨is', h', hlen⟩ := ih h hac
      refine ⟨i :: is', ?_, congrArg (· + 1) hlen⟩
      rw [exec, hbc]
      exact h'

/-- **Every run can be completed, and ends where one run ends.** -/
theorem exec_completes (hf : f.Finished) {js : List ι} :
    ∀ {w : Net ι M R} {is : List ι}, exec step w is = some f → exec step w js = some x →
      ∃ ks, exec step x ks = some f ∧ js.length + ks.length = is.length := by
  induction js with
  | nil =>
    intro w is h hx
    obtain rfl := Option.some.inj hx
    exact ⟨is, h, Nat.zero_add _⟩
  | cons j js ih =>
    intro w is h hx
    obtain ⟨b, hb, hx⟩ := Option.bind_eq_some_iff.mp hx
    obtain ⟨is', h', hlen⟩ := exec_after_step hf h hb
    obtain ⟨ks, hks, hsum⟩ := ih h' hx
    refine ⟨ks, hks, ?_⟩
    rw [List.length_cons, ← hlen, ← hsum]
    exact Nat.succ_add_eq_add_succ _ _

theorem exec_finished_unique (hf : f.Finished) (hx : x.Finished) {is js : List ι}
    (h : exec step w is = some f) (h' : exec step w js = some x) : x = f := by
  obtain ⟨ks, hks, -⟩ := exec_completes hf h h'
  cases ks with
  | nil => exact Option.some.inj hks
  | cons k ks =>
    rw [exec, hx.step_eq_none k] at hks
    cases hks

end Step

/-! ## A root and its workers -/

/-- The messages, one after the other. -/
def sends (dst : ι) : List M → Prog ι M R → Prog ι M R
  | [], p => p
  | m :: ms, p => .send dst m (sends dst ms p)

/-- Given the messages, the process gets from `p` to `p'`. -/
def Reads (src : ι) : List M → Prog ι M R → Prog ι M R → Prop
  | [], p, p' => p = p'
  | m :: ms, p, p' => ∃ next, p = .recv src next ∧ Reads src ms (next m) p'

/-- A run leads from one net to another. -/
def Steps [DecidableEq ι] (w w' : Net ι M R) : Prop := ∃ is, exec step w is = some w'

theorem Steps.refl [DecidableEq ι] (w : Net ι M R) : Steps w w := ⟨[], rfl⟩

theorem Steps.trans [DecidableEq ι] {w w' w'' : Net ι M R} (h : Steps w w') (h' : Steps w' w'') :
    Steps w w'' := by
  obtain ⟨is, his⟩ := h
  obtain ⟨js, hjs⟩ := h'
  refine ⟨is ++ js, ?_⟩
  rw [exec_append, his]
  exact hjs

theorem Steps.head [DecidableEq ι] {w w' w'' : Net ι M R} {i : ι} (h : step w i = some w')
    (h' : Steps w' w'') : Steps w w'' := by
  refine Steps.trans ⟨[i], ?_⟩ h'
  rw [exec, h]
  rfl

/-- **One finished run determines all.** -/
theorem Steps.determines [DecidableEq ι] {w f x : Net ι M R} {js : List ι} (h : Steps w f)
    (hf : f.Finished) (hx : exec step w js = some x) :
    (x.Finished → x = f) ∧ ∃ ks, exec step x ks = some f := by
  obtain ⟨is, his⟩ := h
  obtain ⟨ks, hks, -⟩ := exec_completes hf his hx
  exact ⟨fun hfinished => exec_finished_unique hf hfinished his hx, ks, hks⟩

section MasterWorker

/-- A root, numbered 0, and its workers `g`; on their way are `d` to the workers and `u` from them. -/
def stage (p : Prog ℕ M R) (g : ℕ → Prog ℕ M R) (d u : ℕ → List M) : Net ℕ M R where
  prog
    | 0 => p
    | q + 1 => g q
  chan
    | (0, q + 1) => d q
    | (q + 1, 0) => u q
    | _ => []

variable {p p' : Prog ℕ M R} {g : ℕ → Prog ℕ M R} {d u : ℕ → List M} {q : ℕ}

theorem update_stage_root : update (stage p g d u).prog 0 p' = (stage p' g d u).prog := by
  funext i
  cases i <;> simp [stage]

theorem update_stage_worker :
    update (stage p g d u).prog (q + 1) p' = (stage p (update g q p') d u).prog := by
  funext i
  cases i with
  | zero => simp [stage]
  | succ i => simp [stage, Function.update_apply]

theorem update_stage_down {ms : List M} :
    update (stage p g d u).chan (0, q + 1) ms = (stage p g (update d q ms) u).chan := by
  funext ⟨i, j⟩
  cases i <;> cases j <;> simp [stage, Function.update_apply]

theorem update_stage_up {ms : List M} :
    update (stage p g d u).chan (q + 1, 0) ms = (stage p g d (update u q ms)).chan := by
  funext ⟨i, j⟩
  cases i <;> cases j <;> simp [stage, Function.update_apply]

theorem step_stage_send {m : M} : step (stage (.send (q + 1) m p) g d u) 0 =
    some (stage p g (update d q (d q ++ [m])) u) := by
  rw [step_send (by rfl), update_stage_root, update_stage_down]
  rfl

theorem step_stage_recv {next : M → Prog ℕ M R} {m : M} {ms : List M} (h : u q = m :: ms) :
    step (stage (.recv (q + 1) next) g d u) 0 = some (stage (next m) g d (update u q ms)) := by
  rw [step_recv (by rfl) (by exact h), update_stage_root, update_stage_up]
  rfl

theorem step_worker_send {m : M} (h : g q = .send 0 m p') : step (stage p g d u) (q + 1) =
    some (stage p (update g q p') d (update u q (u q ++ [m]))) := by
  rw [step_send (by exact h), update_stage_worker, update_stage_up]
  rfl

theorem step_worker_recv {next : M → Prog ℕ M R} {m : M} {ms : List M} (h : g q = .recv 0 next)
    (hd : d q = m :: ms) : step (stage p g d u) (q + 1) =
      some (stage p (update g q (next m)) (update d q ms) u) := by
  rw [step_recv (by exact h) (by exact hd), update_stage_worker, update_stage_down]
  rfl

/-- The root hands out a task. -/
theorem steps_task {t : List M} :
    Steps (stage (sends (q + 1) t p) g d u) (stage p g (update d q (d q ++ t)) u) := by
  induction t generalizing d with
  | nil =>
    rw [List.append_nil, Function.update_eq_self]
    exact Steps.refl _
  | cons m t ih =>
    have hrest := ih (d := update d q (d q ++ [m]))
    rw [Function.update_self, Function.update_idem, List.append_assoc] at hrest
    exact Steps.head step_stage_send hrest

/-- The root takes an answer. -/
theorem steps_take {t : List M} (h : Reads (q + 1) t p p') (hu : u q = t) :
    Steps (stage p g d u) (stage p' g d (update u q [])) := by
  induction t generalizing p u with
  | nil =>
    have h : p = p' := h
    rw [h, ← hu, Function.update_eq_self]
    exact Steps.refl _
  | cons m t ih =>
    obtain ⟨next, rfl, h⟩ := h
    have hrest := ih h (Function.update_self q t u)
    rw [Function.update_idem] at hrest
    exact Steps.head (step_stage_recv hu) hrest

/-- A worker reads its task. -/
theorem steps_read {t : List M} (h : Reads 0 t (g q) p') (hd : d q = t) :
    Steps (stage p g d u) (stage p (update g q p') (update d q []) u) := by
  induction t generalizing g d with
  | nil =>
    have h : g q = p' := h
    rw [← h, ← hd, Function.update_eq_self, Function.update_eq_self]
    exact Steps.refl _
  | cons m t ih =>
    obtain ⟨next, hp, h⟩ := h
    have hrest := ih (g := update g q (next m)) (by rwa [Function.update_self])
      (Function.update_self q t d)
    rw [Function.update_idem, Function.update_idem] at hrest
    exact Steps.head (step_worker_recv hp hd) hrest

/-- A worker answers. -/
theorem steps_answer {t : List M} (h : g q = sends 0 t p') :
    Steps (stage p g d u) (stage p (update g q p') d (update u q (u q ++ t))) := by
  induction t generalizing g u with
  | nil =>
    have h : g q = p' := h
    rw [← h, Function.update_eq_self, List.append_nil, Function.update_eq_self]
    exact Steps.refl _
  | cons m t ih =>
    have hrest := ih (u := update u q (u q ++ [m])) (Function.update_self q (sends 0 t p') g)
    rw [Function.update_idem, Function.update_self, Function.update_idem, List.append_assoc] at hrest
    exact Steps.head (step_worker_send h) hrest

/-! ### All workers -/

variable {β : Type*}

/-- `a` for the first `k` workers, `b` for the others. -/
def upTo (k : ℕ) (a b : ℕ → β) (q : ℕ) : β := if q < k then a q else b q

variable {a b : ℕ → β} {k : ℕ}

@[simp] theorem upTo_self : upTo k a b k = b k := if_neg (Nat.lt_irrefl k)

@[simp] theorem upTo_zero : upTo 0 a b = b := funext fun q => if_neg (Nat.not_lt_zero q)

theorem update_upTo : update (upTo k a b) k (a k) = upTo (k + 1) a b := by
  funext q
  by_cases hq : q = k
  · subst hq
    rw [Function.update_self, upTo, if_pos (Nat.lt_succ_self q)]
  · have hiff : q < k + 1 ↔ q < k := Nat.lt_succ_iff_lt_or_eq.trans (or_iff_left hq)
    simp only [Function.update_of_ne hq, upTo, hiff]

variable {n : ℕ} {s c : ℕ → Prog ℕ M R} {t v : ℕ → List M} {y : ℕ → R} {r : R}

/-- The messages of the first `n` workers. -/
abbrev firsts (n : ℕ) (t : ℕ → List M) : ℕ → List M := upTo n t fun _ => []

theorem steps_scatter (hs : ∀ q < n, s q = sends (q + 1) (t q) (s (q + 1))) :
    Steps (stage (s 0) g (fun _ => []) u) (stage (s n) g (firsts n t) u) := by
  induction n with
  | zero =>
    rw [firsts, upTo_zero]
    exact Steps.refl _
  | succ n ih =>
    have hsend := steps_task (q := n) (p := s (n + 1)) (g := g) (d := firsts n t) (u := u) (t := t n)
    rw [firsts, upTo_self, List.nil_append, update_upTo, ← hs n (Nat.lt_succ_self n)] at hsend
    exact (ih fun q hq => hs q (Nat.lt_succ_of_lt hq)).trans hsend

/-- The first `n` workers do their tasks, of which there may be more. -/
theorem steps_work {x : ℕ → List M} (hn : ∀ q < n, x q = t q)
    (hg : ∀ q < n, Reads 0 (t q) (g q) (sends 0 (v q) (.done (y q)))) :
    Steps (stage p g x fun _ => [])
      (stage p (upTo n (fun q => .done (y q)) g) (upTo n (fun _ => []) x) (firsts n v)) := by
  induction n with
  | zero =>
    rw [firsts, upTo_zero, upTo_zero, upTo_zero]
    exact Steps.refl _
  | succ n ih =>
    have hlt := Nat.lt_succ_self n
    have hread := steps_read (p := p) (u := firsts n v) (g := upTo n (fun q => .done (y q)) g)
      (d := upTo n (fun _ => []) x) (q := n) (by rw [upTo_self]; exact hg n hlt)
      (by rw [upTo_self]; exact hn n hlt)
    have hanswer := steps_answer (p := p) (d := update (upTo n (fun _ => []) x) n [])
      (u := firsts n v) (Function.update_self n (sends 0 (v n) (.done (y n)))
        (upTo n (fun q => .done (y q)) g))
    rw [Function.update_idem, update_upTo (a := fun _ => []), firsts, upTo_self, List.nil_append,
      update_upTo, update_upTo (a := v)] at hanswer
    have ih := ih (fun q hq => hn q (Nat.lt_succ_of_lt hq)) fun q hq => hg q (Nat.lt_succ_of_lt hq)
    rw [update_upTo (a := fun _ => [])] at hread
    exact ih.trans (hread.trans hanswer)

theorem steps_gather {x : ℕ → List M} (hn : ∀ q < n, x q = v q)
    (hc : ∀ q < n, Reads (q + 1) (v q) (c q) (c (q + 1))) :
    Steps (stage (c 0) g d x) (stage (c n) g d (upTo n (fun _ => []) x)) := by
  induction n with
  | zero =>
    rw [upTo_zero]
    exact Steps.refl _
  | succ n ih =>
    have hlt := Nat.lt_succ_self n
    have htake := steps_take (g := g) (d := d) (u := upTo n (fun _ => []) x) (hc n hlt)
      (by rw [upTo_self]; exact hn n hlt)
    rw [update_upTo (a := fun _ => [])] at htake
    exact (ih (fun q hq => hn q (Nat.lt_succ_of_lt hq)) fun q hq => hc q (Nat.lt_succ_of_lt hq)).trans
      htake

theorem upTo_firsts : upTo n (fun _ => []) (firsts n t) = fun _ => [] := by
  funext q
  by_cases hq : q < n
  · exact if_pos hq
  · rw [upTo, if_neg hq, firsts, upTo, if_neg hq]

theorem firsts_of_lt (hq : q < n) : firsts n t q = t q := if_pos hq

/-- **A root and its workers.** The root has sent worker `q` its task `t q` when it gets to
`s (q + 1)`, and has taken the answer `v q` when it gets to `c (q + 1)`. -/
theorem masterWorker (hs : ∀ q < n, s q = sends (q + 1) (t q) (s (q + 1))) (hturn : s n = c 0)
    (hg : ∀ q < n, Reads 0 (t q) (g q) (sends 0 (v q) (.done (y q))))
    (hc : ∀ q < n, Reads (q + 1) (v q) (c q) (c (q + 1))) (hdone : c n = .done r) :
    Steps (stage (s 0) g (fun _ => []) fun _ => [])
      (stage (.done r) (upTo n (fun q => .done (y q)) g) (fun _ => []) fun _ => []) := by
  have hscatter := steps_scatter (g := g) (u := fun _ => []) hs
  have hwork := steps_work (p := s n) (x := firsts n t) (fun q hq => firsts_of_lt hq) hg
  have hgather := steps_gather (g := upTo n (fun q => .done (y q)) g) (d := fun _ => [])
    (x := firsts n v) (fun q hq => firsts_of_lt hq) hc
  rw [upTo_firsts] at hwork hgather
  rw [hturn] at hwork
  rw [hturn] at hscatter
  rw [hdone] at hgather
  exact hscatter.trans (hwork.trans hgather)

end MasterWorker

end Lib.Kahn
