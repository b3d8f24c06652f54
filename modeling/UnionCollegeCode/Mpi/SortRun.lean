import Mathlib.Algebra.Order.BigOperators.Group.Finset
import Mathlib.Data.Finset.Max
import Mathlib.Tactic.IntervalCases
import Mathlib.Tactic.Linarith
import UnionCollegeCode.Lib.Run
import UnionCollegeCode.Mpi.Sort

/-!
# `MPI_Sort.c`: all processes together

The phase loop of `main` for `comm_sz` processes that run at their own pace. An `MPI_Sendrecv` is
two moves of its process: the send half puts the slice into the channel to the partner, the receive
half takes the oldest message out of the channel from the partner (messages between two processes
do not overtake one another) and merges it. A process without a partner just goes on to the next
phase. So one process can be several phases ahead of another, and nothing in the step function
says that a message is merged in the phase it was sent in: that is `Inv.chan`, and it holds because
partners choose each other (`partner_symm`).

`phaseRow` is the same computation in lock step, the row of `Lib.OddEven.Phases`. The invariant ties
every process to it: a process in phase `i` holds `phaseRow i`, whatever the others are doing.
-/

set_option autoImplicit false

namespace UnionCollegeCode.Mpi

open Lib.OddEven Lib.Run

/-! ## Who exchanges with whom -/

/-- What a process does in one phase. -/
inductive Exchange
  | keepSmaller (partner : ℕ)
  | keepBigger (partner : ℕ)
  | idle
  deriving DecidableEq, Repr

/-- The `if`s of the phase loop, on `int`s as in the source. -/
def exchange (comm_sz i my_rank : ℕ) : Exchange :=
  if i % 2 = 0 then
    if my_rank % 2 = 0 ∧ my_rank + 1 < comm_sz then .keepSmaller (my_rank + 1)
    else if my_rank % 2 = 1 ∧ (my_rank : ℤ) - 1 ≥ 0 then .keepBigger (my_rank - 1)
    else .idle
  else
    if my_rank % 2 = 1 ∧ my_rank + 1 < comm_sz then .keepSmaller (my_rank + 1)
    else if my_rank % 2 = 0 ∧ (my_rank : ℤ) - 1 > 0 then .keepBigger (my_rank - 1)
    else .idle

def Exchange.partner : Exchange → Option ℕ
  | .keepSmaller p => some p
  | .keepBigger p => some p
  | .idle => none

variable {comm_sz s : ℕ}

/-- The left process of a pair keeps the smaller half. -/
theorem exchange_eq_keepSmaller {i r q : ℕ} :
    exchange comm_sz i r = .keepSmaller q ↔ q = r + 1 ∧ r + 1 < comm_sz ∧ (r + 1) % 2 ≠ i % 2 := by
  unfold exchange
  split <;> (repeat' split) <;> simp only [Exchange.keepSmaller.injEq, reduceCtorEq, false_iff] <;>
    omega

/-- The right process of a pair keeps the bigger half. The test `my_rank - 1 > 0` of the odd phases
excludes only the first process. -/
theorem exchange_eq_keepBigger {i r q : ℕ} :
    exchange comm_sz i r = .keepBigger q ↔ r = q + 1 ∧ r % 2 ≠ i % 2 := by
  unfold exchange
  split <;> (repeat' split) <;> simp only [Exchange.keepBigger.injEq, reduceCtorEq, false_iff] <;>
    omega

theorem exchange_eq_idle {i r : ℕ} (hr : r < comm_sz) :
    exchange comm_sz i r = .idle ↔
      (r = 0 ∨ r % 2 = i % 2) ∧ (r + 1 = comm_sz ∨ (r + 1) % 2 = i % 2) := by
  unfold exchange
  split <;> (repeat' split) <;> simp only [reduceCtorEq, false_iff, true_iff] <;> omega

/-- **Partners choose each other.** -/
theorem partner_symm {i r q : ℕ} (hr : r < comm_sz) (h : (exchange comm_sz i r).partner = some q) :
    q < comm_sz ∧ q ≠ r ∧ (exchange comm_sz i q).partner = some r := by
  cases he : exchange comm_sz i r with
  | idle => simp [he, Exchange.partner] at h
  | keepSmaller p =>
    simp only [he, Exchange.partner, Option.some.injEq] at h
    obtain ⟨rfl, hlt, hp⟩ := exchange_eq_keepSmaller.mp he
    subst h
    have hback : exchange comm_sz i (r + 1) = .keepBigger r :=
      exchange_eq_keepBigger.mpr ⟨rfl, hp⟩
    exact ⟨hlt, by omega, by rw [hback]; rfl⟩
  | keepBigger p =>
    simp only [he, Exchange.partner, Option.some.injEq] at h
    obtain ⟨rfl, hp⟩ := exchange_eq_keepBigger.mp he
    subst h
    have hback : exchange comm_sz i p = .keepSmaller (p + 1) :=
      exchange_eq_keepSmaller.mpr ⟨rfl, hr, hp⟩
    exact ⟨by omega, by omega, by rw [hback]; rfl⟩

/-- What the branch taken makes of the own slice and the received one. -/
def Exchange.merge (e : Exchange) (s : ℕ) (local_v other_v : List ℤ) : Option (List ℤ) :=
  match e with
  | .keepSmaller _ => mergeSlicesKeepSmallerBetter local_v s other_v
  | .keepBigger _ => mergeSlicesKeepBiggerBetter local_v s other_v
  | .idle => some local_v

/-! ## The processes -/

structure Process where
  /-- The loop counter. -/
  i : ℕ
  /-- The send half of this phase's `MPI_Sendrecv` is done. -/
  sent : Bool
  local_v : List ℤ

structure World where
  proc : ℕ → Process
  /-- Messages on their way, by sender and receiver, oldest first. -/
  chan : ℕ → ℕ → List (List ℤ)

/-- A process moves: it sends, or it goes on to the next phase (after receiving, if it has a
partner). -/
inductive Move
  | send (r : ℕ)
  | receive (r : ℕ)
  | skip (r : ℕ)
  deriving DecidableEq, Repr

def World.setProc (w : World) (r : ℕ) (p : Process) : World :=
  { w with proc := Function.update w.proc r p }

def World.setChan (w : World) (src dst : ℕ) (ms : List (List ℤ)) : World :=
  { w with chan := fun p q => if p = src ∧ q = dst then ms else w.chan p q }

@[simp] theorem World.setProc_chan (w : World) (r : ℕ) (p : Process) :
    (w.setProc r p).chan = w.chan := rfl

@[simp] theorem World.setChan_proc (w : World) (p q : ℕ) (ms : List (List ℤ)) :
    (w.setChan p q ms).proc = w.proc := rfl

@[simp] theorem World.setProc_proc (w : World) (r : ℕ) (p : Process) :
    (w.setProc r p).proc = Function.update w.proc r p := rfl

/-- One move. A move of a process that has left the loop, or is not at that point of its phase, is
not enabled; neither is a receive from an empty channel. -/
def step (comm_sz s : ℕ) (w : World) : Move → Option World
  | .send r =>
    if r < comm_sz ∧ (w.proc r).i < comm_sz ∧ (w.proc r).sent = false then
      match (exchange comm_sz (w.proc r).i r).partner with
      | some q => some ((w.setProc r { w.proc r with sent := true }).setChan r q
          (w.chan r q ++ [(w.proc r).local_v]))
      | none => none
    else none
  | .receive r =>
    if r < comm_sz ∧ (w.proc r).i < comm_sz ∧ (w.proc r).sent = true then
      match (exchange comm_sz (w.proc r).i r).partner with
      | some q =>
        match w.chan q r with
        | other_v :: rest =>
          match (exchange comm_sz (w.proc r).i r).merge s (w.proc r).local_v other_v with
          | some v => some ((w.setProc r ⟨(w.proc r).i + 1, false, v⟩).setChan q r rest)
          | none => none
        | [] => none
      | none => none
    else none
  | .skip r =>
    if r < comm_sz ∧ (w.proc r).i < comm_sz ∧ exchange comm_sz (w.proc r).i r = .idle then
      some (w.setProc r { w.proc r with i := (w.proc r).i + 1 })
    else none

/-- After `MPI_Scatter` and `SortMySlice`: every process holds its slice, sorted. -/
def start (slices : ℕ → List ℤ) : World where
  proc r := ⟨0, false, sortMySlice (slices r)⟩
  chan _ _ := []

/-- `MPI_Gather`: the slices of all processes in rank order. -/
def World.v_result (comm_sz : ℕ) (w : World) : List ℤ := gather comm_sz fun r => (w.proc r).local_v

/-- Every process has left the phase loop. -/
def World.Finished (comm_sz : ℕ) (w : World) : Prop := ∀ r < comm_sz, (w.proc r).i = comm_sz

/-! ## What a move can do -/

theorem step_send {w w' : World} {r : ℕ} (h : step comm_sz s w (.send r) = some w') :
    r < comm_sz ∧ (w.proc r).i < comm_sz ∧ (w.proc r).sent = false ∧
      ∃ q, (exchange comm_sz (w.proc r).i r).partner = some q ∧
        w' = (w.setProc r { w.proc r with sent := true }).setChan r q
          (w.chan r q ++ [(w.proc r).local_v]) := by
  simp only [step] at h
  split at h
  · rename_i hc
    cases hp : (exchange comm_sz (w.proc r).i r).partner with
    | none => simp [hp] at h
    | some q =>
      simp only [hp, Option.some.injEq] at h
      exact ⟨hc.1, hc.2.1, hc.2.2, q, rfl, h.symm⟩
  · cases h

theorem step_receive {w w' : World} {r : ℕ} (h : step comm_sz s w (.receive r) = some w') :
    r < comm_sz ∧ (w.proc r).i < comm_sz ∧ (w.proc r).sent = true ∧
      ∃ q other_v rest v, (exchange comm_sz (w.proc r).i r).partner = some q ∧
        w.chan q r = other_v :: rest ∧
        (exchange comm_sz (w.proc r).i r).merge s (w.proc r).local_v other_v = some v ∧
        w' = (w.setProc r ⟨(w.proc r).i + 1, false, v⟩).setChan q r rest := by
  simp only [step] at h
  split at h
  · rename_i hc
    cases hp : (exchange comm_sz (w.proc r).i r).partner with
    | none => simp [hp] at h
    | some q =>
      cases hq : w.chan q r with
      | nil => simp [hp, hq] at h
      | cons other_v rest =>
        cases hm : (exchange comm_sz (w.proc r).i r).merge s (w.proc r).local_v other_v with
        | none => simp [hp, hq, hm] at h
        | some v =>
          simp only [hp, hq, hm, Option.some.injEq] at h
          exact ⟨hc.1, hc.2.1, hc.2.2, q, other_v, rest, v, rfl, hq, hm, h.symm⟩
  · cases h

theorem step_skip {w w' : World} {r : ℕ} (h : step comm_sz s w (.skip r) = some w') :
    r < comm_sz ∧ (w.proc r).i < comm_sz ∧ exchange comm_sz (w.proc r).i r = .idle ∧
      w' = w.setProc r { w.proc r with i := (w.proc r).i + 1 } := by
  simp only [step] at h
  split at h
  · rename_i hc
    exact ⟨hc.1, hc.2.1, hc.2.2, (Option.some.inj h).symm⟩
  · cases h

/-! ## Lock step -/

/-- The row of slices after `t` phases taken in lock step. -/
def phaseRow (comm_sz s : ℕ) (slices : ℕ → List ℤ) : ℕ → ℕ → List ℤ
  | 0, r => sortMySlice (slices r)
  | t + 1, r =>
    match (exchange comm_sz t r).partner with
    | some q => ((exchange comm_sz t r).merge s (phaseRow comm_sz s slices t r)
        (phaseRow comm_sz s slices t q)).getD []
    | none => phaseRow comm_sz s slices t r

/-- Slices of one length on which the comparator never overflows. -/
structure GoodSlices (comm_sz s : ℕ) (slices : ℕ → List ℤ) : Prop where
  length : ∀ r < comm_sz, (slices r).length = s
  noOverflow : ∀ r < comm_sz, ∀ a ∈ slices r, ∀ b ∈ slices r, NoOverflow a b

variable {slices : ℕ → List ℤ}

/-- Every slice of the row keeps its length and stays ascending, and the merges are defined. -/
theorem phaseRow_slice (h : GoodSlices comm_sz s slices) (t : ℕ) : ∀ r < comm_sz,
    (phaseRow comm_sz s slices t r).length = s ∧
      (phaseRow comm_sz s slices t r).Pairwise (· ≤ ·) := by
  induction t with
  | zero =>
    intro r hr
    exact ⟨by rw [phaseRow, sortMySlice_length, h.length r hr], sortMySlice_sorted (h.noOverflow r hr)⟩
  | succ t ih =>
    intro r hr
    cases he : exchange comm_sz t r with
    | idle => simpa [phaseRow, he, Exchange.partner] using ih r hr
    | keepSmaller q =>
      obtain ⟨rfl, hq, -⟩ := exchange_eq_keepSmaller.mp he
      obtain ⟨hlr, hsr⟩ := ih r hr
      obtain ⟨hlq, hsq⟩ := ih (r + 1) hq
      simp only [phaseRow, he, Exchange.partner, Exchange.merge,
        mergeSlicesKeepSmallerBetter_eq hlr hlq, Option.getD_some]
      refine ⟨?_, (merged_sorted hsr hsq).sublist (List.take_sublist _ _)⟩
      rw [List.length_take, merged_length]
      omega
    | keepBigger q =>
      obtain ⟨rfl, -⟩ := exchange_eq_keepBigger.mp he
      obtain ⟨hlr, hsr⟩ := ih (q + 1) hr
      obtain ⟨hlq, hsq⟩ := ih q (by omega)
      simp only [phaseRow, he, Exchange.partner, Exchange.merge,
        mergeSlicesKeepBiggerBetter_eq hlr hlq hsr hsq, Option.getD_some]
      refine ⟨?_, (merged_sorted hsr hsq).sublist (List.drop_sublist _ _)⟩
      rw [List.length_drop, merged_length]
      omega

/-- The two halves of a merge, as the two processes of a pair compute them. -/
theorem mergeSplit_merged {a b : List ℤ} (ha : a.length = s) (hb : b.length = s)
    (hsa : a.Pairwise (· ≤ ·)) (hsb : b.Pairwise (· ≤ ·)) :
    MergeSplit a b ((merged a b).take s) ((merged a b).drop s) where
  perm := by rw [List.take_append_drop]; exact merged_perm a b
  length_left := by rw [List.length_take, merged_length]; omega
  length_right := by rw [List.length_drop, merged_length]; omega
  le := by
    have h := merged_sorted hsa hsb
    rw [← List.take_append_drop s (merged a b), List.pairwise_append] at h
    exact h.2.2

/-- **The lock-step rows are an odd-even transposition.** -/
theorem phaseRow_phases (h : GoodSlices comm_sz s slices) :
    Phases comm_sz s (phaseRow comm_sz s slices) where
  length t r hr := (phaseRow_slice h t r hr).1
  alone t r hr hleft hright := by
    have he := (exchange_eq_idle hr).mpr ⟨hleft, hright⟩
    simp [phaseRow, he, Exchange.partner]
  paired t j hj hjn hp := by
    obtain ⟨j, rfl⟩ : ∃ k, j = k + 1 := ⟨j - 1, by omega⟩
    obtain ⟨hla, hsa⟩ := phaseRow_slice h t j (by omega)
    obtain ⟨hlb, hsb⟩ := phaseRow_slice h t (j + 1) hjn
    have hleft := exchange_eq_keepSmaller.mpr ⟨rfl, hjn, hp⟩
    have hright : exchange comm_sz t (j + 1) = .keepBigger j :=
      exchange_eq_keepBigger.mpr ⟨rfl, hp⟩
    have h1 : phaseRow comm_sz s slices (t + 1) j = (merged (phaseRow comm_sz s slices t j)
        (phaseRow comm_sz s slices t (j + 1))).take s := by
      simp only [phaseRow, hleft, Exchange.partner, Exchange.merge,
        mergeSlicesKeepSmallerBetter_eq hla hlb, Option.getD_some]
    have h2 : phaseRow comm_sz s slices (t + 1) (j + 1) = (merged (phaseRow comm_sz s slices t j)
        (phaseRow comm_sz s slices t (j + 1))).drop s := by
      simp only [phaseRow, hright, Exchange.partner, Exchange.merge,
        mergeSlicesKeepBiggerBetter_eq hlb hla hsb hsa, Option.getD_some, merged_comm hsb hsa]
    rw [Nat.add_sub_cancel, h1, h2]
    exact mergeSplit_merged hla hlb hsa hsb

/-! ## The invariant -/

/-- The number of phases whose send half a process has behind it. -/
def Process.sentPhases (p : Process) : ℕ := p.i + if p.sent then 1 else 0

/-- The messages `p` sends to `q` in the phases from `lo` on, below `hi`. -/
def messages (comm_sz s : ℕ) (slices : ℕ → List ℤ) (p q lo hi : ℕ) : List (List ℤ) :=
  ((List.range' lo (hi - lo)).filter fun j => (exchange comm_sz j p).partner = some q).map
    fun j => phaseRow comm_sz s slices j p

theorem messages_snoc {p q lo hi : ℕ} (hlo : lo ≤ hi) :
    messages comm_sz s slices p q lo (hi + 1) = messages comm_sz s slices p q lo hi ++
      if (exchange comm_sz hi p).partner = some q then [phaseRow comm_sz s slices hi p] else [] := by
  unfold messages
  rw [show hi + 1 - lo = (hi - lo) + 1 by omega, List.range'_1_concat, List.filter_append,
    List.map_append, show lo + (hi - lo) = hi by omega]
  congr 1
  by_cases h : (exchange comm_sz hi p).partner = some q <;> simp [h]

theorem messages_skip {p q lo hi : ℕ} (h : (exchange comm_sz lo p).partner ≠ some q) :
    messages comm_sz s slices p q lo hi = messages comm_sz s slices p q (lo + 1) hi := by
  unfold messages
  by_cases hlt : lo < hi
  · rw [show hi - lo = (hi - (lo + 1)) + 1 by omega, List.range'_succ, List.filter_cons]
    simp [h]
  · rw [show hi - lo = 0 by omega, show hi - (lo + 1) = 0 by omega]
    simp

theorem messages_cons {p q lo hi : ℕ} (hlt : lo < hi)
    (h : (exchange comm_sz lo p).partner = some q) :
    messages comm_sz s slices p q lo hi =
      phaseRow comm_sz s slices lo p :: messages comm_sz s slices p q (lo + 1) hi := by
  unfold messages
  rw [show hi - lo = (hi - (lo + 1)) + 1 by omega, List.range'_succ, List.filter_cons]
  simp [h]

theorem messages_nil {p q lo hi : ℕ} (hle : hi ≤ lo) : messages comm_sz s slices p q lo hi = [] := by
  unfold messages
  simp [show hi - lo = 0 by omega]

/-- Every process is where lock step has it in its own phase, and every channel holds what the
sender has sent and the receiver has not yet come to. -/
structure Inv (comm_sz s : ℕ) (slices : ℕ → List ℤ) (w : World) : Prop where
  phase_le : ∀ r < comm_sz, (w.proc r).i ≤ comm_sz
  local_v : ∀ r < comm_sz, (w.proc r).local_v = phaseRow comm_sz s slices (w.proc r).i r
  sent : ∀ r < comm_sz, (w.proc r).sent = true →
    (w.proc r).i < comm_sz ∧ (exchange comm_sz (w.proc r).i r).partner ≠ none
  received : ∀ r < comm_sz, ∀ j < (w.proc r).i, ∀ q, (exchange comm_sz j r).partner = some q →
    j < (w.proc q).sentPhases
  chan : ∀ p < comm_sz, ∀ q < comm_sz, w.chan p q =
    messages comm_sz s slices p q (w.proc q).i (w.proc p).sentPhases

theorem inv_start : Inv comm_sz s slices (start slices) where
  phase_le _ _ := Nat.zero_le _
  local_v _ _ := rfl
  sent _ _ h := by simp [start] at h
  received _ _ j hj := by simp [start] at hj
  chan p _ q _ := by rw [messages_nil] <;> simp [start, Process.sentPhases]

/-- What a process has in front of it when it sends. -/
theorem Inv.partner_behind {w : World} (hi : Inv comm_sz s slices w) {r q : ℕ} (hr : r < comm_sz)
    (hns : (w.proc r).sent = false) (hp : (exchange comm_sz (w.proc r).i r).partner = some q) :
    (w.proc q).i ≤ (w.proc r).i := by
  obtain ⟨hq, -, hsymm⟩ := partner_symm hr hp
  by_contra hlt
  -- The partner would have left this phase with a message that was never sent.
  have := hi.received q hq (w.proc r).i (by omega) r hsymm
  simp [Process.sentPhases, hns] at this

theorem inv_send {w w' : World} {r : ℕ} (hi : Inv comm_sz s slices w)
    (h : step comm_sz s w (.send r) = some w') : Inv comm_sz s slices w' := by
  obtain ⟨hr, hlt, hns, q, hp, rfl⟩ := step_send h
  have hbehind := hi.partner_behind hr hns hp
  obtain ⟨hq, hqr, hsymm⟩ := partner_symm hr hp
  have hproc : ∀ p, ((Function.update w.proc r { w.proc r with sent := true }) p).i
      = (w.proc p).i := by
    intro p
    by_cases hpr : p = r
    · subst hpr; simp
    · simp [hpr]
  have hsp : ∀ p, p ≠ r → ((Function.update w.proc r { w.proc r with sent := true }) p).sentPhases
      = (w.proc p).sentPhases := fun p hpr => by simp [hpr]
  -- A send makes its rank one phase further in what it has sent, and moves nobody to a new phase.
  have hspr : ((Function.update w.proc r { w.proc r with sent := true }) r).sentPhases
      = (w.proc r).i + 1 := by simp [Process.sentPhases]
  have hold : (w.proc r).sentPhases = (w.proc r).i := by simp [Process.sentPhases, hns]
  refine ⟨fun p hp' => ?_, fun p hp' => ?_, fun p hp' hs => ?_, fun p hp' j hj k hk => ?_,
    fun a ha b hb => ?_⟩
  · simpa [hproc] using hi.phase_le p hp'
  · by_cases hpr : p = r
    · subst hpr; simpa using hi.local_v p hp'
    · simpa [hpr] using hi.local_v p hp'
  · by_cases hpr : p = r
    · subst hpr
      simp [hlt, hp]
    · simp only [World.setChan_proc, World.setProc_proc, Function.update_of_ne hpr] at hs ⊢
      exact hi.sent p hp' hs
  · simp only [World.setChan_proc, World.setProc_proc, hproc] at hj ⊢
    have := hi.received p hp' j hj k hk
    by_cases hkr : k = r
    · subst hkr; rw [hspr]; omega
    · rwa [hsp k hkr]
  · simp only [World.setChan, World.setProc_proc, World.setProc_chan, hproc]
    -- One channel is longer by the slice; it holds what its sender sent and its receiver did not take.
    by_cases hab : a = r ∧ b = q
    · obtain ⟨rfl, rfl⟩ := hab
      rw [if_pos ⟨rfl, rfl⟩, hspr, messages_snoc hbehind, if_pos hp, hi.chan a ha b hb, hold,
        hi.local_v a ha]
    · rw [if_neg hab, hi.chan a ha b hb]
      by_cases har : a = r
      · subst har
        have hbq : (exchange comm_sz (w.proc a).i a).partner ≠ some b := by
          rw [hp]
          exact fun he => hab ⟨rfl, (Option.some.inj he).symm⟩
        rw [hspr, hold]
        by_cases hle : (w.proc b).i ≤ (w.proc a).i
        · rw [messages_snoc hle, if_neg hbq, List.append_nil]
        · rw [messages_nil (by omega), messages_nil (by omega)]
      · rw [hsp a har]

theorem inv_skip {w w' : World} {r : ℕ} (hi : Inv comm_sz s slices w)
    (h : step comm_sz s w (.skip r) = some w') : Inv comm_sz s slices w' := by
  obtain ⟨hr, hlt, he, rfl⟩ := step_skip h
  have hnone : (exchange comm_sz (w.proc r).i r).partner = none := by rw [he]; rfl
  have hns : (w.proc r).sent = false := by
    by_contra hs
    exact (hi.sent r hr (by simpa using hs)).2 hnone
  -- Nobody has this process as a partner in this phase either.
  have hnobody : ∀ p < comm_sz, (exchange comm_sz (w.proc r).i p).partner ≠ some r := by
    intro p hp hpr
    rw [(partner_symm hp hpr).2.2] at hnone
    cases hnone
  have hspr : ((Function.update w.proc r { w.proc r with i := (w.proc r).i + 1 }) r).sentPhases
      = (w.proc r).i + 1 := by simp [Process.sentPhases, hns]
  have hold : (w.proc r).sentPhases = (w.proc r).i := by simp [Process.sentPhases, hns]
  refine ⟨fun p hp => ?_, fun p hp => ?_, fun p hp hs => ?_, fun p hp j hj k hk => ?_,
    fun a ha b hb => ?_⟩
  · by_cases hpr : p = r
    · subst hpr; simpa using Nat.succ_le_of_lt hlt
    · simpa [hpr] using hi.phase_le p hp
  · by_cases hpr : p = r
    · subst hpr
      have hrow : phaseRow comm_sz s slices ((w.proc p).i + 1) p
          = phaseRow comm_sz s slices (w.proc p).i p := by rw [phaseRow, hnone]
      simp [hi.local_v p hp, hrow]
    · simpa [hpr] using hi.local_v p hp
  · by_cases hpr : p = r
    · subst hpr; simp [hns] at hs
    · simp only [World.setProc_proc, Function.update_of_ne hpr] at hs ⊢
      exact hi.sent p hp hs
  · have hj' : j < (w.proc p).i := by
      by_cases hpr : p = r
      · subst hpr
        simp only [World.setProc_proc, Function.update_self] at hj
        rcases Nat.lt_succ_iff_lt_or_eq.mp hj with hj | rfl
        · exact hj
        · rw [hnone] at hk; cases hk
      · simpa [hpr] using hj
    have := hi.received p hp j hj' k hk
    by_cases hkr : k = r
    · subst hkr
      simp only [World.setProc_proc, hspr]
      omega
    · simpa [hkr] using this
  · simp only [World.setProc_proc, World.setProc_chan]
    rw [hi.chan a ha b hb]
    by_cases har : a = r
    · subst har
      rw [hspr, hold]
      by_cases hbr : b = a
      · subst hbr
        rw [messages_nil le_rfl]
        simp [messages_nil]
      · rw [Function.update_of_ne hbr]
        by_cases hle : (w.proc b).i ≤ (w.proc a).i
        · rw [messages_snoc hle, hnone]
          simp
        · rw [messages_nil (by omega), messages_nil (by omega)]
    · rw [Function.update_of_ne har]
      by_cases hbr : b = r
      · subst hbr
        rw [Function.update_self]
        exact messages_skip (hnobody a ha)
      · rw [Function.update_of_ne hbr]

theorem inv_receive {w w' : World} {r : ℕ}
    (hi : Inv comm_sz s slices w) (h : step comm_sz s w (.receive r) = some w') :
    Inv comm_sz s slices w' := by
  obtain ⟨hr, hlt, hs, q, other_v, rest, v, hp, hchan, hmerge, rfl⟩ := step_receive h
  obtain ⟨hq, hqr, hsymm⟩ := partner_symm hr hp
  have hold : (w.proc r).sentPhases = (w.proc r).i + 1 := by simp [Process.sentPhases, hs]
  -- The oldest message from the partner is the one of this phase.
  have hc := hi.chan q hq r hr
  have hsentq : (w.proc r).i < (w.proc q).sentPhases := by
    by_contra hle
    rw [messages_nil (by omega), hchan] at hc
    cases hc
  rw [messages_cons hsentq hsymm, hchan] at hc
  obtain ⟨hother, hrest⟩ := List.cons.inj hc
  have hv : v = phaseRow comm_sz s slices ((w.proc r).i + 1) r := by
    rw [phaseRow, hp]
    simp only
    rw [← hi.local_v r hr, ← hother, hmerge, Option.getD_some]
  have hspr : ((Function.update w.proc r ⟨(w.proc r).i + 1, false, v⟩) r).sentPhases
      = (w.proc r).i + 1 := by simp [Process.sentPhases]
  have hsp : ∀ p, ((Function.update w.proc r ⟨(w.proc r).i + 1, false, v⟩) p).sentPhases
      = (w.proc p).sentPhases := by
    intro p
    by_cases hpr : p = r
    · subst hpr; rw [hspr, hold]
    · rw [Function.update_of_ne hpr]
  refine ⟨fun p hp' => ?_, fun p hp' => ?_, fun p hp' hs' => ?_, fun p hp' j hj k hk => ?_,
    fun a ha b hb => ?_⟩
  · by_cases hpr : p = r
    · subst hpr; simpa using Nat.succ_le_of_lt hlt
    · simpa [hpr] using hi.phase_le p hp'
  · by_cases hpr : p = r
    · subst hpr; simpa using hv
    · simpa [hpr] using hi.local_v p hp'
  · by_cases hpr : p = r
    · subst hpr; simp at hs'
    · simp only [World.setChan_proc, World.setProc_proc, Function.update_of_ne hpr] at hs' ⊢
      exact hi.sent p hp' hs'
  · simp only [World.setChan_proc, World.setProc_proc, hsp] at hj ⊢
    by_cases hpr : p = r
    · subst hpr
      rw [Function.update_self] at hj
      rcases Nat.lt_succ_iff_lt_or_eq.mp hj with hj | rfl
      · exact hi.received p hp' j hj k hk
      · rw [hp, Option.some.injEq] at hk
        exact hk ▸ hsentq
    · rw [Function.update_of_ne hpr] at hj
      exact hi.received p hp' j hj k hk
  · simp only [World.setChan, World.setProc_proc, World.setProc_chan, hsp]
    by_cases hab : a = q ∧ b = r
    · obtain ⟨rfl, rfl⟩ := hab
      rw [if_pos ⟨rfl, rfl⟩, Function.update_self]
      exact hrest
    · rw [if_neg hab, hi.chan a ha b hb]
      by_cases hbr : b = r
      · subst hbr
        rw [Function.update_self]
        refine messages_skip fun he => hab ⟨?_, rfl⟩
        have := (partner_symm ha he).2.2
        rw [hp] at this
        exact (Option.some.inj this).symm
      · rw [Function.update_of_ne hbr]

/-- **The invariant holds in every state any interleaving reaches.** -/
theorem inv_exec {ms : List Move} {w : World}
    (h : exec (step comm_sz s) (start slices) ms = some w) : Inv comm_sz s slices w := by
  refine (along_of_step (P := Inv comm_sz s slices) ?_ (inv_start)).last h
  intro w m w' hi hs
  cases m with
  | send r => exact inv_send hi hs
  | receive r => exact inv_receive hi hs
  | skip r => exact inv_skip hi hs

/-! ## No deadlock -/

/-- A merge is defined on every pair of slices lock step brings together. -/
theorem merge_phaseRow (hg : GoodSlices comm_sz s slices) {t r q : ℕ} (hr : r < comm_sz)
    (hp : (exchange comm_sz t r).partner = some q) :
    ∃ v, (exchange comm_sz t r).merge s (phaseRow comm_sz s slices t r)
      (phaseRow comm_sz s slices t q) = some v := by
  obtain ⟨hq, -, -⟩ := partner_symm hr hp
  obtain ⟨hlr, hsr⟩ := phaseRow_slice hg t r hr
  obtain ⟨hlq, hsq⟩ := phaseRow_slice hg t q hq
  cases he : exchange comm_sz t r with
  | idle => simp [he, Exchange.partner] at hp
  | keepSmaller p => exact ⟨_, mergeSlicesKeepSmallerBetter_eq hlr hlq⟩
  | keepBigger p => exact ⟨_, mergeSlicesKeepBiggerBetter_eq hlr hlq hsr hsq⟩

/-- A process whose turn it is to receive can, once its partner has sent in this phase. -/
theorem Inv.receive_enabled {w : World} (hg : GoodSlices comm_sz s slices)
    (hi : Inv comm_sz s slices w) {r q : ℕ} (hr : r < comm_sz) (hs : (w.proc r).sent = true)
    (hp : (exchange comm_sz (w.proc r).i r).partner = some q)
    (hsent : (w.proc r).i < (w.proc q).sentPhases) :
    ∃ w', step comm_sz s w (.receive r) = some w' := by
  obtain ⟨hq, -, hsymm⟩ := partner_symm hr hp
  have hc := hi.chan q hq r hr
  rw [messages_cons hsent hsymm] at hc
  obtain ⟨v, hv⟩ := merge_phaseRow hg hr hp
  rw [← hi.local_v r hr] at hv
  simp only [step, if_pos (⟨hr, (hi.sent r hr hs).1, hs⟩ : _ ∧ _ ∧ _), hp, hc, hv]
  exact ⟨_, rfl⟩

/-- **Some process can always go on.** One that is behind all others can, or waits for a partner in
the same phase that can. -/
theorem Inv.enabled {w : World} (hg : GoodSlices comm_sz s slices) (hi : Inv comm_sz s slices w)
    (hnf : ¬ w.Finished comm_sz) : ∃ m w', step comm_sz s w m = some w' := by
  obtain ⟨r₀, hr₀, hne⟩ : ∃ r < comm_sz, (w.proc r).i ≠ comm_sz := by
    simpa [World.Finished] using hnf
  obtain ⟨r, hr, hmin⟩ := (Finset.range comm_sz).exists_min_image (fun r => (w.proc r).i)
    ⟨r₀, Finset.mem_range.mpr hr₀⟩
  rw [Finset.mem_range] at hr
  have hlt : (w.proc r).i < comm_sz := by
    have := hmin r₀ (Finset.mem_range.mpr hr₀)
    have := hi.phase_le r₀ hr₀
    omega
  cases hp : (exchange comm_sz (w.proc r).i r).partner with
  | none =>
    have he : exchange comm_sz (w.proc r).i r = .idle := by
      cases he : exchange comm_sz (w.proc r).i r <;> simp [he, Exchange.partner] at hp ⊢
    exact ⟨.skip r, _, if_pos ⟨hr, hlt, he⟩⟩
  | some q =>
    obtain ⟨hq, -, hsymm⟩ := partner_symm hr hp
    cases hs : (w.proc r).sent with
    | false =>
      refine ⟨.send r, ?_⟩
      simp only [step, if_pos (⟨hr, hlt, hs⟩ : _ ∧ _ ∧ _), hp]
      exact ⟨_, rfl⟩
    | true =>
      by_cases hsent : (w.proc r).i < (w.proc q).sentPhases
      · exact ⟨.receive r, hi.receive_enabled hg hr hs hp hsent⟩
      · -- The partner is in the same phase and has not sent yet.
        have hle := hmin q (Finset.mem_range.mpr hq)
        have hqs : (w.proc q).i = (w.proc r).i ∧ (w.proc q).sent = false := by
          unfold Process.sentPhases at hsent
          cases hsq : (w.proc q).sent <;> simp [hsq] at hsent ⊢ <;> omega
        refine ⟨.send q, ?_⟩
        simp only [step, hqs.1, hsymm, if_pos (⟨hq, hlt, hqs.2⟩ : _ ∧ _ ∧ _)]
        exact ⟨_, rfl⟩

/-- How far all processes have come, in half phases. -/
def World.progress (comm_sz : ℕ) (w : World) : ℕ :=
  ∑ r ∈ Finset.range comm_sz, ((w.proc r).i + (w.proc r).sentPhases)

theorem progress_update {w w' : World} {r : ℕ} {p : Process} (hr : r < comm_sz)
    (hw : w'.proc = Function.update w.proc r p)
    (hp : (w.proc r).i + (w.proc r).sentPhases < p.i + p.sentPhases) :
    w.progress comm_sz < w'.progress comm_sz := by
  refine Finset.sum_lt_sum (fun j _ => ?_) ⟨r, Finset.mem_range.mpr hr, ?_⟩
  · by_cases hj : j = r
    · subst hj; rw [hw, Function.update_self]; exact hp.le
    · rw [hw, Function.update_of_ne hj]
  · rw [hw, Function.update_self]; exact hp

/-- Every move gets further. -/
theorem step_progress {w w' : World} {m : Move} (h : step comm_sz s w m = some w') :
    w.progress comm_sz < w'.progress comm_sz := by
  cases m with
  | send r =>
    obtain ⟨hr, -, hns, q, -, rfl⟩ := step_send h
    exact progress_update hr rfl (by simp [Process.sentPhases, hns])
  | receive r =>
    obtain ⟨hr, -, hs, q, other_v, rest, v, -, -, -, rfl⟩ := step_receive h
    exact progress_update hr rfl (by simp [Process.sentPhases, hs])
  | skip r =>
    obtain ⟨hr, -, -, rfl⟩ := step_skip h
    exact progress_update hr rfl (by simp only [Process.sentPhases]; omega)

theorem exec_progress {ms : List Move} : ∀ {w w' : World},
    exec (step comm_sz s) w ms = some w' → w.progress comm_sz + ms.length ≤ w'.progress comm_sz := by
  induction ms with
  | nil =>
    intro w w' h
    cases h
    simp
  | cons m ms ih =>
    intro w w' h
    obtain ⟨w₁, hw₁, h⟩ := Option.bind_eq_some_iff.mp h
    have := step_progress hw₁
    have := ih h
    rw [List.length_cons]
    omega

theorem Inv.progress_le {w : World} (hi : Inv comm_sz s slices w) :
    w.progress comm_sz ≤ comm_sz * (2 * comm_sz) := by
  have hle : ∀ r ∈ Finset.range comm_sz, (w.proc r).i + (w.proc r).sentPhases ≤ 2 * comm_sz := by
    intro r hr
    rw [Finset.mem_range] at hr
    have := hi.phase_le r hr
    have := hi.sent r hr
    unfold Process.sentPhases
    cases hs : (w.proc r).sent
    · simp; omega
    · have := (hi.sent r hr hs).1
      simp; omega
  simpa [World.progress] using Finset.sum_le_card_nsmul _ _ _ hle

/-! ## The sorted array -/

/-- When all processes have left the loop, they hold the last row and the channels are empty. -/
theorem Inv.finished {w : World} (hi : Inv comm_sz s slices w) (hf : w.Finished comm_sz) :
    w.v_result comm_sz = gather comm_sz (phaseRow comm_sz s slices comm_sz) ∧
      ∀ p < comm_sz, ∀ q < comm_sz, w.chan p q = [] := by
  constructor
  · refine List.flatMap_congr fun r hr => ?_
    rw [List.mem_range] at hr
    simp only [hi.local_v r hr, hf r hr]
  · intro p hp q hq
    have hns : (w.proc p).sent = false := by
      by_contra hs
      have := (hi.sent p hp (by simpa using hs)).1
      have := hf p hp
      omega
    rw [hi.chan p hp q hq, messages_nil]
    simp [Process.sentPhases, hns, hf p hp, hf q hq]

theorem gather_sortMySlice (n : ℕ) :
    (gather n fun r => sortMySlice (slices r)).Perm (gather n slices) := by
  induction n with
  | zero => simp
  | succ n ih =>
    rw [gather_succ, gather_succ]
    exact ih.append (sortMySlice_perm _)

/-- **`MPI_Sort.c` sorts.** Every process has its partner send to it in the phase it sends to that
partner. However the processes interleave, they stop within `2 * comm_sz` half phases each, some
process can go on until all have left the loop, and then `v_result` is the ascending permutation of
`v_start` and no message is left in a channel. -/
theorem mpiSort_sorts (hg : GoodSlices comm_sz s slices) :
    (∀ i < comm_sz, ∀ r < comm_sz, ∀ q, (exchange comm_sz i r).partner = some q →
      q < comm_sz ∧ q ≠ r ∧ (exchange comm_sz i q).partner = some r) ∧
    ∀ ms w, exec (step comm_sz s) (start slices) ms = some w →
      ms.length ≤ comm_sz * (2 * comm_sz) ∧
      (¬ w.Finished comm_sz → ∃ m w', step comm_sz s w m = some w') ∧
      (w.Finished comm_sz →
        (w.v_result comm_sz).Pairwise (· ≤ ·) ∧
        (w.v_result comm_sz).Perm (gather comm_sz slices) ∧
        ∀ p < comm_sz, ∀ q < comm_sz, w.chan p q = []) := by
  refine ⟨fun i _ r hr q hq => partner_symm hr hq, fun ms w h => ?_⟩
  have hi : Inv comm_sz s slices w := inv_exec h
  have hphases := phaseRow_phases hg
  refine ⟨?_, hi.enabled hg, fun hf => ?_⟩
  · have := exec_progress h
    have := hi.progress_le
    omega
  · obtain ⟨hres, hchan⟩ := hi.finished hf
    refine ⟨?_, ?_, hchan⟩
    · rw [hres]
      exact hphases.gather_sorted fun r hr => (phaseRow_slice hg comm_sz r hr).2
    · rw [hres]
      exact (hphases.gather_perm comm_sz).trans (gather_sortMySlice comm_sz)

/-- Two processes that hold one number each, in the wrong order. -/
theorem mpiSort_sorts_two : ∃ w, exec (step 2 1) (start fun r => [1 - (r : ℤ)])
    [.send 1, .send 0, .receive 0, .skip 0, .receive 1, .skip 1] = some w ∧
      (w.v_result 2).Pairwise (· ≤ ·) ∧ (w.v_result 2).Perm [1, 0] := by
  have hg : GoodSlices 2 1 fun r => [1 - (r : ℤ)] :=
    ⟨fun _ _ => rfl, fun r _ a ha b hb => by simp_all [NoOverflow]⟩
  have hstart : start (fun r => [1 - (r : ℤ)]) =
      ⟨fun r => ⟨0, false, [1 - (r : ℤ)]⟩, fun _ _ => []⟩ := by simp [start, sortMySlice]
  have hsorts := mpiSort_sorts hg
  rw [hstart] at hsorts ⊢
  refine ⟨_, rfl, ?_⟩
  obtain ⟨-, -, hsorted⟩ := hsorts.2
    [.send 1, .send 0, .receive 0, .skip 0, .receive 1, .skip 1] _ rfl
  obtain ⟨hle, hperm, -⟩ := hsorted fun r hr => by interval_cases r <;> rfl
  exact ⟨hle, hperm⟩

end UnionCollegeCode.Mpi
