import Mathlib.Algebra.Group.Nat.Defs
import Mathlib.Data.List.Sort
import Mathlib.Data.Nat.Notation
import Mathlib.Logic.Function.Basic
import Mathlib.Logic.Relation

/-!
# Assembly programs

A text segment is a list of lines, labels and instructions, placed from a base address up. What an
instruction does is up to the instruction set: `exec` is its semantics, `pc` its program counter, and
`none` is a trap, a stop or an instruction that is not there.

`Runs` follows a routine while control is in the routine's own code, so that a run ends in at most one
state outside it: the state the routine returns in (`Runs.unique`). Straight-line code is run in one go
(`runs_code`). Memory is by aligned addresses, and a stack grows down: `Below sp n` is the `n` bytes
under `sp`.
-/

set_option autoImplicit false

namespace Lib.Assembly

open Function (update)

abbrev Word := BitVec 32

abbrev Memory := Word → Word

def Aligned (a : Word) : Prop := a.toNat % 4 = 0

instance (a : Word) : Decidable (Aligned a) := inferInstanceAs (Decidable (_ = _))

theorem Aligned.add {a b : Word} (ha : Aligned a) (hb : Aligned b) : Aligned (a + b) := by
  unfold Aligned at *
  rw [BitVec.toNat_add]
  omega

/-- The `n` bytes below `sp`. -/
def Below (sp : Word) (n : ℕ) (a : Word) : Prop := a.toNat < sp.toNat ∧ sp.toNat ≤ a.toNat + n

theorem Below.mono {sp a : Word} {n n' : ℕ} (h : Below sp n a) (hn : n ≤ n') : Below sp n' a :=
  ⟨h.1, h.2.trans (Nat.add_le_add_left hn _)⟩

/-- `fp` is `i` bytes below `sp`: a frame of `i` bytes is pushed. -/
structure Frame (sp fp : Word) (i : ℕ) : Prop where
  room : i ≤ sp.toNat
  eq : sp + -BitVec.ofNat 32 i = fp

namespace Frame

variable {sp fp fp' a : Word} {i j k n n' : ℕ}

theorem toNat (h : Frame sp fp i) : fp.toNat = sp.toNat - i := by
  obtain ⟨hroom, rfl⟩ := h
  bv_omega

theorem pop (h : Frame sp fp i) : fp + BitVec.ofNat 32 i = sp := by
  obtain ⟨-, rfl⟩ := h
  bv_omega

/-- The word at offset `j` of the frame. -/
theorem toNat_slot (h : Frame sp fp i) (hj : j < i) :
    (fp + BitVec.ofNat 32 j).toNat = sp.toNat - i + j := by
  have hfp := h.toNat
  have hroom := h.room
  bv_omega

theorem slot_ne (h : Frame sp fp i) (hj : j < i) (hk : k < i) (hne : j ≠ k) :
    fp + BitVec.ofNat 32 j ≠ fp + BitVec.ofNat 32 k := by
  intro heq
  have hnat := congrArg BitVec.toNat heq
  rw [h.toNat_slot hj, h.toNat_slot hk] at hnat
  omega

theorem below_slot (h : Frame sp fp i) (hj : j < i) : Below sp i (fp + BitVec.ofNat 32 j) := by
  have hroom := h.room
  unfold Below
  rw [h.toNat_slot hj]
  omega

theorem below_bottom (h : Frame sp fp i) (hi : 0 < i) : Below sp i fp := by
  have hbelow := h.below_slot hi
  rwa [BitVec.add_zero] at hbelow

theorem aligned (h : Frame sp fp i) (hsp : Aligned sp) (hi : i % 4 = 0) : Aligned fp := by
  have hroom := h.room
  unfold Aligned at *
  rw [h.toNat]
  omega

theorem aligned_slot (h : Frame sp fp i) (hsp : Aligned sp) (hi : i % 4 = 0) (hj : j < i)
    (hj4 : j % 4 = 0) : Aligned (fp + BitVec.ofNat 32 j) := by
  have hroom := h.room
  unfold Aligned at *
  rw [h.toNat_slot hj]
  omega

/-- The frame of a callee is below the frame of its caller. -/
theorem below (h : Frame sp fp i) (ha : Below fp n a) (hn : n + i ≤ n') : Below sp n' a := by
  have hroom := h.room
  unfold Below at *
  rw [h.toNat] at ha
  omega

theorem not_below_slot (h : Frame sp fp i) (hj : j < i) : ¬ Below fp n (fp + BitVec.ofNat 32 j) := by
  have hroom := h.room
  intro hbelow
  unfold Below at hbelow
  rw [h.toNat, h.toNat_slot hj] at hbelow
  omega

/-- An address off the stack is not in the frame. -/
theorem ne_slot (h : Frame sp fp i) (ha : ¬ Below sp n a) (hin : i ≤ n) (hj : j < i) :
    a ≠ fp + BitVec.ofNat 32 j := by
  rintro rfl
  exact ha ((h.below_slot hj).mono hin)

end Frame

/-- The memory with words stored upwards from offset `i` of a frame. -/
def pushed (m : Memory) (fp : Word) : ℕ → List Word → Memory
  | _, [] => m
  | i, v :: vs => update (pushed m fp (i + 4) vs) (fp + BitVec.ofNat 32 i) v

namespace Frame

variable {m : Memory} {sp fp a : Word} {i j k n : ℕ} {vs : List Word}

/-- The words are where they were stored. -/
theorem pushed_slot (h : Frame sp fp i) (hvs : j + 4 * vs.length ≤ i) (hk : k < vs.length) :
    pushed m fp j vs (fp + BitVec.ofNat 32 (j + 4 * k)) = vs[k] := by
  induction vs generalizing j k with
  | nil => exact absurd hk (Nat.not_lt_zero k)
  | cons v vs ih =>
    rw [List.length_cons] at hvs hk
    cases k with
    | zero => exact Function.update_self ..
    | succ k =>
      have hne : fp + BitVec.ofNat 32 (j + 4 * (k + 1)) ≠ fp + BitVec.ofNat 32 j :=
        h.slot_ne (by omega) (by omega) (by omega)
      have hrest := ih (j := j + 4) (k := k) (by omega) (Nat.lt_of_succ_lt_succ hk)
      rw [Nat.add_assoc, Nat.add_comm 4, ← Nat.mul_succ] at hrest
      rw [pushed, Function.update_of_ne hne, List.getElem_cons_succ]
      exact hrest

/-- An address off the stack keeps its word. -/
theorem pushed_off (h : Frame sp fp i) (hvs : j + 4 * vs.length ≤ i) (hin : i ≤ n) (ha : ¬ Below sp n a) :
    pushed m fp j vs a = m a := by
  induction vs generalizing j with
  | nil => rfl
  | cons v vs ih =>
    rw [List.length_cons] at hvs
    have hne : a ≠ fp + BitVec.ofNat 32 j := h.ne_slot ha hin (by omega)
    rw [pushed, Function.update_of_ne hne]
    exact ih (by omega)

end Frame

/-- Where the stack pointer is after one more word of the frame is pushed. -/
theorem slot_push (fp : Word) (j : ℕ) :
    fp + BitVec.ofNat 32 (j + 4) + -4#32 = fp + BitVec.ofNat 32 j := by
  bv_omega

theorem slot_pop (fp : Word) (j : ℕ) : fp + BitVec.ofNat 32 j + 4#32 = fp + BitVec.ofNat 32 (j + 4) := by
  bv_omega

/-- The first word that is pushed is the topmost of the frame, and the last that is popped. -/
theorem Frame.push_first {sp fp : Word} {j : ℕ} (h : Frame sp fp (j + 4)) :
    sp + -4#32 = fp + BitVec.ofNat 32 j := by
  rw [← h.pop]
  exact slot_push fp j

theorem Frame.pop_last {sp fp : Word} {j : ℕ} (h : Frame sp fp (j + 4)) :
    fp + BitVec.ofNat 32 j + 4#32 = sp := (slot_pop fp j).trans h.pop

theorem push_last (fp : Word) : fp + 4#32 + -4#32 = fp := (slot_push fp 0).trans (BitVec.add_zero fp)

section Text

variable {L I : Type}

inductive Line (L I : Type)
  | label (l : L)
  | instr (i : I)

def instrs : List (Line L I) → List I
  | [] => []
  | .label _ :: text => instrs text
  | .instr i :: text => i :: instrs text

/-- The number of instructions before a label. A label that is not there is past the end. -/
def offset [DecidableEq L] (l : L) : List (Line L I) → ℕ
  | [] => 0
  | .label l' :: text => if l = l' then 0 else offset l text
  | .instr _ :: text => offset l text + 1

structure Program (L I : Type) where
  base : Word
  text : List (Line L I)

namespace Program

variable (P : Program L I) {i : ℕ}

/-- Where the instruction number `i` is. -/
def addr (i : ℕ) : Word := P.base + BitVec.ofNat 32 (4 * i)

def address [DecidableEq L] (l : L) : Word := P.addr (offset l P.text)

def fetch (pc : Word) : Option I :=
  if (pc - P.base).toNat % 4 = 0 then (instrs P.text)[(pc - P.base).toNat / 4]? else none

theorem addr_succ : P.addr i + 4#32 = P.addr (i + 1) := by
  unfold addr
  rw [BitVec.add_assoc]
  congr 1
  exact (BitVec.ofNat_add (4 * i) 4).symm

theorem addr_inj {j : ℕ} (hi : i < 2 ^ 30) (hj : j < 2 ^ 30) (h : P.addr i = P.addr j) : i = j := by
  have hnat := congrArg BitVec.toNat (BitVec.add_right_inj P.base |>.mp h)
  rw [BitVec.toNat_ofNat, BitVec.toNat_ofNat] at hnat
  omega

theorem fetch_addr (hi : i < 2 ^ 30) : P.fetch (P.addr i) = (instrs P.text)[i]? := by
  have hsub : (P.addr i - P.base).toNat = 4 * i := by
    unfold addr
    rw [BitVec.add_comm, BitVec.add_sub_cancel, BitVec.toNat_ofNat]
    exact Nat.mod_eq_of_lt (by omega)
  rw [fetch, hsub, Nat.mul_mod_right, if_pos rfl, Nat.mul_div_cancel_left i (by decide)]

/-- The program counter is in the code between the two instructions. -/
def Within (lo hi : ℕ) (pc : Word) : Prop := ∃ i, lo ≤ i ∧ i < hi ∧ pc = P.addr i

end Program

end Text

/-! ## Runs -/

section Runs

variable {σ : Type} {step : σ → Option σ} {inside : σ → Prop} {s t u : σ} {Q R : σ → Prop}

/-- The machine goes from `s` to `t`, and every state it makes a step from is inside. -/
def Runs (step : σ → Option σ) (inside : σ → Prop) : σ → σ → Prop :=
  Relation.ReflTransGen fun s t => inside s ∧ step s = some t

theorem Runs.trans (h : Runs step inside s t) (h' : Runs step inside t u) : Runs step inside s u :=
  Relation.ReflTransGen.trans h h'

theorem Runs.mono {inside' : σ → Prop} (h : Runs step inside s t) (hin : ∀ u, inside u → inside' u) :
    Runs step inside' s t :=
  Relation.ReflTransGen.mono (fun u _ hstep => ⟨hin u hstep.1, hstep.2⟩) s t h

theorem runs_one (hin : inside s) (h : step s = some t) : Runs step inside s t := .single ⟨hin, h⟩

theorem Runs.eq_of_outside (h : Runs step inside s t) (hs : ¬ inside s) : t = s := by
  rcases Relation.ReflTransGen.cases_head h with rfl | ⟨u, hstep, -⟩
  · rfl
  · exact absurd hstep.1 hs

/-- What is reached and is not of the first run comes after it. -/
theorem Runs.past {inside' : σ → Prop} (h : Runs step inside' s u) (ht : Runs step inside s t)
    (hout : ¬ inside' t) : Runs step inside u t := by
  induction h using Relation.ReflTransGen.head_induction_on with
  | refl => exact ht
  | head hstep _ ih =>
    rcases Relation.ReflTransGen.cases_head ht with rfl | ⟨v, hv, hrest⟩
    · exact absurd hstep.1 hout
    · cases hstep.2.symm.trans hv.2
      exact ih hrest

/-- Control leaves the inside for the first time in `t`. -/
def Leaves (step : σ → Option σ) (inside : σ → Prop) (s t : σ) : Prop :=
  Runs step inside s t ∧ ¬ inside t

theorem Leaves.of_runs (ht : Leaves step inside s t) (hu : Runs step inside s u) :
    Leaves step inside u t := ⟨hu.past ht.1 ht.2, ht.2⟩

theorem Leaves.unique (ht : Leaves step inside s t) (hu : Leaves step inside s u) : t = u :=
  (ht.of_runs hu.1).1.eq_of_outside hu.2

/-- The run from `s` ends inside, with no step to make. -/
def Stops (step : σ → Option σ) (inside : σ → Prop) (s : σ) : Prop :=
  ∃ u, Runs step inside s u ∧ inside u ∧ step u = none

theorem Runs.stops (h : Runs step inside s t) (ht : Stops step inside t) : Stops step inside s := by
  obtain ⟨u, hrun, hu⟩ := ht
  exact ⟨u, h.trans hrun, hu⟩

/-- A run from `s` gets to a state of `Q`. -/
def Reaches (step : σ → Option σ) (inside : σ → Prop) (s : σ) (Q : σ → Prop) : Prop :=
  ∃ t, Runs step inside s t ∧ Q t

theorem reaches_here (h : Q s) : Reaches step inside s Q := ⟨s, .refl, h⟩

theorem Reaches.trans (h : Reaches step inside s Q)
    (hQ : ∀ t, Q t → Reaches step inside t R) : Reaches step inside s R := by
  obtain ⟨t, hrun, ht⟩ := h
  obtain ⟨u, hrun', hu⟩ := hQ t ht
  exact ⟨u, hrun.trans hrun', hu⟩

theorem Reaches.mono (h : Reaches step inside s Q) (hQ : ∀ t, Q t → R t) :
    Reaches step inside s R := h.trans fun t ht => reaches_here (hQ t ht)

theorem Runs.reaches (h : Runs step inside s t) (ht : Reaches step inside t Q) :
    Reaches step inside s Q := by
  obtain ⟨u, hrun, hu⟩ := ht
  exact ⟨u, h.trans hrun, hu⟩

end Runs

section Blocks

variable {L I σ : Type} [DecidableEq L] (exec : (L → Word) → I → σ → Option σ) (pc : σ → Word)
  (P : Program L I)

def Program.step (s : σ) : Option σ := (P.fetch (pc s)).bind fun i => exec P.address i s

/-- The instructions of `code`, one after the other. -/
def execs (code : List I) (s : σ) : Option σ :=
  code.foldlM (fun t i => exec P.address i t) s

/-- After `i` the machine goes on with the next instruction. -/
def Falls (i : I) : Prop := ∀ (at_ : L → Word) (s t : σ), exec at_ i s = some t → pc t = pc s + 4

variable {exec pc P} {lo hi i : ℕ} {s t : σ} {Q : σ → Prop}

theorem step_at {j : I} (hi : i < 2 ^ 30) (hget : (instrs P.text)[i]? = some j) (hpc : pc s = P.addr i) :
    P.step exec pc s = exec P.address j s := by
  rw [Program.step, hpc, P.fetch_addr hi, hget]
  rfl

theorem runs_block {code : List I} (hlo : lo ≤ i) (hhi : i + code.length ≤ hi) (hmax : hi ≤ 2 ^ 30)
    (hcode : code <+: (instrs P.text).drop i) (hfalls : ∀ j ∈ code.dropLast, Falls exec pc j)
    (hpc : pc s = P.addr i) (h : execs exec P code s = some t) :
    Runs (P.step exec pc) (fun u => P.Within lo hi (pc u)) s t := by
  induction code generalizing i s with
  | nil =>
    cases h
    exact .refl
  | cons j code ih =>
    rw [List.length_cons] at hhi
    obtain ⟨u, hu, hrest⟩ := Option.bind_eq_some_iff.mp (show (exec P.address j s).bind _ = _ from h)
    have hget : (instrs P.text)[i]? = some j := by
      obtain ⟨rest, hdrop⟩ := hcode
      rw [← Nat.add_zero i, ← List.getElem?_drop, ← hdrop]
      rfl
    have hstep : P.step exec pc s = some u := (step_at (by omega) hget hpc).trans hu
    refine Relation.ReflTransGen.head ⟨⟨i, hlo, by omega, hpc⟩, hstep⟩ ?_
    cases code with
    | nil =>
      cases hrest
      exact .refl
    | cons k code =>
      -- The instruction is not the last one, so it falls through to the next.
      have hnext : pc u = P.addr (i + 1) := by
        rw [hfalls j (by simp) _ _ _ hu, hpc]
        exact P.addr_succ
      apply ih (i := i + 1) (by omega) (by rw [Nat.add_assoc, Nat.add_comm 1]; exact hhi)
      · obtain ⟨rest, hdrop⟩ := hcode
        refine ⟨rest, ?_⟩
        rw [← List.drop_drop, ← hdrop]
        rfl
      · intro j' hj'
        exact hfalls j' (by simpa using .inr hj')
      · exact hnext
      · exact hrest

/-- The code that is at `i`, where the instructions that fall through are decided by a test. -/
theorem runs_code {straight : I → Bool} (hfalls : ∀ {j}, straight j = true → Falls exec pc j) {code : List I}
    (hlo : lo ≤ i) (hhi : i + code.length ≤ hi) (hmax : hi ≤ 2 ^ 30)
    (hcode : ((instrs P.text).drop i).take code.length = code)
    (hstraight : code.dropLast.all straight = true) (hpc : pc s = P.addr i)
    (h : execs exec P code s = some t) :
    Runs (P.step exec pc) (fun u => P.Within lo hi (pc u)) s t := by
  apply runs_block hlo hhi hmax _ _ hpc h
  · rw [← hcode]
    exact List.take_prefix ..
  · intro j hj
    exact hfalls (List.all_eq_true.mp hstraight j hj)

end Blocks

end Lib.Assembly
