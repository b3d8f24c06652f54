import UnionCollegeCode.SystemArchitecture.Lab7.ArmList
import UnionCollegeCode.SystemArchitecture.Lab7.MipsList

/-!
# The free list of any number of nodes

The loop of `mknodes` looks for the first block after it has gone down one, so that with one block it
starts below what it looks for. In MIPS it goes down until `sub` traps at the bottom of the signed words; in
ARM it goes round the address space, and links all of it.
-/

set_option autoImplicit false

namespace UnionCollegeCode.SystemArchitecture.Lab7

open Function (update)
open Lib.Assembly Lib.CellList

namespace MipsList

open Mips

variable {base : Word} {D : Data} {s : State}

theorem stops_at {i : ℕ} {j : Instr Label} (hlo : 23 ≤ i) (hhi : i < 75)
    (hget : (instrs (text D))[i]? = some j) (hpc : s.pc = (program base D).addr i)
    (h : exec (program base D).address j s = none) : Stops (step base D) (Inside base D) s := by
  refine ⟨s, .refl, ⟨i, hlo, hhi, hpc⟩, ?_⟩
  exact (step_at (hhi.trans (by decide)) hget hpc).trans h

/-- From the first block or below it, the loop goes down to where the difference is no signed word. -/
theorem mkloop_stops (hpc : s.pc = (program base D).address .mkloop) (ha2 : s.reg .a2 = NODESIZE)
    (hal : Aligned (s.reg .t0)) (hle : (s.reg .t0).toInt ≤ (s.reg .a0).toInt) :
    Stops (step base D) (Inside base D) s := by
  obtain ⟨n, hn⟩ : ∃ n : ℕ, (s.reg .t0).toInt + 2 ^ 31 < 8 * n := by
    refine ⟨((s.reg .t0).toInt + 2 ^ 31).toNat + 1, ?_⟩
    omega
  induction n generalizing s with
  | zero =>
    have hmin := BitVec.le_toInt (s.reg .t0)
    omega
  | succ n ih =>
    cases hsub : BitVec.ssubOverflow (s.reg .t0) NODESIZE with
    | true =>
      apply stops_at (i := 26) (by decide) (by decide) rfl (hpc.trans (address_eq rfl))
      simp [exec, ha2, hsub]
    | false =>
      have hdown : (s.reg .t0 - NODESIZE).toInt = (s.reg .t0).toInt - 8 :=
        BitVec.toInt_sub_of_not_ssubOverflow (by simp [hsub])
      have hmore : s.reg .t0 - NODESIZE ≠ s.reg .a0 := by
        intro h
        rw [← h, hdown] at hle
        omega
      have hround := round_runs hpc rfl ha2 rfl hal hsub
      rw [if_neg hmore] at hround
      apply hround.stops
      have hnext : Aligned (s.reg .t0 - NODESIZE) := by
        have hsize : NODESIZE.toNat = 8 := rfl
        unfold Aligned at hal ⊢
        rw [BitVec.toNat_sub]
        omega
      apply ih rfl
      · simp [ha2]
      · simpa using hnext
      · simp [hdown]
        omega
      · simp [hdown]
        omega

/-- The loop is reached below the first block, if it is reached. -/
theorem mknodes_stops (hpc : s.pc = (program base D).address .mknodes) (ha2 : s.reg .a2 = NODESIZE)
    (hal : Aligned (s.reg .a0 + s.reg .a1))
    (h : (s.reg .a1).toInt ≤ 8 ∨ BitVec.saddOverflow (s.reg .a0) (s.reg .a1) = true) :
    Stops (step base D) (Inside base D) s := by
  have hentry : s.pc = (program base D).addr 23 := hpc.trans (address_eq rfl)
  cases hadd : BitVec.saddOverflow (s.reg .a0) (s.reg .a1) with
  | true =>
    apply stops_at (i := 23) (by decide) (by decide) rfl hentry
    simp [exec, hadd]
  | false =>
    have hsmall : (s.reg .a1).toInt ≤ 8 := h.resolve_right (by simp [hadd])
    have hsum : (s.reg .a0 + s.reg .a1).toInt = (s.reg .a0).toInt + (s.reg .a1).toInt :=
      BitVec.toInt_add_of_not_saddOverflow (by simp [hadd])
    obtain ⟨p, hp⟩ : ∃ p, s.reg .a0 + s.reg .a1 = p := ⟨_, rfl⟩
    rw [hp] at hal hsum
    have hfirst : Runs (step base D) (Inside base D) s
        { s with pc := (program base D).addr 24, reg := update s.reg .t0 p } := by
      apply block 23 [.add .t0 .a0 .a1] (by decide) (by decide) rfl rfl hentry
      simp [execs, exec, State.next, State.goto, hadd, hp, hentry, Program.addr_succ]
    apply hfirst.stops
    cases hsub : BitVec.ssubOverflow p NODESIZE with
    | true =>
      apply stops_at (i := 24) (by decide) (by decide) rfl rfl
      simp [exec, ha2, hsub]
    | false =>
      have hdown : (p - NODESIZE).toInt = p.toInt - 8 :=
        BitVec.toInt_sub_of_not_ssubOverflow (by simp [hsub])
      have hstart : Runs (step base D) (Inside base D)
          { s with pc := (program base D).addr 24, reg := update s.reg .t0 p }
          { s with
            pc := (program base D).address .mkloop
            reg := update (update s.reg .t0 (p - NODESIZE)) .v0 (p - NODESIZE) } := by
        have hloop : (program base D).address .mkloop = (program base D).addr 26 := address_eq rfl
        apply block 24 [.sub .t0 .t0 .a2, .move .v0 .t0] (by decide) (by decide) rfl rfl rfl
        simp [execs, exec, State.next, State.goto, ha2, hsub, hloop, Program.addr_succ]
      apply hstart.stops
      apply mkloop_stops rfl
      · simp [ha2]
      · have hsize : NODESIZE.toNat = 8 := rfl
        unfold Aligned at hal ⊢
        simp [BitVec.toNat_sub]
        omega
      · simp [hdown, hsum]
        omega

variable {heap : Word} {k : ℕ}

theorem CallsMknodes.stops (h : Routines.Area heap k) (hs : CallsMknodes base D heap k s)
    (hk : ¬ (2 ≤ k ∧ Signed heap k)) : Stops (step base D) (Inside base D) s := by
  obtain ⟨hone, hal, hne, hfits⟩ := h
  have hpos : 0 < heap.toNat := Nat.pos_of_ne_zero fun h0 => hne (BitVec.eq_of_toNat_eq h0)
  apply mknodes_stops hs.pc hs.nodesize
  · rw [hs.heap, hs.heapsize]
    exact cell_aligned hal
  rw [hs.heap, hs.heapsize]
  have hint : (BitVec.ofNat 32 (8 * k)).toInt = if 8 * k < 2 ^ 31 then 8 * (k : ℤ) else 8 * k - 2 ^ 32 := by
    rw [BitVec.toInt_ofNat', Int.bmod_def]
    split <;> omega
  by_cases hsize : 8 * k < 2 ^ 31
  · rw [if_pos hsize] at hint
    by_cases hlast : heap.toInt + 8 * k < 2 ^ 31
    · left
      have hk1 : ¬ 2 ≤ k := fun h2 => hk ⟨h2, hsize, hlast⟩
      omega
    · right
      rw [← Bool.not_eq_false, saddOverflow_eq_false_iff, hint]
      omega
  · left
    rw [if_neg hsize] at hint
    omega

end MipsList

namespace ArmList

open Arm

variable {base : Word} {D : Data} {s : State} {heap : Word} {k : ℕ}

end ArmList

end UnionCollegeCode.SystemArchitecture.Lab7
