import Mathlib.Algebra.Order.Ring.Nat
import Mathlib.Data.List.Sort
import Mathlib.Tactic.Ring

/-!
# Odd-even transposition, by counting

`n` blocks of `s` elements each stand in a row. In phase `t` the blocks at `j - 1` and `j` are
*paired* when `j` and `t` differ in parity; a pair is replaced by the `s` smallest and the `s`
largest of its `2 s` elements. After `n` phases the row is sorted.

The usual proof goes through the 0-1 principle and follows single ones. Here a threshold is fixed
instead and `N t j` counts the elements above it in the first `j` blocks after `t` phases. A pair
`(j - 1, j)` moves as many of those to the right as fit, which makes the count the tropical
recurrence

```
N (t + 1) j = max (N t (j - 1)) (N t (j + 1) - s)
```

at a paired boundary, while an unpaired boundary keeps its count. Unrolling the recurrence from the
last phase, each phase moves the boundary one step left or one step right, and a step right costs
`s`; a walk of `r` steps right and `l` steps left that has not left the row is worth at most
`(j - l) * s` and at most `m - r * s`. `PhaseCounts.upper` is that bound, for every split of the
phases into `r` and `l`.
-/

set_option autoImplicit false

namespace Lib.OddEven

/-! ## The recurrence -/

/-- Counts of marked elements left of each boundary, phase by phase: `n` blocks of `s` elements
with `m` marked elements among them. -/
structure PhaseCounts (n s m : ℕ) (N : ℕ → ℕ → ℕ) : Prop where
  zero : ∀ t, N t 0 = 0
  total : ∀ t, N t n = m
  mono : ∀ t j, j < n → N t j ≤ N t (j + 1)
  block : ∀ t j, j < n → N t (j + 1) ≤ N t j + s
  paired : ∀ t j, 0 < j → j < n → j % 2 ≠ t % 2 →
    N (t + 1) j = max (N t (j - 1)) (N t (j + 1) - s)
  unpaired : ∀ t j, 0 < j → j < n → j % 2 = t % 2 → N (t + 1) j = N t j

variable {n s m : ℕ} {N : ℕ → ℕ → ℕ}

namespace PhaseCounts

theorem le_mul (h : PhaseCounts n s m N) (t : ℕ) : ∀ j, j ≤ n → N t j ≤ j * s := by
  intro j
  induction j with
  | zero => intro _; simp [h.zero t]
  | succ j ih =>
    intro hj
    have h1 := ih (by omega)
    have h2 := h.block t j (by omega)
    rw [Nat.succ_mul]
    omega

theorem le_total (h : PhaseCounts n s m N) (t : ℕ) {j : ℕ} (hj : j ≤ n) : N t j ≤ m := by
  -- From the right end: the counts only grow towards it.
  have key : ∀ k, k ≤ n → N t (n - k) ≤ m := by
    intro k
    induction k with
    | zero => intro _; simp [h.total t]
    | succ k ih =>
      intro hk
      have h1 := ih (by omega)
      have h2 := h.mono t (n - (k + 1)) (by omega)
      rw [show n - (k + 1) + 1 = n - k by omega] at h2
      omega
  have := key (n - j) (by omega)
  rwa [show n - (n - j) = j by omega] at this

/-- Nothing can leave the blocks right of a boundary than what fits into them. -/
theorem lower (h : PhaseCounts n s m N) (t : ℕ) {j : ℕ} (hj : j ≤ n) :
    m - (n - j) * s ≤ N t j := by
  have key : ∀ k, k ≤ n → m ≤ N t (n - k) + k * s := by
    intro k
    induction k with
    | zero => intro _; simp [h.total t]
    | succ k ih =>
      intro hk
      have h1 := ih (by omega)
      have h2 := h.block t (n - (k + 1)) (by omega)
      rw [show n - (k + 1) + 1 = n - k by omega] at h2
      rw [Nat.succ_mul]
      omega
  have := key (n - j) (by omega)
  rw [show n - (n - j) = j by omega] at this
  omega

/-- What a walk of `r` steps right and `l` steps left from the boundary `j` can be worth, the walk
ending inside the row or at one of its two ends. -/
def bound (n s m r l j : ℕ) : ℕ :=
  max (m - (n - j) * s) (max ((j - l - 1) * s) (m - r * s))

theorem le_bound_of_right {x r l j : ℕ} (hx : x ≤ m - r * s) : x ≤ bound n s m r l j :=
  le_trans hx (le_trans (le_max_right _ _) (le_max_right _ _))

/-- One step left. -/
theorem le_bound_left {x r l j : ℕ} (hj : 0 < j)
    (hx : x ≤ bound n s m r l (j - 1)) : x ≤ bound n s m r (l + 1) j := by
  have h1 : m - (n - (j - 1)) * s ≤ m - (n - j) * s :=
    Nat.sub_le_sub_left (Nat.mul_le_mul_right _ (by omega)) _
  have h2 : (j - 1 - l - 1) * s = (j - (l + 1) - 1) * s := by
    congr 1
    omega
  unfold bound at hx ⊢
  rw [h2] at hx
  exact le_trans hx (max_le_max_right _ h1)

/-- One step right, which costs `s`. -/
theorem sub_le_bound_right {x r l j : ℕ} (hj : j < n)
    (hx : x ≤ bound n s m r l (j + 1)) : x - s ≤ bound n s m (r + 1) l j := by
  have h1 : m - (n - (j + 1)) * s - s = m - (n - j) * s := by
    rw [Nat.sub_sub, ← Nat.succ_mul]
    congr 2
    omega
  have h2 : (j + 1 - l - 1) * s - s = (j - l - 1) * s := by
    rw [show j + 1 - l - 1 = j - l by omega, Nat.sub_mul (j - l) 1 s, Nat.one_mul]
  have h3 : m - r * s - s = m - (r + 1) * s := by
    rw [Nat.sub_sub, Nat.succ_mul]
  unfold bound at hx ⊢
  rw [← h1, ← h2, ← h3, Nat.sub_max_sub_right, Nat.sub_max_sub_right]
  exact Nat.sub_le_sub_right hx s

/-- At the two ends of the row the bound holds for every walk. -/
theorem le_bound_end (h : PhaseCounts n s m N) (t r l : ℕ) {j : ℕ} (hj : j = 0 ∨ j = n) :
    N t j ≤ bound n s m r l j := by
  rcases hj with rfl | rfl
  · rw [h.zero t]
    exact Nat.zero_le _
  · rw [h.total t]
    refine le_trans ?_ (le_max_left _ _)
    simp

/-- **The walk bound.** A boundary paired in the last phase has walked `t + 1` steps, the others
one step less. -/
theorem upper (h : PhaseCounts n s m N) (t : ℕ) : ∀ j r l, 0 < j → j < n →
    (j % 2 ≠ t % 2 → r + l = t + 1 → N (t + 1) j ≤ bound n s m r l j) ∧
    (j % 2 = t % 2 → r + l = t → N (t + 1) j ≤ bound n s m r l j) := by
  induction t with
  | zero =>
    intro j r l hj hjn
    refine ⟨fun hp hrl => ?_, fun hp hrl => ?_⟩
    · rw [h.paired 0 j hj hjn hp]
      have hleft : N 0 (j - 1) ≤ (j - 1) * s := h.le_mul 0 _ (by omega)
      have hright : N 0 (j + 1) ≤ m := h.le_total 0 (by omega)
      have hm : N 0 (j - 1) ≤ m := h.le_total 0 (by omega)
      -- One step was walked: to the right or to the left.
      obtain ⟨rfl, rfl⟩ | ⟨rfl, rfl⟩ : (r = 1 ∧ l = 0) ∨ (r = 0 ∧ l = 1) := by omega
      · simp only [bound, Nat.sub_zero, Nat.one_mul]
        omega
      · simp only [bound, Nat.zero_mul, Nat.sub_zero]
        omega
    · obtain ⟨rfl, rfl⟩ : r = 0 ∧ l = 0 := by omega
      exact le_bound_of_right (by simpa using h.le_total 1 (by omega))
  | succ t ih =>
    intro j r l hj hjn
    refine ⟨fun hp hrl => ?_, fun hp hrl => ?_⟩
    · rw [h.paired (t + 1) j hj hjn hp]
      refine max_le ?_ ?_
      · cases l with
        | zero =>
          -- No step left is allowed for, and none is needed: `j - 1` blocks hold no more.
          have hleft : N (t + 1) (j - 1) ≤ (j - 1) * s := h.le_mul _ _ (by omega)
          simp only [bound, Nat.sub_zero]
          omega
        | succ l =>
          refine le_bound_left hj ?_
          by_cases hend : j - 1 = 0
          · exact h.le_bound_end _ _ _ (Or.inl hend)
          · exact (ih (j - 1) r l (by omega) (by omega)).1 (by omega) (by omega)
      · cases r with
        | zero =>
          have hright : N (t + 1) (j + 1) ≤ m := h.le_total _ (by omega)
          exact le_bound_of_right (by simpa using le_trans (Nat.sub_le _ _) hright)
        | succ r =>
          refine sub_le_bound_right hjn ?_
          by_cases hend : j + 1 = n
          · exact h.le_bound_end _ _ _ (Or.inr hend)
          · exact (ih (j + 1) r l (by omega) (by omega)).1 (by omega) (by omega)
    · -- Unpaired now, so paired one phase earlier, with the same number of steps to account for.
      rw [h.unpaired (t + 1) j hj hjn hp]
      exact (ih j r l hj hjn).1 (by omega) (by omega)

/-- **After `n` phases the marked elements stand as far right as they fit.** -/
theorem final (h : PhaseCounts n s m N) {j : ℕ} (hj : j ≤ n) : N n j = m - (n - j) * s := by
  refine le_antisymm ?_ (h.lower n hj)
  by_cases hend : j = 0 ∨ j = n
  · rcases hend with rfl | rfl
    · rw [h.zero n]
      exact Nat.zero_le _
    · simp [h.total]
  · obtain ⟨t, rfl⟩ : ∃ t, n = t + 1 := ⟨n - 1, by omega⟩
    have hup : N (t + 1) j ≤ bound (t + 1) s m (t + 1 - j) (j - 1) j := by
      by_cases hp : j % 2 = t % 2
      · exact (h.upper t j _ _ (by omega) (by omega)).2 hp (by omega)
      · -- One step to spare: spend it on the left.
        have := (h.upper t j (t + 1 - j) j (by omega) (by omega)).1 hp (by omega)
        refine le_trans this ?_
        unfold bound
        rw [show j - j - 1 = j - (j - 1) - 1 by omega]
    simpa [bound, show j - (j - 1) - 1 = 0 by omega] using hup

end PhaseCounts

/-! ## Rows of blocks -/

variable {α : Type*}

/-- The first `j` blocks, end to end. -/
def gather (j : ℕ) (row : ℕ → List α) : List α := (List.range j).flatMap row

@[simp] theorem gather_zero (row : ℕ → List α) : gather 0 row = [] := rfl

theorem gather_succ (j : ℕ) (row : ℕ → List α) : gather (j + 1) row = gather j row ++ row j := by
  simp [gather, List.range_succ]

theorem mem_gather {j : ℕ} {row : ℕ → List α} {x : α} :
    x ∈ gather j row ↔ ∃ r, r < j ∧ x ∈ row r := by
  simp [gather]

variable [LinearOrder α]

/-- Two blocks replaced by the smaller and the larger part of what they hold. -/
structure MergeSplit (A B A' B' : List α) : Prop where
  perm : (A' ++ B').Perm (A ++ B)
  length_left : A'.length = A.length
  length_right : B'.length = B.length
  le : ∀ x ∈ A', ∀ y ∈ B', x ≤ y

/-- Of the elements above a threshold, the left block keeps what the right one has no room for. -/
theorem MergeSplit.countP_left {A B A' B' : List α} (h : MergeSplit A B A' B') (θ : α) :
    A'.countP (θ < ·) = A.countP (θ < ·) + B.countP (θ < ·) - B.length := by
  have hsum : A'.countP (θ < ·) + B'.countP (θ < ·) = A.countP (θ < ·) + B.countP (θ < ·) := by
    rw [← List.countP_append, ← List.countP_append]
    exact h.perm.countP_eq _
  have hroom : B'.countP (θ < ·) ≤ B.length := h.length_right ▸ List.countP_le_length
  by_cases hpos : 0 < A'.countP (θ < ·)
  · -- Something above the threshold stayed left, so the whole right block is above it.
    obtain ⟨x, hx, hθ⟩ := List.countP_pos_iff.mp hpos
    have hall : B'.countP (θ < ·) = B'.length := by
      refine List.countP_eq_length.mpr fun y hy => ?_
      simp only [decide_eq_true_eq] at hθ ⊢
      exact lt_of_lt_of_le hθ (h.le x hx y hy)
    have := h.length_right
    omega
  · omega

/-- The rows a phase sequence passes through: `S t r` is block `r` after `t` phases. -/
structure Phases (n s : ℕ) (S : ℕ → ℕ → List α) : Prop where
  length : ∀ t r, r < n → (S t r).length = s
  paired : ∀ t j, 0 < j → j < n → j % 2 ≠ t % 2 →
    MergeSplit (S t (j - 1)) (S t j) (S (t + 1) (j - 1)) (S (t + 1) j)
  alone : ∀ t r, r < n → (r = 0 ∨ r % 2 = t % 2) → (r + 1 = n ∨ (r + 1) % 2 = t % 2) →
    S (t + 1) r = S t r

namespace Phases

variable {S : ℕ → ℕ → List α}

/-- Nothing crosses a boundary that is not paired. -/
theorem gather_perm_closed (h : Phases n s S) (t : ℕ) : ∀ j, j ≤ n →
    (j = 0 ∨ j = n ∨ j % 2 = t % 2) → (gather j (S (t + 1))).Perm (gather j (S t)) := by
  intro j
  induction j using Nat.strongRecOn with
  | ind j ih =>
    intro hjn hclosed
    match j, ih, hjn, hclosed with
    | 0, _, _, _ => simp
    | 1, ih, hjn, hclosed =>
      rw [gather_succ, gather_succ, h.alone t 0 (by omega) (Or.inl rfl) (by omega)]
      exact List.Perm.refl _
    | j + 2, ih, hjn, hclosed =>
      by_cases hpair : (j + 1) % 2 = t % 2
      · -- The last block stands alone.
        rw [gather_succ, gather_succ (j + 1),
          h.alone t (j + 1) (by omega) (Or.inr hpair) (by omega)]
        exact (ih (j + 1) (by omega) (by omega) (Or.inr (Or.inr hpair))).append_right _
      · -- The last two blocks are a pair, and the boundary before them is closed.
        have hms := h.paired t (j + 1) (by omega) (by omega) hpair
        rw [gather_succ, gather_succ, gather_succ (j + 1), gather_succ j, List.append_assoc,
          List.append_assoc]
        exact (ih j (by omega) (by omega) (by omega)).append hms.perm

theorem gather_perm (h : Phases n s S) (t : ℕ) : (gather n (S t)).Perm (gather n (S 0)) := by
  induction t with
  | zero => exact List.Perm.refl _
  | succ t ih => exact (h.gather_perm_closed t n le_rfl (Or.inr (Or.inl rfl))).trans ih

/-- The counts above a threshold follow the recurrence. -/
theorem phaseCounts (h : Phases n s S) (θ : α) :
    PhaseCounts n s ((gather n (S 0)).countP (θ < ·))
      fun t j => (gather j (S t)).countP (θ < ·) where
  zero t := by simp
  total t := (h.gather_perm t).countP_eq _
  mono t j hj := by
    simp only [gather_succ, List.countP_append]
    omega
  block t j hj := by
    have : (S t j).countP (θ < ·) ≤ s := h.length t j hj ▸ List.countP_le_length
    simp only [gather_succ, List.countP_append]
    omega
  unpaired t j hj hjn hp :=
    (h.gather_perm_closed t j (by omega) (Or.inr (Or.inr hp))).countP_eq _
  paired t j hj hjn hp := by
    obtain ⟨j, rfl⟩ : ∃ k, j = k + 1 := ⟨j - 1, by omega⟩
    have hleft := (h.gather_perm_closed t j (by omega) (by omega)).countP_eq (θ < ·)
    have hpair := (h.paired t (j + 1) hj hjn hp).countP_left θ
    have hlen := h.length t (j + 1) hjn
    simp only [Nat.add_sub_cancel, gather_succ, List.countP_append] at hpair ⊢
    omega

/-- **Odd-even transposition sorts blocks.** After `n` phases the row, end to end, is ascending,
provided each block of it is. -/
theorem gather_sorted (h : Phases n s S) (hblock : ∀ r, r < n → (S n r).Pairwise (· ≤ ·)) :
    (gather n (S n)).Pairwise (· ≤ ·) := by
  have hcross : ∀ i k, i < k → k < n → ∀ x ∈ S n i, ∀ y ∈ S n k, x ≤ y := by
    intro i k hik hkn x hx y hy
    by_contra hlt
    -- Count above `y`: one element of block `i` is, so everything right of block `i` must be.
    have hc := h.phaseCounts y
    have hfin := hc.final (j := i + 1) (by omega)
    have hpos : 0 < (gather (i + 1) (S n)).countP (y < ·) :=
      List.countP_pos_iff.mpr ⟨x, mem_gather.mpr ⟨i, by omega, hx⟩, by simpa using hlt⟩
    have hk1 : (gather (k + 1) (S n)).countP (y < ·) = _ := hc.final (j := k + 1) (by omega)
    have hk0 : (gather k (S n)).countP (y < ·) = _ := hc.final (j := k) (by omega)
    have hmul1 : (n - k) * s ≤ (n - (i + 1)) * s := Nat.mul_le_mul_right _ (by omega)
    have hmul2 : (n - k) * s = (n - (k + 1)) * s + s := by
      rw [← Nat.succ_mul]
      congr 1
      omega
    have hfull : (S n k).countP (y < ·) = (S n k).length := by
      rw [gather_succ, List.countP_append] at hk1
      have := h.length n k hkn
      have hle : (S n k).countP (y < ·) ≤ (S n k).length := List.countP_le_length
      simp only at hfin
      omega
    have hyy := List.countP_eq_length.mp hfull y hy
    simp at hyy
  have key : ∀ j, j ≤ n → (gather j (S n)).Pairwise (· ≤ ·) := by
    intro j
    induction j with
    | zero => intro _; simp
    | succ j ih =>
      intro hj
      rw [gather_succ, List.pairwise_append]
      refine ⟨ih (by omega), hblock j (by omega), fun x hx y hy => ?_⟩
      obtain ⟨i, hi, hx⟩ := mem_gather.mp hx
      exact hcross i j hi (by omega) x hx y hy
  exact key n le_rfl

end Phases

end Lib.OddEven
