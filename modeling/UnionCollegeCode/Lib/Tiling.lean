import Mathlib.Algebra.Order.Ring.Int
import Mathlib.Data.List.Basic
import Mathlib.Logic.ExistsUnique

/-!
# Consecutive blocks

`p` blocks of indices, each given by its first index and the index after its last, laid one after the
other over `0, …, n - 1`. Every index is then in exactly one block, and a list cut at the blocks is the
list again.
-/

set_option autoImplicit false

namespace Lib.Tiling

structure Tiles (p : ℕ) (n : ℤ) (b : ℕ → ℤ × ℤ) : Prop where
  ordered : ∀ i < p, (b i).1 ≤ (b i).2
  start : 0 < p → (b 0).1 = 0
  consecutive : ∀ i, i + 1 < p → (b i).2 = (b (i + 1)).1
  finish : ∀ i, i + 1 = p → (b i).2 = n

variable {p : ℕ} {n : ℤ} {b : ℕ → ℤ × ℤ}

theorem Tiles.congr {c : ℕ → ℤ × ℤ} (h : Tiles p n b) (heq : ∀ i < p, c i = b i) : Tiles p n c where
  ordered i hi := by
    rw [heq i hi]
    exact h.ordered i hi
  start hp := by
    rw [heq 0 hp]
    exact h.start hp
  consecutive i hi := by
    rw [heq i (Nat.lt_of_succ_lt hi), heq (i + 1) hi]
    exact h.consecutive i hi
  finish i hi := by
    rw [heq i (hi ▸ Nat.lt_succ_self i)]
    exact h.finish i hi

/-! ## Indices -/

theorem Tiles.first_nonneg (h : Tiles p n b) {i : ℕ} (hi : i < p) : 0 ≤ (b i).1 := by
  induction i with
  | zero => exact (h.start hi).ge
  | succ i ih =>
    rw [← h.consecutive i hi]
    exact (ih (Nat.lt_of_succ_lt hi)).trans (h.ordered i (Nat.lt_of_succ_lt hi))

/-- A block ends before a later one begins. -/
theorem Tiles.last_le_first (h : Tiles p n b) {i j : ℕ} (hij : i < j) (hj : j < p) :
    (b i).2 ≤ (b j).1 := by
  induction j with
  | zero => exact absurd hij (Nat.not_lt_zero i)
  | succ j ih =>
    rw [← h.consecutive j hj]
    rcases Nat.lt_succ_iff_lt_or_eq.mp hij with hlt | rfl
    · exact (ih hlt (Nat.lt_of_succ_lt hj)).trans (h.ordered j (Nat.lt_of_succ_lt hj))
    · exact le_refl _

theorem Tiles.last_le (h : Tiles p n b) {i : ℕ} (hi : i < p) : (b i).2 ≤ n := by
  obtain ⟨k, rfl⟩ : ∃ k, p = k + 1 := Nat.exists_eq_succ_of_ne_zero (Nat.ne_zero_of_lt hi)
  rcases Nat.lt_succ_iff_lt_or_eq.mp hi with hlt | rfl
  · rw [← h.finish k rfl]
    exact (h.last_le_first hlt (Nat.lt_succ_self k)).trans (h.ordered k (Nat.lt_succ_self k))
  · exact (h.finish i rfl).le

/-- Two blocks that have an index in common are one. -/
theorem Tiles.eq_of_mem (h : Tiles p n b) {i j : ℕ} {x : ℤ} (hi : i < p) (hj : j < p)
    (hxi : (b i).1 ≤ x ∧ x < (b i).2) (hxj : (b j).1 ≤ x ∧ x < (b j).2) : i = j := by
  rcases Nat.lt_trichotomy i j with hlt | heq | hlt
  · have := h.last_le_first hlt hj
    omega
  · exact heq
  · have := h.last_le_first hlt hi
    omega

/-- **Every index is in exactly one block.** -/
theorem Tiles.existsUnique (h : Tiles p n b) (hp : 0 < p) {x : ℤ} (hx : 0 ≤ x ∧ x < n) :
    ∃! i, i < p ∧ (b i).1 ≤ x ∧ x < (b i).2 := by
  -- Of the blocks up to the `k`-th one, one has the index, or all of them end before it.
  have hfind : ∀ k < p, (∃ i ≤ k, (b i).1 ≤ x ∧ x < (b i).2) ∨ (b k).2 ≤ x := by
    intro k hk
    induction k with
    | zero =>
      have hstart := h.start hp
      by_cases hlt : x < (b 0).2
      · exact Or.inl ⟨0, le_refl 0, hstart ▸ hx.1, hlt⟩
      · exact Or.inr (not_lt.mp hlt)
    | succ k ih =>
      rcases ih (Nat.lt_of_succ_lt hk) with ⟨i, hi, hmem⟩ | hle
      · exact Or.inl ⟨i, hi.trans (Nat.le_succ k), hmem⟩
      · rw [h.consecutive k hk] at hle
        by_cases hlt : x < (b (k + 1)).2
        · exact Or.inl ⟨k + 1, le_refl _, hle, hlt⟩
        · exact Or.inr (not_lt.mp hlt)
  obtain ⟨k, rfl⟩ : ∃ k, p = k + 1 := Nat.exists_eq_succ_of_ne_zero hp.ne'
  rcases hfind k (Nat.lt_succ_self k) with ⟨i, hi, hmem⟩ | hle
  · have hi' : i < k + 1 := Nat.lt_succ_of_le hi
    exact ⟨i, ⟨hi', hmem⟩, fun j hj => h.eq_of_mem hj.1 hi' hj.2 hmem⟩
  · rw [h.finish k rfl] at hle
    exact absurd hx.2 (not_lt.mpr hle)

/-! ## Cutting a list -/

section Slices

variable {α : Type*}

/-- The entries of `v` in a block. -/
def slice (v : List α) (c : ℤ × ℤ) : List α := (v.drop c.1.toNat).take (c.2 - c.1).toNat

theorem length_slice {v : List α} (h : Tiles p v.length b) {i : ℕ} (hi : i < p) :
    ((slice v (b i)).length : ℤ) = (b i).2 - (b i).1 := by
  have hfirst := h.first_nonneg hi
  have hle := h.ordered i hi
  have hlast := h.last_le hi
  simp only [slice, List.length_take, List.length_drop]
  omega

theorem take_append_slice {v : List α} {c : ℤ × ℤ} (hfirst : 0 ≤ c.1) (hle : c.1 ≤ c.2) :
    v.take c.1.toNat ++ slice v c = v.take c.2.toNat := by
  have hsum : c.2.toNat = c.1.toNat + (c.2 - c.1).toNat := by omega
  rw [slice, hsum, List.take_add]

end Slices

end Lib.Tiling
