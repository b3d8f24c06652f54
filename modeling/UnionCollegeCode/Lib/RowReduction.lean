import Mathlib.LinearAlgebra.BilinearForm.Orthogonal
import Mathlib.LinearAlgebra.Matrix.DotProduct
import Mathlib.LinearAlgebra.Matrix.Echelon.Basic
import Mathlib.LinearAlgebra.Matrix.Rank

/-!
# Row spaces, kernels and reduced matrices

Vectors are coordinate vectors over a field, and a subspace is given by a matrix whose rows span it. A
kernel is what is orthogonal to the rows, so it depends on the row space only, and the kernel of a basis
of the kernel is the row space again (`orthogonal_orthogonal`).

A reduced matrix whose first columns are independent begins with the unit matrix
(`IsReducedRowEchelon.eq_one_of_independent`): what it ends with are then coordinates.
-/

set_option autoImplicit false

namespace Lib.RowReduction

open Matrix Module

variable {K : Type*} [Field K] {m n r : ℕ}

/-- The vectors of a list are a basis of a subspace. -/
structure IsBasisOf (vs : List (Fin n → K)) (W : Submodule K (Fin n → K)) : Prop where
  independent : LinearIndependent K fun i : Fin vs.length => vs.get i
  span : Submodule.span K {v | v ∈ vs} = W

def rowSpace (M : Matrix (Fin m) (Fin n) K) : Submodule K (Fin n → K) := Submodule.span K (Set.range M)

def rightKernel (M : Matrix (Fin m) (Fin n) K) : Submodule K (Fin n → K) := LinearMap.ker M.mulVecLin

def leftKernel (M : Matrix (Fin m) (Fin n) K) : Submodule K (Fin m → K) := LinearMap.ker M.vecMulLinear

/-- The matrix with these rows. -/
def ofRows (vs : List (Fin n → K)) : Matrix (Fin vs.length) (Fin n) K := fun i => vs.get i

section Bases

theorem isBasisOf_nil : IsBasisOf ([] : List (Fin n → K)) ⊥ where
  independent :=
    haveI : IsEmpty (Fin ([] : List (Fin n → K)).length) := inferInstanceAs (IsEmpty (Fin 0))
    linearIndependent_empty_type
  span := by simp

theorem isBasisOf_ofFn {f : Fin m → Fin n → K} (hf : LinearIndependent K f) :
    IsBasisOf (List.ofFn f) (Submodule.span K (Set.range f)) where
  independent := by
    have hget : (fun i => (List.ofFn f).get i) = f ∘ Fin.cast (List.length_ofFn) := by
      funext i
      exact List.get_ofFn f i
    rw [hget]
    exact hf.comp _ (Fin.cast_injective _)
  span := by
    congr 1
    ext v
    rw [Set.mem_ofPred_eq, List.mem_ofFn]
    rfl

end Bases

section Kernels

variable {M N : Matrix (Fin m) (Fin n) K} {v : Fin n → K} {w : Fin m → K} {vs : List (Fin n → K)}

theorem mem_rightKernel : v ∈ rightKernel M ↔ ∀ i, M i ⬝ᵥ v = 0 := by
  rw [rightKernel, LinearMap.mem_ker, mulVecLin_apply, funext_iff]
  exact Iff.rfl

theorem mem_leftKernel : w ∈ leftKernel M ↔ ∀ j, (w ⬝ᵥ fun i => M i j) = 0 := by
  rw [leftKernel, LinearMap.mem_ker, vecMulLinear_apply, funext_iff]
  exact Iff.rfl

theorem rowSpace_ofRows : rowSpace (ofRows vs) = Submodule.span K {v | v ∈ vs} := by
  have hrange : Set.range (ofRows vs) = {v | v ∈ vs} := by
    ext v
    exact List.mem_iff_get.symm
  rw [rowSpace, hrange]

/-- What is orthogonal to all of `W`. -/
def orthogonal (W : Submodule K (Fin n → K)) : Submodule K (Fin n → K) :=
  LinearMap.BilinForm.orthogonal (dotProductBilin K K) W

theorem mem_orthogonal {W : Submodule K (Fin n → K)} : v ∈ orthogonal W ↔ ∀ w ∈ W, w ⬝ᵥ v = 0 :=
  LinearMap.BilinForm.mem_orthogonal_iff

theorem mem_orthogonal_span {s : Set (Fin n → K)} :
    v ∈ orthogonal (Submodule.span K s) ↔ ∀ w ∈ s, w ⬝ᵥ v = 0 := by
  rw [mem_orthogonal]
  constructor
  · intro h w hw
    exact h w (Submodule.subset_span hw)
  · intro h w hw
    induction hw using Submodule.span_induction with
    | mem w hw => exact h w hw
    | zero => exact zero_dotProduct v
    | add x y _ _ hx hy => rw [add_dotProduct, hx, hy, add_zero]
    | smul a x _ hx => rw [smul_dotProduct, hx, smul_zero]

/-- Nothing is lost by taking the kernel of the kernel. -/
theorem orthogonal_orthogonal (W : Submodule K (Fin n → K)) : orthogonal (orthogonal W) = W := by
  have hrefl : LinearMap.BilinForm.IsRefl (dotProductBilin K K : (Fin n → K) →ₗ[K] (Fin n → K) →ₗ[K] K) := by
    intro x y hxy
    change y ⬝ᵥ x = 0
    rw [dotProduct_comm]
    exact hxy
  apply LinearMap.BilinForm.orthogonal_orthogonal _ hrefl
  constructor
  · intro x hx
    exact dotProduct_eq_zero x hx
  · intro x hx
    apply dotProduct_eq_zero x
    intro y
    rw [dotProduct_comm]
    exact hx y

theorem orthogonal_bot : orthogonal (⊥ : Submodule K (Fin n → K)) = ⊤ := by
  rw [eq_top_iff]
  intro v _
  rw [mem_orthogonal]
  intro w hw
  rw [(Submodule.mem_bot K).mp hw, zero_dotProduct]

theorem rightKernel_eq : rightKernel M = orthogonal (rowSpace M) := by
  ext v
  rw [mem_rightKernel, rowSpace, mem_orthogonal_span]
  constructor
  · rintro h _ ⟨i, rfl⟩
    exact h i
  · intro h i
    exact h (M i) ⟨i, rfl⟩

/-- A kernel depends on the row space only. -/
theorem rightKernel_congr {N : Matrix (Fin r) (Fin n) K} (h : rowSpace M = rowSpace N) :
    rightKernel M = rightKernel N := by
  rw [rightKernel_eq, rightKernel_eq, h]

theorem leftKernel_transpose : leftKernel Mᵀ = rightKernel M := by
  ext v
  rw [mem_leftKernel, mem_rightKernel]
  apply forall_congr'
  intro i
  rw [dotProduct_comm]
  exact Iff.rfl

end Kernels

/-! ## Reduced matrices -/

section Reduced

variable {E : Matrix (Fin m) (Fin n) K}

/-- No combination of the columns before `r` is zero. -/
def ColumnsIndependent (E : Matrix (Fin m) (Fin n) K) (r : ℕ) : Prop :=
  ∀ g ∈ rightKernel E, (∀ j : Fin n, r ≤ j → g j = 0) → g = 0

/-- A column with a leading entry is a column of the unit matrix. -/
theorem column_of_isLeadingEntry (hE : E.IsReducedRowEchelon) {i : Fin m} {j : Fin n}
    (h : E.IsLeadingEntry i j) (i' : Fin m) : E i' j = if i' = i then 1 else 0 := by
  by_cases hi : i' = i
  · rw [if_pos hi, hi]
    exact hE.eq_one h
  · rw [if_neg hi]
    exact hE.eq_zero_of_ne_of_isLeadingEntry hi h

/-- Column `j` less what the columns of the unit matrix before it make of it. -/
def remainder (E : Matrix (Fin m) (Fin n) K) (j k : Fin n) : K :=
  if k = j then 1 else if hk : k < j ∧ (k : ℕ) < m then -E ⟨k, hk.2⟩ j else 0

/-- A column that is zero from its own row on is a combination of the columns of the unit matrix
before it. -/
theorem remainder_mem_rightKernel (hE : E.IsReducedRowEchelon) {j : Fin n}
    (hlead : ∀ k < j, ∃ i : Fin m, (i : ℕ) = k ∧ E.IsLeadingEntry i k)
    (hzero : ∀ i : Fin m, (j : ℕ) ≤ i → E i j = 0) : remainder E j ∈ rightKernel E := by
  rw [mem_rightKernel]
  intro i
  have hterm : ∀ k, E i k * remainder E j k =
      (if k = j then E i j else 0) + if (k : ℕ) = i ∧ k < j then -E i j else 0 := by
    intro k
    by_cases hk : k = j
    · rw [remainder, hk, if_pos rfl, if_pos rfl, if_neg (fun h => lt_irrefl j h.2), mul_one, add_zero]
    · rw [remainder, if_neg hk, if_neg hk, zero_add]
      by_cases hlt : k < j
      · obtain ⟨i', hi', hleads⟩ := hlead k hlt
        have hkm : (k : ℕ) < m := hi' ▸ i'.isLt
        rw [dif_pos ⟨hlt, hkm⟩, column_of_isLeadingEntry hE hleads]
        by_cases hii : i = i'
        · obtain rfl : i = ⟨k, hkm⟩ := hii.trans (Fin.ext hi')
          rw [if_pos hii, if_pos ⟨rfl, hlt⟩, one_mul]
        · rw [if_neg hii, zero_mul, if_neg]
          intro h
          exact hii (Fin.ext (h.1.symm.trans hi'.symm))
      · rw [dif_neg (fun h => hlt h.1), mul_zero, if_neg (fun h => hlt h.2)]
  rw [dotProduct, Finset.sum_congr rfl fun k _ => hterm k, Finset.sum_add_distrib,
    Finset.sum_ite_eq' Finset.univ j, if_pos (Finset.mem_univ j)]
  by_cases hij : (i : ℕ) < j
  · have hin : (i : ℕ) < n := hij.trans j.isLt
    have hone : ∀ k : Fin n, ((k : ℕ) = i ∧ k < j) ↔ k = ⟨i, hin⟩ := by
      intro k
      constructor
      · intro h
        exact Fin.ext h.1
      · rintro rfl
        exact ⟨rfl, hij⟩
    simp only [hone]
    rw [Finset.sum_ite_eq' Finset.univ, if_pos (Finset.mem_univ _), add_neg_cancel]
  · have hnot : ∀ k : Fin n, ¬ ((k : ℕ) = i ∧ k < j) := by
      intro k h
      exact hij (h.1 ▸ h.2)
    simp only [hnot, if_false, Finset.sum_const_zero, add_zero]
    exact hzero i (not_lt.mp hij)

theorem exists_entry_ne_zero (hE : E.IsReducedRowEchelon) (hcols : ColumnsIndependent E r) {j : Fin n}
    (hj : (j : ℕ) < r) (hlead : ∀ k < j, ∃ i : Fin m, (i : ℕ) = k ∧ E.IsLeadingEntry i k) :
    ∃ i : Fin m, (j : ℕ) ≤ i ∧ E i j ≠ 0 := by
  by_contra hnone
  have hzero : ∀ i : Fin m, (j : ℕ) ≤ i → E i j = 0 := by
    intro i hi
    by_contra hne
    exact hnone ⟨i, hi, hne⟩
  have hall : remainder E j = 0 := by
    apply hcols _ (remainder_mem_rightKernel hE hlead hzero)
    intro k hk
    have hjk : j < k := hj.trans_le hk
    rw [remainder, if_neg hjk.ne', dif_neg fun h => lt_asymm hjk h.1]
  have hj := congrFun hall j
  rw [remainder, if_pos rfl] at hj
  exact one_ne_zero hj

/-- **A reduced matrix whose first columns are independent** begins with the unit matrix. -/
theorem isLeadingEntry_of_independent (hE : E.IsReducedRowEchelon) (hcols : ColumnsIndependent E r) :
    ∀ j : Fin n, (j : ℕ) < r → ∃ i : Fin m, (i : ℕ) = j ∧ E.IsLeadingEntry i j := by
  intro j
  induction j using WellFoundedLT.induction with
  | ind j ih =>
    intro hj
    have hlead : ∀ k < j, ∃ i : Fin m, (i : ℕ) = k ∧ E.IsLeadingEntry i k := by
      intro k hk
      exact ih k hk (lt_trans hk hj)
    obtain ⟨i, hi, hne⟩ := exists_entry_ne_zero hE hcols hj hlead
    have hbefore : ∀ i : Fin m, (j : ℕ) ≤ i → ∀ k < j, E i k = 0 := by
      intro i hi k hk
      obtain ⟨i', hi', hleads⟩ := hlead k hk
      rw [column_of_isLeadingEntry hE hleads, if_neg]
      rintro rfl
      exact absurd (hi.trans_eq hi') (not_le.mpr hk)
    rcases hi.eq_or_lt with heq | hlt
    · exact ⟨i, heq.symm, hbefore i hi, hne⟩
    · -- The row of number `j` is zero up to column `j`, and so the row of `i` is.
      have hrow : (⟨j, hlt.trans i.isLt⟩ : Fin m) < i := hlt
      exact absurd (hE.isRowEchelon hrow (hbefore _ (le_refl _))) hne

/-- The last column of a reduced matrix, when the columns before it are independent. -/
theorem last_column_eq {E : Matrix (Fin m) (Fin (r + 1)) K} (hE : E.IsReducedRowEchelon)
    (hcols : ColumnsIndependent E r) {f : Fin r → K} (hf : Fin.snoc f (-1) ∈ rightKernel E)
    (k : Fin r) : ∃ i : Fin m, (i : ℕ) = k ∧ E i (Fin.last r) = f k := by
  obtain ⟨i, hi, -⟩ := isLeadingEntry_of_independent hE hcols k.castSucc k.isLt
  refine ⟨i, hi, ?_⟩
  have hrow := mem_rightKernel.mp hf i
  have hunit : ∀ j : Fin r, E i j.castSucc = if j = k then 1 else 0 := by
    intro j
    obtain ⟨i', hi', hleads⟩ := isLeadingEntry_of_independent hE hcols j.castSucc j.isLt
    rw [column_of_isLeadingEntry hE hleads]
    have hiff : i = i' ↔ j = k := by
      rw [Fin.ext_iff, hi, hi', Fin.ext_iff, Fin.val_castSucc, Fin.val_castSucc, eq_comm]
    simp only [hiff]
  rw [dotProduct, Fin.sum_univ_castSucc] at hrow
  simp only [Fin.snoc_castSucc, Fin.snoc_last, hunit, ite_mul, one_mul, zero_mul] at hrow
  rw [Finset.sum_ite_eq' Finset.univ, if_pos (Finset.mem_univ k), mul_neg_one, add_neg_eq_zero] at hrow
  exact hrow.symm

end Reduced

end Lib.RowReduction
