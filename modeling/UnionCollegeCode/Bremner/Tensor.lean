import Mathlib.LinearAlgebra.Basis.Bilinear
import UnionCollegeCode.Lib.GaussJordan

/-!
# Algebras by structure constants: `Bremner.sage`

An element is its vector of coordinates, and an algebra its tensor: `S l m` is the product of the basis
elements `l` and `m`. Vectors and matrices carry their sizes, which rules out the exceptions that the
source raises for sizes that do not fit. A sum that a loop adds up is a finite sum here.

What Sage computes for the program is `Sage`, with what it is documented to return.
-/

set_option autoImplicit false

namespace UnionCollegeCode.Bremner

open Lib.RowReduction

abbrev Vec (n : ℕ) := Fin n → ℚ

abbrev Tensor (n : ℕ) := Fin n → Fin n → Vec n

def algebraProduct {n : ℕ} (a0 a1 : Vec n) (S : Tensor n) : Vec n :=
  fun k => ∑ l, ∑ m, a0 l * a1 m * S l m k

def changeBasis {r c : ℕ} (a : Vec r) (C : Matrix (Fin r) (Fin c) ℚ) : Vec c := fun j => ∑ i, a i * C i j

/-- `M.augment(v)` -/
def augment {m n : ℕ} (M : Matrix (Fin m) (Fin n) ℚ) (v : Vec m) : Matrix (Fin m) (Fin (n + 1)) ℚ :=
  fun i => Fin.snoc (M i) (v i)

/-- The functions of Sage that the program calls. -/
structure Sage where
  rank : ∀ {m n : ℕ}, Matrix (Fin m) (Fin n) ℚ → ℕ
  rank_eq : ∀ {m n : ℕ} (M : Matrix (Fin m) (Fin n) ℚ), rank M = M.rank
  echelonForm : ∀ {m n : ℕ}, Matrix (Fin m) (Fin n) ℚ → Matrix (Fin m) (Fin n) ℚ
  echelonForm_reduced : ∀ {m n : ℕ} (M : Matrix (Fin m) (Fin n) ℚ), (echelonForm M).IsReducedRowEchelon
  echelonForm_rowSpace : ∀ {m n : ℕ} (M : Matrix (Fin m) (Fin n) ℚ),
    rowSpace (echelonForm M) = rowSpace M
  /-- `left_kernel().basis()` -/
  leftKernelBasis : ∀ {m n : ℕ}, Matrix (Fin m) (Fin n) ℚ → List (Vec m)
  leftKernelBasis_isBasisOf : ∀ {m n : ℕ} (M : Matrix (Fin m) (Fin n) ℚ),
    IsBasisOf (leftKernelBasis M) (leftKernel M)
  /-- `right_kernel().basis()` -/
  rightKernelBasis : ∀ {m n : ℕ}, Matrix (Fin m) (Fin n) ℚ → List (Vec n)
  rightKernelBasis_isBasisOf : ∀ {m n : ℕ} (M : Matrix (Fin m) (Fin n) ℚ),
    IsBasisOf (rightKernelBasis M) (rightKernel M)
  /-- `right_kernel(basis='pivot').basis()` -/
  rightKernelPivotBasis : ∀ {m n : ℕ}, Matrix (Fin m) (Fin n) ℚ → List (Vec n)
  rightKernelPivotBasis_isBasisOf : ∀ {m n : ℕ} (M : Matrix (Fin m) (Fin n) ℚ),
    IsBasisOf (rightKernelPivotBasis M) (rightKernel M)
  /-- `none` is the `ValueError` of a system without a solution. -/
  solveRight : ∀ {m n : ℕ}, Matrix (Fin m) (Fin n) ℚ → Vec m → Option (Vec n)
  solveRight_some : ∀ {m n : ℕ} {M : Matrix (Fin m) (Fin n) ℚ} {b : Vec m} {x : Vec n},
    solveRight M b = some x → M.mulVec x = b
  solveRight_none : ∀ {m n : ℕ} {M : Matrix (Fin m) (Fin n) ℚ} {b : Vec m},
    solveRight M b = none → ∀ x, M.mulVec x ≠ b

/-- Gauss-Jordan elimination does what the program relies on. -/
def gaussJordan : Sage where
  rank M := (reducedRows M).length
  rank_eq _ := length_reducedRows
  echelonForm := Lib.RowReduction.echelonForm
  echelonForm_reduced _ := echelonForm_isReducedRowEchelon
  echelonForm_rowSpace _ := rowSpace_echelonForm
  leftKernelBasis M := echelonBasis M.transpose
  leftKernelBasis_isBasisOf M := by
    rw [← M.transpose_transpose, leftKernel_transpose, M.transpose_transpose]
    exact echelonBasis_isBasisOf
  rightKernelBasis := echelonBasis
  rightKernelBasis_isBasisOf _ := echelonBasis_isBasisOf
  rightKernelPivotBasis := pivotBasis
  rightKernelPivotBasis_isBasisOf _ := pivotBasis_isBasisOf
  solveRight := solve
  solveRight_some := solve_some
  solveRight_none := solve_none

/-! ## The product -/

def IsAssociative {n : ℕ} (S : Tensor n) : Prop :=
  ∀ a b c, algebraProduct (algebraProduct a b S) c S = algebraProduct a (algebraProduct b c S) S

def IsCommutative {n : ℕ} (S : Tensor n) : Prop := ∀ a b, algebraProduct a b S = algebraProduct b a S

/-- A subspace that is kept by products with any element, from the left and from the right. -/
def IsIdeal {n : ℕ} (S : Tensor n) (I : Submodule ℚ (Vec n)) : Prop :=
  ∀ x ∈ I, ∀ a, algebraProduct a x S ∈ I ∧ algebraProduct x a S ∈ I

section Product

variable {n r : ℕ} {S : Tensor n} {a a' b b' : Vec n} {c : ℚ}

theorem algebraProduct_add_left :
    algebraProduct (a + a') b S = algebraProduct a b S + algebraProduct a' b S := by
  ext k
  simp only [algebraProduct, Pi.add_apply, add_mul, Finset.sum_add_distrib]

theorem algebraProduct_add_right :
    algebraProduct a (b + b') S = algebraProduct a b S + algebraProduct a b' S := by
  ext k
  simp only [algebraProduct, Pi.add_apply, mul_add, add_mul, Finset.sum_add_distrib]

theorem algebraProduct_smul_left : algebraProduct (c • a) b S = c • algebraProduct a b S := by
  ext k
  simp only [algebraProduct, Pi.smul_apply, smul_eq_mul, Finset.mul_sum, mul_assoc]

theorem algebraProduct_smul_right : algebraProduct a (c • b) S = c • algebraProduct a b S := by
  ext k
  simp only [algebraProduct, Pi.smul_apply, smul_eq_mul, Finset.mul_sum, mul_assoc, mul_left_comm]

/-- The product as a bilinear map. -/
def productMap (S : Tensor n) : Vec n →ₗ[ℚ] Vec n →ₗ[ℚ] Vec n :=
  LinearMap.mk₂ ℚ (fun a b => algebraProduct a b S) (fun _ _ _ => algebraProduct_add_left)
    (fun _ _ _ => algebraProduct_smul_left) (fun _ _ _ => algebraProduct_add_right)
    (fun _ _ _ => algebraProduct_smul_right)

@[simp] theorem productMap_apply : productMap S a b = algebraProduct a b S := rfl

theorem algebraProduct_zero_left : algebraProduct 0 b S = 0 := LinearMap.map_zero₂ (productMap S) b

theorem algebraProduct_zero_right : algebraProduct a 0 S = 0 := map_zero (productMap S a)

theorem algebraProduct_single (l m : Fin n) :
    algebraProduct (Pi.single l 1) (Pi.single m 1) S = S l m := by
  ext k
  simp [algebraProduct, Pi.single_apply]

/-- The products with a basis element. -/
theorem algebraProduct_single_left (i k : Fin n) (z : Vec n) :
    algebraProduct (Pi.single i 1) z S k = ∑ j, S i j k * z j := by
  simp [algebraProduct, Pi.single_apply, mul_comm]

theorem algebraProduct_single_right (i k : Fin n) (z : Vec n) :
    algebraProduct z (Pi.single i 1) S k = ∑ j, S j i k * z j := by
  simp [algebraProduct, Pi.single_apply, mul_comm]

/-- Laws that hold for the basis elements hold. -/
theorem isCommutative_of_single (h : ∀ l m, S l m = S m l) : IsCommutative S := by
  intro a b
  have hmaps : productMap S = (productMap S).flip := by
    apply LinearMap.ext_basis (Pi.basisFun ℚ (Fin n)) (Pi.basisFun ℚ (Fin n))
    intro l m
    simp only [Pi.basisFun_apply, LinearMap.flip_apply, productMap_apply, algebraProduct_single]
    exact h l m
  exact congrArg (fun f => f a b) hmaps

theorem isAssociative_of_single
    (h : ∀ l m k, algebraProduct (S l m) (Pi.single k 1) S = algebraProduct (Pi.single l 1) (S m k) S) :
    IsAssociative S := by
  -- One factor after the other is let vary.
  have hthird : ∀ l m c, algebraProduct (algebraProduct (Pi.single l 1) (Pi.single m 1) S) c S =
      algebraProduct (Pi.single l 1) (algebraProduct (Pi.single m 1) c S) S := by
    intro l m c
    have hmaps : productMap S (S l m) = productMap S (Pi.single l 1) ∘ₗ productMap S (Pi.single m 1) := by
      apply (Pi.basisFun ℚ (Fin n)).ext
      intro k
      simp only [Pi.basisFun_apply, LinearMap.comp_apply, productMap_apply, algebraProduct_single]
      exact h l m k
    rw [algebraProduct_single]
    exact congrArg (fun f => f c) hmaps
  have hsecond : ∀ l b c, algebraProduct (algebraProduct (Pi.single l 1) b S) c S =
      algebraProduct (Pi.single l 1) (algebraProduct b c S) S := by
    intro l b c
    have hmaps : (productMap S).flip c ∘ₗ productMap S (Pi.single l 1) =
        productMap S (Pi.single l 1) ∘ₗ (productMap S).flip c := by
      apply (Pi.basisFun ℚ (Fin n)).ext
      intro m
      simp only [Pi.basisFun_apply, LinearMap.comp_apply, LinearMap.flip_apply, productMap_apply]
      exact hthird l m c
    exact congrArg (fun f => f b) hmaps
  intro a b c
  have hmaps : (productMap S).flip c ∘ₗ (productMap S).flip b =
      (productMap S).flip (algebraProduct b c S) := by
    apply (Pi.basisFun ℚ (Fin n)).ext
    intro l
    simp only [Pi.basisFun_apply, LinearMap.comp_apply, LinearMap.flip_apply, productMap_apply]
    exact hsecond l b c
  exact congrArg (fun f => f a) hmaps

theorem isIdeal_of_single {Y : Matrix (Fin r) (Fin n) ℚ} (hcomm : IsCommutative S)
    (h : ∀ l k, algebraProduct (Pi.single l 1) (Y k) S ∈ rowSpace Y) : IsIdeal S (rowSpace Y) := by
  have hleft : ∀ a, rowSpace Y ≤ (rowSpace Y).comap (productMap S a) := by
    intro a
    rw [rowSpace, Submodule.span_le]
    rintro _ ⟨k, rfl⟩
    change (productMap S).flip (Y k) a ∈ rowSpace Y
    rw [← (Pi.basisFun ℚ (Fin n)).sum_repr a, map_sum]
    apply Submodule.sum_mem
    intro l _
    rw [map_smul, Pi.basisFun_apply]
    exact Submodule.smul_mem _ _ (h l k)
  intro x hx a
  refine ⟨hleft a hx, ?_⟩
  rw [hcomm]
  exact hleft a hx

def changeBasisMap (C : Matrix (Fin r) (Fin n) ℚ) : Vec r →ₗ[ℚ] Vec n := C.vecMulLinear

theorem changeBasisMap_apply (C : Matrix (Fin r) (Fin n) ℚ) (x : Vec r) :
    changeBasisMap C x = changeBasis x C := rfl

theorem changeBasis_single (C : Matrix (Fin r) (Fin n) ℚ) (i : Fin r) :
    changeBasis (Pi.single i 1) C = C i := by
  ext j
  simp [changeBasis, Pi.single_apply]

/-- An element over a basis is the combination of the basis elements. -/
theorem changeBasis_eq_sum (C : Matrix (Fin r) (Fin n) ℚ) (x : Vec r) :
    changeBasis x C = ∑ i, x i • C i := by
  ext j
  rw [changeBasis, Finset.sum_apply]
  rfl

theorem mem_rowSpace {C : Matrix (Fin r) (Fin n) ℚ} : a ∈ rowSpace C ↔ ∃ x, changeBasis x C = a := by
  refine (Submodule.mem_span_range_iff_exists_fun ℚ).trans ?_
  simp only [changeBasis_eq_sum]

theorem eq_zero_of_changeBasis_eq_zero {C : Matrix (Fin r) (Fin n) ℚ} (hC : LinearIndependent ℚ C)
    {x : Vec r} (hx : changeBasis x C = 0) : x = 0 := by
  rw [changeBasis_eq_sum] at hx
  exact funext (Fintype.linearIndependent_iff.mp hC x hx)

end Product

/-! ## The dual numbers -/

section DualNumbers

/-- The polynomials in `x` with `x^2 = 0`, by their coordinates on `1` and `x`. -/
def dualNumbers : Tensor 2 := fun l m k => if (l : ℕ) + m = k then 1 else 0

theorem dualNumbers_isCommutative : IsCommutative dualNumbers := isCommutative_of_single (by decide +kernel)

theorem dualNumbers_isAssociative : IsAssociative dualNumbers := isAssociative_of_single (by decide +kernel)

theorem dualNumbers_one (a : Vec 2) :
    algebraProduct ![1, 0] a dualNumbers = a ∧ algebraProduct a ![1, 0] dualNumbers = a := by
  have hone : algebraProduct ![1, 0] a dualNumbers = a := by
    ext k
    fin_cases k <;> simp [algebraProduct, dualNumbers, Fin.sum_univ_two]
  refine ⟨hone, ?_⟩
  rw [dualNumbers_isCommutative, hone]

/-- The multiples of `x`. -/
theorem dualNumbers_isIdeal : IsIdeal dualNumbers (rowSpace !![0, 1]) := by
  apply isIdeal_of_single dualNumbers_isCommutative
  intro l k
  rw [mem_rowSpace]
  refine ⟨fun _ => if l = 0 then 1 else 0, ?_⟩
  revert l k
  decide +kernel

end DualNumbers

end UnionCollegeCode.Bremner
