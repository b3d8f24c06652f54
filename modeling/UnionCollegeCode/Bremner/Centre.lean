import Mathlib.Data.List.ProdSigma
import Mathlib.Logic.Equiv.Fin.Basic
import UnionCollegeCode.Lib.Assignments
import UnionCollegeCode.Bremner.Tensor

/-!
# `ZBasis` and `ZStructs`

The centre is the kernel of the commutators with the basis elements, `r * r` equations in one table.
`ZBasis` takes the kernel of the kernel of that kernel, which is the kernel again, whatever bases Sage
returns on the way. `ZStructs` reads the coordinates of a product off the last column of a reduced matrix.
-/

set_option autoImplicit false

namespace UnionCollegeCode.Bremner

open Lib.RowReduction Lib.Assignments Matrix

/-- `(i*r) + k` -/
def flatIndex {r : ℕ} (i k : Fin r) : Fin (r * r) := finProdFinEquiv (i, k)

/-- `B`, written for all `i`, `j` and `k` in turn. -/
def commutators {r : ℕ} (Q : Tensor r) : Matrix (Fin (r * r)) (Fin r) ℚ := fun t j =>
  assignAll (fun w : Fin r × Fin r × Fin r => (flatIndex w.1 w.2.2, w.2.1))
    (fun w => Q w.1 w.2.1 w.2.2 - Q w.2.1 w.1 w.2.2)
    (List.finRange r ×ˢ List.finRange r ×ˢ List.finRange r) (fun _ => 0) (t, j)

/-- The reduced and the canonical basis. For a commutative `Q` the reduced one is `0`, which is `none`
here. -/
def zBasis (sage : Sage) {r : ℕ} (Q : Tensor r) : Option (List (Vec r)) × List (Vec r) :=
  let B := commutators Q
  if B = 0 then
    (none, List.ofFn fun i => Pi.single i 1)
  else
    let K := sage.rightKernelBasis B
    -- A matrix of no rows has no columns either, and so no vector in its kernels.
    let RB := if K = [] then [] else sage.leftKernelBasis (ofRows K)ᵀ
    let CB := if RB = [] then [] else sage.rightKernelPivotBasis (ofRows RB)
    (some RB, CB)

/-- `none` is the `IndexError` for a row that the echelon form does not have. -/
def zStructs (sage : Sage) {r c : ℕ} (Z : Matrix (Fin r) (Fin c) ℚ) (Q : Tensor c) : Option (Tensor r) :=
  let V := fun i j => sage.echelonForm (augment Zᵀ (algebraProduct (Z i) (Z j) Q))
  if h : r ≤ c then some fun i j k => V i j (Fin.castLE h k) (Fin.last r) else none

/-! ## The centre -/

section Centre

variable {r : ℕ} {Q : Tensor r} {z : Vec r}

/-- What commutes with all elements. -/
def centre (Q : Tensor r) : Submodule ℚ (Vec r) where
  carrier := {z | ∀ q, algebraProduct z q Q = algebraProduct q z Q}
  zero_mem' := by
    intro q
    exact (map_zero (productMap Q) ▸ rfl : productMap Q 0 q = 0).trans (map_zero (productMap Q q)).symm
  add_mem' := by
    intro a b ha hb q
    rw [algebraProduct_add_left, algebraProduct_add_right, ha q, hb q]
  smul_mem' := by
    intro c a ha q
    rw [algebraProduct_smul_left, algebraProduct_smul_right, ha q]

theorem commutators_apply (i j k : Fin r) : commutators Q (flatIndex i k) j = Q i j k - Q j i k := by
  have hinj : Function.Injective fun w : Fin r × Fin r × Fin r => (flatIndex w.1 w.2.2, w.2.1) := by
    rintro ⟨i, j, k⟩ ⟨i', j', k'⟩ h
    obtain ⟨hflat, hj⟩ := Prod.mk.inj h
    obtain ⟨hi, hk⟩ := Prod.mk.inj (finProdFinEquiv.injective hflat)
    rw [Prod.mk.injEq, Prod.mk.injEq]
    exact ⟨hi, hj, hk⟩
  have hmem : (i, j, k) ∈ List.finRange r ×ˢ List.finRange r ×ˢ List.finRange r := by
    simp [List.mem_product]
  exact assignAll_of_agree (x := fun _ => (0 : ℚ)) hmem fun w _ hw => by rw [hinj hw]

/-- It is enough to commute with the basis elements. -/
theorem mem_centre_iff_single :
    z ∈ centre Q ↔ ∀ i, algebraProduct z (Pi.single i 1) Q = algebraProduct (Pi.single i 1) z Q := by
  constructor
  · intro h i
    exact h _
  · intro h q
    have hmaps : productMap Q z = (productMap Q).flip z := by
      apply LinearMap.pi_ext'
      intro i
      ext
      simpa using congrFun (h i) _
    exact congrArg (fun f => f q) hmaps

theorem rightKernel_commutators (Q : Tensor r) : rightKernel (commutators Q) = centre Q := by
  ext z
  rw [mem_rightKernel, mem_centre_iff_single]
  have hrow : ∀ i k, commutators Q (flatIndex i k) ⬝ᵥ z =
      algebraProduct (Pi.single i 1) z Q k - algebraProduct z (Pi.single i 1) Q k := by
    intro i k
    rw [algebraProduct_single_left, algebraProduct_single_right, ← Finset.sum_sub_distrib]
    apply Finset.sum_congr rfl
    intro j _
    rw [commutators_apply, sub_mul]
  constructor
  · intro h i
    ext k
    have hik := h (flatIndex i k)
    rw [hrow, sub_eq_zero] at hik
    exact hik.symm
  · intro h t
    obtain ⟨⟨i, k⟩, rfl⟩ := finProdFinEquiv.surjective t
    change commutators Q (flatIndex i k) ⬝ᵥ z = 0
    rw [hrow, h i, sub_self]

/-- **`ZBasis` computes the centre.** -/
theorem zBasis_centre (sage : Sage) (Q : Tensor r) : IsBasisOf (zBasis sage Q).2 (centre Q) := by
  have hK := sage.rightKernelBasis_isBasisOf (commutators Q)
  rw [rightKernel_commutators] at hK
  unfold zBasis
  by_cases hB : commutators Q = 0
  case pos =>
    have htop : centre Q = ⊤ := by
      rw [← rightKernel_commutators, hB, rightKernel, mulVecLin_zero, LinearMap.ker_zero]
    have hunits := isBasisOf_ofFn (Pi.basisFun ℚ (Fin r)).linearIndependent
    rw [(Pi.basisFun ℚ (Fin r)).span_eq, ← htop] at hunits
    rw [if_pos hB]
    convert hunits using 3
    rw [Pi.basisFun_apply]
  case neg =>
    rw [if_neg hB]
    simp only
    generalize sage.rightKernelBasis (commutators Q) = K at hK ⊢
    by_cases hnil : K = []
    · have hbot : centre Q = ⊥ := by
        rw [← hK.span, hnil]
        simp
      rw [if_pos hnil, if_pos rfl, hbot]
      exact isBasisOf_nil
    · rw [if_neg hnil]
      have hRB := sage.leftKernelBasis_isBasisOf (ofRows K)ᵀ
      rw [leftKernel_transpose, rightKernel_eq, rowSpace_ofRows, hK.span] at hRB
      generalize sage.leftKernelBasis (ofRows K)ᵀ = RB at hRB ⊢
      by_cases hRBnil : RB = []
      · exfalso
        apply hB
        -- Only the zero vector is orthogonal to the centre, so the centre is everything.
        have hspan := hRB.span
        rw [hRBnil] at hspan
        have hbot : orthogonal (centre Q) = ⊥ := by
          rw [← hspan]
          simp
        have htop : rightKernel (commutators Q) = ⊤ := by
          rw [rightKernel_commutators, ← orthogonal_orthogonal (centre Q), hbot, orthogonal_bot]
        ext t j
        have hj := mem_rightKernel.mp (htop ▸ Submodule.mem_top : Pi.single j 1 ∈ _) t
        rwa [dotProduct_single_one] at hj
      · rw [if_neg hRBnil]
        have hCB := sage.rightKernelPivotBasis_isBasisOf (ofRows RB)
        rw [rightKernel_eq, rowSpace_ofRows, hRB.span, orthogonal_orthogonal] at hCB
        exact hCB

end Centre

/-! ## The tensor of a subalgebra -/

section Subalgebra

variable {r c : ℕ} {Z : Matrix (Fin r) (Fin c) ℚ} {Q : Tensor c}

/-- The last column holds the coordinates of a vector of the row space. -/
theorem echelonForm_augment (sage : Sage) (hZ : LinearIndependent ℚ Z) (f : Vec r) (k : Fin r) :
    ∃ i : Fin c, (i : ℕ) = k ∧
      sage.echelonForm (augment Zᵀ (changeBasis f Z)) i (Fin.last r) = f k := by
  have hkernel := rightKernel_congr (sage.echelonForm_rowSpace (augment Zᵀ (changeBasis f Z)))
  have hdot : ∀ (i : Fin c) (g : Vec (r + 1)), augment Zᵀ (changeBasis f Z) i ⬝ᵥ g =
      changeBasis (fun j => g j.castSucc) Z i + changeBasis f Z i * g (Fin.last r) := by
    intro i g
    rw [dotProduct, Fin.sum_univ_castSucc]
    simp only [augment, Fin.snoc_castSucc, Fin.snoc_last, transpose_apply, changeBasis, mul_comm]
  apply last_column_eq (sage.echelonForm_reduced _)
  · intro g hg hlast
    rw [hkernel, mem_rightKernel] at hg
    have hzero : (fun j : Fin r => g j.castSucc) = 0 := by
      apply eq_zero_of_changeBasis_eq_zero hZ
      ext i
      have hi := hg i
      rwa [hdot, hlast (Fin.last r) (le_refl _), mul_zero, add_zero] at hi
    ext j
    refine Fin.lastCases ?_ (fun j => ?_) j
    · exact hlast (Fin.last r) (le_refl _)
    · exact congrFun hzero j
  · rw [hkernel, mem_rightKernel]
    intro i
    rw [hdot]
    simp only [Fin.snoc_castSucc, Fin.snoc_last]
    rw [mul_neg_one, add_neg_cancel]

/-- **`ZStructs` is the tensor of the subalgebra.** -/
theorem zStructs_homomorphism (sage : Sage) (hZ : LinearIndependent ℚ Z)
    (hclosed : ∀ x ∈ rowSpace Z, ∀ y ∈ rowSpace Z, algebraProduct x y Q ∈ rowSpace Z) :
    ∃ F, zStructs sage Z Q = some F ∧ ∀ a b : Vec r,
      changeBasis (algebraProduct a b F) Z = algebraProduct (changeBasis a Z) (changeBasis b Z) Q := by
  have hrc : r ≤ c := by
    have hcard := hZ.fintype_card_le_finrank
    rwa [Fintype.card_fin, Module.finrank_fin_fun] at hcard
  obtain ⟨F, hF⟩ : ∃ F, zStructs sage Z Q = some F := ⟨_, dif_pos hrc⟩
  have hentry : ∀ i j k, F i j k = sage.echelonForm (augment Zᵀ (algebraProduct (Z i) (Z j) Q))
      (Fin.castLE hrc k) (Fin.last r) := by
    intro i j k
    rw [zStructs, dif_pos hrc, Option.some.injEq] at hF
    rw [← hF]
  have hbasis : ∀ i j, changeBasis (F i j) Z = algebraProduct (Z i) (Z j) Q := by
    intro i j
    have hmem := hclosed (Z i) (Submodule.subset_span ⟨i, rfl⟩) (Z j) (Submodule.subset_span ⟨j, rfl⟩)
    obtain ⟨f, hf⟩ := mem_rowSpace.mp hmem
    rw [← hf]
    congr 1
    ext k
    obtain ⟨i', hi', hlast⟩ := echelonForm_augment sage hZ f k
    obtain rfl : i' = Fin.castLE hrc k := Fin.ext hi'
    rw [hentry, ← hf]
    exact hlast
  -- Both sides are bilinear, so they agree once they agree on the basis.
  have hmaps : (productMap F).compr₂ (changeBasisMap Z) =
      (productMap Q).compl₁₂ (changeBasisMap Z) (changeBasisMap Z) := by
    apply LinearMap.ext_basis (Pi.basisFun ℚ (Fin r)) (Pi.basisFun ℚ (Fin r))
    intro i j
    simp only [Pi.basisFun_apply, LinearMap.compr₂_apply, LinearMap.compl₁₂_apply, productMap_apply,
      changeBasisMap_apply, algebraProduct_single, changeBasis_single]
    exact hbasis i j
  exact ⟨F, hF, fun a b => congrArg (fun f => f a b) hmaps⟩

/-- The multiples of `1` in the dual numbers. -/
theorem zStructs_homomorphism_dualNumbers : ∃ F, zStructs gaussJordan !![1, 0] dualNumbers = some F ∧
    ∀ a b : Vec 1, changeBasis (algebraProduct a b F) !![1, 0] =
      algebraProduct (changeBasis a !![1, 0]) (changeBasis b !![1, 0]) dualNumbers := by
  have hZ : LinearIndependent ℚ (!![1, 0] : Matrix (Fin 1) (Fin 2) ℚ) :=
    LinearIndependent.of_subsingleton 0 (by decide +kernel)
  apply zStructs_homomorphism gaussJordan hZ
  intro x hx y hy
  obtain ⟨a, rfl⟩ := mem_rowSpace.mp hx
  obtain ⟨b, rfl⟩ := mem_rowSpace.mp hy
  rw [mem_rowSpace]
  refine ⟨fun k => a k * b k, ?_⟩
  ext j
  fin_cases j <;> simp [changeBasis, algebraProduct, dualNumbers, Fin.sum_univ_two]

end Subalgebra

end UnionCollegeCode.Bremner
