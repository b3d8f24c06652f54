import Mathlib.Tactic.NoncommRing
import UnionCollegeCode.Lib.TraceRadical
import UnionCollegeCode.Bremner.Tensor

/-!
# `RadBasis`

`D[i][j]` is the trace of the product with `e_j * e_i` from the left, so the left kernel of `D` is the
radical of the algebra.
-/

set_option autoImplicit false

namespace UnionCollegeCode.Bremner

open Lib.RowReduction Lib.TraceRadical Matrix

/-- `D` -/
def traceMatrix {n : ℕ} (C : Tensor n) : Matrix (Fin n) (Fin n) ℚ :=
  fun i j => ∑ k, ∑ l, C j i k * C k l l

/-- The rows of the matrix that it returns. -/
def radBasis (sage : Sage) {n : ℕ} (C : Tensor n) : List (Vec n) := sage.leftKernelBasis (traceMatrix C)

/-- So many elements of `I` in a row make every product zero. -/
def IsNilpotentIdeal {n : ℕ} (C : Tensor n) (I : Submodule ℚ (Vec n)) : Prop :=
  ∃ k, ∀ xs : List (Vec n), xs.length = k → (∀ x ∈ xs, x ∈ I) →
    ∀ a, xs.foldr (fun x y => algebraProduct x y C) a = 0

/-! ## The algebra of a tensor -/

structure UnitalAlgebra (n : ℕ) where
  tensor : Tensor n
  assoc : IsAssociative tensor
  one : Vec n
  one_mul : ∀ a, algebraProduct one a tensor = a
  mul_one : ∀ a, algebraProduct a one tensor = a

/-- The elements of the algebra, by their coordinates. -/
def UnitalAlgebra.Element {n : ℕ} (_ : UnitalAlgebra n) : Type := Vec n

def UnitalAlgebra.element {n : ℕ} (A : UnitalAlgebra n) (v : Vec n) : A.Element := v

namespace UnitalAlgebra

variable {n : ℕ} (A : UnitalAlgebra n)

instance : AddCommGroup A.Element := inferInstanceAs (AddCommGroup (Vec n))

instance : Module ℚ A.Element := inferInstanceAs (Module ℚ (Vec n))

instance : FiniteDimensional ℚ A.Element := inferInstanceAs (FiniteDimensional ℚ (Vec n))

instance : Ring A.Element :=
  { (inferInstance : AddCommGroup A.Element) with
    mul := fun a b => algebraProduct a b A.tensor
    one := A.one
    mul_assoc := A.assoc
    one_mul := A.one_mul
    mul_one := A.mul_one
    left_distrib := fun _ _ _ => algebraProduct_add_right
    right_distrib := fun _ _ _ => algebraProduct_add_left
    zero_mul := fun _ => algebraProduct_zero_left
    mul_zero := fun _ => algebraProduct_zero_right }

instance : Algebra ℚ A.Element :=
  Algebra.ofModule (fun _ _ _ => algebraProduct_smul_left) fun _ _ _ => algebraProduct_smul_right

variable {A}

noncomputable def basis : Module.Basis (Fin n) ℚ A.Element := Pi.basisFun ℚ (Fin n)

/-- The trace is that of the matrix of the product. -/
theorem leftTrace_eq (x : A.Element) : leftTrace ℚ x = ∑ k, x k * ∑ l, A.tensor k l l := by
  rw [leftTrace, LinearMap.trace_eq_matrix_trace ℚ (basis (A := A)), Matrix.trace]
  simp only [diag_apply, LinearMap.toMatrix_apply]
  have hentry : ∀ l, (basis (A := A)).repr (LinearMap.mulLeft ℚ x (basis l)) l = ∑ k, x k * A.tensor k l l := by
    intro l
    change algebraProduct (n := n) x (Pi.basisFun ℚ (Fin n) l) A.tensor l = _
    simp [algebraProduct, Pi.single_apply]
  simp only [hentry, Finset.mul_sum]
  exact Finset.sum_comm

/-- **The left kernel of `D` is the radical.** -/
theorem mem_leftKernel_iff (v : Vec n) :
    v ∈ leftKernel (traceMatrix A.tensor) ↔ A.element v ∈ Ring.jacobson A.Element := by
  obtain ⟨t, ht⟩ : ∃ t : Vec n, t = fun k => ∑ l, A.tensor k l l := ⟨_, rfl⟩
  obtain ⟨f, hf⟩ : ∃ f : Vec n →ₗ[ℚ] ℚ, f = dotProductBilin ℚ ℚ t ∘ₗ (productMap A.tensor).flip v := ⟨_, rfl⟩
  have htrace : ∀ a, leftTrace ℚ (A.element a * A.element v) = f a := by
    intro a
    rw [leftTrace_eq, hf, ht]
    exact Finset.sum_congr rfl fun k _ => mul_comm _ _
  have hentry : ∀ j, (v ⬝ᵥ fun i => traceMatrix A.tensor i j) = f (Pi.single j 1) := by
    intro j
    have hcolumn : ∀ i, traceMatrix A.tensor i j = ∑ k, A.tensor j i k * t k := by
      intro i
      simp only [traceMatrix, ht, Finset.mul_sum]
    have hproduct : f (Pi.single j 1) = ∑ k, t k * ∑ i, A.tensor j i k * v i := by
      rw [hf]
      change ∑ k, t k * algebraProduct (Pi.single j 1) v A.tensor k = _
      simp only [algebraProduct_single_left]
    rw [hproduct, dotProduct]
    simp only [hcolumn, Finset.mul_sum]
    rw [Finset.sum_comm]
    apply Finset.sum_congr rfl
    intro k _
    apply Finset.sum_congr rfl
    intro i _
    ring
  rw [mem_leftKernel, mem_jacobson_iff_trace (K := ℚ)]
  constructor
  · intro h a
    have hzero : f = 0 := by
      apply LinearMap.pi_ext'
      intro j
      ext
      simpa [hentry] using h j
    apply (htrace a).trans
    rw [hzero]
    rfl
  · intro h j
    rw [hentry, ← htrace]
    exact h _

/-! ## Ideals -/

variable {I : Submodule ℚ (Vec n)}

/-- The radical as a subspace. -/
def radical (A : UnitalAlgebra n) : Submodule ℚ (Vec n) := leftKernel (traceMatrix A.tensor)

theorem mem_radical {v : Vec n} : v ∈ radical A ↔ A.element v ∈ Ring.jacobson A.Element :=
  mem_leftKernel_iff v

theorem radical_isIdeal : IsIdeal A.tensor (radical A) := by
  intro x hx a
  rw [mem_radical] at hx
  constructor
  · exact mem_radical.mpr ((Ring.jacobson A.Element).mul_mem_left (A.element a) hx)
  · exact mem_radical.mpr (Ideal.mul_mem_right (A.element a) _ hx)

theorem radical_isNilpotent : IsNilpotentIdeal A.tensor (radical A) := by
  have : IsArtinianRing A.Element := IsArtinianRing.of_finite ℚ A.Element
  obtain ⟨k, hk⟩ := IsArtinianRing.isNilpotent_jacobson_bot (R := A.Element)
  rw [Ideal.jacobson_bot] at hk
  have hpower : ∀ xs : List (Vec n), (∀ x ∈ xs, x ∈ radical A) → ∀ a,
      A.element (xs.foldr (fun x y => algebraProduct x y A.tensor) a) ∈
        Ring.jacobson A.Element ^ xs.length := by
    intro xs
    induction xs with
    | nil =>
      intro _ a
      rw [List.length_nil, Submodule.pow_zero, Ideal.one_eq_top]
      exact Submodule.mem_top
    | cons x xs ih =>
      intro hxs a
      rw [List.length_cons, Ideal.IsTwoSided.pow_succ]
      exact Ideal.mul_mem_mul (mem_radical.mp (hxs x List.mem_cons_self))
        (ih (fun y hy => hxs y (List.mem_cons_of_mem _ hy)) a)
  refine ⟨k, fun xs hlen hxs a => ?_⟩
  have hmem := hpower xs hxs a
  rw [hlen, hk] at hmem
  exact hmem

theorem foldr_replicate (x : Vec n) (k : ℕ) :
    A.element ((List.replicate k x).foldr (fun x y => algebraProduct x y A.tensor) A.one) =
      A.element x ^ k := by
  induction k with
  | zero => rfl
  | succ k ih =>
    rw [List.replicate_succ, List.foldr_cons, pow_succ', ← ih]
    rfl

/-- A nilpotent ideal is in the radical. -/
theorem le_radical (hideal : IsIdeal A.tensor I) (hnil : IsNilpotentIdeal A.tensor I) : I ≤ radical A := by
  obtain ⟨k, hk⟩ := hnil
  obtain ⟨J, hJ⟩ : ∃ J : Ideal A.Element, ∀ x : Vec n, A.element x ∈ J ↔ x ∈ I :=
    ⟨{ carrier := {x | x ∈ I}
       zero_mem' := I.zero_mem
       add_mem' := I.add_mem
       smul_mem' := fun a x hx => (hideal x hx a).1 }, fun _ => Iff.rfl⟩
  have hle : J ≤ Ring.jacobson A.Element := by
    apply le_jacobson_of_isNilpotent
    intro x hx
    refine ⟨k, ?_⟩
    have hpow := foldr_replicate (A := A) x k
    rw [hk _ (List.length_replicate ..) (fun y hy => (List.eq_of_mem_replicate hy).symm ▸ (hJ x).mp hx)]
      at hpow
    exact hpow.symm
  intro x hx
  exact mem_radical.mpr (hle ((hJ x).mpr hx))

/-- What is quasi-regular with all its left multiples. -/
theorem mem_radical_iff (x : Vec n) : x ∈ radical A ↔
    ∀ a, ∃ b, algebraProduct b (A.one - algebraProduct a x A.tensor) A.tensor = A.one := by
  rw [mem_radical, ← Ideal.jacobson_bot, Ideal.mem_jacobson_iff]
  -- The criterion of the library has the sign the other way.
  have hquasi : ∀ a z : A.Element, z * a * A.element x + z - 1 ∈ (⊥ : Ideal A.Element) ↔
      z * (1 - -a * A.element x) = 1 := by
    intro a z
    rw [Submodule.mem_bot, sub_eq_zero]
    apply Eq.congr_left
    noncomm_ring
  constructor
  · intro h a
    obtain ⟨z, hz⟩ := h (-A.element a)
    have hone := (hquasi _ z).mp hz
    rw [neg_neg] at hone
    exact ⟨z, hone⟩
  · intro h a
    obtain ⟨z, hz⟩ := h (-a : A.Element)
    exact ⟨z, (hquasi a z).mpr hz⟩

end UnitalAlgebra

/-- **`RadBasis` computes the radical.** Its rows are a basis of the largest nilpotent ideal, which is the
Jacobson radical. -/
theorem radBasis_radical (sage : Sage) {n : ℕ} {C : Tensor n} (hassoc : IsAssociative C) {one : Vec n}
    (hone : ∀ a, algebraProduct one a C = a ∧ algebraProduct a one C = a) :
    ∃ W : Submodule ℚ (Vec n), IsBasisOf (radBasis sage C) W ∧
      IsGreatest {I | IsIdeal C I ∧ IsNilpotentIdeal C I} W ∧
      ∀ x, x ∈ W ↔ ∀ a, ∃ b, algebraProduct b (one - algebraProduct a x C) C = one := by
  obtain ⟨A, rfl, rfl⟩ : ∃ A : UnitalAlgebra n, A.tensor = C ∧ A.one = one :=
    ⟨⟨C, hassoc, one, fun a => (hone a).1, fun a => (hone a).2⟩, rfl, rfl⟩
  refine ⟨A.radical, sage.leftKernelBasis_isBasisOf _, ⟨⟨A.radical_isIdeal, A.radical_isNilpotent⟩, ?_⟩,
    A.mem_radical_iff⟩
  intro I hI
  exact A.le_radical hI.1 hI.2

theorem radBasis_radical_dualNumbers : ∃ W : Submodule ℚ (Vec 2),
    IsBasisOf (radBasis gaussJordan dualNumbers) W ∧
      IsGreatest {I | IsIdeal dualNumbers I ∧ IsNilpotentIdeal dualNumbers I} W := by
  obtain ⟨W, hW, hgreatest, -⟩ := radBasis_radical gaussJordan dualNumbers_isAssociative dualNumbers_one
  exact ⟨W, hW, hgreatest⟩

end UnionCollegeCode.Bremner
