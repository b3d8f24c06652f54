import Mathlib.Algebra.Polynomial.Monic
import UnionCollegeCode.Bremner.Tensor

/-!
# `MinPoly`

The loop puts the powers of `u` side by side, with `e` for the power zero, until they depend on each
other. All but the last one are independent then, so the last one is a combination of them in one way.
-/

set_option autoImplicit false

namespace UnionCollegeCode.Bremner

open Lib.RowReduction Matrix Polynomial

section Source

variable {n : ℕ}

/-- The `while` loop with `k + 1` columns in `P`, cut after so many rounds. -/
def minPolyLoop (sage : Sage) (u : Vec n) (F : Tensor n) :
    ℕ → (k : ℕ) → Matrix (Fin n) (Fin (k + 1)) ℚ → Vec n →
      Option ((k : ℕ) × Matrix (Fin n) (Fin (k + 1)) ℚ × Vec n)
  | 0, _, _, _ => none
  | left + 1, k, P, u_j =>
    if sage.rank P = k + 1 then
      let u_j := algebraProduct u_j u F
      minPolyLoop sage u F left (k + 1) (augment P u_j) u_j
    else
      some ⟨k, P, u_j⟩

def minPoly (sage : Sage) (rounds : ℕ) (u e : Vec n) (F : Tensor n) {d : ℕ}
    (_Y : Matrix (Fin d) (Fin n) ℚ) : Option (List ℚ) := do
  let ⟨_, P, soln⟩ ← minPolyLoop sage u F rounds 1 (fun i => ![e i, u i]) u
  -- `P.delete_columns([num_cols-1])`
  let A := fun i j => P i (Fin.castSucc j)
  let X ← sage.solveRight A soln
  return List.ofFn X

end Source

/-! ## Polynomials at an element -/

section Powers

variable {n : ℕ} (u e : Vec n) (F : Tensor n)

/-- The powers of `u`, with `e` for the power zero. -/
def power : ℕ → Vec n
  | 0 => e
  | 1 => u
  | k + 2 => algebraProduct (power (k + 1)) u F

/-- The value of a polynomial at `u`. -/
noncomputable def valueAt : ℚ[X] →ₗ[ℚ] Vec n :=
  Polynomial.lsum fun i => LinearMap.toSpanSingleton ℚ (Vec n) (power u e F i)

/-- The polynomial `x^len(X) - sum X[i] x^i`. -/
noncomputable def definingPolynomial (cs : List ℚ) : ℚ[X] :=
  X ^ cs.length - ∑ i : Fin cs.length, C (cs.get i) * X ^ (i : ℕ)

def krylov (k : ℕ) : Matrix (Fin n) (Fin k) ℚ := fun i j => power u e F j i

/-- The powers before the `k`-th one are independent. -/
def Independent (k : ℕ) : Prop := LinearIndependent ℚ fun j : Fin k => power u e F j

variable {u e F} {k : ℕ}

theorem valueAt_monomial (i : ℕ) (c : ℚ) : valueAt u e F (monomial i c) = c • power u e F i := by
  rw [valueAt, lsum_apply, sum_monomial_index]
  · rfl
  · exact map_zero _

theorem valueAt_of_degree_lt {f : ℚ[X]} (hf : f.degree < k) :
    valueAt u e F f = ∑ j : Fin k, f.coeff j • power u e F j := by
  rw [valueAt, lsum_apply]
  exact (sum_fin (fun i c => c • power u e F i) (fun i => zero_smul ℚ _) hf).symm

theorem eq_zero_of_valueAt {f : ℚ[X]} (hind : Independent u e F k) (hf : f.degree < k)
    (hzero : valueAt u e F f = 0) : f = 0 := by
  rw [valueAt_of_degree_lt hf] at hzero
  have hcoeff := Fintype.linearIndependent_iff.mp hind _ hzero
  ext i
  by_cases hi : i < k
  · exact hcoeff ⟨i, hi⟩
  · rw [coeff_zero]
    exact coeff_eq_zero_of_degree_lt (hf.trans_le (Nat.cast_le.mpr (not_lt.mp hi)))

theorem independent_iff_rank (sage : Sage) : sage.rank (krylov u e F k) = k ↔ Independent u e F k := by
  rw [sage.rank_eq, rank_eq_finrank_span_cols, Independent, linearIndependent_iff_card_eq_finrank_span,
    Fintype.card_fin, eq_comm]
  rfl

theorem independent_succ : Independent u e F (k + 1) ↔
    Independent u e F k ∧ power u e F k ∉ Submodule.span ℚ (Set.range fun j : Fin k => power u e F j) := by
  have hsnoc : (fun j : Fin (k + 1) => power u e F j) =
      (Fin.snoc (fun j : Fin k => power u e F j) (power u e F k) : Fin (k + 1) → Vec n) := by
    ext j : 1
    refine Fin.lastCases ?_ (fun j => ?_) j
    · rw [Fin.snoc_last, Fin.val_last]
    · rw [Fin.snoc_castSucc, Fin.val_castSucc]
  rw [Independent, hsnoc, linearIndependent_finSnoc]
  rfl

theorem Independent.le (h : Independent u e F k) : k ≤ n := by
  have hcard := LinearIndependent.fintype_card_le_finrank h
  rwa [Fintype.card_fin, Module.finrank_fin_fun] at hcard

theorem independent_one (he : e ≠ 0) : Independent u e F 1 := by
  rw [independent_succ]
  refine ⟨linearIndependent_empty_type, ?_⟩
  rw [Set.range_eq_empty, Submodule.span_empty, Submodule.mem_bot]
  exact he

theorem augment_krylov : augment (krylov u e F k) (power u e F k) = krylov u e F (k + 1) := by
  ext i j
  refine Fin.lastCases ?_ (fun j => ?_) j
  · rw [augment, Fin.snoc_last, krylov, Fin.val_last]
  · rw [augment, Fin.snoc_castSucc, krylov, krylov, Fin.val_castSucc]

/-- The loop stops at the first power that depends on those before it. -/
theorem minPolyLoop_eq (sage : Sage) : ∀ left k, Independent u e F (k + 1) → n < left + (k + 1) →
    ∃ m, minPolyLoop sage u F left (k + 1) (krylov u e F (k + 2)) (power u e F (k + 1)) =
        some ⟨m + 1, krylov u e F (m + 2), power u e F (m + 1)⟩ ∧
      Independent u e F (m + 1) ∧ ¬ Independent u e F (m + 2) := by
  intro left
  induction left with
  | zero =>
    intro k hind hleft
    exact absurd hind.le (by omega)
  | succ left ih =>
    intro k hind hleft
    by_cases hnext : Independent u e F (k + 2)
    · obtain ⟨m, hloop, hm⟩ := ih (k + 1) hnext (by omega)
      refine ⟨m, ?_, hm⟩
      rw [minPolyLoop, if_pos ((independent_iff_rank sage).mpr hnext), ← hloop]
      exact congrArg (fun P => minPolyLoop sage u F left (k + 2) P (power u e F (k + 2))) augment_krylov
    · refine ⟨k, ?_, hind, hnext⟩
      rw [minPolyLoop, if_neg fun h => hnext ((independent_iff_rank sage).mp h)]

/-! ## The minimal polynomial -/

variable {cs : List ℚ}

theorem degree_lower (cs : List ℚ) :
    (∑ i : Fin cs.length, C (cs.get i) * X ^ (i : ℕ)).degree < (cs.length : WithBot ℕ) :=
  degree_sum_fin_lt _

theorem definingPolynomial_monic : (definingPolynomial cs).Monic := monic_X_pow_sub (degree_lower cs)

theorem natDegree_definingPolynomial : (definingPolynomial cs).natDegree = cs.length := by
  apply natDegree_eq_of_degree_eq_some
  have hlower := degree_lower cs
  rw [← degree_X_pow (R := ℚ) cs.length] at hlower
  rw [definingPolynomial, degree_sub_eq_left_of_degree_lt hlower, degree_X_pow]

theorem valueAt_definingPolynomial : valueAt u e F (definingPolynomial cs) =
    power u e F cs.length - ∑ i : Fin cs.length, cs.get i • power u e F i := by
  rw [definingPolynomial, map_sub, map_sum, X_pow_eq_monomial, valueAt_monomial, one_smul]
  simp only [C_mul_X_pow_eq_monomial, valueAt_monomial]

theorem krylov_mulVec (c : Vec k) : krylov u e F k *ᵥ c = ∑ j, c j • power u e F j := by
  ext i
  rw [mulVec, dotProduct, Finset.sum_apply]
  exact Finset.sum_congr rfl fun j _ => mul_comm _ _

/-- What the program returns: the coordinates of the first power that depends on the ones before it. -/
theorem minPoly_eq (sage : Sage) (he : e ≠ 0) {d : ℕ} (Y : Matrix (Fin d) (Fin n) ℚ) {rounds : ℕ}
    (hrounds : n ≤ rounds) :
    ∃ cs, minPoly sage rounds u e F Y = some cs ∧ Independent u e F cs.length ∧
      valueAt u e F (definingPolynomial cs) = 0 := by
  obtain ⟨m, hloop, hind, hdep⟩ := minPolyLoop_eq sage rounds 0 (independent_one he)
    (Nat.lt_succ_of_le hrounds)
  replace hloop : minPolyLoop sage u F rounds 1 (krylov u e F 2) u = _ := hloop
  have hstart : (fun i => ![e i, u i]) = krylov u e F 2 := by
    ext i j
    fin_cases j
    · rfl
    · rfl
  have hmem : power u e F (m + 1) ∈ Submodule.span ℚ (Set.range fun j : Fin (m + 1) => power u e F j) := by
    by_contra hout
    exact hdep (independent_succ.mpr ⟨hind, hout⟩)
  obtain ⟨c, hc⟩ := (Submodule.mem_span_range_iff_exists_fun ℚ).mp hmem
  rw [← krylov_mulVec] at hc
  obtain ⟨x, hx⟩ : ∃ x, sage.solveRight (krylov u e F (m + 1)) (power u e F (m + 1)) = some x := by
    cases hsolve : sage.solveRight (krylov u e F (m + 1)) (power u e F (m + 1)) with
    | none => exact absurd hc (sage.solveRight_none hsolve c)
    | some x => exact ⟨x, rfl⟩
  have hlen : (List.ofFn x).length = m + 1 := List.length_ofFn
  refine ⟨List.ofFn x, ?_, by rwa [hlen], ?_⟩
  · rw [minPoly, hstart, hloop, Option.bind_eq_bind, Option.bind_some]
    change (do let X ← sage.solveRight (krylov u e F (m + 1)) (power u e F (m + 1)); _) = _
    rw [hx]
    rfl
  · have hsum : ∑ i : Fin (List.ofFn x).length, (List.ofFn x).get i • power u e F i =
        ∑ j : Fin (m + 1), x j • power u e F j := by
      apply Fintype.sum_equiv (finCongr hlen)
      intro i
      rw [List.get_ofFn]
      rfl
    rw [valueAt_definingPolynomial, hsum, hlen, ← krylov_mulVec, sage.solveRight_some hx, sub_self]

/-- **`MinPoly` returns the minimal polynomial.** -/
theorem minPoly_minimal (sage : Sage) (he : e ≠ 0) {d : ℕ} (Y : Matrix (Fin d) (Fin n) ℚ) {rounds : ℕ}
    (hrounds : n ≤ rounds) :
    ∃ cs, minPoly sage rounds u e F Y = some cs ∧ (definingPolynomial cs).Monic ∧
      valueAt u e F (definingPolynomial cs) = 0 ∧
      ∀ g : ℚ[X], g.Monic → valueAt u e F g = 0 →
        (definingPolynomial cs).natDegree ≤ g.natDegree ∧
        (g.natDegree = (definingPolynomial cs).natDegree → g = definingPolynomial cs) := by
  obtain ⟨cs, hrun, hind, hzero⟩ := minPoly_eq sage he Y hrounds
  refine ⟨cs, hrun, definingPolynomial_monic, hzero, ?_⟩
  intro g hg hgzero
  constructor
  · by_contra hlt
    rw [natDegree_definingPolynomial, not_le] at hlt
    have hdeg : g.degree < (cs.length : WithBot ℕ) := (natDegree_lt_iff_degree_lt hg.ne_zero).mp hlt
    exact hg.ne_zero (eq_zero_of_valueAt hind hdeg hgzero)
  · intro hsame
    have hdeg : (g - definingPolynomial cs).degree < (cs.length : WithBot ℕ) := by
      have heq : g.degree = (definingPolynomial cs).degree := by
        rw [degree_eq_natDegree hg.ne_zero, degree_eq_natDegree definingPolynomial_monic.ne_zero, hsame]
      have hlower := degree_sub_lt_left heq hg.ne_zero
        (hg.leadingCoeff.trans definingPolynomial_monic.leadingCoeff.symm)
      rwa [degree_eq_natDegree hg.ne_zero, hsame, natDegree_definingPolynomial] at hlower
    have hdiff : valueAt u e F (g - definingPolynomial cs) = 0 := by rw [map_sub, hgzero, hzero, sub_zero]
    exact sub_eq_zero.mp (eq_zero_of_valueAt hind hdeg hdiff)

end Powers

theorem minPoly_minimal_dualNumbers : ∃ cs,
    minPoly gaussJordan 2 ![0, 1] ![1, 0] dualNumbers (1 : Matrix (Fin 2) (Fin 2) ℚ) = some cs ∧
      valueAt ![0, 1] ![1, 0] dualNumbers (definingPolynomial cs) = 0 := by
  have he : (![1, 0] : Vec 2) ≠ 0 := by decide +kernel
  obtain ⟨cs, hcs, -, hzero, -⟩ := minPoly_minimal gaussJordan he (1 : Matrix (Fin 2) (Fin 2) ℚ) (le_refl 2)
  exact ⟨cs, hcs, hzero⟩

end UnionCollegeCode.Bremner
