import Mathlib.Algebra.Polynomial.Div
import Mathlib.FieldTheory.Minpoly.Field
import Mathlib.LinearAlgebra.Trace
import Mathlib.RingTheory.Artinian.Ring
import Mathlib.RingTheory.Jacobson.Ideal
import Mathlib.RingTheory.Nilpotent.Lemmas

/-!
# The radical by traces

In an algebra of finite dimension over a field of characteristic zero, the Jacobson radical consists of
the elements `x` for which all products `a * x` have trace zero, as maps from the left
(`mem_jacobson_iff_trace`). An element that is not nilpotent has an idempotent other than zero among its
left multiples, and the trace of that is its rank.
-/

set_option autoImplicit false

namespace Lib.TraceRadical

open Polynomial

variable (K : Type*) {A : Type*} [Field K] [Ring A] [Algebra K A]

/-- The trace of the product with `x` from the left. -/
noncomputable def leftTrace (x : A) : K := LinearMap.trace K A (LinearMap.mulLeft K x)

variable {K}

theorem leftTrace_of_isNilpotent {x : A} (hx : IsNilpotent x) : leftTrace K x = 0 := by
  have hmul : IsNilpotent (LinearMap.mulLeft K x) := (LinearMap.isNilpotent_mulLeft_iff K x).mpr hx
  exact (LinearMap.isNilpotent_trace_of_isNilpotent hmul).eq_zero

/-- An element that is not nilpotent has an idempotent among its left multiples. -/
theorem exists_idempotent (K : Type*) [Field K] [Algebra K A] [FiniteDimensional K A] {x : A}
    (hx : ¬ IsNilpotent x) :
    ∃ a : A, IsIdempotentElem (a * x) ∧ a * x ≠ 0 := by
  have hint : IsIntegral K x := Algebra.IsIntegral.isIntegral x
  obtain ⟨n, q, hq, hdvd⟩ : ∃ n q, minpoly K x = X ^ n * q ∧ ¬ X ∣ q := by
    have h := exists_eq_pow_rootMultiplicity_mul_and_not_dvd (minpoly K x) (minpoly.ne_zero hint) 0
    rw [C_0, sub_zero] at h
    obtain ⟨q, hq, hdvd⟩ := h
    exact ⟨_, q, hq, hdvd⟩
  have hcoprime : IsCoprime (X ^ (n + 1)) q :=
    ((irreducible_X (R := K)).coprime_iff_not_dvd.mpr hdvd).pow_left
  obtain ⟨u, v, huv⟩ := hcoprime
  have hzero : aeval x (X ^ n * q) = 0 := by rw [← hq, minpoly.aeval]
  have he : aeval x (u * X ^ n) * x = aeval x (u * X ^ (n + 1)) := by
    rw [pow_succ, ← mul_assoc, map_mul _ (u * X ^ n), aeval_X]
  refine ⟨aeval x (u * X ^ n), ?_, ?_⟩
  · have hcross : u * X ^ (n + 1) * (u * X ^ (n + 1)) =
        u * X ^ (n + 1) - u * v * X * (X ^ n * q) := by
      have hsub : u * X ^ (n + 1) = 1 - v * q := eq_sub_of_add_eq huv
      calc u * X ^ (n + 1) * (u * X ^ (n + 1)) = u * X ^ (n + 1) * (1 - v * q) := by rw [← hsub]
        _ = u * X ^ (n + 1) - u * v * X * (X ^ n * q) := by ring
    rw [IsIdempotentElem, he, ← map_mul, hcross, map_sub, map_mul _ (u * v * X), hzero, mul_zero, sub_zero]
  · rw [he]
    intro hnone
    apply hx
    refine ⟨n, ?_⟩
    have hone := congrArg (aeval x) huv
    rw [map_add, hnone, zero_add, map_one] at hone
    calc x ^ n = x ^ n * aeval x (v * q) := by rw [hone, mul_one]
      _ = aeval x (v * (X ^ n * q)) := by
        rw [← aeval_X_pow (R := K) x, ← map_mul]
        congr 1
        ring
      _ = 0 := by rw [map_mul, hzero, mul_zero]

theorem isNilpotent_of_mem_jacobson (K : Type*) [Field K] [Algebra K A] [FiniteDimensional K A] {x : A}
    (hx : x ∈ Ring.jacobson A) : IsNilpotent x := by
  have : IsArtinianRing A := IsArtinianRing.of_finite K A
  obtain ⟨n, hn⟩ := IsArtinianRing.isNilpotent_jacobson_bot (R := A)
  rw [Ideal.jacobson_bot] at hn
  refine ⟨n, ?_⟩
  have hpow := Ideal.pow_mem_pow hx n
  rwa [hn] at hpow

variable [FiniteDimensional K A] [CharZero K]

/-- An idempotent of trace zero is zero. -/
theorem eq_zero_of_leftTrace {e : A} (he : IsIdempotentElem e) (htrace : leftTrace K e = 0) : e = 0 := by
  have hmul : IsIdempotentElem (LinearMap.mulLeft K e) := by
    rw [IsIdempotentElem, Module.End.mul_eq_comp, ← LinearMap.mulLeft_mul, he]
  have hzero := LinearMap.IsIdempotentElem.eq_zero_of_trace_eq_zero hmul htrace
  have happ := congrArg (fun f => f 1) hzero
  simpa using happ

theorem isNilpotent_of_leftTrace {x : A} (h : ∀ a, leftTrace K (a * x) = 0) : IsNilpotent x := by
  by_contra hx
  obtain ⟨a, he, hne⟩ := exists_idempotent K hx
  exact hne (eq_zero_of_leftTrace he (h a))

omit [FiniteDimensional K A] [CharZero K] in
/-- A left ideal of nilpotent elements is in the radical. -/
theorem le_jacobson_of_isNilpotent {I : Ideal A} (hI : ∀ x ∈ I, IsNilpotent x) : I ≤ Ring.jacobson A := by
  intro x hx
  rw [← Ideal.jacobson_bot, Ideal.mem_jacobson_iff]
  intro y
  obtain ⟨u, hu⟩ := (hI _ (I.mul_mem_left y hx)).isUnit_one_add
  refine ⟨↑u⁻¹, ?_⟩
  have hinv : ↑u⁻¹ * (1 + y * x) = 1 := by rw [← hu, Units.inv_mul]
  rw [mul_add, mul_one] at hinv
  rw [mul_assoc, add_comm, hinv, sub_self]
  exact Submodule.zero_mem _

/-- **The radical by traces.** -/
theorem mem_jacobson_iff_trace {x : A} : x ∈ Ring.jacobson A ↔ ∀ a, leftTrace K (a * x) = 0 := by
  constructor
  · intro hx a
    exact leftTrace_of_isNilpotent (isNilpotent_of_mem_jacobson K ((Ring.jacobson A).mul_mem_left a hx))
  · intro h
    have hI : ∀ y ∈ Ideal.span {x}, IsNilpotent y := by
      intro y hy
      obtain ⟨b, rfl⟩ := Ideal.mem_span_singleton'.mp hy
      apply isNilpotent_of_leftTrace (K := K)
      intro a
      rw [← mul_assoc]
      exact h (a * b)
    exact le_jacobson_of_isNilpotent hI (Ideal.mem_span_singleton_self x)

end Lib.TraceRadical
