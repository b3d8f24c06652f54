import Mathlib.Data.List.ProdSigma
import Mathlib.Logic.Equiv.Fin.Basic
import UnionCollegeCode.Lib.Assignments
import UnionCollegeCode.Bremner.Tensor

/-!
# `IdealIdent`

The identity of an ideal solves one equation for each row of its basis and each coordinate, and these are
laid out in one table, row by row: equation `p` of row `k` is at `k*d+p`, where a row has `c` of them. The
index is right for `c` rows. With fewer, two or more, equations share an index: their left sides add up
there, and on the right side the last one is kept.
-/

set_option autoImplicit false

namespace UnionCollegeCode.Bremner

open Lib.RowReduction Lib.Assignments Matrix

section Source

variable {c d : ℕ}

/-- The rounds of the loops over `k` and `p`. -/
def rounds (c d : ℕ) : List (Fin d × Fin c) := List.finRange d ×ˢ List.finRange c

/-- `k*d+p` -/
def place (w : Fin d × Fin c) : ℕ := w.1 * d + w.2

/-- `soln` -/
def identVector (Y : Matrix (Fin d) (Fin c) ℚ) (h : ∀ w : Fin d × Fin c, place w < c * d) : Vec (c * d) :=
  assignAll (fun w => ⟨place w, h w⟩) (fun w => Y w.1 w.2) (rounds c d) fun _ => 0

/-- `A` -/
def identMatrix (F : Tensor c) (Y : Matrix (Fin d) (Fin c) ℚ) (h : ∀ w : Fin d × Fin c, place w < c * d) :
    Matrix (Fin (c * d)) (Fin d) ℚ := fun t j =>
  addAll (fun w => ⟨place w, h w⟩) (fun w => ∑ l, ∑ m, Y j l * Y w.1 m * F l m w.2) (rounds c d)
    (fun _ => 0) t

/-- `solve_right` for the sizes it is called with, whatever solution it picks. -/
abbrev Solver (m n : ℕ) := Matrix (Fin m) (Fin n) ℚ → Vec m → Option (Vec n)

structure IsSolver {m n : ℕ} (solveRight : Solver m n) : Prop where
  some : ∀ {M b x}, solveRight M b = some x → M *ᵥ x = b
  none : ∀ {M b}, solveRight M b = none → ∀ x, M *ᵥ x ≠ b

/-- `none` is an exception: an index outside the table, or a system without a solution. -/
def idealIdent (solveRight : Solver (c * d) d) (F : Tensor c) (Y : Matrix (Fin d) (Fin c) ℚ) :
    Option (Vec c) := do
  if h : ∀ w : Fin d × Fin c, place w < c * d then
    let X ← solveRight (identMatrix F Y h) (identVector Y h)
    return changeBasis X Y
  else
    none

end Source

/-- `z` is in the ideal with the rows of `Y`, and its product with each of them is that row. -/
structure IsIdentity {c d : ℕ} (F : Tensor c) (Y : Matrix (Fin d) (Fin c) ℚ) (z : Vec c) : Prop where
  mem : z ∈ rowSpace Y
  product : ∀ k, algebraProduct z (Y k) F = Y k

/-- A later row is written to the same place. -/
def Overwritten {c d : ℕ} (w : Fin d × Fin c) : Prop := ∃ w' : Fin d × Fin c, w.1 < w'.1 ∧ place w' = place w

instance {c d : ℕ} (w : Fin d × Fin c) : Decidable (Overwritten w) :=
  inferInstanceAs (Decidable (∃ w' : Fin d × Fin c, w.1 < w'.1 ∧ place w' = place w))

/-! ## The table -/

section Table

variable {c d : ℕ} {F : Tensor c} {Y : Matrix (Fin d) (Fin c) ℚ} {z e : Vec c}

theorem place_lt (hdc : d ≤ c) (w : Fin d × Fin c) : place w < c * d := by
  obtain ⟨k, p⟩ := w
  obtain ⟨b, rfl⟩ : ∃ b, d = b + 1 := Nat.exists_eq_succ_of_ne_zero (Nat.ne_zero_of_lt k.isLt)
  have hk : (k : ℕ) * (b + 1) ≤ b * (b + 1) := Nat.mul_le_mul_right _ (Nat.le_of_lt_succ k.isLt)
  have hb : b * (b + 1) ≤ b * c := Nat.mul_le_mul_left _ hdc
  calc (k : ℕ) * (b + 1) + p < b * c + c := Nat.add_lt_add_of_le_of_lt (hk.trans hb) p.isLt
    _ = c * (b + 1) := by ring

theorem mem_rounds (w : Fin d × Fin c) : w ∈ rounds c d :=
  List.mem_product.mpr ⟨List.mem_finRange w.1, List.mem_finRange w.2⟩

theorem nodup_rounds : (rounds c d).Nodup := (List.nodup_finRange d).product (List.nodup_finRange c)

/-- Row by row, and in a row from left to right. -/
theorem pairwise_rounds : (rounds c d).Pairwise fun w w' => w.1 < w'.1 ∨ w.1 = w'.1 ∧ w.2 < w'.2 := by
  rw [rounds]
  change ((List.finRange d).flatMap fun k => (List.finRange c).map (Prod.mk k)).Pairwise _
  rw [List.pairwise_flatMap]
  constructor
  · intro k _
    rw [List.pairwise_map]
    exact (List.pairwise_lt_finRange c).imp fun hlt => Or.inr ⟨rfl, hlt⟩
  · apply (List.pairwise_lt_finRange d).imp
    intro k k' hlt w hw w' hw'
    obtain ⟨p, -, rfl⟩ := List.mem_map.mp hw
    obtain ⟨p', -, rfl⟩ := List.mem_map.mp hw'
    exact Or.inl hlt

variable (h : ∀ w : Fin d × Fin c, place w < c * d)

theorem identVector_apply {w : Fin d × Fin c} (hw : ¬ Overwritten w) :
    identVector Y h ⟨place w, h w⟩ = Y w.1 w.2 := by
  obtain ⟨l₁, l₂, hsplit⟩ := List.append_of_mem (mem_rounds w)
  have hlater := pairwise_rounds (c := c) (d := d)
  rw [hsplit, List.pairwise_append, List.pairwise_cons] at hlater
  rw [identVector, hsplit]
  apply assignAll_last (f := fun w => (⟨place w, h w⟩ : Fin (c * d)))
  intro w' hw' heq
  have hplace : place w' = place w := congrArg Fin.val heq
  rcases hlater.2.1.1 w' hw' with hlt | ⟨hrow, hlt⟩
  · exact hw ⟨w', hlt, hplace⟩
  · rw [place, place, hrow] at hplace
    omega

theorem identVector_eq_zero {t : Fin (c * d)} (ht : ∀ w : Fin d × Fin c, place w ≠ t) :
    identVector Y h t = 0 :=
  assignAll_of_ne fun w _ heq => ht w (congrArg Fin.val heq)

/-- The left side of the system, for the element with these coordinates. -/
theorem identMatrix_mulVec (x : Vec d) (t : Fin (c * d)) :
    (identMatrix F Y h *ᵥ x) t =
      ∑ w : Fin d × Fin c with place w = t, algebraProduct (changeBasis x Y) (Y w.1) F w.2 := by
  have hentry : ∀ j, identMatrix F Y h t j =
      ∑ w : Fin d × Fin c with place w = t, algebraProduct (Y j) (Y w.1) F w.2 := by
    intro j
    rw [identMatrix, addAll_univ nodup_rounds mem_rounds, zero_add]
    simp only [Fin.ext_iff]
    rfl
  have hproduct : ∀ w : Fin d × Fin c, algebraProduct (changeBasis x Y) (Y w.1) F w.2 =
      ∑ j, algebraProduct (Y j) (Y w.1) F w.2 * x j := by
    intro w
    have hlin : algebraProduct (changeBasis x Y) (Y w.1) F = ∑ j, x j • algebraProduct (Y j) (Y w.1) F := by
      rw [changeBasis_eq_sum]
      change (productMap F).flip (Y w.1) (∑ j, x j • Y j) = _
      rw [map_sum]
      simp only [map_smul]
      rfl
    rw [hlin, Finset.sum_apply]
    exact Finset.sum_congr rfl fun j _ => mul_comm _ _
  rw [mulVec, dotProduct]
  simp only [hentry, hproduct, Finset.sum_mul]
  exact Finset.sum_comm

/-- The right side of the system, and what it has lost. -/
theorem sum_at_place (t : Fin (c * d)) :
    ∑ w : Fin d × Fin c with place w = t, Y w.1 w.2 =
      identVector Y h t + ∑ w : Fin d × Fin c with place w = t ∧ Overwritten w, Y w.1 w.2 := by
  by_cases hany : ∃ w : Fin d × Fin c, place w = t
  · obtain ⟨w₀, hw₀⟩ := hany
    obtain ⟨w, hw, hmax⟩ := Finset.exists_max_image (Finset.univ.filter fun w : Fin d × Fin c => place w = t)
      Prod.fst ⟨w₀, by simpa using hw₀⟩
    simp only [Finset.mem_filter, Finset.mem_univ, true_and] at hw hmax
    have hlast : ¬ Overwritten w := by
      rintro ⟨w', hlt, hplace⟩
      exact absurd (hmax w' (hplace.trans hw)) (not_le.mpr hlt)
    have hset : (Finset.univ.filter fun w : Fin d × Fin c => place w = t) =
        insert w (Finset.univ.filter fun w => place w = t ∧ Overwritten w) := by
      ext w'
      simp only [Finset.mem_filter, Finset.mem_univ, true_and, Finset.mem_insert]
      constructor
      · intro hw'
        rcases (hmax w' hw').eq_or_lt with heq | hlt
        · left
          have hplace : place w' = place w := hw'.trans hw.symm
          rw [place, place, heq] at hplace
          exact Prod.ext heq (Fin.ext (Nat.add_left_cancel hplace))
        · exact Or.inr ⟨hw', w, hlt, hw.trans hw'.symm⟩
      · rintro (rfl | hw')
        · exact hw
        · exact hw'.1
    have hvector : identVector Y h t = Y w.1 w.2 := by
      rw [← identVector_apply (Y := Y) h hlast]
      exact congrArg _ (Fin.ext hw.symm)
    rw [hset, Finset.sum_insert, hvector]
    simp [hlast]
  · have hnone : ∀ w : Fin d × Fin c, place w ≠ t := fun w hw => hany ⟨w, hw⟩
    rw [identVector_eq_zero h hnone]
    simp [hnone]

end Table

/-! ## The identity -/

section Identity

variable {c d : ℕ} {F : Tensor c} {Y : Matrix (Fin d) (Fin c) ℚ} {z e : Vec c} {x : Vec d}

/-- An identity is one for the whole ideal. -/
theorem IsIdentity.product_eq (he : IsIdentity F Y e) (hz : z ∈ rowSpace Y) : algebraProduct e z F = z := by
  have hmaps : rowSpace Y ≤ LinearMap.eqLocus (productMap F e) LinearMap.id := by
    rw [rowSpace, Submodule.span_le]
    rintro _ ⟨k, rfl⟩
    exact he.product k
  exact hmaps hz

theorem IsIdentity.unique (hcomm : IsCommutative F) (he : IsIdentity F Y e) (hz : IsIdentity F Y z) :
    z = e := by
  rw [← he.product_eq hz.mem, hcomm, hz.product_eq he.mem]

theorem IsIdentity.sum_product (hz : IsIdentity F Y z) (t : ℕ) :
    ∑ w : Fin d × Fin c with place w = t, algebraProduct z (Y w.1) F w.2 =
      ∑ w : Fin d × Fin c with place w = t, Y w.1 w.2 :=
  Finset.sum_congr rfl fun w _ => congrFun (hz.product w.1) w.2

section Solutions

variable (h : ∀ w : Fin d × Fin c, place w < c * d)

/-- The identity solves the system when nothing but zeros is lost. -/
theorem solves_iff (hx : IsIdentity F Y (changeBasis x Y)) :
    identMatrix F Y h *ᵥ x = identVector Y h ↔
      ∀ t : ℕ, ∑ w : Fin d × Fin c with place w = t ∧ Overwritten w, Y w.1 w.2 = 0 := by
  have hrow : ∀ t : Fin (c * d), (identMatrix F Y h *ᵥ x) t = identVector Y h t ↔
      ∑ w : Fin d × Fin c with place w = t ∧ Overwritten w, Y w.1 w.2 = 0 := by
    intro t
    rw [identMatrix_mulVec, hx.sum_product, sum_at_place h t]
    exact add_eq_left
  rw [funext_iff]
  constructor
  · intro hsolves t
    by_cases ht : t < c * d
    · exact (hrow ⟨t, ht⟩).mp (hsolves ⟨t, ht⟩)
    · apply Finset.sum_eq_zero
      intro w hw
      rw [Finset.mem_filter] at hw
      exact absurd (hw.2.1 ▸ h w) ht
  · intro hlost t
    exact (hrow t).mpr (hlost t)

theorem kernel_iff : identMatrix F Y h *ᵥ x = 0 ↔ ∀ t : ℕ,
    ∑ w : Fin d × Fin c with place w = t, algebraProduct (changeBasis x Y) (Y w.1) F w.2 = 0 := by
  rw [funext_iff]
  constructor
  · intro hzero t
    by_cases ht : t < c * d
    · rw [← identMatrix_mulVec h x ⟨t, ht⟩]
      exact hzero ⟨t, ht⟩
    · apply Finset.sum_eq_zero
      intro w hw
      rw [Finset.mem_filter] at hw
      exact absurd (hw.2 ▸ h w) ht
  · intro hzero t
    rw [identMatrix_mulVec]
    exact hzero t

theorem idealIdent_eq (solveRight : Solver (c * d) d) : idealIdent solveRight F Y =
    (solveRight (identMatrix F Y h) (identVector Y h)).map fun x => changeBasis x Y := by
  rw [idealIdent, dif_pos h]
  cases solveRight (identMatrix F Y h) (identVector Y h) with
  | none => rfl
  | some x => rfl

end Solutions

/-- Any solution may be the one that is returned. -/
theorem exists_solver {m n : ℕ} {M : Matrix (Fin m) (Fin n) ℚ} {b : Vec m} {x : Vec n} (hx : M *ᵥ x = b) :
    ∃ solveRight : Solver m n, IsSolver solveRight ∧ solveRight M b = some x := by
  classical
  obtain ⟨s, hs⟩ : ∃ s : Solver m n, IsSolver s := by
    refine ⟨fun M b => if h : ∃ x, M *ᵥ x = b then some h.choose else none, ⟨?_, ?_⟩⟩
    · intro M b x hsome
      split at hsome
      case isTrue h =>
        rw [← Option.some.inj hsome]
        exact h.choose_spec
      case isFalse h => cases hsome
    · intro M b hnone x hx
      rw [dif_pos ⟨x, hx⟩] at hnone
      cases hnone
  refine ⟨fun M' b' => if M' = M ∧ b' = b then some x else s M' b', ⟨?_, ?_⟩, if_pos ⟨rfl, rfl⟩⟩
  · intro M' b' y hsome
    split at hsome
    case isTrue h =>
      rw [← Option.some.inj hsome, h.1, h.2]
      exact hx
    case isFalse h => exact hs.some hsome
  · intro M' b' hnone
    split at hnone
    case isTrue h => cases hnone
    case isFalse h => exact hs.none hnone

/-- **When `IdealIdent` finds the identity.** Whatever solution the solver picks, exactly when nothing but
zeros is lost of the right side, and no element but zero makes the left side zero. -/
theorem idealIdent_iff (hdc : d ≤ c) (hcomm : IsCommutative F) (he : IsIdentity F Y e) :
    (∀ solveRight : Solver (c * d) d, IsSolver solveRight →
      ∃ z, idealIdent solveRight F Y = some z ∧ IsIdentity F Y z) ↔
    (∀ t : ℕ, ∑ w : Fin d × Fin c with place w = t ∧ Overwritten w, Y w.1 w.2 = 0) ∧
    ∀ z ∈ rowSpace Y, (∀ t : ℕ, ∑ w : Fin d × Fin c with place w = t, algebraProduct z (Y w.1) F w.2 = 0) →
      z = 0 := by
  have h : ∀ w : Fin d × Fin c, place w < c * d := place_lt hdc
  obtain ⟨x₀, hx₀⟩ := mem_rowSpace.mp he.mem
  constructor
  · intro hall
    have hreturned : ∀ x, identMatrix F Y h *ᵥ x = identVector Y h → IsIdentity F Y (changeBasis x Y) := by
      intro x hx
      obtain ⟨s, hs, hsx⟩ := exists_solver hx
      obtain ⟨z, hz, hident⟩ := hall s hs
      rw [idealIdent_eq h, hsx, Option.map_some] at hz
      rwa [Option.some.inj hz]
    obtain ⟨x, hx⟩ : ∃ x, identMatrix F Y h *ᵥ x = identVector Y h := by
      obtain ⟨s, hs, -⟩ := exists_solver (rfl : identMatrix F Y h *ᵥ x₀ = _)
      obtain ⟨z, hz, -⟩ := hall s hs
      rw [idealIdent_eq h] at hz
      obtain ⟨x, hx, -⟩ := Option.map_eq_some_iff.mp hz
      exact ⟨x, hs.some hx⟩
    have hident := hreturned x hx
    refine ⟨(solves_iff h hident).mp hx, ?_⟩
    intro z hz hzero
    -- A vector of the kernel changes the solution, and there is one identity only.
    obtain ⟨y, rfl⟩ := mem_rowSpace.mp hz
    have hsum : identMatrix F Y h *ᵥ (x + y) = identVector Y h := by
      rw [mulVec_add, hx, (kernel_iff h).mpr hzero, add_zero]
    have heq := hident.unique hcomm (hreturned _ hsum)
    rwa [← changeBasisMap_apply, map_add, changeBasisMap_apply, changeBasisMap_apply, add_eq_left] at heq
  · rintro ⟨hlost, hkernel⟩ s hs
    have hsolves : identMatrix F Y h *ᵥ x₀ = identVector Y h := by
      apply (solves_iff h _).mpr hlost
      rwa [hx₀]
    rw [idealIdent_eq h]
    cases hsx : s (identMatrix F Y h) (identVector Y h) with
    | none => exact absurd hsolves (hs.none hsx x₀)
    | some x =>
      refine ⟨changeBasis x Y, rfl, ?_⟩
      have hdiff : changeBasis (x - x₀) Y = 0 := by
        apply hkernel _ (mem_rowSpace.mpr ⟨_, rfl⟩)
        apply (kernel_iff h).mp
        rw [mulVec_sub, hs.some hsx, hsolves, sub_self]
      rw [← changeBasisMap_apply, map_sub, sub_eq_zero, changeBasisMap_apply, changeBasisMap_apply, hx₀] at hdiff
      rwa [hdiff]

/-- With one row, or as many as there are coordinates, no two equations share an index, and both
conditions hold. -/
theorem conditions_of_full (hfull : d ≤ 1 ∨ d = c) (hcomm : IsCommutative F) (he : IsIdentity F Y e) :
    (∀ t : ℕ, ∑ w : Fin d × Fin c with place w = t ∧ Overwritten w, Y w.1 w.2 = 0) ∧
    ∀ z ∈ rowSpace Y, (∀ t : ℕ, ∑ w : Fin d × Fin c with place w = t, algebraProduct z (Y w.1) F w.2 = 0) →
      z = 0 := by
  have hinj : ∀ w w' : Fin d × Fin c, place w = place w' → w = w' := by
    rintro ⟨k, p⟩ ⟨k', p'⟩ hplace
    rcases hfull with hone | rfl
    · have hk : k = k' := Fin.ext (by omega)
      subst hk
      exact Prod.ext rfl (Fin.ext (Nat.add_left_cancel hplace))
    · have hflat : finProdFinEquiv (k, p) = finProdFinEquiv (k', p') := by
        apply Fin.ext
        simp only [finProdFinEquiv_apply_val]
        rw [Nat.add_comm, Nat.mul_comm, Nat.add_comm (p' : ℕ), Nat.mul_comm d]
        exact hplace
      exact finProdFinEquiv.injective hflat
  constructor
  · intro t
    apply Finset.sum_eq_zero
    intro w hw
    obtain ⟨w', hlt, hplace⟩ := (Finset.mem_filter.mp hw).2.2
    rw [hinj w' w hplace] at hlt
    exact absurd hlt (lt_irrefl _)
  · intro z hz hzero
    have hrow : ∀ k, algebraProduct z (Y k) F = 0 := by
      intro k
      ext p
      have hsum := hzero (place (k, p))
      have hsingle : (Finset.univ.filter fun w : Fin d × Fin c => place w = place (k, p)) = {(k, p)} := by
        ext w
        rw [Finset.mem_filter, Finset.mem_singleton]
        exact ⟨fun h => hinj _ _ h.2, fun h => ⟨Finset.mem_univ _, congrArg place h⟩⟩
      rwa [hsingle, Finset.sum_singleton] at hsum
    have hker : rowSpace Y ≤ LinearMap.ker (productMap F z) := by
      rw [rowSpace, Submodule.span_le]
      rintro _ ⟨k, rfl⟩
      exact hrow k
    have hez := LinearMap.mem_ker.mp (hker he.mem)
    rw [productMap_apply, hcomm, he.product_eq hz] at hez
    exact hez

/-- The product of two pairs of numbers, entry by entry. -/
def pairs : Tensor 2 := fun l m p => if l = m ∧ m = p then 1 else 0

/-- The pairs whose second number is zero. -/
theorem idealIdent_iff_pairs : ∃ solveRight : Solver (2 * 1) 1, IsSolver solveRight ∧
    ∃ z, idealIdent solveRight pairs !![1, 0] = some z ∧ IsIdentity pairs !![1, 0] z := by
  have hcomm : IsCommutative pairs := isCommutative_of_single (by decide)
  have he : IsIdentity pairs !![1, 0] ![1, 0] := by
    have hrow : ∀ k, algebraProduct ![1, 0] ((!![1, 0] : Matrix (Fin 1) (Fin 2) ℚ) k) pairs =
        fun p => (!![1, 0] : Matrix (Fin 1) (Fin 2) ℚ) k p := by
      decide +kernel
    exact ⟨mem_rowSpace.mpr ⟨![1], by decide +kernel⟩, hrow⟩
  obtain ⟨s, hs, -⟩ := exists_solver (zero_mulVec (0 : Vec 1) : (0 : Matrix (Fin (2 * 1)) _ ℚ) *ᵥ _ = 0)
  exact ⟨s, hs, (idealIdent_iff (by omega) hcomm he).mpr (conditions_of_full (Or.inl (le_refl 1)) hcomm he) s
    hs⟩

end Identity

/-! ## Two equations at one index -/

section Failure

/-- The polynomials in `x` with `x^3 = x`, by their coordinates on `1`, `x` and `x^2`. -/
def cubic : Tensor 3 := fun l m p =>
  if (p : ℕ) = if (l : ℕ) + m ≤ 2 then (l : ℕ) + m else l + m - 2 then 1 else 0

/-- The ideal of the polynomials that are zero at one: its reduced basis has two rows. -/
def vanishing : Matrix (Fin 2) (Fin 3) ℚ := !![1, 0, -1; 0, 1, -1]

theorem cubic_laws : IsCommutative cubic ∧ IsAssociative cubic := by
  constructor
  · apply isCommutative_of_single
    decide
  · apply isAssociative_of_single
    intro l m k
    funext p
    revert l m k p
    decide +kernel

/-- The powers of `x` after the first one change the sign of the second row, and take the first to zero. -/
theorem vanishing_isIdeal : IsIdeal cubic (rowSpace vanishing) := by
  have hbasis : ∀ l k, algebraProduct (Pi.single l 1) (vanishing k) cubic =
      changeBasis (![![![1, 0], ![0, 1]], ![![0, 0], ![0, -1]], ![![0, 0], ![0, 1]]] l k) vanishing := by
    intro l k
    funext p
    revert l k p
    decide +kernel
  apply isIdeal_of_single cubic_laws.1
  intro l k
  rw [hbasis]
  exact mem_rowSpace.mpr ⟨_, rfl⟩

/-- The ideal has an identity, and no solver finds it: the system has no solution. -/
theorem idealIdent_vanishing : IsCommutative cubic ∧ IsAssociative cubic ∧ IsIdeal cubic (rowSpace vanishing) ∧
    IsIdentity cubic vanishing ![1, -1 / 2, -1 / 2] ∧
    ∀ solveRight, IsSolver solveRight → idealIdent solveRight cubic vanishing = none := by
  refine ⟨cubic_laws.1, cubic_laws.2, vanishing_isIdeal, ?_, ?_⟩
  · have hrow : ∀ k, algebraProduct ![1, -1 / 2, -1 / 2] (vanishing k) cubic = fun p => vanishing k p := by
      decide +kernel
    exact ⟨mem_rowSpace.mpr ⟨![1, -1 / 2], by decide +kernel⟩, hrow⟩
  · intro s hs
    rw [idealIdent, dif_pos (place_lt (by omega))]
    cases hx : s (identMatrix cubic vanishing (place_lt (by omega)))
        (identVector vanishing (place_lt (by omega))) with
    | none => rfl
    | some x =>
      -- Equation 0 asks for a first coordinate of one, equation 2 for one of zero.
      exfalso
      have hsolves := hs.some hx
      have h0 := congrFun hsolves 0
      have h2 := congrFun hsolves 2
      have hrow0 : identMatrix cubic vanishing (place_lt (by omega)) 0 = ![1, 0] := by decide +kernel
      have hrow2 : identMatrix cubic vanishing (place_lt (by omega)) 2 = ![-1, 0] := by decide +kernel
      have hvec0 : identVector vanishing (place_lt (by omega)) 0 = 1 := by decide +kernel
      have hvec2 : identVector vanishing (place_lt (by omega)) 2 = 0 := by decide +kernel
      rw [mulVec, hrow0, hvec0, dotProduct, Fin.sum_univ_two] at h0
      rw [mulVec, hrow2, hvec2, dotProduct, Fin.sum_univ_two] at h2
      simp only [cons_val_zero, cons_val_one] at h0 h2
      linarith

end Failure

end UnionCollegeCode.Bremner
