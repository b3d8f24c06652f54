import Mathlib.Data.List.NodupEquivFin
import UnionCollegeCode.Bremner.Tensor

/-!
# `QStructs`

`L` are the columns of the leading entries and `M` the others. Modulo the rows of `R` every element is a
combination of the basis elements in `M`, and `QStructs` multiplies these and takes the coordinates of the
product.
-/

set_option autoImplicit false

namespace UnionCollegeCode.Bremner

open Lib.RowReduction Matrix

/-- The `while` loop; `none` is the `IndexError` of a row of zeros. -/
def firstNonzero {n : ℕ} (row : Vec n) : Option (Fin n) := (List.finRange n).find? fun j => row j ≠ 0

/-- The loop that makes `L` and `M`, from row `i` on. -/
def pivotLoop {d n : ℕ} (R : Matrix (Fin d) (Fin n) ℚ) :
    ℕ → ℕ → List (Fin n) → List (Fin n) → Option (List (Fin n) × List (Fin n))
  | 0, _, L, M => some (L, M)
  | left + 1, i, L, M => do
    let j ← if h : i < d then firstNonzero (R ⟨i, h⟩) else none
    if j ∈ M then pivotLoop R left (i + 1) (L ++ [j]) (M.erase j) else none

/-- `S` -/
def sigma {m n r : ℕ} (R : Matrix (Fin m) (Fin n) ℚ) (L : Fin m → Fin n) (M : Fin r → Fin n) :
    Option (Matrix (Fin m) (Fin r) ℚ) :=
  if ∃ i j, M j = L i then none else some fun i j => if M j < L i then 0 else R i (M j)

/-- The loop over `Q[i][j][k]`. -/
def quotientTensor {m n r : ℕ} (C : Tensor n) (L : Fin m → Fin n) (M : Fin r → Fin n)
    (S : Matrix (Fin m) (Fin r) ℚ) : Tensor r :=
  fun i j k => C (M i) (M j) (M k) - ∑ h, C (M i) (M j) (L h) * S h k

def qStructs (sage : Sage) {d n : ℕ} (C : Tensor n) (R : Matrix (Fin d) (Fin n) ℚ) :
    Option (Tensor (n - sage.rank R)) := do
  let r := n - sage.rank R
  let (L, M) ← pivotLoop R (n - r) 0 [] (List.finRange n)
  -- Every round has moved one index from `M` to `L`.
  if h : L.length = n - r ∧ M.length = r ∧ n - r ≤ d then
    let L := fun i => L.get (Fin.cast h.1.symm i)
    let M := fun k => M.get (Fin.cast h.2.1.symm k)
    let S ← sigma (fun i => R (Fin.castLE h.2.2 i)) L M
    return quotientTensor C L M S
  else
    none

/-! ## Coordinates modulo the rows -/

/-- `L` are the columns in which the rows of `R` are those of the unit matrix, and `M` are the others. -/
structure Splits {m n r : ℕ} (R : Matrix (Fin m) (Fin n) ℚ) (L : Fin m → Fin n) (M : Fin r → Fin n) :
    Prop where
  unit : ∀ h h', R h (L h') = if h = h' then 1 else 0
  apart : ∀ h k, M k ≠ L h
  injective : Function.Injective M
  cover : ∀ j, (∃ h, j = L h) ∨ ∃ k, j = M k
  /-- Entries before the leading one. -/
  before : ∀ h k, M k < L h → R h (M k) = 0

section Splits

variable {m n r : ℕ} {C : Tensor n} {R : Matrix (Fin m) (Fin n) ℚ} {L : Fin m → Fin n} {M : Fin r → Fin n}

/-- The coordinates of an element on `M`, modulo the rows of `R`. -/
def residue (R : Matrix (Fin m) (Fin n) ℚ) (L : Fin m → Fin n) (M : Fin r → Fin n) :
    Vec n →ₗ[ℚ] Vec r where
  toFun x := fun k => x (M k) - ∑ h, x (L h) * R h (M k)
  map_add' x y := by
    ext k
    simp only [Pi.add_apply, add_mul, Finset.sum_add_distrib]
    ring
  map_smul' c x := by
    ext k
    simp only [Pi.smul_apply, smul_eq_mul, RingHom.id_apply, mul_sub, Finset.mul_sum, mul_assoc]

theorem residue_apply (x : Vec n) (k : Fin r) :
    residue R L M x k = x (M k) - ∑ h, x (L h) * R h (M k) := rfl

/-- The combination of the basis elements in `M`. -/
def lift (M : Fin r → Fin n) : Vec r →ₗ[ℚ] Vec n := Fintype.linearCombination ℚ fun k => Pi.single (M k) 1

theorem lift_apply (a : Vec r) : lift M a = ∑ k, a k • (Pi.single (M k) 1 : Vec n) :=
  Fintype.linearCombination_apply ..

theorem lift_single (k : Fin r) : lift M (Pi.single k 1) = Pi.single (M k) 1 := by
  rw [lift, Fintype.linearCombination_apply_single, one_smul]

variable (hs : Splits R L M)

include hs

theorem Splits.residue_row (h : Fin m) : residue R L M (R h) = 0 := by
  ext k
  rw [residue_apply, Pi.zero_apply, sub_eq_zero]
  simp only [hs.unit, ite_mul, one_mul, zero_mul]
  rw [Finset.sum_ite_eq Finset.univ, if_pos (Finset.mem_univ h)]

theorem Splits.residue_single (k : Fin r) : residue R L M (Pi.single (M k) 1) = Pi.single k 1 := by
  ext k'
  have hzero : ∀ h, (Pi.single (M k) 1 : Vec n) (L h) = 0 := by
    intro h
    exact Pi.single_eq_of_ne (hs.apart h k).symm _
  rw [residue_apply]
  simp only [hzero, zero_mul, Finset.sum_const_zero, sub_zero]
  by_cases hk : k' = k
  · rw [hk, Pi.single_eq_same, Pi.single_eq_same]
  · rw [Pi.single_eq_of_ne hk, Pi.single_eq_of_ne fun h => hk (hs.injective h)]

theorem Splits.residue_lift (a : Vec r) : residue R L M (lift M a) = a := by
  have hmaps : residue R L M ∘ₗ lift M = LinearMap.id := by
    apply LinearMap.pi_ext'
    intro k
    ext k'
    simp [lift_single, hs.residue_single]
  exact congrArg (fun f => f a) hmaps

/-- An element is its coordinates on `M` and a combination of the rows. -/
theorem Splits.eq_lift_add (x : Vec n) :
    x - lift M (residue R L M x) = ∑ h, x (L h) • R h := by
  ext j
  rw [Pi.sub_apply, lift_apply, Finset.sum_apply, Finset.sum_apply]
  rcases hs.cover j with ⟨h', rfl⟩ | ⟨k', rfl⟩
  · have hzero : ∀ k, (residue R L M x k • (Pi.single (M k) 1 : Vec n)) (L h') = 0 := by
      intro k
      rw [Pi.smul_apply, Pi.single_eq_of_ne (hs.apart h' k).symm, smul_zero]
    simp only [hzero, Finset.sum_const_zero, sub_zero, Pi.smul_apply, hs.unit, smul_eq_mul, mul_ite, mul_one,
      mul_zero]
    rw [Finset.sum_ite_eq' Finset.univ, if_pos (Finset.mem_univ h')]
  · have hone : ∀ k, (residue R L M x k • (Pi.single (M k) 1 : Vec n)) (M k') =
        if k = k' then residue R L M x k' else 0 := by
      intro k
      by_cases hk : k = k'
      · rw [if_pos hk, hk, Pi.smul_apply, Pi.single_eq_same, smul_eq_mul, mul_one]
      · rw [if_neg hk, Pi.smul_apply, Pi.single_eq_of_ne fun h => hk (hs.injective h).symm, smul_zero]
    simp only [hone]
    rw [Finset.sum_ite_eq' Finset.univ, if_pos (Finset.mem_univ k'), residue_apply, sub_sub_cancel]
    rfl

theorem Splits.sub_lift_mem (x : Vec n) : x - lift M (residue R L M x) ∈ rowSpace R := by
  rw [hs.eq_lift_add]
  exact Submodule.sum_mem _ fun h _ => Submodule.smul_mem _ _ (Submodule.subset_span ⟨h, rfl⟩)

theorem Splits.ker_residue : LinearMap.ker (residue R L M) = rowSpace R := by
  apply le_antisymm
  · intro x hx
    have hmem := hs.sub_lift_mem x
    rwa [LinearMap.mem_ker.mp hx, map_zero, sub_zero] at hmem
  · rw [rowSpace, Submodule.span_le]
    rintro _ ⟨h, rfl⟩
    exact hs.residue_row h

/-- **The residues multiply as the elements do.** -/
theorem Splits.residue_product {Q : Tensor r} (hideal : IsIdeal C (rowSpace R))
    (hQ : ∀ i j, Q i j = residue R L M (C (M i) (M j))) (x y : Vec n) :
    residue R L M (algebraProduct x y C) = algebraProduct (residue R L M x) (residue R L M y) Q := by
  have hker : ∀ z ∈ rowSpace R, residue R L M z = 0 := by
    intro z hz
    rwa [← hs.ker_residue] at hz
  have hlift : ∀ a b, residue R L M (algebraProduct (lift M a) (lift M b) C) = algebraProduct a b Q := by
    intro a b
    have hmaps : ((productMap C).compl₁₂ (lift M) (lift M)).compr₂ (residue R L M) = productMap Q := by
      apply LinearMap.ext_basis (Pi.basisFun ℚ (Fin r)) (Pi.basisFun ℚ (Fin r))
      intro i j
      simp only [Pi.basisFun_apply, LinearMap.compr₂_apply, LinearMap.compl₁₂_apply, productMap_apply,
        lift_single, algebraProduct_single, hQ]
    exact congrArg (fun f => f a b) hmaps
  obtain ⟨x', hx', hx⟩ : ∃ x' ∈ rowSpace R, x = lift M (residue R L M x) + x' :=
    ⟨_, hs.sub_lift_mem x, (add_sub_cancel _ _).symm⟩
  obtain ⟨y', hy', hy⟩ : ∃ y' ∈ rowSpace R, y = lift M (residue R L M y) + y' :=
    ⟨_, hs.sub_lift_mem y, (add_sub_cancel _ _).symm⟩
  have hright := hker _ (hideal y' hy' (lift M (residue R L M x))).1
  have hleft := hker _ (hideal x' hx' y).2
  rw [← hlift]
  nth_rewrite 1 [hx]
  rw [algebraProduct_add_left, map_add, hleft, add_zero]
  nth_rewrite 1 [hy]
  rw [algebraProduct_add_right, map_add, hright, add_zero]

end Splits

/-! ## The lists `L` and `M` -/

section Pivots

variable {d m n r : ℕ} {C : Tensor n} {R : Matrix (Fin d) (Fin n) ℚ}

theorem firstNonzero_of_isLeadingEntry {i : Fin d} {j : Fin n} (h : R.IsLeadingEntry i j) :
    firstNonzero (R i) = some j := by
  rw [firstNonzero, List.find?_eq_some_iff_getElem]
  refine ⟨by simpa using h.2, j, by simp, by simp, ?_⟩
  intro k hk
  simp only [List.getElem_finRange, Bool.not_eq_true', decide_eq_false_iff_not, not_not]
  exact h.1 _ hk

theorem pivotLoop_eq (qs : List (Fin n)) : ∀ (i : ℕ) (L M : List (Fin n)),
    (∀ t (ht : t < qs.length), ∃ h : i + t < d, firstNonzero (R ⟨i + t, h⟩) = some qs[t]) →
    qs.Nodup → qs ⊆ M → pivotLoop R qs.length i L M = some (L ++ qs, M.diff qs) := by
  induction qs with
  | nil =>
    intro i L M _ _ _
    rw [List.length_nil, pivotLoop, List.append_nil, List.diff_nil]
  | cons q qs ih =>
    intro i L M hrows hnodup hsub
    obtain ⟨hi, hfirst⟩ : ∃ hi : i < d, firstNonzero (R ⟨i, hi⟩) = some q := hrows 0 (Nat.zero_lt_succ _)
    rw [List.nodup_cons] at hnodup
    have hstep : pivotLoop R (q :: qs).length i L M =
        pivotLoop R qs.length (i + 1) (L ++ [q]) (M.erase q) := by
      rw [List.length_cons, pivotLoop, dif_pos hi, hfirst]
      exact if_pos (hsub List.mem_cons_self)
    rw [hstep, ih (i + 1) (L ++ [q]) (M.erase q) ?_ hnodup.2 ?_, List.append_assoc, List.diff_cons]
    · rfl
    · intro t ht
      obtain ⟨h, hrow⟩ := hrows (t + 1) (Nat.succ_lt_succ ht)
      have hsum : i + 1 + t = i + (t + 1) := by omega
      refine ⟨hsum ▸ h, ?_⟩
      simp only [hsum]
      exact hrow
    · intro a ha
      have hne : a ≠ q := by
        rintro rfl
        exact hnodup.1 ha
      exact (List.mem_erase_of_ne hne).mpr (hsub (List.mem_cons_of_mem _ ha))

/-- The columns of the leading entries. -/
theorem exists_pivots (hR : R.IsReducedRowEchelon) (hind : LinearIndependent ℚ R) :
    ∃ p : Fin d → Fin n, StrictMono p ∧ ∀ i, R.IsLeadingEntry i (p i) := by
  have hlead : ∀ i, ∃ j, R.IsLeadingEntry i j := by
    intro i
    exact row_ne_zero_iff_exists_isLeadingEntry.mp (hind.ne_zero i)
  choose p hp using hlead
  refine ⟨p, ?_, hp⟩
  intro i i' hii
  by_contra hle
  apply (hp i').2
  apply hR.isRowEchelon hii
  intro j hj
  exact (hp i).1 j (hj.trans_le (not_lt.mp hle))

theorem sigma_eq {R : Matrix (Fin m) (Fin n) ℚ} {L : Fin m → Fin n} {M : Fin r → Fin n}
    (hs : Splits R L M) : sigma R L M = some fun h k => R h (M k) := by
  rw [sigma, if_neg]
  · congr 1
    ext h k
    by_cases hlt : M k < L h
    · rw [if_pos hlt, hs.before h k hlt]
    · rw [if_neg hlt]
  · rintro ⟨h, k, hkh⟩
    exact hs.apart h k hkh

theorem quotientTensor_eq {R : Matrix (Fin m) (Fin n) ℚ} {L : Fin m → Fin n} {M : Fin r → Fin n}
    (i j : Fin r) :
    quotientTensor C L M (fun h k => R h (M k)) i j = residue R L M (C (M i) (M j)) := rfl

/-- The columns that `p` does not hit, in order. -/
def others (p : Fin d → Fin n) : List (Fin n) := (List.finRange n).diff (List.ofFn p)

theorem ofFn_append_others {p : Fin d → Fin n} (hp : Function.Injective p) :
    (List.ofFn p ++ others p).Perm (List.finRange n) := by
  apply List.subperm_append_diff_self_of_count_le
  exact List.subperm_ext_iff.mp (List.subperm_of_subset (List.nodup_ofFn.mpr hp) fun j _ => List.mem_finRange j)

theorem length_others {p : Fin d → Fin n} (hp : Function.Injective p) : (others p).length = n - d := by
  have hsum := (ofFn_append_others hp).length_eq
  rw [List.length_append, List.length_ofFn, List.length_finRange] at hsum
  omega

theorem mem_others {p : Fin d → Fin n} (hp : Function.Injective p) {j : Fin n} :
    j ∈ others p ↔ ∀ i, p i ≠ j := by
  have hall := (ofFn_append_others hp).nodup_iff.mpr (List.nodup_finRange n)
  constructor
  · rintro hj i rfl
    exact (List.nodup_append.mp hall).2.2 _ (List.mem_ofFn.mpr ⟨i, rfl⟩) _ hj rfl
  · intro hne
    have hj := (ofFn_append_others hp).mem_iff.mpr (List.mem_finRange j)
    rcases List.mem_append.mp hj with hj | hj
    · obtain ⟨i, hi⟩ := List.mem_ofFn.mp hj
      exact absurd hi (hne i)
    · exact hj

theorem others_pairwise (p : Fin d → Fin n) : (others p).Pairwise (· < ·) :=
  (List.pairwise_lt_finRange n).sublist (List.diff_sublist _ _)

/-- The loop takes the leading columns out. -/
theorem pivotLoop_pivots {p : Fin d → Fin n} (hp : Function.Injective p) (hlead : ∀ i, R.IsLeadingEntry i (p i)) :
    pivotLoop R d 0 [] (List.finRange n) = some (List.ofFn p, others p) := by
  have hloop := pivotLoop_eq (R := R) (List.ofFn p) 0 [] (List.finRange n) ?_ (List.nodup_ofFn.mpr hp)
    fun j _ => List.mem_finRange j
  · rwa [List.length_ofFn] at hloop
  · intro t ht
    have htd : t < d := by rwa [List.length_ofFn] at ht
    refine ⟨by rwa [Nat.zero_add], ?_⟩
    simp only [Nat.zero_add, List.getElem_ofFn]
    exact firstNonzero_of_isLeadingEntry (hlead ⟨t, htd⟩)

theorem splits_pivots {p : Fin d → Fin n} (hR : R.IsReducedRowEchelon) (hlead : ∀ i, R.IsLeadingEntry i (p i))
    {M : Fin r → Fin n} (hM : StrictMono M) (hmem : ∀ j, (∃ k, j = M k) ↔ ∀ i, p i ≠ j) : Splits R p M where
  unit h h' := by
    rw [column_of_isLeadingEntry hR (hlead h')]
  apart h k heq := (hmem (M k)).mp ⟨k, rfl⟩ h heq.symm
  injective := hM.injective
  cover j := by
    by_cases hj : ∃ h, j = p h
    · exact Or.inl hj
    · right
      apply (hmem j).mpr
      intro i hi
      exact hj ⟨i, hi.symm⟩
  before h k hlt := (hlead h).1 _ hlt

theorem Splits.cast {L : Fin d → Fin n} {M : Fin r → Fin n} (hs : Splits R L M) {m : ℕ} (h : m = d) :
    Splits (fun i : Fin m => R (Fin.cast h i)) (fun i => L (Fin.cast h i)) M := by
  subst h
  exact hs

/-- The lists that the loop makes are the leading columns and the others. -/
theorem exists_splits (sage : Sage) (hR : R.IsReducedRowEchelon) (hind : LinearIndependent ℚ R) :
    ∃ (L M : List (Fin n)) (hL : L.length = n - (n - sage.rank R)) (hM : M.length = n - sage.rank R)
      (hd : n - (n - sage.rank R) ≤ d),
      pivotLoop R (n - (n - sage.rank R)) 0 [] (List.finRange n) = some (L, M) ∧
      Splits (fun i => R (Fin.castLE hd i)) (fun i => L.get (Fin.cast hL.symm i))
        (fun k => M.get (Fin.cast hM.symm k)) ∧
      rowSpace (fun i => R (Fin.castLE hd i)) = rowSpace R ∧
      StrictMono (fun k => M.get (Fin.cast hM.symm k)) ∧
      ∀ j, (∃ k, j = M.get (Fin.cast hM.symm k)) ↔ ∀ i, ¬ R.IsLeadingEntry i j := by
  obtain ⟨p, hmono, hlead⟩ := exists_pivots hR hind
  have hp := hmono.injective
  have hrank : sage.rank R = d := by
    rw [sage.rank_eq, hind.rank_matrix, Fintype.card_fin]
  -- The code counts the leading columns as what the others leave of `n`.
  have hd : n - (n - sage.rank R) = d := by
    have hcard := hind.fintype_card_le_finrank
    rw [Fintype.card_fin, Module.finrank_fin_fun] at hcard
    rw [hrank, Nat.sub_sub_self hcard]
  have hL : (List.ofFn p).length = n - (n - sage.rank R) := List.length_ofFn.trans hd.symm
  have hM : (others p).length = n - sage.rank R := (length_others hp).trans (by rw [hrank])
  have hMmono : StrictMono fun k => (others p).get (Fin.cast hM.symm k) := by
    intro k k' hkk
    exact List.pairwise_iff_get.mp (others_pairwise p) _ _ hkk
  have hmem : ∀ j, (∃ k, j = (others p).get (Fin.cast hM.symm k)) ↔ ∀ i, p i ≠ j := by
    intro j
    rw [← mem_others hp, List.mem_iff_get]
    constructor
    · rintro ⟨k, rfl⟩
      exact ⟨_, rfl⟩
    · rintro ⟨k, rfl⟩
      exact ⟨Fin.cast hM k, rfl⟩
  refine ⟨List.ofFn p, others p, hL, hM, hd.le, ?_, ?_, ?_, hMmono, ?_⟩
  · rw [hd]
    exact pivotLoop_pivots hp hlead
  · have hsplits := (splits_pivots hR hlead hMmono hmem).cast hd
    have hget : (fun i => (List.ofFn p).get (Fin.cast hL.symm i)) = fun i => p (Fin.cast hd i) := by
      funext i
      exact List.get_ofFn p _
    rw [hget]
    exact hsplits
  · have hrange : (Set.range fun i => R (Fin.castLE hd.le i)) = Set.range R := by
      ext v
      constructor
      · rintro ⟨i, rfl⟩
        exact ⟨_, rfl⟩
      · rintro ⟨i, rfl⟩
        exact ⟨Fin.cast hd.symm i, rfl⟩
    exact congrArg (Submodule.span ℚ) hrange
  · intro j
    rw [hmem]
    constructor
    · intro hne i hi
      exact hne i ((hlead i).unique hi)
    · rintro hnone i rfl
      exact hnone i (hlead i)

end Pivots

/-- **`QStructs` is the quotient algebra.** -/
theorem qStructs_quotient (sage : Sage) {d n : ℕ} {C : Tensor n} {R : Matrix (Fin d) (Fin n) ℚ}
    (hassoc : IsAssociative C) (hR : R.IsReducedRowEchelon) (hind : LinearIndependent ℚ R)
    (hideal : IsIdeal C (rowSpace R)) :
    ∃ Q, qStructs sage C R = some Q ∧
      ∃ (M : Fin (n - sage.rank R) → Fin n) (φ : Vec n →ₗ[ℚ] Vec (n - sage.rank R)),
        StrictMono M ∧ (∀ j, (∃ k, j = M k) ↔ ∀ i, ¬ R.IsLeadingEntry i j) ∧
        (∀ x, x - ∑ k, φ x k • (Pi.single (M k) 1 : Vec n) ∈ rowSpace R) ∧
        Function.Surjective φ ∧ LinearMap.ker φ = rowSpace R ∧
        (∀ x y, φ (algebraProduct x y C) = algebraProduct (φ x) (φ y) Q) ∧ IsAssociative Q := by
  obtain ⟨L, M, hL, hM, hd, hloop, hs, hspace, hmono, hnonpivot⟩ := exists_splits sage hR hind
  obtain ⟨Q, hQ⟩ : ∃ Q, qStructs sage C R = some Q := by
    rw [qStructs]
    simp only [hloop, Option.bind_eq_bind, Option.bind_some, dif_pos (And.intro hL (And.intro hM hd)),
      sigma_eq hs]
    exact ⟨_, rfl⟩
  have hentry : ∀ i j, Q i j = residue (fun i => R (Fin.castLE hd i)) (fun i => L.get (Fin.cast hL.symm i))
      (fun k => M.get (Fin.cast hM.symm k)) (C (M.get (Fin.cast hM.symm i)) (M.get (Fin.cast hM.symm j))) := by
    rw [qStructs] at hQ
    simp only [hloop, Option.bind_eq_bind, Option.bind_some, dif_pos (And.intro hL (And.intro hM hd)),
      sigma_eq hs] at hQ
    rw [← Option.some.inj hQ]
    exact fun i j => quotientTensor_eq i j
  rw [← hspace] at hideal ⊢
  have hproduct := hs.residue_product hideal hentry
  have hsurjective : Function.Surjective _ := fun a => ⟨_, hs.residue_lift a⟩
  refine ⟨Q, hQ, _, _, hmono, hnonpivot, ?_, hsurjective, hs.ker_residue, hproduct, ?_⟩
  · intro x
    rw [← lift_apply]
    exact hs.sub_lift_mem x
  · intro a b c
    obtain ⟨x, rfl⟩ := hsurjective a
    obtain ⟨y, rfl⟩ := hsurjective b
    obtain ⟨z, rfl⟩ := hsurjective c
    rw [← hproduct, ← hproduct, ← hproduct, ← hproduct, hassoc]

/-- The dual numbers modulo the multiples of `x`. -/
theorem qStructs_quotient_dualNumbers :
    ∃ Q, qStructs gaussJordan dualNumbers !![0, 1] = some Q ∧ IsAssociative Q := by
  have hR : (!![0, 1] : Matrix (Fin 1) (Fin 2) ℚ).IsReducedRowEchelon := by
    constructor
    · intro i i' hii
      exact absurd hii (by rw [Subsingleton.elim i i']; exact lt_irrefl i')
    · have hone : ∀ c, (![0, 1] : Vec 2) c ≠ 0 → (![0, 1] : Vec 2) c = 1 := by decide +kernel
      intro i c hc
      rw [Subsingleton.elim i 0] at hc ⊢
      exact hone c hc.2
    · intro i i' c hii
      exact absurd hii (by rw [Subsingleton.elim i i']; exact lt_irrefl i')
  have hind : LinearIndependent ℚ (!![0, 1] : Matrix (Fin 1) (Fin 2) ℚ) :=
    LinearIndependent.of_subsingleton 0 (by decide +kernel)
  obtain ⟨Q, hQ, -, -, -, -, -, -, -, -, hassoc⟩ :=
    qStructs_quotient gaussJordan dualNumbers_isAssociative hR hind dualNumbers_isIdeal
  exact ⟨Q, hQ, hassoc⟩

end UnionCollegeCode.Bremner
