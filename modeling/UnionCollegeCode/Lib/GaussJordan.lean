import UnionCollegeCode.Lib.RowReduction

/-!
# Gauss-Jordan elimination

`rowReduce` goes through the columns from the left. A row that is not zero in the first column is scaled
and taken from the other rows, what is left of these is reduced without the column, and the row is then
cleared in the columns of their leading entries. The rows of zeros are left out.

The rest is read off: the rank is the number of rows, the columns without a leading entry give a basis of
the kernel, and a system is solved by a vector of the kernel of the augmented matrix.
-/

set_option autoImplicit false

namespace Lib.RowReduction

open Matrix Module

/-- The nonzero rows of a reduced matrix, each with the column of its leading entry. -/
abbrev Rows (K : Type*) (n : ℕ) := List (Fin n × (Fin n → K))

variable {K : Type*} [Field K] {m n r : ℕ}

section Algorithm

/-- The rows with a column of zeros before them. -/
def shift (qs : Rows K n) : Rows K (n + 1) := qs.map fun q => (q.1.succ, vecCons 0 q.2)

def clear (qs : Rows K n) (p : Fin n → K) : Fin n → K :=
  p - ∑ h : Fin qs.length, p (qs.get h).1 • (qs.get h).2

variable [DecidableEq K]

def rowReduce : (n : ℕ) → List (Fin n → K) → Rows K n
  | 0, _ => []
  | n + 1, vs =>
    match vs.find? fun v => v 0 ≠ 0 with
    | none => shift (rowReduce n (vs.map vecTail))
    | some v =>
      let p := (v 0)⁻¹ • v
      let rest := shift (rowReduce n (vs.map fun w => vecTail (w - w 0 • p)))
      (0, clear rest p) :: rest

end Algorithm

/-- The reduced matrix, with rows of zeros below. -/
def padded (m : ℕ) (qs : Rows K n) : Matrix (Fin m) (Fin n) K :=
  fun i => if h : i < qs.length then (qs.get ⟨i, h⟩).2 else 0

def rowVectors (qs : Rows K n) : List (Fin n → K) := List.ofFn fun h => (qs.get h).2

/-- The columns without a leading entry. -/
def freeColumns (qs : Rows K n) : List (Fin n) := (List.finRange n).filter fun j => ∀ h, (qs.get h).1 ≠ j

/-- The vector of the kernel that is one in a free column and zero in the others. -/
def kernelVector (qs : Rows K n) (j : Fin n) : Fin n → K :=
  Pi.single j 1 - ∑ h : Fin qs.length, (qs.get h).2 j • Pi.single (qs.get h).1 1

def kernelVectors (qs : Rows K n) : List (Fin n → K) :=
  List.ofFn fun k => kernelVector qs ((freeColumns qs).get k)

/-! ## Reduced rows -/

structure IsReduced (qs : Rows K n) : Prop where
  lead : ∀ q ∈ qs, q.2 q.1 = 1
  before : ∀ q ∈ qs, ∀ j < q.1, q.2 j = 0
  sorted : qs.Pairwise fun q q' => q.1 < q'.1 ∧ q.2 q'.1 = 0

section Reduced

variable {qs : Rows K n} {vs : List (Fin n → K)} {p : Fin n → K} {W : Submodule K (Fin n → K)}

/-- The rows are those of the unit matrix in the columns of the leading entries. -/
theorem IsReduced.unit (hqs : IsReduced qs) (h h' : Fin qs.length) :
    (qs.get h).2 (qs.get h').1 = if h = h' then 1 else 0 := by
  rcases lt_trichotomy h h' with hlt | rfl | hlt
  · rw [if_neg hlt.ne]
    exact (List.pairwise_iff_get.mp hqs.sorted h h' hlt).2
  · rw [if_pos rfl]
    exact hqs.lead _ (qs.get_mem h)
  · rw [if_neg hlt.ne']
    exact hqs.before _ (qs.get_mem h) _ (List.pairwise_iff_get.mp hqs.sorted h' h hlt).1

theorem isReduced_shift (hqs : IsReduced qs) : IsReduced (shift qs) where
  lead := by
    intro _ hshifted
    obtain ⟨q, hq, rfl⟩ := List.mem_map.mp hshifted
    exact hqs.lead q hq
  before := by
    intro _ hshifted j hj
    obtain ⟨q, hq, rfl⟩ := List.mem_map.mp hshifted
    cases j using Fin.cases with
    | zero => rfl
    | succ j => exact hqs.before q hq j (Fin.succ_lt_succ_iff.mp hj)
  sorted := by
    apply List.pairwise_map.mpr
    apply hqs.sorted.imp
    intro q q' hqq
    exact ⟨Fin.succ_lt_succ_iff.mpr hqq.1, hqq.2⟩

theorem IsReduced.clear_lead (hqs : IsReduced qs) (h : Fin qs.length) : clear qs p (qs.get h).1 = 0 := by
  rw [clear, Pi.sub_apply, Finset.sum_apply, sub_eq_zero]
  simp only [Pi.smul_apply, hqs.unit, smul_eq_mul, mul_ite, mul_one, mul_zero]
  rw [Finset.sum_ite_eq' Finset.univ, if_pos (Finset.mem_univ h)]

theorem clear_of_zero {j : Fin n} (hzero : ∀ q ∈ qs, q.2 j = 0) : clear qs p j = p j := by
  rw [clear, Pi.sub_apply, Finset.sum_apply, Finset.sum_eq_zero, sub_zero]
  intro h _
  rw [Pi.smul_apply, hzero _ (qs.get_mem h), smul_zero]

/-- A row that is cleared stands above the rows that it is cleared by. -/
theorem IsReduced.cons_clear (hqs : IsReduced qs) {p : Fin (n + 1) → K} (hp : p 0 = 1) :
    IsReduced ((0, clear (shift qs) p) :: shift qs) where
  lead := by
    intro q hq
    rcases List.mem_cons.mp hq with rfl | hq
    · refine (clear_of_zero ?_).trans hp
      intro q hq
      obtain ⟨q, -, rfl⟩ := List.mem_map.mp hq
      rfl
    · exact (isReduced_shift hqs).lead q hq
  before := by
    intro q hq
    rcases List.mem_cons.mp hq with rfl | hq
    · intro j hj
      exact absurd hj (Fin.not_lt_zero j)
    · exact (isReduced_shift hqs).before q hq
  sorted := by
    apply List.Pairwise.cons _ (isReduced_shift hqs).sorted
    intro q hq
    obtain ⟨h, rfl⟩ := List.mem_iff_get.mp hq
    refine ⟨?_, (isReduced_shift hqs).clear_lead h⟩
    obtain ⟨q, -, hq⟩ := List.mem_map.mp hq
    rw [← hq]
    exact Fin.succ_pos q.1

theorem rowReduce_isReduced [DecidableEq K] : ∀ {n : ℕ} (vs : List (Fin n → K)), IsReduced (rowReduce n vs)
  | 0, _ => ⟨by simp [rowReduce], by simp [rowReduce], List.Pairwise.nil⟩
  | n + 1, vs => by
    rw [rowReduce]
    split
    case h_1 => exact isReduced_shift (rowReduce_isReduced _)
    case h_2 v hv =>
      apply (rowReduce_isReduced _).cons_clear
      have hne : v 0 ≠ 0 := by simpa using List.find?_some hv
      rw [Pi.smul_apply, smul_eq_mul, inv_mul_cancel₀ hne]

end Reduced

/-! ## The row space -/

section Span

variable {qs : Rows K n} {vs : List (Fin n → K)} {p : Fin n → K}

def rowsSpan (qs : Rows K n) : Submodule K (Fin n → K) := Submodule.span K {v | ∃ q ∈ qs, q.2 = v}

def consZero : (Fin n → K) →ₗ[K] Fin (n + 1) → K where
  toFun v := vecCons 0 v
  map_add' v w := by rw [cons_add_cons, add_zero]
  map_smul' c v := by rw [smul_cons, smul_zero, RingHom.id_apply]

theorem rowsSpan_shift : rowsSpan (shift qs) = (rowsSpan qs).map consZero := by
  rw [rowsSpan, rowsSpan, Submodule.map_span]
  congr 1
  ext v
  constructor
  · rintro ⟨_, hshifted, rfl⟩
    obtain ⟨q, hq, rfl⟩ := List.mem_map.mp hshifted
    exact ⟨q.2, ⟨q, hq, rfl⟩, rfl⟩
  · rintro ⟨_, ⟨q, hq, rfl⟩, rfl⟩
    exact ⟨_, List.mem_map_of_mem hq, rfl⟩

/-- The first column is of zeros, so it may be left out. -/
theorem span_map_vecTail {ws : List (Fin (n + 1) → K)} (hzero : ∀ w ∈ ws, w 0 = 0) :
    (Submodule.span K {v | v ∈ ws.map vecTail}).map consZero = Submodule.span K {v | v ∈ ws} := by
  have hcons : ∀ w ∈ ws, consZero (vecTail w) = w := by
    intro w hw
    change vecCons 0 (vecTail w) = w
    rw [← hzero w hw]
    exact cons_head_tail w
  rw [Submodule.map_span]
  congr 1
  ext v
  constructor
  · rintro ⟨_, hv, rfl⟩
    obtain ⟨w, hw, rfl⟩ := List.mem_map.mp hv
    rw [hcons w hw]
    exact hw
  · intro hv
    exact ⟨vecTail v, List.mem_map_of_mem hv, hcons v hv⟩

theorem clear_sub_mem : p - clear qs p ∈ rowsSpan qs := by
  rw [clear, sub_sub_cancel]
  apply Submodule.sum_mem
  intro h _
  exact Submodule.smul_mem _ _ (Submodule.subset_span ⟨_, qs.get_mem h, rfl⟩)

theorem rowsSpan_cons_clear (i : Fin n) :
    rowsSpan ((i, clear qs p) :: qs) = Submodule.span K {p} ⊔ rowsSpan qs := by
  have hset : {v | ∃ q ∈ (i, clear qs p) :: qs, q.2 = v} = insert (clear qs p) {v | ∃ q ∈ qs, q.2 = v} := by
    ext v
    simp [eq_comm]
  rw [rowsSpan, hset, Submodule.span_insert]
  change Submodule.span K {clear qs p} ⊔ rowsSpan qs = _
  apply le_antisymm
  · apply sup_le _ le_sup_right
    rw [Submodule.span_singleton_le_iff_mem, ← sub_sub_cancel p (clear qs p)]
    apply Submodule.sub_mem
    · exact Submodule.mem_sup_left (Submodule.mem_span_singleton_self p)
    · exact Submodule.mem_sup_right clear_sub_mem
  · apply sup_le _ le_sup_right
    have hsum : clear qs p + (p - clear qs p) ∈ Submodule.span K {clear qs p} ⊔ rowsSpan qs :=
      Submodule.add_mem_sup (Submodule.mem_span_singleton_self _) clear_sub_mem
    rwa [add_sub_cancel, ← Submodule.span_singleton_le_iff_mem] at hsum

/-- Multiples of `p` may be taken from the other rows. -/
theorem span_singleton_sup_map_sub {f : (Fin n → K) → K} (hp : p ∈ Submodule.span K {v | v ∈ vs}) :
    Submodule.span K {p} ⊔ Submodule.span K {v | v ∈ vs.map fun w => w - f w • p} =
      Submodule.span K {v | v ∈ vs} := by
  apply le_antisymm
  · apply sup_le
    · rwa [Submodule.span_singleton_le_iff_mem]
    · rw [Submodule.span_le]
      intro v hv
      obtain ⟨w, hw, rfl⟩ := List.mem_map.mp hv
      exact Submodule.sub_mem _ (Submodule.subset_span hw) (Submodule.smul_mem _ _ hp)
  · rw [Submodule.span_le]
    intro w hw
    rw [SetLike.mem_coe, ← sub_add_cancel w (f w • p)]
    apply Submodule.add_mem
    · exact Submodule.mem_sup_right (Submodule.subset_span (List.mem_map.mpr ⟨w, hw, rfl⟩))
    · exact Submodule.mem_sup_left (Submodule.smul_mem _ _ (Submodule.mem_span_singleton_self p))

/-- **The rows keep their span.** -/
theorem rowsSpan_rowReduce [DecidableEq K] : ∀ {n : ℕ} (vs : List (Fin n → K)),
    rowsSpan (rowReduce n vs) = Submodule.span K {v | v ∈ vs}
  | 0, _ => Subsingleton.elim _ _
  | n + 1, vs => by
    rw [rowReduce]
    split
    case h_1 hnone =>
      rw [rowsSpan_shift, rowsSpan_rowReduce, span_map_vecTail]
      intro w hw
      simpa using List.find?_eq_none.mp hnone w hw
    case h_2 v hv =>
      have hne : v 0 ≠ 0 := by simpa using List.find?_some hv
      have hone : ((v 0)⁻¹ • v) 0 = 1 := by rw [Pi.smul_apply, smul_eq_mul, inv_mul_cancel₀ hne]
      have hmem : (v 0)⁻¹ • v ∈ Submodule.span K {v | v ∈ vs} :=
        Submodule.smul_mem _ _ (Submodule.subset_span (List.mem_of_find?_eq_some hv))
      generalize (v 0)⁻¹ • v = p at hone hmem
      have htails : vs.map (fun w => vecTail (w - w 0 • p)) = (vs.map fun w => w - w 0 • p).map vecTail := by
        rw [List.map_map]
        rfl
      rw [rowsSpan_cons_clear, rowsSpan_shift, rowsSpan_rowReduce, htails, span_map_vecTail,
        span_singleton_sup_map_sub hmem]
      intro _ hw
      obtain ⟨w, -, rfl⟩ := List.mem_map.mp hw
      rw [Pi.sub_apply, Pi.smul_apply, hone, smul_eq_mul, mul_one, sub_self]

end Span

/-! ## Bases and matrices -/

section Bases

variable {W : Submodule K (Fin n → K)} {f : Fin r → Fin n → K} {c : Fin r → Fin n}

/-- Vectors that are those of the unit matrix in some of the columns, of a space that is told by these
columns, are a basis of it. -/
theorem isBasisOf_of_unit (hunit : ∀ k k', f k (c k') = if k = k' then 1 else 0) (hmem : ∀ k, f k ∈ W)
    (hzero : ∀ x ∈ W, (∀ k, x (c k) = 0) → x = 0) : IsBasisOf (List.ofFn f) W := by
  have hsum : ∀ (a : Fin r → K) k', (∑ k, a k • f k) (c k') = a k' := by
    intro a k'
    rw [Finset.sum_apply]
    simp only [Pi.smul_apply, hunit, smul_eq_mul, mul_ite, mul_one, mul_zero]
    rw [Finset.sum_ite_eq' Finset.univ, if_pos (Finset.mem_univ k')]
  have hind : LinearIndependent K f := by
    rw [Fintype.linearIndependent_iff]
    intro a ha k
    rw [← hsum a k, ha, Pi.zero_apply]
  have hspan : Submodule.span K (Set.range f) = W := by
    apply le_antisymm
    · rw [Submodule.span_le]
      rintro _ ⟨k, rfl⟩
      exact hmem k
    · intro x hx
      have hcomb : ∑ k, x (c k) • f k ∈ Submodule.span K (Set.range f) :=
        Submodule.sum_mem _ fun k _ => Submodule.smul_mem _ _ (Submodule.subset_span ⟨k, rfl⟩)
      have hrest : x - ∑ k, x (c k) • f k = 0 := by
        apply hzero
        · exact Submodule.sub_mem _ hx (Submodule.sum_mem _ fun k _ => Submodule.smul_mem _ _ (hmem k))
        · intro k
          rw [Pi.sub_apply, hsum, sub_self]
      rwa [sub_eq_zero.mp hrest]
  rw [← hspan]
  exact isBasisOf_ofFn hind

variable {qs : Rows K n} {v : Fin n → K}

theorem rowsSpan_eq : rowsSpan qs = Submodule.span K (Set.range fun h => (qs.get h).2) := by
  rw [rowsSpan]
  congr 1
  ext v
  constructor
  · rintro ⟨q, hq, rfl⟩
    obtain ⟨h, rfl⟩ := List.mem_iff_get.mp hq
    exact ⟨h, rfl⟩
  · rintro ⟨h, rfl⟩
    exact ⟨_, qs.get_mem h, rfl⟩

theorem IsReduced.rowVectors_isBasisOf (hqs : IsReduced qs) : IsBasisOf (rowVectors qs) (rowsSpan qs) := by
  apply isBasisOf_of_unit hqs.unit
  · intro h
    exact Submodule.subset_span ⟨_, qs.get_mem h, rfl⟩
  · intro x hx hzero
    rw [rowsSpan_eq, Submodule.mem_span_range_iff_exists_fun] at hx
    obtain ⟨a, rfl⟩ := hx
    have ha : ∀ h, a h = 0 := by
      intro h
      rw [← hzero h, Finset.sum_apply]
      simp only [Pi.smul_apply, hqs.unit, smul_eq_mul, mul_ite, mul_one, mul_zero]
      rw [Finset.sum_ite_eq' Finset.univ, if_pos (Finset.mem_univ h)]
    simp only [ha, zero_smul, Finset.sum_const_zero]

omit [Field K] in
theorem mem_freeColumns {j : Fin n} : j ∈ freeColumns qs ↔ ∀ h, (qs.get h).1 ≠ j := by
  rw [freeColumns, List.mem_filter, decide_eq_true_eq]
  exact and_iff_right (List.mem_finRange j)

theorem kernelVector_free {j j' : Fin n} (hj' : j' ∈ freeColumns qs) :
    kernelVector qs j j' = if j = j' then 1 else 0 := by
  rw [kernelVector, Pi.sub_apply, Finset.sum_apply, Finset.sum_eq_zero, sub_zero, Pi.single_apply]
  · simp only [eq_comm]
  · intro h _
    rw [Pi.smul_apply, Pi.single_eq_of_ne (mem_freeColumns.mp hj' h).symm, smul_zero]

theorem IsReduced.dotProduct_kernelVector (hqs : IsReduced qs) (h : Fin qs.length) (j : Fin n) :
    (qs.get h).2 ⬝ᵥ kernelVector qs j = 0 := by
  rw [kernelVector, dotProduct_sub, dotProduct_sum, dotProduct_single_one, sub_eq_zero]
  simp only [dotProduct_smul, dotProduct_single_one, hqs.unit, smul_eq_mul, mul_ite, mul_one, mul_zero]
  rw [Finset.sum_ite_eq Finset.univ, if_pos (Finset.mem_univ h)]

theorem IsReduced.kernelVectors_isBasisOf (hqs : IsReduced qs) :
    IsBasisOf (kernelVectors qs) (orthogonal (rowsSpan qs)) := by
  have hfree : (freeColumns qs).Nodup := (List.nodup_finRange n).filter _
  have horthogonal : ∀ x, x ∈ orthogonal (rowsSpan qs) ↔ ∀ h, (qs.get h).2 ⬝ᵥ x = 0 := by
    intro x
    rw [rowsSpan_eq, mem_orthogonal_span]
    exact Set.forall_mem_range
  apply isBasisOf_of_unit (c := fun k => (freeColumns qs).get k)
  · intro k k'
    rw [kernelVector_free (List.get_mem _ k')]
    simp only [hfree.injective_get.eq_iff]
  · intro k
    rw [horthogonal]
    intro h
    exact hqs.dotProduct_kernelVector h _
  · intro x hx hzero
    have hfreezero : ∀ j ∈ freeColumns qs, x j = 0 := by
      intro j hj
      obtain ⟨k, rfl⟩ := List.mem_iff_get.mp hj
      exact hzero k
    ext j
    by_cases hj : j ∈ freeColumns qs
    · exact hfreezero j hj
    · -- The row of the leading entry is zero in the other columns that are not free.
      obtain ⟨h, rfl⟩ : ∃ h, (qs.get h).1 = j := by simpa [mem_freeColumns] using hj
      have hrow := (horthogonal x).mp hx h
      rw [dotProduct, Finset.sum_eq_single (qs.get h).1, hqs.unit, if_pos rfl, one_mul] at hrow
      · exact hrow
      · intro j _ hne
        by_cases hfreej : j ∈ freeColumns qs
        · rw [hfreezero j hfreej, mul_zero]
        · obtain ⟨h', rfl⟩ : ∃ h, (qs.get h).1 = j := by simpa [mem_freeColumns] using hfreej
          rw [hqs.unit, if_neg (fun heq => hne (by rw [heq])), zero_mul]
      · intro hnot
        exact absurd (Finset.mem_univ _) hnot

end Bases

section Padded

variable {qs : Rows K n}

theorem padded_apply {i : Fin m} (h : (i : ℕ) < qs.length) : padded m qs i = (qs.get ⟨i, h⟩).2 := dif_pos h

theorem padded_eq_zero {i : Fin m} (h : qs.length ≤ i) : padded m qs i = 0 := dif_neg (not_lt.mpr h)

theorem rowSpace_padded (hlen : qs.length ≤ m) : rowSpace (padded m qs) = rowsSpan qs := by
  rw [rowsSpan_eq]
  apply le_antisymm
  · rw [rowSpace, Submodule.span_le]
    rintro _ ⟨i, rfl⟩
    rcases lt_or_ge (i : ℕ) qs.length with h | h
    · rw [padded_apply h]
      exact Submodule.subset_span ⟨_, rfl⟩
    · rw [padded_eq_zero h]
      exact Submodule.zero_mem _
  · rw [Submodule.span_le]
    rintro _ ⟨h, rfl⟩
    exact Submodule.subset_span ⟨Fin.castLE hlen h, padded_apply (i := Fin.castLE hlen h) h.isLt⟩

theorem IsReduced.eq_of_isLeadingEntry (hqs : IsReduced qs) {i : Fin m} {j : Fin n}
    (hj : (padded m qs).IsLeadingEntry i j) : ∃ h : (i : ℕ) < qs.length, (qs.get ⟨i, h⟩).1 = j := by
  rcases lt_or_ge (i : ℕ) qs.length with h | h
  · refine ⟨h, ?_⟩
    have hlead : (padded m qs).IsLeadingEntry i (qs.get ⟨i, h⟩).1 := by
      constructor
      · rw [padded_apply h]
        exact hqs.before _ (qs.get_mem _)
      · rw [padded_apply h, hqs.lead _ (qs.get_mem _)]
        exact one_ne_zero
    exact hlead.unique hj
  · exact absurd (padded_eq_zero h) hj.row_ne_zero

theorem IsReduced.padded_isReducedRowEchelon (hqs : IsReduced qs) : (padded m qs).IsReducedRowEchelon where
  isRowEchelon := by
    intro i i' hii j hzero
    rcases lt_or_ge (i' : ℕ) qs.length with h' | h'
    · have h : (i : ℕ) < qs.length := lt_trans hii h'
      rw [padded_apply h] at hzero
      rw [padded_apply h']
      have hlt := (List.pairwise_iff_get.mp hqs.sorted ⟨i, h⟩ ⟨i', h'⟩ hii).1
      apply hqs.before _ (qs.get_mem _)
      -- The leading entry of the row above is not among the zeros.
      apply lt_of_le_of_lt _ hlt
      by_contra hnot
      have hone := hqs.lead _ (qs.get_mem ⟨i, h⟩)
      rw [hzero _ (not_le.mp hnot)] at hone
      exact zero_ne_one hone
    · rw [padded_eq_zero h', Pi.zero_apply]
  eq_one := by
    intro i j hj
    obtain ⟨h, rfl⟩ := hqs.eq_of_isLeadingEntry hj
    rw [padded_apply h]
    exact hqs.lead _ (qs.get_mem _)
  eq_zero := by
    intro i i' j hii hj
    obtain ⟨h', rfl⟩ := hqs.eq_of_isLeadingEntry hj
    have h : (i : ℕ) < qs.length := lt_trans hii h'
    rw [padded_apply h]
    exact (List.pairwise_iff_get.mp hqs.sorted ⟨i, h⟩ ⟨i', h'⟩ hii).2

end Padded

section Matrices

variable [DecidableEq K] {M : Matrix (Fin m) (Fin n) K}

/-- The nonzero rows of the reduced form of a matrix. -/
def reducedRows (M : Matrix (Fin m) (Fin n) K) : Rows K n := rowReduce n (List.ofFn M)

theorem reducedRows_isReduced : IsReduced (reducedRows M) := rowReduce_isReduced _

theorem rowsSpan_reducedRows : rowsSpan (reducedRows M) = rowSpace M := by
  have hrows : {v | v ∈ List.ofFn M} = Set.range M := by
    ext v
    exact List.mem_ofFn
  rw [reducedRows, rowsSpan_rowReduce, hrows, rowSpace]

theorem length_reducedRows : (reducedRows M).length = M.rank := by
  have hbasis := (reducedRows_isReduced (M := M)).rowVectors_isBasisOf
  have hcard := finrank_span_eq_card hbasis.independent
  have hrange : (Set.range fun i => (rowVectors (reducedRows M)).get i) = {v | v ∈ rowVectors (reducedRows M)} := by
    ext v
    exact List.mem_iff_get.symm
  rw [hrange, hbasis.span, rowsSpan_reducedRows, Fintype.card_fin, rowVectors, List.length_ofFn] at hcard
  rw [← hcard, rank_eq_finrank_span_row]
  rfl

def echelonForm (M : Matrix (Fin m) (Fin n) K) : Matrix (Fin m) (Fin n) K := padded m (reducedRows M)

theorem rowSpace_echelonForm : rowSpace (echelonForm M) = rowSpace M := by
  have hlen : (reducedRows M).length ≤ m := by
    rw [length_reducedRows]
    exact M.rank_le_height
  rw [echelonForm, rowSpace_padded hlen, rowsSpan_reducedRows]

theorem echelonForm_isReducedRowEchelon : (echelonForm M).IsReducedRowEchelon :=
  reducedRows_isReduced.padded_isReducedRowEchelon

/-- `right_kernel`, with a vector for each free column. -/
def pivotBasis (M : Matrix (Fin m) (Fin n) K) : List (Fin n → K) := kernelVectors (reducedRows M)

theorem pivotBasis_isBasisOf : IsBasisOf (pivotBasis M) (rightKernel M) := by
  rw [rightKernel_eq, ← rowsSpan_reducedRows]
  exact reducedRows_isReduced.kernelVectors_isBasisOf

/-- The basis of the kernel that is reduced itself. -/
def echelonBasis (M : Matrix (Fin m) (Fin n) K) : List (Fin n → K) := rowVectors (rowReduce n (pivotBasis M))

theorem echelonBasis_isBasisOf : IsBasisOf (echelonBasis M) (rightKernel M) := by
  rw [← pivotBasis_isBasisOf.span, ← rowsSpan_rowReduce]
  exact (rowReduce_isReduced _).rowVectors_isBasisOf

def withColumn (M : Matrix (Fin m) (Fin n) K) (b : Fin m → K) : Matrix (Fin m) (Fin (n + 1)) K :=
  fun i => Fin.snoc (M i) (b i)

/-- A vector of the kernel of the augmented matrix that is not zero at the end is a solution, scaled. -/
def solve (M : Matrix (Fin m) (Fin n) K) (b : Fin m → K) : Option (Fin n → K) :=
  ((pivotBasis (withColumn M b)).find? fun v => v (Fin.last n) ≠ 0).map fun v j =>
    -(v (Fin.last n))⁻¹ * v j.castSucc

omit [DecidableEq K] in
theorem mem_rightKernel_withColumn {b : Fin m → K} {v : Fin (n + 1) → K} :
    v ∈ rightKernel (withColumn M b) ↔
      ∀ i, (M i ⬝ᵥ fun j => v j.castSucc) + b i * v (Fin.last n) = 0 := by
  rw [mem_rightKernel]
  apply forall_congr'
  intro i
  rw [dotProduct, Fin.sum_univ_castSucc]
  simp only [withColumn, Fin.snoc_castSucc, Fin.snoc_last]
  exact Iff.rfl

theorem solve_some {b : Fin m → K} {x : Fin n → K} (h : solve M b = some x) : M *ᵥ x = b := by
  obtain ⟨v, hv, rfl⟩ := Option.map_eq_some_iff.mp h
  have hne : v (Fin.last n) ≠ 0 := by simpa using List.find?_some hv
  have hmem : v ∈ rightKernel (withColumn M b) := by
    rw [← pivotBasis_isBasisOf.span]
    exact Submodule.subset_span (List.mem_of_find?_eq_some hv)
  ext i
  have hrow := mem_rightKernel_withColumn.mp hmem i
  have hscaled : (M *ᵥ fun j => -(v (Fin.last n))⁻¹ * v j.castSucc) i =
      -(v (Fin.last n))⁻¹ * (M i ⬝ᵥ fun j => v j.castSucc) :=
    dotProduct_smul (-(v (Fin.last n))⁻¹) (M i) fun j => v j.castSucc
  rw [hscaled, eq_neg_of_add_eq_zero_left hrow]
  field_simp

theorem solve_none {b : Fin m → K} (h : solve M b = none) (x : Fin n → K) : M *ᵥ x ≠ b := by
  intro hx
  rw [solve, Option.map_eq_none_iff, List.find?_eq_none] at h
  have hlast : rightKernel (withColumn M b) ≤ LinearMap.ker (LinearMap.proj (Fin.last n)) := by
    rw [← pivotBasis_isBasisOf.span, Submodule.span_le]
    intro v hv
    simpa using h v hv
  have hmem : Fin.snoc x (-1) ∈ rightKernel (withColumn M b) := by
    rw [mem_rightKernel_withColumn]
    intro i
    simp only [Fin.snoc_castSucc, Fin.snoc_last, mul_neg_one, ← sub_eq_add_neg, sub_eq_zero]
    exact congrFun hx i
  have hzero := LinearMap.mem_ker.mp (hlast hmem)
  rw [LinearMap.proj_apply, Fin.snoc_last, neg_eq_zero] at hzero
  exact one_ne_zero hzero

end Matrices

end Lib.RowReduction
