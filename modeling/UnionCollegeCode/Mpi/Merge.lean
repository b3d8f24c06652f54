import Mathlib.Order.Lattice
import UnionCollegeCode.Lib.Exchange
import UnionCollegeCode.Mpi.Sort

/-!
# `MPI_Sort.c`: the two merges

`MergeSlicesKeepSmaller` and `MergeSlicesKeepBigger` swap entries of the two slices in place, which leaves
the other slice scrambled. Both go through the passes of `Lib.Exchange`, one from the front by `≤` and one
from the back by `≥`, and so keep what the linear merges keep.
-/

set_option autoImplicit false

namespace UnionCollegeCode.Mpi

open Lib.Exchange

/-- The body of the inner loops: `otherslice[j]` and `myslice[i]` are swapped if `before` says so. -/
def compareSwap (before : ℤ → ℤ → Prop) [DecidableRel before] (i : ℕ) (s : List ℤ × List ℤ) (j : ℕ) :
    Option (List ℤ × List ℤ) := do
  let others ← s.2[j]?
  let mine ← s.1[i]?
  if before others mine then
    return (s.1.set i others, s.2.set j mine)
  else
    return s

/-- What the two slices hold afterwards. -/
def mergeSlicesKeepSmaller (myslice : List ℤ) (mysize : ℕ) (otherslice : List ℤ) :
    Option (List ℤ × List ℤ) :=
  (List.range mysize).foldlM
    (fun s i => (List.range (i + 1)).foldlM (compareSwap (· < ·) i) s) (myslice, otherslice)

def mergeSlicesKeepBigger (myslice : List ℤ) (mysize : ℕ) (otherslice : List ℤ) :
    Option (List ℤ × List ℤ) :=
  (List.range mysize).reverse.foldlM
    (fun s i => (List.range' i (mysize - i)).reverse.foldlM (compareSwap (· > ·) i) s)
    (myslice, otherslice)

/-! ## The loops as passes -/

section Loops

variable {before r : ℤ → ℤ → Prop} [DecidableRel before] [DecidableRel r] {n i : ℕ}
  {s : (ℕ → ℤ) × (ℕ → ℤ)}

/-- Two slices of `n` entries. -/
def slices (n : ℕ) (s : (ℕ → ℤ) × (ℕ → ℤ)) : List ℤ × List ℤ :=
  ((List.range n).map s.1, (List.range n).map s.2)

theorem map_range_set (f : ℕ → ℤ) (v : ℤ) :
    ((List.range n).map f).set i v = (List.range n).map (Function.update f i v) := by
  apply List.ext_getElem
  · simp
  · intro k hk hk'
    simp only [List.getElem_set, List.getElem_map, List.getElem_range, Function.update_apply, eq_comm]

theorem compareSwap_eq (hr : ∀ x y, before y x ↔ ¬ r x y) (hi : i < n) {j : ℕ} (hj : j < n) :
    compareSwap before i (slices n s) j = some (slices n (exchange r i s j)) := by
  have hother : (slices n s).2[j]? = some (s.2 j) := by simp [slices, hj]
  have hmine : (slices n s).1[i]? = some (s.1 i) := by simp [slices, hi]
  rw [compareSwap, hother, hmine]
  change (if before (s.2 j) (s.1 i) then some _ else some _) = _
  unfold exchange
  by_cases hswap : r (s.1 i) (s.2 j)
  · rw [if_pos hswap, if_neg (not_not.mpr hswap ∘ (hr _ _).mp)]
  · rw [if_neg hswap, if_pos ((hr _ _).mpr hswap)]
    simp only [slices, map_range_set]

theorem foldlM_compareSwap (hr : ∀ x y, before y x ↔ ¬ r x y) (hi : i < n) {js : List ℕ}
    (hjs : ∀ j ∈ js, j < n) :
    js.foldlM (compareSwap before i) (slices n s) = some (slices n (pass r i js s)) := by
  induction js generalizing s with
  | nil => rfl
  | cons j js ih =>
    rw [List.foldlM_cons, compareSwap_eq hr hi (hjs j List.mem_cons_self)]
    exact ih fun k hk => hjs k (List.mem_cons_of_mem _ hk)

theorem keepSmaller_passes (hr : ∀ x y, before y x ↔ ¬ r x y) (k m : ℕ) (hn : k + m = n) :
    (List.range' k m).foldlM (fun s i => (List.range (i + 1)).foldlM (compareSwap before i) s)
      (slices n s) = some (slices n (passes r (List.range k) (List.range' k m) s)) := by
  induction m generalizing k s with
  | zero => rfl
  | succ m ih =>
    have hpass : (List.range (k + 1)).foldlM (compareSwap before k) (slices n s) =
        some (slices n (pass r k (List.range (k + 1)) s)) := by
      apply foldlM_compareSwap hr (by omega)
      intro j hj
      have hjk := List.mem_range.mp hj
      omega
    rw [List.range'_succ, List.foldlM_cons, hpass, passes, ← List.range_succ]
    exact ih (k + 1) (by omega)

theorem keepBigger_passes (hr : ∀ x y, before y x ↔ ¬ r x y) (m : ℕ) (hm : m ≤ n) :
    (List.range m).reverse.foldlM
      (fun s i => (List.range' i (n - i)).reverse.foldlM (compareSwap before i) s) (slices n s) =
    some (slices n (passes r (List.range' m (n - m)).reverse (List.range m).reverse s)) := by
  induction m generalizing s with
  | zero => rfl
  | succ m ih =>
    have hdone : (List.range' (m + 1) (n - (m + 1))).reverse ++ [m] = (List.range' m (n - m)).reverse := by
      rw [← List.reverse_cons, ← List.range'_succ]
      congr 2
      omega
    have hpass : (List.range' m (n - m)).reverse.foldlM (compareSwap before m) (slices n s) =
        some (slices n (pass r m (List.range' m (n - m)).reverse s)) := by
      apply foldlM_compareSwap hr (by omega)
      intro j hj
      have hjm := List.mem_range'_1.mp (List.mem_reverse.mp hj)
      omega
    rw [List.range_succ, List.reverse_append, List.reverse_singleton, List.singleton_append,
      List.foldlM_cons, hpass, passes, hdone]
    exact ih (by omega)

end Loops

/-! ## The halves -/

/-- The smaller half of two slices, ascending. -/
structure Smaller (a b kept : List ℤ) : Prop where
  length : kept.length = a.length
  ascending : kept.Pairwise (· ≤ ·)
  half : ∃ rest, (kept ++ rest).Perm (a ++ b) ∧ ∀ x ∈ kept, ∀ y ∈ rest, x ≤ y

/-- The bigger half of two slices, ascending. -/
structure Bigger (a b kept : List ℤ) : Prop where
  length : kept.length = a.length
  ascending : kept.Pairwise (· ≤ ·)
  half : ∃ rest, (rest ++ kept).Perm (a ++ b) ∧ ∀ x ∈ kept, ∀ y ∈ rest, y ≤ x

section Halves

variable {a b kept : List ℤ}

theorem exists_sorted (l : List ℤ) : ∃ l' : List ℤ, l'.Perm l ∧ l'.Pairwise (· ≤ ·) := by
  refine ⟨l.mergeSort fun x y => decide (x ≤ y), List.mergeSort_perm l _, ?_⟩
  exact List.pairwise_mergeSort' (· ≤ ·) l

/-- A sorted list is determined by its entries, so the front of the merge is the smaller half. -/
theorem Smaller.eq_take (h : Smaller a b kept) (ha : a.Pairwise (· ≤ ·)) (hb : b.Pairwise (· ≤ ·)) :
    kept = (merged a b).take a.length := by
  obtain ⟨rest, hperm, hle⟩ := h.half
  obtain ⟨rest', hrest, hsorted⟩ := exists_sorted rest
  have hall : kept ++ rest' = merged a b := by
    apply List.Perm.eq_of_pairwise (fun _ _ _ _ hxy hyx => le_antisymm hxy hyx) _ (merged_sorted ha hb)
    · exact (hrest.append_left kept).trans (hperm.trans (merged_perm a b).symm)
    · refine List.pairwise_append.mpr ⟨h.ascending, hsorted, fun x hx y hy => ?_⟩
      exact hle x hx y (hrest.mem_iff.mp hy)
  rw [← hall, ← h.length, List.take_left]

theorem Bigger.eq_drop (h : Bigger a b kept) (ha : a.Pairwise (· ≤ ·)) (hb : b.Pairwise (· ≤ ·))
    (hlen : b.length = a.length) : kept = (merged a b).drop a.length := by
  obtain ⟨rest, hperm, hle⟩ := h.half
  obtain ⟨rest', hrest, hsorted⟩ := exists_sorted rest
  have hall : rest' ++ kept = merged a b := by
    apply List.Perm.eq_of_pairwise (fun _ _ _ _ hxy hyx => le_antisymm hxy hyx) _ (merged_sorted ha hb)
    · exact (hrest.append_right kept).trans (hperm.trans (merged_perm a b).symm)
    · refine List.pairwise_append.mpr ⟨hsorted, h.ascending, fun y hy x hx => ?_⟩
      exact hle x hx y (hrest.mem_iff.mp hy)
  have hfront : rest'.length = a.length := by
    have hsum := hperm.length_eq
    rw [List.length_append, List.length_append, h.length] at hsum
    rw [hrest.length_eq]
    omega
  rw [← hall, ← hfront, List.drop_left]

/-! ## The quadratic merges -/

theorem exists_slice {n : ℕ} (hn : a.length = n) : ∃ f : ℕ → ℤ, (List.range n).map f = a := by
  refine ⟨fun k => a.getD k 0, ?_⟩
  apply List.ext_getElem
  · simpa using hn.symm
  · intro k hk hk'
    simp [List.getElem?_eq_getElem hk']

theorem keepSmaller_spec (ha : a.Pairwise (· ≤ ·)) (hb : b.Pairwise (· ≤ ·)) (hlen : b.length = a.length) :
    ∃ kept other, mergeSlicesKeepSmaller a a.length b = some (kept, other) ∧ Smaller a b kept := by
  obtain ⟨n, hn⟩ : ∃ n, a.length = n := ⟨_, rfl⟩
  obtain ⟨f, hf⟩ := exists_slice hn
  obtain ⟨g, hg⟩ := exists_slice (hlen.trans hn)
  obtain ⟨s, hs⟩ : ∃ s, passes (· ≤ ·) [] (List.range n) (f, g) = s := ⟨_, rfl⟩
  have hbefore : ∀ x y : ℤ, y < x ↔ ¬ x ≤ y := fun x y => not_le.symm
  have hrun := keepSmaller_passes (s := (f, g)) hbefore 0 n (Nat.zero_add n)
  rw [← List.range_eq_range', List.range_zero, hs] at hrun
  have hhalves : Halves (· ≤ ·) (List.range n) (f, g) s :=
    hs ▸ passes_spec List.nodup_range (hf.symm ▸ ha) (hg.symm ▸ hb)
  refine ⟨(List.range n).map s.1, (List.range n).map s.2, ?_, ?_, hhalves.ordered, ?_⟩
  · rw [mergeSlicesKeepSmaller, hn, ← hf, ← hg]
    exact hrun
  · rw [hn, List.length_map, List.length_range]
  · refine ⟨(List.range n).map s.2, ?_, ?_⟩
    · rw [← hf, ← hg]
      exact hhalves.perm
    · intro x hx y hy
      obtain ⟨i, hi, rfl⟩ := List.mem_map.mp hx
      obtain ⟨j, hj, rfl⟩ := List.mem_map.mp hy
      exact hhalves.better i hi j hj

theorem keepBigger_spec (ha : a.Pairwise (· ≤ ·)) (hb : b.Pairwise (· ≤ ·)) (hlen : b.length = a.length) :
    ∃ kept other, mergeSlicesKeepBigger a a.length b = some (kept, other) ∧ Bigger a b kept := by
  obtain ⟨n, hn⟩ : ∃ n, a.length = n := ⟨_, rfl⟩
  obtain ⟨f, hf⟩ := exists_slice hn
  obtain ⟨g, hg⟩ := exists_slice (hlen.trans hn)
  obtain ⟨s, hs⟩ : ∃ s, passes (· ≥ ·) [] (List.range n).reverse (f, g) = s := ⟨_, rfl⟩
  have hbefore : ∀ x y : ℤ, y > x ↔ ¬ x ≥ y := fun x y => not_le.symm
  have hrun := keepBigger_passes (s := (f, g)) hbefore n le_rfl
  rw [Nat.sub_self, List.range'_zero, List.reverse_nil, hs] at hrun
  have hback {h : ℕ → ℤ} : (List.range n).reverse.map h = ((List.range n).map h).reverse :=
    List.map_reverse
  have hhalves : Halves (· ≥ ·) (List.range n).reverse (f, g) s := by
    rw [← hs]
    apply passes_spec (List.nodup_reverse.mpr List.nodup_range)
    · rw [hback, List.pairwise_reverse, hf]
      exact ha
    · rw [hback, List.pairwise_reverse, hg]
      exact hb
  refine ⟨(List.range n).map s.1, (List.range n).map s.2, ?_, ?_, ?_, ?_⟩
  · rw [mergeSlicesKeepBigger, hn, ← hf, ← hg]
    exact hrun
  · rw [hn, List.length_map, List.length_range]
  · have hordered := hhalves.ordered
    rw [hback, List.pairwise_reverse] at hordered
    exact hordered
  · refine ⟨(List.range n).map s.2, ?_, ?_⟩
    · have hperm := hhalves.perm
      rw [hback, hback, hback, hback] at hperm
      rw [← hf, ← hg]
      exact (((List.reverse_perm _).symm.append (List.reverse_perm _).symm).trans
        (List.perm_append_comm.trans hperm)).trans ((List.reverse_perm _).append (List.reverse_perm _))
    · intro x hx y hy
      obtain ⟨i, hi, rfl⟩ := List.mem_map.mp hx
      obtain ⟨j, hj, rfl⟩ := List.mem_map.mp hy
      exact hhalves.better i (List.mem_reverse.mpr hi) j (List.mem_reverse.mpr hj)

/-- **The merges agree.** Both keep the smaller half of the two slices, or the bigger one, and the halves
that two partners keep are all entries of both. -/
theorem merges_agree (ha : a.Pairwise (· ≤ ·)) (hb : b.Pairwise (· ≤ ·)) (hlen : b.length = a.length) :
    ∃ low high : List ℤ, Smaller a b low ∧ Bigger a b high ∧ (low ++ high).Perm (a ++ b) ∧
      (∃ other, mergeSlicesKeepSmaller a a.length b = some (low, other)) ∧
      mergeSlicesKeepSmallerBetter a a.length b = some low ∧
      (∃ other, mergeSlicesKeepBigger a a.length b = some (high, other)) ∧
      mergeSlicesKeepBiggerBetter a a.length b = some high ∧
      (∃ other, mergeSlicesKeepBigger b b.length a = some (high, other)) ∧
      mergeSlicesKeepBiggerBetter b b.length a = some high := by
  obtain ⟨low, other, hlow, hsmaller⟩ := keepSmaller_spec ha hb hlen
  obtain ⟨high, other', hhigh, hbigger⟩ := keepBigger_spec ha hb hlen
  obtain ⟨high', other'', hhigh', hbigger'⟩ := keepBigger_spec hb ha hlen.symm
  have hl := hsmaller.eq_take ha hb
  have hh := hbigger.eq_drop ha hb hlen
  have hpartner : high' = high := by
    rw [hbigger'.eq_drop hb ha hlen.symm, hh, merged_comm hb ha, hlen]
  refine ⟨low, high, hsmaller, hbigger, ?_, ⟨other, hlow⟩, ?_, ⟨other', hhigh⟩, ?_,
    ⟨other'', hpartner ▸ hhigh'⟩, ?_⟩
  · rw [hl, hh, List.take_append_drop]
    exact merged_perm a b
  · rw [mergeSlicesKeepSmallerBetter_eq rfl hlen, hl]
  · rw [mergeSlicesKeepBiggerBetter_eq rfl hlen ha hb, hh]
  · rw [mergeSlicesKeepBiggerBetter_eq rfl hlen.symm hb ha, hh, merged_comm hb ha, hlen]

/-- Slices with ties: 1, 2, 2 and 2, 2, 3. -/
theorem merges_agree_ties : ∃ low high : List ℤ, Smaller [1, 2, 2] [2, 2, 3] low ∧
    Bigger [1, 2, 2] [2, 2, 3] high ∧ (low ++ high).Perm [1, 2, 2, 2, 2, 3] := by
  obtain ⟨low, high, hlow, hhigh, hperm, -⟩ :=
    merges_agree (a := [1, 2, 2]) (b := [2, 2, 3]) (by decide) (by decide) rfl
  exact ⟨low, high, hlow, hhigh, hperm⟩

end Halves

end UnionCollegeCode.Mpi
