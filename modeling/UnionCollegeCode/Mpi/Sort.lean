import Mathlib.Data.List.Sort
import UnionCollegeCode.Lib.OddEven

/-!
# `MPI_Sort.c`: the slices and what one process does to them

A slice is the `int` array of one process, as a list of integers; what is 32 bits wide about it is
the subtraction in `CompareInts`, so that is where the width is modelled. Array reads are partial:
`none` is an index outside the array, which C leaves undefined, and the merge lemmas below show that
no run of the merges gets there.

`qsort` with a comparator that orders its inputs is `List.mergeSort` at that comparator: two `int`s
that compare equal are the same `int`, so an unstable sort cannot be told from a stable one.
-/

set_option autoImplicit false

namespace UnionCollegeCode.Mpi

open Lib.OddEven

/-! ## The comparator and `SortMySlice` -/

/-- The value a 32-bit `int` operation delivers, read with two's complement wrap-around. -/
def wrap32 (x : ℤ) : ℤ := x.bmod (2 ^ 32)

def compareInts (a b : ℤ) : ℤ := wrap32 (a - b)

/-- The subtraction of the comparator stays in the `int` range. -/
def NoOverflow (a b : ℤ) : Prop := -2 ^ 31 ≤ a - b ∧ a - b < 2 ^ 31

theorem compareInts_eq {a b : ℤ} (h : NoOverflow a b) : compareInts a b = a - b := by
  unfold NoOverflow at h
  unfold compareInts wrap32
  rw [Int.bmod_def]
  omega

def sortMySlice (slice : List ℤ) : List ℤ := slice.mergeSort fun a b => compareInts a b ≤ 0

theorem sortMySlice_perm (slice : List ℤ) : (sortMySlice slice).Perm slice :=
  List.mergeSort_perm _ _

theorem sortMySlice_length (slice : List ℤ) : (sortMySlice slice).length = slice.length :=
  (sortMySlice_perm slice).length_eq

/-- Where the comparator does not overflow, `qsort` leaves the slice ascending. -/
theorem sortMySlice_sorted {slice : List ℤ} (h : ∀ a ∈ slice, ∀ b ∈ slice, NoOverflow a b) :
    (sortMySlice slice).Pairwise (· ≤ ·) := by
  -- On the slice the comparator is `≤`, so the sort is the sort by `≤`.
  have hle : ∀ a ∈ slice, ∀ b ∈ slice, decide (compareInts a b ≤ 0) = decide (a ≤ b) := by
    intro a ha b hb
    rw [compareInts_eq (h a ha b hb)]
    simp
  have hsort : sortMySlice slice = slice.mergeSort fun a b => decide (a ≤ b) := by
    have := List.map_mergeSort (r := fun a b => decide (compareInts a b ≤ 0))
      (s := fun a b => decide (a ≤ b)) (f := id) hle
    simpa [sortMySlice] using this
  rw [hsort]
  have := @List.pairwise_mergeSort ℤ (fun a b => decide (a ≤ b))
    (fun a b c hab hbc => by simp only [decide_eq_true_eq] at *; omega)
    (fun a b => by simp only [Bool.or_eq_true, decide_eq_true_eq]; omega) slice
  simpa using this

/-! ## `MergeSlicesKeepSmallerBetter` -/

/-- The `while (smallindex < mysize)` loop, with `mysize - smallindex` rounds left. -/
def keepSmallerLoop (myslice otherslice : List ℤ) : ℕ → ℕ → ℕ → List ℤ → Option (List ℤ)
  | 0, _, _, smallest => some smallest
  | left + 1, myindex, otherindex, smallest => do
    let mine ← myslice[myindex]?
    let others ← otherslice[otherindex]?
    if mine ≤ others then
      keepSmallerLoop myslice otherslice left (myindex + 1) otherindex (smallest ++ [mine])
    else
      keepSmallerLoop myslice otherslice left myindex (otherindex + 1) (smallest ++ [others])

/-- What `myslice` holds afterwards: `memcpy` puts the merged elements over its first `mysize`. -/
def mergeSlicesKeepSmallerBetter (myslice : List ℤ) (mysize : ℕ) (otherslice : List ℤ) :
    Option (List ℤ) := do
  let smallest ← keepSmallerLoop myslice otherslice mysize 0 0 []
  return smallest ++ myslice.drop mysize

/-- The loop takes the front of the merge of what the two indices have left. No read leaves the
slices as long as both indices can make up for the rounds left. -/
theorem keepSmallerLoop_eq (myslice otherslice : List ℤ) :
    ∀ left myindex otherindex smallest,
      myindex + left ≤ myslice.length → otherindex + left ≤ otherslice.length →
      keepSmallerLoop myslice otherslice left myindex otherindex smallest =
        some (smallest ++ ((myslice.drop myindex).merge (otherslice.drop otherindex)
          (fun a b => decide (a ≤ b))).take left) := by
  intro left
  induction left with
  | zero => intros; simp [keepSmallerLoop]
  | succ left ih =>
    intro i j smallest hi hj
    have hi' : i < myslice.length := by omega
    have hj' : j < otherslice.length := by omega
    rw [List.drop_eq_getElem_cons hi', List.drop_eq_getElem_cons hj', List.cons_merge_cons]
    simp only [keepSmallerLoop, List.getElem?_eq_getElem hi', List.getElem?_eq_getElem hj',
      Option.bind_eq_bind, Option.bind_some, decide_eq_true_eq]
    split
    · rw [ih (i + 1) j _ (by omega) (by omega), ← List.drop_eq_getElem_cons hj']
      simp
    · rw [ih i (j + 1) _ (by omega) (by omega), ← List.drop_eq_getElem_cons hi']
      simp

/-- Both slices, merged in ascending order. -/
def merged (a b : List ℤ) : List ℤ := a.merge b fun x y => decide (x ≤ y)

theorem merged_perm (a b : List ℤ) : (merged a b).Perm (a ++ b) := List.merge_perm_append _

theorem merged_length (a b : List ℤ) : (merged a b).length = a.length + b.length := by
  simpa using (merged_perm a b).length_eq

theorem merged_sorted {a b : List ℤ} (ha : a.Pairwise (· ≤ ·)) (hb : b.Pairwise (· ≤ ·)) :
    (merged a b).Pairwise (· ≤ ·) := ha.merge hb

/-- A sorted list is determined by its elements, so merging does not depend on the order of the two
slices. -/
theorem merged_comm {a b : List ℤ} (ha : a.Pairwise (· ≤ ·)) (hb : b.Pairwise (· ≤ ·)) :
    merged a b = merged b a :=
  List.Perm.eq_of_pairwise (fun _ _ _ _ h1 h2 => le_antisymm h1 h2)
    (merged_sorted ha hb) (merged_sorted hb ha)
    ((merged_perm a b).trans (List.perm_append_comm.trans (merged_perm b a).symm))

/-- **`MergeSlicesKeepSmallerBetter` keeps the smaller half.** -/
theorem mergeSlicesKeepSmallerBetter_eq {myslice otherslice : List ℤ} {s : ℕ}
    (hm : myslice.length = s) (ho : otherslice.length = s) :
    mergeSlicesKeepSmallerBetter myslice s otherslice =
      some ((merged myslice otherslice).take s) := by
  unfold mergeSlicesKeepSmallerBetter
  rw [keepSmallerLoop_eq myslice otherslice s 0 0 [] (by omega) (by omega)]
  simp [merged, ← hm]

/-! ## `MergeSlicesKeepBiggerBetter` -/

/-- A read at an `int` index, which may have run below zero. -/
def readAt (slice : List ℤ) (i : ℤ) : Option ℤ := if 0 ≤ i then slice[i.toNat]? else none

/-- The `while (bigindex >= 0)` loop, with `bigindex + 1` rounds left. `biggest` is filled from its
last place down, so the list of what has been written grows at the front. -/
def keepBiggerLoop (myslice otherslice : List ℤ) : ℕ → ℤ → ℤ → List ℤ → Option (List ℤ)
  | 0, _, _, biggest => some biggest
  | left + 1, myindex, otherindex, biggest => do
    let mine ← readAt myslice myindex
    let others ← readAt otherslice otherindex
    if mine ≥ others then
      keepBiggerLoop myslice otherslice left (myindex - 1) otherindex (mine :: biggest)
    else
      keepBiggerLoop myslice otherslice left myindex (otherindex - 1) (others :: biggest)

/-- `bigindex`, `myindex` and `otherindex` all start at `mysize - 1`. -/
def mergeSlicesKeepBiggerBetter (myslice : List ℤ) (mysize : ℕ) (otherslice : List ℤ) :
    Option (List ℤ) := do
  let biggest ← keepBiggerLoop myslice otherslice mysize (mysize - 1) (mysize - 1) []
  return biggest ++ myslice.drop mysize

theorem readAt_of_lt {slice : List ℤ} {i : ℕ} (h : i < slice.length) :
    readAt slice ((i : ℤ) + 1 - 1) = some slice[i] := by
  simp [readAt, h]

/-- The loop takes the back of the merge of what the two indices have left, read from the end. -/
theorem keepBiggerLoop_eq (myslice otherslice : List ℤ) :
    ∀ (left myleft otherleft : ℕ) (biggest : List ℤ),
      left ≤ myleft → left ≤ otherleft → myleft ≤ myslice.length →
      otherleft ≤ otherslice.length →
      keepBiggerLoop myslice otherslice left ((myleft : ℤ) - 1) ((otherleft : ℤ) - 1) biggest =
        some (((((myslice.take myleft).reverse).merge ((otherslice.take otherleft).reverse)
          (fun a b => decide (b ≤ a))).take left).reverse ++ biggest) := by
  intro left
  induction left with
  | zero => intros; simp [keepBiggerLoop]
  | succ left ih =>
    intro p q biggest hp hq hpl hql
    obtain ⟨p, rfl⟩ : ∃ k, p = k + 1 := ⟨p - 1, by omega⟩
    obtain ⟨q, rfl⟩ : ∃ k, q = k + 1 := ⟨q - 1, by omega⟩
    have hp' : p < myslice.length := by omega
    have hq' : q < otherslice.length := by omega
    rw [← List.take_append_getElem hp', ← List.take_append_getElem hq', List.reverse_append,
      List.reverse_append, List.reverse_singleton, List.reverse_singleton, List.singleton_append,
      List.singleton_append, List.cons_merge_cons]
    simp only [keepBiggerLoop, Nat.cast_add, Nat.cast_one, readAt_of_lt hp', readAt_of_lt hq',
      Option.bind_eq_bind, Option.bind_some, decide_eq_true_eq, ge_iff_le]
    split
    · have := ih p (q + 1) (myslice[p] :: biggest) (by omega) (by omega) (by omega) (by omega)
      rw [← List.take_append_getElem hq', List.reverse_append, List.reverse_singleton,
        List.singleton_append] at this
      simpa using this
    · have := ih (p + 1) q (otherslice[q] :: biggest) (by omega) (by omega) (by omega) (by omega)
      rw [← List.take_append_getElem hp', List.reverse_append, List.reverse_singleton,
        List.singleton_append] at this
      simpa using this

/-- Merging backwards from the ends gives the merge, reversed. -/
theorem merge_reverse {a b : List ℤ} (ha : a.Pairwise (· ≤ ·)) (hb : b.Pairwise (· ≤ ·)) :
    (a.reverse.merge b.reverse fun x y => decide (y ≤ x)).reverse = merged a b := by
  have hsort : (a.reverse.merge b.reverse fun x y => decide (y ≤ x)).Pairwise (fun x y => y ≤ x) :=
    (List.pairwise_reverse.mpr ha).merge (r := fun x y : ℤ => y ≤ x) (List.pairwise_reverse.mpr hb)
  refine List.Perm.eq_of_pairwise (fun _ _ _ _ h1 h2 => le_antisymm h1 h2)
    (List.pairwise_reverse.mpr hsort) (merged_sorted ha hb) ?_
  exact (List.reverse_perm _).trans ((List.merge_perm_append _).trans
    (((List.reverse_perm a).append (List.reverse_perm b)).trans (merged_perm a b).symm))

/-- **`MergeSlicesKeepBiggerBetter` keeps the bigger half.** -/
theorem mergeSlicesKeepBiggerBetter_eq {myslice otherslice : List ℤ} {s : ℕ}
    (hm : myslice.length = s) (ho : otherslice.length = s)
    (hms : myslice.Pairwise (· ≤ ·)) (hos : otherslice.Pairwise (· ≤ ·)) :
    mergeSlicesKeepBiggerBetter myslice s otherslice =
      some ((merged myslice otherslice).drop s) := by
  unfold mergeSlicesKeepBiggerBetter
  rw [keepBiggerLoop_eq myslice otherslice s s s [] le_rfl le_rfl (by omega) (by omega)]
  have hback : ((myslice.reverse.merge otherslice.reverse fun x y => decide (y ≤ x)).take s).reverse
      = (merged myslice otherslice).drop s := by
    rw [← merge_reverse hms hos, List.drop_reverse]
    simp [hm, ho]
  rw [List.take_of_length_le hm.le, List.take_of_length_le ho.le, hback]
  simp [← hm]

end UnionCollegeCode.Mpi
