import Mathlib.Algebra.Order.Group.Int
import Mathlib.Data.Finset.Card

/-!
# Tables of slots

A table maps each index to what its slot holds, `none` for an empty slot. `occupied` are the indices
of a range whose slots are taken; storing and clearing one slot changes their number by at most one.
`firstFree` is the first empty slot at or behind an index.
-/

set_option autoImplicit false

namespace Lib.Slots

open Function (update)

variable {ι α : Type*} [DecidableEq ι] {range : Finset ι} {table : ι → Option α} {i : ι} {a : α}

def occupied (range : Finset ι) (table : ι → Option α) : Finset ι :=
  range.filter fun i => (table i).isSome

theorem occupied_store (hi : i ∈ range) :
    occupied range (update table i (some a)) = insert i (occupied range table) := by
  ext j
  simp only [occupied, Finset.mem_filter, Finset.mem_insert]
  by_cases hj : j = i
  · simp [hj, hi]
  · simp [hj]

theorem occupied_clear : occupied range (update table i none) = (occupied range table).erase i := by
  ext j
  simp only [occupied, Finset.mem_filter, Finset.mem_erase]
  by_cases hj : j = i
  · simp [hj]
  · simp [hj]

/-- Storing in a free slot takes one more. -/
theorem card_occupied_store (hi : i ∈ range) (hfree : table i = none) :
    (occupied range (update table i (some a))).card = (occupied range table).card + 1 := by
  rw [occupied_store hi, Finset.card_insert_of_notMem]
  simp [occupied, hfree]

/-- Storing in a taken slot takes none more. -/
theorem card_occupied_overwrite (hi : i ∈ range) (htaken : table i ≠ none) :
    (occupied range (update table i (some a))).card = (occupied range table).card := by
  rw [occupied_store hi, Finset.insert_eq_of_mem]
  simp [occupied, hi, Option.isSome_iff_ne_none.mpr htaken]

theorem card_occupied_clear (hi : i ∈ range) (htaken : table i ≠ none) :
    (occupied range (update table i none)).card + 1 = (occupied range table).card := by
  rw [occupied_clear, Finset.card_erase_add_one]
  simp [occupied, hi, Option.isSome_iff_ne_none.mpr htaken]

section FirstFree

variable {arr : ℤ → Option α} {n : ℕ} {k j : ℤ}

/-- The index itself, if its slot is empty. -/
def free (arr : ℤ → Option α) (k : ℤ) : Option ℤ := if (arr k).isNone then some k else none

/-- The first of `n` slots from `k` on that is empty. -/
def firstFree (arr : ℤ → Option α) : ℕ → ℤ → Option ℤ
  | 0, _ => none
  | n + 1, k => (free arr k).or (firstFree arr n (k + 1))

theorem firstFree_eq_some (h : firstFree arr n k = some j) : (k ≤ j ∧ j < k + n) ∧ arr j = none := by
  induction n generalizing k with
  | zero => cases h
  | succ n ih =>
    simp only [firstFree, free] at h
    cases hk : arr k with
    | none =>
      simp only [hk, Option.isNone_none, if_true, Option.some_or, Option.some.injEq] at h
      subst h
      exact ⟨by omega, hk⟩
    | some a =>
      simp only [hk, Option.isNone_some, Bool.false_eq_true, if_false, Option.none_or] at h
      obtain ⟨hrange, hj⟩ := ih h
      exact ⟨by omega, hj⟩

theorem firstFree_eq_none (h : firstFree arr n k = none) (hj : k ≤ j ∧ j < k + n) : arr j ≠ none := by
  induction n generalizing k with
  | zero => omega
  | succ n ih =>
    simp only [firstFree, free, Option.or_eq_none_iff] at h
    by_cases hjk : j = k
    · subst hjk
      intro habs
      simp [habs] at h
    · exact ih h.2 (by omega)

/-- The index of an empty slot, with none before it from `k` on. -/
structure LeastFree (arr : ℤ → Option α) (k : ℤ) (n : ℕ) (j : ℤ) : Prop where
  range : k ≤ j ∧ j < k + n
  empty : arr j = none
  least : ∀ i, k ≤ i → i < j → arr i ≠ none

theorem leastFree_of_firstFree (h : firstFree arr n k = some j) : LeastFree arr k n j := by
  obtain ⟨hrange, hempty⟩ := firstFree_eq_some h
  refine ⟨hrange, hempty, ?_⟩
  clear hrange hempty
  induction n generalizing k with
  | zero => cases h
  | succ n ih =>
    intro i hi hij
    simp only [firstFree, free] at h
    cases hk : arr k with
    | none =>
      simp only [hk, Option.isNone_none, if_true, Option.some_or, Option.some.injEq] at h
      omega
    | some a =>
      simp only [hk, Option.isNone_some, Bool.false_eq_true, if_false, Option.none_or] at h
      by_cases hik : i = k
      · simp [hik, hk]
      · exact ih h i (by omega) hij

end FirstFree

end Lib.Slots
