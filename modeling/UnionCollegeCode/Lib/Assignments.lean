import Mathlib.Algebra.BigOperators.Group.Finset.Basic
import Mathlib.Data.Fintype.Basic
import Mathlib.Logic.Function.Basic

/-!
# Loops of assignments

A loop that writes the entries of a table, each at an index that is computed. Where two rounds write the
same entry, the later one counts (`assignAll_last`), and what is added to an entry adds up
(`addAll_apply`).
-/

set_option autoImplicit false

namespace Lib.Assignments

open Function (update)

variable {ι κ α : Type*} [DecidableEq κ] {f : ι → κ} {v : ι → α} {x : κ → α} {is : List ι} {t : κ} {i : ι}

/-- `x[f i] = v i`, for one `i` after the other. -/
def assignAll (f : ι → κ) (v : ι → α) (is : List ι) (x : κ → α) : κ → α :=
  is.foldl (fun x i => update x (f i) (v i)) x

/-- `x[f i] += v i`, for one `i` after the other. -/
def addAll [Add α] (f : ι → κ) (v : ι → α) (is : List ι) (x : κ → α) : κ → α :=
  is.foldl (fun x i => update x (f i) (x (f i) + v i)) x

theorem assignAll_of_ne (h : ∀ i ∈ is, f i ≠ t) : assignAll f v is x t = x t := by
  induction is generalizing x with
  | nil => rfl
  | cons i is ih =>
    rw [assignAll, List.foldl_cons]
    have hrest := ih (x := update x (f i) (v i)) fun j hj => h j (List.mem_cons_of_mem _ hj)
    rw [assignAll] at hrest
    rw [hrest, Function.update_of_ne (h i List.mem_cons_self).symm]

/-- An entry holds what was last written to it. -/
theorem assignAll_last {is is' : List ι} (h : ∀ j ∈ is', f j ≠ f i) :
    assignAll f v (is ++ i :: is') x (f i) = v i := by
  rw [assignAll, List.foldl_append, List.foldl_cons]
  have hrest := assignAll_of_ne (v := v) (x := update (is.foldl (fun x i => update x (f i) (v i)) x)
    (f i) (v i)) h
  rw [assignAll] at hrest
  rw [hrest, Function.update_self]

/-- The rounds that write an entry agree on it. -/
theorem assignAll_of_agree (hi : i ∈ is) (h : ∀ j ∈ is, f j = f i → v j = v i) :
    assignAll f v is x (f i) = v i := by
  induction is generalizing x i with
  | nil => exact absurd hi List.not_mem_nil
  | cons k is ih =>
    rw [assignAll, List.foldl_cons]
    by_cases hlater : ∃ j ∈ is, f j = f i
    · obtain ⟨j, hj, hji⟩ := hlater
      have hvalue := h j (List.mem_cons_of_mem _ hj) hji
      have hrest := ih (x := update x (f k) (v k)) hj fun j' hj' hkey =>
        (h j' (List.mem_cons_of_mem _ hj') (hkey.trans hji)).trans hvalue.symm
      rw [assignAll, hji, hvalue] at hrest
      exact hrest
    · have hnone : ∀ j ∈ is, f j ≠ f i := fun j hj hkey => hlater ⟨j, hj, hkey⟩
      have hrest := assignAll_of_ne (v := v) (x := update x (f k) (v k)) hnone
      rw [assignAll] at hrest
      rcases List.mem_cons.mp hi with rfl | hi
      · rw [hrest, Function.update_self]
      · exact absurd rfl (hnone i hi)

theorem addAll_apply [AddCommMonoid α] :
    addAll f v is x t = x t + ((is.filter fun i => f i = t).map v).sum := by
  induction is generalizing x with
  | nil => simp [addAll]
  | cons i is ih =>
    rw [addAll, List.foldl_cons]
    have hrest := ih (x := update x (f i) (x (f i) + v i))
    rw [addAll] at hrest
    rw [hrest]
    by_cases hi : f i = t
    · subst hi
      simp [add_assoc]
    · simp [hi, Function.update_of_ne (Ne.symm hi)]

/-- What a loop over all rounds adds to an entry. -/
theorem addAll_univ [AddCommMonoid α] [Fintype ι] (hnodup : is.Nodup) (hall : ∀ i, i ∈ is) :
    addAll f v is x t = x t + ∑ i with f i = t, v i := by
  classical
  rw [addAll_apply]
  congr 1
  have hfinset : (is.filter fun i => f i = t).toFinset = Finset.univ.filter fun i => f i = t := by
    ext i
    simp [hall i]
  rw [← hfinset, List.sum_toFinset v (hnodup.filter _)]

end Lib.Assignments
