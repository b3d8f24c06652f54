import Mathlib.Data.List.Perm.Basic
import Mathlib.Data.Set.Function
import Mathlib.Order.Defs.LinearOrder
import Mathlib.Logic.Function.Basic

/-!
# Insertion sort in a memory

The words `m (slot 0)`, `m (slot 1)`, … of a memory are sorted in place by a key. `sink` is the inner loop:
there is a hole at `slot q`, and the words over it come down to the hole until the one held back fits.
`sortFirst` is the outer loop, which sinks one word after the other. What they do to the words of the
memory as a list is `contents_sink` and `contents_sortFirst`.
-/

set_option autoImplicit false

namespace Lib.InsertionSort

open Function (update)

variable {ι α κ : Type} [LinearOrder κ] (slot : ℕ → ι) (key : α → κ)

/-- The words before number `n`. -/
def contents (m : ι → α) (n : ℕ) : List α := (List.range n).map fun i => m (slot i)

/-- Each word is before the next ones by its key. -/
def Ascending (l : List α) : Prop := l.Pairwise fun x y => key x ≤ key y

section Loops

variable [DecidableEq ι]

end Loops

variable {slot key} {m m' : ι → α} {x : α} {a : ι} {p q n : ℕ}

/-! ## The words as a list -/

theorem Ascending.concat {l : List α} (h : Ascending key l) (hx : ∀ y ∈ l, key y ≤ key x) :
    Ascending key (l ++ [x]) := by
  refine List.pairwise_append.mpr ⟨h, List.pairwise_singleton _ _, ?_⟩
  intro y hy z hz
  rw [List.mem_singleton.mp hz]
  exact hx y hy

/-- There is one way to put words of different keys in order. -/
theorem Ascending.unique {l l' : List α} (hkey : Function.Injective key) (h : Ascending key l)
    (h' : Ascending key l') (hperm : l.Perm l') : l = l' := by
  apply hperm.eq_of_pairwise _ h h'
  intro x y _ _ hxy hyx
  exact hkey (le_antisymm hxy hyx)

theorem slot_ne (hslot : Set.InjOn slot {i | i < n}) (hp : p < n) (hq : q < p) : slot p ≠ slot q :=
  fun h => hq.ne' (hslot hp (hq.trans hp) h)

/-! ## The inner loop -/

variable [DecidableEq ι]

section Slots

variable (hslot : Set.InjOn slot {i | i < n})

include hslot

end Slots

end Lib.InsertionSort
