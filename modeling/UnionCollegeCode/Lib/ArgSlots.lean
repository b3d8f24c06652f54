import Mathlib.Data.List.Range

/-!
# Arguments in slots

A calling convention lays arguments out in slots of one word, the first few of them registers and the
others on the stack. A one-word argument takes the next slot; a two-word argument takes an even slot
and the one after it.
-/

set_option autoImplicit false

namespace Lib

inductive ArgWidth
  | word
  | double
  deriving DecidableEq, Repr

inductive Arg (W : Type*)
  | word (w : W)
  | double (high low : W)
  deriving DecidableEq, Repr

variable {W : Type*}

/-- The arguments of the given widths, from a slot on. -/
def fetchFrom (slot : Nat → W) : Nat → List ArgWidth → List (Arg W)
  | _, [] => []
  | i, .word :: widths => .word (slot i) :: fetchFrom slot (i + 1) widths
  | i, .double :: widths =>
    .double (slot (i + i % 2)) (slot (i + i % 2 + 1)) :: fetchFrom slot (i + i % 2 + 2) widths

/-- One-word arguments come from the slots in order. -/
theorem fetchFrom_words (slot : Nat → W) (n : Nat) :
    ∀ i, fetchFrom slot i (List.replicate n .word) =
      (List.range n).map fun k => .word (slot (i + k)) := by
  induction n with
  | zero => exact fun i => rfl
  | succ n ih =>
    intro i
    rw [List.replicate_succ, fetchFrom, ih, List.range_succ_eq_map, List.map_cons, List.map_map]
    congr 1
    refine List.map_congr_left fun k _ => ?_
    show Arg.word (slot (i + 1 + k)) = Arg.word (slot (i + (k + 1)))
    rw [Nat.add_assoc, Nat.add_comm 1]

end Lib
