import Mathlib.Data.Int.Notation
import Mathlib.Data.List.Basic

/-!
# A file: a sequence of entries and an offset

A read hands out what stands from the offset on, a write puts entries over what stands there, and
both move the offset by what they moved. A gap between the end of the file and the offset is filled
with `z`.
-/

set_option autoImplicit false

namespace Lib

variable {α : Type*}

/-- `old` with `new` put in at `off`. -/
def splice (z : α) (old : List α) (off : ℕ) (new : List α) : List α :=
  old.take off ++ List.replicate (off - old.length) z ++ new ++ old.drop (off + new.length)

section Splice

variable (z : α) (old xs ys : List α) (off : ℕ)

theorem length_take_replicate :
    (old.take off ++ List.replicate (off - old.length) z).length = off := by
  rw [List.length_append, List.length_take, List.length_replicate]
  omega

theorem take_splice :
    (splice z old off xs).take (off + xs.length) =
      old.take off ++ List.replicate (off - old.length) z ++ xs := by
  apply List.take_left'
  rw [List.length_append, length_take_replicate]

theorem drop_splice {n : ℕ} :
    (splice z old off xs).drop (off + xs.length + n) = old.drop (off + xs.length + n) := by
  rw [← List.drop_drop, splice, List.drop_left', List.drop_drop]
  rw [List.length_append, length_take_replicate]

theorem le_length_splice : off + xs.length ≤ (splice z old off xs).length := by
  rw [splice, List.length_append, List.length_append, length_take_replicate]
  exact Nat.le_add_right _ _

/-- Two writes, the second where the first one ended. -/
theorem splice_splice :
    splice z (splice z old off xs) (off + xs.length) ys = splice z old off (xs ++ ys) := by
  have hgap : off + xs.length - (splice z old off xs).length = 0 :=
    Nat.sub_eq_zero_of_le (le_length_splice z old xs off)
  show List.take _ _ ++ List.replicate (_ - (splice z old off xs).length) z ++ ys ++ List.drop _ _ = _
  rw [take_splice, hgap, drop_splice, splice, List.length_append]
  simp [Nat.add_assoc]

/-- What was put in is found there. -/
theorem take_drop_splice : ((splice z old off xs).drop off).take xs.length = xs := by
  rw [splice, List.append_assoc _ xs, List.drop_left' (length_take_replicate z old off)]
  exact List.take_left

end Splice

structure ByteFile (α : Type*) where
  bytes : List α
  offset : ℕ

namespace ByteFile

/-- The next `n` entries, or what there is of them. -/
def peek (f : ByteFile α) (n : ℕ) : List α := (f.bytes.drop f.offset).take n

def advance (f : ByteFile α) (n : ℕ) : ByteFile α := { f with offset := f.offset + n }

/-- Nothing at all happens when there is nothing to write. -/
def write (z : α) (f : ByteFile α) (new : List α) : ByteFile α :=
  if new = [] then f else ⟨splice z f.bytes f.offset new, f.offset + new.length⟩

/-- There is no place before the start. -/
def seek (f : ByteFile α) (target : ℤ) : Option (ByteFile α) :=
  if 0 ≤ target then some { f with offset := target.toNat } else none

@[simp] theorem write_nil (z : α) (f : ByteFile α) : f.write z [] = f := rfl

/-- Two writes in a row are one. -/
theorem write_write (z : α) (f : ByteFile α) (xs ys : List α) :
    (f.write z xs).write z ys = f.write z (xs ++ ys) := by
  by_cases hx : xs = []
  · simp [hx]
  · by_cases hy : ys = []
    · simp [hy]
    · simp only [write, hx, hy, List.append_eq_nil_iff, and_self, if_false, splice_splice,
        List.length_append, Nat.add_assoc]

/-- Back where a write began, a read of as much hands out what was written. -/
theorem peek_write (z : α) (f : ByteFile α) (new : List α) :
    ({ f.write z new with offset := f.offset } : ByteFile α).peek new.length = new := by
  by_cases h : new = []
  · simp [h, peek]
  · simp only [write, h, if_false, peek, take_drop_splice]

end ByteFile

end Lib
