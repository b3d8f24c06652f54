import Mathlib.Data.List.OfFn
import Mathlib.Data.List.GetD
import UnionCollegeCode.Lib.ByteFile

/-!
# Pieces of an endless sequence

`slice f pos n` are the `n` values from `pos` on, `overlay f pos xs` is `f` with `xs` put over it at
`pos`. Of a sequence that is `z` from some point on, what is before that point is a list, and putting
`xs` over the one splices `xs` into the other.
-/

set_option autoImplicit false

namespace Lib

variable {α : Type*} {f g : ℕ → α} {pos m n : ℕ} {xs ys : List α}

def slice (f : ℕ → α) (pos n : ℕ) : List α := (List.range n).map fun i => f (pos + i)

def overlay (f : ℕ → α) (pos : ℕ) (xs : List α) (p : ℕ) : α :=
  if pos ≤ p then xs.getD (p - pos) (f p) else f p

@[simp] theorem length_slice : (slice f pos n).length = n := by simp [slice]

@[simp] theorem slice_zero : slice f pos 0 = [] := rfl

theorem slice_add : slice f pos (m + n) = slice f pos m ++ slice f (pos + m) n := by
  unfold slice
  rw [List.range_add, List.map_append, List.map_map]
  simp [Function.comp_def, Nat.add_assoc]

theorem slice_congr (h : ∀ p, pos ≤ p → p < pos + n → f p = g p) : slice f pos n = slice g pos n := by
  apply List.map_congr_left
  intro i hi
  have hlt := List.mem_range.mp hi
  exact h (pos + i) (Nat.le_add_right _ _) (by omega)

theorem getElem?_slice (i : ℕ) : (slice f pos n)[i]? = if i < n then some (f (pos + i)) else none := by
  unfold slice
  rw [List.getElem?_map]
  split
  · rename_i h
    rw [List.getElem?_range h]
    rfl
  · rename_i h
    rw [List.getElem?_eq_none (by simpa using h)]
    rfl

/-- A list read off its own positions. -/
theorem slice_getD {z : α} {off : ℕ} (h : off + n ≤ xs.length) :
    slice (fun i => xs.getD i z) off n = (xs.drop off).take n := by
  apply List.ext_getElem?
  intro i
  rw [getElem?_slice, List.getElem?_take, List.getElem?_drop]
  split
  · rename_i hi
    have hlt : off + i < xs.length := by omega
    rw [List.getD_eq_getElem _ _ hlt, List.getElem?_eq_getElem hlt]
  · rfl

@[simp] theorem overlay_nil : overlay f pos [] = f := by
  funext p
  simp [overlay]

theorem overlay_of_lt {p : ℕ} (h : p < pos) : overlay f pos xs p = f p := if_neg (Nat.not_le.mpr h)

theorem overlay_of_le {p : ℕ} (h : pos + xs.length ≤ p) : overlay f pos xs p = f p := by
  rw [overlay, if_pos (by omega), List.getD_eq_default _ _ (by omega)]

theorem overlay_add {i : ℕ} (h : i < xs.length) (d : α) : overlay f pos xs (pos + i) = xs.getD i d := by
  rw [overlay, if_pos (Nat.le_add_right _ _), Nat.add_sub_cancel_left, List.getD_eq_getElem _ _ h,
    List.getD_eq_getElem _ _ h]

theorem overlay_congr {p : ℕ} (h : f p = g p) : overlay f pos xs p = overlay g pos xs p := by
  rw [overlay, overlay, h]

theorem overlay_shift (c i : ℕ) :
    overlay (fun k => f (c + k)) pos xs i = overlay f (c + pos) xs (c + i) := by
  simp only [overlay, Nat.add_le_add_iff_left, Nat.add_sub_add_left]

theorem overlay_append :
    overlay (overlay f pos xs) (pos + xs.length) ys = overlay f pos (xs ++ ys) := by
  funext p
  by_cases hfirst : p < pos + xs.length
  · rw [overlay_of_lt hfirst]
    by_cases hpos : pos ≤ p
    · obtain ⟨i, rfl⟩ := Nat.exists_eq_add_of_le hpos
      have hi : i < xs.length := by omega
      have hi' : i < (xs ++ ys).length := by
        rw [List.length_append]
        omega
      rw [overlay_add hi (f 0), overlay_add hi' (f 0), List.getD_append _ _ _ _ hi]
    · rw [overlay_of_lt (Nat.not_le.mp hpos), overlay_of_lt (Nat.not_le.mp hpos)]
  · obtain ⟨i, rfl⟩ := Nat.exists_eq_add_of_le (Nat.not_lt.mp hfirst)
    by_cases hi : i < ys.length
    · have hi' : xs.length + i < (xs ++ ys).length := by
        rw [List.length_append]
        omega
      rw [overlay_add hi (f 0), Nat.add_assoc, overlay_add hi' (f 0),
        List.getD_append_right _ _ _ _ (Nat.le_add_right _ _), Nat.add_sub_cancel_left]
    · rw [overlay_of_le (by omega), overlay_of_le (by omega), overlay_of_le (by
        rw [List.length_append]
        omega)]

theorem slice_overlay : slice (overlay f pos xs) pos xs.length = xs := by
  apply List.ext_getElem?
  intro i
  rw [getElem?_slice]
  split
  · rename_i h
    rw [overlay_add h (f 0), List.getD_eq_getElem _ _ h, List.getElem?_eq_getElem h]
  · rename_i h
    rw [List.getElem?_eq_none (Nat.not_lt.mp h)]

theorem take_slice : (slice f pos n).take m = slice f pos (min m n) := by
  unfold slice
  rw [← List.map_take, List.take_range]

theorem drop_slice : (slice f pos n).drop m = slice f (pos + m) (n - m) := by
  apply List.ext_getElem?
  intro i
  rw [List.getElem?_drop, getElem?_slice, getElem?_slice, Nat.add_assoc]
  simp only [Nat.lt_sub_iff_add_lt']

theorem slice_of_const {z : α} (h : ∀ p, pos ≤ p → f p = z) : slice f pos n = List.replicate n z := by
  rw [List.eq_replicate_iff]
  refine ⟨length_slice, fun x hx => ?_⟩
  obtain ⟨i, -, rfl⟩ := List.mem_map.mp hx
  exact h _ (Nat.le_add_right _ _)

/-- What comes before the end of the sequence is spliced. -/
theorem slice_overlay_eq_splice {z : α} {size : ℕ} (h : ∀ p, size ≤ p → f p = z) :
    slice (overlay f pos xs) 0 (max size (pos + xs.length)) = splice z (slice f 0 size) pos xs := by
  have hlen : max size (pos + xs.length) = pos + xs.length + (size - (pos + xs.length)) := by omega
  have hbefore : slice (overlay f pos xs) 0 pos =
      (slice f 0 size).take pos ++ List.replicate (pos - size) z := by
    have hsplit : pos = min pos size + (pos - size) := by omega
    calc slice (overlay f pos xs) 0 pos
      _ = slice f 0 pos := slice_congr fun p _ hp => overlay_of_lt (by omega)
      _ = slice f 0 (min pos size) ++ slice f (0 + min pos size) (pos - size) := by
        rw [← slice_add, ← hsplit]
      _ = (slice f 0 size).take pos ++ List.replicate (pos - size) z := by
        rw [take_slice]
        by_cases hle : size ≤ pos
        · congr 1
          exact slice_of_const fun p hp => h p (by omega)
        · rw [Nat.sub_eq_zero_of_le (by omega)]
          rfl
  have hafter : slice (overlay f pos xs) (pos + xs.length) (size - (pos + xs.length)) =
      (slice f 0 size).drop (pos + xs.length) := by
    rw [drop_slice, Nat.zero_add]
    exact slice_congr fun p hp _ => overlay_of_le hp
  rw [hlen, slice_add, slice_add, hbefore, Nat.zero_add, Nat.zero_add, slice_overlay, hafter, splice,
    length_slice]

end Lib
