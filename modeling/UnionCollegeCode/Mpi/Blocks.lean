import Mathlib.Tactic.Ring
import UnionCollegeCode.Lib.Tiling

/-!
# The block partitions of the MPI programs

`MPI_array_sum.c`, `MPI_vector_dot.c` and `MPI_vector_add.c` compute the first and last index of a
rank's block in closed form; `MPI_Normalize_Vector.c` fills `sendcounts` and `displs` in a loop. The
`int`s are integers here, and `/` and `%` are C's, which truncate.

All four give rank `id` the indices from `first n p id` to `first n p (id + 1)`: `n / p` of them, and
one more for the first `n % p` ranks.
-/

set_option autoImplicit false

namespace UnionCollegeCode.Mpi

open Lib.Tiling

/-! ## The closed form -/

/-- `f` and `l` for the block of computing rank `id` of `p`, over `n` entries. -/
def blockBounds (p id n : ℤ) : ℤ × ℤ :=
  let f := (id * (n - n.tmod p)).tdiv p
  let l := (n - n.tmod p).tdiv p
  if n.tmod p ≤ id ∨ n.tmod p = 0 then
    let f := f + n.tmod p
    (f, l + f)
  else
    let f := f + id
    (f, l + (f + 1))

/-- `MPI_array_sum.c`: every rank computes. -/
def arraySumBlock (comm_sz my_rank ArraySize : ℤ) : ℤ × ℤ := blockBounds comm_sz my_rank ArraySize

/-- `MPI_vector_dot.c`: a worker computes its own bounds. -/
def vectorDotBlock (comm_sz my_rank SIZE : ℤ) : ℤ × ℤ :=
  blockBounds (comm_sz - 1) (my_rank - 1) SIZE

/-- `MPI_vector_add.c`: the root computes the bounds of worker `q`. -/
def vectorAddBlock (comm_sz q SIZE : ℤ) : ℤ × ℤ := blockBounds (comm_sz - 1) (q - 1) SIZE

/-! ## The loop -/

/-- The loop that fills `displs` and `sendcounts`, with `left` ranks to go. -/
def fillLoop (k : ℤ) : ℕ → ℤ → ℤ → List (ℤ × ℤ)
  | 0, _, _ => []
  | left + 1, r, curdisp =>
    if r = 0 then
      (curdisp, k) :: fillLoop k left r (curdisp + k)
    else
      (curdisp, k + 1) :: fillLoop k left (r - 1) (curdisp + (k + 1))

/-- `displs[i]` and `sendcounts[i]` of `MPI_Normalize_Vector.c`, rank by rank. -/
def normalizeSlices (comm_sz : ℕ) (SIZE : ℤ) : List (ℤ × ℤ) :=
  let r := SIZE.tmod comm_sz
  let k := (SIZE - r).tdiv comm_sz
  fillLoop k comm_sz r 0

/-! ## One partition -/

/-- Where the block of rank `i` begins. -/
def first (n p i : ℕ) : ℕ := i * (n / p) + min i (n % p)

theorem first_succ (n p i : ℕ) :
    first n p (i + 1) = first n p i + (n / p + if i < n % p then 1 else 0) := by
  have hmin : min (i + 1) (n % p) = min i (n % p) + if i < n % p then 1 else 0 := by
    split <;> omega
  rw [first, first, hmin, Nat.succ_mul]
  ring

theorem first_end {n p : ℕ} (hp : 0 < p) : first n p p = n := by
  have hmod := Nat.mod_lt n hp
  rw [first, Nat.min_eq_right hmod.le, Nat.div_add_mod]

/-- `p` divides what is left without the remainder. -/
theorem tdiv_sub_tmod {n p : ℕ} (i : ℕ) (hp : 0 < p) :
    ((i : ℤ) * ((n : ℤ) - (n : ℤ).tmod p)).tdiv p = (i * (n / p) : ℕ) := by
  have hmod : (n : ℤ).tmod p = (n % p : ℕ) := rfl
  have hdiv : (p : ℤ) * (n / p : ℕ) + (n % p : ℕ) = n := by exact_mod_cast Nat.div_add_mod n p
  have hsub : (n : ℤ) - (n % p : ℕ) = p * (n / p : ℕ) := by rw [← hdiv, add_sub_cancel_right]
  rw [hmod, hsub, mul_left_comm, Nat.cast_mul]
  exact Int.mul_tdiv_cancel_left _ (Int.natCast_ne_zero.mpr hp.ne')

/-- **The closed form.** -/
theorem blockBounds_eq {n p i : ℕ} (hi : i < p) :
    blockBounds p i n = ((first n p i : ℤ), (first n p (i + 1) : ℤ)) := by
  have hp := Nat.zero_lt_of_lt hi
  have hmod : (n : ℤ).tmod p = (n % p : ℕ) := rfl
  have hf := tdiv_sub_tmod (n := n) i hp
  have hl := tdiv_sub_tmod (n := n) 1 hp
  rw [Nat.cast_one, one_mul, one_mul] at hl
  simp only [blockBounds, hf, hl]
  rw [hmod, first_succ, first]
  generalize i * (n / p) = a
  generalize n / p = k
  generalize n % p = r
  by_cases hr : i < r
  · rw [if_neg (by omega), if_pos hr]
    refine Prod.ext ?_ ?_
    · show (a : ℤ) + i = _
      omega
    · show (k : ℤ) + ((a + i) + 1) = _
      omega
  · rw [if_pos (by omega), if_neg hr]
    refine Prod.ext ?_ ?_
    · show (a : ℤ) + r = _
      omega
    · show (k : ℤ) + (a + r) = _
      omega

/-- The loop goes on from where the ranks before `i` left it. -/
theorem fillLoop_eq {n p : ℕ} : ∀ left i : ℕ,
    fillLoop (n / p : ℕ) left ((n % p - min i (n % p) : ℕ) : ℤ) (first n p i) =
      (List.range' i left).map fun j =>
        ((first n p j : ℤ), (first n p (j + 1) : ℤ) - first n p j) := by
  intro left
  induction left with
  | zero => exact fun i => rfl
  | succ left ih =>
    intro i
    have ih := ih (i + 1)
    have hnext := first_succ n p i
    rw [List.range'_succ, List.map_cons, fillLoop, ← ih, hnext]
    by_cases hr : i < n % p
    · have hcount : ((n % p - min i (n % p) : ℕ) : ℤ) - 1 = (n % p - min (i + 1) (n % p) : ℕ) := by
        omega
      rw [if_pos hr, if_neg (by omega), hcount]
      push_cast
      rw [add_sub_cancel_left]
    · have hcount : n % p - min i (n % p) = 0 := by omega
      have hcount' : n % p - min (i + 1) (n % p) = 0 := by omega
      rw [if_neg hr, hcount, hcount', if_pos Nat.cast_zero]
      push_cast
      rw [add_zero, add_sub_cancel_left]

/-- **The loop builds the same blocks.** -/
theorem normalizeSlices_eq {n p : ℕ} (hp : 0 < p) :
    normalizeSlices p n = (List.range p).map fun i =>
      ((first n p i : ℤ), (first n p (i + 1) : ℤ) - first n p i) := by
  have hmod : (n : ℤ).tmod p = (n % p : ℕ) := rfl
  have hk := tdiv_sub_tmod (n := n) 1 hp
  rw [Nat.cast_one, one_mul, one_mul] at hk
  have hloop := fillLoop_eq (n := n) (p := p) p 0
  have hzero : first n p 0 = 0 := by simp [first]
  rw [hzero, Nat.zero_min, Nat.sub_zero, ← List.range_eq_range'] at hloop
  rw [normalizeSlices, hk, hmod]
  exact hloop

theorem first_tiles {n p : ℕ} (hp : 0 < p) :
    Tiles p n fun i => ((first n p i : ℤ), (first n p (i + 1) : ℤ)) where
  ordered i _ := by
    show (first n p i : ℤ) ≤ first n p (i + 1)
    rw [first_succ]
    exact Int.ofNat_le.mpr (Nat.le_add_right _ _)
  start _ := by simp [first]
  consecutive _ _ := rfl
  finish i hi := by
    show (first n p (i + 1) : ℤ) = n
    rw [hi, first_end hp]

/-- The blocks of the three closed forms, by the number of computing ranks. -/
def closedForms (n p : ℕ) : List (ℕ → ℤ × ℤ) :=
  [fun i => arraySumBlock p i n,
   fun i => vectorDotBlock (p + 1) (i + 1) n,
   fun i => vectorAddBlock (p + 1) (i + 1) n]

theorem closedForms_eq {n p : ℕ} {b : ℕ → ℤ × ℤ} (hb : b ∈ closedForms n p) {i : ℕ} (hi : i < p) :
    b i = ((first n p i : ℤ), (first n p (i + 1) : ℤ)) := by
  rw [← blockBounds_eq hi]
  simp only [closedForms, List.mem_cons, List.not_mem_nil, or_false] at hb
  rcases hb with rfl | rfl | rfl
  · rfl
  · simp only [vectorDotBlock, add_sub_cancel_right]
  · simp only [vectorAddBlock, add_sub_cancel_right]

/-- **All block partitions are one partition.** The blocks of the `p` computing ranks are consecutive
and cover the indices `0, …, n - 1` once each, no two differ by more than one in size, and the loop of
`MPI_Normalize_Vector.c` builds the same blocks. -/
theorem blocks_onePartition {n p : ℕ} (hp : 0 < p) : ∀ b ∈ closedForms n p,
    Tiles p n b ∧
    (∀ x : ℤ, 0 ≤ x ∧ x < n → ∃! i, i < p ∧ (b i).1 ≤ x ∧ x < (b i).2) ∧
    (∀ i < p, ∀ j < p, ((b i).2 - (b i).1) - ((b j).2 - (b j).1) ≤ 1) ∧
    normalizeSlices p n = (List.range p).map fun i => ((b i).1, (b i).2 - (b i).1) := by
  intro b hb
  have htiles : Tiles p n b := (first_tiles hp).congr fun i hi => closedForms_eq hb hi
  refine ⟨htiles, fun x hx => htiles.existsUnique hp hx, fun i hi j hj => ?_, ?_⟩
  · rw [closedForms_eq hb hi, closedForms_eq hb hj, first_succ n p i, first_succ n p j]
    push_cast
    split <;> split <;> omega
  · rw [normalizeSlices_eq hp]
    refine List.map_congr_left fun i hi => ?_
    rw [closedForms_eq hb (List.mem_range.mp hi)]

/-- Three ranks, of which one has an entry more, and two entries for three ranks. -/
theorem blocks_onePartition_small : normalizeSlices 3 7 = [(0, 3), (3, 2), (5, 2)] ∧
    normalizeSlices 3 2 = [(0, 1), (1, 1), (2, 0)] := by
  constructor
  · exact (blocks_onePartition (n := 7) (p := 3) (by decide) _ (List.mem_cons_self ..)).2.2.2
  · exact (blocks_onePartition (n := 2) (p := 3) (by decide) _ (List.mem_cons_self ..)).2.2.2

end UnionCollegeCode.Mpi
