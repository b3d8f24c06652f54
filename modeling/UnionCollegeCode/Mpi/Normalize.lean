import Mathlib.Algebra.BigOperators.Group.List.Basic
import Mathlib.Algebra.Order.Field.Rat
import Mathlib.Data.List.GetD
import UnionCollegeCode.Mpi.Blocks

/-!
# `MPI_Normalize_Vector.c`

The ranks go through the collective calls together, so a collective is one function of what all ranks
hold. A `double` is a rational here. An access outside a buffer and a division by zero give `none`. What
`malloc` and the declarations without a value leave in memory is an argument of the program.
-/

set_option autoImplicit false

namespace UnionCollegeCode.Mpi

open Lib.Tiling

/-- What memory holds before it is written, by rank; the last two are buffers of the root. -/
structure Uninitialised where
  local_v : ℕ → ℕ → ℚ
  partial_sum : ℕ → ℚ
  normalizer : ℕ → ℚ
  v_result : ℕ → ℚ
  partial_sums : ℕ → ℚ

def malloc (n : ℤ) (junk : ℕ → ℚ) : List ℚ := (List.range n.toNat).map junk

/-- What is sent: `count` entries of `buf` from `p` on. -/
def sent (buf : List ℚ) (p count : ℤ) : Option (List ℚ) :=
  if 0 ≤ p ∧ 0 ≤ count ∧ p + count ≤ buf.length then some (slice buf (p, p + count)) else none

/-- What a buffer holds once `v` is received at `p`. -/
def received (buf : List ℚ) (p : ℤ) (v : List ℚ) : Option (List ℚ) :=
  if 0 ≤ p ∧ p + v.length ≤ buf.length then
    some (buf.take p.toNat ++ v ++ buf.drop (p.toNat + v.length))
  else none

/-- One result for each rank. -/
def onRanks {α : Type} (comm_sz : ℕ) (f : ℕ → Option α) : Option (List α) := (List.range comm_sz).mapM f

/-- `MPI_Scatterv` from `sendbuf` of the root into a new buffer of every rank. -/
def scatterv (comm_sz : ℕ) (sendbuf : List ℚ) (slices : List (ℤ × ℤ)) (junk : ℕ → ℕ → ℚ) :
    Option (List (List ℚ)) :=
  onRanks comm_sz fun my_rank => do
    let (displ, count) ← slices[my_rank]?
    received (malloc count (junk my_rank)) 0 (← sent sendbuf displ count)

/-- `MPI_Gatherv` into `recvbuf` of the root, from rank `q` on. -/
def gatherv (slices : List (ℤ × ℤ)) (sendbufs : List (List ℚ)) : ℕ → ℕ → List ℚ → Option (List ℚ)
  | 0, _, recvbuf => some recvbuf
  | left + 1, q, recvbuf => do
    let (displ, count) ← slices[q]?
    let sendbuf ← sendbufs[q]?
    let recvbuf ← received recvbuf displ (← sent sendbuf 0 count)
    gatherv slices sendbufs left (q + 1) recvbuf

/-- `MPI_Gather` of one number from every rank. -/
def gatherOne (comm_sz : ℕ) (xs : List ℚ) (recvbuf : List ℚ) : Option (List ℚ) :=
  gatherv ((List.range comm_sz).map fun q : ℕ => ((q : ℤ), 1)) (xs.map fun x => [x]) comm_sz 0 recvbuf

/-- `partial_sum += (local_v[i]*local_v[i])`, with `left` rounds to go. -/
def squareLoop (local_v : List ℚ) : ℕ → ℕ → ℚ → Option ℚ
  | 0, _, partial_sum => some partial_sum
  | left + 1, i, partial_sum => do
    let x ← local_v[i]?
    squareLoop local_v left (i + 1) (partial_sum + x * x)

/-- `normalizer += partial_sums[i]`. -/
def sumLoop (partial_sums : List ℚ) : ℕ → ℕ → ℚ → Option ℚ
  | 0, _, normalizer => some normalizer
  | left + 1, i, normalizer => do
    let x ← partial_sums[i]?
    sumLoop partial_sums left (i + 1) (normalizer + x)

/-- `local_v[i] /= normalizer`. -/
def divideLoop (normalizer : ℚ) : ℕ → ℕ → List ℚ → Option (List ℚ)
  | 0, _, local_v => some local_v
  | left + 1, i, local_v => do
    let x ← local_v[i]?
    if normalizer = 0 then none else divideLoop normalizer left (i + 1) (local_v.set i (x / normalizer))

/-- What the root ends with: the number it takes the root of, what it broadcasts, and the vector. -/
structure Normalized where
  radicand : ℚ
  normalizer : ℚ
  v_result : List ℚ

/-- `main` after `randomize_vector`. -/
def normalizeVector (sqrt : ℚ → ℚ) (comm_sz : ℕ) (v_start : List ℚ) (junk : Uninitialised) :
    Option Normalized := do
  let slices := normalizeSlices comm_sz v_start.length
  let local_vs ← scatterv comm_sz v_start slices junk.local_v
  let sums ← onRanks comm_sz fun my_rank => do
    let (_, count) ← slices[my_rank]?
    squareLoop (← local_vs[my_rank]?) count.toNat 0 (junk.partial_sum my_rank)
  let partial_sums ← gatherOne comm_sz sums (malloc comm_sz junk.partial_sums)
  let radicand ← sumLoop partial_sums comm_sz 0 (junk.normalizer 0)
  -- The broadcast gives every rank the root's value.
  let normalizer := sqrt radicand
  let local_vs ← onRanks comm_sz fun my_rank => do
    let (_, count) ← slices[my_rank]?
    divideLoop normalizer count.toNat 0 (← local_vs[my_rank]?)
  let v_result ← gatherv slices local_vs comm_sz 0 (malloc v_start.length junk.v_result)
  return { radicand, normalizer, v_result }

/-! ## The collectives -/

section Collectives

variable {α : Type} {p n : ℕ} {c : ℕ → ℕ} {v : List ℚ}

theorem onRanks_eq {f : ℕ → Option α} {a : ℕ → α} (h : ∀ i < p, f i = some (a i)) :
    onRanks p f = some ((List.range p).map a) := by
  induction p with
  | zero => rfl
  | succ p ih =>
    have ih := ih fun i hi => h i (Nat.lt_succ_of_lt hi)
    rw [onRanks] at ih
    rw [onRanks, List.range_succ, List.mapM_append, ih, List.mapM_cons, h p (Nat.lt_succ_self p),
      List.map_append]
    rfl

theorem length_malloc (junk : ℕ → ℚ) : (malloc n junk).length = n := by simp [malloc]

/-- The block between two of the borders `c`, as the collectives are given it. -/
def borders (c : ℕ → ℕ) (i : ℕ) : ℤ × ℤ := ((c i : ℤ), (c (i + 1) : ℤ) - c i)

/-- The entries of `v` between two borders. -/
def piece (v : List ℚ) (c : ℕ → ℕ) (i : ℕ) : List ℚ := (v.drop (c i)).take (c (i + 1) - c i)

theorem length_piece {i : ℕ} (hlast : c (i + 1) ≤ v.length) : (piece v c i).length = c (i + 1) - c i := by
  rw [piece, List.length_take, List.length_drop]
  omega

theorem take_append_piece {i : ℕ} (hc : Monotone c) : v.take (c i) ++ piece v c i = v.take (c (i + 1)) := by
  have hle : c i ≤ c (i + 1) := hc (Nat.le_succ i)
  rw [piece, ← List.take_add, Nat.add_sub_cancel' hle]

theorem map_piece (f : ℚ → ℚ) (i : ℕ) : (piece v c i).map f = piece (v.map f) c i := by
  rw [piece, piece, List.map_take, List.map_drop]

theorem sent_borders {i : ℕ} (hc : Monotone c) (hlast : c (i + 1) ≤ v.length) :
    sent v (borders c i).1 (borders c i).2 = some (piece v c i) := by
  have hle : c i ≤ c (i + 1) := hc (Nat.le_succ i)
  rw [sent, borders, if_pos (by omega), slice, piece]
  congr 2
  omega

theorem sent_piece {i : ℕ} (hc : Monotone c) (hlast : c (i + 1) ≤ v.length) :
    sent (piece v c i) 0 (borders c i).2 = some (piece v c i) := by
  have hle : c i ≤ c (i + 1) := hc (Nat.le_succ i)
  have hlen := length_piece hlast
  rw [sent, borders, if_pos (by omega), slice, Int.toNat_zero, List.drop_zero]
  exact congrArg some (List.take_of_length_le (by omega))

theorem scatterv_eq (hc : Monotone c) (hend : c p = v.length) (junk : ℕ → ℕ → ℚ) :
    scatterv p v ((List.range p).map (borders c)) junk = some ((List.range p).map (piece v c)) := by
  apply onRanks_eq
  intro i hi
  have hle : c i ≤ c (i + 1) := hc (Nat.le_succ i)
  have hlast : c (i + 1) ≤ v.length := hend ▸ hc (Nat.succ_le_of_lt hi)
  have hlen := length_piece hlast
  have hmalloc : (malloc (borders c i).2 (junk i)).length = c (i + 1) - c i := by
    simp only [malloc, borders, List.length_map, List.length_range]
    omega
  have hslice : ((List.range p).map (borders c))[i]? = some (borders c i) := by simp [hi]
  simp only [hslice, Option.bind_eq_bind, Option.bind_some, sent_borders hc hlast]
  rw [received, if_pos (by omega), Int.toNat_zero, List.take_zero, Nat.zero_add,
    List.drop_eq_nil_of_le (by omega), List.append_nil, List.nil_append]

/-- The pieces before the `q`-th one are in place. -/
theorem gatherv_eq (hc : Monotone c) (hend : c p = v.length) : ∀ left q buf, q + left = p →
    buf.length = v.length → buf.take (c q) = v.take (c q) →
    gatherv ((List.range p).map (borders c)) ((List.range p).map (piece v c)) left q buf = some v := by
  intro left
  induction left with
  | zero =>
    intro q buf hq hlen htake
    rw [← Nat.add_zero q, hq, hend, List.take_length, ← hlen, List.take_length] at htake
    rw [gatherv, htake]
  | succ left ih =>
    intro q buf hq hlen htake
    have hqp : q < p := by omega
    have hle : c q ≤ c (q + 1) := hc (Nat.le_succ q)
    have hlast : c (q + 1) ≤ v.length := hend ▸ hc (Nat.succ_le_of_lt hqp)
    have hpiece := length_piece hlast
    have hslice : ((List.range p).map (borders c))[q]? = some (borders c q) := by simp [hqp]
    have hbuf : ((List.range p).map (piece v c))[q]? = some (piece v c q) := by simp [hqp]
    have hreceived : received buf (borders c q).1 (piece v c q) =
        some (v.take (c (q + 1)) ++ buf.drop (c (q + 1))) := by
      rw [received, if_pos (by rw [borders]; omega), borders, Int.toNat_natCast, htake,
        take_append_piece hc, hpiece, Nat.add_sub_cancel' hle]
    rw [gatherv]
    simp only [hslice, hbuf, Option.bind_eq_bind, Option.bind_some, sent_piece hc hlast, hreceived]
    apply ih (q + 1) _ (by omega)
    · rw [List.length_append, List.length_take, List.length_drop]
      omega
    · rw [List.take_append_of_le_length, List.take_take, Nat.min_self]
      rw [List.length_take]
      omega

theorem gatherOne_eq (hlen : v.length = p) {buf : List ℚ} (hbuf : buf.length = p) :
    gatherOne p v buf = some v := by
  have hmono : Monotone fun i : ℕ => i := fun _ _ h => h
  have hborders : ((List.range p).map fun q : ℕ => ((q : ℤ), (1 : ℤ))) =
      (List.range p).map (borders fun i => i) := by
    apply List.map_congr_left
    intro q _
    rw [borders, Nat.cast_succ, add_sub_cancel_left]
  have hpieces : (v.map fun x => [x]) = (List.range p).map (piece v fun i => i) := by
    apply List.ext_getElem
    · simp [hlen]
    · intro i hi hi'
      rw [List.length_map] at hi
      rw [List.getElem_map, List.getElem_map, List.getElem_range, piece, Nat.add_sub_cancel_left,
        List.take_one_drop_eq_of_lt_length hi]
      rfl
  rw [gatherOne, hborders, hpieces]
  exact gatherv_eq hmono hlen.symm p 0 buf (Nat.zero_add p) (hbuf.trans hlen.symm) rfl

/-- A step that every rank takes with its piece. -/
theorem onRanks_pieces {f : ℕ → ℕ → List ℚ → Option α} {a : ℕ → α} (hc : Monotone c)
    (hend : c p = v.length) (h : ∀ i < p, f i (piece v c i).length (piece v c i) = some (a i)) :
    (onRanks p fun my_rank => do
      let (_, count) ← ((List.range p).map (borders c))[my_rank]?
      f my_rank count.toNat (← ((List.range p).map (piece v c))[my_rank]?)) =
        some ((List.range p).map a) := by
  apply onRanks_eq
  intro i hi
  have hslice : ((List.range p).map (borders c))[i]? = some (borders c i) := by simp [hi]
  have hpiece : ((List.range p).map (piece v c))[i]? = some (piece v c i) := by simp [hi]
  have hlen : (borders c i).2.toNat = (piece v c i).length := by
    rw [length_piece (hend ▸ hc (Nat.succ_le_of_lt hi)), borders]
    omega
  simp only [hslice, hpiece, Option.bind_eq_bind, Option.bind_some, hlen]
  exact h i hi

end Collectives

/-! ## The loops -/

section Loops

variable {c : ℕ → ℕ} {v : List ℚ}

def sumSquares (v : List ℚ) : ℚ := (v.map fun x => x * x).sum

theorem squareLoop_eq : ∀ left i sum, i + left = v.length →
    squareLoop v left i sum = some (sum + sumSquares (v.drop i)) := by
  intro left
  induction left with
  | zero =>
    intro i sum hi
    rw [squareLoop, List.drop_eq_nil_of_le (by omega), sumSquares, List.map_nil, List.sum_nil, add_zero]
  | succ left ih =>
    intro i sum hi
    have hlt : i < v.length := by omega
    rw [squareLoop, List.getElem?_eq_getElem hlt, List.drop_eq_getElem_cons hlt]
    simp only [Option.bind_eq_bind, Option.bind_some]
    rw [ih (i + 1) _ (by omega), sumSquares, sumSquares, List.map_cons, List.sum_cons, add_assoc]

theorem sumLoop_eq : ∀ left i sum, i + left = v.length →
    sumLoop v left i sum = some (sum + (v.drop i).sum) := by
  intro left
  induction left with
  | zero =>
    intro i sum hi
    rw [sumLoop, List.drop_eq_nil_of_le (by omega), List.sum_nil, add_zero]
  | succ left ih =>
    intro i sum hi
    have hlt : i < v.length := by omega
    rw [sumLoop, List.getElem?_eq_getElem hlt, List.drop_eq_getElem_cons hlt]
    simp only [Option.bind_eq_bind, Option.bind_some]
    rw [ih (i + 1) _ (by omega), List.sum_cons, add_assoc]

theorem divideLoop_eq {s : ℚ} (hs : s ≠ 0) : ∀ left done todo, left = todo.length →
    divideLoop s left done.length (done ++ todo) = some (done ++ todo.map fun x => x / s) := by
  intro left
  induction left with
  | zero =>
    intro done todo hlen
    rw [List.length_eq_zero_iff.mp hlen.symm]
    rfl
  | succ left ih =>
    intro done todo hlen
    cases todo with
    | nil => exact absurd hlen (Nat.succ_ne_zero left)
    | cons x todo =>
      have ih := ih (done ++ [x / s]) todo (Nat.succ.inj hlen)
      have hget : (done ++ x :: todo)[done.length]? = some x := by simp
      rw [List.length_append, List.append_assoc, List.append_assoc] at ih
      rw [divideLoop, hget, Option.bind_eq_bind, Option.bind_some, if_neg hs,
        List.set_append_right _ _ (Nat.le_refl _), Nat.sub_self]
      exact ih

/-- The partial sums add up. -/
theorem sum_pieces (hc : Monotone c) (hzero : c 0 = 0) (p : ℕ) :
    ((List.range p).map fun i => sumSquares (piece v c i)).sum = sumSquares (v.take (c p)) := by
  induction p with
  | zero => simp [hzero, sumSquares]
  | succ p ih =>
    rw [List.range_succ, List.map_append, List.sum_append, ih, ← take_append_piece hc]
    simp [sumSquares]

end Loops

/-! ## The program -/

section Program

variable {comm_sz : ℕ} {v : List ℚ} {junk : Uninitialised}

/-- What the sums start from, over all ranks. -/
def startValue (comm_sz : ℕ) (junk : Uninitialised) : ℚ :=
  junk.normalizer 0 + ((List.range comm_sz).map junk.partial_sum).sum

/-- The vector is divided by what is broadcast, whatever the locals held; the number under the root is
right up to what the sums start from. -/
theorem normalizeVector_eq (hp : 0 < comm_sz) {sqrt : ℚ → ℚ} {radicand : ℚ}
    (hradicand : startValue comm_sz junk + sumSquares v = radicand) (hsqrt : sqrt radicand ≠ 0) :
    normalizeVector sqrt comm_sz v junk =
      some ⟨radicand, sqrt radicand, v.map fun x => x / sqrt radicand⟩ := by
  obtain ⟨c, hcdef⟩ : ∃ c, c = first v.length comm_sz := ⟨_, rfl⟩
  have hc : Monotone c := by
    apply monotone_nat_of_le_succ
    intro i
    rw [hcdef, first_succ]
    exact Nat.le_add_right _ _
  have hzero : c 0 = 0 := by simp [hcdef, first]
  have hend : c comm_sz = v.length := by rw [hcdef, first_end hp]
  have hslices : normalizeSlices comm_sz v.length = (List.range comm_sz).map (borders c) := by
    rw [normalizeSlices_eq hp, hcdef]
    rfl
  obtain ⟨sums, hsumsdef⟩ : ∃ sums, sums = (List.range comm_sz).map fun i =>
    junk.partial_sum i + sumSquares (piece v c i) := ⟨_, rfl⟩
  -- The ranks' sums, the root's total, the ranks' quotients and what the root gathers of them.
  have hsums : (onRanks comm_sz fun my_rank => do
      let (_, count) ← ((List.range comm_sz).map (borders c))[my_rank]?
      squareLoop (← ((List.range comm_sz).map (piece v c))[my_rank]?) count.toNat 0
        (junk.partial_sum my_rank)) = some sums := by
    rw [hsumsdef]
    apply onRanks_pieces (f := fun i left v => squareLoop v left 0 (junk.partial_sum i)) hc hend
    intro i _
    rw [squareLoop_eq _ 0 _ (Nat.zero_add _), List.drop_zero]
  have hcount : sums.length = comm_sz := by rw [hsumsdef, List.length_map, List.length_range]
  have htotal : sumLoop sums comm_sz 0 (junk.normalizer 0) = some radicand := by
    rw [sumLoop_eq _ 0 _ (by rw [hcount, Nat.zero_add]), List.drop_zero, hsumsdef, List.sum_map_add,
      sum_pieces hc hzero, hend, List.take_length, ← hradicand, startValue, add_assoc]
  have hquotients : (onRanks comm_sz fun my_rank => do
      let (_, count) ← ((List.range comm_sz).map (borders c))[my_rank]?
      divideLoop (sqrt radicand) count.toNat 0 (← ((List.range comm_sz).map (piece v c))[my_rank]?)) =
        some ((List.range comm_sz).map (piece (v.map fun x => x / sqrt radicand) c)) := by
    apply onRanks_pieces (f := fun _ left v => divideLoop (sqrt radicand) left 0 v) hc hend
    intro i _
    rw [← map_piece]
    exact divideLoop_eq hsqrt _ [] _ rfl
  have hgathered := gatherv_eq (v := v.map fun x => x / sqrt radicand) hc
    (by rw [hend, List.length_map]) comm_sz 0 (malloc v.length junk.v_result) (Nat.zero_add _)
    (by rw [length_malloc, List.length_map]) (by rw [hzero, List.take_zero, List.take_zero])
  rw [normalizeVector, hslices, scatterv_eq hc hend]
  simp only [Option.bind_eq_bind, Option.bind_some]
  simp only [Option.bind_eq_bind] at hsums hquotients
  rw [hsums, Option.bind_some, gatherOne_eq hcount (length_malloc _), Option.bind_some, htotal,
    Option.bind_some, hquotients, Option.bind_some, hgathered]
  rfl

/-- **When the norm is the norm.** The number under the root is the sum of the squares, and the vector
is divided by the normalizer, exactly when the sums that nobody sets to zero start from zero together. -/
theorem normalizeVector_right_iff (hp : 0 < comm_sz) :
    (∀ sqrt : ℚ → ℚ, (∀ x, sqrt x ≠ 0) → ∃ out, normalizeVector sqrt comm_sz v junk = some out ∧
      out.radicand = sumSquares v ∧ out.normalizer = sqrt out.radicand ∧
      out.v_result = v.map fun x => x / out.normalizer) ↔
    junk.normalizer 0 + ((List.range comm_sz).map junk.partial_sum).sum = 0 := by
  constructor
  · intro h
    obtain ⟨out, hout, hradicand, -, -⟩ := h (fun _ => 1) fun _ => one_ne_zero
    rw [normalizeVector_eq hp rfl one_ne_zero] at hout
    obtain rfl := Option.some.inj hout
    exact add_eq_right.mp hradicand
  · intro h sqrt hsqrt
    have hradicand : startValue comm_sz junk + sumSquares v = sumSquares v := by
      rw [startValue, h, zero_add]
    exact ⟨_, normalizeVector_eq hp hradicand (hsqrt _), rfl, rfl, rfl⟩

/-- Memory that is all zero, and a square root that is right for 25. -/
theorem normalizeVector_right_zero : ∃ out,
    normalizeVector (fun _ => 5) 2 [3, 4] ⟨fun _ _ => 0, fun _ => 0, fun _ => 0, fun _ => 0, fun _ => 0⟩ =
      some out ∧
    out.radicand = sumSquares [3, 4] ∧ out.normalizer = 5 ∧
    out.v_result = [3, 4].map fun x => x / out.normalizer := by
  apply (normalizeVector_right_iff Nat.two_pos).mpr (by simp) fun _ => 5
  intro _
  norm_num

/-- One process, whose `partial_sum` starts from one. -/
theorem normalizeVector_wrong :
    (normalizeVector (fun _ => 1) 1 [3, 4]
      ⟨fun _ _ => 0, fun _ => 1, fun _ => 0, fun _ => 0, fun _ => 0⟩).map Normalized.radicand = some 26 ∧
    sumSquares [3, 4] ≠ 26 := by
  decide +kernel

end Program

end UnionCollegeCode.Mpi
