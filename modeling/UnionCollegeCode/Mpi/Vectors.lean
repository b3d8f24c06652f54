import Mathlib.Algebra.BigOperators.Fin
import UnionCollegeCode.Lib.Kahn
import UnionCollegeCode.Mpi.Blocks

/-!
# `MPI_vector_add.c` and `MPI_vector_dot.c`

The root hands the vectors to the workers and puts together what comes back. A `double` is an integer
here, a vector is the list of its entries, and a pointer into one is an offset. A receive of the wrong
type or of more than its buffer holds, and an access outside a vector, end the rank in `none`.

A worker's rank is one more than its number in `Lib.Kahn.stage`.
-/

set_option autoImplicit false

namespace UnionCollegeCode.Mpi

open Lib.Kahn Lib.Run Lib.Tiling

inductive Message
  | int (n : ℤ)
  | doubles (v : List ℤ)

section Library

variable {R : Type}

abbrev Rank (R : Type) := Prog ℕ Message (Option R)

def abort : Rank R := .done none

def calloc (n : ℤ) : List ℤ := List.replicate n.toNat 0

/-- `MPI_Send` of `count` doubles at offset `p` of `buf`. -/
def sendDoubles (buf : List ℤ) (p count : ℤ) (dst : ℕ) (next : Rank R) : Rank R :=
  if 0 ≤ p ∧ 0 ≤ count ∧ p + count ≤ buf.length then
    .send dst (.doubles (slice buf (p, p + count))) next
  else
    abort

/-- `MPI_Recv` of up to `count` doubles at offset `p` of `buf`. -/
def recvDoubles (buf : List ℤ) (p count : ℤ) (src : ℕ) (next : List ℤ → Rank R) : Rank R :=
  .recv src fun
    | .doubles v =>
      if 0 ≤ p ∧ v.length ≤ count ∧ p + v.length ≤ buf.length then
        next (buf.take p.toNat ++ v ++ buf.drop (p.toNat + v.length))
      else
        abort
    | .int _ => abort

def recvInt (src : ℕ) (next : ℤ → Rank R) : Rank R :=
  .recv src fun
    | .int n => next n
    | .doubles _ => abort

end Library

/-! ## `MPI_vector_add.c` -/

/-- `v3[i] = v1[i] + v2[i]`, with `left` rounds to go. -/
def addLoop (v1 v2 : List ℤ) : ℕ → ℕ → List ℤ → Option (List ℤ)
  | 0, _, v3 => some v3
  | left + 1, i, v3 => do
    let a ← v1[i]?
    let b ← v2[i]?
    if i < v3.length then addLoop v1 v2 left (i + 1) (v3.set i (a + b)) else none

def addWorker : Rank (List ℤ) :=
  recvInt 0 fun size =>
  recvDoubles (calloc size) 0 size 0 fun v1 =>
  recvDoubles (calloc size) 0 size 0 fun v2 =>
  match addLoop v1 v2 size.toNat 0 (calloc size) with
  | some v3 => .send 0 (.int size) (sendDoubles v3 0 size 0 (.done (some v3)))
  | none => abort

/-- `v3[f+l] = v1[f]`, with `v1` at offset `p` and `left` rounds to go. -/
def copyLoop (v1 : List ℤ) (p l : ℤ) : ℕ → ℤ → List ℤ → Option (List ℤ)
  | 0, _, v3 => some v3
  | left + 1, f, v3 => do
    let a ← v1[(p + f).toNat]?
    if 0 ≤ p + f ∧ 0 ≤ f + l ∧ f + l < v3.length then
      copyLoop v1 p l left (f + 1) (v3.set (f + l).toNat a)
    else none

/-- The second loop over the workers, from `q` on. -/
def addGather (p : ℤ) : ℕ → ℕ → List ℤ → List ℤ → ℤ → Rank (List ℤ)
  | 0, _, _, v3, _ => .done (some v3)
  | left + 1, q, v1, v3, l =>
    recvInt q fun size =>
    recvDoubles v1 p size q fun v1 =>
    match copyLoop v1 p l size.toNat 0 v3 with
    | some v3 => addGather p left (q + 1) v1 v3 (l + size)
    | none => abort

/-- The first loop over the workers, from `q` on, with `v1` and `v2` at offset `p`. -/
def addScatter (comm_sz SIZE : ℕ) (v1 v2 : List ℤ) : ℕ → ℕ → ℤ → Rank (List ℤ)
  | 0, _, p => addGather (p - SIZE) (comm_sz - 1) 1 v1 (calloc SIZE) 0
  | left + 1, q, p =>
    let (f, l) := vectorAddBlock comm_sz q SIZE
    let size := l - f
    .send q (.int size) (sendDoubles v1 p size q (sendDoubles v2 p size q
      (addScatter comm_sz SIZE v1 v2 left (q + 1) (p + size))))

/-- All ranks of `MPI_vector_add.c`. -/
def vectorAdd (comm_sz SIZE : ℕ) (v1 v2 : Fin SIZE → ℤ) : Net ℕ Message (Option (List ℤ)) :=
  stage (addScatter comm_sz SIZE (List.ofFn v1) (List.ofFn v2) (comm_sz - 1) 1 0)
    (fun i => if i + 1 < comm_sz then addWorker else abort) (fun _ => []) fun _ => []

/-! ## `MPI_vector_dot.c` -/

/-- `partial_product += *v1 * *v2`, with both pointers at offset `p` and `left` rounds to go. -/
def dotLoop (v1 v2 : List ℤ) : ℕ → ℤ → ℤ → Option ℤ
  | 0, _, partial_product => some partial_product
  | left + 1, p, partial_product =>
    if 0 ≤ p then do
      let a ← v1[p.toNat]?
      let b ← v2[p.toNat]?
      dotLoop v1 v2 left (p + 1) (partial_product + a * b)
    else none

def dotWorker (comm_sz my_rank SIZE : ℕ) : Rank ℤ :=
  recvDoubles (calloc SIZE) 0 SIZE 0 fun v1 =>
  recvDoubles (calloc SIZE) 0 SIZE 0 fun v2 =>
  let (f, l) := vectorDotBlock comm_sz my_rank SIZE
  match dotLoop v1 v2 (l - f).toNat f 0 with
  | some partial_product => .send 0 (.doubles [partial_product]) (.done (some partial_product))
  | none => abort

/-- The second loop over the workers, from `q` on. -/
def dotGather : ℕ → ℕ → ℤ → ℤ → Rank ℤ
  | 0, _, _, global_product => .done (some global_product)
  | left + 1, q, sub_product, global_product =>
    recvDoubles [sub_product] 0 1 q fun buf =>
    match buf with
    | sub_product :: _ => dotGather left (q + 1) sub_product (global_product + sub_product)
    | [] => abort

/-- The first loop over the workers, from `q` on. -/
def dotScatter (comm_sz SIZE : ℕ) (v1 v2 : List ℤ) : ℕ → ℕ → Rank ℤ
  | 0, _ => dotGather (comm_sz - 1) 1 0 0
  | left + 1, q =>
    sendDoubles v1 0 SIZE q (sendDoubles v2 0 SIZE q (dotScatter comm_sz SIZE v1 v2 left (q + 1)))

/-- All ranks of `MPI_vector_dot.c`. -/
def vectorDot (comm_sz SIZE : ℕ) (v1 v2 : Fin SIZE → ℤ) : Net ℕ Message (Option ℤ) :=
  stage (dotScatter comm_sz SIZE (List.ofFn v1) (List.ofFn v2) (comm_sz - 1) 1)
    (fun i => if i + 1 < comm_sz then dotWorker comm_sz (i + 1) SIZE else abort) (fun _ => [])
    fun _ => []

/-! ## Loops -/

theorem take_succ_set {v : List ℤ} {i : ℕ} (h : i < v.length) (a : ℤ) :
    (v.set i a).take (i + 1) = v.take i ++ [a] := by
  rw [List.set_eq_take_append_cons_drop, if_pos h, List.take_append, List.length_take,
    Nat.min_eq_left h.le, Nat.add_sub_cancel_left, List.take_take, Nat.min_eq_right (Nat.le_succ i)]
  rfl

theorem drop_set_of_lt {v : List ℤ} {i j : ℕ} (h : i < j) (a : ℤ) : (v.set i a).drop j = v.drop j := by
  rw [List.drop_set, if_pos h]

theorem addLoop_eq {v1 v2 : List ℤ} (h : v1.length = v2.length) : ∀ (left i : ℕ) (v3 : List ℤ),
    v3.length = v1.length → i + left = v1.length →
    addLoop v1 v2 left i v3 =
      some (v3.take i ++ List.zipWith (· + ·) (v1.drop i) (v2.drop i)) := by
  intro left
  induction left with
  | zero =>
    intro i v3 hlen hi
    rw [addLoop, List.take_of_length_le (by omega), List.drop_of_length_le (by omega),
      List.zipWith_nil_left, List.append_nil]
  | succ left ih =>
    intro i v3 hlen hi
    have hi1 : i < v1.length := by omega
    have hi2 : i < v2.length := by omega
    have hi3 : i < v3.length := by omega
    simp only [addLoop, List.getElem?_eq_getElem hi1, List.getElem?_eq_getElem hi2,
      Option.bind_eq_bind, Option.bind_some]
    rw [if_pos hi3, ih (i + 1) _ (by rw [List.length_set, hlen]) (by omega),
      List.drop_eq_getElem_cons hi1, List.drop_eq_getElem_cons hi2, List.zipWith_cons_cons,
      take_succ_set hi3, List.append_assoc, List.singleton_append]

theorem copyLoop_eq (v1 : List ℤ) (l : ℕ) : ∀ (left f : ℕ) (v3 : List ℤ),
    f + left ≤ v1.length → l + f + left ≤ v3.length →
    copyLoop v1 0 l left f v3 =
      some (v3.take (l + f) ++ (v1.drop f).take left ++ v3.drop (l + f + left)) := by
  intro left
  induction left with
  | zero =>
    intro f v3 _ _
    simp [copyLoop]
  | succ left ih =>
    intro f v3 hv1 hv3
    have hf : f < v1.length := by omega
    have hl : l + f < v3.length := by omega
    have hindex : ((0 : ℤ) + f).toNat = f := by omega
    have hplace : ((f : ℤ) + l).toNat = l + f := by omega
    have ih := ih (f + 1) (v3.set (l + f) v1[f]) (by omega) (by rw [List.length_set]; omega)
    simp only [copyLoop, hindex, hplace, List.getElem?_eq_getElem hf, Option.bind_eq_bind,
      Option.bind_some]
    rw [if_pos (by omega), show (f : ℤ) + 1 = (f + 1 : ℕ) by omega, ih,
      List.drop_eq_getElem_cons hf, List.take_succ_cons, ← Nat.add_assoc, take_succ_set hl,
      drop_set_of_lt (by omega), Nat.add_right_comm (l + f) 1 left, List.append_assoc (v3.take _),
      List.singleton_append]
    rfl

theorem dotLoop_eq (v1 v2 : List ℤ) : ∀ (left p : ℕ) (x : ℤ),
    p + left ≤ v1.length → p + left ≤ v2.length →
    dotLoop v1 v2 left p x =
      some (x + (List.zipWith (· * ·) ((v1.drop p).take left) ((v2.drop p).take left)).sum) := by
  intro left
  induction left with
  | zero =>
    intro p x _ _
    simp [dotLoop]
  | succ left ih =>
    intro p x hv1 hv2
    have hp1 : p < v1.length := by omega
    have hp2 : p < v2.length := by omega
    have ih := ih (p + 1) (x + v1[p] * v2[p]) (by omega) (by omega)
    simp only [dotLoop, Int.toNat_natCast, List.getElem?_eq_getElem hp1,
      List.getElem?_eq_getElem hp2, Option.bind_eq_bind, Option.bind_some]
    rw [if_pos (Int.natCast_nonneg p), show (p : ℤ) + 1 = (p + 1 : ℕ) by omega, ih,
      List.drop_eq_getElem_cons hp1, List.drop_eq_getElem_cons hp2, List.take_succ_cons,
      List.take_succ_cons, List.zipWith_cons_cons, List.sum_cons, add_assoc]

/-! ## What one rank does -/

section Ranks

variable {R : Type} {buf : List ℤ} {next' : Rank R}

theorem sendDoubles_eq {p c : ℤ} {dst : ℕ} {next : Rank R} (hp : 0 ≤ p) (hc : 0 ≤ c)
    (hlen : p + c ≤ buf.length) :
    sendDoubles buf p c dst next = .send dst (.doubles (slice buf (p, p + c))) next :=
  if_pos ⟨hp, hc, hlen⟩

theorem reads_int {src : ℕ} {size : ℤ} {ms : List Message} {next : ℤ → Rank R}
    (h : Reads src ms (next size) next') : Reads src (.int size :: ms) (recvInt src next) next' :=
  ⟨_, rfl, h⟩

/-- A vector received at the beginning of a buffer. -/
theorem reads_doubles {count : ℤ} {src : ℕ} {v : List ℤ} {ms : List Message}
    {next : List ℤ → Rank R} (hcount : v.length ≤ count) (hlen : v.length ≤ buf.length)
    (h : Reads src ms (next (v ++ buf.drop v.length)) next') :
    Reads src (.doubles v :: ms) (recvDoubles buf 0 count src next) next' := by
  refine ⟨_, rfl, ?_⟩
  show Reads src ms (if _ then _ else _) next'
  rw [if_pos ⟨le_refl 0, hcount, by omega⟩, Int.toNat_zero, List.take_zero, List.nil_append,
    Nat.zero_add]
  exact h

/-- A vector that fills the buffer. -/
theorem reads_all {count : ℤ} {src : ℕ} {v : List ℤ} {ms : List Message} {next : List ℤ → Rank R}
    (hcount : v.length ≤ count) (hlen : v.length = buf.length)
    (h : Reads src ms (next v) next') :
    Reads src (.doubles v :: ms) (recvDoubles buf 0 count src next) next' := by
  refine reads_doubles hcount hlen.le ?_
  rw [hlen, List.drop_length, List.append_nil]
  exact h

end Ranks

theorem length_calloc (n : ℕ) : (calloc n).length = n := by
  rw [calloc, List.length_replicate, Int.toNat_natCast]

/-- A worker of `MPI_vector_add.c` returns the sum of what it is sent. -/
theorem addWorker_reads {a b : List ℤ} {size : ℕ} (ha : a.length = size) (hb : b.length = size) :
    Reads 0 [.int size, .doubles a, .doubles b] addWorker
      (sends 0 [.int size, .doubles (List.zipWith (· + ·) a b)]
        (.done (some (List.zipWith (· + ·) a b)))) := by
  have hbuf := length_calloc size
  refine reads_int (reads_all (by omega) (by omega) (reads_all (by omega) (by omega) ?_))
  have hloop := addLoop_eq (ha.trans hb.symm) size 0 (calloc size) (by omega) (by omega)
  have hlen : (List.zipWith (· + ·) a b).length = size := by
    rw [List.length_zipWith, ha, hb, Nat.min_self]
  rw [List.take_zero, List.nil_append, List.drop_zero, List.drop_zero] at hloop
  simp only [Int.toNat_natCast, hloop]
  rw [sendDoubles_eq (le_refl 0) (Int.natCast_nonneg size) (by omega), slice]
  simp only [Int.toNat_zero, List.drop_zero, zero_add, sub_zero, Int.toNat_natCast]
  rw [List.take_of_length_le (by omega)]
  rfl

/-- A worker of `MPI_vector_dot.c` returns the dot product over its block. -/
theorem dotWorker_reads {v1 v2 : List ℤ} {n i : ℕ} (hi : i < n) (h : v1.length = v2.length) :
    Reads 0 [.doubles v1, .doubles v2] (dotWorker (n + 1) (i + 1) v1.length)
      (sends 0 [.doubles [(slice (List.zipWith (· * ·) v1 v2)
          (first v1.length n i, first v1.length n (i + 1))).sum]]
        (.done (some (slice (List.zipWith (· * ·) v1 v2)
          (first v1.length n i, first v1.length n (i + 1))).sum))) := by
  have hbuf := length_calloc v1.length
  refine reads_all (by omega) (by omega) (reads_all (by omega) (by omega) ?_)
  have hblock : vectorDotBlock ((n + 1 : ℕ) : ℤ) ((i + 1 : ℕ) : ℤ) (v1.length : ℕ) =
      ((first v1.length n i : ℤ), (first v1.length n (i + 1) : ℤ)) := by
    rw [Nat.cast_succ, Nat.cast_succ]
    exact closedForms_eq (List.mem_cons_of_mem _ (List.mem_cons_self ..)) hi
  have hle : (first v1.length n i : ℤ) ≤ first v1.length n (i + 1) :=
    (first_tiles (Nat.zero_lt_of_lt hi)).ordered i hi
  have hlast : (first v1.length n (i + 1) : ℤ) ≤ v1.length :=
    (first_tiles (Nat.zero_lt_of_lt hi)).last_le hi
  have hloop := dotLoop_eq v1 v2
    ((first v1.length n (i + 1) : ℤ) - first v1.length n i).toNat (first v1.length n i) 0
    (by omega) (by omega)
  rw [← List.take_zipWith, ← List.drop_zipWith, zero_add] at hloop
  simp only [hblock, hloop]
  rfl

/-! ## All ranks -/

section Run

variable {n : ℕ} {v1 v2 : List ℤ}

theorem slice_zipWith {f : ℤ → ℤ → ℤ} {c : ℤ × ℤ} :
    List.zipWith f (slice v1 c) (slice v2 c) = slice (List.zipWith f v1 v2) c := by
  rw [slice, slice, slice, List.drop_zipWith, List.take_zipWith]

theorem slice_all {c : ℤ} (h : c = v1.length) : slice v1 (0, 0 + c) = v1 := by
  rw [slice, h]
  simp

/-- The entries of `v` in the block of worker `q` of `n`. -/
def part (n : ℕ) (v : List ℤ) (q : ℕ) : List ℤ :=
  slice v (first v.length n q, first v.length n (q + 1))

theorem first_le_succ (N n q : ℕ) : first N n q ≤ first N n (q + 1) := by
  rw [first_succ]
  exact Nat.le_add_right _ _

theorem first_succ_le {N q : ℕ} (hq : q < n) : first N n (q + 1) ≤ N := by
  have hlast := (first_tiles (n := N) (Nat.zero_lt_of_lt hq)).last_le hq
  exact Int.ofNat_le.mp hlast

theorem length_part {v : List ℤ} {q : ℕ} (hq : q < n) :
    first v.length n q + (part n v q).length = first v.length n (q + 1) := by
  have hlen := length_slice (first_tiles (n := v.length) (Nat.zero_lt_of_lt hq)) hq
  have hle := first_le_succ v.length n q
  have hlen : ((part n v q).length : ℤ) = first v.length n (q + 1) - first v.length n q := hlen
  omega

theorem take_append_part {v : List ℤ} {q : ℕ} :
    v.take (first v.length n q) ++ part n v q = v.take (first v.length n (q + 1)) := by
  have hle : (first v.length n q : ℤ) ≤ first v.length n (q + 1) :=
    Int.ofNat_le.mpr (first_le_succ v.length n q)
  exact take_append_slice (c := (first v.length n q, first v.length n (q + 1)))
    (Int.natCast_nonneg _) hle

theorem part_zipWith {f : ℤ → ℤ → ℤ} (h : v2.length = v1.length) {q : ℕ} :
    List.zipWith f (part n v1 q) (part n v2 q) = part n (List.zipWith f v1 v2) q := by
  rw [part, part, part, slice_zipWith.symm, List.length_zipWith, h, Nat.min_self]

/-! ### `MPI_vector_add.c` -/

/-- The root's first vector when the answers of the first `q` workers have gone over it. -/
def overwritten (n : ℕ) (v1 v3 : List ℤ) : ℕ → List ℤ
  | 0 => v1
  | q + 1 => part n v3 q ++ (overwritten n v1 v3 q).drop (part n v3 q).length

theorem length_overwritten {v3 : List ℤ} (h : v3.length = v1.length) {q : ℕ} (hq : q ≤ n) :
    (overwritten n v1 v3 q).length = v1.length := by
  induction q with
  | zero => rfl
  | succ q ih =>
    have hpart := length_part (v := v3) hq
    have hlast := first_succ_le (N := v3.length) hq
    have ih := ih (Nat.le_of_succ_le hq)
    simp only [overwritten, List.length_append, List.length_drop]
    omega

/-- The root sends worker `q` its entries of both vectors. -/
theorem addScatter_eq (h : v2.length = v1.length) {q : ℕ} (hq : q < n) :
    addScatter (n + 1) v1.length v1 v2 (n - q) (q + 1) (first v1.length n q) =
      sends (q + 1) [.int (part n v1 q).length, .doubles (part n v1 q), .doubles (part n v2 q)]
        (addScatter (n + 1) v1.length v1 v2 (n - (q + 1)) (q + 1 + 1) (first v1.length n (q + 1))) := by
  have hleft : n - q = (n - (q + 1)) + 1 := by omega
  have hblock : vectorAddBlock ((n + 1 : ℕ) : ℤ) ((q + 1 : ℕ) : ℤ) v1.length =
      ((first v1.length n q : ℤ), (first v1.length n (q + 1) : ℤ)) := by
    rw [Nat.cast_succ, Nat.cast_succ]
    exact closedForms_eq
      (List.mem_cons_of_mem _ (List.mem_cons_of_mem _ (List.mem_cons_self ..))) hq
  have hlen := length_part (v := v1) hq
  have hlast := first_succ_le (N := v1.length) hq
  have hsize : (first v1.length n (q + 1) : ℤ) - first v1.length n q = (part n v1 q).length := by
    omega
  have hnext : (first v1.length n q : ℤ) + (part n v1 q).length = first v1.length n (q + 1) := by
    omega
  rw [hleft, addScatter, hblock]
  simp only [hsize]
  rw [sendDoubles_eq (by omega) (by omega) (by omega),
    sendDoubles_eq (by omega) (by omega) (by omega), hnext, part, part, h]
  rfl

/-- The root's third vector then. -/
def filled (n : ℕ) (v3 : List ℤ) (q : ℕ) : List ℤ :=
  v3.take (first v3.length n q) ++ (calloc v3.length).drop (first v3.length n q)

theorem copyLoop_filled {v3 rest : List ℤ} {q : ℕ} (hq : q < n) :
    copyLoop (part n v3 q ++ rest) 0 (first v3.length n q) (part n v3 q).length 0 (filled n v3 q) =
      some (filled n v3 (q + 1)) := by
  have hlen := length_part (v := v3) hq
  have hlast := first_succ_le (N := v3.length) hq
  have htake : (v3.take (first v3.length n q)).length = first v3.length n q := by
    rw [List.length_take]
    omega
  have hloop := copyLoop_eq (part n v3 q ++ rest) (first v3.length n q)
    (part n v3 q).length 0 (filled n v3 q)
    (by
      rw [List.length_append]
      omega)
    (by
      rw [filled, List.length_append, List.length_drop, htake, length_calloc]
      omega)
  rw [Nat.cast_zero, Nat.add_zero, List.drop_zero, List.take_left, hlen] at hloop
  rw [hloop, filled, List.take_left' htake, take_append_part, List.drop_append, htake,
    List.drop_of_length_le (by omega), List.nil_append, List.drop_drop, filled]
  congr 3
  omega

/-- The root takes the answer of worker `q`. -/
theorem addGather_reads {v3 : List ℤ} (h : v3.length = v1.length) {q : ℕ} (hq : q < n) :
    Reads (q + 1) [.int (part n v3 q).length, .doubles (part n v3 q)]
      (addGather 0 (n - q) (q + 1) (overwritten n v1 v3 q) (filled n v3 q) (first v3.length n q))
      (addGather 0 (n - (q + 1)) (q + 1 + 1) (overwritten n v1 v3 (q + 1)) (filled n v3 (q + 1))
        (first v3.length n (q + 1))) := by
  have hleft : n - q = (n - (q + 1)) + 1 := by omega
  have hlen := length_part (v := v3) hq
  have hlast := first_succ_le (N := v3.length) hq
  have hover := length_overwritten (n := n) h (Nat.le_of_lt hq)
  have hnext : (first v3.length n q : ℤ) + (part n v3 q).length = first v3.length n (q + 1) := by
    omega
  rw [hleft, addGather]
  refine reads_int (reads_doubles (le_refl _) (by omega) ?_)
  simp only [Int.toNat_natCast, copyLoop_filled hq, hnext]
  rfl

/-- `MPI_vector_add.c` with `n` workers leaves the sum with the root. -/
theorem vectorAdd_steps (v1 v2 : List ℤ) (hn : 0 < n) (h : v2.length = v1.length)
    {g : ℕ → Rank (List ℤ)} (hg : ∀ q < n, g q = addWorker) :
    Steps (stage (addScatter (n + 1) v1.length v1 v2 n 1 0) g (fun _ => []) fun _ => [])
      (stage (.done (some (List.zipWith (· + ·) v1 v2)))
        (upTo n (fun q => .done (some (part n (List.zipWith (· + ·) v1 v2) q))) g)
        (fun _ => []) fun _ => []) := by
  set v3 := List.zipWith (· + ·) v1 v2 with hv3
  have hlen : v3.length = v1.length := by rw [hv3, List.length_zipWith, h, Nat.min_self]
  have hzero : first v1.length n 0 = 0 := by simp [first]
  have hend : first v1.length n n = v1.length := first_end hn
  have hrun := masterWorker (n := n) (g := g) (r := some v3)
    (s := fun q => addScatter (n + 1) v1.length v1 v2 (n - q) (q + 1) (first v1.length n q))
    (c := fun q => addGather 0 (n - q) (q + 1) (overwritten n v1 v3 q) (filled n v3 q)
      (first v3.length n q))
    (t := fun q => [.int (part n v1 q).length, .doubles (part n v1 q), .doubles (part n v2 q)])
    (v := fun q => [.int (part n v3 q).length, .doubles (part n v3 q)])
    (y := fun q => some (part n v3 q))
    (fun q hq => addScatter_eq h hq) ?turn ?worker (fun q hq => addGather_reads hlen hq) ?done
  -- After the last part the root starts to gather, from the first worker on.
  case turn =>
    simp only [Nat.sub_self, Nat.sub_zero, hend, hlen, hzero]
    rw [addScatter, sub_self, Nat.add_sub_cancel, filled, hlen, hzero]
    rfl
  case worker =>
    intro q hq
    rw [hg q hq]
    have hq1 := length_part (v := v1) hq
    have hq2 := length_part (v := v2) hq
    have hq3 := length_part (v := v3) hq
    rw [h] at hq2
    rw [hlen] at hq3
    have hread := addWorker_reads (a := part n v1 q) (b := part n v2 q) rfl (by omega)
    rw [part_zipWith h, show (part n v1 q).length = (part n v3 q).length by omega] at hread
    show Reads 0 [.int (part n v1 q).length, _, _] addWorker _
    rw [show (part n v1 q).length = (part n v3 q).length by omega]
    exact hread
  case done =>
    simp only [Nat.sub_self]
    rw [addGather, filled, hlen, hend, ← hlen, List.take_length, List.drop_of_length_le
      (by rw [length_calloc]), List.append_nil]
  simp only [Nat.sub_zero, hzero] at hrun
  exact hrun

/-! ### `MPI_vector_dot.c` -/

/-- The root sends worker `q` both vectors. -/
theorem dotScatter_eq (h : v2.length = v1.length) {q : ℕ} (hq : q < n) :
    dotScatter (n + 1) v1.length v1 v2 (n - q) (q + 1) =
      sends (q + 1) [.doubles v1, .doubles v2]
        (dotScatter (n + 1) v1.length v1 v2 (n - (q + 1)) (q + 1 + 1)) := by
  have hleft : n - q = (n - (q + 1)) + 1 := by omega
  rw [hleft, dotScatter, sendDoubles_eq (le_refl 0) (by omega) (by omega),
    sendDoubles_eq (le_refl 0) (by omega) (by omega), slice_all rfl, slice_all (by rw [h])]
  rfl

/-- The last answer the root has taken. -/
def lastAnswer (n : ℕ) (v : List ℤ) : ℕ → ℤ
  | 0 => 0
  | q + 1 => (part n v q).sum

theorem dotGather_reads {v : List ℤ} {q : ℕ} (hq : q < n) :
    Reads (q + 1) [.doubles [(part n v q).sum]]
      (dotGather (n - q) (q + 1) (lastAnswer n v q) (v.take (first v.length n q)).sum)
      (dotGather (n - (q + 1)) (q + 1 + 1) (lastAnswer n v (q + 1))
        (v.take (first v.length n (q + 1))).sum) := by
  have hleft : n - q = (n - (q + 1)) + 1 := by omega
  rw [hleft, dotGather]
  refine reads_all (le_refl _) rfl ?_
  rw [← take_append_part, List.sum_append]
  rfl

/-- `MPI_vector_dot.c` with `n` workers leaves the dot product with the root. -/
theorem vectorDot_steps (v1 v2 : List ℤ) (hn : 0 < n) (h : v2.length = v1.length)
    {g : ℕ → Rank ℤ} (hg : ∀ q < n, g q = dotWorker (n + 1) (q + 1) v1.length) :
    Steps (stage (dotScatter (n + 1) v1.length v1 v2 n 1) g (fun _ => []) fun _ => [])
      (stage (.done (some (List.zipWith (· * ·) v1 v2).sum))
        (upTo n (fun q => .done (some (part n (List.zipWith (· * ·) v1 v2) q).sum)) g)
        (fun _ => []) fun _ => []) := by
  set v := List.zipWith (· * ·) v1 v2 with hv
  have hlen : v.length = v1.length := by rw [hv, List.length_zipWith, h, Nat.min_self]
  have hzero : first v.length n 0 = 0 := by simp [first]
  have hend : first v.length n n = v.length := first_end hn
  have hrun := masterWorker (n := n) (g := g) (r := some v.sum)
    (s := fun q => dotScatter (n + 1) v1.length v1 v2 (n - q) (q + 1))
    (c := fun q => dotGather (n - q) (q + 1) (lastAnswer n v q) (v.take (first v.length n q)).sum)
    (t := fun _ => [.doubles v1, .doubles v2])
    (v := fun q => [.doubles [(part n v q).sum]])
    (y := fun q => some (part n v q).sum)
    (fun q hq => dotScatter_eq h hq) ?turn ?worker (fun q hq => dotGather_reads hq) ?done
  case turn =>
    simp only [Nat.sub_self, Nat.sub_zero, hzero]
    rfl
  case worker =>
    intro q hq
    rw [hg q hq]
    have hread := dotWorker_reads hq h.symm
    rw [← hlen] at hread ⊢
    exact hread
  case done =>
    simp only [Nat.sub_self, hend, List.take_length]
    rfl
  simp only [Nat.sub_zero] at hrun
  exact hrun

end Run

/-! ## Every process count -/

/-- What the two programs are to compute, whatever the vectors and however the ranks interleave: the
root's `v3` and its `global_product` are right when all ranks are done, no rank has ended early and no
message is left over; the ranks can always get done; and every index is in the block of one worker. -/
structure Computes (comm_sz SIZE : ℕ) : Prop where
  add (v1 v2 : Fin SIZE → ℤ) : ∀ is w, exec Lib.Kahn.step (vectorAdd comm_sz SIZE v1 v2) is = some w →
    (w.Finished →
      w.prog 0 = .done (some (List.ofFn fun i => v1 i + v2 i)) ∧
      (∀ i < comm_sz, ∃ v, w.prog i = .done (some v)) ∧ ∀ c, w.chan c = []) ∧
    ∃ js f, exec Lib.Kahn.step w js = some f ∧ f.Finished
  dot (v1 v2 : Fin SIZE → ℤ) : ∀ is w, exec Lib.Kahn.step (vectorDot comm_sz SIZE v1 v2) is = some w →
    (w.Finished →
      w.prog 0 = .done (some (∑ i, v1 i * v2 i)) ∧
      (∀ i < comm_sz, ∃ x, w.prog i = .done (some x)) ∧ ∀ c, w.chan c = []) ∧
    ∃ js f, exec Lib.Kahn.step w js = some f ∧ f.Finished
  addBlocks : ∀ x : ℤ, 0 ≤ x ∧ x < SIZE → ∃! q : ℕ, (1 ≤ q ∧ q < comm_sz) ∧
    (vectorAddBlock comm_sz q SIZE).1 ≤ x ∧ x < (vectorAddBlock comm_sz q SIZE).2
  dotBlocks : ∀ x : ℤ, 0 ≤ x ∧ x < SIZE → ∃! q : ℕ, (1 ≤ q ∧ q < comm_sz) ∧
    (vectorDotBlock comm_sz q SIZE).1 ≤ x ∧ x < (vectorDotBlock comm_sz q SIZE).2

/-- A block for every index, by the ranks of the workers. -/
theorem ranks_existsUnique {n SIZE : ℕ} (hn : 0 < n) {b : ℕ → ℤ × ℤ} (hb : b ∈ closedForms SIZE n)
    {c : ℕ → ℤ × ℤ} (hc : ∀ i, c (i + 1) = b i) {x : ℤ} (hx : 0 ≤ x ∧ x < SIZE) :
    ∃! q : ℕ, (1 ≤ q ∧ q < n + 1) ∧ (c q).1 ≤ x ∧ x < (c q).2 := by
  have htiles : Tiles n SIZE b := (first_tiles hn).congr fun i hi => closedForms_eq hb hi
  obtain ⟨i, ⟨hi, hmem⟩, hunique⟩ := htiles.existsUnique hn hx
  refine ⟨i + 1, ⟨⟨Nat.succ_pos i, Nat.succ_lt_succ hi⟩, by rwa [hc]⟩, ?_⟩
  intro q hq
  obtain ⟨k, rfl⟩ : ∃ k, q = k + 1 := Nat.exists_eq_succ_of_ne_zero (Nat.ne_of_gt hq.1.1)
  rw [hc] at hq
  rw [hunique k ⟨Nat.lt_of_succ_lt_succ hq.1.2, hq.2⟩]

theorem zipWith_ofFn {n : ℕ} (f : ℤ → ℤ → ℤ) (v1 v2 : Fin n → ℤ) :
    List.zipWith f (List.ofFn v1) (List.ofFn v2) = List.ofFn fun i => f (v1 i) (v2 i) := by
  refine List.ext_getElem (by simp) fun i hi hi' => ?_
  simp

/-- The last net of a run: the root's result, the results of the `n` workers, and nobody else. -/
theorem finished_stage {R : Type} {n : ℕ} {r : R} {y : ℕ → R} {g : ℕ → Rank R}
    (hg : ∀ q, ¬ q < n → g q = abort) :
    (stage (.done (some r)) (upTo n (fun q => .done (some (y q))) g)
      (fun _ => []) fun _ => ([] : List Message)).Finished ∧
    (∀ i < n + 1, ∃ x, (stage (.done (some r)) (upTo n (fun q => .done (some (y q))) g)
      (fun _ => []) fun _ => ([] : List Message)).prog i = .done (some x)) ∧
    ∀ c, (stage (.done (some r)) (upTo n (fun q => .done (some (y q))) g)
      (fun _ => []) fun _ => ([] : List Message)).chan c = [] := by
  refine ⟨fun i => ?_, fun i hi => ?_, fun ⟨i, j⟩ => ?_⟩
  · cases i with
    | zero => exact ⟨some r, rfl⟩
    | succ q =>
      by_cases hq : q < n
      · exact ⟨some (y q), if_pos hq⟩
      · exact ⟨none, (if_neg hq).trans (hg q hq)⟩
  · cases i with
    | zero => exact ⟨r, rfl⟩
    | succ q => exact ⟨y q, if_pos (Nat.lt_of_succ_lt_succ hi)⟩
  · cases i <;> cases j <;> rfl

/-- With a worker, both programs compute. -/
theorem computes_workers {n SIZE : ℕ} (hn : 0 < n) : Computes (n + 1) SIZE where
  add v1 v2 is w hrun := by
    have hsteps := vectorAdd_steps (List.ofFn v1) (List.ofFn v2)
      (g := fun i => if i + 1 < n + 1 then addWorker else abort) hn (by simp)
      fun q hq => if_pos (Nat.succ_lt_succ hq)
    rw [zipWith_ofFn, List.length_ofFn] at hsteps
    obtain ⟨hf, hdone, hempty⟩ := finished_stage (n := n) (r := List.ofFn fun i => v1 i + v2 i)
      (y := part n (List.ofFn fun i => v1 i + v2 i))
      (g := fun i => if i + 1 < n + 1 then addWorker else abort)
      fun q hq => if_neg fun hlt => hq (Nat.lt_of_succ_lt_succ hlt)
    obtain ⟨hend, ks, hks⟩ := hsteps.determines hf hrun
    refine ⟨fun hfinished => ?_, ks, _, hks, hf⟩
    rw [hend hfinished]
    exact ⟨rfl, hdone, hempty⟩
  dot v1 v2 is w hrun := by
    have hsteps := vectorDot_steps (List.ofFn v1) (List.ofFn v2)
      (g := fun i => if i + 1 < n + 1 then dotWorker (n + 1) (i + 1) SIZE else abort) hn (by simp)
      fun q hq => by rw [if_pos (Nat.succ_lt_succ hq), List.length_ofFn]
    rw [zipWith_ofFn, List.length_ofFn, List.sum_ofFn] at hsteps
    obtain ⟨hf, hdone, hempty⟩ := finished_stage (n := n) (r := ∑ i, v1 i * v2 i)
      (y := fun q => (part n (List.ofFn fun i => v1 i * v2 i) q).sum)
      (g := fun i => if i + 1 < n + 1 then dotWorker (n + 1) (i + 1) SIZE else abort)
      fun q hq => if_neg fun hlt => hq (Nat.lt_of_succ_lt_succ hlt)
    obtain ⟨hend, ks, hks⟩ := hsteps.determines hf hrun
    refine ⟨fun hfinished => ?_, ks, _, hks, hf⟩
    rw [hend hfinished]
    exact ⟨rfl, hdone, hempty⟩
  addBlocks x hx :=
    ranks_existsUnique hn (List.mem_cons_of_mem _ (List.mem_cons_of_mem _ (List.mem_cons_self ..)))
      (fun i => by rw [Nat.cast_succ, Nat.cast_succ]) hx
  dotBlocks x hx :=
    ranks_existsUnique hn (List.mem_cons_of_mem _ (List.mem_cons_self ..))
      (fun i => by rw [Nat.cast_succ, Nat.cast_succ]) hx

/-- Without one, the root is done at once, with the vectors it allocated. -/
theorem alone_finished {R : Type} {p : Rank R} {r : R} (hp : p = .done (some r)) {g : ℕ → Rank R}
    (hg : ∀ q, g q = abort) :
    (stage p g (fun _ => []) fun _ => ([] : List Message)).Finished := by
  intro i
  cases i with
  | zero => exact ⟨some r, hp⟩
  | succ q => exact ⟨none, hg q⟩

theorem vectorDot_alone (SIZE : ℕ) (v1 v2 : Fin SIZE → ℤ) :
    (vectorDot 1 SIZE v1 v2).Finished ∧ (vectorDot 1 SIZE v1 v2).prog 0 = .done (some 0) :=
  ⟨alone_finished rfl fun q => if_neg (by omega), rfl⟩

theorem not_computes_alone {SIZE : ℕ} (h : 0 < SIZE) : ¬ Computes 1 SIZE := by
  intro hcomputes
  obtain ⟨hfinished, hzero⟩ := vectorDot_alone SIZE (fun _ => 1) fun _ => 1
  obtain ⟨hright, -⟩ := (hcomputes.dot (fun _ => 1) (fun _ => 1) [] _ rfl).1 hfinished
  rw [hzero] at hright
  simp only [Prog.done.injEq, Option.some.injEq, mul_one, Finset.sum_const, Finset.card_univ,
    Fintype.card_fin, nsmul_eq_mul] at hright
  omega

/-- Empty vectors need no worker. -/
theorem computes_empty : Computes 1 0 where
  add v1 v2 is w hrun := by
    have hf : (vectorAdd 1 0 v1 v2).Finished :=
      alone_finished (r := []) rfl fun q => if_neg (by omega)
    obtain ⟨hend, ks, hks⟩ := (Steps.refl _).determines hf hrun
    refine ⟨fun hfinished => ?_, ks, _, hks, hf⟩
    rw [hend hfinished]
    refine ⟨rfl, fun i hi => ?_, fun ⟨i, j⟩ => ?_⟩
    · obtain rfl := Nat.lt_one_iff.mp hi
      exact ⟨[], rfl⟩
    · cases i <;> cases j <;> rfl
  dot v1 v2 is w hrun := by
    have hf := (vectorDot_alone 0 v1 v2).1
    obtain ⟨hend, ks, hks⟩ := (Steps.refl _).determines hf hrun
    refine ⟨fun hfinished => ?_, ks, _, hks, hf⟩
    rw [hend hfinished]
    refine ⟨rfl, fun i hi => ?_, fun ⟨i, j⟩ => ?_⟩
    · obtain rfl := Nat.lt_one_iff.mp hi
      exact ⟨0, rfl⟩
    · cases i <;> cases j <;> rfl
  addBlocks x hx := absurd hx.2 (not_lt.mpr hx.1)
  dotBlocks x hx := absurd hx.2 (not_lt.mpr hx.1)

/-- **Distributed vector add and dot product.** The programs compute what they are to compute exactly
when there is a worker, or there is nothing to compute. -/
theorem computes_iff {comm_sz SIZE : ℕ} (h : 1 ≤ comm_sz) :
    Computes comm_sz SIZE ↔ 2 ≤ comm_sz ∨ SIZE = 0 := by
  obtain ⟨n, rfl⟩ : ∃ n, comm_sz = n + 1 := Nat.exists_eq_succ_of_ne_zero (Nat.ne_of_gt h)
  rcases Nat.eq_zero_or_pos n with rfl | hn
  · constructor
    · intro hcomputes
      refine Or.inr (Nat.eq_zero_of_not_pos fun hpos => ?_)
      exact not_computes_alone hpos hcomputes
    · rintro (habs | rfl)
      · exact absurd habs (by decide)
      · exact computes_empty
  · exact ⟨fun _ => Or.inl (Nat.succ_le_succ hn), fun _ => computes_workers hn⟩

/-- Two workers and the root. -/
theorem computes_iff_three : Computes 3 5 :=
  (computes_iff (by decide)).mpr (Or.inl (by decide))

/-- One process and vectors of one entry: the product of 2 and 3 comes out as 0. -/
theorem single_process :
    ((vectorDot 1 1 (fun _ => 2) fun _ => 3).Finished ∧
      (vectorDot 1 1 (fun _ => 2) fun _ => 3).prog 0 = .done (some 0)) ∧
    ¬ Computes 1 1 :=
  ⟨vectorDot_alone 1 _ _, not_computes_alone (by decide)⟩

end UnionCollegeCode.Mpi
