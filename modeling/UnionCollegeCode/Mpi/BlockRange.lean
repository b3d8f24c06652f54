import UnionCollegeCode.Mpi.Blocks

/-!
# The block bounds in `int` arithmetic

The closed forms of `Mpi.Blocks` again, now with 32-bit `int`s: `none` is a result outside the range of
`int`, which C leaves undefined, or a division by zero. The bounds themselves are in range, and so is all
that is computed on the way but one product: the rank times the part of the size that `p` divides.
-/

set_option autoImplicit false

namespace UnionCollegeCode.Mpi

/-- From `INT_MIN` to `INT_MAX`. -/
def inRange (x : ℤ) : Option ℤ := if -2147483648 ≤ x ∧ x ≤ 2147483647 then some x else none

def intAdd (x y : ℤ) : Option ℤ := inRange (x + y)

def intSub (x y : ℤ) : Option ℤ := inRange (x - y)

def intMul (x y : ℤ) : Option ℤ := inRange (x * y)

def intDiv (x y : ℤ) : Option ℤ := if y = 0 then none else inRange (x.tdiv y)

/-- `%` is undefined where `/` is. -/
def intMod (x y : ℤ) : Option ℤ := do
  let _ ← intDiv x y
  inRange (x.tmod y)

/-- `f` and `l`, in the order of the source. -/
def blockBoundsInt (p id n : ℤ) : Option (ℤ × ℤ) := do
  let f ← intDiv (← intMul id (← intSub n (← intMod n p))) p
  let l ← intDiv (← intSub n (← intMod n p)) p
  let r ← intMod n p
  if r ≤ id ∨ r = 0 then
    let f ← intAdd f r
    let l ← intAdd l f
    return (f, l)
  else
    let f ← intAdd f id
    let l ← intAdd l (← intAdd f 1)
    return (f, l)

def arraySumBlockInt (comm_sz my_rank ArraySize : ℤ) : Option (ℤ × ℤ) :=
  blockBoundsInt comm_sz my_rank ArraySize

def vectorDotBlockInt (comm_sz my_rank SIZE : ℤ) : Option (ℤ × ℤ) := do
  blockBoundsInt (← intSub comm_sz 1) (← intSub my_rank 1) SIZE

def vectorAddBlockInt (comm_sz q SIZE : ℤ) : Option (ℤ × ℤ) := do
  blockBoundsInt (← intSub comm_sz 1) (← intSub q 1) SIZE

/-! ## What stays in range -/

section Range

variable {n p i : ℕ}

theorem inRange_nat {x : ℕ} (hx : x ≤ 2147483647) : inRange x = some (x : ℤ) := if_pos (by omega)

theorem inRange_eq_none {x : ℕ} (hx : ¬ x ≤ 2147483647) : inRange x = none := if_neg (by omega)

theorem intDiv_nat {x y : ℕ} (hx : x ≤ 2147483647) (hy : 0 < y) : intDiv x y = some ((x / y : ℕ) : ℤ) := by
  have hdiv : (x : ℤ).tdiv y = (x / y : ℕ) := rfl
  rw [intDiv, if_neg (by omega), hdiv]
  exact inRange_nat (Nat.le_trans (Nat.div_le_self x y) hx)

theorem intMod_nat {x y : ℕ} (hx : x ≤ 2147483647) (hy : 0 < y) : intMod x y = some ((x % y : ℕ) : ℤ) := by
  have hmod : (x : ℤ).tmod y = (x % y : ℕ) := rfl
  rw [intMod, intDiv_nat hx hy, Option.bind_eq_bind, Option.bind_some, hmod]
  exact inRange_nat (Nat.le_trans (Nat.mod_le x y) hx)

theorem intAdd_nat {x y : ℕ} (h : x + y ≤ 2147483647) : intAdd x y = some ((x + y : ℕ) : ℤ) := by
  rw [intAdd, ← Nat.cast_add]
  exact inRange_nat h

theorem intSub_nat {x y : ℕ} (hx : x ≤ 2147483647) (hyx : y ≤ x) : intSub x y = some ((x - y : ℕ) : ℤ) := by
  rw [intSub, ← Nat.cast_sub hyx]
  exact inRange_nat (Nat.le_trans (Nat.sub_le x y) hx)

/-- The part of the size that `p` divides. -/
theorem sub_mod_eq (n p : ℕ) : n - n % p = p * (n / p) := by
  rw [Nat.sub_eq_iff_eq_add (Nat.mod_le n p)]
  exact (Nat.div_add_mod n p).symm

theorem first_le (hi : i ≤ p) (hp : 0 < p) : first n p i ≤ n := by
  have hmono : first n p i ≤ first n p p :=
    Nat.add_le_add (Nat.mul_le_mul_right _ hi) (min_le_min_right _ hi)
  rwa [first_end hp] at hmono

/-- The ranks below the remainder have one entry more. -/
theorem corrections_nat {a k r : ℕ} (hlast : a + min i r + (k + if i < r then 1 else 0) ≤ 2147483647) :
    (if (r : ℤ) ≤ i ∨ (r : ℤ) = 0 then do
        let f ← intAdd a r
        let l ← intAdd k f
        return (f, l)
      else do
        let f ← intAdd a i
        let l ← intAdd k (← intAdd f 1)
        return (f, l)) =
      some (((a + min i r : ℕ) : ℤ), ((a + min i r + (k + if i < r then 1 else 0) : ℕ) : ℤ)) := by
  by_cases hr : i < r
  · rw [if_pos hr, Nat.min_eq_left hr.le] at hlast ⊢
    have hf : intAdd a i = some ((a + i : ℕ) : ℤ) := intAdd_nat (by omega)
    have hf1 : intAdd (a + i : ℕ) 1 = some ((a + i + 1 : ℕ) : ℤ) := intAdd_nat (y := 1) (by omega)
    have hl : intAdd k (a + i + 1 : ℕ) = some ((k + (a + i + 1) : ℕ) : ℤ) := intAdd_nat (by omega)
    have hsum : k + (a + i + 1) = a + i + (k + 1) := by ring
    rw [if_neg (by omega), hf, Option.bind_eq_bind, Option.bind_some, hf1, Option.bind_some, hl, hsum]
    rfl
  · rw [if_neg hr, Nat.min_eq_right (not_lt.mp hr)] at hlast ⊢
    have hf : intAdd a r = some ((a + r : ℕ) : ℤ) := intAdd_nat (by omega)
    have hl : intAdd k (a + r : ℕ) = some ((k + (a + r) : ℕ) : ℤ) := intAdd_nat (by omega)
    have hsum : k + (a + r) = a + r + (k + 0) := by ring
    rw [if_pos (by omega), hf, Option.bind_eq_bind, Option.bind_some, hl, hsum]
    rfl

/-- The bounds are computed as soon as the product is. -/
theorem blockBoundsInt_nat (hi : i < p) (hn : n ≤ 2147483647) :
    blockBoundsInt p i n = if i * (n - n % p) ≤ 2147483647 then some (blockBounds p i n) else none := by
  have hp : 0 < p := Nat.zero_lt_of_lt hi
  have hsub : intSub n (n % p : ℕ) = some ((n - n % p : ℕ) : ℤ) := intSub_nat hn (Nat.mod_le n p)
  have hmul : intMul i (n - n % p : ℕ) = inRange (i * (n - n % p) : ℕ) := by
    rw [intMul, ← Nat.cast_mul]
  have hl : intDiv (n - n % p : ℕ) p = some (((n - n % p) / p : ℕ) : ℤ) :=
    intDiv_nat (Nat.le_trans (Nat.sub_le _ _) hn) hp
  rw [blockBoundsInt, intMod_nat hn hp]
  simp only [Option.bind_eq_bind, Option.bind_some, hsub, hmul, hl]
  by_cases hsmall : i * (n - n % p) ≤ 2147483647
  case neg =>
    rw [inRange_eq_none hsmall, if_neg hsmall]
    rfl
  case pos =>
    have hf : intDiv (i * (n - n % p) : ℕ) p = some ((i * (n - n % p) / p : ℕ) : ℤ) := intDiv_nat hsmall hp
    have hquot : i * (n - n % p) / p = i * (n / p) := by
      rw [sub_mod_eq, Nat.mul_left_comm]
      exact Nat.mul_div_cancel_left _ hp
    have hquot' : (n - n % p) / p = n / p := by
      rw [sub_mod_eq]
      exact Nat.mul_div_cancel_left _ hp
    have hlast := (first_le (n := n) (Nat.succ_le_of_lt hi) hp).trans hn
    rw [first_succ, first] at hlast
    have hbounds := corrections_nat hlast
    rw [inRange_nat hsmall, Option.bind_some, hf, Option.bind_some, blockBounds_eq hi, if_pos hsmall, hquot,
      hquot', first_succ, first]
    exact hbounds

/-- The workers count from one, and the root is not one of them. -/
theorem workerBlockInt {comm_sz rank : ℕ} (hsz : comm_sz ≤ 2147483647) (hone : 1 ≤ rank)
    (hrank : rank < comm_sz) (hn : n ≤ 2147483647) :
    (do blockBoundsInt (← intSub comm_sz 1) (← intSub rank 1) n) =
      if (rank - 1) * (n - n % (comm_sz - 1)) ≤ 2147483647 then
        some (blockBounds ((comm_sz : ℤ) - 1) ((rank : ℤ) - 1) n) else none := by
  have hp : (comm_sz : ℤ) - 1 = (comm_sz - 1 : ℕ) := by omega
  have hi : (rank : ℤ) - 1 = (rank - 1 : ℕ) := by omega
  rw [intSub, intSub, hp, hi, inRange_nat (by omega), inRange_nat (by omega)]
  simp only [Option.bind_eq_bind, Option.bind_some]
  exact blockBoundsInt_nat (by omega) hn

end Range

/-- **When the bounds are computed.** The three closed forms stay in the range of `int`, and give what
they give over the integers, exactly when the product of the number of the computing rank and the part of
the size that is shared out evenly does. -/
theorem blockInt_iff {comm_sz SIZE : ℕ} (hsz : comm_sz ≤ 2147483647) (hsize : SIZE ≤ 2147483647) :
    (∀ my_rank < comm_sz,
      (arraySumBlockInt comm_sz my_rank SIZE = some (arraySumBlock comm_sz my_rank SIZE) ↔
        my_rank * (SIZE - SIZE % comm_sz) ≤ 2147483647)) ∧
    (∀ my_rank < comm_sz, 1 ≤ my_rank →
      (vectorDotBlockInt comm_sz my_rank SIZE = some (vectorDotBlock comm_sz my_rank SIZE) ↔
        (my_rank - 1) * (SIZE - SIZE % (comm_sz - 1)) ≤ 2147483647)) ∧
    (∀ q < comm_sz, 1 ≤ q →
      (vectorAddBlockInt comm_sz q SIZE = some (vectorAddBlock comm_sz q SIZE) ↔
        (q - 1) * (SIZE - SIZE % (comm_sz - 1)) ≤ 2147483647)) := by
  refine ⟨fun my_rank hrank => ?_, fun my_rank hrank hone => ?_, fun q hq hone => ?_⟩
  · rw [arraySumBlockInt, blockBoundsInt_nat hrank hsize, arraySumBlock, Option.ite_none_right_eq_some]
    exact and_iff_left rfl
  · rw [vectorDotBlockInt, workerBlockInt hsz hone hrank hsize, vectorDotBlock,
      Option.ite_none_right_eq_some]
    exact and_iff_left rfl
  · rw [vectorAddBlockInt, workerBlockInt hsz hone hq hsize, vectorAddBlock, Option.ite_none_right_eq_some]
    exact and_iff_left rfl

/-- Two ranks share out any size, and three do not share out the largest. -/
theorem blockInt_iff_small :
    arraySumBlockInt 2 1 2147483647 = some (arraySumBlock 2 1 2147483647) ∧
    arraySumBlockInt 3 2 2147483647 ≠ some (arraySumBlock 3 2 2147483647) := by
  have htwo := (@blockInt_iff 2 2147483647 (by omega) (by omega)).1 1 (by omega)
  have hthree := (@blockInt_iff 3 2147483647 (by omega) (by omega)).1 2 (by omega)
  exact ⟨htwo.mpr (by omega), fun h => absurd (hthree.mp h) (by omega)⟩

/-- The third worker of a vector of 1 500 000 000 entries multiplies two by all of them. -/
theorem vectorDotBlockInt_overflow :
    vectorDotBlock 4 3 1500000000 = (1000000000, 1500000000) ∧
    vectorDotBlockInt 4 3 1500000000 ≠ some (vectorDotBlock 4 3 1500000000) := by
  decide

end UnionCollegeCode.Mpi
