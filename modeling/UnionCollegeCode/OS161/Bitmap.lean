import Mathlib.Tactic.IntervalCases
import UnionCollegeCode.Lib.EState
import UnionCollegeCode.OS161.Kernel

/-!
# `bitmap.c`

An array of bytes with a bit for each unit of storage. `isSet` reads a bit, `mark` and `unmark`
change one; every function is said in these words.
-/

set_option autoImplicit false

namespace UnionCollegeCode.OS161

open Function (update)
open Lib.EState

/-- How a function that returns an error code does not return 0. -/
inductive Fail
  | errno (e : ℕ)
  | stop (why : Stop)
  deriving DecidableEq, Repr

def ENOSPC : ℕ := 36

structure Bitmap where
  nbits : ℕ
  v : ℕ → UInt8

abbrev BitmapM (α : Type) := EStateM Fail Bitmap α

namespace Bitmap

def bitsPerWord : ℕ := 8

def wordAllbits : UInt8 := 0xff

def mask (offset : ℕ) : UInt8 := 1 <<< UInt8.ofNat offset

def words (nbits : ℕ) : ℕ := (nbits + bitsPerWord - 1) / bitsPerWord

/-- The word of a bit, and its mask. -/
def bitmapTranslate (bitno : ℕ) : ℕ × UInt8 := (bitno / bitsPerWord, mask (bitno % bitsPerWord))

/-- The loop that sets the bits `j`, `j + 1`, ... of the last word. -/
def markOverbits (ix : ℕ) (v : ℕ → UInt8) : List ℕ → ℕ → UInt8
  | [] => v
  | j :: js => markOverbits ix (update v ix (v ix ||| mask j)) js

/-- With its two allocations answered. -/
def bitmapCreate (nbits : ℕ) : Except Stop Bitmap :=
  let ix := words nbits - 1
  let overbits := nbits - ix * bitsPerWord
  if nbits / bitsPerWord < words nbits then
    if nbits / bitsPerWord ≠ words nbits - 1 then
      .error (.kassert "nbits / BITS_PER_WORD == words-1")
    else if ¬ (0 < overbits ∧ overbits < bitsPerWord) then
      .error (.kassert "overbits > 0 && overbits < BITS_PER_WORD")
    else
      .ok ⟨nbits, markOverbits ix (fun _ => 0) (List.range' overbits (bitsPerWord - overbits))⟩
  else
    .ok ⟨nbits, fun _ => 0⟩

def bitmapAlloc : BitmapM ℕ := do
  let b ← get
  match (List.range (words b.nbits)).find? fun ix => b.v ix ≠ wordAllbits with
  | none => throw (.errno ENOSPC)
  | some ix =>
    match (List.range bitsPerWord).find? fun offset => b.v ix &&& mask offset = 0 with
    | none => throw (.stop (.kassert "0"))
    | some offset =>
      set { b with v := update b.v ix (b.v ix ||| mask offset) }
      if ix * bitsPerWord + offset < b.nbits then
        return ix * bitsPerWord + offset
      else
        throw (.stop (.kassert "*index < b->nbits"))

def bitmapMark (index : ℕ) : BitmapM Unit := do
  let b ← get
  let (ix, mask) := bitmapTranslate index
  if ¬ index < b.nbits then
    throw (.stop (.kassert "index < b->nbits"))
  else if b.v ix &&& mask ≠ 0 then
    throw (.stop (.kassert "(b->v[ix] & mask)==0"))
  else
    set { b with v := update b.v ix (b.v ix ||| mask) }

def bitmapUnmark (index : ℕ) : BitmapM Unit := do
  let b ← get
  let (ix, mask) := bitmapTranslate index
  if ¬ index < b.nbits then
    throw (.stop (.kassert "index < b->nbits"))
  else if b.v ix &&& mask = 0 then
    throw (.stop (.kassert "(b->v[ix] & mask)!=0"))
  else
    set { b with v := update b.v ix (b.v ix &&& ~~~mask) }

def bitmapIsset (b : Bitmap) (index : ℕ) : Bool :=
  let (ix, mask) := bitmapTranslate index
  b.v ix &&& mask ≠ 0

/-! ## The bits of a word -/

theorem mask_toBitVec {o : ℕ} (h : o < 8) : (mask o).toBitVec = BitVec.twoPow 8 o := by
  interval_cases o <;> rfl

theorem and_mask_eq_zero {w : UInt8} {o : ℕ} (h : o < 8) :
    w &&& mask o = 0 ↔ w.toBitVec.getLsbD o = false := by
  rw [← UInt8.toBitVec_inj, UInt8.toBitVec_and, mask_toBitVec h, BitVec.and_twoPow]
  cases w.toBitVec.getLsbD o with
  | false => simp
  | true =>
    interval_cases o <;> decide

theorem getLsbD_or_mask {w : UInt8} {o p : ℕ} (ho : o < 8) :
    (w ||| mask o).toBitVec.getLsbD p = (w.toBitVec.getLsbD p || decide (p = o)) := by
  have hcomm : decide (o = p) = decide (p = o) := decide_eq_decide.mpr eq_comm
  rw [UInt8.toBitVec_or, mask_toBitVec ho, BitVec.getLsbD_or, BitVec.getLsbD_twoPow,
    decide_eq_true ho, Bool.true_and, hcomm]

theorem getLsbD_and_not_mask {w : UInt8} {o p : ℕ} (ho : o < 8) (hp : p < 8) :
    (w &&& ~~~mask o).toBitVec.getLsbD p = (w.toBitVec.getLsbD p && !decide (p = o)) := by
  have hcomm : decide (o = p) = decide (p = o) := decide_eq_decide.mpr eq_comm
  rw [UInt8.toBitVec_and, UInt8.toBitVec_not, mask_toBitVec ho, BitVec.getLsbD_and,
    BitVec.getLsbD_not, BitVec.getLsbD_twoPow, decide_eq_true ho, decide_eq_true hp, Bool.true_and,
    Bool.true_and, hcomm]

/-- A word is full when its bits are. -/
theorem eq_wordAllbits_iff {w : UInt8} : w = wordAllbits ↔ ∀ o < 8, w.toBitVec.getLsbD o = true := by
  constructor
  · rintro rfl o ho
    interval_cases o <;> rfl
  · intro h
    apply UInt8.toBitVec_inj.mp
    apply BitVec.eq_of_getLsbD_eq
    intro o ho
    rw [h o ho]
    interval_cases o <;> rfl

/-! ## The bits of the map -/

def isSet (b : Bitmap) (i : ℕ) : Prop := (b.v (i / 8)).toBitVec.getLsbD (i % 8) = true

instance (b : Bitmap) (i : ℕ) : Decidable (b.isSet i) :=
  inferInstanceAs (Decidable (_ = true))

def mark (b : Bitmap) (i : ℕ) : Bitmap :=
  { b with v := update b.v (i / 8) (b.v (i / 8) ||| mask (i % 8)) }

def unmark (b : Bitmap) (i : ℕ) : Bitmap :=
  { b with v := update b.v (i / 8) (b.v (i / 8) &&& ~~~mask (i % 8)) }

variable {b b' : Bitmap} {i j : ℕ}

@[simp] theorem mark_nbits : (b.mark i).nbits = b.nbits := rfl

@[simp] theorem unmark_nbits : (b.unmark i).nbits = b.nbits := rfl

theorem div_mod_inj (h : i / 8 = j / 8) (h' : i % 8 = j % 8) : i = j := by
  omega

@[simp] theorem isSet_mark : (b.mark i).isSet j ↔ j = i ∨ b.isSet j := by
  unfold isSet mark
  dsimp only
  by_cases h : j / 8 = i / 8
  · rw [h, Function.update_self, getLsbD_or_mask (Nat.mod_lt _ (by decide)),
      Bool.or_eq_true, decide_eq_true_iff]
    constructor
    · rintro (h' | h')
      · exact .inr h'
      · exact .inl (div_mod_inj h h')
    · rintro (rfl | h')
      · exact .inr rfl
      · exact .inl h'
  · rw [Function.update_of_ne h]
    have hne : j ≠ i := fun heq => h (by rw [heq])
    simp [hne]

@[simp] theorem isSet_unmark : (b.unmark i).isSet j ↔ j ≠ i ∧ b.isSet j := by
  unfold isSet unmark
  dsimp only
  by_cases h : j / 8 = i / 8
  · rw [h, Function.update_self,
      getLsbD_and_not_mask (Nat.mod_lt _ (by decide)) (Nat.mod_lt _ (by decide)), Bool.and_eq_true,
      Bool.not_eq_true', decide_eq_false_iff_not, and_comm]
    refine and_congr_left' ?_
    rw [not_iff_not]
    exact ⟨fun h' => div_mod_inj h h', fun h' => by rw [h']⟩
  · rw [Function.update_of_ne h]
    have hne : j ≠ i := fun heq => h (by rw [heq])
    simp [hne]

theorem bitmapIsset_iff : b.bitmapIsset i = true ↔ b.isSet i := by
  have h : i % 8 < 8 := Nat.mod_lt _ (by decide)
  show decide (b.v (i / 8) &&& mask (i % 8) ≠ 0) = true ↔ _
  rw [decide_eq_true_iff, ne_eq, and_mask_eq_zero h, Bool.not_eq_false]
  rfl

/-- The bits of the last word that stand for nothing are set. -/
def Closed (b : Bitmap) : Prop := ∀ i, b.nbits ≤ i → i < 8 * words b.nbits → b.isSet i

theorem Closed.mark (h : b.Closed) : (b.mark i).Closed := fun j hj hj' =>
  isSet_mark.mpr (.inr (h j hj hj'))

theorem Closed.unmark (h : b.Closed) (hi : i < b.nbits) : (b.unmark i).Closed := fun j hj hj' =>
  isSet_unmark.mpr ⟨fun heq => absurd hi (Nat.not_lt.mpr (heq ▸ hj)), h j hj hj'⟩

/-- The bits that stand for something are the same. -/
structure Same (b b' : Bitmap) : Prop where
  nbits : b'.nbits = b.nbits
  closed : b'.Closed
  bits : ∀ i < b.nbits, b'.isSet i ↔ b.isSet i

theorem Same.refl (h : b.Closed) : b.Same b := ⟨rfl, h, fun _ _ => .rfl⟩

theorem le_words (n : ℕ) : n ≤ 8 * words n := by
  unfold words bitsPerWord
  omega

/-- `bitmap_alloc` takes the least bit that is not set, and fails when there is none. -/
theorem bitmapAlloc_spec (h : b.Closed) :
    wp bitmapAlloc
      (fun i b' => i < b.nbits ∧ ¬ b.isSet i ∧ (∀ j < i, b.isSet j) ∧ b' = b.mark i)
      (fun e b' => e = .errno ENOSPC ∧ b' = b ∧ ∀ j < b.nbits, b.isSet j) b := by
  unfold bitmapAlloc
  rw [wp_bind, wp_get]
  split
  case h_1 hfull =>
    rw [wp_throw]
    refine ⟨rfl, rfl, fun j hj => ?_⟩
    have hix : j / 8 < words b.nbits := by
      have := le_words b.nbits
      omega
    have hword := List.find?_eq_none.mp hfull (j / 8) (List.mem_range.mpr hix)
    rw [decide_eq_true_iff, not_not, eq_wordAllbits_iff] at hword
    exact hword _ (Nat.mod_lt _ (by decide))
  case h_2 ix hix =>
    obtain ⟨hne, hlt, hbefore⟩ := List.find?_range_eq_some.mp hix
    rw [decide_eq_true_iff, ne_eq, eq_wordAllbits_iff] at hne
    split
    case h_1 hnone =>
      exfalso
      apply hne
      intro o ho
      have hbit := List.find?_eq_none.mp hnone o (List.mem_range.mpr ho)
      rw [decide_eq_true_iff, and_mask_eq_zero ho] at hbit
      exact Bool.eq_true_of_not_eq_false hbit
    case h_2 offset hoffset =>
      obtain ⟨hclear, ho, hset⟩ := List.find?_range_eq_some.mp hoffset
      have ho : offset < 8 := List.mem_range.mp ho
      have hix' : ix < words b.nbits := List.mem_range.mp hlt
      rw [decide_eq_true_iff, and_mask_eq_zero ho] at hclear
      have hdiv : (ix * 8 + offset) / 8 = ix := by omega
      have hmod : (ix * 8 + offset) % 8 = offset := by omega
      have hnot : ¬ b.isSet (ix * 8 + offset) := by
        unfold isSet
        rw [hdiv, hmod, hclear]
        decide
      have hindex : ix * 8 + offset < b.nbits := by
        by_contra hge
        exact hnot (h _ (Nat.not_lt.mp hge) (by omega))
      rw [wp_bind, wp_set]
      rw [show bitsPerWord = 8 from rfl, if_pos hindex, wp_pure]
      refine ⟨hindex, hnot, fun j hj => ?_, ?_⟩
      · unfold isSet
        by_cases hlow : j / 8 < ix
        · have hfull := hbefore (j / 8) hlow
          rw [Bool.not_eq_true', decide_eq_false_iff_not, not_not, eq_wordAllbits_iff] at hfull
          exact hfull _ (Nat.mod_lt _ (by decide))
        · have hj' : j / 8 = ix ∧ j % 8 < offset := by omega
          have hbit := hset (j % 8) hj'.2
          rw [Bool.not_eq_true', decide_eq_false_iff_not, and_mask_eq_zero (by omega),
            Bool.not_eq_false] at hbit
          rw [hj'.1]
          exact hbit
      · rw [mark, hdiv, hmod]

theorem bitmapMark_spec (hi : i < b.nbits) (hset : ¬ b.isSet i) :
    bitmapMark i b = .ok ⟨⟩ (b.mark i) := by
  have hclear : b.v (i / 8) &&& mask (i % 8) = 0 := by
    rw [and_mask_eq_zero (Nat.mod_lt _ (by decide))]
    exact Bool.eq_false_of_not_eq_true hset
  unfold bitmapMark
  rw [bind_ok get_ok]
  show (if ¬ i < b.nbits then _ else if b.v (i / 8) &&& mask (i % 8) ≠ 0 then _ else _ : BitmapM Unit) b = _
  rw [if_neg (not_not.mpr hi), if_neg (not_not.mpr hclear), set_ok]
  rfl

theorem bitmapUnmark_spec (hi : i < b.nbits) (hset : b.isSet i) :
    bitmapUnmark i b = .ok ⟨⟩ (b.unmark i) := by
  have hclear : ¬ b.v (i / 8) &&& mask (i % 8) = 0 := by
    rw [and_mask_eq_zero (Nat.mod_lt _ (by decide)), Bool.not_eq_false]
    exact hset
  unfold bitmapUnmark
  rw [bind_ok get_ok]
  show (if ¬ i < b.nbits then _ else if b.v (i / 8) &&& mask (i % 8) = 0 then _ else _ : BitmapM Unit) b = _
  rw [if_neg (not_not.mpr hi), if_neg hclear, set_ok]
  rfl

end Bitmap

end UnionCollegeCode.OS161
