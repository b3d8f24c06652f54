import Mathlib.Algebra.Group.Int.Defs
import Mathlib.Data.List.Perm.Basic
import UnionCollegeCode.Lib.Assembly

/-!
# Lists of cells in a word memory

A cell is two words, the address of the next cell and a value; address 0 ends a list. `Chain m p ds` says
that the cells `ds` follow each other from `p`. `cells base k` are `k` cells side by side, and `Partition`
says that two lists share them out between them, the values of the first in signed order: what a sorted
list and its free list are to do.

`Inserted` is what one insertion into the sorted list does to memory. It is built up as a recursive
insertion returns (`inserted_here`, `Inserted.later`), the words of the stack being scratch, and it keeps a
partition (`Partition.insert`).
-/

set_option autoImplicit false

namespace Lib.CellList

open Function (update)
open Lib.Assembly

/-- The value of a cell. -/
def data (m : Memory) (d : Word) : Word := m (d + 4#32)

def Chain (m : Memory) : Word → List Word → Prop
  | p, [] => p = 0
  | p, d :: ds => p = d ∧ d ≠ 0 ∧ Chain m (m d) ds

section Chain

variable {m m' : Memory} {p q d f : Word} {ds es : List Word}

theorem Chain.congr (h : Chain m p ds) (hm : ∀ d ∈ ds, m' d = m d) : Chain m' p ds := by
  induction ds generalizing p with
  | nil => exact h
  | cons d ds ih =>
    obtain ⟨hp, hd, hrest⟩ := h
    refine ⟨hp, hd, ?_⟩
    rw [hm d List.mem_cons_self]
    apply ih hrest
    intro e he
    exact hm e (List.mem_cons_of_mem _ he)

theorem Chain.ne_zero (h : Chain m p ds) (hds : ds ≠ []) : p ≠ 0 := by
  cases ds with
  | nil => exact absurd rfl hds
  | cons d ds => exact h.1 ▸ h.2.1

theorem Chain.unique (h : Chain m p ds) (h' : Chain m p es) : ds = es := by
  induction ds generalizing p es with
  | nil =>
    cases es with
    | nil => rfl
    | cons e es => exact absurd (h'.1.symm.trans h) h'.2.1
  | cons d ds ih =>
    cases es with
    | nil => exact absurd (h.1.symm.trans h') h.2.1
    | cons e es =>
      obtain rfl : d = e := h.1.symm.trans h'.1
      rw [ih h.2.2 h'.2.2]

theorem Chain.cons_update (h : Chain m q ds) (hd : d ≠ 0) (hmem : d ∉ ds) :
    Chain (update m d q) d (d :: ds) := by
  refine ⟨rfl, hd, ?_⟩
  rw [Function.update_self]
  apply h.congr
  intro e he
  exact Function.update_of_ne (ne_of_mem_of_not_mem he hmem) _ _

end Chain

/-! ## Signed order -/

/-- An order on the keys that the insertion test decides one way or the other keeps the keys sorted. -/
theorem pairwise_orderedInsert {α : Type} {r : α → α → Prop} [DecidableRel r] {key : α → ℤ} {f : α}
    {ds : List α} (hr : ∀ d ∈ ds, r f d → key f ≤ key d)
    (hr' : ∀ d ∈ ds, ¬ r f d → key d ≤ key f) (h : ds.Pairwise fun c d => key c ≤ key d) :
    (ds.orderedInsert r f).Pairwise fun c d => key c ≤ key d := by
  induction ds with
  | nil => exact List.pairwise_singleton _ _
  | cons d ds ih =>
    obtain ⟨hd, hds⟩ := List.pairwise_cons.mp h
    rw [List.orderedInsert_cons]
    split
    case isTrue hstop =>
      refine List.pairwise_cons.mpr ⟨fun c hc => ?_, h⟩
      have hfront : key f ≤ key d := hr d List.mem_cons_self hstop
      rcases List.mem_cons.mp hc with rfl | hc
      · exact hfront
      · exact hfront.trans (hd c hc)
    case isFalse hgo =>
      have hrest := ih (fun e he => hr e (List.mem_cons_of_mem _ he))
        (fun e he => hr' e (List.mem_cons_of_mem _ he)) hds
      refine List.pairwise_cons.mpr ⟨fun c hc => ?_, hrest⟩
      rcases (List.mem_orderedInsert ..).mp hc with rfl | hc
      · exact hr' d List.mem_cons_self hgo
      · exact hd c hc

theorem orderedInsert_congr {α : Type} {r r' : α → α → Prop} [DecidableRel r] [DecidableRel r'] {f : α}
    {ds : List α} (h : ∀ d ∈ ds, r f d ↔ r' f d) : ds.orderedInsert r f = ds.orderedInsert r' f := by
  induction ds with
  | nil => rfl
  | cons d ds ih =>
    rw [List.orderedInsert_cons, List.orderedInsert_cons,
      ih fun e he => h e (List.mem_cons_of_mem _ he)]
    simp only [h d List.mem_cons_self]

/-! ## One insertion -/

/-- What an insertion of `N` in the cell `f` does: the cells `ds` have `f` among them, before the first
cell whose value meets `stop`, and nothing else changes but the scratch words. -/
structure Inserted (scratch : Word → Prop) (stop : Word → Prop) [DecidablePred stop] (ds : List Word)
    (f N : Word) (m m' : Memory) (p : Word) : Prop where
  chain : Chain m' p (ds.orderedInsert (fun _ d => stop (data m d)) f)
  value : data m' f = N
  frame : ∀ a, ¬ scratch a → a ∉ f :: ds → a ≠ f + 4#32 → m' a = m a

section Inserted

variable {scratch scratch' : Word → Prop} {stop : Word → Prop} [DecidablePred stop]
  {ds : List Word} {f d N p : Word} {m m' m₁ : Memory}

theorem Inserted.ne_zero (h : Inserted scratch stop ds f N m m' p) : p ≠ 0 := by
  apply h.chain.ne_zero
  intro hnil
  have hlen := congrArg List.length hnil
  rw [List.orderedInsert_length] at hlen
  exact absurd hlen (Nat.succ_ne_zero _)

/-- The new cell goes in front. -/
theorem inserted_here (hchain : Chain m p ds) (hstop : ∀ d ∈ ds.head?, stop (data m d)) (hf : f ≠ 0)
    (hfds : f ∉ ds) (hm : ∀ a, ¬ scratch a → a ≠ f → a ≠ f + 4#32 → m' a = m a)
    (hscratch : ∀ d ∈ ds, ¬ scratch d ∧ d ≠ f + 4#32) (hnext : m' f = p) (hdata : data m' f = N) :
    Inserted scratch stop ds f N m m' f where
  chain := by
    have hrest : Chain m' p ds := by
      apply hchain.congr
      intro d hd
      exact hm d (hscratch d hd).1 (fun h => hfds (h ▸ hd)) (hscratch d hd).2
    have hfront : ds.orderedInsert (fun _ d => stop (data m d)) f = f :: ds := by
      cases ds with
      | nil => rfl
      | cons d ds =>
        rw [List.orderedInsert_cons, if_pos (hstop d rfl)]
    rw [hfront]
    exact ⟨rfl, hf, hnext.symm ▸ hrest⟩
  value := hdata
  frame a ha hmem hne := hm a ha (fun h => hmem (h ▸ List.mem_cons_self)) hne

/-- The new cell goes further down: the insertion below is linked to the cell before it. The insertion
below ran in the memory `m₁`, with the caller's registers on the stack. -/
theorem Inserted.later (h : Inserted scratch' stop ds f N m₁ m' p) (hgo : ¬ stop (data m d))
    (hd : d ≠ 0) (hdf : d ≠ f) (hdds : d ∉ ds) (hdata : f + 4#32 ≠ d)
    (hscratch : ∀ a, scratch' a → scratch a) (hm₁ : ∀ a, ¬ scratch a → m₁ a = m a)
    (hds : ∀ e ∈ ds, ¬ scratch (e + 4#32)) :
    Inserted scratch stop (d :: ds) f N m (update m' d p) d where
  chain := by
    have hsame : ds.orderedInsert (fun _ e => stop (data m e)) f =
        ds.orderedInsert (fun _ e => stop (data m₁ e)) f := by
      apply orderedInsert_congr
      intro e he
      rw [data, data, hm₁ _ (hds e he)]
    rw [List.orderedInsert_cons, if_neg hgo, hsame]
    apply h.chain.cons_update hd
    rw [List.mem_orderedInsert]
    exact fun hmem => hmem.elim hdf hdds
  value := (Function.update_of_ne hdata _ _).trans h.value
  frame a ha hmem hne := by
    rw [List.mem_cons, List.mem_cons, not_or, not_or] at hmem
    rw [Function.update_of_ne hmem.2.1, h.frame a (fun hs => ha (hscratch a hs)) _ hne, hm₁ a ha]
    rw [List.mem_cons, not_or]
    exact ⟨hmem.1, hmem.2.2⟩

end Inserted

/-- The list `ds` from `list` and the cell `f` to insert, away from the `n` bytes under the stack
pointer. -/
structure Spare (sp : Word) (n : ℕ) (m : Memory) (list f : Word) (ds : List Word) : Prop where
  list : Chain m list ds
  free_ne : f ≠ 0
  fresh : f ∉ ds
  nodup : ds.Nodup
  aligned : ∀ d ∈ f :: ds, Aligned d ∧ Aligned (d + 4#32)
  off : ∀ d ∈ f :: ds, ¬ Below sp n d ∧ ¬ Below sp n (d + 4#32)
  apart : ∀ c ∈ f :: ds, ∀ d ∈ f :: ds, c ≠ d + 4#32

namespace Spare

variable {sp fp list f d : Word} {i j n n' : ℕ} {m m' : Memory} {ds : List Word}

theorem off_slot (h : Spare sp n m list f ds) (hfp : Frame sp fp i) (hd : d ∈ f :: ds) (hin : i ≤ n)
    (hj : j < i) : d ≠ fp + BitVec.ofNat 32 j ∧ d + 4#32 ≠ fp + BitVec.ofNat 32 j := by
  obtain ⟨hnext, hdata⟩ := h.off d hd
  exact ⟨hfp.ne_slot hnext hin hj, hfp.ne_slot hdata hin hj⟩

/-- What is pushed stays when the new cell is written. -/
theorem pushed_update {v : Word} {vs : List Word} {k : ℕ} (h : Spare sp n m list f ds) (hfp : Frame sp fp i)
    (hin : i ≤ n) (hvs : 0 + 4 * vs.length ≤ i) (hk : k < vs.length) :
    update (pushed m fp 0 vs) f v (fp + BitVec.ofNat 32 (0 + 4 * k)) = vs[k] := by
  have hne := (h.off_slot hfp List.mem_cons_self hin (j := 0 + 4 * k) (by omega)).1
  rw [Function.update_of_ne hne.symm]
  exact hfp.pushed_slot hvs hk

/-- What a call for the rest of the list finds, below a frame of `i` bytes. -/
theorem tail (h : Spare sp n m list f (d :: ds)) (hfp : Frame sp fp i) (hn : n' + i ≤ n)
    (hm : ∀ a, ¬ Below sp n a → m' a = m a) : Spare fp n' m' (m d) f ds := by
  have hmem : ∀ c ∈ f :: ds, c ∈ f :: d :: ds := by
    intro c hc
    rcases List.mem_cons.mp hc with rfl | hc
    · exact List.mem_cons_self
    · exact List.mem_cons_of_mem _ (List.mem_cons_of_mem _ hc)
  refine ⟨?_, h.free_ne, fun hf => h.fresh (List.mem_cons_of_mem _ hf), (List.nodup_cons.mp h.nodup).2,
    fun c hc => h.aligned c (hmem c hc), fun c hc => ?_, fun c hc e he => ?_⟩
  · apply h.list.2.2.congr
    intro e he
    exact hm e (h.off e (hmem e (List.mem_cons_of_mem _ he))).1
  · obtain ⟨hnext, hdata⟩ := h.off c (hmem c hc)
    exact ⟨fun hb => hnext (hfp.below hb hn), fun hb => hdata (hfp.below hb hn)⟩
  · exact h.apart c (hmem c hc) e (hmem e he)

section Call

variable {scratch stop : Word → Prop} [DecidablePred stop] {N p : Word} {m₁ : Memory}

/-- The call for the rest of the list leaves the frame above it alone. -/
theorem slot_kept (h : Spare sp n m list f (d :: ds)) (hfp : Frame sp fp i) (hin : i ≤ n)
    (hins : Inserted (Below fp n') stop ds f N m₁ m' p) (hj : j < i) :
    m' (fp + BitVec.ofNat 32 j) = m₁ (fp + BitVec.ofNat 32 j) := by
  apply hins.frame
  · exact hfp.not_below_slot hj
  · intro hmem
    have hcell : fp + BitVec.ofNat 32 j ∈ f :: d :: ds := by
      rcases List.mem_cons.mp hmem with heq | hmem
      · exact heq ▸ List.mem_cons_self
      · exact List.mem_cons_of_mem _ (List.mem_cons_of_mem _ hmem)
    exact (h.off_slot hfp hcell hin hj).1 rfl
  · exact (h.off_slot hfp List.mem_cons_self hin hj).2.symm

theorem pushed_kept {vs : List Word} {k : ℕ} (h : Spare sp n m list f (d :: ds)) (hfp : Frame sp fp i)
    (hin : i ≤ n) (hins : Inserted (Below fp n') stop ds f N (pushed m fp 0 vs) m' p)
    (hvs : 0 + 4 * vs.length ≤ i) (hk : k < vs.length) :
    m' (fp + BitVec.ofNat 32 (0 + 4 * k)) = vs[k] := by
  rw [h.slot_kept hfp hin hins (by omega)]
  exact hfp.pushed_slot hvs hk

/-- The new cell is written and put before the list. -/
theorem inserted_new (h : Spare sp n m list f ds) (hm : ∀ a, ¬ Below sp n a → m₁ a = m a)
    (hstop : ∀ d ∈ ds.head?, stop (data m d)) :
    Inserted (Below sp n) stop ds f N m (update (update (update m₁ f 0) (f + 4#32) N) f list) f := by
  have hff : f + 4#32 ≠ f := (h.apart f List.mem_cons_self f List.mem_cons_self).symm
  apply inserted_here h.list hstop h.free_ne h.fresh
  · intro a ha haf haf'
    rw [Function.update_of_ne haf, Function.update_of_ne haf', Function.update_of_ne haf, hm a ha]
  · intro d hd
    exact ⟨(h.off d (List.mem_cons_of_mem _ hd)).1,
      h.apart d (List.mem_cons_of_mem _ hd) f List.mem_cons_self⟩
  · exact Function.update_self ..
  · exact (Function.update_of_ne hff ..).trans (Function.update_self ..)

/-- The insertion of the call for the rest of the list, linked to the cell before it. -/
theorem inserted_later (h : Spare sp n m list f (d :: ds)) (hfp : Frame sp fp i) (hn : n' + i ≤ n)
    (hm : ∀ a, ¬ Below sp n a → m₁ a = m a) (hgo : ¬ stop (data m d))
    (hins : Inserted (Below fp n') stop ds f N m₁ m' p) :
    Inserted (Below sp n) stop (d :: ds) f N m (update m' d p) d := by
  have hd : d ∈ f :: d :: ds := List.mem_cons_of_mem _ List.mem_cons_self
  apply hins.later hgo h.list.2.1
  · rintro rfl
    exact h.fresh List.mem_cons_self
  · exact (List.nodup_cons.mp h.nodup).1
  · exact (h.apart d hd f List.mem_cons_self).symm
  · intro a ha
    exact hfp.below ha hn
  · exact hm
  · intro e he
    exact (h.off e (List.mem_cons_of_mem _ (List.mem_cons_of_mem _ he))).2

end Call

end Spare

/-! ## Cells side by side -/

section Cells

variable {base : Word} {k i j : ℕ}

def cell (base : Word) (i : ℕ) : Word := base + BitVec.ofNat 32 (8 * i)

def cells (base : Word) (k : ℕ) : List Word := (List.range k).map (cell base)

/-- The bytes of the cells. -/
def InCells (base : Word) (k : ℕ) (a : Word) : Prop :=
  base.toNat ≤ a.toNat ∧ a.toNat < base.toNat + 8 * k

theorem toNat_cell (hk : base.toNat + 8 * k ≤ 2 ^ 32) (hi : i < k) :
    (cell base i).toNat = base.toNat + 8 * i := by
  rw [cell, BitVec.toNat_add, BitVec.toNat_ofNat]
  omega

theorem toNat_cell_add (hk : base.toNat + 8 * k ≤ 2 ^ 32) (hi : i < k) :
    (cell base i + 4#32).toNat = base.toNat + 8 * i + 4 := by
  have hcell := toNat_cell hk hi
  bv_omega

@[simp] theorem cell_zero : cell base 0 = base := BitVec.add_zero base

theorem cell_succ : cell base (i + 1) - 8 = cell base i := by
  unfold cell
  rw [Nat.mul_succ, BitVec.ofNat_add, ← BitVec.add_assoc]
  exact BitVec.add_sub_cancel _ _

theorem cell_inj (hi : i < 2 ^ 29) (hj : j < 2 ^ 29) (h : cell base i = cell base j) : i = j := by
  have hnat := congrArg BitVec.toNat h
  rw [cell, cell, BitVec.toNat_add, BitVec.toNat_add, BitVec.toNat_ofNat, BitVec.toNat_ofNat] at hnat
  omega

theorem cell_ne_base (hi : 0 < i) (hi' : i < 2 ^ 29) : cell base i ≠ base := by
  intro h
  exact hi.ne' (cell_inj hi' (by decide) (h.trans cell_zero.symm))

theorem cell_aligned (hbase : Aligned base) : Aligned (cell base i) := by
  apply hbase.add
  unfold Aligned
  rw [BitVec.toNat_ofNat]
  omega

/-- Where a cell is as a signed word. -/
theorem toInt_cell (hi : 8 * i < 2 ^ 31) (hsum : base.toInt + 8 * i < 2 ^ 31) :
    (cell base i).toInt = base.toInt + 8 * i := by
  have hbase := BitVec.le_toInt base
  have hsize : (BitVec.ofNat 32 (8 * i)).toInt = 8 * i := by
    rw [BitVec.toInt_ofNat']
    simp [Int.bmod]
    omega
  rw [cell, BitVec.toInt_add, hsize, Int.bmod_def]
  omega

theorem mem_cells {a : Word} : a ∈ cells base k ↔ ∃ i < k, cell base i = a := by
  simp [cells]

theorem nodup_cells (hk : base.toNat + 8 * k ≤ 2 ^ 32) : (cells base k).Nodup := by
  apply List.Nodup.map_on _ List.nodup_range
  intro i hi j hj hij
  have hnat := congrArg BitVec.toNat hij
  rw [toNat_cell hk (List.mem_range.mp hi), toNat_cell hk (List.mem_range.mp hj)] at hnat
  omega

/-- Where the words of two cells are: apart from each other, word-aligned, and off the stack. -/
theorem cell_apart (hk : base.toNat + 8 * k ≤ 2 ^ 32) {c d : Word} (hc : c ∈ cells base k)
    (hd : d ∈ cells base k) : c ≠ d + 4#32 ∧ (c ≠ d → c + 4#32 ≠ d + 4#32) := by
  obtain ⟨i, hi, rfl⟩ := mem_cells.mp hc
  obtain ⟨j, hj, rfl⟩ := mem_cells.mp hd
  constructor
  · intro h
    have hnat := congrArg BitVec.toNat h
    rw [toNat_cell hk hi, toNat_cell_add hk hj] at hnat
    omega
  · intro hne h
    exact hne (by simpa using h)

theorem aligned_cell (hk : base.toNat + 8 * k ≤ 2 ^ 32) (hbase : Aligned base) {c : Word}
    (hc : c ∈ cells base k) : Aligned c ∧ Aligned (c + 4#32) := by
  obtain ⟨i, hi, rfl⟩ := mem_cells.mp hc
  unfold Aligned at *
  rw [toNat_cell_add hk hi, toNat_cell hk hi]
  omega

theorem cell_ne_zero (hk : base.toNat + 8 * k ≤ 2 ^ 32) (hbase : base ≠ 0) {c : Word}
    (hc : c ∈ cells base k) : c ≠ 0 := by
  obtain ⟨i, hi, rfl⟩ := mem_cells.mp hc
  have hcell := toNat_cell hk hi
  intro h
  bv_omega

theorem inCells_cell (hk : base.toNat + 8 * k ≤ 2 ^ 32) {c : Word} (hc : c ∈ cells base k) :
    InCells base k c ∧ InCells base k (c + 4#32) := by
  obtain ⟨i, hi, rfl⟩ := mem_cells.mp hc
  unfold InCells
  rw [toNat_cell_add hk hi, toNat_cell hk hi]
  omega

/-- A chain down from a cell to the first one. -/
theorem chain_down {m : Memory} (hk : base.toNat + 8 * k ≤ 2 ^ 32) (hbase : base ≠ 0) :
    ∀ j < k, (∀ i < j, m (cell base (i + 1)) = cell base i) → m base = 0 →
      Chain m (cell base j) (cells base (j + 1)).reverse := by
  intro j
  induction j with
  | zero =>
    intro hj _ hnil
    refine ⟨rfl, cell_ne_zero hk hbase (mem_cells.mpr ⟨0, hj, rfl⟩), ?_⟩
    rw [cell_zero]
    exact hnil
  | succ j ih =>
    intro hj hlink hnil
    have hlist : (cells base (j + 1 + 1)).reverse = cell base (j + 1) :: (cells base (j + 1)).reverse := by
      rw [cells, List.range_succ, List.map_append, List.reverse_append]
      rfl
    rw [hlist]
    refine ⟨rfl, cell_ne_zero hk hbase (mem_cells.mpr ⟨j + 1, hj, rfl⟩), ?_⟩
    rw [hlink j (Nat.lt_succ_self j)]
    apply ih (Nat.lt_of_succ_lt hj)
    · intro i hi
      exact hlink i (Nat.lt_succ_of_lt hi)
    · exact hnil

/-- The cells from number `j` down are linked, each to the one before it. -/
def link (base : Word) (m : Memory) : ℕ → Memory
  | 0 => m
  | j + 1 => link base (update m (cell base (j + 1)) (cell base j)) j

theorem link_of_ne {m : Memory} {a : Word} (h : ∀ i ≤ j, a ≠ cell base i) :
    link base m j a = m a := by
  induction j generalizing m with
  | zero => rfl
  | succ j ih =>
    rw [link, ih fun i hi => h i (Nat.le_succ_of_le hi)]
    exact Function.update_of_ne (h (j + 1) le_rfl) _ _

theorem link_cell {m : Memory} (hj : j < 2 ^ 29) (hi : i < j) :
    link base m j (cell base (i + 1)) = cell base i := by
  induction j generalizing m with
  | zero => exact absurd hi (Nat.not_lt_zero i)
  | succ j ih =>
    rw [link]
    rcases Nat.lt_succ_iff_lt_or_eq.mp hi with hlt | rfl
    · exact ih (Nat.lt_of_succ_lt hj) hlt
    · rw [link_of_ne, Function.update_self]
      intro l hl heq
      exact absurd (cell_inj hj (by omega) heq) (Nat.lt_succ_of_le hl).ne'

/-- The list of the free cells, from the last one down. -/
theorem chain_link {m : Memory} (hk : base.toNat + 8 * k ≤ 2 ^ 32) (hbase : base ≠ 0) (hj : j < k) :
    Chain (update (link base m j) base 0) (cell base j) (cells base (j + 1)).reverse := by
  apply chain_down hk hbase j hj
  · intro i hi
    rw [Function.update_of_ne, link_cell (by omega) hi]
    intro heq
    have hnat := congrArg BitVec.toNat heq
    rw [toNat_cell hk (by omega)] at hnat
    omega
  · exact Function.update_self ..

theorem link_outside {m : Memory} {a v : Word} (hk : base.toNat + 8 * k ≤ 2 ^ 32) (hj : j < k)
    (ha : ¬ InCells base k a) : update (link base m j) base v a = m a := by
  have hcell : ∀ i < k, a ≠ cell base i := by
    rintro i hi rfl
    exact ha (inCells_cell hk (mem_cells.mpr ⟨i, hi, rfl⟩)).1
  have hbase : a ≠ base := by
    intro heq
    exact hcell 0 (Nat.zero_lt_of_lt hj) (heq.trans cell_zero.symm)
  rw [Function.update_of_ne hbase, link_of_ne]
  intro i hi
  exact hcell i (Nat.lt_of_le_of_lt hi hj)

end Cells

/-! ## A list and its free list -/

/-- Cells of the heap are away from a stack that is not in the heap. -/
theorem spare_of_cells {base sp list f : Word} {k n : ℕ} {m : Memory} {ds : List Word}
    (hk : base.toNat + 8 * k ≤ 2 ^ 32) (hbase : Aligned base)
    (hoff : ∀ a, Below sp n a → ¬ InCells base k a) (hlist : Chain m list ds) (hf : f ≠ 0)
    (hfresh : f ∉ ds) (hnodup : ds.Nodup) (hcells : ∀ d ∈ f :: ds, d ∈ cells base k) :
    Spare sp n m list f ds where
  list := hlist
  free_ne := hf
  fresh := hfresh
  nodup := hnodup
  aligned d hd := aligned_cell hk hbase (hcells d hd)
  off d hd := by
    obtain ⟨hnext, hdata⟩ := inCells_cell hk (hcells d hd)
    exact ⟨fun hb => hoff d hb hnext, fun hb => hoff _ hb hdata⟩
  apart c hc d hd := (cell_apart hk (hcells c hc) (hcells d hd)).1


section Partition

variable {base : Word} {k : ℕ} {Ns : List Word} {m m' : Memory} {list free p f N : Word}
  {ds fs : List Word}

/-- The list from `list` and the free list from `free` share out the `k` cells, and the list holds the
values `Ns` in ascending signed order. -/
structure Shares (base : Word) (k : ℕ) (Ns : List Word) (m : Memory) (list free : Word)
    (ds fs : List Word) : Prop where
  chain : Chain m list ds
  freeChain : Chain m free fs
  perm : (ds ++ fs).Perm (cells base k)
  sorted : (ds.map (data m)).Pairwise fun v w => v.toInt ≤ w.toInt
  values : (ds.map (data m)).Perm Ns

def Partition (base : Word) (k : ℕ) (Ns : List Word) (m : Memory) (list free : Word) : Prop :=
  ∃ ds fs, ds.Disjoint fs ∧ Shares base k Ns m list free ds fs

theorem Shares.mem_cells (h : Shares base k Ns m list free ds fs) {d : Word} (hd : d ∈ ds ++ fs) :
    d ∈ cells base k := h.perm.mem_iff.mp hd

theorem Shares.nodup (h : Shares base k Ns m list free ds fs) (hk : base.toNat + 8 * k ≤ 2 ^ 32) :
    (ds ++ fs).Nodup := h.perm.nodup_iff.mpr (nodup_cells hk)

theorem Shares.partition (h : Shares base k Ns m list free ds fs)
    (hk : base.toNat + 8 * k ≤ 2 ^ 32) : Partition base k Ns m list free :=
  ⟨ds, fs, List.disjoint_of_nodup_append (h.nodup hk), h⟩

theorem Shares.length (h : Shares base k Ns m list free ds fs) : ds.length = Ns.length := by
  rw [← h.values.length_eq, List.length_map]

theorem Shares.exists_free (h : Shares base k Ns m list free ds fs) (hlen : Ns.length < k) :
    ∃ f gs, fs = f :: gs := by
  have hall := h.perm.length_eq
  rw [List.length_append, h.length, cells, List.length_map, List.length_range] at hall
  cases fs with
  | nil =>
    rw [List.length_nil] at hall
    omega
  | cons f gs => exact ⟨f, gs, rfl⟩

/-- A write outside the cells does not touch the lists. -/
theorem Shares.congr (h : Shares base k Ns m list free ds fs) (hk : base.toNat + 8 * k ≤ 2 ^ 32)
    (hm : ∀ a, InCells base k a → m' a = m a) : Shares base k Ns m' list free ds fs := by
  have hdata : ds.map (data m') = ds.map (data m) := by
    apply List.map_congr_left
    intro d hd
    exact hm _ (inCells_cell hk (h.mem_cells (List.mem_append_left _ hd))).2
  have hnext : ∀ d ∈ ds ++ fs, m' d = m d := by
    intro d hd
    exact hm _ (inCells_cell hk (h.mem_cells hd)).1
  exact ⟨h.chain.congr fun d hd => hnext d (List.mem_append_left _ hd),
    h.freeChain.congr fun d hd => hnext d (List.mem_append_right _ hd), h.perm,
    hdata ▸ h.sorted, hdata ▸ h.values⟩

/-- An insertion of `N` in the first free cell keeps the partition. -/
theorem Shares.insert {scratch stop : Word → Prop} [DecidablePred stop]
    (h : Shares base k Ns m list free ds (f :: fs)) (hk : base.toNat + 8 * k ≤ 2 ^ 32)
    (hins : Inserted scratch stop ds f N m m' p) (hscratch : ∀ a, InCells base k a → ¬ scratch a)
    (hstop : ∀ v, stop v → N.toInt ≤ v.toInt) (hgo : ∀ v, ¬ stop v → v.toInt ≤ N.toInt) :
    Shares base k (Ns ++ [N]) m' p (m f) (ds.orderedInsert (fun _ d => stop (data m d)) f) fs := by
  have hnodup := h.nodup hk
  have hmid : (ds ++ f :: fs).Perm (f :: ds ++ fs) := List.perm_middle
  have hperm : (ds.orderedInsert (fun _ d => stop (data m d)) f).Perm (f :: ds) :=
    List.perm_orderedInsert ..
  have hmem : ∀ d ∈ f :: ds ++ fs, d ∈ cells base k := fun d hd => h.mem_cells (hmid.mem_iff.mpr hd)
  have hf : f ∈ cells base k := hmem f (List.mem_append_left _ List.mem_cons_self)
  have hfresh := List.nodup_append.mp (hmid.nodup_iff.mp hnodup)
  -- The insertion writes values to the new cell only, and to no other cell of the list.
  have hkept : ∀ d ∈ ds, data m' d = data m d := by
    intro d hd
    have hcell : d ∈ cells base k := hmem d (List.mem_append_left _ (List.mem_cons_of_mem _ hd))
    apply hins.frame
    · exact hscratch _ (inCells_cell hk hcell).2
    · intro hin
      exact (cell_apart hk (hmem _ (List.mem_append_left _ hin)) hcell).1 rfl
    · apply (cell_apart hk hcell hf).2
      rintro rfl
      exact (List.nodup_cons.mp hfresh.1).1 hd
  have hfree := h.freeChain
  refine ⟨hins.chain, ?_, ?_, ?_, ?_⟩
  · -- The free cells after the first are not in the list, so their links are as they were.
    apply hfree.2.2.congr
    intro e he
    have hcell : e ∈ cells base k := hmem e (List.mem_append_right _ he)
    apply hins.frame
    · exact hscratch _ (inCells_cell hk hcell).1
    · intro hin
      exact hfresh.2.2 e hin e he rfl
    · exact (cell_apart hk hcell hf).1
  · exact (hperm.append_right fs).trans (hmid.symm.trans h.perm)
  · rw [List.pairwise_map]
    have hsorted := List.pairwise_map.mp h.sorted
    apply pairwise_orderedInsert
    · intro d hd hs
      rw [hins.value, hkept d hd]
      exact hstop _ hs
    · intro d hd hg
      rw [hins.value, hkept d hd]
      exact hgo _ hg
    · apply hsorted.imp_of_mem
      intro c d hc hd hcd
      rw [hkept c hc, hkept d hd]
      exact hcd
  · have hmap : ds.map (data m') = ds.map (data m) := List.map_congr_left hkept
    calc (ds.orderedInsert (fun _ d => stop (data m d)) f).map (data m')
      _ |>.Perm ((f :: ds).map (data m')) := hperm.map _
      _ |>.Perm (N :: ds.map (data m)) := by rw [List.map_cons, hins.value, hmap]
      _ |>.Perm (N :: Ns) := h.values.cons N
      _ |>.Perm (Ns ++ [N]) := (List.perm_append_singleton N Ns).symm

/-- Two lists of the same values in order hold the same sequence. -/
theorem Partition.values_eq {base' list' free' : Word} {k' : ℕ} {m' : Memory} {ds ds' : List Word}
    (h : Partition base k Ns m list free) (h' : Partition base' k' Ns m' list' free')
    (hds : Chain m list ds) (hds' : Chain m' list' ds') :
    ds.map (data m) = ds'.map (data m') := by
  obtain ⟨es, fs, -, hes⟩ := h
  obtain ⟨es', fs', -, hes'⟩ := h'
  cases hds.unique hes.chain
  cases hds'.unique hes'.chain
  apply (hes.values.trans hes'.values.symm).eq_of_pairwise _ hes.sorted hes'.sorted
  intro v w _ _ hvw hwv
  exact BitVec.eq_of_toInt_eq (hvw.antisymm hwv)

end Partition

end Lib.CellList
