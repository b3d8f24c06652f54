import UnionCollegeCode.Lib.CellList

/-!
# The routines of a list program

A program on a machine has a routine that links the cells of a heap into a free list and one that inserts
a value into a sorted list, taking its cell from the free list. `After` is what it has in memory after some
calls, with whatever the program did between them that left the cells alone. `Meets` is what the routines
do in one call, and `Right` what then holds after any number of calls that the heap has room for
(`Meets.right`).
-/

set_option autoImplicit false

namespace Lib.CellList

open Lib.Assembly

structure Routines (σ : Type) where
  step : σ → Option σ
  /-- Control is in the routines. -/
  inside : σ → Prop
  mem : σ → Memory
  /-- `k` cells from `base` are to be linked. -/
  making : Word → ℕ → σ → Prop
  /-- The free list that was made. -/
  made : σ → Word
  /-- `N` is to be inserted in a list of `n` cells; the heap has `k` cells from `base`. -/
  inserting : (base : Word) → (k : ℕ) → (N list free : Word) → (n : ℕ) → σ → Prop
  list : σ → Word
  free : σ → Word
  /-- The call returns to its caller, with the registers a routine gives back. -/
  returned : σ → σ → Prop
  /-- The stack frame of a call that makes the cells. -/
  makeFrame : σ → Word → Prop
  /-- The stack frame of an insertion in a list of so many cells. -/
  insertFrame : ℕ → σ → Word → Prop

namespace Routines

variable {σ : Type} (R : Routines σ) (base : Word) (k : ℕ)

/-- The memory, the list and the free list after the values were inserted. -/
inductive After : List Word → Memory → Word → Word → Prop
  | made {s t : σ} : R.making base k s → Leaves R.step R.inside s t →
      After [] (R.mem t) 0 (R.made t)
  | inserted {Ns : List Word} {m : Memory} {list free N : Word} {s t : σ} :
      After Ns m list free → (∀ a, InCells base k a → R.mem s a = m a) →
      R.inserting base k N list free Ns.length s → Leaves R.step R.inside s t →
      After (Ns ++ [N]) (R.mem t) (R.list t) (R.free t)

/-- A call comes back, restores what it has to, and writes to the cells and its stack frame only. -/
def Returns (frame : Word → Prop) (s : σ) : Prop :=
  ∃ t, Leaves R.step R.inside s t ∧ R.returned s t ∧
    ∀ a, ¬ InCells base k a → ¬ frame a → R.mem t a = R.mem s a

/-- Where `k` cells can be: word-aligned, not at 0 and before the end of memory. -/
structure Area (base : Word) (k : ℕ) : Prop where
  one : 1 ≤ k
  aligned : Aligned base
  ne_zero : base ≠ 0
  fits : base.toNat + 8 * k ≤ 2 ^ 32

/-- All the cells are made: a call comes back with the last one, which is first in a list of them all,
downwards, and writes to the cells and its stack frame only. -/
def Makes : Prop :=
  ∀ s, R.making base k s → ∃ t, Leaves R.step R.inside s t ∧ R.returned s t ∧
    R.made t = cell base (k - 1) ∧ Chain (R.mem t) (R.made t) (cells base k).reverse ∧
    ∀ a, ¬ InCells base k a → ¬ R.makeFrame s a → R.mem t a = R.mem s a

structure Right : Prop where
  makes : ∀ s, R.making base k s → R.Returns base k (R.makeFrame s) s
  inserts : ∀ Ns m list free, R.After base k Ns m list free → Ns.length < k →
    ∀ N s, R.inserting base k N list free Ns.length s → (∀ a, InCells base k a → R.mem s a = m a) →
      R.Returns base k (R.insertFrame Ns.length s) s
  shares : ∀ Ns m list free, R.After base k Ns m list free → Ns.length ≤ k →
    Partition base k Ns m list free

/-- What one call of each routine does. -/
structure Meets : Prop where
  fits : base.toNat + 8 * k ≤ 2 ^ 32
  makes : ∀ s, R.making base k s → ∃ t, Leaves R.step R.inside s t ∧ R.returned s t ∧
    Chain (R.mem t) (R.made t) (cells base k).reverse ∧
    ∀ a, ¬ InCells base k a → ¬ R.makeFrame s a → R.mem t a = R.mem s a
  apart : ∀ N list free n s, R.inserting base k N list free n s →
    ∀ a, InCells base k a → ¬ R.insertFrame n s a
  inserts : ∀ N list f ds s, R.inserting base k N list f ds.length s → Chain (R.mem s) list ds →
    f ∉ ds → ds.Nodup → (∀ d ∈ f :: ds, d ∈ cells base k) → f ≠ 0 →
    ∃ t, Leaves R.step R.inside s t ∧ R.returned s t ∧ R.free t = R.mem s f ∧
      ∃ (stop : Word → Prop) (_ : DecidablePred stop),
        (∀ v, stop v → N.toInt ≤ v.toInt) ∧ (∀ v, ¬ stop v → v.toInt ≤ N.toInt) ∧
        Inserted (R.insertFrame ds.length s) stop ds f N (R.mem s) (R.mem t) (R.list t)

variable {R base k}

section Meets

variable (h : R.Meets base k)

include h

/-- A cell is free for the insertion, and the list and the free list share the cells again. -/
theorem Meets.insert_shares {Ns : List Word} {m : Memory} {list free N : Word} {s : σ}
    (hpart : Partition base k Ns m list free) (hlen : Ns.length < k)
    (hs : R.inserting base k N list free Ns.length s) (hm : ∀ a, InCells base k a → R.mem s a = m a) :
    ∃ t, Leaves R.step R.inside s t ∧ R.returned s t ∧
      (∀ a, ¬ InCells base k a → ¬ R.insertFrame Ns.length s a → R.mem t a = R.mem s a) ∧
      Partition base k (Ns ++ [N]) (R.mem t) (R.list t) (R.free t) := by
  obtain ⟨ds, fs, -, hshares⟩ := hpart
  obtain ⟨f, gs, rfl⟩ := hshares.exists_free hlen
  replace hshares := hshares.congr h.fits hm
  have hfree := hshares.freeChain
  obtain rfl : free = f := hfree.1
  have hnodup := hshares.nodup h.fits
  have hfresh := List.nodup_append.mp hnodup
  have hcells : ∀ d ∈ free :: ds, d ∈ cells base k := by
    intro d hd
    apply hshares.mem_cells
    rcases List.mem_cons.mp hd with rfl | hd
    · exact List.mem_append_right _ List.mem_cons_self
    · exact List.mem_append_left _ hd
  have hapart := h.apart N list free Ns.length s hs
  rw [← hshares.length] at hs hapart ⊢
  obtain ⟨t, hleaves, hret, hnext, stop, hdec, hstop, hgo, hins⟩ := h.inserts N list free ds s hs
    hshares.chain (fun hmem => hfresh.2.2 free hmem free List.mem_cons_self rfl) hfresh.1 hcells hfree.2.1
  refine ⟨t, hleaves, hret, fun a hout hframe => hins.frame a hframe ?_ ?_, ?_⟩
  · intro hmem
    exact hout (inCells_cell h.fits (hcells a hmem)).1
  · rintro rfl
    exact hout (inCells_cell h.fits (hcells free List.mem_cons_self)).2
  · rw [hnext]
    exact (hshares.insert h.fits hins hapart hstop hgo).partition h.fits

/-- After any number of insertions that the heap has room for. -/
theorem Meets.shares {Ns : List Word} {m : Memory} {list free : Word}
    (hafter : R.After base k Ns m list free) (hlen : Ns.length ≤ k) :
    Partition base k Ns m list free := by
  induction hafter with
  | made hmake hleaves =>
    obtain ⟨t, hleaves', -, hchain, -⟩ := h.makes _ hmake
    obtain rfl := hleaves'.unique hleaves
    exact ⟨[], (cells base k).reverse, List.disjoint_nil_left _, rfl, hchain, List.reverse_perm _, .nil,
      .nil⟩
  | inserted hafter hm hs hleaves ih =>
    rw [List.length_append, List.length_singleton] at hlen
    obtain ⟨t, hleaves', -, -, hpart⟩ := h.insert_shares (ih (Nat.le_of_succ_le hlen)) hlen hs hm
    obtain rfl := hleaves'.unique hleaves
    exact hpart

/-- **The routines are right** when each call of them is. -/
theorem Meets.right : R.Right base k where
  makes s hs := by
    obtain ⟨t, hleaves, hret, -, hframe⟩ := h.makes s hs
    exact ⟨t, hleaves, hret, hframe⟩
  inserts Ns m list free hafter hlen N s hs hm := by
    obtain ⟨t, hleaves, hret, hframe, -⟩ := h.insert_shares (h.shares hafter hlen.le) hlen hs hm
    exact ⟨t, hleaves, hret, hframe⟩
  shares _ _ _ _ hafter hlen := h.shares hafter hlen

end Meets

/-- A caller that makes the cells and inserts one value gets to the end. -/
theorem Right.exists_after (h : R.Right base k) (hk : 0 < k) (N : Word) (s : σ) (s' : Memory → Word → σ)
    (hs : R.making base k s)
    (hs' : ∀ m free, R.mem (s' m free) = m ∧ R.inserting base k N 0 free 0 (s' m free)) :
    ∃ m list free, R.After base k [N] m list free := by
  obtain ⟨t, ht, -⟩ := h.makes s hs
  have hmade := After.made hs ht
  obtain ⟨hmem, hins⟩ := hs' (R.mem t) (R.made t)
  have hsame : ∀ a, InCells base k a → R.mem (s' (R.mem t) (R.made t)) a = R.mem t a := by
    intro a _
    rw [hmem]
  obtain ⟨u, hu, -⟩ := h.inserts [] _ _ _ hmade hk N _ hins hsame
  exact ⟨_, _, _, .inserted hmade hsame hins hu⟩

/-- Two programs hold the same values after the same insertions. -/
theorem Right.values_eq {τ : Type} {R' : Routines τ} {base' : Word} {Ns : List Word} {m m' : Memory}
    {list free list' free' : Word} {ds ds' : List Word} (h : R.Right base k) (h' : R'.Right base' k)
    (hafter : R.After base k Ns m list free) (hafter' : R'.After base' k Ns m' list' free')
    (hlen : Ns.length ≤ k) (hds : Chain m list ds) (hds' : Chain m' list' ds') :
    ds.map (data m) = ds'.map (data m') :=
  (h.shares _ _ _ _ hafter hlen).values_eq (h'.shares _ _ _ _ hafter' hlen) hds hds'

end Routines

end Lib.CellList
