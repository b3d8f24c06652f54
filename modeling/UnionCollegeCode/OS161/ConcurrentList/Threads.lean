import Mathlib.Algebra.BigOperators.Group.Finset.Piecewise
import Mathlib.Algebra.BigOperators.Ring.Finset
import Mathlib.Algebra.Order.BigOperators.Group.Finset
import Mathlib.Data.List.Induction
import Mathlib.Data.Multiset.AddSub
import UnionCollegeCode.Lib.Run
import UnionCollegeCode.OS161.ConcurrentList.Representation

/-!
# Threads that share a list

Each call of a list function holds `ll_lock` from its first access to its last, so a run is a
sequence of calls, in the order in which the lock went round. A diary notes the pairs put into the
list and what each `linked_list_remove_head` returned.
-/

set_option autoImplicit false

namespace UnionCollegeCode.OS161.ConcurrentList

open Lib.LinkedChain Lib.Run

/-- A call; `ok` tells whether its `kmalloc` finds memory. -/
inductive ListOp
  | prepend (ok : Bool) (data : Data)
  | insert (ok : Bool) (key : ℤ) (data : Data)
  | removeHead
  deriving DecidableEq, Repr

abbrev Call := ℕ × ListOp

/-- Whether the call gets the memory it needs. -/
def ListOp.hasMemory : ListOp → Bool
  | .prepend ok _ | .insert ok _ _ => ok
  | .removeHead => true

structure ListRun where
  list : LinkedList
  inserted : Multiset (ℤ × Data)
  /-- The latest first. -/
  returned : List (Option (ℤ × Data))

namespace ListRun

def start : ListRun := ⟨linkedListCreate, 0, []⟩

/-- The key of the first node. -/
def firstKey (s : LinkedList) : ℤ := ((s.first.bind s.nodes).map Node.key).getD 0

def step (m : ListRun) : Call → Option ListRun
  | (_, .prepend ok data) =>
    match linkedListPrepend m.list ok data with
    | .ok s => some ⟨s, (firstKey s, data) ::ₘ m.inserted, m.returned⟩
    | .error _ => none
  | (_, .insert ok key data) =>
    match linkedListInsert m.list ok key data with
    | .ok s => some ⟨s, (key, data) ::ₘ m.inserted, m.returned⟩
    | .error _ => none
  | (_, .removeHead) =>
    match linkedListRemoveHead m.list with
    | .ok (r, s) => some ⟨s, m.inserted, r :: m.returned⟩
    | .error _ => none

/-- The pairs that came out. -/
def returnedPairs (m : ListRun) : Multiset (ℤ × Data) := (m.returned.filterMap id : List _)

/-- The nodes form one chain from `first` to `last`, linked both ways; the list is sorted, counted,
and holds what was put in and not taken out. -/
structure WellFormed (m : ListRun) (l : List Entry) : Prop where
  linked : Segment layout m.list.nodes none m.list.first l none m.list.last
  distinct : (l.map Prod.fst).Nodup
  ends : m.list.first = none ↔ m.list.last = none
  length : m.list.length = l.length
  sorted : Sorted l
  contents : (l.map Prod.snd : Multiset (ℤ × Data)) + m.returnedPairs = m.inserted

/-- `linked_list_remove_head` returns `NULL` for an empty list, else a pair of least key. -/
def RemovesLeast (m : ListRun) (a : Call) (m' : ListRun) : Prop :=
  a.2 = .removeHead → ∃ l r, WellFormed m l ∧ m'.returned = r :: m.returned ∧
    match r with
    | none => l = []
    | some pair => pair ∈ l.map Prod.snd ∧ ∀ e ∈ l, pair.1 ≤ e.2.1

/-! ## One call -/

variable {m m' : ListRun} {l : List Entry} {a : Call}

/-- What every run keeps, of the list `l`. -/
structure Inv (m : ListRun) (l : List Entry) : Prop where
  represents : Represents layout m.list l
  sorted : Sorted l
  contents : (l.map Prod.snd : Multiset (ℤ × Data)) + m.returnedPairs = m.inserted

theorem Inv.wellFormed (h : Inv m l) : WellFormed m l where
  linked := h.represents.linked
  distinct := h.represents.nodup
  ends := by rw [h.represents.linked.first_eq_none, h.represents.linked.last_eq_none]
  length := h.represents.length
  sorted := h.sorted
  contents := h.contents

theorem inv_start : Inv start [] := ⟨represents_create, List.Pairwise.nil, rfl⟩

theorem firstKey_cons {s : LinkedList} {e : Entry} (h : Represents layout s (e :: l)) :
    firstKey s = e.2.1 := by
  obtain ⟨hfirst, n, hn, hval, -⟩ := h.linked
  have hkey : n.key = e.2.1 := congrArg Prod.fst hval
  simp [firstKey, hfirst, hn, hkey]

/-- A call that puts something in adds one entry. -/
theorem Inv.step_insertion (h : Inv m l) (hs : m.step a = some m') (ha : a.2 ≠ .removeHead) :
    ∃ l', Inv m' l' ∧ l'.length = l.length + 1 ∧ m'.returned = m.returned := by
  obtain ⟨t, op⟩ := a
  cases op with
  | prepend ok data =>
    cases ok with
    | false =>
      simp only [step, h.represents.prepend_noMemory, reduceCtorEq] at hs
    | true =>
      obtain ⟨s', hs', hrep⟩ := h.represents.prepend data
      simp only [step, hs', Option.some.injEq] at hs
      subst hs
      refine ⟨_, ⟨hrep, sorted_prepend _ data h.sorted, ?_⟩, rfl, rfl⟩
      show ((prependKey l, data) ::ₘ (l.map Prod.snd : Multiset _)) + m.returnedPairs = _
      rw [Multiset.cons_add, h.contents, firstKey_cons hrep]
  | insert ok key data =>
    cases ok with
    | false =>
      simp only [step, h.represents.insert_noMemory, reduceCtorEq] at hs
    | true =>
      obtain ⟨s', hs', hrep⟩ := h.represents.insert key data
      simp only [step, hs', Option.some.injEq] at hs
      subst hs
      have hperm := insertEntry_perm (m.list.brk, key, data) l
      refine ⟨_, ⟨hrep, sorted_insertEntry _ h.sorted, ?_⟩, hperm.length_eq, rfl⟩
      rw [Multiset.coe_eq_coe.mpr (hperm.map Prod.snd)]
      show ((key, data) ::ₘ (l.map Prod.snd : Multiset _)) + m.returnedPairs = _
      rw [Multiset.cons_add, h.contents]
  | removeHead => exact absurd rfl ha

/-- A removal takes the first entry, if there is one. -/
theorem Inv.step_removal (h : Inv m l) (hs : m.step a = some m') (ha : a.2 = .removeHead) :
    Inv m' l.tail ∧ m'.returned = l.head?.map Prod.snd :: m.returned := by
  obtain ⟨t, op⟩ := a
  cases ha
  cases l with
  | nil =>
    simp only [step, h.represents.removeHead_nil, Option.some.injEq] at hs
    subst hs
    exact ⟨⟨h.represents, h.sorted, h.contents⟩, rfl⟩
  | cons e l =>
    obtain ⟨s', hs', hrep⟩ := h.represents.removeHead_cons
    simp only [step, hs', Option.some.injEq] at hs
    subst hs
    refine ⟨⟨hrep, (List.pairwise_cons.mp h.sorted).2, ?_⟩, rfl⟩
    rw [← h.contents]
    show (l.map Prod.snd : Multiset _) + (e.2 ::ₘ m.returnedPairs) =
      (e.2 ::ₘ (l.map Prod.snd : Multiset _)) + m.returnedPairs
    rw [Multiset.add_cons, Multiset.cons_add]

theorem Inv.step (h : Inv m l) (hs : m.step a = some m') : ∃ l', Inv m' l' := by
  by_cases ha : a.2 = .removeHead
  · exact ⟨_, (h.step_removal hs ha).1⟩
  · obtain ⟨l', h', -⟩ := h.step_insertion hs ha
    exact ⟨l', h'⟩

theorem Inv.removesLeast (h : Inv m l) (hs : m.step a = some m') : RemovesLeast m a m' := by
  intro ha
  refine ⟨l, _, h.wellFormed, (h.step_removal hs ha).2, ?_⟩
  cases l with
  | nil => rfl
  | cons e l =>
    refine ⟨List.mem_cons_self, fun f hf => ?_⟩
    rcases List.mem_cons.mp hf with rfl | hf
    · exact Int.le_refl _
    · exact (List.pairwise_cons.mp h.sorted).1 f hf

/-- No call goes wrong but one that finds no memory for its node. -/
theorem Inv.answers (h : Inv m l) (a : Call) : (m.step a).isSome = a.2.hasMemory := by
  obtain ⟨t, op⟩ := a
  cases op with
  | prepend ok data =>
    cases ok with
    | false => simp [ListRun.step, h.represents.prepend_noMemory, ListOp.hasMemory]
    | true =>
      obtain ⟨s', hs', -⟩ := h.represents.prepend data
      simp [ListRun.step, hs', ListOp.hasMemory]
  | insert ok key data =>
    cases ok with
    | false => simp [ListRun.step, h.represents.insert_noMemory, ListOp.hasMemory]
    | true =>
      obtain ⟨s', hs', -⟩ := h.represents.insert key data
      simp [ListRun.step, hs', ListOp.hasMemory]
  | removeHead =>
    cases l with
    | nil => simp [ListRun.step, h.represents.removeHead_nil, ListOp.hasMemory]
    | cons e l =>
      obtain ⟨s', hs', -⟩ := h.represents.removeHead_cons
      simp [ListRun.step, hs', ListOp.hasMemory]

/-! ## Threads that insert, then remove -/

/-- What one thread calls, in its order. -/
def callsOf (as : List Call) (t : ℕ) : List ListOp := (as.filter fun a => a.1 = t).map Prod.snd

def isRemoval (op : ListOp) : Bool := op = .removeHead

/-- `k` insertions, then `k` removals. -/
def InsertsThenRemoves (k : ℕ) (ops : List ListOp) : Prop :=
  ∃ ins rem, ops = ins ++ rem ∧ ins.length = k ∧ rem.length = k ∧
    (∀ op ∈ ins, isRemoval op = false) ∧ ∀ op ∈ rem, isRemoval op = true

def removals (ops : List ListOp) : ℕ := ops.countP isRemoval

/-- At no point has such a thread removed more than it has put in. -/
theorem InsertsThenRemoves.balanced {k : ℕ} {done rest : List ListOp}
    (h : InsertsThenRemoves k (done ++ rest)) : 2 * removals done ≤ done.length := by
  obtain ⟨ins, rem, heq, hins, hrem, hkeep, hgo⟩ := h
  have hnone : removals ins = 0 :=
    List.countP_eq_zero.mpr fun op hop => by simp [hkeep op hop]
  rcases List.append_eq_append_iff.mp heq with ⟨mid, hmid, -⟩ | ⟨mid, hmid, hrest⟩
  · have hle : removals done ≤ removals ins := by
      rw [hmid]
      simp [removals]
    omega
  · have hle : removals mid ≤ mid.length := List.countP_le_length
    have hmidlen : mid.length ≤ rem.length := by
      rw [hrest]
      simp
    have hdone : removals done = removals mid := by
      rw [hmid]
      simpa [removals] using hnone
    rw [hdone, hmid, List.length_append]
    omega

theorem InsertsThenRemoves.balance {k : ℕ} {ops : List ListOp} (h : InsertsThenRemoves k ops) :
    2 * removals ops = ops.length := by
  obtain ⟨ins, rem, rfl, hins, hrem, hkeep, hgo⟩ := h
  have hnone : removals ins = 0 :=
    List.countP_eq_zero.mpr fun op hop => by simp [hkeep op hop]
  have hall : removals rem = rem.length := List.countP_eq_length.mpr hgo
  simp only [removals, List.countP_append, List.length_append] at *
  omega

/-- The calls of all the threads are the calls. -/
theorem sum_callsOf {n : ℕ} {as : List Call} (has : ∀ a ∈ as, a.1 < n) :
    ∑ t ∈ Finset.range n, (callsOf as t).length = as.length ∧
      ∑ t ∈ Finset.range n, removals (callsOf as t) = removals (as.map Prod.snd) := by
  induction as with
  | nil => simp [callsOf, removals]
  | cons a as ih =>
    obtain ⟨hlen, hrem⟩ := ih fun b hb => has b (List.mem_cons_of_mem _ hb)
    have hcalls : ∀ t, callsOf (a :: as) t = if t = a.1 then a.2 :: callsOf as t else callsOf as t := by
      intro t
      by_cases ht : a.1 = t
      · simp [callsOf, ht]
      · simp [callsOf, ht, Ne.symm ht]
    have hmem : a.1 ∈ Finset.range n := Finset.mem_range.mpr (has a List.mem_cons_self)
    constructor
    · have : ∀ t, (callsOf (a :: as) t).length = (callsOf as t).length + if t = a.1 then 1 else 0 := by
        intro t
        rw [hcalls]
        split <;> rfl
      simp only [this, Finset.sum_add_distrib, hlen, Finset.sum_ite_eq', hmem, if_true,
        List.length_cons]
    · have : ∀ t, removals (callsOf (a :: as) t) =
          removals (callsOf as t) + if t = a.1 then (if isRemoval a.2 then 1 else 0) else 0 := by
        intro t
        rw [hcalls]
        split
        · exact List.countP_cons ..
        · rfl
      simp only [this, Finset.sum_add_distrib, hrem, Finset.sum_ite_eq', hmem, if_true]
      exact (List.countP_cons ..).symm

/-- Threads 0 to n-1, each with its `k` insertions and then its `k` removals. -/
def Workload (n k : ℕ) (as : List Call) : Prop :=
  (∀ a ∈ as, a.1 < n) ∧ ∀ t < n, InsertsThenRemoves k (callsOf as t)

theorem callsOf_append (as bs : List Call) (t : ℕ) :
    callsOf (as ++ bs) t = callsOf as t ++ callsOf bs t := by
  simp [callsOf]

theorem Workload.balanced {n k : ℕ} {as bs : List Call} (h : Workload n k (as ++ bs)) :
    2 * removals (as.map Prod.snd) ≤ as.length := by
  obtain ⟨hlen, hrem⟩ := sum_callsOf fun a ha => h.1 a (List.mem_append_left bs ha)
  rw [← hlen, ← hrem, Finset.mul_sum]
  refine Finset.sum_le_sum fun t ht => ?_
  have := h.2 t (Finset.mem_range.mp ht)
  rw [callsOf_append] at this
  exact this.balanced

theorem Workload.balance {n k : ℕ} {as : List Call} (h : Workload n k as) :
    2 * removals (as.map Prod.snd) = as.length := by
  obtain ⟨hlen, hrem⟩ := sum_callsOf h.1
  rw [← hlen, ← hrem, Finset.mul_sum]
  exact Finset.sum_congr rfl fun t ht => (h.2 t (Finset.mem_range.mp ht)).balance

/-- While no prefix has more removals than insertions, no removal comes back empty and the list has
what is left. -/
theorem removals_find {as : List Call} {m : ListRun}
    (hbal : ∀ p, p <+: as → 2 * removals (p.map Prod.snd) ≤ p.length)
    (hrun : exec step start as = some m) :
    none ∉ m.returned ∧ ∃ l, Inv m l ∧ l.length + 2 * removals (as.map Prod.snd) = as.length := by
  induction as using List.reverseRecOn generalizing m with
  | nil =>
    cases hrun
    exact ⟨List.not_mem_nil, [], inv_start, rfl⟩
  | append_singleton as a ih =>
    rw [exec_append] at hrun
    obtain ⟨m₁, hm₁, hlast⟩ := Option.bind_eq_some_iff.mp hrun
    obtain ⟨m₂, hs, hlast⟩ := Option.bind_eq_some_iff.mp hlast
    cases hlast
    obtain ⟨hnone, l, hinv, hcount⟩ :=
      ih (fun p hp => hbal p (hp.trans (List.prefix_append _ _))) hm₁
    have hnow := hbal _ (List.prefix_refl _)
    simp only [List.map_append, List.map_cons, List.map_nil, removals, List.countP_append,
      List.length_append, List.length_singleton, List.countP_singleton] at hnow hcount ⊢
    by_cases ha : a.2 = .removeHead
    · obtain ⟨hinv', hret⟩ := hinv.step_removal hs ha
      have hrem : isRemoval a.2 = true := by simp [isRemoval, ha]
      rw [if_pos hrem] at hnow ⊢
      cases l with
      | nil =>
        simp only [List.length_nil] at hcount
        omega
      | cons e l =>
        refine ⟨?_, l, hinv', ?_⟩
        · rw [hret]
          simpa using hnone
        · simp only [List.length_cons] at hcount
          omega
    · obtain ⟨l', hinv', hlen, hret⟩ := hinv.step_insertion hs ha
      have hrem : isRemoval a.2 = false := by simp [isRemoval, ha]
      rw [if_neg (by simp [hrem])]
      exact ⟨hret ▸ hnone, l', hinv', by omega⟩

/-- **The list's representation invariant**, over every sequence of calls by any threads; and threads
that insert before they remove as often never find the list empty. -/
theorem linkedList_wellFormed :
    (∀ as, Along step (fun m => (∃ l, WellFormed m l) ∧
      ∀ a, (m.step a).isSome = a.2.hasMemory) start as) ∧
    (∀ as, AlongSteps step RemovesLeast start as) ∧
    ∀ n k as bs m, Workload n k (as ++ bs) → exec step start as = some m →
      none ∉ m.returned ∧ (bs = [] → m.list.first = none) := by
  refine ⟨fun as => ?_, fun as => ?_, fun n k as bs m hload hrun => ?_⟩
  · have hinv : Along step (fun m => ∃ l, Inv m l) start as :=
      along_of_step (fun _ _ _ ⟨_, h⟩ hs => h.step hs) ⟨_, inv_start⟩
    exact hinv.mono fun _ ⟨l, h⟩ => ⟨⟨l, h.wellFormed⟩, h.answers⟩
  · exact alongSteps_of_step (I := fun m => ∃ l, Inv m l) (fun _ _ _ ⟨_, h⟩ hs => h.step hs)
      (fun _ _ _ ⟨_, h⟩ hs => h.removesLeast hs) ⟨_, inv_start⟩
  · have hbal : ∀ p, p <+: as → 2 * removals (p.map Prod.snd) ≤ p.length := by
      rintro p ⟨q, rfl⟩
      rw [List.append_assoc] at hload
      exact hload.balanced
    obtain ⟨hnone, l, hinv, hcount⟩ := removals_find hbal hrun
    refine ⟨hnone, ?_⟩
    rintro rfl
    rw [List.append_nil] at hload
    have hempty : l = [] := List.length_eq_zero_iff.mp (by have := hload.balance; omega)
    exact hinv.represents.linked.first_eq_none.mpr hempty

/-- One thread, one insertion and its removal. -/
theorem linkedList_wellFormed_one :
    ∃ m, exec step start [(0, .insert true 5 (some 9)), (0, .removeHead)] = some m ∧
      none ∉ m.returned ∧ m.list.first = none := by
  have hload : Workload 1 1 ([(0, .insert true 5 (some 9)), (0, .removeHead)] ++ []) := by
    refine ⟨by simp, fun t ht => ?_⟩
    cases Nat.lt_one_iff.mp ht
    exact ⟨[.insert true 5 (some 9)], [.removeHead], rfl, rfl, rfl, by simp [isRemoval],
      by simp [isRemoval]⟩
  have hrun := linkedList_wellFormed.2.2 1 1 _ [] _ hload rfl
  exact ⟨_, rfl, hrun.1, hrun.2 rfl⟩

end ListRun

end UnionCollegeCode.OS161.ConcurrentList
