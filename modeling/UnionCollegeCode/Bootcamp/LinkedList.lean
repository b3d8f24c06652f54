import Mathlib.Algebra.Order.Ring.Int
import Mathlib.Data.List.Perm.Subperm
import UnionCollegeCode.Lib.LinkedChain

/-!
# `linked-list.c` of the bootcamp week

`malloc` finds memory here, at an address that was never in use. A dereference that faults gives `none`.

`insert` keeps a list ascending. `insertRecursive` allocates the node as well, but in its base case it
returns `listptr` and not `tmpptr`, so the list that it returns is the list it was given.
-/

set_option autoImplicit false

namespace UnionCollegeCode.Bootcamp

open Function (update)
open Lib.LinkedChain

structure Node where
  next : Option ℕ
  data : ℤ

structure Memory where
  heap : ℕ → Option Node
  /-- All addresses from here on are unused. -/
  brk : ℕ
  fresh : ∀ p, brk ≤ p → heap p = none

def Memory.empty : Memory := ⟨fun _ => none, 0, fun _ _ => rfl⟩

/-- `malloc`, and what the node is set to. -/
def Memory.malloc (m : Memory) (n : Node) : ℕ × Memory :=
  (m.brk, {
    heap := update m.heap m.brk (some n)
    brk := m.brk + 1
    fresh := fun p hp => by
      rw [Function.update_of_ne (Nat.ne_of_gt hp)]
      exact m.fresh p (Nat.le_of_succ_le hp) })

theorem Memory.lt_brk {m : Memory} {p : ℕ} {n : Node} (hp : m.heap p = some n) : p < m.brk := by
  by_contra hge
  rw [m.fresh p (Nat.le_of_not_lt hge)] at hp
  cases hp

/-- `p->next = q`. -/
def Memory.setNext (m : Memory) (p : ℕ) (q : Option ℕ) : Option Memory :=
  match hp : m.heap p with
  | none => none
  | some n => some {
      heap := update m.heap p (some { n with next := q })
      brk := m.brk
      fresh := fun a ha => by
        rw [Function.update_of_ne (Nat.ne_of_gt (Nat.lt_of_lt_of_le (Memory.lt_brk hp) ha))]
        exact m.fresh a ha }

/-- The loop of `insert` from `curptr` on, cut after so many rounds. -/
def curptrFrom (m : Memory) (N : ℤ) : ℕ → ℕ → Option ℕ
  | 0, _ => none
  | left + 1, curptr => do
    let c ← m.heap curptr
    match c.next with
    | none => return curptr
    | some q =>
      let n ← m.heap q
      if n.data ≤ N then curptrFrom m N left q else return curptr

def insert (N : ℤ) (listptr : Option ℕ) (m : Memory) : Option (Option ℕ × Memory) := do
  let (tmpptr, m) := m.malloc ⟨none, N⟩
  match listptr with
  | none =>
    let m ← m.setNext tmpptr listptr
    return (some tmpptr, m)
  | some p =>
    let n ← m.heap p
    if N < n.data then
      let m ← m.setNext tmpptr listptr
      return (some tmpptr, m)
    else
      -- A list has no more nodes than were ever allocated.
      let curptr ← curptrFrom m N m.brk p
      let c ← m.heap curptr
      let m ← m.setNext tmpptr c.next
      let m ← m.setNext curptr (some tmpptr)
      return (listptr, m)

/-- `insertRecursive`, cut at this depth. -/
def insertRecursiveFrom (N : ℤ) : ℕ → Option ℕ → Memory → Option (Option ℕ × Memory)
  | 0, _, _ => none
  | _ + 1, none, m =>
    let (_, m) := m.malloc ⟨none, N⟩
    return (none, m)
  | depth + 1, some p, m => do
    let n ← m.heap p
    if N < n.data then
      let (_, m) := m.malloc ⟨none, N⟩
      return (some p, m)
    else
      let (q, m) ← insertRecursiveFrom N depth n.next m
      let m ← m.setNext p q
      return (some p, m)

def insertRecursive (N : ℤ) (listptr : Option ℕ) (m : Memory) : Option (Option ℕ × Memory) :=
  insertRecursiveFrom N (m.brk + 1) listptr m

/-- Either of the two. -/
abbrev Insertion := ℤ → Option ℕ → Memory → Option (Option ℕ × Memory)

/-- `list = insert(N, list)` for one value after the other. -/
def insertAll (ins : Insertion) : List ℤ → Option ℕ → Memory → Option (Option ℕ × Memory)
  | [], list, m => some (list, m)
  | N :: Ns, list, m => do
    let (list, m) ← ins N list m
    insertAll ins Ns list m

/-! ## Lists and their values -/

/-- A node knows nothing of the one before it. -/
def layout : Layout Node ℤ := ⟨fun _ _ => True, Node.next, Node.data⟩

/-- The nodes from `p` to `NULL`, with their values. -/
def Nodes (heap : ℕ → Option Node) (p : Option ℕ) (l : List (ℕ × ℤ)) : Prop :=
  ∃ last, Segment layout heap none p l none last

/-- The values from `p` to `NULL`. -/
def Values (m : Memory) (p : Option ℕ) (vs : List ℤ) : Prop :=
  ∃ l, Nodes m.heap p l ∧ l.map Prod.snd = vs

/-- One `N` more, with all that equal it before it. -/
def Placed (N : ℤ) (vs ws : List ℤ) : Prop :=
  ws.Pairwise (· ≤ ·) ∧ ∃ ls hs, vs = ls ++ hs ∧ ws = ls ++ N :: hs ∧ ∀ x ∈ hs, N < x

/-- The call returns a list of these values. -/
def Returns (ins : Insertion) (N : ℤ) (listptr : Option ℕ) (m : Memory) (ws : List ℤ) : Prop :=
  ∃ q m', ins N listptr m = some (q, m') ∧ Values m' q ws

section Nodes

variable {heap : ℕ → Option Node} {p q : Option ℕ} {l l' : List (ℕ × ℤ)} {a b : ℕ} {n : Node} {N : ℤ}

theorem nodes_nil : Nodes heap p [] ↔ p = none := by
  constructor
  · intro h
    obtain ⟨last, hp, -⟩ := h
    exact hp
  · intro hp
    exact ⟨none, hp, rfl⟩

theorem segment_of_nodes {prev : Option ℕ} (h : Nodes heap p l) :
    ∃ last, Segment layout heap prev p l none last := by
  obtain ⟨last, h⟩ := h
  cases l with
  | nil => exact ⟨prev, h.1, rfl⟩
  | cons e l =>
    obtain ⟨hp, n, hn, hval, -, hl⟩ := h
    exact ⟨last, hp, n, hn, hval, trivial, hl⟩

theorem nodes_cons {x : ℤ} : Nodes heap p ((a, x) :: l) ↔
    p = some a ∧ ∃ n, heap a = some n ∧ n.data = x ∧ Nodes heap n.next l := by
  constructor
  · intro h
    obtain ⟨last, hp, n, hn, hval, -, hl⟩ := h
    refine ⟨hp, n, hn, hval, ?_⟩
    cases l with
    | nil => exact ⟨none, hl.1, rfl⟩
    | cons e l =>
      obtain ⟨hnext, k, hk, hkval, -, hrest⟩ := hl
      exact ⟨last, hnext, k, hk, hkval, trivial, hrest⟩
  · intro h
    obtain ⟨hp, n, hn, hval, hl⟩ := h
    obtain ⟨last, hl⟩ := segment_of_nodes hl
    exact ⟨last, hp, n, hn, hval, trivial, hl⟩

theorem Nodes.nodup (h : Nodes heap p l) : (l.map Prod.fst).Nodup := by
  obtain ⟨last, h⟩ := h
  exact h.nodup

theorem Nodes.update {k : Option Node} (ha : a ∉ l.map Prod.fst) (h : Nodes heap p l) :
    Nodes (update heap a k) p l := by
  obtain ⟨last, h⟩ := h
  exact ⟨last, h.update ha⟩

theorem Nodes.allocated (h : Nodes heap p l) : ∀ c ∈ l.map Prod.fst, ∃ n, heap c = some n := by
  induction l generalizing p with
  | nil => exact fun c hc => absurd hc List.not_mem_nil
  | cons e l ih =>
    obtain ⟨-, n, hn, -, hl⟩ := nodes_cons.mp h
    intro c hc
    rcases List.mem_cons.mp hc with rfl | hc
    · exact ⟨n, hn⟩
    · exact ih hl c hc

theorem Nodes.unique (h : Nodes heap p l) (h' : Nodes heap p l') : l = l' := by
  obtain ⟨last, h⟩ := h
  obtain ⟨last', h'⟩ := h'
  exact h.unique h'

end Nodes

/-! ## One insertion -/

section Insertion

variable {m : Memory} {p : Option ℕ} {l l₁ l₂ : List (ℕ × ℤ)} {c b : ℕ} {y N : ℤ} {k : Node}

theorem setNext_eq (q : Option ℕ) (hk : m.heap c = some k) :
    ∃ m', m.setNext c q = some m' ∧ m'.heap = update m.heap c (some { k with next := q }) := by
  unfold Memory.setNext
  split
  case h_1 hnone =>
    rw [hk] at hnone
    cases hnone
  case h_2 n hn =>
    obtain rfl := Option.some.inj (hk.symm.trans hn)
    exact ⟨_, rfl, rfl⟩

/-- A list has no more nodes than there are addresses in use. -/
theorem Nodes.length_le (h : Nodes m.heap p l) : l.length ≤ m.brk := by
  have hsub : l.map Prod.fst ⊆ List.range m.brk := by
    intro a ha
    obtain ⟨n, hn⟩ := h.allocated a ha
    exact List.mem_range.mpr (Memory.lt_brk hn)
  have hle := (List.subperm_of_subset h.nodup hsub).length_le
  rwa [List.length_map, List.length_range] at hle

/-- A new node behind that at `c`. -/
theorem Nodes.insertAfter {heap : ℕ → Option Node} (h : Nodes heap p (l₁ ++ (c, y) :: l₂))
    (hk : heap c = some k) (hb : heap b = none) :
    Nodes (Function.update (Function.update heap b (some ⟨k.next, N⟩)) c (some { k with next := some b })) p
      (l₁ ++ (c, y) :: (b, N) :: l₂) := by
  have hcb : c ≠ b := by
    rintro rfl
    rw [hk] at hb
    cases hb
  have hout : ∀ {q l}, Nodes heap q l → b ∉ l.map Prod.fst := by
    intro q l hl hmem
    obtain ⟨n, hn⟩ := hl.allocated b hmem
    rw [hb] at hn
    cases hn
  induction l₁ generalizing p with
  | nil =>
    obtain ⟨hp, n, hn, hval, hl⟩ := nodes_cons.mp h
    obtain rfl := Option.some.inj (hk.symm.trans hn)
    have hnodup := h.nodup
    rw [List.nil_append, List.map_cons, List.nodup_cons] at hnodup
    refine nodes_cons.mpr ⟨hp, _, Function.update_self .., hval, ?_⟩
    refine nodes_cons.mpr ⟨rfl, ⟨k.next, N⟩, ?_, rfl, (hl.update (hout hl)).update hnodup.1⟩
    rw [Function.update_of_ne hcb.symm, Function.update_self]
  | cons e l₁ ih =>
    obtain ⟨hp, n, hn, hval, hl⟩ := nodes_cons.mp h
    have hec : e.1 ≠ c := by
      have hnodup := h.nodup
      rw [List.cons_append, List.map_cons, List.nodup_cons] at hnodup
      rintro rfl
      exact hnodup.1 (List.mem_map.mpr ⟨(e.1, y), List.mem_append_right _ List.mem_cons_self, rfl⟩)
    have heb : e.1 ≠ b := by
      intro heq
      rw [heq, hb] at hn
      cases hn
    refine nodes_cons.mpr ⟨hp, n, ?_, hval, ih hl⟩
    rw [Function.update_of_ne hec, Function.update_of_ne heb, hn]

/-- Where the loop stops. -/
theorem curptrFrom_spec (h : Nodes m.heap p ((c, y) :: l)) (hy : y ≤ N)
    (hsorted : (((c, y) :: l).map Prod.snd).Pairwise (· ≤ ·)) {left : ℕ} (hleft : l.length < left) :
    ∃ l₁ d z l₂, (c, y) :: l = l₁ ++ (d, z) :: l₂ ∧ curptrFrom m N left c = some d ∧
      (∀ e ∈ l₁ ++ [(d, z)], e.2 ≤ N) ∧ ∀ e ∈ l₂, N < e.2 := by
  induction l generalizing p c y left with
  | nil =>
    obtain ⟨left, rfl⟩ := Nat.exists_eq_succ_of_ne_zero (Nat.ne_zero_of_lt hleft)
    obtain ⟨-, n, hn, -, hnil⟩ := nodes_cons.mp h
    refine ⟨[], c, y, [], rfl, ?_, ?_, fun e he => absurd he List.not_mem_nil⟩
    · rw [curptrFrom, hn, Option.bind_eq_bind, Option.bind_some, nodes_nil.mp hnil]
      rfl
    · intro e he
      rw [List.mem_singleton.mp he]
      exact hy
  | cons e l ih =>
    obtain ⟨left, rfl⟩ := Nat.exists_eq_succ_of_ne_zero (Nat.ne_zero_of_lt hleft)
    obtain ⟨d, z⟩ := e
    obtain ⟨-, n, hn, -, htail⟩ := nodes_cons.mp h
    obtain ⟨hnext, k, hk, rfl, -⟩ := nodes_cons.mp htail
    rw [List.map_cons, List.pairwise_cons] at hsorted
    have hstep : curptrFrom m N (left + 1) c =
        if k.data ≤ N then curptrFrom m N left d else some c := by
      rw [curptrFrom, hn, Option.bind_eq_bind, Option.bind_some, hnext]
      simp only [hk, Option.bind_some]
      rfl
    -- The loop looks at the next node: it goes there or stays before it for good.
    by_cases hle : k.data ≤ N
    · obtain ⟨l₁, d', z', l₂, hl, hloop, hlow, hhigh⟩ := ih htail hle hsorted.2 (Nat.lt_of_succ_lt_succ hleft)
      refine ⟨(c, y) :: l₁, d', z', l₂, by rw [hl]; rfl, by rw [hstep, if_pos hle, hloop], ?_, hhigh⟩
      intro e he
      rcases List.mem_cons.mp he with rfl | he
      · exact hy
      · exact hlow e he
    · refine ⟨[], c, y, (d, k.data) :: l, rfl, by rw [hstep, if_neg hle], ?_, ?_⟩
      · intro e he
        rw [List.mem_singleton.mp he]
        exact hy
      · intro e he
        have hsorted := hsorted.2
        rw [List.map_cons, List.pairwise_cons] at hsorted
        rcases List.mem_cons.mp he with rfl | he
        · exact lt_of_not_ge hle
        · exact lt_of_lt_of_le (lt_of_not_ge hle) (hsorted.1 _ (List.mem_map_of_mem he))

theorem Nodes.brk_not_mem (h : Nodes m.heap p l) : m.brk ∉ l.map Prod.fst := by
  intro hmem
  obtain ⟨n, hn⟩ := h.allocated _ hmem
  exact Nat.lt_irrefl _ (Memory.lt_brk hn)

theorem malloc_new : (m.malloc ⟨none, N⟩).2.heap m.brk = some ⟨none, N⟩ := Function.update_self ..

theorem malloc_old {n : Node} (hn : m.heap c = some n) : (m.malloc ⟨none, N⟩).2.heap c = some n := by
  rw [← hn]
  exact Function.update_of_ne (Nat.ne_of_lt (Memory.lt_brk hn)) _ _

/-- The new node before all others. -/
theorem Nodes.push (h : Nodes m.heap p l) (N : ℤ) :
    ∃ m', (m.malloc ⟨none, N⟩).2.setNext m.brk p = some m' ∧
      Nodes m'.heap (some m.brk) ((m.brk, N) :: l) := by
  have hout := h.brk_not_mem
  obtain ⟨m', hm', hheap⟩ := setNext_eq p (malloc_new (m := m) (N := N))
  refine ⟨m', hm', nodes_cons.mpr ⟨rfl, ⟨p, N⟩, by rw [hheap, Function.update_self], rfl, ?_⟩⟩
  rw [hheap]
  exact (h.update hout).update hout

/-- The new node behind the last one that is not greater. -/
theorem insert_behind {n : Node} (h : Nodes m.heap (some c) ((c, n.data) :: l)) (hn : m.heap c = some n)
    (hle : ¬ N < n.data) (hsorted : (((c, n.data) :: l).map Prod.snd).Pairwise (· ≤ ·)) :
    ∃ m' l₁ l₂, insert N (some c) m = some (some c, m') ∧ (c, n.data) :: l = l₁ ++ l₂ ∧
      Nodes m'.heap (some c) (l₁ ++ (m.brk, N) :: l₂) ∧ (∀ e ∈ l₁, e.2 ≤ N) ∧ ∀ e ∈ l₂, N < e.2 := by
  have hn' := malloc_old (N := N) hn
  have hall : Nodes (m.malloc ⟨none, N⟩).2.heap (some c) ((c, n.data) :: l) := h.update h.brk_not_mem
  obtain ⟨l₁, d, z, l₂, hsplit, hloop, hlow, hhigh⟩ :=
    curptrFrom_spec hall (not_lt.mp hle) hsorted hall.length_le
  rw [hsplit] at h
  obtain ⟨k, hk⟩ := h.allocated d (List.mem_map_of_mem (List.mem_append_right _ List.mem_cons_self))
  have hk' := malloc_old (N := N) hk
  obtain ⟨m₁, hm₁, hheap₁⟩ := setNext_eq k.next (malloc_new (m := m) (N := N))
  have hk₁ : m₁.heap d = some k := by
    rw [hheap₁, Function.update_of_ne (Nat.ne_of_lt (Memory.lt_brk hk)), hk']
  obtain ⟨m₂, hm₂, hheap₂⟩ := setNext_eq (some m.brk) hk₁
  refine ⟨m₂, l₁ ++ [(d, z)], l₂, ?_, by rw [hsplit, List.append_assoc]; rfl, ?_, hlow, hhigh⟩
  · rw [insert]
    simp only [Memory.malloc] at hn' hk' hm₁ hm₂ hloop ⊢
    simp only [hn', Option.bind_eq_bind, Option.bind_some, if_neg hle, hloop, hk', hm₁, hm₂]
    rfl
  · have hins := h.insertAfter (N := N) hk (m.fresh _ (Nat.le_refl _))
    rw [hheap₂, hheap₁, List.append_assoc]
    simp only [Memory.malloc, Function.update_idem]
    exact hins

/-- `insert` links one node in, with all that equal it before it. -/
theorem insert_nodes (h : Nodes m.heap p l) (hsorted : (l.map Prod.snd).Pairwise (· ≤ ·)) (N : ℤ) :
    ∃ q m' l₁ l₂, insert N p m = some (q, m') ∧ l = l₁ ++ l₂ ∧
      Nodes m'.heap q (l₁ ++ (m.brk, N) :: l₂) ∧ (∀ e ∈ l₁, e.2 ≤ N) ∧ ∀ e ∈ l₂, N < e.2 := by
  obtain ⟨m', hm', hpush⟩ := h.push N
  cases l with
  | nil =>
    obtain rfl := nodes_nil.mp h
    refine ⟨some m.brk, m', [], [], ?_, rfl, hpush, ?_, ?_⟩
    · rw [insert]
      simp only [Memory.malloc] at hm' ⊢
      rw [hm']
      rfl
    · exact fun e he => absurd he List.not_mem_nil
    · exact fun e he => absurd he List.not_mem_nil
  | cons e l =>
    obtain ⟨c, y⟩ := e
    obtain ⟨rfl, n, hn, rfl, -⟩ := nodes_cons.mp h
    by_cases hlt : N < n.data
    · have hn' := malloc_old (N := N) hn
      refine ⟨some m.brk, m', [], (c, n.data) :: l, ?_, rfl, hpush, ?_, ?_⟩
      · rw [insert]
        simp only [Memory.malloc] at hn' hm' ⊢
        simp only [hn', hm', Option.bind_eq_bind, Option.bind_some, if_pos hlt]
        rfl
      · exact fun e he => absurd he List.not_mem_nil
      · intro e he
        rw [List.map_cons, List.pairwise_cons] at hsorted
        rcases List.mem_cons.mp he with rfl | he
        · exact hlt
        · exact lt_of_lt_of_le hlt (hsorted.1 _ (List.mem_map_of_mem he))
    · obtain ⟨m', l₁, l₂, hins⟩ := insert_behind h hn hlt hsorted
      exact ⟨some c, m', l₁, l₂, hins⟩

/-- `insertRecursive` gives the list back that it is given, every node with the link it had. -/
theorem insertRecursiveFrom_nodes {depth : ℕ} (h : Nodes m.heap p l) (hdepth : l.length < depth) (N : ℤ) :
    ∃ m', insertRecursiveFrom N depth p m = some (p, m') ∧
      ∀ a n, m.heap a = some n → m'.heap a = some n := by
  have hmalloc : ∀ a n, m.heap a = some n → (m.malloc ⟨none, N⟩).2.heap a = some n := by
    intro a n hn
    rw [← hn]
    exact Function.update_of_ne (Nat.ne_of_lt (Memory.lt_brk hn)) _ _
  induction l generalizing p depth with
  | nil =>
    obtain ⟨depth, rfl⟩ := Nat.exists_eq_succ_of_ne_zero (Nat.ne_zero_of_lt hdepth)
    obtain rfl := nodes_nil.mp h
    exact ⟨_, rfl, hmalloc⟩
  | cons e l ih =>
    obtain ⟨depth, rfl⟩ := Nat.exists_eq_succ_of_ne_zero (Nat.ne_zero_of_lt hdepth)
    obtain ⟨rfl, n, hn, -, hl⟩ := nodes_cons.mp h
    by_cases hlt : N < n.data
    · refine ⟨(m.malloc ⟨none, N⟩).2, ?_, hmalloc⟩
      rw [insertRecursiveFrom, hn, Option.bind_eq_bind, Option.bind_some, if_pos hlt]
      rfl
    · obtain ⟨m₁, hrec, hkeep⟩ := ih hl (Nat.lt_of_succ_lt_succ hdepth)
      obtain ⟨m₂, hm₂, hheap⟩ := setNext_eq n.next (hkeep _ _ hn)
      refine ⟨m₂, ?_, ?_⟩
      · rw [insertRecursiveFrom, hn, Option.bind_eq_bind, Option.bind_some, if_neg hlt, hrec,
          Option.bind_eq_bind, Option.bind_some]
        simp only [hm₂]
        rfl
      · intro a k hk
        rw [hheap]
        by_cases ha : a = e.1
        · rw [ha, Function.update_self, ← hn, ← ha, hk]
        · rw [Function.update_of_ne ha, hkeep a k hk]

theorem Nodes.keep {heap heap' : ℕ → Option Node} (h : Nodes heap p l)
    (hkeep : ∀ a n, heap a = some n → heap' a = some n) : Nodes heap' p l := by
  induction l generalizing p with
  | nil => exact nodes_nil.mpr (nodes_nil.mp h)
  | cons e l ih =>
    obtain ⟨hp, n, hn, hval, hl⟩ := nodes_cons.mp h
    exact nodes_cons.mpr ⟨hp, n, hkeep _ _ hn, hval, ih hl⟩

theorem insert_returns {vs : List ℤ} (h : Values m p vs) (hsorted : vs.Pairwise (· ≤ ·)) (N : ℤ) :
    ∃ ws, Placed N vs ws ∧ Returns insert N p m ws := by
  obtain ⟨l, hl, rfl⟩ := h
  obtain ⟨q, m', l₁, l₂, hrun, rfl, hnodes, hlow, hhigh⟩ := insert_nodes hl hsorted N
  rw [List.map_append, List.pairwise_append] at hsorted
  refine ⟨_, ⟨?_, l₁.map Prod.snd, l₂.map Prod.snd, List.map_append, List.map_append, ?_⟩,
    q, m', hrun, _, hnodes, rfl⟩
  · rw [List.map_append, List.map_cons, List.pairwise_append, List.pairwise_cons]
    refine ⟨hsorted.1, ⟨?_, hsorted.2.1⟩, ?_⟩
    · intro x hx
      obtain ⟨e, he, rfl⟩ := List.mem_map.mp hx
      exact (hhigh e he).le
    · intro x hx y hy
      rcases List.mem_cons.mp hy with rfl | hy
      · obtain ⟨e, he, rfl⟩ := List.mem_map.mp hx
        exact hlow e he
      · exact hsorted.2.2 x hx y hy
  · intro x hx
    obtain ⟨e, he, rfl⟩ := List.mem_map.mp hx
    exact hhigh e he

theorem insertRecursive_returns {vs : List ℤ} (h : Values m p vs) (N : ℤ) :
    Returns insertRecursive N p m vs := by
  obtain ⟨l, hl, hvs⟩ := h
  obtain ⟨m', hrun, hkeep⟩ := insertRecursiveFrom_nodes hl (Nat.lt_succ_of_le hl.length_le) N
  exact ⟨p, m', hrun, l, hl.keep hkeep, hvs⟩

theorem Placed.perm {vs ws : List ℤ} (h : Placed N vs ws) : ws.Perm (N :: vs) := by
  obtain ⟨-, ls, hs, rfl, rfl, -⟩ := h
  exact List.perm_middle

theorem Returns.unique {ins : Insertion} {vs ws : List ℤ} (h : Returns ins N p m vs)
    (h' : Returns ins N p m ws) : vs = ws := by
  obtain ⟨q, m', hrun, l, hl, rfl⟩ := h
  obtain ⟨q', m'', hrun', l', hl', rfl⟩ := h'
  obtain ⟨rfl, rfl⟩ := Prod.mk.inj (Option.some.inj (hrun.symm.trans hrun'))
  rw [hl.unique hl']

end Insertion

/-! ## Any number of insertions -/

/-- The list after these insertions, from `list = NULL` on. -/
def Lists (ins : Insertion) (Ns : List ℤ) (m : Memory) (ws : List ℤ) : Prop :=
  ∃ q m', insertAll ins Ns none m = some (q, m') ∧ Values m' q ws

section Runs

variable {m : Memory} {p : Option ℕ} {vs : List ℤ}

theorem values_null : Values m none [] := ⟨[], nodes_nil.mpr rfl, rfl⟩

theorem insertAll_sorts (Ns : List ℤ) (h : Values m p vs) (hsorted : vs.Pairwise (· ≤ ·)) :
    ∃ q m' ws, insertAll insert Ns p m = some (q, m') ∧
      Values m' q ws ∧ ws.Pairwise (· ≤ ·) ∧ ws.Perm (Ns ++ vs) := by
  induction Ns generalizing m p vs with
  | nil => exact ⟨p, m, vs, rfl, h, hsorted, .refl _⟩
  | cons N Ns ih =>
    obtain ⟨us, hplaced, q, m', hrun, hus⟩ := insert_returns h hsorted N
    obtain ⟨q', m'', ws, hrest, hws, hwsorted, hperm⟩ := ih hus hplaced.1
    refine ⟨q', m'', ws, ?_, hws, hwsorted, ?_⟩
    · rw [insertAll, hrun]
      exact hrest
    · exact hperm.trans ((hplaced.perm.append_left Ns).trans List.perm_middle)

theorem insertAll_insertRecursive (Ns : List ℤ) (m : Memory) :
    ∃ m', insertAll insertRecursive Ns none m = some (none, m') := by
  induction Ns generalizing m with
  | nil => exact ⟨m, rfl⟩
  | cons N Ns ih => exact ih (m.malloc ⟨none, N⟩).2

end Runs

/-- **The insertions never agree.** On every ascending list `insert` does what is asked and
`insertRecursive` does not: it gives the list back without `N`. So after any insertions from the empty
list on, other than none, the one list is the sorted values and the other is empty. -/
theorem insertions_never_agree {m : Memory} {p : Option ℕ} {vs : List ℤ} (h : Values m p vs)
    (hsorted : vs.Pairwise (· ≤ ·)) (N : ℤ) (m₀ : Memory) (Ns : List ℤ) :
    ((∃ ws, Placed N vs ws ∧ Returns insert N p m ws) ∧ Returns insertRecursive N p m vs ∧
      ¬ ∃ ws, Placed N vs ws ∧ Returns insert N p m ws ∧ Returns insertRecursive N p m ws) ∧
    (∃ ws, ws.Pairwise (· ≤ ·) ∧ ws.Perm Ns ∧ Lists insert Ns m₀ ws) ∧ Lists insertRecursive Ns m₀ [] ∧
      ((∃ ws, ws.Pairwise (· ≤ ·) ∧ ws.Perm Ns ∧ Lists insert Ns m₀ ws ∧ Lists insertRecursive Ns m₀ ws) ↔
        Ns = []) := by
  constructor
  · have hrec := insertRecursive_returns h N
    refine ⟨insert_returns h hsorted N, hrec, ?_⟩
    rintro ⟨ws, hplaced, -, hrec'⟩
    rw [← hrec.unique hrec'] at hplaced
    have hlen := hplaced.perm.length_eq
    exact absurd hlen (Nat.ne_of_lt (Nat.lt_succ_self _))
  · obtain ⟨q, m', ws, hrun, hws, hsorted, hperm⟩ := insertAll_sorts Ns (values_null (m := m₀)) .nil
    rw [List.append_nil] at hperm
    obtain ⟨m'', hrec⟩ := insertAll_insertRecursive Ns m₀
    have hlist : Lists insert Ns m₀ ws := ⟨q, m', hrun, hws⟩
    have hempty : Lists insertRecursive Ns m₀ [] := ⟨none, m'', hrec, values_null⟩
    refine ⟨⟨ws, hsorted, hperm, hlist⟩, hempty, ?_, ?_⟩
    · rintro ⟨us, -, husperm, -, q', m₃, hrec', l, hl, rfl⟩
      obtain ⟨rfl, rfl⟩ := Prod.mk.inj (Option.some.inj (hrec.symm.trans hrec'))
      obtain rfl := (nodes_nil.mpr rfl).unique hl
      exact List.nil_perm.mp husperm
    · rintro rfl
      obtain rfl := List.perm_nil.mp hperm
      exact ⟨[], hsorted, hperm, hlist, hempty⟩

/-- Into the empty list, and values in any order. -/
theorem insertions_never_agree_three :
    (¬ ∃ ws, Placed 7 [] ws ∧ Returns insert 7 none .empty ws ∧ Returns insertRecursive 7 none .empty ws) ∧
    ∃ ws, ws.Pairwise (· ≤ ·) ∧ ws.Perm [7, 5, 7] ∧ Lists insert [7, 5, 7] .empty ws := by
  have hagree := insertions_never_agree (m := .empty) values_null .nil 7 .empty [7, 5, 7]
  exact ⟨hagree.1.2.2, hagree.2.1⟩

/-- One value into the empty list. -/
theorem insertRecursive_loses : (∃ m', insertRecursive 7 none .empty = some (none, m')) ∧
    ¬ ∃ ws, Placed 7 [] ws ∧ Returns insertRecursive 7 none .empty ws := by
  refine ⟨⟨_, rfl⟩, ?_⟩
  rintro ⟨ws, hplaced, hrec⟩
  obtain rfl := (insertRecursive_returns values_null 7).unique hrec
  exact absurd hplaced.perm.length_eq (Nat.ne_of_lt (Nat.lt_succ_self 0))

end UnionCollegeCode.Bootcamp
