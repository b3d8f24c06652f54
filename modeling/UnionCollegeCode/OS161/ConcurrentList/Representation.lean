import Mathlib.Data.List.Perm.Subperm
import UnionCollegeCode.Lib.LinkedChain
import UnionCollegeCode.OS161.ConcurrentList.LinkedList

/-!
# What the list functions do to the list they represent

`Represents L s l`: the nodes of `s` form a chain of layout `L`, from `first` to `last`, with the
addresses and values of `l`. Each function is described by what it does to `l`.
-/

set_option autoImplicit false

namespace UnionCollegeCode.OS161.ConcurrentList

open Function (update)
open Lib.LinkedChain

/-- A node points back to the one before it. -/
def layout : Layout Node (ℤ × Data) where
  back := fun prev n => n.prev = prev
  next := Node.next
  val := fun n => (n.key, n.data)

/-- Address, key and data of a node. -/
abbrev Entry := Ptr × ℤ × Data

/-- Nodes by key and data, whatever a node knows of the one before it. -/
def keyed (back : Option Ptr → Node → Prop) : Layout Node (ℤ × Data) where
  back := back
  next := Node.next
  val := fun n => (n.key, n.data)

/-- What a node knows of the one before it is kept or set by the writes of a list function. -/
structure Linkable (back : Option Ptr → Node → Prop) : Prop where
  next : ∀ (m : Option Ptr) (n : Node) (q : Option Ptr), back m n → back m { n with next := q }
  prev : ∀ (m : Option Ptr) (n : Node), back m { n with prev := m }

theorem linkable_layout : Linkable layout.back := ⟨fun _ _ _ h => h, fun _ _ => rfl⟩

structure Represents {α : Type} (L : Layout Node α) (s : LinkedList) (l : List (Ptr × α)) :
    Prop where
  linked : Segment L s.nodes none s.first l none s.last
  length : s.length = l.length
  nodup : (l.map Prod.fst).Nodup
  fresh : ∀ p ∈ l.map Prod.fst, p < s.brk

variable {s : LinkedList} {l : List Entry} {p q : Ptr} {n : Node}

theorem ok_bind {α β : Type} (a : α) (f : α → Except ListStop β) : (Except.ok a >>= f) = f a := rfl

theorem deref_ok (h : s.nodes p = some n) : s.deref p = .ok n := by
  simp [LinkedList.deref, h]

theorem setNext_ok {dst : Option Ptr} (h : s.nodes p = some n) :
    s.setNext p dst = .ok (s.setNode p (some { n with next := dst })) := by
  simp only [LinkedList.setNext, deref_ok h, ok_bind]
  rfl

theorem setPrev_ok {dst : Option Ptr} (h : s.nodes p = some n) :
    s.setPrev p dst = .ok (s.setNode p (some { n with prev := dst })) := by
  simp only [LinkedList.setPrev, deref_ok h, ok_bind]
  rfl

section Generic

variable {α : Type} {L : Layout Node α} {s : LinkedList} {l : List (Ptr × α)}

theorem represents_create : Represents L linkedListCreate [] where
  linked := ⟨rfl, rfl⟩
  length := rfl
  nodup := List.nodup_nil
  fresh := fun _ h => by cases h

theorem Represents.brk_not_mem (h : Represents L s l) : s.brk ∉ l.map Prod.fst :=
  fun hp => Nat.lt_irrefl _ (h.fresh _ hp)

/-- A node more: what is left to show is how the nodes are linked. -/
theorem Represents.grow {s' : LinkedList} {l' : List (Ptr × α)} {a : α} (h : Represents L s l)
    (hperm : l'.Perm ((s.brk, a) :: l)) (hlinked : Segment L s'.nodes none s'.first l' none s'.last)
    (hlength : s'.length = s.length + 1) (hbrk : s'.brk = s.brk + 1) : Represents L s' l' where
  linked := hlinked
  length := by
    rw [hlength, h.length, hperm.length_eq]
    simp
  nodup := by
    rw [(hperm.map Prod.fst).nodup_iff]
    exact List.nodup_cons.mpr ⟨h.brk_not_mem, h.nodup⟩
  fresh := fun q hq => by
    rw [hbrk]
    rcases List.mem_cons.mp ((hperm.map Prod.fst).mem_iff.mp hq) with rfl | hq
    · exact Nat.lt_succ_self _
    · exact Nat.lt_succ_of_lt (h.fresh q hq)

/-- Allocating a node leaves the list where it is. -/
theorem Represents.allocated (h : Represents L s l) (n : Option Node) :
    Segment L (update s.nodes s.brk n) none s.first l none s.last :=
  h.linked.update h.brk_not_mem

theorem Represents.length_le (h : Represents L s l) : l.length ≤ s.brk := by
  have hsub : l.map Prod.fst ⊆ List.range s.brk := fun p hp => List.mem_range.mpr (h.fresh p hp)
  have := (List.subperm_of_subset h.nodup hsub).length_le
  simpa using this

end Generic

/-! ## A node more -/

section Linkable

variable {back : Option Ptr → Node → Prop} (hb : Linkable back)
include hb

/-- The new node before the old first one. -/
theorem Represents.cons {e : Entry} (h : Represents (keyed back) s (e :: l))
    (hn : s.nodes e.1 = some n) (key : ℤ) (data : Data) :
    Represents (keyed back) ⟨update (update s.nodes s.brk (some ⟨none, some e.1, key, data⟩)) e.1
        (some { n with prev := some s.brk }), some s.brk, s.last, s.length + 1, s.brk + 1⟩
      ((s.brk, key, data) :: e :: l) := by
  apply h.grow (.refl _) _ rfl rfl
  obtain ⟨-, n', hn', hval, hback, hl⟩ := h.linked
  cases hn.symm.trans hn'
  have hbrk := h.brk_not_mem
  have he := (List.nodup_cons.mp h.nodup).1
  simp only [List.map_cons, List.mem_cons, not_or] at hbrk he
  refine ⟨rfl, ⟨none, some e.1, key, data⟩, ?_, rfl, hb.prev none ⟨none, some e.1, key, data⟩, ?_⟩
  · show update (update s.nodes s.brk _) e.1 _ s.brk = _
    rw [Function.update_of_ne hbrk.1, Function.update_self]
  · exact ⟨rfl, _, Function.update_self .., hval, hb.prev _ n, (hl.update hbrk.2).update he⟩

/-- The first node of an empty list. -/
theorem Represents.single (h : Represents (keyed back) s []) (key : ℤ) (data : Data) :
    Represents (keyed back) ⟨update s.nodes s.brk (some ⟨none, none, key, data⟩), some s.brk,
      some s.brk, s.length + 1, s.brk + 1⟩ [(s.brk, key, data)] :=
  h.grow (.refl _) ⟨rfl, _, Function.update_self .., rfl, hb.prev none ⟨none, none, key, data⟩, rfl,
    rfl⟩ rfl rfl

/-- The new node after the last one. -/
theorem Represents.snoc {pre : List Entry} {r : Entry} (h : Represents (keyed back) s (pre ++ [r]))
    (hn : s.nodes r.1 = some n) (key : ℤ) (data : Data) :
    Represents (keyed back) ⟨update (update s.nodes s.brk (some ⟨some r.1, none, key, data⟩)) r.1
        (some { n with next := some s.brk }), s.first, some s.brk, s.length + 1, s.brk + 1⟩
      (pre ++ [r, (s.brk, key, data)]) := by
  apply h.grow (a := (key, data)) _ _ rfl rfl
  · rw [← List.singleton_append, ← List.append_assoc]
    exact List.perm_append_singleton _ _
  obtain ⟨f, m, hpre, hf, n', hn', hval, hback, -⟩ := segment_append.mp h.linked
  cases hn.symm.trans hn'
  have hbrk := h.brk_not_mem
  have hnodup := h.nodup
  simp only [List.map_append, List.map_cons, List.map_nil, List.mem_append, List.mem_singleton,
    not_or] at hbrk hnodup
  have hr : r.1 ∉ pre.map Prod.fst := fun hr =>
    (List.nodup_append.mp hnodup).2.2 _ hr _ List.mem_cons_self rfl
  refine segment_append.mpr ⟨f, m, (hpre.update hbrk.1).update hr, hf, _,
    Function.update_self .., hval, hb.next m n _ hback, rfl, ⟨some r.1, none, key, data⟩, ?_, rfl,
    hb.prev _ ⟨some r.1, none, key, data⟩, rfl, rfl⟩
  show update (update s.nodes s.brk _) r.1 _ s.brk = _
  rw [Function.update_of_ne hbrk.2, Function.update_self]

/-- The new node between two. -/
theorem Represents.between {pre rest : List Entry} {r q : Entry} {m : Node}
    (h : Represents (keyed back) s (pre ++ r :: q :: rest)) (hn : s.nodes r.1 = some n)
    (hm : s.nodes q.1 = some m) (key : ℤ) (data : Data) :
    Represents (keyed back) ⟨update (update (update s.nodes s.brk (some ⟨some r.1, some q.1, key, data⟩)) q.1
        (some { m with prev := some s.brk })) r.1 (some { n with next := some s.brk }),
        s.first, s.last, s.length + 1, s.brk + 1⟩
      (pre ++ r :: (s.brk, key, data) :: q :: rest) := by
  apply h.grow (a := (key, data)) _ _ rfl rfl
  · have := @List.perm_middle _ (s.brk, key, data) (pre ++ [r]) (q :: rest)
    simpa using this
  obtain ⟨f, b, hpre, hf, n', hn', hval, hback, h'⟩ := segment_append.mp h.linked
  cases hn.symm.trans hn'
  obtain ⟨-, m', hm', hval', -, hrest⟩ := h'
  cases hm.symm.trans hm'
  have hbrk := h.brk_not_mem
  have hnodup := h.nodup
  simp only [List.map_append, List.map_cons, List.mem_append, List.mem_cons, not_or,
    List.nodup_append, List.nodup_cons] at hbrk hnodup
  obtain ⟨hbpre, hbr, hbq, hbrest⟩ := hbrk
  obtain ⟨-, ⟨⟨hrq, hrrest⟩, hqrest, -⟩, hdisj⟩ := hnodup
  have hrpre : r.1 ∉ pre.map Prod.fst := fun hr => hdisj _ hr _ (Or.inl rfl) rfl
  have hqpre : q.1 ∉ pre.map Prod.fst := fun hq => hdisj _ hq _ (Or.inr (Or.inl rfl)) rfl
  refine segment_append.mpr ⟨f, b, ((hpre.update hbpre).update hqpre).update hrpre, hf, _,
    Function.update_self .., hval, hb.next b n _ hback, rfl, ⟨some r.1, some q.1, key, data⟩, ?_, rfl,
    hb.prev _ ⟨some r.1, some q.1, key, data⟩, rfl, { m with prev := some s.brk }, ?_, hval',
    hb.prev _ m, ((hrest.update hbrest).update hqrest).update hrrest⟩
  · show update (update (update s.nodes s.brk _) q.1 _) r.1 _ s.brk = _
    rw [Function.update_of_ne hbr, Function.update_of_ne hbq, Function.update_self]
  · show update (update (update s.nodes s.brk _) q.1 _) r.1 _ q.1 = _
    rw [Function.update_of_ne (Ne.symm hrq), Function.update_self]

end Linkable

/-! ## `linked_list_prepend` -/

/-- The key that `linked_list_prepend` gives its node. -/
def prependKey : List Entry → ℤ
  | [] => 0
  | e :: _ => e.2.1 - 1

theorem Represents.prepend (h : Represents layout s l) (data : Data) :
    ∃ s', linkedListPrepend s true data = .ok s' ∧
      Represents layout s' ((s.brk, prependKey l, data) :: l) := by
  cases l with
  | nil =>
    refine ⟨_, ?_, h.single linkable_layout 0 data⟩
    have hfirst : s.first = none := h.linked.1
    simp only [linkedListPrepend, hfirst, linkedListCreateNode, if_true, ok_bind]
    rfl
  | cons e l =>
    obtain ⟨hfirst, n, hn, hval, -⟩ := h.linked
    have hkey : n.key = e.2.1 := congrArg Prod.fst hval
    have hne : e.1 ≠ s.brk := fun hp => h.brk_not_mem (hp ▸ List.mem_cons_self)
    refine ⟨_, ?_, h.cons linkable_layout hn (e.2.1 - 1) data⟩
    simp [linkedListPrepend, hfirst, linkedListCreateNode, LinkedList.setNext, LinkedList.setPrev,
      LinkedList.setNode, LinkedList.deref, hn, hkey, hne, ok_bind, pure, Except.pure]

/-! ## `linked_list_insert` -/

/-- Whether the runner goes past a node. -/
def passes (key : ℤ) (e : Entry) : Bool := e.2.1 < key

/-- A new entry before the first one, if that has a larger key, else after the first one and all
those that follow it with a smaller key. -/
def insertEntry (e : Entry) : List Entry → List Entry
  | [] => [e]
  | f :: l =>
    if f.2.1 > e.2.1 then e :: f :: l
    else f :: l.takeWhile (passes e.2.1) ++ e :: l.dropWhile (passes e.2.1)

/-- The runner stops at the last node that it may go past, and has rounds enough for it. -/
theorem runnerFrom_spec {back : Option Ptr → Node → Prop} {key : ℤ} :
    ∀ {l : List Entry} {e : Entry} {rounds : ℕ} {prev last : Option Ptr},
      Segment (keyed back) s.nodes prev (some e.1) (e :: l) none last →
      l.length < rounds → ∃ pre r, e :: l.takeWhile (passes key) = pre ++ [r] ∧
        runnerFrom s key rounds e.1 = .ok r.1 := by
  intro l
  -- The runner is at the node before the list it has still to look at.
  induction l with
  | nil =>
    intro e rounds prev last h hrounds
    obtain ⟨-, n, hn, -, -, hnext, -⟩ := h
    replace hnext : n.next = none := hnext
    cases rounds with
    | zero => cases hrounds
    | succ rounds =>
      refine ⟨[], e, rfl, ?_⟩
      simp only [runnerFrom, deref_ok hn, ok_bind, hnext]
      rfl
  | cons f l ih =>
    intro e rounds prev last h hrounds
    obtain ⟨-, n, hn, -, -, h⟩ := h
    have h' := h
    obtain ⟨hnext, m, hm, hval, -⟩ := h'
    replace hnext : n.next = some f.1 := hnext
    have hkey : m.key = f.2.1 := congrArg Prod.fst hval
    cases rounds with
    | zero => cases hrounds
    | succ rounds =>
      simp only [runnerFrom, deref_ok hn, deref_ok hm, ok_bind, hnext, hkey]
      by_cases hpass : f.2.1 < key
      · rw [show (keyed back).next n = some f.1 from hnext] at h
        obtain ⟨pre, r, hr, hrun⟩ := ih h (Nat.lt_of_succ_lt_succ hrounds)
        refine ⟨e :: pre, r, ?_, ?_⟩
        · rw [List.takeWhile_cons_of_pos (by simpa [passes] using hpass), hr]
          rfl
        · rw [if_pos hpass, hrun]
      · refine ⟨[], e, ?_, ?_⟩
        · rw [List.takeWhile_cons_of_neg (by simpa [passes] using hpass)]
          rfl
        · rw [if_neg hpass]
          rfl

/-- The runner walks the list when the new node is already allocated. -/
theorem Represents.runner {e : Entry} (h : Represents layout s (e :: l)) (key : ℤ) (n : Option Node) :
    ∃ pre r, e :: l.takeWhile (passes key) = pre ++ [r] ∧
      runnerFrom ⟨update s.nodes s.brk n, some e.1, s.last, s.length, s.brk + 1⟩ key (s.brk + 1) e.1
        = .ok r.1 := by
  have halloc := h.allocated n
  rw [show s.first = some e.1 from h.linked.1] at halloc
  exact runnerFrom_spec halloc (Nat.lt_succ_of_lt h.length_le)

theorem Represents.insert (h : Represents layout s l) (key : ℤ) (data : Data) :
    ∃ s', linkedListInsert s true key data = .ok s' ∧
      Represents layout s' (insertEntry (s.brk, key, data) l) := by
  cases l with
  | nil =>
    refine ⟨_, ?_, h.single linkable_layout key data⟩
    have hfirst : s.first = none := h.linked.1
    simp only [linkedListInsert, hfirst, linkedListCreateNode, if_true, ok_bind]
    rfl
  | cons e l =>
    obtain ⟨hfirst, n, hn, hval, -⟩ := h.linked
    have hkey : n.key = e.2.1 := congrArg Prod.fst hval
    have hne : e.1 ≠ s.brk := fun hp => h.brk_not_mem (hp ▸ List.mem_cons_self)
    -- Ahead of the first node, at the end, or between two: one branch of the source each.
    by_cases hlt : e.2.1 > key
    · rw [insertEntry, if_pos hlt]
      refine ⟨_, ?_, h.cons linkable_layout hn key data⟩
      simp [linkedListInsert, hfirst, linkedListCreateNode, LinkedList.setNext, LinkedList.setPrev,
        LinkedList.setNode, LinkedList.deref, hn, hkey, hne, hlt, ok_bind, pure, Except.pure]
    · rw [insertEntry, if_neg hlt]
      obtain ⟨pre, r, hr, hrun⟩ := h.runner key (some ⟨none, none, key, data⟩)
      have hsplit : e :: l = pre ++ r :: l.dropWhile (passes key) := by
        rw [← List.singleton_append (l := l.dropWhile _), ← List.append_assoc, ← hr,
          List.cons_append, List.takeWhile_append_dropWhile]
      rw [hr, List.append_assoc, List.singleton_append]
      rw [hsplit] at h
      obtain ⟨f, b, hpre, hf, m, hm, -, -, hrest⟩ := segment_append.mp h.linked
      have hrne : r.1 ≠ s.brk := fun hp => h.brk_not_mem (by simp [← hp])
      cases hdrop : l.dropWhile (passes key) with
      | nil =>
        rw [hdrop] at h hrest
        have hnext : m.next = none := hrest.1
        refine ⟨_, ?_, h.snoc linkable_layout hm key data⟩
        simp [linkedListInsert, hfirst, linkedListCreateNode, hrun, LinkedList.setNext,
          LinkedList.setPrev, LinkedList.setNode, LinkedList.deref, hn, hkey, hne, hlt, hm, hrne,
          hnext, ok_bind, pure, Except.pure]
      | cons q rest =>
        rw [hdrop] at h hrest
        obtain ⟨hnext, m', hm', -⟩ := hrest
        replace hnext : m.next = some q.1 := hnext
        have hqne : q.1 ≠ s.brk := fun hp => h.brk_not_mem (by simp [← hp])
        have hrq : r.1 ≠ q.1 := by
          have := h.nodup
          simp only [List.map_append, List.map_cons, List.nodup_append, List.nodup_cons,
            List.mem_cons, not_or] at this
          exact this.2.1.1.1
        refine ⟨_, ?_, h.between linkable_layout hm hm' key data⟩
        simp [linkedListInsert, hfirst, linkedListCreateNode, hrun, LinkedList.setNext,
          LinkedList.setPrev, LinkedList.setNode, LinkedList.deref, hn, hkey, hne, hlt, hm, hm',
          hrne, hqne, hrq, hnext, ok_bind, pure, Except.pure]

/-- Without memory for its node the kernel goes down. -/
theorem Represents.prepend_noMemory (h : Represents layout s l) (data : Data) :
    linkedListPrepend s false data = .error .fault := by
  cases l with
  | nil =>
    have hfirst : s.first = none := h.linked.1
    simp only [linkedListPrepend, hfirst, linkedListCreateNode]
    rfl
  | cons e l =>
    obtain ⟨hfirst, n, hn, -⟩ := h.linked
    simp only [linkedListPrepend, hfirst, deref_ok hn, linkedListCreateNode]
    rfl

theorem Represents.insert_noMemory (h : Represents layout s l) (key : ℤ) (data : Data) :
    linkedListInsert s false key data = .error .fault := by
  cases l with
  | nil =>
    have hfirst : s.first = none := h.linked.1
    simp only [linkedListInsert, hfirst, linkedListCreateNode]
    rfl
  | cons e l =>
    obtain ⟨hfirst, n, hn, -⟩ := h.linked
    simp only [linkedListInsert, hfirst, deref_ok hn, linkedListCreateNode, ok_bind]
    split <;> rfl

/-! ## `linked_list_remove_head` -/

theorem Represents.removeHead_nil (h : Represents layout s []) :
    linkedListRemoveHead s = .ok (none, s) := by
  have hfirst : s.first = none := h.linked.1
  simp only [linkedListRemoveHead, hfirst]
  rfl

theorem Represents.removeHead_cons {e : Entry} (h : Represents layout s (e :: l)) :
    ∃ s', linkedListRemoveHead s = .ok (some e.2, s') ∧ Represents layout s' l := by
  obtain ⟨hfirst, n, hn, hval, -, hl⟩ := h.linked
  replace hval : (n.key, n.data) = e.2 := hval
  obtain ⟨he, hnodup⟩ := List.nodup_cons.mp h.nodup
  have hlength : s.length - 1 = l.length := by
    rw [h.length]
    simp
  have hfresh : ∀ p ∈ l.map Prod.fst, p < s.brk := fun p hp =>
    h.fresh p (List.mem_cons_of_mem _ hp)
  cases l with
  | nil =>
    have hnext : n.next = none := hl.1
    refine ⟨⟨update (update s.nodes e.1 (some { n with next := none })) e.1 none, none, none,
      s.length - 1, s.brk⟩, ?_, ⟨rfl, rfl⟩, hlength, hnodup, hfresh⟩
    simp only [linkedListRemoveHead, hfirst, LinkedList.deref, hn, ok_bind, hnext, LinkedList.setNext,
      LinkedList.setNode, pure, Except.pure, Function.update_self, if_true, hval]
  | cons f l =>
    obtain ⟨hnext, m, hm, hmval, -, hl⟩ := hl
    replace hnext : n.next = some f.1 := hnext
    have hef : e.1 ≠ f.1 := fun heq => he (heq ▸ List.mem_cons_self)
    have hel : e.1 ∉ l.map Prod.fst := fun hel => he (List.mem_cons_of_mem _ hel)
    have hfl : f.1 ∉ l.map Prod.fst := (List.nodup_cons.mp hnodup).1
    refine ⟨⟨update (update (update s.nodes f.1 (some { m with prev := none })) e.1
      (some { n with next := none })) e.1 none, some f.1, s.last, s.length - 1, s.brk⟩, ?_,
      ⟨rfl, { m with prev := none }, ?_, hmval, rfl, ((hl.update hfl).update hel).update hel⟩,
      hlength, hnodup, hfresh⟩
    · simp [linkedListRemoveHead, hfirst, LinkedList.deref, hn, hm, ok_bind, hnext,
        LinkedList.setPrev, LinkedList.setNext, LinkedList.setNode, pure, Except.pure, hef, hval]
    · show update (update (update s.nodes f.1 _) e.1 _) e.1 none f.1 = _
      rw [Function.update_of_ne (Ne.symm hef), Function.update_of_ne (Ne.symm hef),
        Function.update_self]

/-! ## Order and contents -/

/-- The keys do not decrease. -/
def Sorted (l : List Entry) : Prop := l.Pairwise fun e f => e.2.1 ≤ f.2.1

theorem sorted_prepend (p : Ptr) (data : Data) (h : Sorted l) :
    Sorted ((p, prependKey l, data) :: l) := by
  refine List.pairwise_cons.mpr ⟨fun f hf => ?_, h⟩
  cases l with
  | nil => cases hf
  | cons e l =>
    show e.2.1 - 1 ≤ f.2.1
    have hef : e.2.1 ≤ f.2.1 := by
      rcases List.mem_cons.mp hf with rfl | hf
      · exact Int.le_refl _
      · exact (List.pairwise_cons.mp h).1 f hf
    omega

theorem insertEntry_perm (e : Entry) (l : List Entry) : (insertEntry e l).Perm (e :: l) := by
  cases l with
  | nil => exact .refl _
  | cons f l =>
    rw [insertEntry]
    split
    · exact .refl _
    · calc f :: l.takeWhile (passes e.2.1) ++ e :: l.dropWhile (passes e.2.1)
        _ |>.Perm (e :: (f :: l.takeWhile (passes e.2.1) ++ l.dropWhile (passes e.2.1))) :=
            List.perm_middle
        _ = e :: f :: l := by rw [List.cons_append, List.takeWhile_append_dropWhile]

theorem sorted_insertEntry (e : Entry) (h : Sorted l) : Sorted (insertEntry e l) := by
  cases l with
  | nil => exact List.pairwise_singleton _ _
  | cons f l =>
    obtain ⟨hf, hl⟩ := List.pairwise_cons.mp h
    have hsplit : l.takeWhile (passes e.2.1) ++ l.dropWhile (passes e.2.1) = l :=
      List.takeWhile_append_dropWhile
    rw [insertEntry]
    split
    · next hlt =>
      refine List.pairwise_cons.mpr ⟨fun g hg => ?_, h⟩
      rcases List.mem_cons.mp hg with rfl | hg
      · exact Int.le_of_lt hlt
      · exact Int.le_trans (Int.le_of_lt hlt) (hf g hg)
    · next hle =>
      have hbefore : ∀ g ∈ l.takeWhile (passes e.2.1), g.2.1 < e.2.1 := fun g hg => by
        have := List.all_eq_true.mp (List.all_takeWhile (p := passes e.2.1) (l := l)) g hg
        simpa [passes] using this
      -- In a sorted list the first key that is not smaller has only such keys after it.
      have hafter : ∀ g ∈ l.dropWhile (passes e.2.1), e.2.1 ≤ g.2.1 := by
        cases hdrop : l.dropWhile (passes e.2.1) with
        | nil => exact fun g hg => by cases hg
        | cons q rest =>
          have hq : e.2.1 ≤ q.2.1 := by
            have := List.head_dropWhile_not (passes e.2.1) (l := l) (by simp [hdrop])
            simpa [hdrop, passes] using this
          rw [hdrop] at hsplit
          have hrest := (List.pairwise_append.mp (hsplit ▸ hl)).2.1
          intro g hg
          rcases List.mem_cons.mp hg with rfl | hg
          · exact hq
          · exact Int.le_trans hq ((List.pairwise_cons.mp hrest).1 g hg)
      rw [← hsplit] at hf hl
      obtain ⟨htake, hdrop, hcross⟩ := List.pairwise_append.mp hl
      rw [List.cons_append]
      refine List.pairwise_cons.mpr ⟨fun g hg => ?_, List.pairwise_append.mpr
        ⟨htake, List.pairwise_cons.mpr ⟨hafter, hdrop⟩, fun g hg g' hg' => ?_⟩⟩
      · rcases List.mem_append.mp hg with hg | hg
        · exact hf g (List.mem_append_left _ hg)
        · rcases List.mem_cons.mp hg with rfl | hg
          · exact Int.not_lt.mp hle
          · exact hf g (List.mem_append_right _ hg)
      · rcases List.mem_cons.mp hg' with rfl | hg'
        · exact Int.le_of_lt (hbefore g hg)
        · exact hcross g hg g' hg'

end UnionCollegeCode.OS161.ConcurrentList
