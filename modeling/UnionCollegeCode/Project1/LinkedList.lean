import UnionCollegeCode.OS161.ConcurrentList.Representation

/-!
# `concurrent_list/linked_list.c` of the first project

The structures are those of the later version of the file. `linked_list_postpend` leaves `prev` of its
node `NULL`, so `linked_list_remove_head` frees `NULL` where it means to free the old head.

The two functions the shared buffer uses are described here by what they do to the items.
-/

set_option autoImplicit false

namespace UnionCollegeCode.Project1

open Function (update)
open Lib.LinkedChain
open OS161.ConcurrentList (LinkedList Node Data Ptr ListStop Represents ok_bind deref_ok setNext_ok
  setPrev_ok)

def assert (p : Prop) [Decidable p] (expr : String) : Except ListStop Unit :=
  if p then .ok () else .error (.kassert expr)

def linkedListCreateNode (s : LinkedList) (ok : Bool) (key : ℤ) (data : Data) :
    Except ListStop (Ptr × LinkedList) := do
  assert (data ≠ none) "data != NULL"
  OS161.ConcurrentList.linkedListCreateNode s ok key data

def linkedListPrepend (s : LinkedList) (ok : Bool) (data : Data) : Except ListStop LinkedList := do
  assert (data ≠ none) "data != NULL"
  match s.first with
  | none =>
    let (newnode, s) ← linkedListCreateNode s ok 0 data
    return { s with first := some newnode, last := some newnode, length := s.length + 1 }
  | some f =>
    let n ← s.deref f
    let (newnode, s) ← linkedListCreateNode s ok (n.key - 1) data
    let s ← s.setNext newnode s.first
    let s ← s.setPrev f (some newnode)
    return { s with first := some newnode, length := s.length + 1 }

/-- The loop from `runner` on is that of the later version. -/
def linkedListInsert (s : LinkedList) (ok : Bool) (key : ℤ) (data : Data) :
    Except ListStop LinkedList := do
  assert (data ≠ none) "data != NULL"
  match s.first with
  | none =>
    let (newnode, s) ← linkedListCreateNode s ok key data
    return { s with first := some newnode, last := some newnode, length := s.length + 1 }
  | some f =>
    let n ← s.deref f
    if key < n.key then
      let (newnode, s) ← linkedListCreateNode s ok key data
      let s ← s.setNext newnode (some f)
      let s ← s.setPrev f (some newnode)
      return { s with first := some newnode, length := s.length + 1 }
    else
      let runner ← OS161.ConcurrentList.runnerFrom s key s.brk f
      let r ← s.deref runner
      match r.next with
      | none =>
        let (newnode, s) ← linkedListCreateNode s ok key data
        let s ← s.setPrev newnode (some runner)
        let s ← s.setNext runner (some newnode)
        return { s with last := some newnode, length := s.length + 1 }
      | some q =>
        let m ← s.deref q
        if m.key ≠ key then
          let (newnode, s) ← linkedListCreateNode s ok key data
          let s ← s.setNext newnode (some q)
          let s ← s.setPrev newnode (some runner)
          let s ← s.setNext runner (some newnode)
          let s ← s.setPrev q (some newnode)
          return { s with length := s.length + 1 }
        else
          return s

/-- The loop of `linked_list_postpend` from `runner` on, cut after so many rounds. -/
def lastFrom (s : LinkedList) : ℕ → Ptr → Except ListStop Ptr
  | 0, _ => .error .loops
  | n + 1, runner => do
    let r ← s.deref runner
    match r.next with
    | none => return runner
    | some q => lastFrom s n q

def linkedListPostpend (s : LinkedList) (ok : Bool) (data : Data) : Except ListStop LinkedList := do
  assert (data ≠ none) "data != NULL"
  match s.first with
  | none =>
    let (newnode, s) ← linkedListCreateNode s ok 0 data
    return { s with first := some newnode, last := some newnode, length := s.length + 1 }
  | some f =>
    -- A list has no more nodes than were ever allocated.
    let runner ← lastFrom s s.brk f
    let r ← s.deref runner
    let (newnode, s) ← linkedListCreateNode s ok (r.key + 1) data
    let s ← s.setNext runner (some newnode)
    return { s with last := some newnode, length := s.length + 1 }

/-- `kfree`. -/
def free (s : LinkedList) (p : Option Ptr) : LinkedList :=
  match p with
  | none => s
  | some p => s.setNode p none

/-- What `list->first` points to. -/
def derefFirst (s : LinkedList) : Except ListStop (Ptr × Node) := do
  match s.first with
  | none => .error .fault
  | some p =>
    let n ← s.deref p
    return (p, n)

/-- `key` is `NULL` when the caller's `kmalloc` found no memory. -/
def linkedListRemoveHead (s : LinkedList) (key : Bool) : Except ListStop (Data × LinkedList) := do
  assert (key = true) "key != NULL"
  if s.length = 0 then
    return (none, s)
  else if s.length = 1 then
    let (_, n) ← derefFirst s
    return (n.data, { s with first := none, last := none, length := 0 })
  else
    let (_, n) ← derefFirst s
    let s := { s with first := n.next }
    let (f, m) ← derefFirst s
    let s := free s m.prev
    let s ← s.setPrev f none
    return (n.data, { s with length := s.length - 1 })

/-! ## What the functions do to the items -/

/-- The nodes of a list made by `linked_list_postpend`: nothing points back. -/
def layout : Layout Node Data where
  back := fun _ n => n.prev = none
  next := Node.next
  val := Node.data

abbrev Item := Ptr × Data

variable {s : LinkedList} {l : List Item} {p : Ptr} {n : Node}

theorem assert_pos {q : Prop} [Decidable q] {expr : String} (h : q) : assert q expr = .ok () :=
  if_pos h

section Runner

variable {α : Type} {L : Layout Node α} {l : List (Ptr × α)} {r : Ptr × α}

/-- The runner stops at the last node, and has rounds enough for it. -/
theorem lastFrom_spec (hL : ∀ n, L.next n = n.next) : ∀ {pre : List (Ptr × α)}
    {prev first last : Option Ptr} {rounds : ℕ},
    Segment L s.nodes prev first (pre ++ [r]) none last → pre.length < rounds →
      ∀ f, first = some f → lastFrom s rounds f = .ok r.1 := by
  intro pre
  induction pre with
  | nil =>
    intro prev first last rounds h hrounds f hf
    obtain ⟨hfirst, n, hn, -, -, hnext, -⟩ := h
    cases hf.symm.trans hfirst
    rw [hL] at hnext
    cases rounds with
    | zero => cases hrounds
    | succ rounds =>
      simp only [lastFrom, deref_ok hn, ok_bind, hnext]
      rfl
  | cons e pre ih =>
    intro prev first last rounds h hrounds f hf
    obtain ⟨hfirst, n, hn, -, -, h⟩ := h
    cases hf.symm.trans hfirst
    rw [hL] at h
    cases rounds with
    | zero => cases hrounds
    | succ rounds =>
      have hrest := ih h (Nat.lt_of_succ_lt_succ hrounds)
      cases hnext : n.next with
      | none =>
        have hnil := h.first_eq_none.mp hnext
        simp at hnil
      | some q =>
        simp only [lastFrom, deref_ok hn, ok_bind, hnext]
        exact hrest q hnext

/-- Where `linked_list_postpend` stops. -/
theorem postpend_runner (hL : ∀ n, L.next n = n.next) {pre : List (Ptr × α)}
    (h : Represents L s (pre ++ [r])) :
    ∃ f n, s.first = some f ∧ lastFrom s s.brk f = .ok r.1 ∧ s.nodes r.1 = some n ∧ r.1 ≠ s.brk := by
  obtain ⟨_, m, -, -, n, hn, -⟩ := segment_append.mp h.linked
  have hlength := h.length_le
  rw [List.length_append, List.length_singleton] at hlength
  cases hfirst : s.first with
  | none =>
    have hnil := h.linked.first_eq_none.mp hfirst
    simp at hnil
  | some f =>
    exact ⟨f, n, rfl, lastFrom_spec hL h.linked hlength f hfirst, hn,
      fun hp => h.brk_not_mem (by simp [← hp])⟩

end Runner

theorem linkedListCreateNode_ok (key : ℤ) (item : ℕ) :
    linkedListCreateNode s true key (some item) =
      .ok (s.brk, { s.setNode s.brk (some ⟨none, none, key, some item⟩) with brk := s.brk + 1 }) := rfl

/-- The new node after the last one, which nothing points back to. -/
theorem snoc {pre : List Item} {r : Item} (h : Represents layout s (pre ++ [r]))
    (hn : s.nodes r.1 = some n) (key : ℤ) (data : Data) :
    Represents layout ⟨update (update s.nodes s.brk (some ⟨none, none, key, data⟩)) r.1
        (some { n with next := some s.brk }), s.first, some s.brk, s.length + 1, s.brk + 1⟩
      (pre ++ [r] ++ [(s.brk, data)]) := by
  apply h.grow (a := data) (List.perm_append_singleton _ _) _ rfl rfl
  obtain ⟨f, m, hpre, hf, n', hn', hval, hback, -⟩ := segment_append.mp h.linked
  cases hn.symm.trans hn'
  have hbrk := h.brk_not_mem
  have hnodup := h.nodup
  simp only [List.map_append, List.map_cons, List.map_nil, List.mem_append, List.mem_singleton,
    not_or] at hbrk hnodup
  have hr : r.1 ∉ pre.map Prod.fst := fun hr =>
    (List.nodup_append.mp hnodup).2.2 _ hr _ List.mem_cons_self rfl
  rw [List.append_assoc]
  refine segment_append.mpr ⟨f, m, (hpre.update hbrk.1).update hr, hf, _,
    Function.update_self .., hval, hback, rfl, ⟨none, none, key, data⟩, ?_, rfl, rfl, rfl, rfl⟩
  show update (update s.nodes s.brk _) r.1 _ s.brk = _
  rw [Function.update_of_ne hbrk.2, Function.update_self]

theorem single (h : Represents layout s []) (key : ℤ) (data : Data) :
    Represents layout ⟨update s.nodes s.brk (some ⟨none, none, key, data⟩), some s.brk, some s.brk,
      s.length + 1, s.brk + 1⟩ [(s.brk, data)] :=
  h.grow (.refl _) ⟨rfl, _, Function.update_self .., rfl, rfl, rfl, rfl⟩ rfl rfl

theorem postpend_nil (hfirst : s.first = none) (item : ℕ) : linkedListPostpend s true (some item) =
    .ok ⟨update s.nodes s.brk (some ⟨none, none, 0, some item⟩), some s.brk, some s.brk, s.length + 1,
      s.brk + 1⟩ := by
  simp only [linkedListPostpend, assert_pos (Option.some_ne_none item), ok_bind, hfirst,
    linkedListCreateNode_ok]
  rfl

theorem postpend_append {f r : Ptr} (hfirst : s.first = some f) (hrun : lastFrom s s.brk f = .ok r)
    (hn : s.nodes r = some n) (hne : r ≠ s.brk) (item : ℕ) :
    linkedListPostpend s true (some item) =
      .ok ⟨update (update s.nodes s.brk (some ⟨none, none, n.key + 1, some item⟩)) r
        (some { n with next := some s.brk }), s.first, some s.brk, s.length + 1, s.brk + 1⟩ := by
  simp [linkedListPostpend, assert_pos, hfirst, hrun, ok_bind, linkedListCreateNode_ok,
    LinkedList.setNext, LinkedList.setNode, LinkedList.deref, hn, hne, pure, Except.pure]

/-- `linked_list_postpend` puts its item after all the others. -/
theorem postpend_spec (h : Represents layout s l) (item : ℕ) :
    ∃ s', linkedListPostpend s true (some item) = .ok s' ∧
      Represents layout s' (l ++ [(s.brk, some item)]) := by
  rcases List.eq_nil_or_concat l with rfl | ⟨pre, r, rfl⟩
  · exact ⟨_, postpend_nil h.linked.1 item, single h 0 (some item)⟩
  · rw [List.concat_eq_append] at h ⊢
    obtain ⟨f, n, hfirst, hrun, hn, hne⟩ := postpend_runner (fun _ => rfl) h
    exact ⟨_, postpend_append hfirst hrun hn hne item, snoc h hn (n.key + 1) (some item)⟩

theorem postpend_noMemory {α : Type} {L : Layout Node α} {l : List (Ptr × α)}
    (hL : ∀ n, L.next n = n.next) (h : Represents L s l) (item : ℕ) :
    linkedListPostpend s false (some item) = .error .fault := by
  rcases List.eq_nil_or_concat l with rfl | ⟨pre, r, rfl⟩
  · have hfirst : s.first = none := h.linked.1
    simp only [linkedListPostpend, assert_pos (Option.some_ne_none item), ok_bind, hfirst]
    rfl
  · rw [List.concat_eq_append] at h
    obtain ⟨f, n, hfirst, hrun, hn, -⟩ := postpend_runner hL h
    simp only [linkedListPostpend, assert_pos (Option.some_ne_none item), ok_bind, hfirst, hrun,
      deref_ok hn]
    rfl

/-- `linked_list_remove_head` takes the first item, though its node is never freed. -/
theorem removeHead_spec {e : Item} (h : Represents layout s (e :: l)) :
    ∃ s', linkedListRemoveHead s true = .ok (e.2, s') ∧ Represents layout s' l := by
  obtain ⟨hfirst, n, hn, hval, -, hl⟩ := h.linked
  replace hval : n.data = e.2 := hval
  obtain ⟨he, hnodup⟩ := List.nodup_cons.mp h.nodup
  have hlength : s.length = l.length + 1 := h.length
  have hfresh : ∀ p ∈ l.map Prod.fst, p < s.brk := fun p hp =>
    h.fresh p (List.mem_cons_of_mem _ hp)
  have hpos : s.length ≠ 0 := by omega
  cases l with
  | nil =>
    have hone : s.length = 1 := hlength
    refine ⟨{ s with first := none, last := none, length := 0 }, ?_, ⟨rfl, rfl⟩, rfl, hnodup, hfresh⟩
    simp [linkedListRemoveHead, assert_pos, ok_bind, hone, derefFirst, hfirst, deref_ok hn, hval,
      pure, Except.pure]
  | cons f l =>
    obtain ⟨hnext, m, hm, hmval, hback, hl⟩ := hl
    replace hnext : n.next = some f.1 := hnext
    replace hback : m.prev = none := hback
    have hmany : s.length ≠ 1 := by
      rw [List.length_cons] at hlength
      omega
    refine ⟨⟨update s.nodes f.1 (some { m with prev := none }), some f.1, s.last, s.length - 1,
      s.brk⟩, ?_, ⟨rfl, _, Function.update_self .., hmval, rfl,
        hl.update (List.nodup_cons.mp hnodup).1⟩, ?_, hnodup, hfresh⟩
    · simp [linkedListRemoveHead, assert_pos, ok_bind, hpos, hmany, derefFirst, hfirst, hnext, free,
        hback, LinkedList.deref, hn, hm, LinkedList.setPrev, LinkedList.setNode, hval, pure,
        Except.pure]
    · show s.length - 1 = _
      rw [hlength]
      exact Int.add_sub_cancel _ _

end UnionCollegeCode.Project1
