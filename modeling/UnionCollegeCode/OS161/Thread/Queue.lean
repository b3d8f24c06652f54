import Mathlib.Data.List.Nodup
import UnionCollegeCode.OS161.Thread.ThreadList

/-!
# What the list functions do to the queue they represent

`Chain tl cells`: from the head to the tail, the nodes are linked both ways and are these cells.
`Queue tl head tail l`: what is between the bookends are the threads of `l`, and `tl_count` says so.
-/

set_option autoImplicit false

namespace UnionCollegeCode.OS161.Thread

open Function (update)
open Lib.LinkedChain

/-- A node points back to the one before it. -/
def layout : Layout ThreadListNode (Option Ptr × Int32) where
  back := fun prev n => n.tlnPrev = prev
  next := ThreadListNode.tlnNext
  val := fun n => (n.tlnSelf, n.priority)

/-- A node: its address, its thread and its priority. -/
abbrev Cell := Ptr × Option Ptr × Int32

structure Chain (tl : ThreadList) (cells : List Cell) : Prop where
  linked : Segment layout tl.nodes none (some tl.tlHead) cells none (some tl.tlTail)
  nodup : (cells.map Prod.fst).Nodup

variable {tl tl' : ThreadList} {pre post cells : List Cell} {p q r : Cell} {a : Ptr}
  {n : ThreadListNode}

theorem ok_bind {α β : Type} (a : α) (f : α → Except ListStop β) : (Except.ok a >>= f) = f a := rfl

theorem deref_ok (h : tl.nodes a = some n) : tl.deref (some a) = .ok (a, n) := by
  simp [ThreadList.deref, h]

theorem next_ok (h : tl.nodes a = some n) : tl.next (some a) = .ok n.tlnNext := by
  rw [ThreadList.next, deref_ok h]
  rfl

theorem prev_ok (h : tl.nodes a = some n) : tl.prev (some a) = .ok n.tlnPrev := by
  rw [ThreadList.prev, deref_ok h]
  rfl

theorem self_ok (h : tl.nodes a = some n) : tl.self (some a) = .ok n.tlnSelf := by
  rw [ThreadList.self, deref_ok h]
  rfl

theorem priority_ok (h : tl.nodes a = some n) : tl.priority (some a) = .ok n.priority := by
  rw [ThreadList.priority, deref_ok h]
  rfl

theorem write_ok {f : ThreadListNode → ThreadListNode} (h : tl.nodes a = some n) :
    tl.write (some a) f = .ok (tl.setNode a (f n)) := by
  rw [ThreadList.write, deref_ok h]
  rfl

theorem setNext_ok {dst : Option Ptr} (h : tl.nodes a = some n) :
    tl.setNext (some a) dst = .ok (tl.setNode a { n with tlnNext := dst }) := write_ok h

theorem setPrev_ok {dst : Option Ptr} (h : tl.nodes a = some n) :
    tl.setPrev (some a) dst = .ok (tl.setNode a { n with tlnPrev := dst }) := write_ok h

theorem setNode_self : (tl.setNode a n).nodes a = some n := Function.update_self ..

theorem setNode_of_ne {b : Ptr} (h : b ≠ a) : (tl.setNode a n).nodes b = tl.nodes b :=
  Function.update_of_ne h _ _

/-! ## The nodes of a chain -/

theorem Chain.node (h : Chain tl (pre ++ p :: post)) :
    ∃ n, tl.nodes p.1 = some n ∧ n.tlnSelf = p.2.1 ∧ n.priority = p.2.2 := by
  obtain ⟨f, m, -, -, n, hn, hval, -⟩ := segment_append.mp h.linked
  obtain ⟨hself, hpriority⟩ := Prod.ext_iff.mp hval
  exact ⟨n, hn, hself, hpriority⟩

theorem Chain.next_eq (h : Chain tl (pre ++ p :: q :: post)) : tl.next (some p.1) = .ok (some q.1) := by
  obtain ⟨f, m, -, -, n, hn, -, -, hq, -⟩ := segment_append.mp h.linked
  rw [next_ok hn]
  exact congrArg Except.ok hq

theorem Chain.prev_eq (h : Chain tl (pre ++ p :: q :: post)) : tl.prev (some q.1) = .ok (some p.1) := by
  obtain ⟨f, m, -, -, n, -, -, -, -, n', hn', -, hback, -⟩ := segment_append.mp h.linked
  rw [prev_ok hn']
  exact congrArg Except.ok hback

theorem Chain.next_last (h : Chain tl (pre ++ [p])) : tl.next (some p.1) = .ok none := by
  obtain ⟨f, m, -, -, n, hn, -, -, hnext, -⟩ := segment_append.mp h.linked
  rw [next_ok hn]
  exact congrArg Except.ok hnext

theorem Chain.self_eq (h : Chain tl (pre ++ p :: post)) : tl.self (some p.1) = .ok p.2.1 := by
  obtain ⟨n, hn, hself, -⟩ := h.node
  rw [self_ok hn, hself]

theorem Chain.priority_eq (h : Chain tl (pre ++ p :: post)) :
    tl.priority (some p.1) = .ok p.2.2 := by
  obtain ⟨n, hn, -, hpriority⟩ := h.node
  rw [priority_ok hn, hpriority]

/-! ## Removal and insertion -/

/-- A node that is in no list. -/
def unlinked (p : Cell) : ThreadListNode := ⟨none, none, p.2.1, p.2.2⟩

/-- Three neighbours in a chain, with their nodes. -/
theorem Chain.three (h : Chain tl (pre ++ q :: p :: r :: post)) :
    q.1 ≠ p.1 ∧ q.1 ≠ r.1 ∧ p.1 ≠ r.1 ∧ ∃ nq nr, tl.nodes q.1 = some nq ∧
      tl.nodes p.1 = some ⟨some q.1, some r.1, p.2.1, p.2.2⟩ ∧ tl.nodes r.1 = some nr := by
  have hnodup := h.nodup
  simp only [List.map_append, List.map_cons, List.nodup_append, List.nodup_cons, List.mem_cons,
    not_or] at hnodup
  obtain ⟨-, ⟨⟨hqp, hqr, -⟩, ⟨hpr, -⟩, -⟩, -⟩ := hnodup
  obtain ⟨f, m, -, -, nq, hnq, -, -, -, np, hnp, hval, hback, hnext, nr, hnr, -⟩ :=
    segment_append.mp h.linked
  obtain ⟨hself, hpriority⟩ := Prod.ext_iff.mp hval
  refine ⟨hqp, hqr, hpr, nq, nr, hnq, hnp.trans (congrArg some ?_), hnr⟩
  rw [← hself, ← hpriority, ← show np.tlnPrev = some q.1 from hback,
    ← show np.tlnNext = some r.1 from hnext]
  rfl

theorem perm_three : (pre ++ q :: p :: r :: post).Perm (p :: (pre ++ q :: r :: post)) := by
  have hperm : ((pre ++ [q]) ++ p :: (r :: post)).Perm (p :: ((pre ++ [q]) ++ (r :: post))) :=
    List.perm_middle
  simpa using hperm

/-- The node goes, and is left with no links. -/
theorem threadlistRemovenode_ok (h : Chain tl (pre ++ q :: p :: r :: post)) :
    ∃ tl', threadlistRemovenode tl (some p.1) = .ok tl' ∧ Chain tl' (pre ++ q :: r :: post) ∧
      tl'.nodes p.1 = some (unlinked p) ∧ tl'.tlCount = tl.tlCount := by
  obtain ⟨hqp, hqr, hpr, nq, nr, hnq, hnp, hnr⟩ := h.three
  let tl₁ := tl.setNode q.1 { nq with tlnNext := some r.1 }
  let tl₂ := tl₁.setNode r.1 { nr with tlnPrev := some q.1 }
  let tl₃ := tl₂.setNode p.1 ⟨none, some r.1, p.2.1, p.2.2⟩
  have hnr₁ : tl₁.nodes r.1 = some nr := (setNode_of_ne (Ne.symm hqr)).trans hnr
  have hnp₁ : tl₁.nodes p.1 = some ⟨some q.1, some r.1, p.2.1, p.2.2⟩ :=
    (setNode_of_ne (Ne.symm hqp)).trans hnp
  have hnp₂ : tl₂.nodes p.1 = some ⟨some q.1, some r.1, p.2.1, p.2.2⟩ :=
    (setNode_of_ne hpr).trans hnp₁
  have hnp₃ : tl₃.nodes p.1 = some ⟨none, some r.1, p.2.1, p.2.2⟩ := setNode_self
  have hbypassed : Segment layout tl₂.nodes none (some tl.tlHead) (pre ++ q :: r :: post) none
      (some tl.tlTail) :=
    h.linked.bypass h.nodup hnq hnr rfl (fun _ hback => hback) rfl rfl rfl rfl
  obtain ⟨hp, hnodup⟩ := List.nodup_cons.mp ((perm_three.map Prod.fst).nodup_iff.mp h.nodup)
  refine ⟨tl₃.setNode p.1 (unlinked p), ?_, ⟨(hbypassed.update hp).update hp, hnodup⟩,
    setNode_self, rfl⟩
  rw [threadlistRemovenode, prev_ok hnp, next_ok hnp, ok_bind, ok_bind, setNext_ok hnq, ok_bind]
  rw [next_ok hnp₁, prev_ok hnp₁, ok_bind, ok_bind, setPrev_ok hnr₁, ok_bind]
  rw [setPrev_ok hnp₂, ok_bind]
  exact setNext_ok hnp₃

/-- The node is linked ahead of `r`. -/
theorem threadlistInsertbeforenode_ok (h : Chain tl (pre ++ q :: r :: post))
    (hp : p.1 ∉ (pre ++ q :: r :: post).map Prod.fst) (hnp : tl.nodes p.1 = some (unlinked p)) :
    ∃ tl', threadlistInsertbeforenode tl (some p.1) (some r.1) = .ok tl' ∧
      Chain tl' (pre ++ q :: p :: r :: post) ∧ tl'.tlCount = tl.tlCount := by
  have hnodup : ((pre ++ q :: p :: r :: post).map Prod.fst).Nodup :=
    (perm_three.map Prod.fst).nodup_iff.mpr (List.nodup_cons.mpr ⟨hp, h.nodup⟩)
  obtain ⟨nq, hnq, -⟩ := h.node
  have hr : Chain tl ((pre ++ [q]) ++ r :: post) := by simpa using h
  obtain ⟨nr, hnr, -⟩ := hr.node
  have hdistinct := hnodup
  simp only [List.map_append, List.map_cons, List.nodup_append, List.nodup_cons, List.mem_cons,
    not_or] at hdistinct
  obtain ⟨-, ⟨⟨hqp, hqr, -⟩, ⟨hpr, -⟩, -⟩, -⟩ := hdistinct
  let tl₁ := tl.setNode p.1 ⟨some q.1, none, p.2.1, p.2.2⟩
  let tl₂ := tl₁.setNode p.1 ⟨some q.1, some r.1, p.2.1, p.2.2⟩
  let tl₃ := tl₂.setNode q.1 { nq with tlnNext := some p.1 }
  let tl₄ := tl₃.setNode r.1 { nr with tlnPrev := some p.1 }
  have hnq₁ : tl₁.nodes q.1 = some nq := (setNode_of_ne hqp).trans hnq
  have hnr₁ : tl₁.nodes r.1 = some nr := (setNode_of_ne (Ne.symm hpr)).trans hnr
  have hnp₂ : tl₂.nodes p.1 = some ⟨some q.1, some r.1, p.2.1, p.2.2⟩ := setNode_self
  have hnp₃ : tl₃.nodes p.1 = some ⟨some q.1, some r.1, p.2.1, p.2.2⟩ :=
    (setNode_of_ne (Ne.symm hqp)).trans hnp₂
  have hnr₃ : tl₃.nodes r.1 = some nr :=
    (setNode_of_ne (Ne.symm hqr)).trans ((setNode_of_ne (Ne.symm hpr)).trans hnr₁)
  have hrun₁ : tl.setPrev (some p.1) (some q.1) = .ok tl₁ := setPrev_ok hnp
  have hrun₂ : tl₁.setNext (some p.1) (some r.1) = .ok tl₂ := setNext_ok setNode_self
  have hrun₃ : tl₂.setNext (some q.1) (some p.1) = .ok tl₃ :=
    setNext_ok ((setNode_of_ne hqp).trans hnq₁)
  have hrun₄ : tl₃.setPrev (some r.1) (some p.1) = .ok tl₄ := setPrev_ok hnr₃
  have hlinked : Segment layout tl₁.nodes none (some tl.tlHead) (pre ++ q :: r :: post) none
      (some tl.tlTail) := h.linked.update hp
  have hspliced : Segment layout tl₄.nodes none (some tl.tlHead) (pre ++ q :: p :: r :: post) none
      (some tl.tlTail) :=
    hlinked.splice hnodup hnq₁ hnr₁ rfl rfl rfl rfl (fun _ hback => hback) rfl rfl rfl rfl
  refine ⟨tl₄, ?_, ⟨hspliced, hnodup⟩, rfl⟩
  rw [threadlistInsertbeforenode, h.prev_eq, ok_bind, hrun₁, ok_bind, hrun₂, ok_bind,
    prev_ok hnp₂, ok_bind, hrun₃, ok_bind, next_ok hnp₃, ok_bind, hrun₄]

theorem threadlistRemove_ok (h : Chain tl (pre ++ q :: p :: r :: post)) :
    ∃ tl', threadlistRemove tl (some p.1) = .ok tl' ∧ Chain tl' (pre ++ q :: r :: post) ∧
      tl'.nodes p.1 = some (unlinked p) ∧ tl'.tlCount = tl.tlCount - 1 := by
  obtain ⟨tl', hrun, hchain, hp, hcount⟩ := threadlistRemovenode_ok h
  refine ⟨{ tl' with tlCount := tl'.tlCount - 1 }, ?_, ⟨hchain.1, hchain.2⟩, hp, ?_⟩
  · rw [threadlistRemove, hrun]
    rfl
  · rw [hcount]

theorem threadlistInsertbefore_ok (h : Chain tl (pre ++ q :: r :: post))
    (hp : p.1 ∉ (pre ++ q :: r :: post).map Prod.fst) (hnp : tl.nodes p.1 = some (unlinked p)) :
    ∃ tl', threadlistInsertbefore tl (some p.1) (some r.1) = .ok tl' ∧
      Chain tl' (pre ++ q :: p :: r :: post) ∧ tl'.tlCount = tl.tlCount + 1 := by
  obtain ⟨tl', hrun, hchain, hcount⟩ := threadlistInsertbeforenode_ok h hp hnp
  refine ⟨{ tl' with tlCount := tl'.tlCount + 1 }, ?_, ⟨hchain.1, hchain.2⟩, ?_⟩
  · rw [threadlistInsertbefore, hrun]
    rfl
  · rw [hcount]

/-- Nothing is removed through a bookend, and nothing is put ahead of one. -/
theorem threadlistRemove_null : threadlistRemove tl none = .error .fault := rfl

theorem threadlistInsertbefore_null {addee : Option Ptr} :
    threadlistInsertbefore tl addee none = .error .fault := rfl

/-! ## Queues -/

/-- A queued thread and its priority. -/
abbrev Entry := Ptr × Int32

def threadCell (e : Entry) : Cell := (e.1, some e.1, e.2)

/-- The threads of the queue are those of `l`; `head` and `tail` are the priorities that the
bookends happen to have. -/
structure Queue (tl : ThreadList) (head tail : Int32) (l : List Entry) : Prop where
  chain : Chain tl ((tl.tlHead, none, head) :: (l.map threadCell ++ [(tl.tlTail, none, tail)]))
  count : tl.tlCount.toNat = l.length

variable {l : List Entry} {c : Cell} {x : Entry} {head tail : Int32}

theorem Chain.bookends {d : Cell} (h : Chain tl (c :: (cells ++ [d]))) :
    tl.tlHead = c.1 ∧ tl.tlTail = d.1 := by
  obtain ⟨f, m, -, -, n, -, -, -, -, hlast⟩ :=
    segment_append.mp (show Segment layout tl.nodes none _ ((c :: cells) ++ [d]) none _ from h.linked)
  exact ⟨Option.some.inj h.linked.1, Option.some.inj hlast⟩

/-- A chain between the bookends is a queue. -/
theorem Queue.of_chain {headPtr tailPtr : Ptr}
    (h : Chain tl ((headPtr, none, head) :: (l.map threadCell ++ [(tailPtr, none, tail)])))
    (hcount : tl.tlCount.toNat = l.length) : Queue tl head tail l := by
  obtain ⟨hhead, htail⟩ := h.bookends
  refine ⟨?_, hcount⟩
  rw [hhead, htail]
  exact h

/-- The threads of a queue can be read off it. -/
theorem Queue.unique {head' tail' : Int32} {l' : List Entry} (h : Queue tl head tail l)
    (h' : Queue tl head' tail' l') : l = l' := by
  have hcells := (List.cons.inj (h.chain.linked.unique h'.chain.linked)).2
  have hthreads : l.map threadCell = l'.map threadCell := by
    have hdrop := congrArg List.dropLast hcells
    rwa [List.dropLast_concat, List.dropLast_concat] at hdrop
  have hinj : Function.Injective threadCell := by
    intro x y hxy
    exact Prod.ext (congrArg (fun c : Cell => c.1) hxy) (congrArg (fun c : Cell => c.2.2) hxy)
  exact hinj.list_map hthreads

theorem Queue.nodup (h : Queue tl head tail l) : (l.map Prod.fst).Nodup := by
  have hnodup := h.chain.nodup
  rw [List.map_cons, List.map_append, List.map_map] at hnodup
  exact (List.nodup_append.mp (List.nodup_cons.mp hnodup).2).1

/-- What `threadlist_init` makes: the bookends keep the priorities they had. -/
theorem queue_init (h : tl.tlHead ≠ tl.tlTail) : Queue (threadlistInit tl head tail) head tail [] := by
  refine .of_chain ⟨⟨rfl, ⟨none, some tl.tlTail, none, head⟩, ?_, rfl, rfl, rfl,
    ⟨some tl.tlHead, none, none, tail⟩, setNode_self, rfl, rfl, rfl, rfl⟩, ?_⟩ rfl
  · exact (setNode_of_ne h).trans setNode_self
  · exact List.nodup_cons.mpr ⟨mt List.mem_singleton.mp h, List.nodup_singleton _⟩

/-- A thread that is in no list is queued. -/
theorem Queue.addtail (h : Queue tl head tail l) (hx : tl.nodes x.1 = some (unlinked (threadCell x)))
    (hhead : x.1 ≠ tl.tlHead) (htail : x.1 ≠ tl.tlTail) (hl : x.1 ∉ l.map Prod.fst)
    (hlength : l.length + 1 < 2 ^ 32) : ∃ tl', threadlistAddtail tl (some x.1) = .ok tl' ∧
      Queue tl' head tail (l ++ [x]) := by
  have hne : (tl.tlHead, none, head) :: l.map threadCell ≠ [] := List.cons_ne_nil _ _
  obtain ⟨pre, q, hpre⟩ := (List.eq_nil_or_concat _).resolve_left hne
  have hcells (s : List Cell) : pre ++ q :: s =
      (tl.tlHead, none, head) :: (l.map threadCell ++ s) := by
    rw [← List.cons_append, hpre]
    simp
  have hchain : Chain tl (pre ++ q :: [(tl.tlTail, none, tail)]) := by
    rw [hcells]
    exact h.chain
  have hnew : (threadCell x).1 ∉ (pre ++ q :: [(tl.tlTail, none, tail)]).map Prod.fst := by
    rw [hcells, List.map_cons, List.map_append, List.map_map]
    intro hmem
    rcases List.mem_cons.mp hmem with heq | hmem
    · exact hhead heq
    · rcases List.mem_append.mp hmem with hmem | hmem
      · exact hl hmem
      · exact htail (List.mem_singleton.mp hmem)
  obtain ⟨tl', hrun, hchain', hcount⟩ := threadlistInsertbeforenode_ok hchain hnew hx
  have hqueue : Chain tl' ((tl.tlHead, none, head) ::
      ((l ++ [x]).map threadCell ++ [(tl.tlTail, none, tail)])) := by
    rw [hcells] at hchain'
    simpa using hchain'
  refine ⟨{ tl' with tlCount := tl'.tlCount + 1 }, ?_, .of_chain ⟨hqueue.1, hqueue.2⟩ ?_⟩
  · rw [threadlistAddtail]
    show (threadlistInsertbeforenode tl (some (threadCell x).1) _ >>= _) = _
    rw [hrun]
    rfl
  · rw [hcount, UInt32.toNat_add, h.count, List.length_append]
    exact Nat.mod_eq_of_lt hlength

/-- Three threads with these priorities. -/
def threeThreads (head tail p q r : Int32) : ThreadList where
  nodes := fun
    | 0 => some ⟨none, some 2, none, head⟩
    | 1 => some ⟨some 4, none, none, tail⟩
    | 2 => some ⟨some 0, some 3, some 2, p⟩
    | 3 => some ⟨some 2, some 4, some 3, q⟩
    | 4 => some ⟨some 3, some 1, some 4, r⟩
    | _ => none
  tlHead := 0
  tlTail := 1
  tlCount := 3

theorem threeThreads_queue (head tail p q r : Int32) :
    Queue (threeThreads head tail p q r) head tail [(2, p), (3, q), (4, r)] where
  chain := by
    refine ⟨⟨rfl, _, rfl, rfl, rfl, ?_⟩, ?_⟩
    · refine ⟨rfl, _, rfl, rfl, rfl, rfl, _, rfl, rfl, rfl, rfl, _, rfl, rfl, rfl, ?_⟩
      exact ⟨rfl, _, rfl, rfl, rfl, rfl, rfl⟩
    · show [0, 2, 3, 4, 1].Nodup
      decide
  count := rfl

end UnionCollegeCode.OS161.Thread
