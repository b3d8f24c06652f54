import UnionCollegeCode.Lib.BubblePass
import UnionCollegeCode.OS161.Thread.Queue

/-!
# What `schedule` does to the queue

The first loop raises the head and every thread. The second one is a `hop` over the raised threads,
as long as a bookend is never on the winning side of a comparison: a bookend has no thread, so to
move it, or to move something ahead of it, is to follow `NULL`.
-/

set_option autoImplicit false

namespace UnionCollegeCode.OS161.Thread

open Function (update)
open Lib.LinkedChain Lib.BubblePass

/-- What threads are compared by. -/
def key (e : Entry) : ℤ := e.2.toInt

/-- `priority++`. -/
def raise (e : Entry) : Entry := (e.1, e.2 + 1)

variable {tl : ThreadList} {pre post cells : List Cell} {b c t : Cell} {x y : Entry}
  {l : List Entry} {head tail : Int32} {rounds : ℕ}

theorem key_lt_iff : key x < key y ↔ x.2 < y.2 := Int32.lt_iff_toInt_lt.symm

theorem key_le_iff : key x ≤ key y ↔ x.2 ≤ y.2 := Int32.le_iff_toInt_le.symm

/-- The address of the first of these cells. -/
def start (cells : List Cell) : Option Ptr := cells.head?.map Prod.fst

theorem Chain.next_start (h : Chain tl (pre ++ c :: cells)) : tl.next (some c.1) = .ok (start cells) := by
  cases cells with
  | nil => exact h.next_last
  | cons d cells => exact h.next_eq

/-! ## The first loop -/

def raiseCell (c : Cell) : Cell := (c.1, c.2.1, c.2.2 + 1)

theorem write_raise (h : Chain tl (pre ++ c :: cells)) :
    ∃ tl', tl.write (some c.1) (fun n => { n with priority := n.priority + 1 }) = .ok tl' ∧
      Chain tl' (pre ++ raiseCell c :: cells) ∧ tl'.tlCount = tl.tlCount := by
  obtain ⟨n, hn, hself, hpriority⟩ := h.node
  refine ⟨tl.setNode c.1 { n with priority := n.priority + 1 }, write_ok hn, ⟨?_, ?_⟩, rfl⟩
  · refine h.linked.setValue h.nodup hn ?_ (fun _ hback => hback) rfl
    show (n.tlnSelf, n.priority + 1) = (c.2.1, c.2.2 + 1)
    rw [hself, hpriority]
  · have hnodup := h.nodup
    rw [List.map_append, List.map_cons] at hnodup ⊢
    exact hnodup

theorem incrementFrom_ok (h : Chain tl (pre ++ (cells ++ [t]))) (hrounds : cells.length < rounds) :
    ∃ tl', incrementFrom rounds tl (start (cells ++ [t])) = .ok tl' ∧
      Chain tl' (pre ++ (cells.map raiseCell ++ [t])) ∧ tl'.tlCount = tl.tlCount := by
  induction cells generalizing tl pre rounds with
  | nil =>
    obtain ⟨rounds, rfl⟩ := Nat.exists_eq_succ_of_ne_zero (Nat.ne_zero_of_lt hrounds)
    refine ⟨tl, ?_, h, rfl⟩
    show incrementFrom (rounds + 1) tl (some t.1) = _
    rw [incrementFrom, h.next_last, ok_bind]
    rfl
  | cons c cells ih =>
    obtain ⟨rounds, rfl⟩ := Nat.exists_eq_succ_of_ne_zero (Nat.ne_zero_of_lt hrounds)
    obtain ⟨tl₁, hwrite, hraised, hcount₁⟩ := write_raise h
    have hchain₁ : Chain tl₁ ((pre ++ [raiseCell c]) ++ (cells ++ [t])) := by simpa using hraised
    obtain ⟨tl', hrun, hchain, hcount⟩ := ih hchain₁ (Nat.lt_of_succ_lt_succ hrounds)
    refine ⟨tl', ?_, ?_, hcount.trans hcount₁⟩
    · have hnext : tl.next (some c.1) = .ok (start (cells ++ [t])) := h.next_start
      have hnext₁ : tl₁.next (some c.1) = .ok (start (cells ++ [t])) := hraised.next_start
      obtain ⟨q, hq⟩ : ∃ q, start (cells ++ [t]) = some q := by cases cells <;> exact ⟨_, rfl⟩
      show incrementFrom (rounds + 1) tl (some c.1) = _
      rw [incrementFrom, hnext, ok_bind, hq]
      show (do
        let tl ← tl.write (some c.1) fun n => { n with priority := n.priority + 1 }
        incrementFrom rounds tl (← tl.next (some c.1))) = _
      rw [hwrite, ok_bind, hnext₁, ok_bind, hrun]
    · simpa using hchain

/-! ## One round of the second loop -/

theorem reorderStep_stay (h : Chain tl (pre ++ b :: c :: post)) (hle : c.2.2 ≤ b.2.2) :
    reorderStep tl (some b.1) (some c.1) = .ok tl := by
  have hc : Chain tl ((pre ++ [b]) ++ c :: post) := by simpa using h
  rw [reorderStep, hc.priority_eq, ok_bind, h.priority_eq, ok_bind, if_neg (Int32.not_lt.mpr hle)]
  rfl

theorem reorderStep_swap (h : Chain tl (pre ++ b :: threadCell x :: threadCell y :: c :: post))
    (hlt : x.2 < y.2) : ∃ tl', reorderStep tl (some x.1) (some y.1) = .ok tl' ∧
      Chain tl' (pre ++ b :: threadCell y :: threadCell x :: c :: post) ∧
      tl'.tlCount = tl.tlCount := by
  have hx : Chain tl ((pre ++ [b]) ++ threadCell x :: threadCell y :: c :: post) := by simpa using h
  have hy : Chain tl ((pre ++ [b, threadCell x]) ++ threadCell y :: c :: post) := by simpa using h
  obtain ⟨tl₁, hremove, hx₁, hy₁, hcount₁⟩ := threadlistRemove_ok hx
  have hchain₁ : Chain tl₁ (pre ++ b :: threadCell x :: c :: post) := by simpa using hx₁
  have hnew : (threadCell y).1 ∉ (pre ++ b :: threadCell x :: c :: post).map Prod.fst := by
    have hnodup := (List.nodup_cons.mp ((perm_three.map Prod.fst).nodup_iff.mp hx.nodup)).1
    simpa using hnodup
  obtain ⟨tl', hinsert, hchain, hcount⟩ := threadlistInsertbefore_ok hchain₁ hnew hy₁
  have hpx : tl.priority (some x.1) = .ok x.2 := hx.priority_eq
  have hpy : tl.priority (some y.1) = .ok y.2 := hy.priority_eq
  have hsy : tl.self (some y.1) = .ok (some y.1) := hy.self_eq
  have hsy₁ : tl₁.self (some y.1) = .ok (some y.1) := self_ok hy₁
  have hsx₁ : tl₁.self (some x.1) = .ok (some x.1) := hx₁.self_eq
  refine ⟨tl', ?_, hchain, ?_⟩
  · rw [reorderStep, hpy, ok_bind, hpx, ok_bind, if_pos hlt, hsy, ok_bind]
    show (threadlistRemove tl (some (threadCell y).1) >>= _) = _
    rw [hremove, ok_bind, hsy₁, ok_bind, hsx₁, ok_bind]
    exact hinsert
  · rw [hcount, hcount₁]
    exact UInt32.sub_add_cancel _ _

/-- The tail would be moved ahead. -/
theorem reorderStep_tail (h : Chain tl (pre ++ b :: c :: post)) (hc : c.2.1 = none)
    (hlt : b.2.2 < c.2.2) : reorderStep tl (some b.1) (some c.1) = .error .fault := by
  have hc' : Chain tl ((pre ++ [b]) ++ c :: post) := by simpa using h
  rw [reorderStep, hc'.priority_eq, ok_bind, h.priority_eq, ok_bind, if_pos hlt, hc'.self_eq, hc,
    ok_bind, threadlistRemove_null]
  rfl

/-- A thread would be moved ahead of the head. -/
theorem reorderStep_head (h : Chain tl (b :: threadCell x :: c :: post)) (hb : b.2.1 = none)
    (hlt : b.2.2 < x.2) : reorderStep tl (some b.1) (some x.1) = .error .fault := by
  have hx : Chain tl ([b] ++ threadCell x :: c :: post) := h
  have hb' : Chain tl ([] ++ b :: threadCell x :: c :: post) := h
  obtain ⟨tl₁, hremove, hchain₁, hx₁, -⟩ := threadlistRemove_ok hb'
  have hpx : tl.priority (some x.1) = .ok x.2 := hx.priority_eq
  have hsx : tl.self (some x.1) = .ok (some x.1) := hx.self_eq
  have hsx₁ : tl₁.self (some x.1) = .ok (some x.1) := self_ok hx₁
  have hsb₁ : tl₁.self (some b.1) = .ok none := hchain₁.self_eq.trans (congrArg _ hb)
  rw [reorderStep, hpx, ok_bind, hb'.priority_eq, ok_bind, if_pos hlt, hsx, ok_bind]
  show (threadlistRemove tl (some (threadCell x).1) >>= _) = _
  rw [hremove, ok_bind, hsx₁, ok_bind, hsb₁, ok_bind]
  exact threadlistInsertbefore_null

/-! ## The second loop -/

theorem reorderFrom_last (h : Chain tl (pre ++ [t])) :
    reorderFrom (rounds + 1) tl (some t.1) = .ok tl := by
  rw [reorderFrom, h.next_last, ok_bind]
  rfl

theorem reorderFrom_step (rounds : ℕ) (h : Chain tl (pre ++ b :: c :: post)) :
    reorderFrom (rounds + 1) tl (some b.1) = (do
      let tl ← reorderStep tl (some b.1) (some c.1)
      reorderFrom rounds tl (← tl.next (some b.1))) := by
  rw [reorderFrom, h.next_eq, ok_bind]

theorem reorderFrom_stay (rounds : ℕ) (h : Chain tl (pre ++ b :: c :: post)) (hle : c.2.2 ≤ b.2.2) :
    reorderFrom (rounds + 1) tl (some b.1) = reorderFrom rounds tl (some c.1) := by
  rw [reorderFrom_step rounds h, reorderStep_stay h hle, ok_bind, h.next_eq, ok_bind]

/-- After a swap the loop goes on behind both threads. -/
theorem reorderFrom_swap (rounds : ℕ) (h : Chain tl (pre ++ b :: threadCell x :: threadCell y :: c :: post))
    (hlt : x.2 < y.2) : ∃ tl', reorderFrom (rounds + 1) tl (some x.1) =
        reorderFrom rounds tl' (some c.1) ∧
      Chain tl' (pre ++ b :: threadCell y :: threadCell x :: c :: post) ∧
      tl'.tlCount = tl.tlCount := by
  obtain ⟨tl', hrun, hchain, hcount⟩ := reorderStep_swap h hlt
  have hx : Chain tl ((pre ++ [b]) ++ threadCell x :: threadCell y :: c :: post) := by simpa using h
  have hx' : Chain tl' ((pre ++ [b, threadCell y]) ++ threadCell x :: c :: post) := by
    simpa using hchain
  have hnext : tl'.next (some x.1) = .ok (some c.1) := hx'.next_eq
  refine ⟨tl', ?_, hchain, hcount⟩
  have hstep : reorderFrom (rounds + 1) tl (some x.1) = (do
      let tl ← reorderStep tl (some x.1) (some y.1)
      reorderFrom rounds tl (← tl.next (some x.1))) := reorderFrom_step rounds hx
  rw [hstep, hrun, ok_bind, hnext, ok_bind]

/-- The loop from a thread on that has another one, or the head, before it. It faults where the tail
is compared with a thread and found to be higher. -/
theorem reorderFrom_eq (ht : t.2.1 = none) : (l : List Entry) → {tl : ThreadList} →
    {pre : List Cell} → {b : Cell} → {rounds : ℕ} →
    Chain tl (pre ++ b :: (l.map threadCell ++ [t])) → l.length < rounds →
    ∃ tl', reorderFrom rounds tl (start (l.map threadCell ++ [t])) =
        (if ∀ e ∈ hopEnd key l, t.2.2 ≤ e.2 then .ok tl' else .error .fault) ∧
      Chain tl' (pre ++ b :: ((hop key l).map threadCell ++ [t])) ∧ tl'.tlCount = tl.tlCount
  | [], tl, pre, b, rounds + 1, h, _ => by
    have htail : Chain tl ((pre ++ [b]) ++ [t]) := by simpa using h
    refine ⟨tl, ?_, h, rfl⟩
    rw [if_pos (fun e he => nomatch he)]
    exact reorderFrom_last htail
  -- The last thread is compared with the tail, and a swap would remove the thread the tail has not.
  | [x], tl, pre, b, rounds + 2, h, _ => by
    have hx : Chain tl ((pre ++ [b]) ++ threadCell x :: [t]) := by simpa using h
    have htail : Chain tl ((pre ++ [b, threadCell x]) ++ [t]) := by simpa using h
    refine ⟨tl, ?_, h, rfl⟩
    show reorderFrom (rounds + 2) tl (some (threadCell x).1) = _
    split
    · rename_i hle
      exact (reorderFrom_stay _ hx (hle x rfl)).trans (reorderFrom_last htail)
    · rename_i hlt
      have hlt' : x.2 < t.2.2 := Int32.not_le.mp fun hle => hlt fun e he => by
        obtain rfl := Option.some.inj he
        exact hle
      rw [reorderFrom_step _ hx, reorderStep_tail hx ht hlt']
      rfl
  | x :: y :: l, tl, pre, b, rounds + 1, h, hrounds => by
    have hrounds' : l.length < rounds := by
      rw [List.length_cons, List.length_cons] at hrounds
      omega
    -- A swap takes the loop past `y`, to what came after both; without one it goes on at `y`.
    rcases lt_or_ge (key x) (key y) with hxy | hxy
    · obtain ⟨c, post, hc⟩ : ∃ c post, l.map threadCell ++ [t] = c :: post := by
        cases l <;> exact ⟨_, _, rfl⟩
      have hcells : (x :: y :: l).map threadCell ++ [t] =
          threadCell x :: threadCell y :: c :: post := by
        rw [← hc]
        rfl
      rw [hcells] at h ⊢
      obtain ⟨tl₁, hrun₁, hchain₁, hcount₁⟩ := reorderFrom_swap rounds h
        (key_lt_iff.mp hxy)
      have hrest : Chain tl₁ ((pre ++ [b, threadCell y]) ++ threadCell x ::
          (l.map threadCell ++ [t])) := by
        rw [hc]
        simpa using hchain₁
      obtain ⟨tl', hrun, hchain, hcount⟩ := reorderFrom_eq ht l hrest hrounds'
      refine ⟨tl', ?_, ?_, hcount.trans hcount₁⟩
      · rw [hc] at hrun
        rw [hopEnd, if_pos hxy]
        exact hrun₁.trans hrun
      · rw [hop_cons_of_lt hxy]
        simpa using hchain
    · have hx : Chain tl ((pre ++ [b]) ++ threadCell x :: threadCell y ::
          (l.map threadCell ++ [t])) := by simpa using h
      have hrest : Chain tl ((pre ++ [b]) ++ threadCell x :: ((y :: l).map threadCell ++ [t])) := by
        simpa using h
      obtain ⟨tl', hrun, hchain, hcount⟩ := reorderFrom_eq ht (y :: l) hrest
        (Nat.lt_of_succ_lt_succ hrounds)
      refine ⟨tl', ?_, ?_, hcount⟩
      · rw [hopEnd, if_neg (not_lt.mpr hxy)]
        exact (reorderFrom_stay rounds hx (key_le_iff.mp hxy)).trans hrun
      · rw [hop_cons_of_le hxy]
        simpa using hchain

/-! ## The whole call -/

/-- No bookend is on the winning side of a comparison. The head meets the first thread; the tail
meets the last one, unless that one has just been swapped, or the head, if there is no thread. -/
structure SentinelsLose (head tail : Int32) (l : List Entry) : Prop where
  empty : l = [] → tail ≤ head
  first : ∀ e ∈ l.head?, e.2 ≤ head
  last : ∀ e ∈ l.getLast?, Even (climb key l) ∨ tail ≤ e.2

theorem sentinelsLose_nil (h : tail ≤ head) : SentinelsLose head tail [] where
  empty := fun _ => h
  first := fun _ he => nomatch he
  last := fun _ he => nomatch he

theorem sentinelsLose_cons : SentinelsLose head tail (x :: l) ↔
    x.2 ≤ head ∧ ∀ e ∈ hopEnd key (x :: l), tail ≤ e.2 := by
  rw [hopEnd_eq]
  constructor
  · intro h
    refine ⟨h.first x rfl, fun e he => ?_⟩
    split at he
    · cases he
    · rename_i hodd
      exact (h.last e he).resolve_left hodd
  · rintro ⟨hfirst, hlast⟩
    refine ⟨(nomatch ·), fun e he => ?_, fun e he => ?_⟩
    · obtain rfl := Option.some.inj he
      exact hfirst
    · refine (Decidable.em (Even (climb key (x :: l)))).imp_right fun hodd => hlast e ?_
      rw [if_neg hodd]
      exact he

theorem Queue.chain_head (h : Queue tl head tail l) :
    Chain tl ([] ++ (tl.tlHead, none, head) :: (l.map threadCell ++ [(tl.tlTail, none, tail)])) :=
  h.chain

/-- What the first loop leaves. -/
theorem Queue.increment (h : Queue tl head tail l) (hrounds : l.length + 1 < rounds) :
    ∃ tl', incrementFrom rounds tl (some tl.tlHead) = .ok tl' ∧
      Queue tl' (head + 1) tail (l.map raise) := by
  have hchain : Chain tl ([] ++ ((tl.tlHead, none, head) :: l.map threadCell ++
      [(tl.tlTail, none, tail)])) := h.chain
  have hlength : ((tl.tlHead, none, head) :: l.map threadCell).length < rounds := by
    rw [List.length_cons, List.length_map]
    exact hrounds
  obtain ⟨tl', hrun, hraised, hcount⟩ := incrementFrom_ok hchain hlength
  have hcells : ((tl.tlHead, none, head) :: l.map threadCell).map raiseCell =
      (tl.tlHead, none, head + 1) :: (l.map raise).map threadCell := by
    rw [List.map_cons, List.map_map, List.map_map]
    rfl
  rw [hcells] at hraised
  refine ⟨tl', hrun, .of_chain hraised ?_⟩
  rw [hcount, h.count, List.length_map]

/-- What the second loop leaves, if no bookend wins. -/
theorem Queue.reorder_ok (h : Queue tl head tail l) (hlose : SentinelsLose head tail l)
    (hrounds : l.length < rounds) : ∃ tl', reorderFrom (rounds + 1) tl (some tl.tlHead) = .ok tl' ∧
      Queue tl' head tail (hop key l) := by
  obtain ⟨tl', hrun, hchain, hcount⟩ := reorderFrom_eq rfl l h.chain_head hrounds
  refine ⟨tl', ?_, .of_chain hchain ?_⟩
  · cases l with
    | nil =>
      have hstay := reorderFrom_stay rounds h.chain_head (hlose.empty rfl)
      exact hstay.trans hrun
    | cons x l =>
      obtain ⟨hfirst, hlast⟩ := sentinelsLose_cons.mp hlose
      have hstay := reorderFrom_stay rounds h.chain_head hfirst
      rw [if_pos hlast] at hrun
      exact hstay.trans hrun
  · rw [hcount, h.count, (hop_perm l).length_eq]

/-- A bookend that wins is moved, or moved ahead of. -/
theorem Queue.reorder_fault (h : Queue tl head tail l) (hwin : ¬ SentinelsLose head tail l)
    (hrounds : l.length < rounds) :
    reorderFrom (rounds + 1) tl (some tl.tlHead) = .error .fault := by
  cases l with
  | nil =>
    have hlt : head < tail := Int32.not_le.mp fun hle => hwin (sentinelsLose_nil hle)
    rw [reorderFrom_step rounds h.chain_head, reorderStep_tail h.chain_head rfl hlt]
    rfl
  | cons x l =>
    obtain ⟨c, post, hc⟩ : ∃ c post, l.map threadCell ++ [(tl.tlTail, none, tail)] = c :: post := by
      cases l <;> exact ⟨_, _, rfl⟩
    rcases Decidable.em (x.2 ≤ head) with hle | hlt
    · obtain ⟨tl', hrun, -, -⟩ := reorderFrom_eq rfl (x :: l) h.chain_head hrounds
      rw [if_neg fun hlast => hwin (sentinelsLose_cons.mpr ⟨hle, hlast⟩)] at hrun
      exact (reorderFrom_stay rounds h.chain_head hle).trans hrun
    · have hchain := h.chain
      rw [List.map_cons, List.cons_append, hc] at hchain
      have hfault := reorderStep_head hchain rfl (Int32.not_le.mp hlt)
      have hhead : Chain tl ([] ++ (tl.tlHead, none, head) :: threadCell x :: c :: post) := hchain
      rw [reorderFrom_step rounds hhead, show (threadCell x).1 = x.1 from rfl, hfault]
      rfl

theorem schedule_ok (h : Queue tl head tail l)
    (hlose : SentinelsLose (head + 1) tail (l.map raise)) :
    ∃ tl', schedule tl = .ok tl' ∧ Queue tl' (head + 1) tail (hop key (l.map raise)) := by
  obtain ⟨tl₁, hrun₁, hqueue₁⟩ := h.increment (Nat.lt_succ_self _)
  have hrounds : (l.map raise).length < l.length + 1 := by
    rw [List.length_map]
    exact Nat.lt_succ_self _
  obtain ⟨tl', hrun, hqueue⟩ := hqueue₁.reorder_ok hlose hrounds
  refine ⟨tl', ?_, hqueue⟩
  rw [schedule, h.count, hrun₁, ok_bind]
  exact hrun

theorem schedule_fault (h : Queue tl head tail l)
    (hwin : ¬ SentinelsLose (head + 1) tail (l.map raise)) : schedule tl = .error .fault := by
  obtain ⟨tl₁, hrun₁, hqueue₁⟩ := h.increment (Nat.lt_succ_self _)
  rw [schedule, h.count, hrun₁, ok_bind]
  have hrounds : (l.map raise).length < l.length + 1 := by
    rw [List.length_map]
    exact Nat.lt_succ_self _
  exact hqueue₁.reorder_fault hwin hrounds

/-! ## Only reordered -/

theorem toInt_add_one {p : Int32} : (p + 1).toInt = p.toInt + 1 ↔ p ≠ Int32.maxValue := by
  have hle := p.toInt_le
  have hge := p.le_toInt
  rw [Int32.toInt_maxValue] at hle
  rw [Int32.toInt_add, Int32.toInt_one, ne_eq, ← Int32.toInt_inj, Int32.toInt_maxValue,
    Int.bmod_def]
  omega

/-- The call leaves a queue of the same threads, each raised by one, and the count as it was. That
it returns means that no bookend was removed, inserted ahead of or asked for its thread to use it:
all of these follow `NULL`. -/
def OnlyReorders (tl : ThreadList) (l : List Entry) : Prop :=
  ∃ tl' head tail l', schedule tl = .ok tl' ∧ Queue tl' head tail l' ∧ tl'.tlCount = tl.tlCount ∧
    (l'.map fun e => (e.1, e.2.toInt)).Perm (l.map fun e => (e.1, e.2.toInt + 1))

/-- The bookends may hold anything, and a thread may be at the end of its priorities. -/
theorem onlyReorders_iff (h : Queue tl head tail l) : OnlyReorders tl l ↔
    SentinelsLose (head + 1) tail (l.map raise) ∧ ∀ e ∈ l, e.2 ≠ Int32.maxValue := by
  have hraised : ((hop key (l.map raise)).map fun e => (e.1, e.2.toInt)).Perm
      (l.map fun e => (e.1, (e.2 + 1).toInt)) := by
    have hperm : ((hop key (l.map raise)).map fun e => (e.1, e.2.toInt)).Perm
        ((l.map raise).map fun e => (e.1, e.2.toInt)) := (hop_perm (l.map raise)).map _
    rwa [List.map_map] at hperm
  constructor
  · rintro ⟨tl', head', tail', l', hrun, hqueue, -, hperm⟩
    have hlose : SentinelsLose (head + 1) tail (l.map raise) := by
      by_contra hwin
      rw [schedule_fault h hwin] at hrun
      cases hrun
    obtain ⟨tl'', hrun', hqueue'⟩ := schedule_ok h hlose
    obtain rfl := Except.ok.inj (hrun.symm.trans hrun')
    obtain rfl := hqueue.unique hqueue'
    refine ⟨hlose, fun e he => toInt_add_one.mp ?_⟩
    -- A thread is in the queue once, so the one raised by one is this one.
    have hmem := (hraised.symm.trans hperm).mem_iff.mp (List.mem_map_of_mem he)
    obtain ⟨e', he', heq⟩ := List.mem_map.mp hmem
    have haddress : e'.1 = e.1 := (Prod.mk.inj heq).1
    obtain rfl := List.inj_on_of_nodup_map h.nodup he' he haddress
    exact (Prod.mk.inj heq).2.symm
  · rintro ⟨hlose, hmax⟩
    obtain ⟨tl', hrun, hqueue⟩ := schedule_ok h hlose
    refine ⟨tl', head + 1, tail, _, hrun, hqueue, ?_, ?_⟩
    · apply UInt32.toNat_inj.mp
      rw [hqueue.count, h.count, (hop_perm _).length_eq, List.length_map]
    · have hexact : (l.map fun e => (e.1, (e.2 + 1).toInt)) = l.map fun e => (e.1, e.2.toInt + 1) :=
        List.map_congr_left fun e he => by rw [toInt_add_one.mpr (hmax e he)]
      rw [← hexact]
      exact hraised

theorem onlyReorders_iff_threeThreads : Queue (threeThreads 0 0 5 4 3) 0 0 [(2, 5), (3, 4), (4, 3)] ∧
    (OnlyReorders (threeThreads 0 0 5 4 3) [(2, 5), (3, 4), (4, 3)] ↔
      SentinelsLose (0 + 1) 0 ([(2, 5), (3, 4), (4, 3)].map raise) ∧
        ∀ e ∈ [((2 : Ptr), (5 : Int32)), (3, 4), (4, 3)], e.2 ≠ Int32.maxValue) :=
  ⟨threeThreads_queue .., onlyReorders_iff (threeThreads_queue ..)⟩

/-- Memory that `threadlist_init` leaves alone makes the tail the highest of all. -/
theorem tail_wins : ¬ OnlyReorders (threeThreads 0 9 0 0 0) [(2, 0), (3, 0), (4, 0)] := by
  rintro ⟨tl', head, tail, l', hrun, -⟩
  have hfault : schedule (threeThreads 0 9 0 0 0) = .error .fault := rfl
  rw [hfault] at hrun
  cases hrun

end UnionCollegeCode.OS161.Thread
