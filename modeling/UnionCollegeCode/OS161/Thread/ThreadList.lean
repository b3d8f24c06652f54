import Mathlib.Algebra.Order.Ring.Nat
import Mathlib.Data.List.Perm.Basic
import Mathlib.Logic.Function.Basic
import UnionCollegeCode.Lib.LinkedChain

/-!
# `thread/threadlist.c`, and `schedule` of `thread/thread.c`

A list of threads between two bookends. A thread is named by the address of its `t_listnode`; a
`NULL` thread has none, and following it faults, like any `NULL`. `DEBUGASSERT` is compiled out.
-/

set_option autoImplicit false

namespace UnionCollegeCode.OS161.Thread

open Function (update)

abbrev Ptr := ℕ

/-- Why a function does not return. -/
inductive ListStop
  /-- `NULL` is followed. -/
  | fault
  | loops
  deriving DecidableEq, Repr

structure ThreadListNode where
  tlnPrev : Option Ptr
  tlnNext : Option Ptr
  /-- The thread that contains the node: none, for a bookend. -/
  tlnSelf : Option Ptr
  priority : Int32
  deriving DecidableEq

structure ThreadList where
  nodes : Ptr → Option ThreadListNode
  tlHead : Ptr
  tlTail : Ptr
  tlCount : UInt32

namespace ThreadList

def deref (tl : ThreadList) (p : Option Ptr) : Except ListStop (Ptr × ThreadListNode) :=
  match p with
  | none => .error .fault
  | some p =>
    match tl.nodes p with
    | none => .error .fault
    | some n => .ok (p, n)

def next (tl : ThreadList) (p : Option Ptr) : Except ListStop (Option Ptr) := do
  return (← tl.deref p).2.tlnNext

def prev (tl : ThreadList) (p : Option Ptr) : Except ListStop (Option Ptr) := do
  return (← tl.deref p).2.tlnPrev

def self (tl : ThreadList) (p : Option Ptr) : Except ListStop (Option Ptr) := do
  return (← tl.deref p).2.tlnSelf

def priority (tl : ThreadList) (p : Option Ptr) : Except ListStop Int32 := do
  return (← tl.deref p).2.priority

def setNode (tl : ThreadList) (p : Ptr) (n : ThreadListNode) : ThreadList :=
  { tl with nodes := update tl.nodes p (some n) }

/-- A write to a field of the node that `p` points to. -/
def write (tl : ThreadList) (p : Option Ptr) (f : ThreadListNode → ThreadListNode) :
    Except ListStop ThreadList := do
  let (p, n) ← tl.deref p
  return tl.setNode p (f n)

/-- `p->tln_next = q`. -/
def setNext (tl : ThreadList) (p q : Option Ptr) : Except ListStop ThreadList :=
  tl.write p fun n => { n with tlnNext := q }

/-- `p->tln_prev = q`. -/
def setPrev (tl : ThreadList) (p q : Option Ptr) : Except ListStop ThreadList :=
  tl.write p fun n => { n with tlnPrev := q }

end ThreadList

/-- The bookends and the count are set, the priorities of the bookends are left as they were. -/
def threadlistInit (tl : ThreadList) (head tail : Int32) : ThreadList :=
  let tl := tl.setNode tl.tlHead ⟨none, some tl.tlTail, none, head⟩
  let tl := tl.setNode tl.tlTail ⟨some tl.tlHead, none, none, tail⟩
  { tl with tlCount := 0 }

/-- `threadlistnode_init` of the node of thread `t`. -/
def threadlistnodeInit (tl : ThreadList) (t : Ptr) : ThreadList :=
  tl.setNode t ⟨none, none, some t, 0⟩

def threadlistInsertbeforenode (tl : ThreadList) (t onlist : Option Ptr) :
    Except ListStop ThreadList := do
  let addee := t
  let tl ← tl.setPrev addee (← tl.prev onlist)
  let tl ← tl.setNext addee onlist
  let tl ← tl.setNext (← tl.prev addee) addee
  tl.setPrev (← tl.next addee) addee

def threadlistRemovenode (tl : ThreadList) (tln : Option Ptr) : Except ListStop ThreadList := do
  let tl ← tl.setNext (← tl.prev tln) (← tl.next tln)
  let tl ← tl.setPrev (← tl.next tln) (← tl.prev tln)
  let tl ← tl.setPrev tln none
  tl.setNext tln none

def threadlistAddtail (tl : ThreadList) (t : Option Ptr) : Except ListStop ThreadList := do
  let tl ← threadlistInsertbeforenode tl t (some tl.tlTail)
  return { tl with tlCount := tl.tlCount + 1 }

def threadlistInsertbefore (tl : ThreadList) (addee onlist : Option Ptr) :
    Except ListStop ThreadList := do
  let tl ← threadlistInsertbeforenode tl addee onlist
  return { tl with tlCount := tl.tlCount + 1 }

def threadlistRemove (tl : ThreadList) (t : Option Ptr) : Except ListStop ThreadList := do
  let tl ← threadlistRemovenode tl t
  return { tl with tlCount := tl.tlCount - 1 }

/-! ## `schedule` -/

/-- The first loop from `current_tln` on, cut after so many rounds. -/
def incrementFrom : ℕ → ThreadList → Option Ptr → Except ListStop ThreadList
  | 0, _, _ => .error .loops
  | rounds + 1, tl, current => do
    match ← tl.next current with
    | none => return tl
    | some _ =>
      let tl ← tl.write current fun n => { n with priority := n.priority + 1 }
      incrementFrom rounds tl (← tl.next current)

/-- The body of the second loop: where the next thread has the higher priority, it is moved ahead. -/
def reorderStep (tl : ThreadList) (current next : Option Ptr) : Except ListStop ThreadList := do
  if (← tl.priority next) > (← tl.priority current) then
    let tl ← threadlistRemove tl (← tl.self next)
    threadlistInsertbefore tl (← tl.self next) (← tl.self current)
  else
    return tl

def reorderFrom : ℕ → ThreadList → Option Ptr → Except ListStop ThreadList
  | 0, _, _ => .error .loops
  | rounds + 1, tl, current => do
    match ← tl.next current with
    | none => return tl
    | some next =>
      let tl ← reorderStep tl current (some next)
      reorderFrom rounds tl (← tl.next current)

/-- One call, on the run queue of its CPU. A queue has no more nodes than its count and the two
bookends, so neither loop is ever cut. -/
def schedule (tl : ThreadList) : Except ListStop ThreadList := do
  let rounds := tl.tlCount.toNat + 2
  let tl ← incrementFrom rounds tl (some tl.tlHead)
  reorderFrom rounds tl (some tl.tlHead)

end UnionCollegeCode.OS161.Thread
