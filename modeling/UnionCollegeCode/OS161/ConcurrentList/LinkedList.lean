import Mathlib.Data.Int.Notation
import Mathlib.Data.Nat.Notation
import Mathlib.Logic.Function.Basic

/-!
# `concurrent_list/linked_list.c`

A `Linked_List` and the nodes it is made of. Every function here runs from its `lock_acquire` of
`ll_lock` to its `lock_release` as one. A key is an unbounded integer; a data pointer is `none` for
`NULL`.
-/

set_option autoImplicit false

namespace UnionCollegeCode.OS161.ConcurrentList

open Function (update)

abbrev Ptr := ℕ
/-- `void *`. -/
abbrev Data := Option ℕ

/-- Why a function does not return. -/
inductive ListStop
  /-- A pointer that is `NULL` or freed is followed. -/
  | fault
  | kassert (expr : String)
  | loops
  deriving DecidableEq, Repr

structure Node where
  prev : Option Ptr
  next : Option Ptr
  key : ℤ
  data : Data
  deriving DecidableEq, Repr

structure LinkedList where
  nodes : Ptr → Option Node
  first : Option Ptr
  last : Option Ptr
  length : ℤ
  /-- Where the next node is allocated. -/
  brk : Ptr

def linkedListCreate : LinkedList := ⟨fun _ => none, none, none, 0, 0⟩

namespace LinkedList

def deref (s : LinkedList) (p : Ptr) : Except ListStop Node :=
  match s.nodes p with
  | none => .error .fault
  | some n => .ok n

def setNode (s : LinkedList) (p : Ptr) (n : Option Node) : LinkedList :=
  { s with nodes := update s.nodes p n }

/-- `p->next = q`. -/
def setNext (s : LinkedList) (p : Ptr) (q : Option Ptr) : Except ListStop LinkedList := do
  let n ← s.deref p
  return s.setNode p (some { n with next := q })

/-- `p->prev = q`. -/
def setPrev (s : LinkedList) (p : Ptr) (q : Option Ptr) : Except ListStop LinkedList := do
  let n ← s.deref p
  return s.setNode p (some { n with prev := q })

end LinkedList

/-- Whether `kmalloc` finds memory is not looked at: the node is filled in either way. -/
def linkedListCreateNode (s : LinkedList) (ok : Bool) (key : ℤ) (data : Data) :
    Except ListStop (Ptr × LinkedList) :=
  if ok then
    .ok (s.brk, { s.setNode s.brk (some ⟨none, none, key, data⟩) with brk := s.brk + 1 })
  else
    .error .fault

def linkedListPrepend (s : LinkedList) (ok : Bool) (data : Data) : Except ListStop LinkedList := do
  match s.first with
  | none =>
    let (newnode, s) ← linkedListCreateNode s ok 0 data
    return { s with first := some newnode, last := some newnode, length := s.length + 1 }
  | some f =>
    let n ← s.deref f
    let (newnode, s) ← linkedListCreateNode s ok (n.key - 1) data
    let s ← s.setNext newnode s.first
    let s ← s.setPrev f (some newnode)
    return { s with first := some newnode, length := s.length + 1 }

/-- The loop of `linked_list_insert` from `runner` on, cut after so many rounds. -/
def runnerFrom (s : LinkedList) (key : ℤ) : ℕ → Ptr → Except ListStop Ptr
  | 0, _ => .error .loops
  | n + 1, runner => do
    let r ← s.deref runner
    match r.next with
    | none => return runner
    | some q =>
      let m ← s.deref q
      if m.key < key then runnerFrom s key n q else return runner

def linkedListInsert (s : LinkedList) (ok : Bool) (key : ℤ) (data : Data) :
    Except ListStop LinkedList := do
  match s.first with
  | none =>
    let (newnode, s) ← linkedListCreateNode s ok key data
    return { s with first := some newnode, last := some newnode, length := s.length + 1 }
  | some f =>
    let n ← s.deref f
    if n.key > key then
      let (newnode, s) ← linkedListCreateNode s ok key data
      let s ← s.setNext newnode s.first
      let s ← s.setPrev f (some newnode)
      return { s with first := some newnode, length := s.length + 1 }
    else
      let (newnode, s) ← linkedListCreateNode s ok key data
      -- A list has no more nodes than were ever allocated.
      let runner ← runnerFrom s key s.brk f
      let r ← s.deref runner
      match r.next with
      | none =>
        let s ← s.setPrev newnode (some runner)
        let s ← s.setNext runner (some newnode)
        return { s with last := some newnode, length := s.length + 1 }
      | some q =>
        let s ← s.setNext newnode (some q)
        let s ← s.setPrev newnode (some runner)
        let s ← s.setPrev q (some newnode)
        let s ← s.setNext runner (some newnode)
        return { s with length := s.length + 1 }

/-- `none` is the `NULL` of an empty list; otherwise what `*key` is set to, and the data returned. -/
def linkedListRemoveHead (s : LinkedList) : Except ListStop (Option (ℤ × Data) × LinkedList) := do
  match s.first with
  | none => return (none, s)
  | some toRemove =>
    let n ← s.deref toRemove
    let s := { s with first := n.next }
    let s ← match n.next with
      | none => pure s
      | some f => s.setPrev f none
    let s ← s.setNext toRemove none
    let n ← s.deref toRemove
    let s := if s.first = none then { s with last := none } else s
    let s := { s with length := s.length - 1 }
    return (some (n.key, n.data), s.setNode toRemove none)

/-- `runner->key--` from `runner` on, cut after so many rounds. -/
def decrementFrom (s : LinkedList) : ℕ → Option Ptr → Except ListStop LinkedList
  | _, none => .ok s
  | 0, some _ => .error .loops
  | n + 1, some runner => do
    let r ← s.deref runner
    decrementFrom (s.setNode runner (some { r with key := r.key - 1 })) n r.next

/-- What points to a node is made to point past it. -/
def unlinkNext (s : LinkedList) (n : Node) : Except ListStop LinkedList :=
  match n.prev with
  | none => .ok { s with first := n.next }
  | some q => s.setNext q n.next

/-- What points back to a node is made to point back past it. -/
def unlinkPrev (s : LinkedList) (n : Node) : Except ListStop LinkedList :=
  match n.next with
  | none => .ok { s with last := n.prev }
  | some q => s.setPrev q n.prev

def linkedListRemove (s : LinkedList) (node : Option Ptr) : Except ListStop LinkedList := do
  match node with
  | none => return s
  | some p =>
    let n ← s.deref p
    let s ← unlinkNext s n
    let n ← s.deref p
    let s ← unlinkPrev s n
    let s ← decrementFrom s s.brk s.first
    return { s with length := s.length - 1 }.setNode p none

end UnionCollegeCode.OS161.ConcurrentList
