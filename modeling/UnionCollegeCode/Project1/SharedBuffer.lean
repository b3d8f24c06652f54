import UnionCollegeCode.Lib.Monitor
import UnionCollegeCode.Project1.LinkedList

/-!
# `shared_buffer/shared_buffer.c` of the first project

The same monitor as the later shared buffer, around a list that grows at its end: what is consumed
is what was produced, in that order.
-/

set_option autoImplicit false

namespace UnionCollegeCode.Project1

open Lib.Monitor Lib.Run
open OS161.ConcurrentList (LinkedList Data ListStop Represents ok_bind represents_create)

structure SharedBuffer where
  buffList : LinkedList
  counter : ℤ
  maxBufferLength : ℤ

/-- `ok` tells whether the call's `kmalloc` finds memory. -/
inductive BufferCall
  | produce (ok : Bool) (data : Data)
  | consume (ok : Bool)
  deriving DecidableEq, Repr

inductive BufferCv
  | prodCv
  | conCv
  deriving DecidableEq, Repr

namespace SharedBuffer

def sharedBufferCreate (buffLen : ℤ) : Except ListStop SharedBuffer := do
  assert (buffLen > 0) "buff_len > 0"
  return ⟨OS161.ConcurrentList.linkedListCreate, 0, buffLen⟩

/-- `produce`, past its loop. -/
def produce (sb : SharedBuffer) (ok : Bool) (data : Data) :
    Except ListStop (Data × SharedBuffer) := do
  let l ← linkedListPostpend sb.buffList ok data
  return (none, { sb with buffList := l, counter := sb.counter + 1 })

/-- `consume`, past its loop. -/
def consume (sb : SharedBuffer) (ok : Bool) : Except ListStop (Data × SharedBuffer) := do
  let (out, l) ← linkedListRemoveHead sb.buffList ok
  return (out, { sb with buffList := l, counter := sb.counter - 1 })

def client : Client SharedBuffer BufferCall Data BufferCv ListStop where
  enter := fun k =>
    match k with
    | .produce _ data => assert (data ≠ none) "data!=NULL"
    | .consume _ => .ok ()
  guard := fun k sb =>
    match k with
    | .produce _ _ => sb.counter = sb.maxBufferLength
    | .consume _ => sb.counter = 0
  cond := fun k =>
    match k with
    | .produce _ _ => .prodCv
    | .consume _ => .conCv
  body := fun k sb =>
    match k with
    | .produce ok data => sb.produce ok data
    | .consume ok => sb.consume ok
  signals := fun k =>
    match k with
    | .produce _ _ => .conCv
    | .consume _ => .prodCv

abbrev Run := State SharedBuffer BufferCall Data BufferCv ListStop

/-- The items put in, in the order in which the producers had the lock. -/
def produced (log : List (BufferCall × Data)) : List Data :=
  log.filterMap fun e =>
    match e.1 with
    | .produce _ data => some data
    | .consume _ => none

/-- The items handed out, in the order in which the consumers had the lock. -/
def consumed (log : List (BufferCall × Data)) : List Data :=
  log.filterMap fun e =>
    match e.1 with
    | .produce _ _ => none
    | .consume _ => some e.2

/-- The list holds what was produced and is not yet consumed, in order. -/
structure Stored (sb : SharedBuffer) (log : List (BufferCall × Data)) (l : List Item) : Prop where
  represents : Represents layout sb.buffList l
  counter : sb.counter = l.length
  bound : sb.counter ≤ sb.maxBufferLength
  fifo : produced log = consumed log ++ l.map Prod.snd

variable {sb sb' : SharedBuffer} {log : List (BufferCall × Data)} {l : List Item} {r : Data}

/-- A producer past its loop: with an item and memory for its node, the item comes last. -/
theorem Stored.produce (h : Stored sb log l) (hg : sb.counter ≠ sb.maxBufferLength) {ok : Bool}
    {data : Data} (hr : sb.produce ok data = .ok (r, sb')) :
    (∃ l', Stored sb' (log ++ [(.produce ok data, r)]) l') ∧
      sb'.maxBufferLength = sb.maxBufferLength := by
  cases data with
  | none => cases hr
  | some item =>
    cases ok with
    | false =>
      rw [SharedBuffer.produce, postpend_noMemory (fun _ => rfl) h.represents] at hr
      cases hr
    | true =>
      obtain ⟨s', hs', hrep⟩ := postpend_spec h.represents item
      rw [SharedBuffer.produce, hs'] at hr
      cases hr
      refine ⟨⟨_, hrep, ?_, Int.lt_iff_le_and_ne.mpr ⟨h.bound, hg⟩, ?_⟩, rfl⟩
      · show sb.counter + 1 = _
        rw [h.counter]
        simp
      · have hfifo := h.fifo
        simp only [produced, consumed, List.filterMap_append, List.map_append] at hfifo ⊢
        show _ ++ [some item] = (_ ++ []) ++ (l.map Prod.snd ++ [some item])
        rw [hfifo, List.append_nil, List.append_assoc]

/-- A consumer past its loop takes the first item. -/
theorem Stored.consume (h : Stored sb log l) (hg : sb.counter ≠ 0) {ok : Bool}
    (hr : sb.consume ok = .ok (r, sb')) :
    (∃ l', Stored sb' (log ++ [(.consume ok, r)]) l') ∧
      sb'.maxBufferLength = sb.maxBufferLength := by
  have hcounter := h.counter
  cases l with
  | nil => exact absurd hcounter hg
  | cons e l =>
    cases ok with
    | false => cases hr
    | true =>
      obtain ⟨s', hs', hrep⟩ := removeHead_spec h.represents
      rw [SharedBuffer.consume, hs'] at hr
      cases hr
      refine ⟨⟨l, hrep, ?_, ?_, ?_⟩, rfl⟩
      · show sb.counter - 1 = _
        rw [hcounter]
        simp
      · show sb.counter - 1 ≤ sb.maxBufferLength
        exact Int.le_trans (Int.sub_le_self _ (by decide)) h.bound
      · have hfifo := h.fifo
        simp only [produced, consumed, List.filterMap_append] at hfifo ⊢
        show _ ++ [] = (_ ++ [e.2]) ++ l.map Prod.snd
        rw [hfifo, List.append_nil, List.append_assoc]
        rfl

/-- The store invariant of a buffer of a length. -/
def Sound (buffLen : ℤ) (sb : SharedBuffer) (log : List (BufferCall × Data)) : Prop :=
  sb.maxBufferLength = buffLen ∧ ∃ l, Stored sb log l

theorem keeps_sound (buffLen : ℤ) : State.Keeps client (Sound buffLen) := by
  rintro k sb r sb' log ⟨hlen, l, h⟩ hg hr
  cases k with
  | produce ok data =>
    obtain ⟨hstored, hsame⟩ := h.produce (by simpa [client] using hg) hr
    exact ⟨hsame.trans hlen, hstored⟩
  | consume ok =>
    obtain ⟨hstored, hsame⟩ := h.consume (by simpa [client] using hg) hr
    exact ⟨hsame.trans hlen, hstored⟩

theorem sound_create {buffLen : ℤ} (h : sharedBufferCreate buffLen = .ok sb) :
    Sound buffLen sb [] := by
  rw [sharedBufferCreate, assert] at h
  split at h
  · next hpos =>
    cases h
    exact ⟨rfl, [], represents_create, rfl, Int.le_of_lt hpos, rfl⟩
  · cases h

/-- What is promised of a buffer of a length. -/
structure Fifo (buffLen : ℤ) (m : Run) : Prop where
  prefix_of : consumed m.log <+: produced m.log
  /-- The list is what is left over. -/
  remainder : ∃ l, Represents layout m.store.buffList l ∧
    produced m.log = consumed m.log ++ l.map Prod.snd ∧ m.store.counter = l.length ∧
    (l.length : ℤ) ≤ buffLen

/-- **The buffer is first in, first out**, for any producers and consumers in any order. -/
theorem sharedBuffer_fifo (buffLen : ℤ) (sb : SharedBuffer)
    (hcreate : sharedBufferCreate buffLen = .ok sb) (as : List (Lib.Monitor.Action BufferCall)) :
    Along (State.step client) (Fifo buffLen) (.start sb) as := by
  refine (State.along_store (keeps_sound buffLen) (sound_create hcreate) as).mono fun m h => ?_
  obtain ⟨hlen, l, h⟩ := h
  refine ⟨⟨_, h.fifo.symm⟩, l, h.represents, h.fifo, h.counter, ?_⟩
  rw [← h.counter, ← hlen]
  exact h.bound

/-- A full buffer of one: the second producer waits until the consumer has been. -/
theorem sharedBuffer_fifo_one : Along (State.step client) (Fifo 1)
    (.start ⟨OS161.ConcurrentList.linkedListCreate, 0, 1⟩) [.call 0 (.produce true (some 97)),
      .run 0, .run 0, .run 0, .call 1 (.produce true (some 98)), .run 1, .run 1,
      .call 2 (.consume true), .run 2, .run 2, .run 2, .run 1, .run 1] :=
  sharedBuffer_fifo 1 _ rfl _

end SharedBuffer

end UnionCollegeCode.Project1
