import Mathlib.Data.Multiset.AddSub
import UnionCollegeCode.Lib.Monitor
import UnionCollegeCode.OS161.ConcurrentList.Representation

/-!
# `shared_buffer/shared_buffer.c`

Producers and consumers around a counted list. Both functions have the shape of a monitor's
operations: `sb_lock` is the lock, `producer_cv` and `consumer_cv` the conditions. The list has a
lock of its own, but every call of a list function here is made with `sb_lock` in hand and finds it
free.
-/

set_option autoImplicit false

namespace UnionCollegeCode.OS161

open Lib.Monitor Lib.Run ConcurrentList

structure SharedBuffer where
  bufferLl : ConcurrentList.LinkedList
  count : ℤ
  bufferSize : ℤ

/-- `ok` tells whether the call's `kmalloc` finds memory. -/
inductive BufferCall
  | produce (ok : Bool) (c : Data)
  | consume (ok : Bool)
  deriving DecidableEq, Repr

inductive BufferCv
  | producerCv
  | consumerCv
  deriving DecidableEq, Repr

namespace SharedBuffer

/-- What `shared_buffer_create` fills a buffer in with. -/
def sharedBufferCreate (bufferSize : ℤ) : SharedBuffer :=
  ⟨ConcurrentList.linkedListCreate, 0, bufferSize⟩

def assert (p : Prop) [Decidable p] (expr : String) : Except ListStop Unit :=
  if p then .ok () else .error (.kassert expr)

/-- `shared_buffer_produce`, past its loop. -/
def sharedBufferProduce (b : SharedBuffer) (ok : Bool) (c : Data) :
    Except ListStop (Data × SharedBuffer) := do
  assert (b.count < b.bufferSize) "buffer->count < buffer->BUFFER_SIZE"
  let l ← linkedListPrepend b.bufferLl ok c
  return (none, { b with bufferLl := l, count := b.count + 1 })

/-- `shared_buffer_consume`, past its loop. A `NULL` key is written to if the list is not empty. -/
def sharedBufferConsume (b : SharedBuffer) (ok : Bool) :
    Except ListStop (Data × SharedBuffer) := do
  assert (b.count > 0) "buffer->count > 0"
  let (removed, l) ← linkedListRemoveHead b.bufferLl
  if ok = false ∧ removed ≠ none then
    throw .fault
  return (removed.bind Prod.snd, { b with bufferLl := l, count := b.count - 1 })

def client : Client SharedBuffer BufferCall Data BufferCv ListStop where
  enter := fun _ => .ok ()
  guard := fun k b =>
    match k with
    | .produce _ _ => b.count = b.bufferSize
    | .consume _ => b.count = 0
  cond := fun k =>
    match k with
    | .produce _ _ => .producerCv
    | .consume _ => .consumerCv
  body := fun k b =>
    match k with
    | .produce ok c => b.sharedBufferProduce ok c
    | .consume ok => b.sharedBufferConsume ok
  signals := fun k =>
    match k with
    | .produce _ _ => .consumerCv
    | .consume _ => .producerCv

abbrev Run := State SharedBuffer BufferCall Data BufferCv ListStop

/-- The items put in, in the order of the lock. -/
def produced (log : List (BufferCall × Data)) : List Data :=
  log.filterMap fun e =>
    match e.1 with
    | .produce _ c => some c
    | .consume _ => none

/-- The items handed out, in the order of the lock. -/
def consumed (log : List (BufferCall × Data)) : List Data :=
  log.filterMap fun e =>
    match e.1 with
    | .produce _ _ => none
    | .consume _ => some e.2

/-- The item of a node. -/
def item (e : Entry) : Data := e.2.2

/-- The buffer is counted and within its size, and nothing is lost or there twice. -/
structure Stored (b : SharedBuffer) (log : List (BufferCall × Data)) (l : List Entry) : Prop where
  represents : Represents layout b.bufferLl l
  count : b.count = l.length
  bound : b.count ≤ b.bufferSize
  items : (produced log : Multiset Data) = consumed log + (l.map item : Multiset Data)

/-- What is free for the calls that wait for each condition. -/
def avail : BufferCv → SharedBuffer → ℕ
  | .producerCv, b => (b.bufferSize - b.count).toNat
  | .consumerCv, b => b.count.toNat

variable {b b' : SharedBuffer} {log : List (BufferCall × Data)} {ok : Bool} {c r : Data}

theorem stored_create {size : ℤ} (h : 1 ≤ size) : ∃ l, Stored (sharedBufferCreate size) [] l :=
  ⟨[], represents_create, rfl, by simp [sharedBufferCreate]; omega, rfl⟩

theorem assert_pos {p : Prop} [Decidable p] {expr : String} (h : p) : assert p expr = .ok () :=
  if_pos h

/-- Past its loop `shared_buffer_produce` passes its `KASSERT`; with memory it puts its item in. -/
theorem Stored.produce {l : List Entry} (h : Stored b log l) (hg : b.count ≠ b.bufferSize)
    (c : Data) : (∃ b', b.sharedBufferProduce true c = .ok (none, b') ∧
        (∃ l', Stored b' (log ++ [(.produce true c, none)]) l') ∧ b'.count = b.count + 1 ∧
        b'.bufferSize = b.bufferSize) ∧
      b.sharedBufferProduce false c = .error .fault := by
  have hlt : b.count < b.bufferSize := Int.lt_iff_le_and_ne.mpr ⟨h.bound, hg⟩
  constructor
  · obtain ⟨s', hs', hrep⟩ := h.represents.prepend c
    refine ⟨{ b with bufferLl := s', count := b.count + 1 }, ?_, ⟨_, hrep, ?_, hlt, ?_⟩, rfl, rfl⟩
    · simp only [sharedBufferProduce, assert_pos hlt, hs', ok_bind]
      rfl
    · show b.count + 1 = _
      rw [h.count]
      rfl
    · have hitems := h.items
      simp only [produced, consumed, List.filterMap_append] at hitems ⊢
      show ((_ ++ [c] : List Data) : Multiset Data) = ((_ ++ [] : List Data) : Multiset Data) +
        (c ::ₘ (l.map item : Multiset Data))
      rw [← Multiset.coe_add, hitems, List.append_nil, Multiset.add_assoc]
      exact congrArg _ (Multiset.add_comm _ _)
  · simp only [sharedBufferProduce, assert_pos hlt, h.represents.prepend_noMemory, ok_bind]
    rfl

/-- Past its loop `shared_buffer_consume` finds an item; with memory for its key it hands it out. -/
theorem Stored.consume {l : List Entry} (h : Stored b log l) (hg : b.count ≠ 0) :
    (∃ b' r, b.sharedBufferConsume true = .ok (r, b') ∧
        (∃ l', Stored b' (log ++ [(.consume true, r)]) l') ∧ b'.count = b.count - 1 ∧
        b'.bufferSize = b.bufferSize) ∧
      b.sharedBufferConsume false = .error .fault := by
  have hcount := h.count
  cases l with
  | nil => exact absurd hcount hg
  | cons e l =>
    have hpos : b.count > 0 := by
      rw [hcount]
      simp
    obtain ⟨s', hs', hrep⟩ := h.represents.removeHead_cons
    constructor
    · refine ⟨{ b with bufferLl := s', count := b.count - 1 }, e.2.2, ?_, ⟨l, hrep, ?_, ?_, ?_⟩, rfl,
        rfl⟩
      · simp only [sharedBufferConsume, assert_pos hpos, hs', ok_bind]
        rfl
      · show b.count - 1 = _
        rw [hcount]
        simp
      · show b.count - 1 ≤ b.bufferSize
        have := h.bound
        omega
      · have hitems := h.items
        simp only [produced, consumed, List.filterMap_append] at hitems ⊢
        show ((_ ++ [] : List Data) : Multiset Data) = ((_ ++ [e.2.2] : List Data) : Multiset Data) +
          (l.map item : Multiset Data)
        rw [List.append_nil, hitems, ← Multiset.coe_add, Multiset.add_assoc]
        rfl
    · simp only [sharedBufferConsume, assert_pos hpos, hs', ok_bind]
      rfl

/-! ## Every run -/

/-- The store invariant of a buffer of a size. -/
def Sound (size : ℤ) (b : SharedBuffer) (log : List (BufferCall × Data)) : Prop :=
  b.bufferSize = size ∧ ∃ l, Stored b log l

variable {size : ℤ} {k : BufferCall}

/-- A body that comes to its end changes the count by one, the way its call says. -/
theorem Sound.body (h : Sound size b log) (hg : client.guard k b = false)
    (hr : client.body k b = .ok (r, b')) : Sound size b' (log ++ [(k, r)]) ∧
      b'.count = (match k with
        | .produce _ _ => b.count + 1
        | .consume _ => b.count - 1) := by
  obtain ⟨hsize, l, h⟩ := h
  cases k with
  | produce ok c =>
    obtain ⟨⟨b₁, hb₁, hstored, hcount, hsame⟩, hfail⟩ := h.produce (by simpa [client] using hg) c
    cases ok with
    | false => cases hfail.symm.trans hr
    | true =>
      cases hb₁.symm.trans hr
      exact ⟨⟨hsame.trans hsize, hstored⟩, hcount⟩
  | consume ok =>
    obtain ⟨⟨b₁, r₁, hb₁, hstored, hcount, hsame⟩, hfail⟩ := h.consume (by simpa [client] using hg)
    cases ok with
    | false => cases hfail.symm.trans hr
    | true =>
      cases hb₁.symm.trans hr
      exact ⟨⟨hsame.trans hsize, hstored⟩, hcount⟩

/-- The only error of a body past its loop is an allocation that failed. -/
theorem Sound.body_error {e : ListStop} (h : Sound size b log) (hg : client.guard k b = false)
    (he : client.body k b = .error e) : e = .fault := by
  obtain ⟨-, l, h⟩ := h
  cases k with
  | produce ok c =>
    obtain ⟨⟨b₁, hb₁, -⟩, hfail⟩ := h.produce (by simpa [client] using hg) c
    cases ok with
    | false =>
      cases hfail.symm.trans he
      rfl
    | true => cases hb₁.symm.trans he
  | consume ok =>
    obtain ⟨⟨b₁, r₁, hb₁, -⟩, hfail⟩ := h.consume (by simpa [client] using hg)
    cases ok with
    | false =>
      cases hfail.symm.trans he
      rfl
    | true => cases hb₁.symm.trans he

theorem Sound.range (h : Sound size b log) : 0 ≤ b.count ∧ b.count ≤ size := by
  obtain ⟨hsize, l, h⟩ := h
  have hcount := h.count
  have hbound := h.bound
  omega

theorem keeps_sound : State.Keeps client (Sound size) := fun _ _ _ _ _ h hg hr => (h.body hg hr).1

/-- Each call takes one of what its condition counts, and gives one for the other. -/
theorem counts_avail : State.Counts client (Sound size) avail where
  waits := fun k b log h hg => by
    cases k with
    | produce ok c =>
      have : b.count = b.bufferSize := by simpa [client] using hg
      simp [avail, client, this]
    | consume ok =>
      have : b.count = 0 := by simpa [client] using hg
      simp [avail, client, this]
  takes := fun k b log r b' h hg hr => by
    obtain ⟨h', hcount⟩ := h.body hg hr
    have hrange := h.range
    have hrange' := h'.range
    have hsize := h.1
    have hsize' := h'.1
    cases k with
    | produce ok c =>
      simp only [avail, client] at hcount ⊢
      omega
    | consume ok =>
      simp only [avail, client] at hcount ⊢
      omega
  gives := fun k b log r b' h hg hr => by
    obtain ⟨h', hcount⟩ := h.body hg hr
    have hrange := h.range
    have hsize := h.1
    have hsize' := h'.1
    cases k with
    | produce ok c =>
      simp only [avail, client] at hcount ⊢
      omega
    | consume ok =>
      simp only [avail, client] at hcount ⊢
      omega
  others := fun k b log r b' c h hg hr hc hc' => by
    cases k <;> cases c <;> simp [client] at hc hc'

/-- What is promised of a buffer of a size. -/
structure BufferSafe (size : ℤ) (m : Run) : Prop where
  counted : ∃ l, Represents layout m.store.bufferLl l ∧ m.store.count = l.length ∧
    (produced m.log : Multiset Data) = consumed m.log + (l.map item : Multiset Data)
  range : 0 ≤ m.store.count ∧ m.store.count ≤ size
  asserts_hold : ∀ expr, m.down ≠ some (.kassert expr)
  /-- With consumers waiting there are as many on their way as there are items. -/
  consumers_not_stranded : m.waiters .consumerCv ≠ [] → ∃ S : Finset ℕ,
    (∀ t ∈ S, State.Signalled client m .consumerCv t) ∧ m.store.count ≤ S.card
  producers_not_stranded : m.waiters .producerCv ≠ [] → ∃ S : Finset ℕ,
    (∀ t ∈ S, State.Signalled client m .producerCv t) ∧ size - m.store.count ≤ S.card

/-- **The shared buffer is safe and strands nobody**, for any producers and consumers in any
order. -/
theorem sharedBuffer_safe (size : ℤ) (hsize : 1 ≤ size) (as : List (Lib.Monitor.Action BufferCall)) :
    Along (State.step client) (BufferSafe size) (.start (sharedBufferCreate size)) as := by
  have hstart : Sound size (sharedBufferCreate size) [] := ⟨rfl, stored_create hsize⟩
  have hrun := State.along_running keeps_sound counts_avail hstart as
  have hdown := State.along_down (fun e => e ≠ .fault) keeps_sound (fun k e he => by cases he)
    (fun k b log e h hg he => not_not.mpr (h.body_error hg he)) hstart as
  refine (hrun.and hdown).mono fun m h => ?_
  obtain ⟨hm, hd⟩ := h
  obtain ⟨hsz, l, hstored⟩ := hm.store
  refine ⟨⟨l, hstored.represents, hstored.count, hstored.items⟩, hm.store.range, fun expr he => ?_,
    fun hw => ?_, fun hw => ?_⟩
  · exact hd _ he ListStop.noConfusion
  · obtain ⟨S, hS, hcard⟩ := hm.notStranded _ hw
    refine ⟨S, hS, ?_⟩
    simp only [avail] at hcard
    omega
  · obtain ⟨S, hS, hcard⟩ := hm.notStranded _ hw
    refine ⟨S, hS, ?_⟩
    simp only [avail] at hcard
    omega

/-- A consumer that finds the buffer of the test empty, and the producer that wakes it. -/
theorem sharedBuffer_safe_five : Along (State.step client) (BufferSafe 5)
    (.start (sharedBufferCreate 5)) [.call 0 (.consume true), .run 0, .run 0,
      .call 1 (.produce true (some 65)), .run 1, .run 1, .run 0, .run 1, .run 0] :=
  sharedBuffer_safe 5 (by decide) _

end SharedBuffer

end UnionCollegeCode.OS161
