import Mathlib.Data.Nat.Notation
import Mathlib.Logic.Function.Basic

/-!
# Chains of heap nodes

A node of type `ν` carries a value and a pointer to the next one; what it knows of the node before
it is up to its `Layout`: everything in a doubly linked list, nothing in a singly linked one.
`Segment` says that a stretch of the heap is a chain with these addresses and values, between a node
before it and a node after it. A chain is cut anywhere (`segment_append`), and a write elsewhere
does not touch it (`Segment.update`).
-/

set_option autoImplicit false

namespace Lib.LinkedChain

open Function (update)

structure Layout (ν α : Type) where
  /-- What a node knows of the one before it. -/
  back : Option ℕ → ν → Prop
  next : ν → Option ℕ
  val : ν → α

variable {ν α : Type} {L : Layout ν α} {heap heap' : ℕ → Option ν}
  {prev first next last : Option ℕ} {l l' : List (ℕ × α)} {p : ℕ} {a : α}

/-- From `first` the nodes of `l` follow each other up to `next`; `prev` is before them, and `last`
is the last of them, or `prev` if there is none. -/
def Segment (L : Layout ν α) (heap : ℕ → Option ν) :
    Option ℕ → Option ℕ → List (ℕ × α) → Option ℕ → Option ℕ → Prop
  | prev, first, [], next, last => first = next ∧ last = prev
  | prev, first, (p, a) :: l, next, last =>
    first = some p ∧ ∃ n, heap p = some n ∧ L.val n = a ∧ L.back prev n ∧
      Segment L heap (some p) (L.next n) l next last

theorem segment_append : Segment L heap prev first (l ++ l') next last ↔
    ∃ f m, Segment L heap prev first l f m ∧ Segment L heap m f l' next last := by
  induction l generalizing prev first with
  | nil =>
    constructor
    · intro h
      exact ⟨first, prev, ⟨rfl, rfl⟩, h⟩
    · rintro ⟨f, m, ⟨rfl, rfl⟩, h⟩
      exact h
  | cons e l ih =>
    obtain ⟨p, a⟩ := e
    constructor
    · rintro ⟨hfirst, n, hn, hval, hback, h⟩
      obtain ⟨f, m, hl, hl'⟩ := ih.mp h
      exact ⟨f, m, ⟨hfirst, n, hn, hval, hback, hl⟩, hl'⟩
    · rintro ⟨f, m, ⟨hfirst, n, hn, hval, hback, hl⟩, hl'⟩
      exact ⟨hfirst, n, hn, hval, hback, ih.mpr ⟨f, m, hl, hl'⟩⟩

/-- A chain is where it was in any heap that agrees on its nodes. -/
theorem Segment.congr (hheap : ∀ q ∈ l.map Prod.fst, heap' q = heap q)
    (h : Segment L heap prev first l next last) : Segment L heap' prev first l next last := by
  induction l generalizing prev first with
  | nil => exact h
  | cons e l ih =>
    obtain ⟨p, a⟩ := e
    obtain ⟨hfirst, n, hn, hval, hback, h⟩ := h
    refine ⟨hfirst, n, ?_, hval, hback, ih (fun q hq => hheap q (List.mem_cons_of_mem _ hq)) h⟩
    rw [hheap p List.mem_cons_self, hn]

theorem Segment.update {n : Option ν} (hp : p ∉ l.map Prod.fst)
    (h : Segment L heap prev first l next last) :
    Segment L (update heap p n) prev first l next last := by
  refine h.congr fun q hq => Function.update_of_ne ?_ _ _
  rintro rfl
  exact hp hq

/-- The first pointer of a chain that ends in `NULL` is `NULL` exactly when the chain is empty. -/
theorem Segment.first_eq_none (h : Segment L heap prev first l none last) :
    first = none ↔ l = [] := by
  cases l with
  | nil => exact ⟨fun _ => rfl, fun _ => h.1⟩
  | cons e l =>
    obtain ⟨hfirst, -⟩ := h
    simp [hfirst]

theorem Segment.last_eq_none (h : Segment L heap none first l next last) :
    last = none ↔ l = [] := by
  rcases List.eq_nil_or_concat l with rfl | ⟨l, e, rfl⟩
  · exact ⟨fun _ => rfl, fun _ => h.2⟩
  · rw [List.concat_eq_append] at h
    obtain ⟨f, m, -, hlast⟩ := segment_append.mp h
    obtain ⟨-, n, -, -, -, -, hlast⟩ := hlast
    simp [hlast]

/-! ## Links at the ends -/

variable {prev' next' last' : Option ℕ} {n n' : ν}

/-- The last node is made to point elsewhere. -/
theorem Segment.relinkLast (h : Segment L heap prev first (l ++ [(p, a)]) next last)
    (hn : heap p = some n) (hp : p ∉ l.map Prod.fst) (hval : L.val n' = L.val n)
    (hback : ∀ b, L.back b n → L.back b n') (hnext : L.next n' = next') :
    Segment L (Function.update heap p (some n')) prev first (l ++ [(p, a)]) next' last := by
  obtain ⟨f, m, hl, hf, k, hk, hka, hkback, -, hlast⟩ := segment_append.mp h
  obtain rfl := Option.some.inj (hn.symm.trans hk)
  exact segment_append.mpr ⟨f, m, hl.update hp, hf, n', Function.update_self .., hval.trans hka,
    hback m hkback, hnext, hlast⟩

/-- The first node is told of another one before it. -/
theorem Segment.relinkFirst (h : Segment L heap prev first ((p, a) :: l) next last)
    (hn : heap p = some n) (hp : p ∉ l.map Prod.fst) (hval : L.val n' = L.val n)
    (hback : L.back prev' n') (hnext : L.next n' = L.next n) :
    Segment L (Function.update heap p (some n')) prev' first ((p, a) :: l) next last := by
  obtain ⟨hf, k, hk, hka, -, hl⟩ := h
  obtain rfl := Option.some.inj (hn.symm.trans hk)
  rw [← hnext] at hl
  exact ⟨hf, n', Function.update_self .., hval.trans hka, hback, hl.update hp⟩

/-! ## Writes in the middle -/

variable {l₁ l₂ : List (ℕ × α)} {q r : ℕ} {a' b c : α} {np nq nr np' nq' nr' : ν}

/-- A node gets another value, and keeps its links. -/
theorem Segment.setValue (h : Segment L heap prev first (l₁ ++ (p, a) :: l₂) next last)
    (hnodup : ((l₁ ++ (p, a) :: l₂).map Prod.fst).Nodup) (hp : heap p = some np)
    (hval : L.val np' = a') (hback : ∀ m, L.back m np → L.back m np')
    (hnext : L.next np' = L.next np) :
    Segment L (Function.update heap p (some np')) prev first (l₁ ++ (p, a') :: l₂) next last := by
  simp only [List.map_append, List.map_cons, List.nodup_append, List.nodup_cons,
    List.mem_cons] at hnodup
  obtain ⟨-, ⟨hp₂, -⟩, hdisjoint⟩ := hnodup
  have hp₁ : p ∉ l₁.map Prod.fst := fun hmem => hdisjoint p hmem p (.inl rfl) rfl
  obtain ⟨f, m, hl₁, hf, n, hn, -, hm, hl₂⟩ := segment_append.mp h
  obtain rfl := Option.some.inj (hp.symm.trans hn)
  rw [← hnext] at hl₂
  exact segment_append.mpr ⟨f, m, hl₁.update hp₁, hf, np', Function.update_self .., hval,
    hback m hm, hl₂.update hp₂⟩

/-- The neighbours of a node are linked to each other. -/
theorem Segment.bypass
    (h : Segment L heap prev first (l₁ ++ (q, b) :: (p, a) :: (r, c) :: l₂) next last)
    (hnodup : ((l₁ ++ (q, b) :: (p, a) :: (r, c) :: l₂).map Prod.fst).Nodup)
    (hq : heap q = some nq) (hr : heap r = some nr)
    (hqval : L.val nq' = L.val nq) (hqback : ∀ m, L.back m nq → L.back m nq')
    (hqnext : L.next nq' = some r)
    (hrval : L.val nr' = L.val nr) (hrback : L.back (some q) nr') (hrnext : L.next nr' = L.next nr) :
    Segment L (Function.update (Function.update heap q (some nq')) r (some nr')) prev first
      (l₁ ++ (q, b) :: (r, c) :: l₂) next last := by
  obtain ⟨f, m, hl₁, hf, n, hn, hb, hm, hf', n', hn', -, -, hf'', n'', hn'', hc, -, hl₂⟩ :=
    segment_append.mp h
  obtain rfl := Option.some.inj (hq.symm.trans hn)
  obtain rfl := Option.some.inj (hr.symm.trans hn'')
  simp only [List.map_append, List.map_cons, List.nodup_append, List.nodup_cons, List.mem_cons,
    not_or] at hnodup
  obtain ⟨-, ⟨⟨-, hqr, hql₂⟩, -, hrl₂, -⟩, hdisjoint⟩ := hnodup
  have hql₁ : q ∉ l₁.map Prod.fst := fun hmem => hdisjoint q hmem q (.inl rfl) rfl
  have hrl₁ : r ∉ l₁.map Prod.fst := fun hmem => hdisjoint r hmem r (.inr (.inr (.inl rfl))) rfl
  rw [← hrnext] at hl₂
  refine segment_append.mpr ⟨f, m, (hl₁.update hql₁).update hrl₁, hf, nq', ?_, hqval.trans hb,
    hqback m hm, hqnext, nr', Function.update_self .., hrval.trans hc, hrback,
    (hl₂.update hql₂).update hrl₂⟩
  rw [Function.update_of_ne hqr, Function.update_self]

/-- A node that is linked between two neighbours. -/
theorem Segment.splice
    (h : Segment L heap prev first (l₁ ++ (q, b) :: (r, c) :: l₂) next last)
    (hnodup : ((l₁ ++ (q, b) :: (p, a) :: (r, c) :: l₂).map Prod.fst).Nodup)
    (hq : heap q = some nq) (hr : heap r = some nr)
    (hpval : L.val np' = a) (hpback : L.back (some q) np') (hpnext : L.next np' = some r)
    (hqval : L.val nq' = L.val nq) (hqback : ∀ m, L.back m nq → L.back m nq')
    (hqnext : L.next nq' = some p)
    (hrval : L.val nr' = L.val nr) (hrback : L.back (some p) nr') (hrnext : L.next nr' = L.next nr) :
    Segment L (Function.update (Function.update (Function.update heap p (some np')) q (some nq')) r
      (some nr')) prev first (l₁ ++ (q, b) :: (p, a) :: (r, c) :: l₂) next last := by
  obtain ⟨f, m, hl₁, hf, n, hn, hb, hm, hf', n', hn', hc, -, hl₂⟩ := segment_append.mp h
  obtain rfl := Option.some.inj (hq.symm.trans hn)
  obtain rfl := Option.some.inj (hr.symm.trans hn')
  simp only [List.map_append, List.map_cons, List.nodup_append, List.nodup_cons, List.mem_cons,
    not_or] at hnodup
  obtain ⟨-, ⟨⟨hqp, hqr, hql₂⟩, ⟨hpr, hpl₂⟩, hrl₂, -⟩, hdisjoint⟩ := hnodup
  have hql₁ : q ∉ l₁.map Prod.fst := fun hmem => hdisjoint q hmem q (.inl rfl) rfl
  have hpl₁ : p ∉ l₁.map Prod.fst := fun hmem => hdisjoint p hmem p (.inr (.inl rfl)) rfl
  have hrl₁ : r ∉ l₁.map Prod.fst := fun hmem => hdisjoint r hmem r (.inr (.inr (.inl rfl))) rfl
  rw [← hrnext] at hl₂
  refine segment_append.mpr ⟨f, m, ((hl₁.update hpl₁).update hql₁).update hrl₁, hf, nq', ?_,
    hqval.trans hb, hqback m hm, hqnext, np', ?_, hpval, hpback, hpnext, nr',
    Function.update_self .., hrval.trans hc, hrback,
    ((hl₂.update hpl₂).update hql₂).update hrl₂⟩
  · rw [Function.update_of_ne hqr, Function.update_self]
  · rw [Function.update_of_ne hpr, Function.update_of_ne (Ne.symm hqp), Function.update_self]

/-- A heap has one chain from a pointer to `NULL`. -/
theorem Segment.unique (h : Segment L heap prev first l none last)
    (h' : Segment L heap prev' first l' none last') : l = l' := by
  induction l generalizing prev prev' first l' with
  | nil =>
    cases l' with
    | nil => rfl
    | cons e l' =>
      have habs : none = some e.1 := h.1.symm.trans h'.1
      cases habs
  | cons e l ih =>
    cases l' with
    | nil =>
      have habs : some e.1 = none := h.1.symm.trans h'.1
      cases habs
    | cons e' l' =>
      obtain ⟨hf, n, hn, hval, -, hl⟩ := h
      obtain ⟨hf', n', hn', hval', -, hl'⟩ := h'
      have hp : e.1 = e'.1 := Option.some.inj (hf.symm.trans hf')
      rw [← hp] at hn'
      obtain rfl := Option.some.inj (hn.symm.trans hn')
      rw [ih hl hl', Prod.ext hp (hval.symm.trans hval')]

/-- A chain that ends has no node twice. -/
theorem Segment.nodup (h : Segment L heap prev first l none last) : (l.map Prod.fst).Nodup := by
  induction l generalizing prev first with
  | nil => exact List.nodup_nil
  | cons e l ih =>
    obtain ⟨p, a⟩ := e
    have hall := h
    obtain ⟨rfl, n, -, -, -, hl⟩ := h
    rw [List.map_cons, List.nodup_cons]
    refine ⟨?_, ih hl⟩
    -- Behind the second one the chain would go on as behind the first.
    intro hmem
    obtain ⟨⟨q, b⟩, hq, rfl⟩ := List.mem_map.mp hmem
    obtain ⟨l₁, l₂, rfl⟩ := List.append_of_mem hq
    obtain ⟨f, m, -, htail⟩ := segment_append.mp hl
    obtain rfl := htail.1
    have hlen := congrArg List.length (hall.unique htail)
    simp only [List.length_cons, List.length_append] at hlen
    omega

end Lib.LinkedChain
