import UnionCollegeCode.Project1.Insert

/-!
# The links of the first project's list

A list starts empty and its functions are called in any order. `linked_list_postpend` is the one that
breaks the links: to a list that has a node already it adds one whose `prev` stays `NULL`.
-/

set_option autoImplicit false

namespace UnionCollegeCode.Project1

open Function (update)
open Lib.LinkedChain
open OS161.ConcurrentList (LinkedList Node Data Ptr ListStop Represents Entry linkedListCreate prependKey
  ok_bind deref_ok linkable_layout represents_create)

/-- A call; `ok` is whether `kmalloc` finds memory in it, and `key` of `linked_list_remove_head` is
`false` for a `NULL`. -/
inductive ListCall
  | prepend (ok : Bool) (data : Data)
  | postpend (ok : Bool) (data : Data)
  | insert (ok : Bool) (key : ℤ) (data : Data)
  | removeHead (key : Bool)
  deriving DecidableEq, Repr

namespace ListCall

def run (s : LinkedList) : ListCall → Except ListStop LinkedList
  | .prepend ok data => linkedListPrepend s ok data
  | .postpend ok data => linkedListPostpend s ok data
  | .insert ok key data => linkedListInsert s ok key data
  | .removeHead key => (linkedListRemoveHead s key).map Prod.snd

/-- What `linked_list_remove_head` passes to `kfree` in a list of several nodes. -/
def freed (s : LinkedList) : Except ListStop (Option Ptr) := do
  let (_, n) ← derefFirst s
  let (_, m) ← derefFirst { s with first := n.next }
  return m.prev

/-- The nodes form one chain from `first` to `last`, each pointing back to the one before it, and
`length` is how many there are. -/
def Consistent (s : LinkedList) : Prop :=
  ∃ l : List Entry, Segment OS161.ConcurrentList.layout s.nodes none s.first l none s.last ∧
    s.length = l.length

/-- A call frees no pointer but one to a node. -/
def FreesNode (s : LinkedList) : ListCall → Prop
  | .removeHead true => 2 ≤ s.length → ∃ p n, freed s = .ok (some p) ∧ s.nodes p = some n
  | _ => True

/-- A call frees and dereferences nothing but nodes: it returns, or an assertion about its arguments
fails. -/
def Safe (s : LinkedList) (c : ListCall) : Prop :=
  c.FreesNode s ∧ ∀ e, c.run s = .error e → ∃ expr, e = .kassert expr

/-- The list is consistent before and after every call, and every call is safe. -/
def RunRight : List ListCall → LinkedList → Prop
  | [], s => Consistent s
  | c :: cs, s => Consistent s ∧ c.Safe s ∧ ∀ s', c.run s = .ok s' → RunRight cs s'

/-- There is memory for a new node, and `linked_list_postpend` finds no node there. An insert that
finds its key behind the first node needs no memory. -/
def Fits (s : LinkedList) : ListCall → Prop
  | .prepend ok data => data ≠ none → ok = true
  | .postpend ok data => data ≠ none → ok = true ∧ s.first = none
  | .insert ok key data => data ≠ none → ok = true ∨ ∃ l : List Entry,
      Segment OS161.ConcurrentList.layout s.nodes none s.first l none s.last ∧ finds key l = true
  | .removeHead _ => True

def RunFits : List ListCall → LinkedList → Prop
  | [], _ => True
  | c :: cs, s => c.Fits s ∧ ∀ s', c.run s = .ok s' → RunFits cs s'

/-! ## One call -/

variable {s : LinkedList} {l : List Entry} {c : ListCall}

theorem Consistent.of_represents (h : Represents OS161.ConcurrentList.layout s l) : Consistent s :=
  ⟨l, h.linked, h.length⟩

/-- A call is safe and leaves a list that represents something, unless an assertion fails. -/
def Keeps (s : LinkedList) (c : ListCall) : Prop :=
  c.Safe s ∧ ∀ s', c.run s = .ok s' → ∃ l' : List Entry, Represents OS161.ConcurrentList.layout s' l'

theorem keeps_of_ok {s' : LinkedList} (hfree : c.FreesNode s) (hrun : c.run s = .ok s')
    {l' : List Entry} (h' : Represents OS161.ConcurrentList.layout s' l') : c.Keeps s := by
  refine ⟨⟨hfree, fun e he => ?_⟩, fun t ht => ?_⟩
  · cases hrun.symm.trans he
  · cases hrun.symm.trans ht
    exact ⟨l', h'⟩

theorem keeps_of_kassert {expr : String} (hfree : c.FreesNode s)
    (hrun : c.run s = .error (.kassert expr)) : c.Keeps s := by
  refine ⟨⟨hfree, fun e he => ?_⟩, fun t ht => ?_⟩
  · cases hrun.symm.trans he
    exact ⟨expr, rfl⟩
  · cases hrun.symm.trans ht

/-- A call either runs into a fault or leaves an inconsistent list. -/
def Breaks (s : LinkedList) (c : ListCall) : Prop :=
  c.run s = .error .fault ∨ ∃ s', c.run s = .ok s' ∧ ¬ Consistent s'

/-- With an item it is the function of the later version. -/
theorem prepend_eq (s : LinkedList) (ok : Bool) (item : ℕ) :
    linkedListPrepend s ok (some item) = OS161.ConcurrentList.linkedListPrepend s ok (some item) := by
  unfold linkedListPrepend OS161.ConcurrentList.linkedListPrepend
  rw [assert_pos (Option.some_ne_none item), ok_bind]
  cases s.first <;> rfl

theorem prepend_keeps (h : Represents OS161.ConcurrentList.layout s l) (item : ℕ) :
    (prepend true (some item)).Keeps s := by
  obtain ⟨s', hs', h'⟩ := h.prepend (some item)
  exact keeps_of_ok trivial ((prepend_eq s true item).trans hs') h'

theorem prepend_breaks (h : Represents OS161.ConcurrentList.layout s l) (item : ℕ) :
    (prepend false (some item)).Breaks s :=
  .inl ((prepend_eq s false item).trans (h.prepend_noMemory (some item)))

theorem postpend_keeps (h : Represents OS161.ConcurrentList.layout s l) (hfirst : s.first = none)
    (item : ℕ) : (postpend true (some item)).Keeps s := by
  obtain rfl := h.linked.first_eq_none.mp hfirst
  exact keeps_of_ok trivial (postpend_nil hfirst item) (h.single linkable_layout 0 (some item))

theorem first_ne_brk (h : Represents OS161.ConcurrentList.layout s l) : s.first ≠ some s.brk := by
  intro hfirst
  cases l with
  | nil => cases hfirst.symm.trans h.linked.1
  | cons e l =>
    have hp : some s.brk = some e.1 := hfirst.symm.trans h.linked.1
    exact h.brk_not_mem (Option.some.inj hp ▸ List.mem_cons_self)

/-- The node before the new one is not what its `prev` says. -/
theorem postpend_inconsistent (h : Represents OS161.ConcurrentList.layout s l) {f : Ptr}
    (hfirst : s.first = some f) (item : ℕ) :
    ∃ s', linkedListPostpend s true (some item) = .ok s' ∧ ¬ Consistent s' := by
  rcases List.eq_nil_or_concat l with rfl | ⟨pre, r, rfl⟩
  · cases hfirst.symm.trans h.linked.1
  · rw [List.concat_eq_append] at h
    obtain ⟨f', n, hf', hrun, hn, hne⟩ := postpend_runner (fun _ => rfl) h
    refine ⟨_, postpend_append hf' hrun hn hne item, ?_⟩
    rintro ⟨l', hl', -⟩
    rcases List.eq_nil_or_concat l' with rfl | ⟨pre', r', rfl⟩
    · cases hl'.2
    · rw [List.concat_eq_append] at hl'
      obtain ⟨b, m, hpre', hb, k, hk, -, hback, -, hlast⟩ := segment_append.mp hl'
      obtain hlast : s.brk = r'.1 := Option.some.inj hlast
      replace hk : update (update s.nodes s.brk _) r.1 _ r'.1 = some k := hk
      rw [← hlast, Function.update_of_ne hne.symm, Function.update_self] at hk
      cases hk
      -- The new node has none before it, so it is all there is; but the old first node still is.
      obtain rfl := hpre'.last_eq_none.mp hback.symm
      exact first_ne_brk h (hpre'.1.trans (hb.trans (congrArg some hlast.symm)))

theorem postpend_breaks (h : Represents OS161.ConcurrentList.layout s l) {ok : Bool} (item : ℕ)
    (hfits : ¬ (postpend ok (some item)).Fits s) : (postpend ok (some item)).Breaks s := by
  cases ok with
  | false => exact .inl (postpend_noMemory (fun _ => rfl) h item)
  | true =>
    cases hfirst : s.first with
    | none => exact absurd (fun _ => ⟨rfl, hfirst⟩) hfits
    | some f => exact .inr (postpend_inconsistent h hfirst item)

/-- An insert that finds its key changes nothing, and another one has its node put in. -/
theorem insert_keeps (h : Represents OS161.ConcurrentList.layout s l) {ok : Bool} {key : ℤ}
    {item : ℕ} (hok : ok = true ∨ finds key l = true) : (insert ok key (some item)).Keeps s := by
  by_cases hfinds : finds key l = true
  · exact keeps_of_ok trivial (insert_found h hfinds ok item) h
  · obtain rfl := hok.resolve_right hfinds
    obtain ⟨s', hs', h'⟩ := insert_new linkable_layout h (Bool.not_eq_true _ ▸ hfinds) item
    exact keeps_of_ok trivial hs' h'

/-- The head of a list of several nodes: what is freed is the node itself. -/
theorem removeHead_several {e f : Entry}
    (h : Represents OS161.ConcurrentList.layout s (e :: f :: l)) :
    ∃ s', (removeHead true).run s = .ok s' ∧
      Represents OS161.ConcurrentList.layout s' (f :: l) ∧ freed s = .ok (some e.1) := by
  obtain ⟨hfirst, n, hn, -, -, hnext, m, hm, hmval, hback, hl⟩ := h.linked
  replace hnext : n.next = some f.1 := hnext
  replace hback : m.prev = some e.1 := hback
  obtain ⟨he, hnodup⟩ := List.nodup_cons.mp h.nodup
  have hef : f.1 ≠ e.1 := fun hp => he (hp ▸ List.mem_cons_self)
  have hel : e.1 ∉ l.map Prod.fst := fun hmem => he (List.mem_cons_of_mem _ hmem)
  have hlength : s.length = (l.length + 1 : ℕ) + 1 := h.length
  have hzero : s.length ≠ 0 := by omega
  have hone : s.length ≠ 1 := by omega
  refine ⟨⟨update (update s.nodes e.1 none) f.1 (some { m with prev := none }), some f.1, s.last,
    s.length - 1, s.brk⟩, ?_, ⟨⟨rfl, _, Function.update_self .., hmval, rfl,
      (hl.update hel).update (List.nodup_cons.mp hnodup).1⟩, ?_, hnodup,
      fun p hp => h.fresh p (List.mem_cons_of_mem _ hp)⟩, ?_⟩
  · simp [run, linkedListRemoveHead, assert_pos, ok_bind, hzero, hone, derefFirst, hfirst, hnext, free,
      hback, LinkedList.deref, hn, hm, hef, LinkedList.setPrev, LinkedList.setNode, pure, Except.pure,
      Except.map]
  · show s.length - 1 = _
    rw [hlength]
    exact Int.add_sub_cancel _ _
  · simp [freed, derefFirst, hfirst, LinkedList.deref, hn, hm, hnext, hback, ok_bind, pure, Except.pure]

theorem removeHead_keeps (h : Represents OS161.ConcurrentList.layout s l) (key : Bool) :
    (removeHead key).Keeps s := by
  cases key with
  | false => exact keeps_of_kassert trivial rfl
  | true =>
    have hlength := h.length
    cases l with
    | nil =>
      have hzero : s.length = 0 := hlength
      refine keeps_of_ok (fun hmany => by omega) ?_ h
      simp [run, linkedListRemoveHead, assert_pos, ok_bind, hzero, pure, Except.pure, Except.map]
    | cons e l =>
      cases l with
      | nil =>
        have hone : s.length = 1 := hlength
        obtain ⟨hfirst, n, hn, -⟩ := h.linked
        have hempty : Represents OS161.ConcurrentList.layout
            { s with first := none, last := none, length := 0 } ([] : List Entry) :=
          ⟨⟨rfl, rfl⟩, rfl, List.nodup_nil, fun p hp => absurd hp List.not_mem_nil⟩
        refine keeps_of_ok (fun hmany => by omega) ?_ hempty
        simp [run, linkedListRemoveHead, assert_pos, ok_bind, hone, derefFirst, hfirst, deref_ok hn,
          pure, Except.pure, Except.map]
      | cons f l =>
        obtain ⟨s', hs', h', hfreed⟩ := removeHead_several h
        obtain ⟨n, hn, -⟩ := exists_node h List.mem_cons_self
        exact keeps_of_ok (fun _ => ⟨e.1, n, hfreed, hn⟩) hs' h'

/-- A call that fits is safe and keeps the links. -/
theorem keeps_of_fits (h : Represents OS161.ConcurrentList.layout s l) (hfits : c.Fits s) :
    c.Keeps s := by
  cases c with
  | prepend ok data =>
    cases data with
    | none => exact keeps_of_kassert trivial rfl
    | some item =>
      obtain rfl := hfits (Option.some_ne_none item)
      exact prepend_keeps h item
  | postpend ok data =>
    cases data with
    | none => exact keeps_of_kassert trivial rfl
    | some item =>
      obtain ⟨rfl, hfirst⟩ := hfits (Option.some_ne_none item)
      exact postpend_keeps h hfirst item
  | insert ok key data =>
    cases data with
    | none => exact keeps_of_kassert trivial rfl
    | some item =>
      refine insert_keeps h ((hfits (Option.some_ne_none item)).imp_right ?_)
      rintro ⟨l', hl', hfinds⟩
      obtain rfl := h.linked.unique hl'
      exact hfinds
  | removeHead key => exact removeHead_keeps h key

/-- Any other call goes wrong at once. -/
theorem breaks_of_not_fits (h : Represents OS161.ConcurrentList.layout s l) (hfits : ¬ c.Fits s) :
    c.Breaks s := by
  cases c with
  | prepend ok data =>
    cases data with
    | none => exact absurd (fun hdata => absurd rfl hdata) hfits
    | some item =>
      cases ok with
      | false => exact prepend_breaks h item
      | true => exact absurd (fun _ => rfl) hfits
  | postpend ok data =>
    cases data with
    | none => exact absurd (fun hdata => absurd rfl hdata) hfits
    | some item => exact postpend_breaks h item hfits
  | insert ok key data =>
    cases data with
    | none => exact absurd (fun hdata => absurd rfl hdata) hfits
    | some item =>
      cases ok with
      | true => exact absurd (fun _ => .inl rfl) hfits
      | false =>
        refine .inl (insert_noMemory h (Bool.eq_false_iff.mpr fun hfinds => hfits fun _ => ?_) item)
        exact .inr ⟨l, h.linked, hfinds⟩
  | removeHead key => exact absurd trivial hfits

/-! ## Runs -/

theorem RunRight.consistent {cs : List ListCall} (h : RunRight cs s) : Consistent s := by
  cases cs with
  | nil => exact h
  | cons c cs => exact h.1

theorem runRight_iff_runFits (cs : List ListCall) : ∀ {s : LinkedList} {l : List Entry},
    Represents OS161.ConcurrentList.layout s l → (RunRight cs s ↔ RunFits cs s) := by
  induction cs with
  | nil => exact fun h => iff_of_true (.of_represents h) trivial
  | cons c cs ih =>
    intro s l h
    by_cases hfits : c.Fits s
    · obtain ⟨hsafe, hkeeps⟩ := keeps_of_fits h hfits
      constructor
      · rintro ⟨-, -, hright⟩
        refine ⟨hfits, fun s' hs' => ?_⟩
        obtain ⟨l', h'⟩ := hkeeps s' hs'
        exact (ih h').mp (hright s' hs')
      · rintro ⟨-, hrest⟩
        refine ⟨.of_represents h, hsafe, fun s' hs' => ?_⟩
        obtain ⟨l', h'⟩ := hkeeps s' hs'
        exact (ih h').mpr (hrest s' hs')
    · refine iff_of_false ?_ fun hright => hfits hright.1
      rintro ⟨-, hsafe, hright⟩
      obtain hfault | ⟨s', hs', hbroken⟩ := breaks_of_not_fits h hfits
      · obtain ⟨expr, hexpr⟩ := hsafe.2 _ hfault
        cases hexpr
      · exact hbroken (hright s' hs').consistent

/-- **The links are right in exactly the runs where `linked_list_postpend` only ever finds an empty
list** and every new node has its memory. -/
theorem runRight_iff (cs : List ListCall) :
    RunRight cs linkedListCreate ↔ RunFits cs linkedListCreate :=
  runRight_iff_runFits cs (represents_create (L := OS161.ConcurrentList.layout))

/-- Two items at the end: the second node does not point back to the first. -/
theorem postpend_twice :
    ¬ RunRight [.postpend true (some 1), .postpend true (some 2)] linkedListCreate := by
  rintro ⟨-, -, h⟩
  obtain ⟨-, -, h⟩ := h _ rfl
  obtain ⟨s', hs', hbroken⟩ := postpend_inconsistent
    (represents_create.single linkable_layout 0 (some 1)) rfl 2
  exact hbroken (h s' hs')

end ListCall

end UnionCollegeCode.Project1
