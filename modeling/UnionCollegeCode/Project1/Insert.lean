import UnionCollegeCode.Project1.LinkedList

/-!
# `linked_list_insert` of the first project

The runner looks for the key among the nodes behind the first one only, so a key that the first node
has is inserted once more. Otherwise a key that is there is left alone, and a new one is put in its
place. What the `prev` pointers say is not read: the list is any chain of `next` pointers.
-/

set_option autoImplicit false

namespace UnionCollegeCode.Project1

open Function (update)
open Lib.LinkedChain
open OS161.ConcurrentList (LinkedList Node Data Ptr ListStop Represents Entry keyed Linkable passes
  insertEntry runnerFrom runnerFrom_spec ok_bind deref_ok linkable_layout)

variable {s : LinkedList} {l : List Entry} {back : Option Ptr → Node → Prop} {key : ℤ}

/-- The key stands where the runner stops. -/
def finds (key : ℤ) : List Entry → Bool
  | [] => false
  | f :: l => f.2.1 ≤ key ∧ ∃ q ∈ (l.dropWhile (passes key)).head?, q.2.1 = key

/-! ## What it does to the list -/

theorem noMemory (key : ℤ) (item : ℕ) : linkedListCreateNode s false key (some item) = .error .fault :=
  rfl

theorem exists_node (h : Represents (keyed back) s l) {e : Entry} (he : e ∈ l) :
    ∃ n, s.nodes e.1 = some n ∧ n.key = e.2.1 := by
  obtain ⟨l₁, l₂, rfl⟩ := List.append_of_mem he
  obtain ⟨f, b, -, -, n, hn, hval, -⟩ := segment_append.mp h.linked
  exact ⟨n, hn, congrArg Prod.fst hval⟩

/-- Where the runner stops, and what is behind it. -/
theorem runner_stops {e : Entry} (h : Represents (keyed back) s (e :: l)) (key : ℤ) :
    ∃ pre r n, e :: l = pre ++ r :: l.dropWhile (passes key) ∧
      e :: l.takeWhile (passes key) = pre ++ [r] ∧ runnerFrom s key s.brk e.1 = .ok r.1 ∧
      s.nodes r.1 = some n ∧ n.next = (l.dropWhile (passes key)).head?.map Prod.fst := by
  have hlinked := h.linked
  rw [show s.first = some e.1 from hlinked.1] at hlinked
  obtain ⟨pre, r, hr, hrun⟩ := runnerFrom_spec hlinked h.length_le
  have hsplit : e :: l = pre ++ r :: l.dropWhile (passes key) := by
    rw [← List.singleton_append (l := l.dropWhile _), ← List.append_assoc, ← hr,
      List.cons_append, List.takeWhile_append_dropWhile]
  rw [hsplit] at hlinked
  obtain ⟨f, b, -, -, n, hn, -, -, hrest⟩ := segment_append.mp hlinked
  refine ⟨pre, r, n, hsplit, hr, hrun, hn, ?_⟩
  cases hdrop : l.dropWhile (passes key) with
  | nil =>
    rw [hdrop] at hrest
    exact hrest.1
  | cons q rest =>
    rw [hdrop] at hrest
    exact hrest.1

theorem mem_of_dropWhile {q : Entry} {rest : List Entry} (h : l.dropWhile (passes key) = q :: rest) :
    q ∈ l := (List.dropWhile_sublist (passes key)).subset (h ▸ List.mem_cons_self)

/-- A key that is found is left alone. -/
theorem insert_found (h : Represents (keyed back) s l) (hfinds : finds key l = true) (ok : Bool)
    (item : ℕ) : linkedListInsert s ok key (some item) = .ok s := by
  cases l with
  | nil => cases hfinds
  | cons e l =>
    obtain ⟨hle, q, hq, hqkey⟩ := of_decide_eq_true hfinds
    obtain ⟨rest, hdrop⟩ := List.head?_eq_some_iff.mp hq
    have hfirst : s.first = some e.1 := h.linked.1
    obtain ⟨n, hn, hkey⟩ := exists_node h List.mem_cons_self
    obtain ⟨m, hm, hmkey⟩ := exists_node h (List.mem_cons_of_mem e (mem_of_dropWhile hdrop))
    obtain ⟨pre, r, k, -, -, hrun, hk, hnext⟩ := runner_stops h key
    rw [hdrop] at hnext
    simp only [linkedListInsert, assert_pos (Option.some_ne_none item), ok_bind, hfirst, deref_ok hn,
      hkey, if_neg (Int.not_lt.mpr hle), hrun, deref_ok hk, hnext, List.head?_cons, Option.map_some,
      deref_ok hm, hmkey, hqkey, ne_eq, not_true_eq_false, if_false]
    rfl

/-- A key that is not found is put in. -/
theorem insert_new (hb : Linkable back) (h : Represents (keyed back) s l)
    (hfinds : finds key l = false) (item : ℕ) :
    ∃ s', linkedListInsert s true key (some item) = .ok s' ∧
      Represents (keyed back) s' (insertEntry (s.brk, key, some item) l) := by
  cases l with
  | nil =>
    refine ⟨_, ?_, h.single hb key (some item)⟩
    have hfirst : s.first = none := h.linked.1
    simp only [linkedListInsert, assert_pos (Option.some_ne_none item), ok_bind, hfirst,
      linkedListCreateNode_ok]
    rfl
  | cons e l =>
    have hfirst : s.first = some e.1 := h.linked.1
    obtain ⟨n, hn, hkey⟩ := exists_node h List.mem_cons_self
    have hfresh : ∀ f ∈ e :: l, f.1 ≠ s.brk := fun f hf hp =>
      h.brk_not_mem (hp ▸ List.mem_map_of_mem hf)
    have hne := hfresh e List.mem_cons_self
    -- Ahead of the first node, at the end, or between two: one branch of the source each.
    by_cases hlt : key < e.2.1
    · rw [insertEntry, if_pos hlt]
      refine ⟨_, ?_, h.cons hb hn key (some item)⟩
      simp [linkedListInsert, assert_pos, hfirst, linkedListCreateNode_ok, LinkedList.setNext,
        LinkedList.setPrev, LinkedList.setNode, LinkedList.deref, hn, hkey, hne, hlt, ok_bind, pure,
        Except.pure]
    · rw [insertEntry, if_neg hlt]
      obtain ⟨pre, r, k, hsplit, hr, hrun, hk, hnext⟩ := runner_stops h key
      rw [hr, List.append_assoc, List.singleton_append]
      have hrne : r.1 ≠ s.brk := hfresh r (by simp [hsplit])
      cases hdrop : l.dropWhile (passes key) with
      | nil =>
        rw [hdrop] at hsplit hnext
        rw [hsplit] at h
        refine ⟨_, ?_, h.snoc hb hk key (some item)⟩
        simp [linkedListInsert, assert_pos, hfirst, linkedListCreateNode_ok, hrun, LinkedList.setNext,
          LinkedList.setPrev, LinkedList.setNode, LinkedList.deref, hn, hkey, hlt, hk, hrne, hnext,
          ok_bind, pure, Except.pure]
      | cons q rest =>
        rw [hdrop] at hsplit hnext
        obtain ⟨m, hm, hmkey⟩ := exists_node h (List.mem_cons_of_mem e (mem_of_dropWhile hdrop))
        have hqne : q.1 ≠ s.brk := hfresh q (List.mem_cons_of_mem e (mem_of_dropWhile hdrop))
        -- The node at which the runner stops has another key, or the key would have been found.
        have hqkey : q.2.1 ≠ key := by
          intro hqkey
          rw [finds, decide_eq_false_iff_not, hdrop] at hfinds
          exact hfinds ⟨Int.not_lt.mp hlt, q, rfl, hqkey⟩
        rw [hsplit] at h
        have hrq : r.1 ≠ q.1 := by
          have hnodup := h.nodup
          simp only [List.map_append, List.map_cons, List.nodup_append, List.nodup_cons,
            List.mem_cons, not_or] at hnodup
          exact hnodup.2.1.1.1
        refine ⟨_, ?_, h.between hb hk hm key (some item)⟩
        rw [Function.update_comm hrq.symm]
        simp [linkedListInsert, assert_pos, hfirst, linkedListCreateNode_ok, hrun, LinkedList.setNext,
          LinkedList.setPrev, LinkedList.setNode, LinkedList.deref, hn, hkey, hlt, hk, hm, hmkey, hqkey,
          hrne, hqne, hrq.symm, hnext, ok_bind, pure, Except.pure]

/-- A new key without memory for its node brings the kernel down. -/
theorem insert_noMemory (h : Represents (keyed back) s l) (hfinds : finds key l = false) (item : ℕ) :
    linkedListInsert s false key (some item) = .error .fault := by
  cases l with
  | nil =>
    have hfirst : s.first = none := h.linked.1
    simp only [linkedListInsert, assert_pos (Option.some_ne_none item), ok_bind, hfirst, noMemory]
    rfl
  | cons e l =>
    have hfirst : s.first = some e.1 := h.linked.1
    obtain ⟨n, hn, hkey⟩ := exists_node h List.mem_cons_self
    simp only [linkedListInsert, assert_pos (Option.some_ne_none item), ok_bind, hfirst, deref_ok hn,
      hkey, noMemory]
    by_cases hlt : key < e.2.1
    · rw [if_pos hlt]
      rfl
    · rw [if_neg hlt]
      obtain ⟨pre, r, k, -, -, hrun, hk, hnext⟩ := runner_stops h key
      simp only [hrun, ok_bind, deref_ok hk, hnext]
      cases hdrop : l.dropWhile (passes key) with
      | nil => rfl
      | cons q rest =>
        obtain ⟨m, hm, hmkey⟩ := exists_node h (List.mem_cons_of_mem e (mem_of_dropWhile hdrop))
        have hqkey : q.2.1 ≠ key := by
          intro hqkey
          rw [finds, decide_eq_false_iff_not, hdrop] at hfinds
          exact hfinds ⟨Int.not_lt.mp hlt, q, rfl, hqkey⟩
        simp only [List.head?_cons, Option.map_some, deref_ok hm, ok_bind, hmkey]
        rw [if_pos hqkey]
        rfl

/-! ## Increasing keys -/

abbrev keys (l : List Entry) : List ℤ := l.map fun e => e.2.1

/-- No key stands twice, and the smaller ones come first. -/
def Increasing (l : List Entry) : Prop := l.Pairwise fun e f => e.2.1 < f.2.1

theorem Increasing.sorted (h : Increasing l) : OS161.ConcurrentList.Sorted l :=
  h.imp Int.le_of_lt

/-- Where no key stands twice, sorted is increasing. -/
theorem increasing_iff : Increasing l ↔ OS161.ConcurrentList.Sorted l ∧ (keys l).Nodup := by
  constructor
  · intro h
    exact ⟨h.sorted, List.pairwise_map.mpr (h.imp Int.ne_of_lt)⟩
  · rintro ⟨hsorted, hnodup⟩
    exact (hsorted.and (List.pairwise_map.mp hnodup)).imp fun h => Int.lt_iff_le_and_ne.mpr h

theorem head_dropWhile {q : Entry} (h : Increasing l) (hq : q ∈ l) :
    (l.dropWhile (passes q.2.1)).head? = some q := by
  induction l with
  | nil => cases hq
  | cons f l ih =>
    obtain ⟨hf, hl⟩ := List.pairwise_cons.mp h
    rcases List.mem_cons.mp hq with rfl | hq
    · rw [List.dropWhile_cons_of_neg (by simp [passes])]
      rfl
    · rw [List.dropWhile_cons_of_pos (by simpa [passes] using hf q hq)]
      exact ih hl hq

theorem finds_iff (h : Increasing l) : finds key l = true ↔ key ∈ keys l.tail := by
  cases l with
  | nil => simp [finds]
  | cons e l =>
    obtain ⟨he, hl⟩ := List.pairwise_cons.mp h
    rw [finds, decide_eq_true_iff, List.tail_cons, List.mem_map]
    constructor
    · rintro ⟨-, q, hq, hkey⟩
      obtain ⟨rest, hdrop⟩ := List.head?_eq_some_iff.mp hq
      exact ⟨q, mem_of_dropWhile hdrop, hkey⟩
    · rintro ⟨q, hq, rfl⟩
      exact ⟨Int.le_of_lt (he q hq), q, head_dropWhile hl hq, rfl⟩

theorem increasing_insertEntry {e : Entry} (h : Increasing l) (he : e.2.1 ∉ keys l) :
    Increasing (insertEntry e l) := by
  obtain ⟨hsorted, hnodup⟩ := increasing_iff.mp h
  refine increasing_iff.mpr ⟨OS161.ConcurrentList.sorted_insertEntry e hsorted, ?_⟩
  have hperm := (OS161.ConcurrentList.insertEntry_perm e l).map fun e => e.2.1
  exact hperm.nodup_iff.mpr (List.nodup_cons.mpr ⟨he, hnodup⟩)

theorem mem_keys : key ∈ keys l ↔ (∃ e ∈ l.head?, e.2.1 = key) ∨ key ∈ keys l.tail := by
  cases l with
  | nil => simp
  | cons e l => simp [eq_comm]

/-- A key that is not found does not leave the list as it is, even if it is there. -/
theorem insert_changes (hb : Linkable back) (h : Represents (keyed back) s l)
    (hfinds : finds key l = false) (ok : Bool) (item : ℕ) :
    linkedListInsert s ok key (some item) ≠ .ok s := by
  intro hsame
  cases ok with
  | false =>
    rw [insert_noMemory h hfinds item] at hsame
    cases hsame
  | true =>
    obtain ⟨s', hs', h'⟩ := insert_new hb h hfinds item
    cases hsame.symm.trans hs'
    have hlength := h'.length.symm.trans h.length
    rw [(OS161.ConcurrentList.insertEntry_perm _ l).length_eq, List.length_cons] at hlength
    omega

/-- What `linked_list_insert` should do: nothing at all if the key is there, and otherwise put its
pair among the others, with the keys increasing as before. -/
def InsertRight (back : Option Ptr → Node → Prop) (s : LinkedList) (l : List Entry) (ok : Bool)
    (key : ℤ) (item : ℕ) : Prop :=
  if key ∈ keys l then
    linkedListInsert s ok key (some item) = .ok s
  else
    ∃ s' l', linkedListInsert s ok key (some item) = .ok s' ∧ Represents (keyed back) s' l' ∧
      Increasing l' ∧ l'.Perm ((s.brk, key, some item) :: l)

/-- **The first node is not looked at**: the key that it has is put in again, unless the kernel runs
out of memory first. -/
theorem insertRight_iff (hb : Linkable back) (h : Represents (keyed back) s l) (hinc : Increasing l)
    (ok : Bool) (key : ℤ) (item : ℕ) : InsertRight back s l ok key item ↔
      (∀ e ∈ l.head?, e.2.1 ≠ key) ∧ (key ∈ keys l ∨ ok = true) := by
  by_cases hfinds : finds key l = true
  · have htail := (finds_iff hinc).mp hfinds
    have hmem : key ∈ keys l := List.map_subset _ (List.tail_sublist l).subset htail
    rw [InsertRight, if_pos hmem]
    refine ⟨fun _ => ⟨fun e he hkey => ?_, .inl hmem⟩, fun _ => insert_found h hfinds ok item⟩
    obtain ⟨rest, rfl⟩ := List.head?_eq_some_iff.mp he
    obtain ⟨q, hq, hqkey⟩ := List.mem_map.mp htail
    have hlt : e.2.1 < q.2.1 := (List.pairwise_cons.mp hinc).1 q hq
    omega
  · have hlost : finds key l = false := Bool.not_eq_true _ ▸ hfinds
    have htail : key ∉ keys l.tail := fun htail => hfinds ((finds_iff hinc).mpr htail)
    have hmem : key ∈ keys l ↔ ∃ e ∈ l.head?, e.2.1 = key := by
      rw [mem_keys, or_iff_left htail]
    constructor
    · intro hright
      by_cases hkey : key ∈ keys l
      · rw [InsertRight, if_pos hkey] at hright
        exact absurd hright (insert_changes hb h hlost ok item)
      · rw [InsertRight, if_neg hkey] at hright
        refine ⟨fun e he hekey => hkey (hmem.mpr ⟨e, he, hekey⟩), .inr ?_⟩
        obtain ⟨s', l', hs', -⟩ := hright
        cases ok with
        | true => rfl
        | false =>
          rw [insert_noMemory h hlost item] at hs'
          cases hs'
    · rintro ⟨hfirst, hok⟩
      have hkey : key ∉ keys l := fun hkey => by
        obtain ⟨e, he, hekey⟩ := hmem.mp hkey
        exact hfirst e he hekey
      obtain rfl := hok.resolve_left hkey
      rw [InsertRight, if_neg hkey]
      obtain ⟨s', hs', h'⟩ := insert_new hb h hlost item
      exact ⟨s', _, hs', h', increasing_insertEntry hinc hkey,
        OS161.ConcurrentList.insertEntry_perm _ l⟩

/-- A list of one node, with key 5. -/
def five : LinkedList :=
  ⟨update (fun _ => none) 0 (some ⟨none, none, 5, some 1⟩), some 0, some 0, 1, 1⟩

theorem five_represents : Represents (keyed OS161.ConcurrentList.layout.back) five [(0, 5, some 1)] :=
  OS161.ConcurrentList.represents_create.single linkable_layout 5 (some 1)

theorem five_seven : InsertRight OS161.ConcurrentList.layout.back five [(0, 5, some 1)] true 7 2 :=
  (insertRight_iff linkable_layout five_represents (List.pairwise_singleton _ _) true 7 2).mpr
    ⟨fun e he => by cases he; decide, .inr rfl⟩

/-- A second node gets the key of the only one. -/
theorem five_five : ¬ InsertRight OS161.ConcurrentList.layout.back five [(0, 5, some 1)] true 5 2 := by
  intro hright
  rw [InsertRight, if_pos (by decide)] at hright
  have hlength : (linkedListInsert five true 5 (some 2)).map (·.length) = .ok 2 := rfl
  rw [hright] at hlength
  cases hlength

end UnionCollegeCode.Project1
