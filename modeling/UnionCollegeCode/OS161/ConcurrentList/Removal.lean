import UnionCollegeCode.OS161.ConcurrentList.Representation

/-!
# `linked_list_remove`

The node is unlinked and freed, and then every node that is left loses one from its key. So the call
does what its name says for the only node of a list, and for no other.
-/

set_option autoImplicit false

namespace UnionCollegeCode.OS161.ConcurrentList

open Function (update)
open Lib.LinkedChain

variable {s : LinkedList} {l pre post : List Entry} {e : Entry} {n : Node}

/-- The list without the node, which is freed, and nothing else. -/
def RemovesOnly (s : LinkedList) (pre : List Entry) (e : Entry) (post : List Entry) : Prop :=
  ∃ s', linkedListRemove s (some e.1) = .ok s' ∧ Represents layout s' (pre ++ post) ∧
    s'.nodes e.1 = none

/-! ## The links -/

/-- The nodes before it lead to the node behind it. -/
theorem unlinkNext_ok (h : Segment layout s.nodes none s.first pre (some e.1) n.prev)
    (hnodup : (pre.map Prod.fst).Nodup) :
    ∃ s', unlinkNext s n = .ok s' ∧
      Segment layout s'.nodes none s'.first pre n.next n.prev ∧
      (∀ q, q ∉ pre.map Prod.fst → s'.nodes q = s.nodes q) ∧
      s'.last = s.last ∧ s'.length = s.length ∧ s'.brk = s.brk := by
  rcases List.eq_nil_or_concat pre with rfl | ⟨pre, ⟨r, a⟩, rfl⟩
  · have hprev : n.prev = none := h.2
    rw [unlinkNext, hprev]
    exact ⟨_, rfl, ⟨rfl, rfl⟩, fun _ _ => rfl, rfl, rfl, rfl⟩
  · rw [List.concat_eq_append] at h hnodup ⊢
    obtain ⟨f, m, -, -, k, hk, -, -, -, hprev⟩ := segment_append.mp h
    have hr : r ∉ pre.map Prod.fst := by
      simp only [List.map_append, List.map_cons, List.map_nil] at hnodup
      exact fun hr => (List.nodup_append.mp hnodup).2.2 _ hr _ List.mem_cons_self rfl
    refine ⟨s.setNode r (some { k with next := n.next }), ?_, ?_, ?_, rfl, rfl, rfl⟩
    · rw [unlinkNext, hprev]
      exact setNext_ok hk
    · exact h.relinkLast hk hr rfl (fun _ hb => hb) rfl
    · intro q hq
      refine Function.update_of_ne ?_ _ _
      rintro rfl
      simp at hq

/-- The nodes behind it follow the node before it. -/
theorem unlinkPrev_ok (h : Segment layout s.nodes (some e.1) n.next post none s.last)
    (hnodup : (post.map Prod.fst).Nodup) :
    ∃ s', unlinkPrev s n = .ok s' ∧
      Segment layout s'.nodes n.prev n.next post none s'.last ∧
      (∀ q, q ∉ post.map Prod.fst → s'.nodes q = s.nodes q) ∧
      s'.first = s.first ∧ s'.length = s.length ∧ s'.brk = s.brk := by
  cases post with
  | nil =>
    have hnext : n.next = none := h.1
    rw [unlinkPrev, hnext]
    exact ⟨_, rfl, ⟨rfl, rfl⟩, fun _ _ => rfl, rfl, rfl, rfl⟩
  | cons f post =>
    obtain ⟨r, a⟩ := f
    obtain ⟨hnext, k, hk, -⟩ := id h
    have hr : r ∉ post.map Prod.fst := (List.nodup_cons.mp hnodup).1
    refine ⟨s.setNode r (some { k with prev := n.prev }), ?_, ?_, ?_, rfl, rfl, rfl⟩
    · rw [unlinkPrev, hnext]
      exact setPrev_ok hk
    · exact h.relinkFirst hk hr rfl rfl rfl
    · intro q hq
      refine Function.update_of_ne ?_ _ _
      rintro rfl
      simp at hq

/-! ## The keys -/

/-- An entry after the loop. -/
def lower (e : Entry) : Entry := (e.1, e.2.1 - 1, e.2.2)

theorem map_lower_addresses (l : List Entry) : (l.map lower).map Prod.fst = l.map Prod.fst := by
  rw [List.map_map]
  rfl

theorem decrementFrom_ok {rounds : ℕ} {prev first last : Option Ptr}
    (h : Segment layout s.nodes prev first l none last) (hnodup : (l.map Prod.fst).Nodup)
    (hrounds : l.length ≤ rounds) :
    ∃ s', decrementFrom s rounds first = .ok s' ∧
      Segment layout s'.nodes prev first (l.map lower) none last ∧
      (∀ q, q ∉ l.map Prod.fst → s'.nodes q = s.nodes q) ∧
      s'.first = s.first ∧ s'.last = s.last ∧ s'.length = s.length ∧ s'.brk = s.brk := by
  induction l generalizing s rounds prev first with
  | nil =>
    obtain rfl : first = none := h.1
    refine ⟨s, ?_, h, fun _ _ => rfl, rfl, rfl, rfl, rfl⟩
    cases rounds <;> rfl
  | cons e l ih =>
    obtain ⟨hfirst, k, hk, hval, hback, hl⟩ := h
    obtain ⟨he, hnodup⟩ := List.nodup_cons.mp hnodup
    cases rounds with
    | zero => cases hrounds
    | succ rounds =>
      have hrest := hl.update (n := some { k with key := k.key - 1 }) he
      obtain ⟨s', hrun, hlowered, hother, hfields⟩ :=
        ih (s := s.setNode e.1 (some { k with key := k.key - 1 })) hrest hnodup
          (Nat.le_of_succ_le_succ hrounds)
      refine ⟨s', ?_, ⟨hfirst, { k with key := k.key - 1 }, ?_, ?_, hback, hlowered⟩, ?_, hfields⟩
      · rw [hfirst, decrementFrom, deref_ok hk]
        exact hrun
      · rw [hother e.1 he]
        exact Function.update_self ..
      · have hpair : (k.key, k.data) = e.2 := hval
        show (k.key - 1, k.data) = (e.2.1 - 1, e.2.2)
        rw [← hpair]
      · intro q hq
        obtain ⟨hqe, hql⟩ := not_or.mp (mt List.mem_cons.mpr hq)
        rw [hother q hql]
        exact Function.update_of_ne hqe _ _

/-! ## The whole call -/

/-- **What `linked_list_remove` leaves**: the other nodes in their order, each with its key lowered. -/
theorem Represents.remove (h : Represents layout s (pre ++ e :: post)) :
    ∃ s', linkedListRemove s (some e.1) = .ok s' ∧
      Represents layout s' ((pre ++ post).map lower) ∧ s'.nodes e.1 = none := by
  have hperm : (pre ++ e :: post).Perm (e :: (pre ++ post)) := List.perm_middle
  have hnodup := (hperm.map Prod.fst).nodup_iff.mp h.nodup
  obtain ⟨he, hnodup⟩ := List.nodup_cons.mp hnodup
  have hapart := hnodup
  simp only [List.map_append, List.mem_append, not_or] at he hapart
  obtain ⟨hepre, hepost⟩ := he
  obtain ⟨hpre, hpost, hdisj⟩ := List.nodup_append.mp hapart
  obtain ⟨f, m, hsegpre, rfl, n, hn, -, hback, hsegpost⟩ := segment_append.mp h.linked
  replace hback : n.prev = m := hback
  subst hback
  replace hsegpost : Segment layout s.nodes (some e.1) n.next post none s.last := hsegpost
  -- The node before gets the new link, then the node after. Each keeps the other's part of the chain.
  obtain ⟨s₁, hnext, hpre₁, hother₁, hlast₁, hlength₁, hbrk₁⟩ := unlinkNext_ok hsegpre hpre
  have hn₁ : s₁.nodes e.1 = some n := (hother₁ e.1 hepre).trans hn
  have hpost₁ : Segment layout s₁.nodes (some e.1) n.next post none s₁.last := by
    rw [hlast₁]
    refine hsegpost.congr fun q hq => hother₁ q fun hq' => ?_
    exact hdisj q hq' q hq rfl
  obtain ⟨s₂, hprev, hpost₂, hother₂, hfirst₂, hlength₂, hbrk₂⟩ := unlinkPrev_ok hpost₁ hpost
  have hpre₂ : Segment layout s₂.nodes none s₂.first pre n.next n.prev := by
    rw [hfirst₂]
    refine hpre₁.congr fun q hq => hother₂ q fun hq' => ?_
    exact hdisj q hq q hq' rfl
  have hchain : Segment layout s₂.nodes none s₂.first (pre ++ post) none s₂.last :=
    segment_append.mpr ⟨_, _, hpre₂, hpost₂⟩
  have hrounds : (pre ++ post).length ≤ s₂.brk := by
    rw [hbrk₂, hbrk₁]
    refine Nat.le_trans ?_ h.length_le
    simp
  -- The loop goes over what is left, from its first node.
  obtain ⟨s₃, hloop, hchain₃, -, hfirst₃, hlast₃, hlength₃, hbrk₃⟩ :=
    decrementFrom_ok hchain hnodup hrounds
  have haddr := map_lower_addresses (pre ++ post)
  refine ⟨{ s₃ with length := s₃.length - 1 }.setNode e.1 none, ?_, ⟨?_, ?_, ?_, ?_⟩,
    Function.update_self ..⟩
  · simp only [linkedListRemove, deref_ok hn, ok_bind, hnext, deref_ok hn₁, hprev, hloop]
    rfl
  · have hfree : e.1 ∉ ((pre ++ post).map lower).map Prod.fst := by
      rw [haddr]
      simp [hepre, hepost]
    rw [← hfirst₃, ← hlast₃] at hchain₃
    exact hchain₃.update hfree
  · show s₃.length - 1 = _
    rw [hlength₃, hlength₂, hlength₁, h.length]
    simp
    omega
  · rw [haddr]
    exact hnodup
  · intro q hq
    rw [haddr] at hq
    show q < s₃.brk
    rw [hbrk₃, hbrk₂, hbrk₁]
    apply h.fresh q
    simp only [List.map_append, List.map_cons, List.mem_append, List.mem_cons] at hq ⊢
    exact hq.imp_right Or.inr

/-- **`linked_list_remove` removes one node and nothing else** exactly where there is nothing else. -/
theorem removesOnly_iff (h : Represents layout s (pre ++ e :: post)) :
    RemovesOnly s pre e post ↔ pre = [] ∧ post = [] := by
  obtain ⟨s', hrun, hlowered, hfreed⟩ := h.remove
  constructor
  · rintro ⟨s'', hrun', hleft, -⟩
    obtain rfl : s' = s'' := Except.ok.inj (hrun.symm.trans hrun')
    have hsame : (pre ++ post).map lower = pre ++ post := hlowered.linked.unique hleft.linked
    have hnone : pre ++ post = [] := by
      rw [List.eq_nil_iff_forall_not_mem]
      intro f hf
      have hfix : lower f = f := List.map_inj_left.mp (hsame.trans (List.map_id _).symm) f hf
      have hkey : f.2.1 - 1 = f.2.1 := congrArg (fun g : Entry => g.2.1) hfix
      omega
    exact List.append_eq_nil_iff.mp hnone
  · rintro ⟨rfl, rfl⟩
    exact ⟨s', hrun, hlowered, hfreed⟩

/-! ## Two nodes -/

/-- Node 0 with key 1, and node 1 with key 2. -/
def twoNodes : LinkedList where
  nodes := update (update (fun _ => none) 0 (some ⟨none, some 1, 1, none⟩)) 1
    (some ⟨some 0, none, 2, none⟩)
  first := some 0
  last := some 1
  length := 2
  brk := 2

/-- A node alone, with key 1. -/
def oneNode : LinkedList where
  nodes := update (fun _ => none) 0 (some ⟨none, none, 1, none⟩)
  first := some 0
  last := some 0
  length := 1
  brk := 1

theorem oneNode_represents : Represents layout oneNode [(0, 1, none)] where
  linked := ⟨rfl, _, rfl, rfl, rfl, rfl, rfl⟩
  length := rfl
  nodup := by decide
  fresh := by decide

theorem twoNodes_represents : Represents layout twoNodes [(0, 1, none), (1, 2, none)] where
  linked := ⟨rfl, _, rfl, rfl, rfl, rfl, _, rfl, rfl, rfl, rfl, rfl⟩
  length := rfl
  nodup := by decide
  fresh := by decide

theorem removesOnly_iff_oneNode : RemovesOnly oneNode [] (0, 1, none) [] :=
  Iff.mpr (removesOnly_iff oneNode_represents) ⟨rfl, rfl⟩

/-- Removing node 0 leaves node 1 with key 1. -/
theorem remove_lowers_keys :
    (match linkedListRemove twoNodes (some 0) with
      | .ok s' => (s'.nodes 1).map Node.key
      | .error _ => none) = some 1 ∧
    ¬ RemovesOnly twoNodes [] (0, 1, none) [(1, 2, none)] := by
  refine ⟨rfl, fun honly => ?_⟩
  obtain ⟨s', hrun, hleft, -⟩ := honly
  have hkey : (s'.nodes 1).map Node.key = some 1 := by
    obtain rfl := Except.ok.inj hrun
    rfl
  obtain ⟨-, n, hn, hval, -⟩ := hleft.linked
  rw [hn] at hkey
  have : n.key = 2 := congrArg Prod.fst hval
  simp [this] at hkey

end UnionCollegeCode.OS161.ConcurrentList
