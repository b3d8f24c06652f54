import Mathlib.Algebra.Group.Nat.Even
import Mathlib.Data.List.Chain
import Mathlib.Order.Lattice

/-!
# Passes that swap neighbours

Two passes over a list that move low keys towards its end. `bubble` is one pass of bubble sort: it
carries the lowest key seen so far (`carry`). `hop` compares the same way, but goes on behind a pair
that it has swapped. `hop_eq_bubble_iff` says when that makes no difference.
-/

set_option autoImplicit false

namespace Lib.BubblePass

variable {α β : Type} [LinearOrder β] {key : α → β} {a b c x y : α} {l l' : List α} {k : ℕ}

/-! ## Bubble sort -/

/-- The rest of a pass that carries `a`. -/
def carry (key : α → β) : α → List α → List α
  | a, [] => [a]
  | a, b :: l => if key a < key b then b :: carry key a l else a :: carry key b l

def bubble (key : α → β) : List α → List α
  | [] => []
  | a :: l => carry key a l

theorem carry_cons_of_lt (h : key a < key b) : carry key a (b :: l) = b :: carry key a l := if_pos h

theorem carry_cons_of_le (h : key b ≤ key a) : carry key a (b :: l) = a :: carry key b l :=
  if_neg (not_lt.mpr h)

theorem carry_perm : (carry key a l).Perm (a :: l) := by
  induction l generalizing a with
  | nil => exact .refl _
  | cons b l ih =>
    rcases lt_or_ge (key a) (key b) with h | h
    · rw [carry_cons_of_lt h]
      exact (ih.cons b).trans (.swap ..)
    · rw [carry_cons_of_le h]
      exact ih.cons a

theorem bubble_perm : (bubble key l).Perm l := by
  cases l with
  | nil => exact .refl _
  | cons a l => exact carry_perm

/-- A pass ends with a lowest key. -/
theorem carry_eq_concat (key : α → β) (a : α) (l : List α) : ∃ front m, carry key a l = front ++ [m] ∧ front.length = l.length ∧
    ∀ x ∈ a :: l, key m ≤ key x := by
  induction l generalizing a with
  | nil =>
    refine ⟨[], a, rfl, rfl, ?_⟩
    intro x hx
    rw [List.mem_singleton.mp hx]
  | cons b l ih =>
    rcases lt_or_ge (key a) (key b) with h | h
    · obtain ⟨front, m, heq, hlength, hm⟩ := ih (a := a)
      refine ⟨b :: front, m, ?_, congrArg Nat.succ hlength, ?_⟩
      · rw [carry_cons_of_lt h, heq]
        rfl
      · have hma := hm a List.mem_cons_self
        exact List.forall_mem_cons.mpr ⟨hma, List.forall_mem_cons.mpr
          ⟨hma.trans h.le, fun x hx => hm x (List.mem_cons_of_mem _ hx)⟩⟩
    · obtain ⟨front, m, heq, hlength, hm⟩ := ih (a := b)
      refine ⟨a :: front, m, ?_, congrArg Nat.succ hlength, ?_⟩
      · rw [carry_cons_of_le h, heq]
        rfl
      · exact List.forall_mem_cons.mpr ⟨(hm b List.mem_cons_self).trans h, hm⟩

theorem bubble_last_le (hx : x ∈ (bubble key l).getLast?) (hy : y ∈ bubble key l) :
    key x ≤ key y := by
  cases l with
  | nil => cases hx
  | cons a l =>
    obtain ⟨front, m, heq, -, hm⟩ := carry_eq_concat key a l
    have hmem : y ∈ a :: l := carry_perm.mem_iff.mp hy
    rw [bubble, heq, List.getLast?_concat] at hx
    obtain rfl := Option.some.inj hx
    exact hm y hmem

/-- Two elements change places only if the one in front has the lower key. -/
theorem carry_keeps (hxy : [x, y].Sublist (a :: l)) (hkey : key y ≤ key x) :
    [x, y].Sublist (carry key a l) := by
  induction l generalizing a with
  | nil =>
    have := hxy.length_le
    simp at this
  | cons b l ih =>
    rcases lt_or_ge (key a) (key b) with h | h
    · rw [carry_cons_of_lt h]
      rcases List.cons_sublist_cons'.mp hxy with hxy | ⟨rfl, hy⟩
      · rcases List.cons_sublist_cons'.mp hxy with hxy | ⟨rfl, hy⟩
        · exact (ih (hxy.trans (List.sublist_cons_self ..))).cons _
        · rw [List.singleton_sublist] at hy
          exact (List.singleton_sublist.mpr (carry_perm.mem_iff.mpr
            (List.mem_cons_of_mem _ hy))).cons_cons _
      · rw [List.singleton_sublist] at hy
        rcases List.mem_cons.mp hy with rfl | hy
        · exact absurd h (not_lt.mpr hkey)
        · exact (ih ((List.singleton_sublist.mpr hy).cons_cons _)).cons _
    · rw [carry_cons_of_le h]
      rcases List.cons_sublist_cons'.mp hxy with hxy | ⟨rfl, hy⟩
      · exact (ih hxy).cons _
      · rw [List.singleton_sublist] at hy
        exact (List.singleton_sublist.mpr (carry_perm.mem_iff.mpr hy)).cons_cons _

theorem bubble_keeps (hxy : [x, y].Sublist l) (hkey : key y ≤ key x) :
    [x, y].Sublist (bubble key l) := by
  cases l with
  | nil => cases hxy
  | cons a l => exact carry_keeps hxy hkey

/-- Of two elements that stand once each, one is in front. -/
theorem not_sublist_swap (hnodup : l.Nodup) (hxy : [x, y].Sublist l) : ¬ [y, x].Sublist l := by
  induction l with
  | nil => cases hxy
  | cons a l ih =>
    obtain ⟨ha, hl⟩ := List.nodup_cons.mp hnodup
    intro hyx
    rcases List.cons_sublist_cons'.mp hxy with hxy' | ⟨hxa, -⟩
    · rcases List.cons_sublist_cons'.mp hyx with hyx' | ⟨hya, -⟩
      · exact ih hl hxy' hyx'
      · exact ha (hya ▸ hxy'.subset (List.mem_cons_of_mem _ List.mem_cons_self))
    · rcases List.cons_sublist_cons'.mp hyx with hyx' | ⟨-, hx⟩
      · exact ha (hxa ▸ hyx'.subset (List.mem_cons_of_mem _ List.mem_cons_self))
      · exact ha (hxa ▸ List.singleton_sublist.mp hx)

/-! ## How many passes sort -/

/-- Keys descend. -/
def Descending (key : α → β) (l : List α) : Prop := l.Pairwise fun x y => key y ≤ key x

theorem Descending.carry_eq (h : Descending key (a :: l)) : carry key a l = a :: l := by
  induction l generalizing a with
  | nil => rfl
  | cons b l ih =>
    obtain ⟨ha, hl⟩ := List.pairwise_cons.mp h
    rw [carry_cons_of_le (ha b List.mem_cons_self), ih hl]

/-- The last `k` are in order, and below the others. -/
def Settled (key : α → β) (k : ℕ) (l : List α) : Prop :=
  ∃ front back, l = front ++ back ∧ front.length ≤ l.length - k ∧ Descending key back ∧
    ∀ x ∈ front, ∀ y ∈ back, key y ≤ key x

theorem settled_zero : Settled key 0 l :=
  ⟨l, [], (List.append_nil l).symm, Nat.le_refl _, .nil, fun _ _ _ hy => nomatch hy⟩

theorem Settled.descending (h : Settled key k l) (hk : l.length ≤ k + 1) : Descending key l := by
  obtain ⟨front, back, heq, hlength, hback, hle⟩ := h
  rw [heq]
  refine List.pairwise_append.mpr ⟨?_, hback, hle⟩
  match front, hlength with
  | [], _ => exact .nil
  | [a], _ => exact List.pairwise_singleton ..
  | a :: b :: front, hlength =>
    rw [List.length_cons, List.length_cons] at hlength
    omega

/-- What is settled is not moved any more. -/
theorem carry_append (hback : Descending key l')
    (hle : ∀ x ∈ a :: l, ∀ y ∈ l', key y ≤ key x) :
    carry key a (l ++ l') = carry key a l ++ l' := by
  induction l generalizing a with
  | nil => exact Descending.carry_eq (List.pairwise_cons.mpr ⟨hle a List.mem_cons_self, hback⟩)
  | cons b l ih =>
    obtain ⟨ha, hb⟩ := List.forall_mem_cons.mp hle
    obtain ⟨-, hl⟩ := List.forall_mem_cons.mp hb
    rw [List.cons_append]
    rcases lt_or_ge (key a) (key b) with h | h
    · rw [carry_cons_of_lt h, carry_cons_of_lt h, ih (List.forall_mem_cons.mpr ⟨ha, hl⟩),
        List.cons_append]
    · rw [carry_cons_of_le h, carry_cons_of_le h, ih hb, List.cons_append]

/-- Each pass settles one more. -/
theorem Settled.bubble (h : Settled key k l) : Settled key (k + 1) (bubble key l) := by
  obtain ⟨front, back, rfl, hlength, hback, hle⟩ := h
  cases front with
  | nil =>
    refine ⟨[], back, ?_, Nat.zero_le _, hback, fun _ hx => nomatch hx⟩
    cases back with
    | nil => rfl
    | cons a back => exact hback.carry_eq
  | cons a front =>
    obtain ⟨front', m, heq, hfront, hm⟩ := carry_eq_concat key a front
    have hrun : Lib.BubblePass.bubble key (a :: front ++ back) = front' ++ m :: back := by
      rw [List.cons_append, BubblePass.bubble, carry_append hback hle, heq, List.append_assoc]
      rfl
    have hperm : (front' ++ [m]).Perm (a :: front) := heq ▸ carry_perm
    have hmem : m ∈ a :: front := hperm.mem_iff.mp (List.mem_append_right _ List.mem_cons_self)
    rw [hrun]
    refine ⟨front', m :: back, rfl, ?_, List.pairwise_cons.mpr ⟨hle m hmem, hback⟩, ?_⟩
    · simp only [List.length_append, List.length_cons] at hlength ⊢
      omega
    · intro x hx
      have hx' : x ∈ a :: front := hperm.mem_iff.mp (List.mem_append_left _ hx)
      exact List.forall_mem_cons.mpr ⟨hm x hx', hle x hx'⟩

/-! ## A pass that skips -/

def hop (key : α → β) : List α → List α
  | [] => []
  | [a] => [a]
  | a :: b :: l => if key a < key b then b :: a :: hop key l else a :: hop key (b :: l)

theorem hop_cons_of_lt (h : key a < key b) : hop key (a :: b :: l) = b :: a :: hop key l := if_pos h

theorem hop_cons_of_le (h : key b ≤ key a) : hop key (a :: b :: l) = a :: hop key (b :: l) :=
  if_neg (not_lt.mpr h)

/-- Of two neighbours, one at least has a key no higher than `u`. -/
def EveryOther (key : α → β) (u : β) (l : List α) : Prop :=
  l.IsChain fun b c => key b ≤ u ∨ key c ≤ u

/-- Of two neighbours, one at least has a key no higher than all before them: no two that are above
the lowest so far stand side by side. -/
def Isolated (key : α → β) : List α → Prop
  | [] => True
  | a :: l => EveryOther key (key a) l ∧ Isolated key l

variable {u v : β}

theorem EveryOther.mono (h : EveryOther key u l) (huv : u ≤ v) : EveryOther key v l :=
  List.IsChain.imp (fun _ _ hle => hle.imp huv.trans' huv.trans') h

theorem EveryOther.cons (h : EveryOther key u l) (ha : key a ≤ u) : EveryOther key u (a :: l) := by
  cases l with
  | nil => exact List.isChain_singleton a
  | cons b l => exact List.isChain_cons_cons.mpr ⟨.inl ha, h⟩

theorem EveryOther.tail (h : EveryOther key u (a :: l)) : EveryOther key u l := List.IsChain.tail h

/-- A thread no higher than the one before it is the lowest so far. -/
theorem isolated_cons_of_le (h : key b ≤ key a) :
    Isolated key (a :: b :: l) ↔ Isolated key (b :: l) := by
  refine ⟨And.right, fun hb => ⟨?_, hb⟩⟩
  exact (hb.1.mono h).cons h

theorem isolated_cons_cons_of_lt (hb : key a < key b) (hc : key c ≤ key a) :
    Isolated key (a :: b :: c :: l) ↔ Isolated key (c :: l) := by
  refine ⟨fun h => h.2.2, fun h => ⟨?_, ?_⟩⟩
  · exact List.isChain_cons_cons.mpr ⟨.inr hc, (h.1.mono hc).cons hc⟩
  · exact (isolated_cons_of_le (hc.trans hb.le)).mpr h

theorem not_isolated_of_lt (hb : key a < key b) (hc : key a < key c) :
    ¬ Isolated key (a :: b :: c :: l) := by
  intro h
  rcases (List.isChain_cons_cons.mp h.1).1 with hle | hle
  · exact absurd hb (not_lt.mpr hle)
  · exact absurd hc (not_lt.mpr hle)

/-- Going on behind a swapped pair makes no difference as long as the key that a pass of bubble sort
would carry on is not lower than the next one. -/
theorem hop_eq_carry_iff : (l : List α) → (a : α) →
    (hop key (a :: l) = carry key a l ↔ Isolated key (a :: l))
  | [], a => ⟨fun _ => ⟨.nil, trivial⟩, fun _ => rfl⟩
  | b :: l, a => by
    rcases lt_or_ge (key a) (key b) with hb | hb
    · rw [hop_cons_of_lt hb, carry_cons_of_lt hb]
      match l with
      | [] => exact ⟨fun _ => ⟨List.isChain_singleton b, .nil, trivial⟩, fun _ => rfl⟩
      | c :: l =>
        rcases lt_or_ge (key a) (key c) with hc | hc
        · refine iff_of_false ?_ (not_isolated_of_lt hb hc)
          rw [carry_cons_of_lt hc]
          intro heq
          obtain ⟨rfl, -⟩ := List.cons.inj (List.cons.inj heq).2
          exact lt_irrefl _ hc
        · rw [carry_cons_of_le hc, isolated_cons_cons_of_lt hb hc, ← hop_eq_carry_iff l c]
          exact ⟨fun heq => (List.cons.inj (List.cons.inj heq).2).2, fun heq => by rw [heq]⟩
    · rw [hop_cons_of_le hb, carry_cons_of_le hb, isolated_cons_of_le hb, ← hop_eq_carry_iff l b]
      exact ⟨fun heq => (List.cons.inj heq).2, fun heq => by rw [heq]⟩

theorem hop_eq_bubble_iff : hop key l = bubble key l ↔ Isolated key l := by
  cases l with
  | nil => exact ⟨fun _ => trivial, fun _ => rfl⟩
  | cons a l => exact hop_eq_carry_iff l a

theorem hop_perm : (l : List α) → (hop key l).Perm l
  | [] => .refl _
  | [_] => .refl _
  | a :: b :: l => by
    rcases lt_or_ge (key a) (key b) with h | h
    · rw [hop_cons_of_lt h]
      exact (((hop_perm l).cons a).cons b).trans (.swap ..)
    · rw [hop_cons_of_le h]
      exact (hop_perm (b :: l)).cons a

/-- The element on which a hop arrives at the end of the list: none, if it has just swapped. -/
def hopEnd (key : α → β) : List α → Option α
  | [] => none
  | [a] => some a
  | a :: b :: l => if key a < key b then hopEnd key l else hopEnd key (b :: l)

/-- How many elements at the end have keys that rise from each to the next. -/
def climb (key : α → β) : List α → ℕ
  | [] => 0
  | [_] => 1
  | a :: b :: l =>
    if key a < key b ∧ climb key (b :: l) = l.length + 1 then l.length + 2 else climb key (b :: l)

theorem climb_le_length : (l : List α) → climb key l ≤ l.length
  | [] => Nat.le_refl _
  | [_] => Nat.le_refl _
  | a :: b :: l => by
    rw [climb]
    split
    · exact Nat.le_refl _
    · exact Nat.le_succ_of_le (climb_le_length (b :: l))

theorem climb_tail (h : climb key (b :: l) = l.length + 1) : climb key l = l.length := by
  cases l with
  | nil => rfl
  | cons c l =>
    rw [climb] at h
    split at h
    · rename_i hall
      exact hall.2
    · have hle : climb key (c :: l) ≤ (c :: l).length := climb_le_length (c :: l)
      rw [h] at hle
      exact absurd hle (Nat.not_succ_le_self _)

theorem climb_cons_of_ne (h : climb key (b :: l) ≠ l.length + 1) :
    climb key (b :: l) = climb key l := by
  cases l with
  | nil => exact absurd rfl h
  | cons c l =>
    rw [climb] at h ⊢
    split at h
    · exact absurd rfl h
    · rename_i hnot
      rw [if_neg hnot]

/-- Only the run that rises to the end counts: it is swapped in pairs from its beginning. -/
theorem hopEnd_eq : (l : List α) →
    hopEnd key l = if Even (climb key l) then none else l.getLast?
  | [] => rfl
  | [a] => by simp [hopEnd, climb]
  | a :: b :: l => by
    rw [hopEnd]
    rcases lt_or_ge (key a) (key b) with hab | hab
    · rw [if_pos hab, hopEnd_eq l]
      rcases Decidable.em (climb key (b :: l) = l.length + 1) with hall | hnot
      · have hclimb : climb key (a :: b :: l) = l.length + 2 := if_pos ⟨hab, hall⟩
        have heven : Even (l.length + 2) ↔ Even l.length :=
          Nat.even_add.trans (iff_true_right ⟨1, rfl⟩)
        simp only [hclimb, climb_tail hall, heven]
        cases l with
        | nil => rfl
        | cons c l => rfl
      · have hclimb : climb key (a :: b :: l) = climb key (b :: l) := if_neg fun h => hnot h.2
        rw [hclimb, climb_cons_of_ne hnot]
        cases l with
        | nil => exact absurd rfl hnot
        | cons c l => rfl
    · have hclimb : climb key (a :: b :: l) = climb key (b :: l) :=
        if_neg fun h => not_lt.mpr hab h.1
      rw [if_neg (not_lt.mpr hab), hclimb, hopEnd_eq (b :: l)]
      rfl

/-! ## From pass to pass -/

theorem EveryOther.carry (h : EveryOther key u (a :: l)) (ha : key a ≤ u) :
    EveryOther key u (carry key a l) := by
  induction l generalizing a with
  | nil => exact List.isChain_singleton a
  | cons b l ih =>
    rcases lt_or_ge (key a) (key b) with hb | hb
    · rw [carry_cons_of_lt hb]
      have hrest := ih (h.tail.tail.cons ha) ha
      cases l with
      | nil => exact List.isChain_cons_cons.mpr ⟨.inr ha, hrest⟩
      | cons c l =>
        -- Behind `b` comes `c`, which is as low as one of the two must be, or `a`.
        rcases lt_or_ge (key a) (key c) with hc | hc
        · rw [carry_cons_of_lt hc] at hrest ⊢
          exact List.isChain_cons_cons.mpr ⟨(List.isChain_cons_cons.mp h.tail).1, hrest⟩
        · rw [carry_cons_of_le hc] at hrest ⊢
          exact List.isChain_cons_cons.mpr ⟨.inr ha, hrest⟩
    · rw [carry_cons_of_le hb]
      exact (ih h.tail (hb.trans ha)).cons ha

theorem Isolated.carry (h : Isolated key (a :: l)) : Isolated key (carry key a l) := by
  induction l generalizing a with
  | nil => exact h
  | cons b l ih =>
    obtain ⟨ha, hb, hl⟩ := h
    rcases lt_or_ge (key a) (key b) with hab | hab
    · rw [carry_cons_of_lt hab]
      exact ⟨(hb.cons hab.le).carry hab.le, ih ⟨ha.tail, hl⟩⟩
    · rw [carry_cons_of_le hab]
      exact ⟨ha.carry hab, ih ⟨hb, hl⟩⟩

theorem Isolated.bubble (h : Isolated key l) : Isolated key (bubble key l) := by
  cases l with
  | nil => exact h
  | cons a l => exact h.carry

/-! ## Keys that change together -/

variable {f : α → α}

theorem EveryOther.map (h : EveryOther key u l) (hf : ∀ x ∈ l, key x ≤ u → key (f x) ≤ v) :
    EveryOther key v (l.map f) := by
  induction l with
  | nil => exact .nil
  | cons a l ih =>
    obtain ⟨ha, hl⟩ := List.forall_mem_cons.mp hf
    have hrest := ih h.tail hl
    cases l with
    | nil => exact List.isChain_singleton _
    | cons b l =>
      refine List.isChain_cons_cons.mpr ⟨?_, hrest⟩
      exact (List.isChain_cons_cons.mp h).1.imp ha (hl b List.mem_cons_self)

theorem Isolated.map (h : Isolated key l)
    (hf : ∀ x ∈ l, ∀ y ∈ l, key x ≤ key y → key (f x) ≤ key (f y)) : Isolated key (l.map f) := by
  induction l with
  | nil => exact trivial
  | cons a l ih =>
    refine ⟨h.1.map ?_, ih h.2 ?_⟩
    · intro x hx
      exact hf x (List.mem_cons_of_mem _ hx) a List.mem_cons_self
    · intro x hx y hy
      exact hf x (List.mem_cons_of_mem _ hx) y (List.mem_cons_of_mem _ hy)

theorem Settled.map (h : Settled key k l)
    (hf : ∀ x ∈ l, ∀ y ∈ l, key x ≤ key y → key (f x) ≤ key (f y)) : Settled key k (l.map f) := by
  obtain ⟨front, back, rfl, hlength, hback, hle⟩ := h
  refine ⟨front.map f, back.map f, List.map_append, ?_, ?_, ?_⟩
  · rw [List.length_map, List.length_map]
    exact hlength
  · refine List.pairwise_map.mpr (hback.imp_of_mem ?_)
    intro x y hx hy
    exact hf y (List.mem_append_right _ hy) x (List.mem_append_right _ hx)
  · intro x hx y hy
    obtain ⟨x, hx', rfl⟩ := List.mem_map.mp hx
    obtain ⟨y, hy', rfl⟩ := List.mem_map.mp hy
    exact hf y (List.mem_append_right _ hy') x (List.mem_append_left _ hx') (hle x hx' y hy')

end Lib.BubblePass
