import Mathlib.Data.List.Perm.Basic
import Mathlib.Data.Nat.Notation
import Mathlib.Logic.Function.Basic
import Mathlib.Order.Defs.LinearOrder

/-!
# Keeping the better half by exchanges

Two arrays `f` and `g` of one index type, both in order along a list of indices. Index by index, the entry
of `f` is put against all entries of `g` up to its own and swapped whenever the other one comes first. `f`
ends up with the better half of both, in order; what `g` is left with is scrambled.

Before each index, the part of `f` seen so far is the better half of what both arrays had there
(`Halves`). So an entry of the next index comes after it: the entries of `f` seen so far, no later than that
one, are already half of them all (`Halves.le_next`).
-/

set_option autoImplicit false

namespace Lib.Exchange

open Function (update)

variable {ι α : Type} [DecidableEq ι] {r : α → α → Prop} [DecidableRel r]

/-- `r x y` says that `x` comes no later than `y`. -/
def exchange (r : α → α → Prop) [DecidableRel r] (i : ι) (s : (ι → α) × (ι → α)) (j : ι) :
    (ι → α) × (ι → α) :=
  if r (s.1 i) (s.2 j) then s else (update s.1 i (s.2 j), update s.2 j (s.1 i))

def pass (r : α → α → Prop) [DecidableRel r] (i : ι) (js : List ι) (s : (ι → α) × (ι → α)) :
    (ι → α) × (ι → α) := js.foldl (exchange r i) s

/-- The indices to do, each against all those before it and itself. -/
def passes (r : α → α → Prop) [DecidableRel r] :
    List ι → List ι → (ι → α) × (ι → α) → (ι → α) × (ι → α)
  | _, [], s => s
  | done, i :: todo, s => passes r (done ++ [i]) todo (pass r i (done ++ [i]) s)

/-! ## One pass -/

section Pass

variable {i j : ι} {js : List ι} {s : (ι → α) × (ι → α)}

theorem exchange_of_ne {k : ι} (hi : k ≠ i) : (exchange r i s j).1 k = s.1 k := by
  unfold exchange
  split
  · rfl
  · exact Function.update_of_ne hi _ _

theorem exchange_of_ne' {k : ι} (hj : k ≠ j) : (exchange r i s j).2 k = s.2 k := by
  unfold exchange
  split
  · rfl
  · exact Function.update_of_ne hj _ _

variable [Std.Total r]

/-- The two entries, the better one first. -/
theorem exchange_spec : r ((exchange r i s j).1 i) (s.1 i) ∧
    r ((exchange r i s j).1 i) ((exchange r i s j).2 j) ∧
    [(exchange r i s j).1 i, (exchange r i s j).2 j].Perm [s.1 i, s.2 j] := by
  unfold exchange
  split
  case isTrue h => exact ⟨(total_of r _ _).elim id id, h, .refl _⟩
  case isFalse h =>
    have hback : r (s.2 j) (s.1 i) := (total_of r (s.1 i) (s.2 j)).resolve_left h
    simp only [Function.update_self]
    exact ⟨hback, hback, .swap ..⟩

variable [IsTrans α r]

/-- The pass leaves the best of the entries it saw in `f`. -/
theorem pass_spec (hjs : js.Nodup) :
    (∀ k, k ≠ i → (pass r i js s).1 k = s.1 k) ∧ (∀ k, k ∉ js → (pass r i js s).2 k = s.2 k) ∧
    r ((pass r i js s).1 i) (s.1 i) ∧ (∀ j ∈ js, r ((pass r i js s).1 i) ((pass r i js s).2 j)) ∧
    ((pass r i js s).1 i :: js.map (pass r i js s).2).Perm (s.1 i :: js.map s.2) := by
  induction js generalizing s with
  | nil =>
    refine ⟨fun k _ => rfl, fun k _ => rfl, (total_of r _ _).elim id id, fun j hj => ?_, .refl _⟩
    exact absurd hj List.not_mem_nil
  | cons j js ih =>
    obtain ⟨hj, hjs⟩ := List.nodup_cons.mp hjs
    obtain ⟨hbest, hle, hperm⟩ := exchange_spec (r := r) (i := i) (j := j) (s := s)
    obtain ⟨hf, hg, hbest', hall, hperm'⟩ := ih (s := exchange r i s j) hjs
    change (∀ k, k ≠ i → (pass r i js (exchange r i s j)).1 k = s.1 k) ∧ _
    have hkept : (pass r i (j :: js) s).2 j = (exchange r i s j).2 j := hg j hj
    refine ⟨fun k hk => (hf k hk).trans (exchange_of_ne hk), fun k hk => ?_, ?_, fun k hk => ?_, ?_⟩
    · obtain ⟨hkj, hkjs⟩ := not_or.mp (List.mem_cons.not.mp hk)
      exact (hg k hkjs).trans (exchange_of_ne' hkj)
    · exact trans_of r hbest' hbest
    · rcases List.mem_cons.mp hk with rfl | hk
      · rw [hkept]
        exact trans_of r hbest' hle
      · exact hall k hk
    · have hrest : js.map (exchange r i s j).2 = js.map s.2 := by
        apply List.map_congr_left
        intro k hk
        exact exchange_of_ne' (ne_of_mem_of_not_mem hk hj)
      rw [hrest] at hperm'
      rw [List.map_cons, List.map_cons, hkept]
      calc (pass r i (j :: js) s).1 i :: (exchange r i s j).2 j :: js.map (pass r i (j :: js) s).2
        _ |>.Perm ((exchange r i s j).2 j :: (pass r i (j :: js) s).1 i ::
            js.map (pass r i (j :: js) s).2) := .swap ..
        _ |>.Perm ((exchange r i s j).2 j :: (exchange r i s j).1 i :: js.map s.2) := hperm'.cons _
        _ |>.Perm ((exchange r i s j).1 i :: (exchange r i s j).2 j :: js.map s.2) := .swap ..
        _ |>.Perm (s.1 i :: s.2 j :: js.map s.2) := hperm.append_right (js.map s.2)

end Pass

/-! ## All passes -/

section Passes

variable {i k : ι} {done todo : List ι} {s₀ s : (ι → α) × (ι → α)} {v : α}

/-- At the indices `done`, `f` has the better half of what both arrays had there. -/
structure Halves (r : α → α → Prop) (done : List ι) (s₀ s : (ι → α) × (ι → α)) : Prop where
  perm : (done.map s.1 ++ done.map s.2).Perm (done.map s₀.1 ++ done.map s₀.2)
  better : ∀ i ∈ done, ∀ j ∈ done, r (s.1 i) (s.2 j)
  ordered : (done.map s.1).Pairwise r
  rest : ∀ k ∉ done, s.1 k = s₀.1 k ∧ s.2 k = s₀.2 k

omit [DecidableEq ι] [DecidableRel r] in
theorem halves_nil : Halves r [] s₀ s₀ :=
  ⟨.refl _, fun _ hi => absurd hi List.not_mem_nil, .nil, fun _ _ => ⟨rfl, rfl⟩⟩

variable [IsTrans α r]

omit [DecidableEq ι] in
/-- If half of the entries are no later than `v`, the better half is. -/
theorem Halves.le_of_count (h : Halves r done s₀ s)
    (hcount : done.length ≤ (done.map s₀.1 ++ done.map s₀.2).countP fun x => r x v) (hk : k ∈ done) :
    r (s.1 k) v := by
  by_contra hlate
  have hother : (done.map s.2).countP (fun x => r x v) = 0 := by
    rw [List.countP_eq_zero]
    intro y hy
    obtain ⟨j, hj, rfl⟩ := List.mem_map.mp hy
    exact fun hjv => hlate (trans_of r (h.better k hk j hj) (of_decide_eq_true hjv))
  have hown : (done.map s.1).countP (fun x => r x v) < done.length := by
    apply Nat.lt_of_le_of_ne
    · rw [← List.length_map (f := s.1)]
      exact List.countP_le_length
    · intro hall
      rw [← List.length_map (f := s.1), List.countP_eq_length] at hall
      exact hlate (of_decide_eq_true (hall _ (List.mem_map_of_mem hk)))
  rw [← h.perm.countP_eq, List.countP_append, hother] at hcount
  omega

omit [DecidableEq ι] in
theorem Halves.le_next (h : Halves r done s₀ s)
    (hv : (∀ k ∈ done, r (s₀.1 k) v) ∨ ∀ k ∈ done, r (s₀.2 k) v) (hk : k ∈ done) : r (s.1 k) v := by
  apply h.le_of_count _ hk
  have hhalf {f : ι → α} (hf : ∀ k ∈ done, r (f k) v) :
      (done.map f).countP (fun x => r x v) = done.length := by
    rw [← List.length_map (f := f), List.countP_eq_length]
    intro y hy
    obtain ⟨j, hj, rfl⟩ := List.mem_map.mp hy
    exact decide_eq_true (hf j hj)
  rw [List.countP_append]
  rcases hv with hv | hv
  · rw [hhalf hv]
    exact Nat.le_add_right ..
  · rw [hhalf hv]
    exact Nat.le_add_left ..

variable [Std.Total r]

/-- One more index. -/
theorem Halves.step (h : Halves r done s₀ s) (hnodup : (done ++ [i]).Nodup)
    (hf : ∀ k ∈ done, r (s₀.1 k) (s₀.1 i)) (hg : ∀ k ∈ done, r (s₀.2 k) (s₀.2 i)) :
    Halves r (done ++ [i]) s₀ (pass r i (done ++ [i]) s) := by
  have hi : i ∉ done := by
    intro hmem
    exact (List.nodup_append.mp hnodup).2.2 i hmem i (List.mem_singleton_self i) rfl
  obtain ⟨hf₀, hg₀⟩ := h.rest i hi
  obtain ⟨hkept, hkept', -, hbest, hperm⟩ := pass_spec (r := r) (i := i) (s := s) hnodup
  have hdone : done.map (pass r i (done ++ [i]) s).1 = done.map s.1 := by
    apply List.map_congr_left
    intro k hk
    exact hkept k (ne_of_mem_of_not_mem hk hi)
  -- What the pass shares out comes after the entries of `f` seen so far.
  have hlater : ∀ k ∈ done, ∀ y ∈ s.1 i :: (done ++ [i]).map s.2, r (s.1 k) y := by
    intro k hk y hy
    rw [List.map_append, List.mem_cons, List.mem_append, List.mem_map, List.map_singleton,
      List.mem_singleton] at hy
    rcases hy with rfl | ⟨j, hj, rfl⟩ | rfl
    · rw [hf₀]
      exact h.le_next (.inl hf) hk
    · exact h.better k hk j hj
    · rw [hg₀]
      exact h.le_next (.inr hg) hk
  refine ⟨?_, fun a ha b hb => ?_, ?_, fun k hk => ?_⟩
  · rw [List.map_append, hdone, List.map_singleton, List.append_assoc]
    calc done.map s.1 ++ ((pass r i (done ++ [i]) s).1 i :: (done ++ [i]).map (pass r i (done ++ [i]) s).2)
      _ |>.Perm (done.map s.1 ++ (s.1 i :: (done ++ [i]).map s.2)) := hperm.append_left _
      _ |>.Perm ((done.map s.1 ++ done.map s.2) ++ [s₀.1 i, s₀.2 i]) := by
        rw [List.map_append, List.map_singleton, hf₀, hg₀, List.append_assoc]
        exact (List.perm_middle.symm).append_left _
      _ |>.Perm ((done.map s₀.1 ++ done.map s₀.2) ++ [s₀.1 i, s₀.2 i]) := h.perm.append_right _
      _ |>.Perm ((done ++ [i]).map s₀.1 ++ (done ++ [i]).map s₀.2) := by
        rw [List.map_append, List.map_append, List.map_singleton, List.map_singleton, List.append_assoc,
          List.append_assoc]
        exact (List.perm_middle.symm).append_left _ |>.symm
  · have hb' : (pass r i (done ++ [i]) s).2 b ∈ s.1 i :: (done ++ [i]).map s.2 :=
      hperm.mem_iff.mp (List.mem_cons_of_mem _ (List.mem_map_of_mem hb))
    rcases List.mem_append.mp ha with ha | ha
    · rw [hkept a (ne_of_mem_of_not_mem ha hi)]
      exact hlater a ha _ hb'
    · obtain rfl := List.mem_singleton.mp ha
      exact hbest b hb
  · rw [List.map_append, hdone, List.map_singleton, List.pairwise_append]
    refine ⟨h.ordered, List.pairwise_singleton _ _, fun x hx y hy => ?_⟩
    obtain ⟨k, hk, rfl⟩ := List.mem_map.mp hx
    obtain rfl := List.mem_singleton.mp hy
    exact hlater k hk _ (hperm.mem_iff.mp List.mem_cons_self)
  · have hk' : k ∉ done := fun hmem => hk (List.mem_append_left _ hmem)
    have hki : k ≠ i := fun heq => hk (heq ▸ List.mem_append_right _ (List.mem_singleton_self _))
    rw [hkept k hki, hkept' k hk]
    exact h.rest k hk'

theorem Halves.passes (h : Halves r done s₀ s) (hnodup : (done ++ todo).Nodup)
    (hf : ((done ++ todo).map s₀.1).Pairwise r) (hg : ((done ++ todo).map s₀.2).Pairwise r) :
    Halves r (done ++ todo) s₀ (passes r done todo s) := by
  induction todo generalizing done s with
  | nil =>
    rw [List.append_nil]
    exact h
  | cons i todo ih =>
    have hassoc : done ++ i :: todo = done ++ [i] ++ todo := List.append_cons ..
    have hbefore {f : ι → α} (hord : ((done ++ i :: todo).map f).Pairwise r) :
        ∀ k ∈ done, r (f k) (f i) := by
      intro k hk
      rw [List.map_append, List.pairwise_append] at hord
      exact hord.2.2 _ (List.mem_map_of_mem hk) _ List.mem_cons_self
    rw [hassoc] at hnodup hf hg ⊢
    have hstep := h.step (List.nodup_append.mp hnodup).1 (hbefore (hassoc ▸ hf)) (hbefore (hassoc ▸ hg))
    exact ih hstep hnodup hf hg

/-- **`f` keeps the better half, in order.** -/
theorem passes_spec (hnodup : todo.Nodup) (hf : (todo.map s₀.1).Pairwise r)
    (hg : (todo.map s₀.2).Pairwise r) : Halves r todo s₀ (passes r [] todo s₀) :=
  halves_nil.passes hnodup hf hg

end Passes

end Lib.Exchange
