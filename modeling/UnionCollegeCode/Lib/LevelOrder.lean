import Mathlib.Data.List.Basic

/-!
# Level-order search

A queue search of a tree that is given by its children: the first node is taken off the queue, all
its children are looked at, and unless one of them is a goal they join the queue at the end. The
nodes leave the queue level by level, so the first goal found is on the first level that has one.
-/

set_option autoImplicit false

namespace Lib.LevelOrder

variable {α : Type*} (children : α → List α) (goal : α → Bool)

/-- `none` when `fuel` rounds are not enough. The last goal among the children of a node counts. -/
def search : ℕ → List α → Option (Option α)
  | _, [] => some none
  | 0, _ :: _ => none
  | fuel + 1, a :: queue =>
    match ((children a).filter goal).getLast? with
    | some b => some (some b)
    | none => search fuel (queue ++ children a)

/-- The nodes `d` levels below `xs`. -/
def levels : ℕ → List α → List α
  | 0, xs => xs
  | d + 1, xs => levels d (xs.flatMap children)

variable {children goal}

/-- Nodes without a goal among their children make way for their children. -/
theorem search_skip {xs : List α} (h : ∀ a ∈ xs, ∀ b ∈ children a, goal b = false) (fuel : ℕ) :
    ∀ ys, search children goal (xs.length + fuel) (xs ++ ys) =
      search children goal fuel (ys ++ xs.flatMap children) := by
  induction xs with
  | nil => simp
  | cons a xs ih =>
    intro ys
    obtain ⟨ha, h⟩ := List.forall_mem_cons.mp h
    have hnone : ((children a).filter goal).getLast? = none := by
      rw [List.getLast?_eq_none_iff, List.filter_eq_nil_iff]
      exact fun b hb => by simp [ha b hb]
    rw [List.length_cons, Nat.succ_add, List.cons_append, search, hnone, List.append_assoc, ih h,
      List.flatMap_cons, List.append_assoc]

/-- A goal among the children of some node in the queue is found. -/
theorem search_hit {xs : List α} (h : ∃ b ∈ xs.flatMap children, goal b = true) :
    ∀ ys, ∃ b ∈ xs.flatMap children, goal b = true ∧
      ∀ fuel ≥ xs.length, search children goal fuel (xs ++ ys) = some (some b) := by
  induction xs with
  | nil => simp at h
  | cons a xs ih =>
    intro ys
    cases hlast : ((children a).filter goal).getLast? with
    | some b =>
      obtain ⟨hb, hgoal⟩ := List.mem_filter.mp (List.mem_of_getLast? hlast)
      refine ⟨b, List.mem_flatMap.mpr ⟨a, List.mem_cons_self, hb⟩, hgoal, fun fuel hfuel => ?_⟩
      cases fuel with
      | zero => simp at hfuel
      | succ fuel => rw [List.cons_append, search, hlast]
    | none =>
      have hno : ∀ b ∈ children a, goal b ≠ true := by
        rw [List.getLast?_eq_none_iff, List.filter_eq_nil_iff] at hlast
        exact hlast
      have hrest : ∃ b ∈ xs.flatMap children, goal b = true := by
        obtain ⟨b, hb, hgoal⟩ := h
        rcases List.mem_append.mp (List.flatMap_cons ▸ hb) with hb | hb
        · exact absurd hgoal (hno b hb)
        · exact ⟨b, hb, hgoal⟩
      obtain ⟨b, hb, hgoal, hrun⟩ := ih hrest (ys ++ children a)
      refine ⟨b, List.flatMap_cons ▸ List.mem_append.mpr (.inr hb), hgoal, fun fuel hfuel => ?_⟩
      cases fuel with
      | zero => simp at hfuel
      | succ fuel =>
        rw [List.cons_append, search, hlast, List.append_assoc]
        exact hrun fuel (by simpa using hfuel)

/-- **The search ends on the first level that has a goal.** -/
theorem search_finds (d : ℕ) : ∀ {xs : List α}, (∃ b ∈ levels children (d + 1) xs, goal b = true) →
    (∀ e < d, ∀ b ∈ levels children (e + 1) xs, goal b = false) →
    ∃ N, ∃ b ∈ levels children (d + 1) xs, goal b = true ∧
      ∀ fuel ≥ N, search children goal fuel xs = some (some b) := by
  induction d with
  | zero =>
    intro xs h _
    obtain ⟨b, hb, hgoal, hrun⟩ := search_hit h []
    exact ⟨xs.length, b, hb, hgoal, by simpa using hrun⟩
  | succ d ih =>
    intro xs h hno
    obtain ⟨N, b, hb, hgoal, hrun⟩ := ih h fun e he => hno (e + 1) (Nat.succ_lt_succ he)
    have hskip : ∀ a ∈ xs, ∀ b ∈ children a, goal b = false := fun a ha b hb =>
      hno 0 (Nat.succ_pos d) b (List.mem_flatMap.mpr ⟨a, ha, hb⟩)
    refine ⟨xs.length + N, b, hb, hgoal, fun fuel hfuel => ?_⟩
    obtain ⟨k, rfl⟩ := Nat.exists_eq_add_of_le (Nat.le_of_add_right_le hfuel)
    have := search_skip hskip k []
    rw [List.append_nil, List.nil_append] at this
    rw [this]
    exact hrun k (by omega)

/-- Nodes without children are searched in vain. -/
theorem search_leaves {xs : List α} (h : ∀ a ∈ xs, children a = []) :
    ∀ fuel ≥ xs.length, search children goal fuel xs = some none := by
  intro fuel hfuel
  obtain ⟨k, rfl⟩ := Nat.exists_eq_add_of_le hfuel
  have hno : ∀ a ∈ xs, ∀ b ∈ children a, goal b = false := fun a ha b hb =>
    absurd (h a ha ▸ hb) List.not_mem_nil
  have hskip := search_skip hno k []
  rw [List.append_nil, List.nil_append, List.flatMap_eq_nil_iff.mpr h] at hskip
  rw [hskip]
  cases k <;> rfl

/-- **A search of ever smaller nodes ends in vain when none of them is a goal.** -/
theorem search_exhausts {I : α → Prop} {size : α → ℕ}
    (hchildren : ∀ a, I a → ∀ b ∈ children a, I b ∧ size b < size a ∧ goal b = false) (k : ℕ) :
    ∀ {xs : List α}, (∀ a ∈ xs, I a ∧ size a ≤ k) →
      ∃ N, ∀ fuel ≥ N, search children goal fuel xs = some none := by
  induction k with
  | zero =>
    intro xs hxs
    refine ⟨xs.length, search_leaves fun a ha => ?_⟩
    obtain ⟨hI, hsize⟩ := hxs a ha
    refine List.eq_nil_iff_forall_not_mem.mpr fun b hb => ?_
    have hless := (hchildren a hI b hb).2.1
    omega
  | succ k ih =>
    intro xs hxs
    have hdown : ∀ b ∈ xs.flatMap children, I b ∧ size b ≤ k := by
      intro b hb
      obtain ⟨a, ha, hb⟩ := List.mem_flatMap.mp hb
      obtain ⟨hI, hsize⟩ := hxs a ha
      obtain ⟨hIb, hless, -⟩ := hchildren a hI b hb
      exact ⟨hIb, by omega⟩
    obtain ⟨N, hrun⟩ := ih hdown
    refine ⟨xs.length + N, fun fuel hfuel => ?_⟩
    obtain ⟨m, rfl⟩ := Nat.exists_eq_add_of_le (Nat.le_of_add_right_le hfuel)
    have hskip := search_skip (fun a ha b hb => (hchildren a (hxs a ha).1 b hb).2.2) m []
    rw [List.append_nil, List.nil_append] at hskip
    rw [hskip]
    exact hrun m (by omega)

end Lib.LevelOrder
