import Mathlib.Order.Bounds.Defs
import Mathlib.Order.Nat

/-!
# Breadth-first search

`Explored r s dist queue`: a search along `r` from `s` has given these vertices their distances, and
those in the queue have not had their turn. The vertex whose turn it is stays at the head of the queue
while its new neighbours join at the end (`Explored.push`), and goes when it has none left
(`Explored.pop`). At any moment the distances are those of the shortest walks (`Explored.isLeast`),
and everything closer than the head has had its turn (`Explored.le_of_walk`).
-/

set_option autoImplicit false

namespace Lib.BreadthFirst

variable {κ : Type*}

/-- A walk from `s` of so many steps. -/
inductive Walk (r : κ → κ → Prop) (s : κ) : ℕ → κ → Prop
  | nil : Walk r s 0 s
  | snoc {n : ℕ} {u v : κ} (h : Walk r s n u) (huv : r u v) : Walk r s (n + 1) v

/-- The length of the shortest walk. -/
def Distance (r : κ → κ → Prop) (s v : κ) (n : ℕ) : Prop := IsLeast {m | Walk r s m v} n

variable {r : κ → κ → Prop} {s u v : κ} {n m : ℕ} {dist : κ → Option ℕ} {queue : List κ}

theorem Walk.eq_of_zero (h : Walk r s 0 v) : v = s := by
  cases h
  rfl

theorem Distance.unique (h : Distance r s v n) (h' : Distance r s v m) : n = m :=
  Nat.le_antisymm (h.2 h'.1) (h'.2 h.1)

theorem distance_self : Distance r s s 0 := ⟨.nil, fun _ _ => Nat.zero_le _⟩

/-- Where there is a walk there is a shortest one. -/
theorem Walk.exists_distance (h : Walk r s n v) : ∃ m, Distance r s v m := by
  induction n using Nat.strong_induction_on with
  | h n ih =>
    by_cases hless : ∃ m < n, Walk r s m v
    · obtain ⟨m, hm, hwalk⟩ := hless
      exact ih m hm hwalk
    · exact ⟨n, h, fun m hm => Nat.not_lt.mp fun hmn => hless ⟨m, hmn, hm⟩⟩

structure Explored (r : κ → κ → Prop) (s : κ) (dist : κ → Option ℕ) (queue : List κ) : Prop where
  start : dist s = some 0
  walk : ∀ v n, dist v = some n → Walk r s n v
  queued : ∀ u ∈ queue, ∃ n, dist u = some n
  /-- A vertex that has had its turn has passed its distance on. -/
  done : ∀ u n, dist u = some n → u ∉ queue → ∀ v, r u v → ∃ m, dist v = some m ∧ m ≤ n + 1
  ordered : queue.Pairwise fun u v => ∀ n m, dist u = some n → dist v = some m → n ≤ m
  /-- No vertex is more than one step further than one in the queue. -/
  span : ∀ u ∈ queue, ∀ n, dist u = some n → ∀ v m, dist v = some m → m ≤ n + 1

namespace Explored

/-! ## What the distances are -/

/-- Whatever is no further than the whole queue has its distance. -/
theorem le_of_walk (h : Explored r s dist queue) (hv : Walk r s m v)
    (hm : ∀ u ∈ queue, ∀ n, dist u = some n → m ≤ n) : ∃ k, dist v = some k ∧ k ≤ m := by
  induction hv with
  | nil => exact ⟨0, h.start, Nat.le_refl 0⟩
  | @snoc m u v hwalk huv ih =>
    obtain ⟨k, hk, hkm⟩ := ih fun w hw n hn => Nat.le_of_succ_le (hm w hw n hn)
    have hturn : u ∉ queue := fun hu => by
      have hle := hm u hu k hk
      omega
    obtain ⟨j, hj, hjk⟩ := h.done u k hk hturn v huv
    exact ⟨j, hj, by omega⟩

/-- The head of the queue is no further than the rest of it. -/
theorem head_le (h : Explored r s dist (u :: queue)) (hu : dist u = some n) :
    ∀ w ∈ u :: queue, ∀ m, dist w = some m → n ≤ m := by
  intro w hw m hm
  rcases List.mem_cons.mp hw with rfl | hw
  · exact Nat.le_of_eq (Option.some.inj (hu.symm.trans hm))
  · exact (List.pairwise_cons.mp h.ordered).1 w hw n m hu hm

theorem isLeast (h : Explored r s dist queue) (hv : dist v = some n) : Distance r s v n := by
  refine ⟨h.walk v n hv, fun m hm => ?_⟩
  replace hm : Walk r s m v := hm
  cases queue with
  | nil =>
    obtain ⟨k, hk, hkm⟩ := h.le_of_walk hm fun _ hu => nomatch hu
    cases hv.symm.trans hk
    exact hkm
  | cons u queue =>
    obtain ⟨d, hd⟩ := h.queued u List.mem_cons_self
    have hspan := h.span u List.mem_cons_self d hd v n hv
    refine Nat.not_lt.mp fun hmn => ?_
    obtain ⟨k, hk, hkm⟩ := h.le_of_walk hm fun w hw j hj => by
      have hle := h.head_le hd w hw j hj
      omega
    cases hv.symm.trans hk
    omega

/-- **With nothing left in the queue the distances are those of the vertices that are reached.** -/
theorem iff_distance (h : Explored r s dist []) : dist v = some n ↔ Distance r s v n := by
  refine ⟨h.isLeast, fun hdist => ?_⟩
  obtain ⟨k, hk, -⟩ := h.le_of_walk hdist.1 fun _ hu => nomatch hu
  rw [hk, (h.isLeast hk).unique hdist]

/-! ## How a search goes on -/

variable [DecidableEq κ]

theorem init : Explored r s (Function.update (fun _ => none) s (some 0)) [s] := by
  have honly : ∀ {v n}, Function.update (fun _ => none) s (some 0) v = some n → v = s ∧ n = 0 := by
    intro v n hv
    rw [Function.update_apply] at hv
    split at hv
    case isTrue hs => exact ⟨hs, (Option.some.inj hv).symm⟩
    case isFalse => cases hv
  refine ⟨Function.update_self .., fun v n hv => ?_, fun u hu => ?_, fun u n hu hturn => ?_,
    List.pairwise_singleton _ _, fun u _ n _ v m hv => ?_⟩
  · obtain ⟨rfl, rfl⟩ := honly hv
    exact .nil
  · rw [List.mem_singleton.mp hu]
    exact ⟨0, Function.update_self ..⟩
  · exact absurd (List.mem_singleton.mpr (honly hu).1) hturn
  · rw [(honly hv).2]
    exact Nat.zero_le _

/-- A new neighbour of the head. -/
theorem push (h : Explored r s dist (u :: queue)) (huv : r u v) (hu : dist u = some n)
    (hv : dist v = none) :
    Explored r s (Function.update dist v (some (n + 1))) (u :: (queue ++ [v])) := by
  have hold : ∀ {w k}, Function.update dist v (some (n + 1)) w = some k →
      (w = v ∧ k = n + 1) ∨ dist w = some k := by
    intro w k hw
    rw [Function.update_apply] at hw
    split at hw
    case isTrue hwv => exact .inl ⟨hwv, (Option.some.inj hw).symm⟩
    case isFalse => exact .inr hw
  have hkept : ∀ {w k}, dist w = some k → Function.update dist v (some (n + 1)) w = some k := by
    intro w k hw
    rw [Function.update_of_ne, hw]
    rintro rfl
    cases hv.symm.trans hw
  -- The distances in the queue span two levels at most, so that `n + 1` may stand at its end.
  have hspan := h.span u List.mem_cons_self n hu
  refine ⟨hkept h.start, fun w k hw => ?_, fun w hw => ?_, fun w k hw hturn x hx => ?_, ?_,
    fun w hw k hk x j hj => ?_⟩
  · obtain ⟨rfl, rfl⟩ | hw := hold hw
    · exact .snoc (h.walk u n hu) huv
    · exact h.walk w k hw
  · rw [← List.cons_append] at hw
    rcases List.mem_append.mp hw with hw | hw
    · obtain ⟨k, hk⟩ := h.queued w hw
      exact ⟨k, hkept hk⟩
    · rw [List.mem_singleton.mp hw]
      exact ⟨n + 1, Function.update_self ..⟩
  · rw [← List.cons_append, List.mem_append, List.mem_singleton, not_or] at hturn
    obtain ⟨rfl, -⟩ | hw := hold hw
    · exact absurd rfl hturn.2
    · obtain ⟨m, hm, hle⟩ := h.done w k hw hturn.1 x hx
      exact ⟨m, hkept hm, hle⟩
  · rw [← List.cons_append]
    refine List.pairwise_append.mpr ⟨h.ordered.imp_of_mem fun {a b} ha hb hab i j hi hj => ?_,
      List.pairwise_singleton _ _, fun a ha b hb i j hi hj => ?_⟩
    · obtain ⟨i', hi'⟩ := h.queued a ha
      obtain ⟨j', hj'⟩ := h.queued b hb
      cases hi.symm.trans (hkept hi')
      cases hj.symm.trans (hkept hj')
      exact hab i j hi' hj'
    · obtain ⟨i', hi'⟩ := h.queued a ha
      cases hi.symm.trans (hkept hi')
      rw [List.mem_singleton.mp hb, Function.update_self] at hj
      cases hj
      exact hspan a i hi'
  · have hfar : n ≤ k := by
      rw [← List.cons_append, List.mem_append, List.mem_singleton] at hw
      rcases hw with hw | rfl
      · obtain ⟨i, hi⟩ := h.queued w hw
        cases hk.symm.trans (hkept hi)
        exact h.head_le hu w hw k hi
      · rw [Function.update_self] at hk
        cases hk
        exact Nat.le_succ n
    obtain ⟨-, rfl⟩ | hj := hold hj
    · omega
    · have hle := hspan x j hj
      omega

/-- The head has had its turn. -/
theorem pop (h : Explored r s dist (u :: queue)) (hall : ∀ v, r u v → ∃ m, dist v = some m) :
    Explored r s dist queue := by
  refine ⟨h.start, h.walk, fun w hw => h.queued w (List.mem_cons_of_mem u hw),
    fun w n hw hturn v hv => ?_, (List.pairwise_cons.mp h.ordered).2,
    fun w hw => h.span w (List.mem_cons_of_mem u hw)⟩
  by_cases hwu : w = u
  · subst hwu
    obtain ⟨m, hm⟩ := hall v hv
    exact ⟨m, hm, h.span w List.mem_cons_self n hw v m hm⟩
  · exact h.done w n hw (by simp [hwu, hturn]) v hv

end Explored

end Lib.BreadthFirst
