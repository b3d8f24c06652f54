import UnionCollegeCode.OS161.Thread.Schedule

/-!
# `schedule` as one pass of bubble sort

After a swap `schedule` goes on behind both threads, and so a thread moves back by one place at
most. It is a pass of bubble sort as long as that is all the way that each thread has to go.
-/

set_option autoImplicit false

namespace UnionCollegeCode.OS161.Thread

open Lib.BubblePass

variable {tl tl' : ThreadList} {x y : Entry} {l l' : List Entry} {head tail : Int32} {k m : ℕ}

/-- So many calls, with no thread arriving in between. -/
def schedules : ℕ → ThreadList → Except ListStop ThreadList
  | 0, tl => .ok tl
  | m + 1, tl => do
    let tl ← schedule tl
    schedules m tl

/-- The threads of `l` after a pass of bubble sort. -/
structure Bubbled (l l' : List Entry) : Prop where
  pass : l' = bubble key l
  lowest_last : ∀ e ∈ l'.getLast?, ∀ x ∈ l', e.2 ≤ x.2
  not_behind_lower : ∀ x y, [x, y].Sublist l → [y, x].Sublist l' → x.2 ≤ y.2
  stable : ∀ x y, [x, y].Sublist l → x.2 = y.2 → [x, y].Sublist l'

/-- One call is one pass over the raised threads, and so one call less than there are threads puts
them in order, while the bookends let it return and no priority wraps around. -/
structure PassOfBubbleSort (tl : ThreadList) (l : List Entry) : Prop where
  once : ∃ tl' head tail l', schedule tl = .ok tl' ∧ Queue tl' head tail l' ∧
    Bubbled (l.map raise) l'
  sorts : ∀ m tl', l.length ≤ m + 1 → (∀ e ∈ l, e.2.toInt + m ≤ Int32.maxValue.toInt) →
    schedules m tl = .ok tl' → ∃ head tail l', Queue tl' head tail l' ∧ Descending key l'

theorem bubbled_bubble (hnodup : l.Nodup) : Bubbled l (bubble key l) where
  pass := rfl
  lowest_last := fun e he x hx => key_le_iff.mp (bubble_last_le he hx)
  not_behind_lower := fun x y hxy hyx => by
    by_contra hlt
    have hkeeps := bubble_keeps hxy (key_lt_iff.mpr (Int32.not_le.mp hlt)).le
    exact not_sublist_swap (bubble_perm.nodup_iff.mpr hnodup) hkeeps hyx
  stable := fun x y hxy heq => bubble_keeps hxy (congrArg Int32.toInt heq).symm.le

theorem ok_of_bind {α β : Type} {e : Except ListStop α} {f : α → Except ListStop β} {b : β}
    (h : (e >>= f) = .ok b) : ∃ a, e = .ok a ∧ f a = .ok b := by
  cases e with
  | error e => cases h
  | ok a => exact ⟨a, rfl, h⟩

/-- What a call that returns does. -/
theorem Queue.schedule_ok (h : Queue tl head tail l) (hrun : schedule tl = .ok tl') :
    Queue tl' (head + 1) tail (hop key (l.map raise)) := by
  have hlose : SentinelsLose (head + 1) tail (l.map raise) := by
    by_contra hwin
    rw [schedule_fault h hwin] at hrun
    cases hrun
  obtain ⟨tl'', hrun', hqueue⟩ := Thread.schedule_ok h hlose
  obtain rfl := Except.ok.inj (hrun.symm.trans hrun')
  exact hqueue

theorem key_raise (h : key x < Int32.maxValue.toInt) : key (raise x) = key x + 1 := by
  refine toInt_add_one.mpr ?_
  rintro heq
  exact absurd h (heq ▸ lt_irrefl _)

/-- Room for one call more than are still to come. -/
theorem raise_of_room (hmax : ∀ e ∈ l, e.2.toInt + (m + 1 : ℕ) ≤ Int32.maxValue.toInt) :
    (∀ e ∈ l, key (raise e) = key e + 1) ∧
      ∀ e ∈ bubble key (l.map raise), e.2.toInt + m ≤ Int32.maxValue.toInt := by
  have hraise : ∀ e ∈ l, key (raise e) = key e + 1 := by
    intro e he
    have hroom := hmax e he
    refine key_raise (show e.2.toInt < _ from ?_)
    omega
  refine ⟨hraise, fun e he => ?_⟩
  obtain ⟨x, hx, rfl⟩ := List.mem_map.mp (bubble_perm.mem_iff.mp he)
  have hkey : (raise x).2.toInt = x.2.toInt + 1 := hraise x hx
  have hroom := hmax x hx
  rw [hkey]
  omega

theorem schedules_settled (h : Queue tl head tail l) (hisolated : Isolated key l)
    (hsettled : Settled key k l) (hmax : ∀ e ∈ l, e.2.toInt + m ≤ Int32.maxValue.toInt)
    (hrun : schedules m tl = .ok tl') : ∃ head' tail' l', Queue tl' head' tail' l' ∧
      Settled key (k + m) l' ∧ l'.length = l.length := by
  induction m generalizing tl head k l with
  | zero =>
    obtain rfl := Except.ok.inj hrun
    exact ⟨head, tail, l, h, hsettled, rfl⟩
  | succ m ih =>
    obtain ⟨tl₁, hrun₁, hrun⟩ := ok_of_bind hrun
    obtain ⟨hraise, hmax₁⟩ := raise_of_room hmax
    have hmono : ∀ x ∈ l, ∀ y ∈ l, key x ≤ key y → key (raise x) ≤ key (raise y) := by
      intro x hx y hy hle
      rw [hraise x hx, hraise y hy]
      exact Int.add_le_add_right hle 1
    have hisolated₁ := hisolated.map hmono
    have hqueue₁ := h.schedule_ok hrun₁
    rw [hop_eq_bubble_iff.mpr hisolated₁] at hqueue₁
    obtain ⟨head', tail', l', hqueue, hsettled', hlength⟩ :=
      ih hqueue₁ hisolated₁.bubble (hsettled.map hmono).bubble hmax₁ hrun
    refine ⟨head', tail', l', hqueue, ?_, ?_⟩
    · rwa [Nat.add_right_comm] at hsettled'
    · rw [hlength, bubble_perm.length_eq, List.length_map]

/-- The pass is one of bubble sort exactly when no two neighbours are both above some thread that is
ahead of them. -/
theorem passOfBubbleSort_iff (h : Queue tl head tail l)
    (hlose : SentinelsLose (head + 1) tail (l.map raise)) :
    PassOfBubbleSort tl l ↔ Isolated key (l.map raise) := by
  obtain ⟨tl', hrun, hqueue⟩ := schedule_ok h hlose
  constructor
  · intro hpass
    obtain ⟨tl'', head', tail', l', hrun', hqueue', hbubbled⟩ := hpass.once
    obtain rfl := Except.ok.inj (hrun.symm.trans hrun')
    exact hop_eq_bubble_iff.mp ((hqueue.unique hqueue').trans hbubbled.pass)
  · intro hisolated
    have hnodup : (l.map raise).Nodup := by
      refine .of_map Prod.fst ?_
      rw [List.map_map]
      exact h.nodup
    rw [hop_eq_bubble_iff.mpr hisolated] at hqueue
    refine ⟨⟨tl', head + 1, tail, _, hrun, hqueue, bubbled_bubble hnodup⟩, ?_⟩
    intro m tl'' hlength hmax hruns
    cases m with
    | zero =>
      obtain rfl := Except.ok.inj hruns
      exact ⟨head, tail, l, h, settled_zero.descending hlength⟩
    | succ m =>
      obtain ⟨tl₁, hrun₁, hruns⟩ := ok_of_bind hruns
      obtain rfl := Except.ok.inj (hrun.symm.trans hrun₁)
      obtain ⟨head'', tail'', l'', hqueue'', hsettled, hlength''⟩ :=
        schedules_settled hqueue hisolated.bubble settled_zero.bubble (raise_of_room hmax).2 hruns
      refine ⟨head'', tail'', l'', hqueue'', hsettled.descending ?_⟩
      rw [hlength'', bubble_perm.length_eq, List.length_map]
      omega

theorem passOfBubbleSort_iff_threeThreads :
    SentinelsLose (100 + 1) (-100) ([(2, 0), (3, 1), (4, 0)].map raise) ∧
      (PassOfBubbleSort (threeThreads 100 (-100) 0 1 0) [(2, 0), (3, 1), (4, 0)] ↔
        Isolated key ([(2, 0), (3, 1), (4, 0)].map raise)) :=
  have hlose : SentinelsLose (100 + 1) (-100) ([(2, 0), (3, 1), (4, 0)].map raise) :=
    ⟨(nomatch ·), by decide, by decide⟩
  ⟨hlose, passOfBubbleSort_iff (threeThreads_queue ..) hlose⟩

/-- The lowest of three threads that rise towards the tail moves back by one place only. -/
theorem lowest_stays_behind_one :
    ¬ PassOfBubbleSort (threeThreads 100 (-100) 0 1 2) [(2, 0), (3, 1), (4, 2)] := by
  intro hpass
  obtain ⟨tl', head, tail, l', hrun, hqueue, hbubbled⟩ := hpass.once
  have hqueue' := (threeThreads_queue 100 (-100) 0 1 2).schedule_ok hrun
  have heq := (hqueue'.unique hqueue).trans hbubbled.pass
  have hne : hop key ([(2, 0), (3, 1), (4, 2)].map raise) ≠
      bubble key ([(2, 0), (3, 1), (4, 2)].map raise) := by decide
  exact hne heq

end UnionCollegeCode.OS161.Thread
