import Mathlib.Data.List.Basic

/-!
# Names in a path

A path is read name by name: `sep` ends a name, `stop` ends the path, and empty names count for
nothing. `join` puts a `sep` behind every name. A path that is cut off is read as fewer names, or with
another last one; only the last `sep` can be missed.
-/

set_option autoImplicit false

namespace Lib.PathNames

variable {α : Type} {sep stop : α}

/-- A name ends here. -/
def close (name : List α) : List (List α) := if name = [] then [] else [name]

/-- The names, when the first has begun with `name`. -/
def namesFrom [DecidableEq α] (sep stop : α) : List α → List α → List (List α)
  | name, [] => close name
  | name, c :: cs =>
    if c = stop then close name
    else if c = sep then close name ++ namesFrom sep stop [] cs
    else namesFrom sep stop (name ++ [c]) cs

def names [DecidableEq α] (sep stop : α) (path : List α) : List (List α) := namesFrom sep stop [] path

structure IsName (sep stop : α) (n : List α) : Prop where
  ne_nil : n ≠ []
  no_sep : sep ∉ n
  no_stop : stop ∉ n

def join (sep : α) (ns : List (List α)) : List α := ns.flatMap (· ++ [sep])

@[simp] theorem join_nil : join sep [] = [] := rfl

@[simp] theorem join_cons (n : List α) (ns : List (List α)) :
    join sep (n :: ns) = n ++ sep :: join sep ns := by
  simp [join]

theorem join_append (ns ms : List (List α)) : join sep (ns ++ ms) = join sep ns ++ join sep ms :=
  List.flatMap_append

theorem close_of_ne_nil {n : List α} (h : n ≠ []) : close n = [n] := if_neg h

theorem length_close (n : List α) : (close n).length ≤ 1 := by
  unfold close
  split <;> simp

variable [DecidableEq α]

/-! ## Reading -/

theorem namesFrom_append {n : List α} (hsep : sep ∉ n) (hstop : stop ∉ n) (name rest : List α) :
    namesFrom sep stop name (n ++ rest) = namesFrom sep stop (name ++ n) rest := by
  induction n generalizing name with
  | nil => rw [List.nil_append, List.append_nil]
  | cons c cs ih =>
    have hc : c ≠ stop ∧ c ≠ sep := by
      refine ⟨?_, ?_⟩
      · rintro rfl
        exact hstop List.mem_cons_self
      · rintro rfl
        exact hsep List.mem_cons_self
    rw [List.cons_append, namesFrom, if_neg hc.1, if_neg hc.2,
      ih (fun h => hsep (List.mem_cons_of_mem c h)) (fun h => hstop (List.mem_cons_of_mem c h)),
      List.append_assoc, List.singleton_append]

/-- One name with its separator. -/
theorem names_cons {n : List α} (h : IsName sep stop n) (hne : sep ≠ stop) (rest : List α) :
    names sep stop (n ++ sep :: rest) = n :: names sep stop rest := by
  rw [names, namesFrom_append h.no_sep h.no_stop, List.nil_append, namesFrom, if_neg hne, if_pos rfl,
    close_of_ne_nil h.ne_nil]
  rfl

theorem names_stop : names sep stop [stop] = [] := by
  simp [names, namesFrom, close]

theorem names_take_within {n : List α} (h : IsName sep stop n) {r : ℕ} (hr : r ≤ n.length)
    (rest : List α) : names sep stop ((n ++ sep :: rest).take r) = close (n.take r) := by
  rw [List.take_append_of_le_length hr, names, ← List.append_nil (n.take r),
    namesFrom_append (fun hmem => h.no_sep (List.mem_of_mem_take hmem))
      (fun hmem => h.no_stop (List.mem_of_mem_take hmem)), List.nil_append, List.append_nil]
  rfl

theorem names_take_beyond {n : List α} (h : IsName sep stop n) (hne : sep ≠ stop) (r : ℕ)
    (rest : List α) :
    names sep stop ((n ++ sep :: rest).take (n.length + 1 + r)) =
      n :: names sep stop (rest.take r) := by
  have htake : (n ++ sep :: rest).take (n.length + 1 + r) = n ++ sep :: rest.take r := by
    rw [List.take_append, List.take_of_length_le (by omega),
      show n.length + 1 + r - n.length = r + 1 by omega, List.take_succ_cons]
  rw [htake, names_cons h hne]

/-! ## A path that is cut off -/

section

variable {ns : List (List α)} (hns : ∀ n ∈ ns, IsName sep stop n) (hne : sep ≠ stop)

include hns hne

/-- Only the last separator may be missing. -/
theorem names_take_all {r : ℕ} (hr : (join sep ns).length ≤ r + 1) :
    names sep stop ((join sep ns ++ [stop]).take r) = ns := by
  induction ns generalizing r with
  | nil =>
    rw [join_nil, List.nil_append]
    cases r with
    | zero => rfl
    | succ r => rw [List.take_of_length_le (Nat.succ_le_succ (Nat.zero_le r)), names_stop]
  | cons n ns ih =>
    have hn := hns n List.mem_cons_self
    rw [join_cons, List.length_append, List.length_cons] at hr
    rw [join_cons, List.append_assoc, List.cons_append]
    by_cases hle : r ≤ n.length
    · cases ns with
      | cons m ms =>
        rw [join_cons, List.length_append, List.length_cons] at hr
        omega
      | nil =>
        rw [join_nil, List.length_nil] at hr
        rw [names_take_within hn hle, List.take_of_length_le (by omega), close_of_ne_nil hn.ne_nil]
    · obtain ⟨k, rfl⟩ := Nat.exists_eq_add_of_le (Nat.not_le.mp hle)
      rw [names_take_beyond hn hne, ih (fun m hm => hns m (List.mem_cons_of_mem n hm)) (by omega)]

theorem length_names_take (r : ℕ) :
    (names sep stop ((join sep ns ++ [stop]).take r)).length ≤ ns.length := by
  induction ns generalizing r with
  | nil =>
    rw [join_nil, List.nil_append]
    cases r with
    | zero => exact Nat.le_refl 0
    | succ r =>
      have hnil : names sep stop (List.take (r + 1) [stop]) = [] := by
        rw [List.take_of_length_le (Nat.succ_le_succ (Nat.zero_le r)), names_stop]
      exact Nat.le_of_eq (congrArg List.length hnil)
  | cons n ns ih =>
    have hn := hns n List.mem_cons_self
    rw [join_cons, List.append_assoc, List.cons_append]
    by_cases hle : r ≤ n.length
    · rw [names_take_within hn hle]
      exact Nat.le_trans (length_close _) (Nat.succ_le_succ (Nat.zero_le ns.length))
    · obtain ⟨k, rfl⟩ := Nat.exists_eq_add_of_le (Nat.not_le.mp hle)
      rw [names_take_beyond hn hne]
      exact Nat.succ_le_succ (ih (fun m hm => hns m (List.mem_cons_of_mem n hm)) k)

theorem names_take_cut {r : ℕ} (hr : r + 1 < (join sep ns).length) :
    (names sep stop ((join sep ns ++ [stop]).take r)).length < ns.length ∨
      ∃ init m last, ns = init ++ [last] ∧ m ≠ last ∧
        names sep stop ((join sep ns ++ [stop]).take r) = init ++ [m] := by
  induction ns generalizing r with
  | nil => exact absurd hr (Nat.not_lt_zero _)
  | cons n ns ih =>
    have hn := hns n List.mem_cons_self
    rw [join_cons, List.length_append, List.length_cons] at hr
    rw [join_cons, List.append_assoc, List.cons_append]
    by_cases hle : r ≤ n.length
    · rw [names_take_within hn hle]
      cases ns with
      | cons m ms => exact .inl (Nat.lt_succ_of_le (Nat.le_trans (length_close _) (by simp)))
      | nil =>
        -- the first name is the last, and cut off
        have hcut : n.take r ≠ n := by
          intro heq
          have hlen := congrArg List.length heq
          rw [List.length_take] at hlen
          simp only [join_nil, List.length_nil] at hr
          omega
        by_cases hnil : n.take r = []
        · rw [hnil]
          exact .inl Nat.zero_lt_one
        · rw [close_of_ne_nil hnil]
          exact .inr ⟨[], n.take r, n, rfl, hcut, rfl⟩
    · obtain ⟨k, rfl⟩ := Nat.exists_eq_add_of_le (Nat.not_le.mp hle)
      rw [names_take_beyond hn hne]
      rcases ih (fun m hm => hns m (List.mem_cons_of_mem n hm)) (by omega : k + 1 < _) with
        hlt | ⟨init, m, last, rfl, hm, heq⟩
      · exact .inl (Nat.succ_lt_succ hlt)
      · exact .inr ⟨n :: init, m, last, rfl, hm, by rw [heq, List.cons_append]⟩

end

end Lib.PathNames
