import Mathlib.Data.List.Nodup

/-!
# Tables kept as lists

A list of records that are told apart by a key, looked up, taken out and added at the end.
-/

set_option autoImplicit false

namespace Lib.KeyedList

variable {R K : Type} [DecidableEq K] {key : R → K} {l : List R} {r r' : R} {k k' : K}

def lookup (key : R → K) (l : List R) (k : K) : Option R := l.find? fun r => key r = k

def remove (key : R → K) (l : List R) (k : K) : List R := l.eraseP fun r => key r = k

theorem key_of_lookup (h : lookup key l k = some r) : key r = k := by
  simpa using List.find?_some h

theorem lookup_of_mem (hnodup : (l.map key).Nodup) (hr : r ∈ l) : lookup key l (key r) = some r := by
  have hsome : (lookup key l (key r)).isSome := List.find?_isSome.mpr ⟨r, hr, by simp⟩
  obtain ⟨r', hr'⟩ := Option.isSome_iff_exists.mp hsome
  have hmem : r' ∈ l := List.mem_of_find?_eq_some hr'
  rw [hr', List.inj_on_of_nodup_map hnodup hmem hr (key_of_lookup hr')]

theorem lookup_eq_none : lookup key l k = none ↔ k ∉ l.map key := by
  simp [lookup]

theorem lookup_remove_self (hnodup : (l.map key).Nodup) : lookup key (remove key l k) k = none := by
  rw [lookup_eq_none]
  induction l with
  | nil => exact List.not_mem_nil
  | cons r l ih =>
    rw [List.map_cons, List.nodup_cons] at hnodup
    by_cases hr : key r = k
    · rw [remove, List.eraseP_cons_of_pos (by simpa using hr), ← hr]
      exact hnodup.1
    · rw [remove, List.eraseP_cons_of_neg (by simpa using hr), List.map_cons, List.mem_cons, not_or]
      exact ⟨Ne.symm hr, ih hnodup.2⟩

theorem lookup_remove_of_ne (hne : k' ≠ k) : lookup key (remove key l k) k' = lookup key l k' := by
  induction l with
  | nil => rfl
  | cons r l ih =>
    by_cases hr : key r = k
    · have hr' : ¬ key r = k' := fun h => hne (h.symm.trans hr)
      rw [remove, List.eraseP_cons_of_pos (by simpa using hr), lookup, lookup,
        List.find?_cons_of_neg (by simpa using hr')]
    · rw [remove, List.eraseP_cons_of_neg (by simpa using hr), lookup, lookup, List.find?_cons,
        List.find?_cons]
      split
      · rfl
      · exact ih

theorem nodup_remove (h : (l.map key).Nodup) : ((remove key l k).map key).Nodup :=
  h.sublist (List.eraseP_sublist.map key)

theorem mem_of_mem_remove (h : r ∈ remove key l k) : r ∈ l := List.mem_of_mem_eraseP h

theorem lookup_append_self (h : lookup key l (key r) = none) : lookup key (l ++ [r]) (key r) = some r := by
  unfold lookup at *
  rw [List.find?_append, h]
  simp

theorem lookup_append_of_ne (h : k ≠ key r) : lookup key (l ++ [r]) k = lookup key l k := by
  unfold lookup
  rw [List.find?_append]
  simp [Ne.symm h]

theorem nodup_append (hnodup : (l.map key).Nodup) (h : lookup key l (key r) = none) :
    ((l ++ [r]).map key).Nodup := by
  rw [List.map_append, List.map_singleton, ← List.concat_eq_append]
  exact hnodup.concat (lookup_eq_none.mp h)

end Lib.KeyedList
