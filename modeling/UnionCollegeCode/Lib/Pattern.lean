import Mathlib.Data.List.TakeWhile
import Mathlib.Logic.Function.Basic

/-!
# Backtracking regular expressions

Patterns with groups, matched the way a backtracking matcher does it. `ways` lists the matches at a place
in the order in which they are tried, and the first of them is the match; `First` has a rule for every
pattern. `findall` goes through a text from left to right: an empty match counts, but the next match at the
same place has to take something.

What a group captures is a text of the group's own characters, whatever the rest of the pattern does.
-/

set_option autoImplicit false

namespace Lib.Pattern

/-- Patterns, with groups numbered by `ι`. Only a class of characters is repeated. -/
inductive Regex (ι : Type)
  | char (p : Char → Bool)
  | empty
  | seq (r t : Regex ι)
  | alt (r t : Regex ι)
  | star (p : Char → Bool)
  | group (i : ι) (r : Regex ι)

/-- What a match takes, what comes after it, and what the groups have captured: nothing, for a group that
took no part. -/
structure Found (ι : Type) where
  text : List Char
  rest : List Char
  groups : ι → List Char

/-- The ways to split off characters of a class, the longest first. -/
def spans (p : Char → Bool) : List Char → List (List Char × List Char)
  | [] => [([], [])]
  | c :: cs =>
    if p c then (spans p cs).map (fun m => (c :: m.1, m.2)) ++ [([], c :: cs)] else [([], c :: cs)]

namespace Regex

variable {ι : Type}

def opt (r : Regex ι) : Regex ι := .alt r .empty

variable [DecidableEq ι]

def ways : Regex ι → (ι → List Char) → List Char → List (Found ι)
  | .char _, _, [] => []
  | .char p, groups, c :: cs => if p c then [⟨[c], cs, groups⟩] else []
  | .empty, groups, s => [⟨[], s, groups⟩]
  | .seq r t, groups, s =>
    (ways r groups s).flatMap fun m =>
      (ways t m.groups m.rest).map fun m' => ⟨m.text ++ m'.text, m'.rest, m'.groups⟩
  | .alt r t, groups, s => ways r groups s ++ ways t groups s
  | .star p, groups, s => (spans p s).map fun m => ⟨m.1, m.2, groups⟩
  | .group i r, groups, s =>
    (ways r groups s).map fun m => { m with groups := Function.update m.groups i m.text }

/-- The match at the front of the text; `must` says that it may not be empty. -/
def first (r : Regex ι) (must : Bool) (s : List Char) : Option (Found ι) :=
  (ways r (fun _ => []) s).find? fun m => !must || !m.text.isEmpty

end Regex

open Regex

variable {ι : Type} [DecidableEq ι] {r t : Regex ι} {groups : ι → List Char} {s : List Char}
  {m m' : Found ι} {p : Char → Bool} {i : ι}

theorem append_of_mem_spans {w : List Char × List Char} (h : w ∈ spans p s) : w.1 ++ w.2 = s := by
  induction s generalizing w with
  | nil =>
    cases List.mem_singleton.mp h
    rfl
  | cons c cs ih =>
    rw [spans] at h
    split at h
    · rcases List.mem_append.mp h with hmem | hmem
      · obtain ⟨v, hv, rfl⟩ := List.mem_map.mp hmem
        exact congrArg (c :: ·) (ih hv)
      · cases List.mem_singleton.mp hmem
        rfl
    · cases List.mem_singleton.mp h
      rfl

theorem append_of_mem_ways (h : m ∈ ways r groups s) : m.text ++ m.rest = s := by
  induction r generalizing groups s m with
  | char p =>
    cases s with
    | nil => cases h
    | cons c cs =>
      obtain ⟨-, hm⟩ := List.mem_ite_nil_right.mp h
      cases List.mem_singleton.mp hm
      rfl
  | empty =>
    cases List.mem_singleton.mp h
    rfl
  | seq r t ihr iht =>
    obtain ⟨a, ha, hmem⟩ := List.mem_flatMap.mp h
    obtain ⟨b, hb, rfl⟩ := List.mem_map.mp hmem
    change (a.text ++ b.text) ++ b.rest = s
    rw [List.append_assoc, iht hb, ihr ha]
  | alt r t ihr iht =>
    rcases List.mem_append.mp h with hmem | hmem
    · exact ihr hmem
    · exact iht hmem
  | star p =>
    obtain ⟨w, hw, rfl⟩ := List.mem_map.mp h
    exact append_of_mem_spans hw
  | group i r ih =>
    obtain ⟨a, ha, rfl⟩ := List.mem_map.mp h
    exact ih (m := a) ha

theorem mem_ways_of_first {must : Bool} (h : r.first must s = some m) :
    m ∈ ways r (fun _ => []) s ∧ (must = true → m.text ≠ []) := by
  refine ⟨List.mem_of_find?_eq_some h, ?_⟩
  rintro rfl
  have hsome := List.find?_some h
  simpa using hsome

/-! ## All matches -/

/-- `re.findall`: the groups of the matches from left to right. `must` holds after an empty match. -/
def findall (r : Regex ι) (must : Bool) (s : List Char) : List (ι → List Char) :=
  match _ : r.first must s with
  | some m => m.groups :: findall r m.text.isEmpty m.rest
  | none =>
    match s with
    | [] => []
    | _ :: cs => findall r false cs
termination_by 2 * s.length + if must then 0 else 1
decreasing_by
  · rename_i h
    obtain ⟨hmem, htext⟩ := mem_ways_of_first h
    have hlen := congrArg List.length (append_of_mem_ways hmem)
    rw [List.length_append] at hlen
    cases hm : m.text with
    | nil =>
      cases must with
      | true => exact absurd hm (htext rfl)
      | false =>
        rw [hm, List.length_nil] at hlen
        simp
        omega
    | cons c cs =>
      rw [hm, List.length_cons] at hlen
      simp
      split <;> omega
  · simp
    split <;> omega

theorem findall_some {must : Bool} (h : r.first must s = some m) :
    findall r must s = m.groups :: findall r m.text.isEmpty m.rest := by
  rw [findall]
  split
  · rename_i m' h'
    cases h.symm.trans h'
    rfl
  · rename_i h'
    cases h.symm.trans h'

theorem findall_none {must : Bool} {c : Char} (h : r.first must (c :: s) = none) :
    findall r must (c :: s) = findall r false s := by
  rw [findall]
  split
  · rename_i m' h'
    cases h.symm.trans h'
  · rfl

theorem findall_nil {must : Bool} (h : r.first must [] = none) : findall r must [] = [] := by
  rw [findall]
  split
  · rename_i m' h'
    cases h.symm.trans h'
  · rfl

/-! ## The first way -/

/-- `m` is the way that is tried first. -/
def First (r : Regex ι) (groups : ι → List Char) (s : List Char) (m : Found ι) : Prop :=
  (ways r groups s).head? = some m

theorem First.first (h : First r (fun _ => []) s m) : r.first false s = some m := by
  unfold First at h
  unfold Regex.first
  cases hways : ways r (fun _ => []) s with
  | nil =>
    rw [hways] at h
    cases h
  | cons a as =>
    rw [hways] at h
    cases h
    rfl

theorem First.char {c : Char} (hc : p c = true) : First (.char p) groups (c :: s) ⟨[c], s, groups⟩ := by
  rw [First, ways, if_pos hc]
  rfl

theorem First.empty : First .empty groups s ⟨[], s, groups⟩ := rfl

theorem First.seq (h : First r groups s m) (h' : First t m.groups m.rest m') :
    First (.seq r t) groups s ⟨m.text ++ m'.text, m'.rest, m'.groups⟩ := by
  obtain ⟨as, has⟩ := List.head?_eq_some_iff.mp h
  obtain ⟨bs, hbs⟩ := List.head?_eq_some_iff.mp h'
  rw [First, ways, has, List.flatMap_cons, hbs]
  rfl

theorem First.alt_left (h : First r groups s m) : First (.alt r t) groups s m := by
  obtain ⟨as, has⟩ := List.head?_eq_some_iff.mp h
  rw [First, ways, has]
  rfl

theorem First.alt_right (h : ways r groups s = []) (h' : First t groups s m) :
    First (.alt r t) groups s m := by
  rw [First, ways, h]
  exact h'

theorem First.group (h : First r groups s m) :
    First (.group i r) groups s { m with groups := Function.update m.groups i m.text } := by
  obtain ⟨as, has⟩ := List.head?_eq_some_iff.mp h
  rw [First, ways, has]
  rfl

theorem First.opt_char {c : Char} (hc : p c = true) :
    First (opt (.char p)) groups (c :: s) ⟨[c], s, groups⟩ := .alt_left (.char hc)

/-- The text does not begin with a character of the class. -/
def Avoids (p : Char → Bool) (s : List Char) : Prop := ∀ c ∈ s.head?, p c = false

theorem ways_char_of_avoids (h : Avoids p s) : ways (.char p) groups s = [] := by
  cases s with
  | nil => rfl
  | cons c cs =>
    rw [ways, h c rfl]
    rfl

theorem First.opt_skip (h : Avoids p s) : First (opt (.char p)) groups s ⟨[], s, groups⟩ :=
  .alt_right (ways_char_of_avoids h) .empty

theorem head?_spans_append {w : List Char} (hw : ∀ c ∈ w, p c = true) (h : Avoids p s) :
    (spans p (w ++ s)).head? = some (w, s) := by
  induction w with
  | nil =>
    cases s with
    | nil => rfl
    | cons c cs =>
      rw [List.nil_append, spans, h c rfl]
      rfl
  | cons c w ih =>
    obtain ⟨hc, hw⟩ := List.forall_mem_cons.mp hw
    obtain ⟨as, has⟩ := List.head?_eq_some_iff.mp (ih hw)
    rw [List.cons_append, spans, if_pos hc, has]
    rfl

/-- A repetition takes all that it can. -/
theorem First.star {w : List Char} (hw : ∀ c ∈ w, p c = true) (h : Avoids p s) :
    First (.star p) groups (w ++ s) ⟨w, s, groups⟩ := by
  rw [First, ways, List.head?_map, head?_spans_append hw h]
  rfl

/-! ## What a group captures -/

/-- The pattern takes characters of the class only. -/
def Regex.Takes (p : Char → Prop) : Regex ι → Prop
  | .char q | .star q => ∀ c, q c = true → p c
  | .empty => True
  | .seq r t | .alt r t => r.Takes p ∧ t.Takes p
  | .group _ r => r.Takes p

/-- The group captures characters of the class only. -/
def Regex.Captures (i : ι) (p : Char → Prop) : Regex ι → Prop
  | .char _ | .star _ | .empty => True
  | .seq r t | .alt r t => r.Captures i p ∧ t.Captures i p
  | .group j r => (j = i → r.Takes p) ∧ r.Captures i p

section Captures

variable {P : Char → Prop}

theorem forall_of_mem_spans {w : List Char × List Char} (h : w ∈ spans p s) : ∀ c ∈ w.1, p c = true := by
  induction s generalizing w with
  | nil =>
    cases List.mem_singleton.mp h
    exact List.forall_mem_nil _
  | cons d cs ih =>
    rw [spans] at h
    split at h
    case isTrue hd =>
      rcases List.mem_append.mp h with hmem | hmem
      · obtain ⟨v, hv, rfl⟩ := List.mem_map.mp hmem
        exact List.forall_mem_cons.mpr ⟨hd, ih hv⟩
      · cases List.mem_singleton.mp hmem
        exact List.forall_mem_nil _
    case isFalse =>
      cases List.mem_singleton.mp h
      exact List.forall_mem_nil _

theorem Regex.Takes.text (hr : r.Takes P) (h : m ∈ ways r groups s) : ∀ c ∈ m.text, P c := by
  induction r generalizing groups s m with
  | char q =>
    cases s with
    | nil => cases h
    | cons d cs =>
      obtain ⟨hd, hm⟩ := List.mem_ite_nil_right.mp h
      cases List.mem_singleton.mp hm
      exact List.forall_mem_singleton.mpr (hr d hd)
  | empty =>
    cases List.mem_singleton.mp h
    exact List.forall_mem_nil _
  | seq r t ihr iht =>
    obtain ⟨a, ha, hmem⟩ := List.mem_flatMap.mp h
    obtain ⟨b, hb, rfl⟩ := List.mem_map.mp hmem
    exact List.forall_mem_append.mpr ⟨ihr hr.1 ha, iht hr.2 hb⟩
  | alt r t ihr iht =>
    rcases List.mem_append.mp h with hmem | hmem
    · exact ihr hr.1 hmem
    · exact iht hr.2 hmem
  | star q =>
    obtain ⟨w, hw, rfl⟩ := List.mem_map.mp h
    exact fun c hc => hr c (forall_of_mem_spans hw c hc)
  | group j r ih =>
    obtain ⟨a, ha, rfl⟩ := List.mem_map.mp h
    exact ih (m := a) hr ha

theorem Regex.Captures.of_mem (hr : r.Captures i P) (h : m ∈ ways r groups s) :
    ∀ c ∈ m.groups i, c ∈ groups i ∨ P c ∧ c ∈ s := by
  induction r generalizing groups s m with
  | char q =>
    cases s with
    | nil => cases h
    | cons d cs =>
      obtain ⟨-, hm⟩ := List.mem_ite_nil_right.mp h
      cases List.mem_singleton.mp hm
      exact fun c hc => .inl hc
  | empty =>
    cases List.mem_singleton.mp h
    exact fun c hc => .inl hc
  | star q =>
    obtain ⟨w, -, rfl⟩ := List.mem_map.mp h
    exact fun c hc => .inl hc
  | seq r t ihr iht =>
    obtain ⟨a, ha, hmem⟩ := List.mem_flatMap.mp h
    obtain ⟨b, hb, rfl⟩ := List.mem_map.mp hmem
    intro c hc
    rcases iht hr.2 hb c hc with hold | ⟨hP, hin⟩
    · exact ihr hr.1 ha c hold
    · exact .inr ⟨hP, append_of_mem_ways ha ▸ List.mem_append_right _ hin⟩
  | alt r t ihr iht =>
    rcases List.mem_append.mp h with hmem | hmem
    · exact ihr hr.1 hmem
    · exact iht hr.2 hmem
  | group j r ih =>
    obtain ⟨a, ha, rfl⟩ := List.mem_map.mp h
    intro c hc
    change c ∈ Function.update a.groups j a.text i at hc
    by_cases hij : i = j
    · subst hij
      rw [Function.update_self] at hc
      exact .inr ⟨(hr.1 rfl).text ha c hc, append_of_mem_ways ha ▸ List.mem_append_left _ hc⟩
    · rw [Function.update_of_ne hij] at hc
      exact ih hr.2 ha c hc

/-- Every capture of the group is a text of its own characters, out of the text searched. -/
theorem captures_findall (hr : r.Captures i P) {must : Bool} :
    ∀ captured ∈ findall r must s, ∀ c ∈ captured i, P c ∧ c ∈ s := by
  induction must, s using findall.induct r with
  | case1 must s m h ih =>
    obtain ⟨hmem, -⟩ := mem_ways_of_first h
    have hrest : ∀ c ∈ m.rest, c ∈ s := by
      rw [← append_of_mem_ways hmem]
      exact fun c hc => List.mem_append_right _ hc
    rw [findall_some h]
    refine List.forall_mem_cons.mpr ⟨fun c hc => ?_, fun captured hcap c hc => ?_⟩
    · rcases hr.of_mem hmem c hc with hnil | hown
      · cases hnil
      · exact hown
    · obtain ⟨hP, hin⟩ := ih captured hcap c hc
      exact ⟨hP, hrest c hin⟩
  | case2 must h =>
    rw [findall_nil h]
    exact List.forall_mem_nil _
  | case3 must d cs h ih =>
    rw [findall_none h]
    intro captured hcap c hc
    obtain ⟨hP, hin⟩ := ih captured hcap c hc
    exact ⟨hP, List.mem_cons_of_mem _ hin⟩

/-- Where none of the group's characters occurs it captures nothing. -/
theorem findall_group_eq_nil (hr : r.Captures i P) {must : Bool} (hs : ∀ c ∈ s, ¬ P c)
    {captured : ι → List Char} (h : captured ∈ findall r must s) : captured i = [] := by
  apply List.eq_nil_iff_forall_not_mem.mpr
  intro c hc
  obtain ⟨hP, hin⟩ := captures_findall hr captured h c hc
  exact hs c hin hP

end Captures

end Lib.Pattern
