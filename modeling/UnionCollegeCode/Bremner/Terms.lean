import Mathlib.Algebra.Order.Group.Abs
import Mathlib.Algebra.Order.Ring.Rat
import Mathlib.Data.Fin.VecNotation
import Mathlib.Data.Fintype.Basic
import Mathlib.Tactic.FinCases
import UnionCollegeCode.Lib.Pattern

/-!
# Terms of a printed polynomial: the patterns of `new_parsers.sage`

One pattern, all of whose parts are optional, is to read the terms of what Sage prints. On a term it
captures the sign, the coefficient, the variable and the exponent. The blank between two terms gives an
empty match.
-/

set_option autoImplicit false

namespace UnionCollegeCode.Bremner

open Function (update)
open Lib.Pattern

/-! ## The patterns -/

/-- What a match captures: `t[0]` to `t[5]`. -/
abbrev Captured := Fin 6 → List Char

/-- For the numbers of the groups. -/
scoped instance six_neZero : @NeZero ℕ Zero.ofOfNat0 6 := ⟨Nat.succ_ne_zero 5⟩

def literal (c : Char) : Regex (Fin 6) := .char fun d => d == c

/-- `(\-.|\+.)?` -/
def signPart : Regex (Fin 6) :=
  .opt (.group 0 (.alt (.seq (literal '-') (.char fun c => c != '\n'))
    (.seq (literal '+') (.char fun c => c != '\n'))))

/-- `(\d*)`. Of the digits that are not ASCII nothing is printed. -/
def digitsPart (i : Fin 6) : Regex (Fin 6) := .group i (.star Char.isDigit)

/-- `(\d*)[/]?(\d*)` -/
def fractionPart (i j : Fin 6) : Regex (Fin 6) :=
  .seq (digitsPart i) (.seq (.opt (literal '/')) (digitsPart j))

/-- `[\*]?`, the variable, and `[\^]?(\d*)[/]?(\d*)`. -/
def powerPart (v : Regex (Fin 6)) : Regex (Fin 6) :=
  .seq (.opt (literal '*')) (.seq v (.seq (.opt (literal '^')) (fractionPart 4 5)))

def termPattern (v : Regex (Fin 6)) : Regex (Fin 6) :=
  .seq signPart (.seq (fractionPart 1 2) (powerPart v))

/-- The patterns of `parse_in_ext1` end with one more `[\*]?`. -/
def starredPattern (v : Regex (Fin 6)) : Regex (Fin 6) := .seq (termPattern v) (.opt (literal '*'))

/-- `(x?)`, for any name. -/
def nameGroup (name : Char) : Regex (Fin 6) := .group 3 (.opt (literal name))

/-- `(c|b)?` -/
def eitherName : Regex (Fin 6) := .opt (.group 3 (.alt (literal 'c') (literal 'b')))

/-! ## What Sage prints -/

def denominator (q : ℚ) : List Char := if q.den = 1 then [] else Nat.toDigits 10 q.den

/-- The coefficient without its sign. -/
def magnitude (q : ℚ) : List Char :=
  Nat.toDigits 10 q.num.natAbs ++ if q.den = 1 then [] else '/' :: Nat.toDigits 10 q.den

def exponent (k : ℕ) : List Char := if k ≤ 1 then [] else Nat.toDigits 10 k

def printedPower (name : Char) (k : ℕ) : List Char :=
  if k ≤ 1 then [name] else name :: '^' :: Nat.toDigits 10 k

/-- A term `q * name^k` without its sign. -/
def printedTerm (name : Char) (q : ℚ) (k : ℕ) : List Char :=
  if k = 0 then magnitude q
  else if |q| = 1 then printedPower name k
  else magnitude q ++ '*' :: printedPower name k

def sign (q : ℚ) : List Char := if q < 0 then ['-', ' '] else ['+', ' ']

/-- A term that is not the first one. -/
def laterTerm (name : Char) (t : ℚ × ℕ) : List Char := ' ' :: (sign t.1 ++ printedTerm name t.1 t.2)

/-- A polynomial: the terms that are not zero, the highest first. -/
def printed (name : Char) : List (ℚ × ℕ) → List Char
  | [] => ['0']
  | t :: ts =>
    (if t.1 < 0 then ['-'] else []) ++ printedTerm name t.1 t.2 ++ ts.flatMap (laterTerm name)

def termsOf (f : ℕ → ℚ) (k : ℕ) : List (ℚ × ℕ) :=
  ((List.range k).reverse.map fun i => (f i, i)).filter fun t => t.1 ≠ 0

example : printed 'x' [(1, 3), (-3 / 2, 2), (-1, 1), (12, 0)] = "x^3 - 3/2*x^2 - x + 12".toList := by
  decide +kernel

/-! ## A term is captured -/

/-- What is captured of a term behind the text `s` of its sign. -/
def captured (s : List Char) (name : Char) (q : ℚ) (k : ℕ) : Captured :=
  ![s, if k ≠ 0 ∧ |q| = 1 then [] else Nat.toDigits 10 q.num.natAbs, denominator q,
    if k = 0 then [] else [name], exponent k, []]

def blank : Captured := fun _ => []

section Parts

variable {g : Captured} {s : List Char} {name : Char} {v : Regex (Fin 6)} {i j : Fin 6}

/-- Here a term ends. -/
def AtEnd (s : List Char) : Prop := ∀ c ∈ s.head?, c = ' '

theorem AtEnd.avoids {p : Char → Bool} (h : AtEnd s) (hp : p ' ' = false) : Avoids p s := by
  intro c hc
  rw [h c hc]
  exact hp

theorem avoids_cons {p : Char → Bool} {c : Char} (hc : p c = false) : Avoids p (c :: s) := by
  intro d hd
  cases hd
  exact hc

theorem digits_isDigit (k : ℕ) : ∀ c ∈ Nat.toDigits 10 k, c.isDigit = true := fun _ hc =>
  Nat.isDigit_of_mem_toDigits (by decide) (by decide) hc

theorem first_digits {w : List Char} (hw : ∀ c ∈ w, c.isDigit = true) (h : Avoids Char.isDigit s) :
    First (digitsPart i) g (w ++ s) ⟨w, s, update g i w⟩ := (First.star hw h).group

theorem first_literal (c : Char) : First (.opt (literal c)) g (c :: s) ⟨[c], s, g⟩ :=
  .opt_char (beq_self_eq_true c)

theorem first_skip {c : Char} (h : Avoids (fun d => d == c) s) :
    First (.opt (literal c)) g s ⟨[], s, g⟩ := .opt_skip h

theorem first_fraction_nil (h : Avoids Char.isDigit s) (h' : Avoids (fun d => d == '/') s) :
    First (fractionPart i j) g s ⟨[], s, update (update g i []) j []⟩ :=
  (first_digits (List.forall_mem_nil _) h).seq
    ((first_skip h').seq (first_digits (List.forall_mem_nil _) h))

theorem first_fraction_int {w : List Char} (hw : ∀ c ∈ w, c.isDigit = true) (h : Avoids Char.isDigit s)
    (h' : Avoids (fun d => d == '/') s) :
    First (fractionPart i j) g (w ++ s) ⟨w, s, update (update g i w) j []⟩ := by
  have hfirst := (first_digits (i := i) (g := g) hw h).seq
    ((first_skip h').seq (first_digits (i := j) (List.forall_mem_nil _) h))
  rw [List.nil_append, List.append_nil] at hfirst
  exact hfirst

theorem first_magnitude {q : ℚ} (h : Avoids Char.isDigit s) (h' : Avoids (fun d => d == '/') s) :
    First (fractionPart i j) g (magnitude q ++ s)
      ⟨magnitude q, s, update (update g i (Nat.toDigits 10 q.num.natAbs)) j (denominator q)⟩ := by
  have hnum := digits_isDigit q.num.natAbs
  by_cases hq : q.den = 1
  · rw [magnitude, denominator, if_pos hq, if_pos hq, List.append_nil]
    exact first_fraction_int hnum h h'
  · rw [magnitude, denominator, if_neg hq, if_neg hq, List.append_assoc, List.cons_append]
    exact (first_digits hnum (avoids_cons rfl)).seq
      ((first_literal _).seq (first_digits (digits_isDigit q.den) h))

/-- A character that no part of a pattern takes, but for the variable. -/
structure Plain (c : Char) : Prop where
  digit : c.isDigit = false
  other : ∀ d ∈ ['-', '+', '/', '*', '^'], (c == d) = false

/-- The variable part of a pattern reads a name. -/
structure Reads (v : Regex (Fin 6)) (name : Char) : Prop where
  plain : Plain name
  take : ∀ g s, First v g (name :: s) ⟨[name], s, update g 3 [name]⟩
  skip : ∀ g s, g 3 = [] → AtEnd s → First v g s ⟨[], s, update g 3 []⟩

theorem first_power_nil (hv : Reads v name) (h3 : g 3 = []) (h : AtEnd s) :
    First (powerPart v) g s ⟨[], s, update (update (update g 3 []) 4 []) 5 []⟩ :=
  (first_skip (h.avoids rfl)).seq ((hv.skip _ _ h3 h).seq
    ((first_skip (h.avoids rfl)).seq (first_fraction_nil (h.avoids rfl) (h.avoids rfl))))

theorem first_printedPower (hv : Reads v name) {k : ℕ} (h : AtEnd s) :
    First (.seq v (.seq (.opt (literal '^')) (fractionPart 4 5))) g (printedPower name k ++ s)
      ⟨printedPower name k, s, update (update (update g 3 [name]) 4 (exponent k)) 5 []⟩ := by
  by_cases hk : k ≤ 1
  · rw [printedPower, exponent, if_pos hk, if_pos hk]
    exact (hv.take _ _).seq
      ((first_skip (h.avoids rfl)).seq (first_fraction_nil (h.avoids rfl) (h.avoids rfl)))
  · rw [printedPower, exponent, if_neg hk, if_neg hk]
    exact (hv.take _ _).seq
      ((first_literal _).seq (first_fraction_int (digits_isDigit k) (h.avoids rfl) (h.avoids rfl)))

theorem avoids_printedPower {p : Char → Bool} {k : ℕ} (hp : p name = false) :
    Avoids p (printedPower name k ++ s) := by
  unfold printedPower
  split
  · exact avoids_cons hp
  · exact avoids_cons hp

theorem update_blank (i : Fin 6) : update blank i [] = blank := Function.update_eq_self i blank

theorem updates_eq (a b c d e f : List Char) :
    update (update (update (update (update (update blank 0 a) 1 b) 2 c) 3 d) 4 e) 5 f =
      ![a, b, c, d, e, f] := by
  funext i
  fin_cases i <;> rfl

theorem denominator_of_abs_eq_one {q : ℚ} (hq : |q| = 1) : denominator q = [] := by
  rcases (abs_eq zero_le_one).mp hq with rfl | rfl <;> rfl

/-- A term, behind the text of its sign. -/
theorem first_printedTerm (hv : Reads v name) (a : List Char) {q : ℚ} {k : ℕ} (h : AtEnd s) :
    First (.seq (fractionPart 1 2) (powerPart v)) (update blank 0 a) (printedTerm name q k ++ s)
      ⟨printedTerm name q k, s, captured a name q k⟩ := by
  by_cases hk : k = 0
  · have hfirst := (first_magnitude (i := 1) (j := 2) (g := update blank 0 a) (q := q)
      (h.avoids rfl) (h.avoids rfl)).seq (first_power_nil hv rfl h)
    rw [updates_eq, List.append_nil] at hfirst
    simpa [printedTerm, captured, exponent, hk] using hfirst
  have hname : (name == '*') = false := hv.plain.other _ (by decide)
  by_cases hq : |q| = 1
  · have hfirst := (first_fraction_nil (i := 1) (j := 2) (g := update blank 0 a)
      (avoids_printedPower hv.plain.digit) (avoids_printedPower (hv.plain.other _ (by decide)))).seq
      ((first_skip (avoids_printedPower hname)).seq (first_printedPower (k := k) hv h))
    rw [updates_eq] at hfirst
    simpa [powerPart, printedTerm, captured, denominator_of_abs_eq_one hq, hk, hq] using hfirst
  · have hfirst := (first_magnitude (i := 1) (j := 2) (g := update blank 0 a) (q := q)
      (s := '*' :: (printedPower name k ++ s)) (avoids_cons rfl) (avoids_cons rfl)).seq
      ((first_literal _).seq (first_printedPower (k := k) hv h))
    rw [updates_eq] at hfirst
    simpa [powerPart, printedTerm, captured, hk, hq] using hfirst

end Parts

/-! ## The characters of a term -/

section Characters

/-- A character of a term other than its name: those that the pattern has a part for, and the blank. -/
def Common (c : Char) : Prop := c.isDigit = true ∨ c ∈ [' ', '-', '+', '/', '*', '^']

theorem common_digits (k : ℕ) : ∀ c ∈ Nat.toDigits 10 k, Common c := fun c hc => .inl (digits_isDigit k c hc)

theorem common_magnitude (q : ℚ) : ∀ c ∈ magnitude q, Common c := by
  refine List.forall_mem_append.mpr ⟨common_digits _, ?_⟩
  split
  · exact List.forall_mem_nil _
  · exact List.forall_mem_cons.mpr ⟨.inr (by decide), common_digits _⟩

theorem characters_printedPower (name : Char) (k : ℕ) :
    ∀ c ∈ printedPower name k, c = name ∨ Common c := by
  unfold printedPower
  split
  · exact List.forall_mem_singleton.mpr (.inl rfl)
  · refine List.forall_mem_cons.mpr ⟨.inl rfl, List.forall_mem_cons.mpr ⟨.inr (.inr (by decide)), ?_⟩⟩
    exact fun c hc => .inr (common_digits k c hc)

theorem characters_laterTerm (name : Char) (t : ℚ × ℕ) : ∀ c ∈ laterTerm name t, c = name ∨ Common c := by
  have hsign : ∀ c ∈ sign t.1, c = name ∨ Common c := by
    have hspace : ' ' = name ∨ Common ' ' := .inr (.inr (by decide))
    unfold sign
    split
    · exact List.forall_mem_cons.mpr ⟨.inr (.inr (by decide)), List.forall_mem_singleton.mpr hspace⟩
    · exact List.forall_mem_cons.mpr ⟨.inr (.inr (by decide)), List.forall_mem_singleton.mpr hspace⟩
  have hmagnitude : ∀ c ∈ magnitude t.1, c = name ∨ Common c := fun c hc =>
    .inr (common_magnitude t.1 c hc)
  refine List.forall_mem_cons.mpr ⟨.inr (.inr (by decide)), List.forall_mem_append.mpr ⟨hsign, ?_⟩⟩
  unfold printedTerm
  split
  · exact hmagnitude
  split
  · exact characters_printedPower name t.2
  · exact List.forall_mem_append.mpr ⟨hmagnitude,
      List.forall_mem_cons.mpr ⟨.inr (.inr (by decide)), characters_printedPower name t.2⟩⟩

/-- Another name does not occur. -/
theorem not_mem_laterTerms {name other : Char} (hplain : Plain other) (hspace : (' ' == other) = false)
    (hne : other ≠ name) (ts : List (ℚ × ℕ)) : other ∉ ts.flatMap (laterTerm name) := by
  intro hmem
  obtain ⟨t, -, ht⟩ := List.mem_flatMap.mp hmem
  rcases characters_laterTerm name t other ht with hname | hdigit | hother
  · exact hne hname
  · rw [hplain.digit] at hdigit
    cases hdigit
  · rcases List.mem_cons.mp hother with rfl | hother
    · cases hspace
    · have hself := hplain.other other hother
      rw [beq_self_eq_true] at hself
      cases hself

end Characters

/-! ## A text is cut into its terms -/

section Cut

variable {groups : Captured} {s : List Char} {name : Char} {v : Regex (Fin 6)} {i j : Fin 6}

theorem first_sign (q : ℚ) : First signPart blank (sign q ++ s) ⟨sign q, s, update blank 0 (sign q)⟩ := by
  unfold sign
  split
  · exact First.alt_left (First.alt_left ((First.char rfl).seq (First.char rfl))).group
  · exact First.alt_left (First.alt_right rfl ((First.char rfl).seq (First.char rfl))).group

theorem first_noSign (h : Avoids (fun d => d == '-') s) (h' : Avoids (fun d => d == '+') s) :
    First signPart blank s ⟨[], s, update blank 0 []⟩ := by
  rw [update_blank]
  apply First.alt_right
  · simp only [Regex.ways, literal, ways_char_of_avoids h, ways_char_of_avoids h', List.flatMap_nil,
      List.append_nil, List.map_nil]
  · exact First.empty

theorem first_laterTerm (hv : Reads v name) {t : ℚ × ℕ} (h : AtEnd s) :
    First (termPattern v) blank (sign t.1 ++ printedTerm name t.1 t.2 ++ s)
      ⟨sign t.1 ++ printedTerm name t.1 t.2, s, captured (sign t.1) name t.1 t.2⟩ := by
  rw [List.append_assoc]
  exact (first_sign t.1).seq (first_printedTerm hv _ h)

/-- The leading term of a monic polynomial. -/
theorem first_printedPower_head (hv : Reads v name) {k : ℕ} (hk : k ≠ 0) (h : AtEnd s) :
    First (termPattern v) blank (printedPower name k ++ s)
      ⟨printedPower name k, s, captured [] name 1 k⟩ := by
  have hterm : printedTerm name 1 k = printedPower name k := by simp [printedTerm, hk]
  have hrest := first_printedTerm (q := 1) (k := k) hv [] h
  rw [hterm] at hrest
  exact (first_noSign (avoids_printedPower (hv.plain.other _ (by decide)))
    (avoids_printedPower (hv.plain.other _ (by decide)))).seq hrest

theorem atEnd_nil : AtEnd [] := by
  intro c hc
  cases hc

theorem atEnd_laterTerms (name : Char) (ts : List (ℚ × ℕ)) : AtEnd (ts.flatMap (laterTerm name)) := by
  cases ts with
  | nil => exact atEnd_nil
  | cons t ts =>
    intro c hc
    cases hc
    rfl

/-- A pattern that reads terms: what it does on a term, at a blank and at the end. -/
structure ReadsTerms (r : Regex (Fin 6)) (name : Char) : Prop where
  later : ∀ (t : ℚ × ℕ) s, AtEnd s → First r blank (sign t.1 ++ printedTerm name t.1 t.2 ++ s)
    ⟨sign t.1 ++ printedTerm name t.1 t.2, s, captured (sign t.1) name t.1 t.2⟩
  space : ∀ s, r.ways blank (' ' :: s) = [⟨[], ' ' :: s, blank⟩]
  stop : r.ways blank [] = [⟨[], [], blank⟩]

variable {r : Regex (Fin 6)}

/-- Where nothing can be taken, the match is empty and the search goes on behind the character. -/
theorem findall_stuck {c : Char} (h : r.ways blank (c :: s) = [⟨[], c :: s, blank⟩]) :
    findall r false (c :: s) = blank :: findall r false s := by
  have hfirst : r.first false (c :: s) = some ⟨[], c :: s, blank⟩ := by
    rw [Regex.first]
    exact congrArg _ h
  have hnone : r.first true (c :: s) = none := by
    rw [Regex.first]
    exact congrArg _ h
  rw [findall_some hfirst]
  exact congrArg (blank :: ·) (findall_none hnone)

theorem ReadsTerms.findall_nil (h : ReadsTerms r name) : findall r false [] = [blank] := by
  have hfirst : r.first false [] = some ⟨[], [], blank⟩ := by
    rw [Regex.first]
    exact congrArg _ h.stop
  have hnone : r.first true [] = none := by
    rw [Regex.first]
    exact congrArg _ h.stop
  rw [findall_some hfirst]
  exact congrArg (blank :: ·) (Lib.Pattern.findall_nil hnone)

theorem findall_head {k : ℕ} (h : First r blank (printedPower name k ++ s)
    ⟨printedPower name k, s, captured [] name 1 k⟩) :
    findall r false (printedPower name k ++ s) = captured [] name 1 k :: findall r false s := by
  have hempty : (printedPower name k).isEmpty = false := by
    unfold printedPower
    split <;> rfl
  rw [findall_some h.first, hempty]

theorem sign_append_isEmpty (q : ℚ) (w : List Char) : (sign q ++ w).isEmpty = false := by
  unfold sign
  split <;> rfl

/-- The terms behind the first one, one match for each and an empty one in front of it. -/
theorem ReadsTerms.findall_later (h : ReadsTerms r name) (ts : List (ℚ × ℕ)) :
    findall r false (ts.flatMap (laterTerm name)) =
      (ts.flatMap fun t => [blank, captured (sign t.1) name t.1 t.2]) ++ [blank] := by
  induction ts with
  | nil => exact h.findall_nil
  | cons t ts ih =>
    have hfirst := (h.later t _ (atEnd_laterTerms name ts)).first
    rw [List.flatMap_cons, laterTerm, List.cons_append, findall_stuck (h.space _), findall_some hfirst,
      sign_append_isEmpty, ih]
    rfl

end Cut

/-! ## The patterns read terms -/

section Patterns

variable {name : Char} {v : Regex (Fin 6)} {s : List Char}

theorem reads_nameGroup (h : Plain name) (hspace : (' ' == name) = false) :
    Reads (nameGroup name) name where
  plain := h
  take _ _ := (first_literal name).group
  skip _ _ _ hend := (first_skip (hend.avoids hspace)).group

theorem reads_eitherName : Reads eitherName 'c' where
  plain := ⟨rfl, by simp⟩
  take _ _ := First.alt_left (First.alt_left (First.char rfl)).group
  skip groups s h3 hend := by
    have hsame : update groups 3 [] = groups := by
      rw [← h3]
      exact Function.update_eq_self 3 groups
    have hc : Avoids (fun d => d == 'c') s := hend.avoids rfl
    have hb : Avoids (fun d => d == 'b') s := hend.avoids rfl
    rw [hsame]
    apply First.alt_right
    · simp only [Regex.ways, literal, ways_char_of_avoids hc, ways_char_of_avoids hb, List.append_nil,
        List.map_nil]
    · exact First.empty

/-- A character that the variable part does not take either is not taken at all. -/
theorem ways_termPattern_cons {c : Char} (hc : Plain c) (hv : v.ways blank (c :: s) = [⟨[], c :: s, blank⟩]) :
    (termPattern v).ways blank (c :: s) = [⟨[], c :: s, blank⟩] := by
  have hother := hc.other
  simp only [List.forall_mem_cons] at hother
  simp [termPattern, signPart, fractionPart, digitsPart, powerPart, literal, Regex.opt, Regex.ways, spans,
    hc.digit, hother, hv, update_blank]

theorem ways_termPattern_nil (hv : v.ways blank [] = [⟨[], [], blank⟩]) :
    (termPattern v).ways blank [] = [⟨[], [], blank⟩] := by
  simp [termPattern, signPart, fractionPart, digitsPart, powerPart, literal, Regex.opt, Regex.ways, spans,
    hv, update_blank]

theorem ways_nameGroup {c : Char} (h : (c == name) = false) :
    (nameGroup name).ways blank (c :: s) = [⟨[], c :: s, blank⟩] := by
  simp [nameGroup, literal, Regex.opt, Regex.ways, h, update_blank]

theorem readsTerms_nameGroup (h : Plain name) (hspace : (' ' == name) = false) :
    ReadsTerms (termPattern (nameGroup name)) name where
  later _ _ hend := first_laterTerm (reads_nameGroup h hspace) hend
  space _ := ways_termPattern_cons ⟨rfl, by simp⟩ (ways_nameGroup hspace)
  stop := ways_termPattern_nil (by simp [nameGroup, literal, Regex.opt, Regex.ways, update_blank])

theorem ways_starredPattern (hv : (termPattern v).ways blank s = [⟨[], s, blank⟩])
    (hs : Avoids (fun d => d == '*') s) : (starredPattern v).ways blank s = [⟨[], s, blank⟩] := by
  simp [starredPattern, literal, Regex.opt, Regex.ways, hv, ways_char_of_avoids hs]

theorem first_starredPattern {m : Found (Fin 6)} (h : First (termPattern v) blank s m) (hend : AtEnd m.rest) :
    First (starredPattern v) blank s m := by
  have hfirst := h.seq (first_skip (c := '*') (hend.avoids rfl))
  rw [List.append_nil] at hfirst
  exact hfirst

theorem readsTerms_eitherName : ReadsTerms (starredPattern eitherName) 'c' where
  later _ _ hend := first_starredPattern (first_laterTerm reads_eitherName hend) hend
  space _ := ways_starredPattern (ways_termPattern_cons ⟨rfl, by simp⟩ rfl) (avoids_cons rfl)
  stop := ways_starredPattern (ways_termPattern_nil rfl) (by intro c hc; cases hc)

theorem captures_nameGroup : (termPattern (nameGroup name)).Captures 3 fun c => c = name := by
  simp [termPattern, signPart, fractionPart, digitsPart, powerPart, nameGroup, literal, Regex.opt,
    Regex.Captures, Regex.Takes]

theorem captures_starred : (starredPattern (nameGroup name)).Captures 3 fun c => c = name := by
  simp [starredPattern, termPattern, signPart, fractionPart, digitsPart, powerPart, nameGroup, literal,
    Regex.opt, Regex.Captures, Regex.Takes]

end Patterns

end UnionCollegeCode.Bremner
