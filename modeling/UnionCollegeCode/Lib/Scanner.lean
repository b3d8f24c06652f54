import Mathlib.Algebra.Order.Ring.Int
import Mathlib.Data.List.TakeDrop
import Mathlib.Data.List.TakeWhile
import Mathlib.Data.Nat.Notation

/-!
# Reading integers out of text

`java.util.Scanner` as its documentation has it: a token runs up to the next place where the
delimiter pattern matches, and a delimiter in front of it is skipped. `nextInt` reads an optional
sign and a numeral, whose digits may stand in groups of three.

`Laid` and `Feeds` are the other direction. A text that lays integers out one after the other, each
followed by a delimiter, gives them back in their order.
-/

set_option autoImplicit false

namespace Lib.Scanner

/-! ## Tokens -/

/-- A pattern: one character of the first class, then all that follow of the second. -/
structure Delimiter where
  first : Char → Bool
  rest : Char → Bool

/-- The input without the delimiter at its front, when there is one. -/
def Delimiter.skip (d : Delimiter) : List Char → List Char
  | [] => []
  | c :: cs => if d.first c then cs.dropWhile d.rest else c :: cs

/-- The next token and the input after it. -/
def Delimiter.next (d : Delimiter) (input : List Char) : Option (List Char × List Char) :=
  match d.skip input with
  | [] => none
  | c :: cs => some ((c :: cs).span fun c => !d.first c)

/-! ## Integers -/

/-- What `nextInt` takes from the locale. Of the digits outside ASCII nothing is said. -/
structure ScanLocale where
  /-- `Character.digit(c, 10)`. -/
  digit : Char → Option ℕ
  groupSeparator : Char
  digit_ascii : ∀ c, c.toNat < 128 → digit c = if c.isDigit then some (c.toNat - 48) else none

/-- ASCII digits, in groups behind commas. -/
def ScanLocale.ascii : ScanLocale where
  digit c := if c.isDigit then some (c.toNat - 48) else none
  groupSeparator := ','
  digit_ascii _ _ := rfl

namespace ScanLocale

variable (loc : ScanLocale)

/-- `( groupSeparator Digit Digit Digit )*` -/
def groups : List Char → Option (List ℕ)
  | [] => some []
  | s :: a :: b :: c :: cs =>
    if s = loc.groupSeparator then do
      return [← loc.digit a, ← loc.digit b, ← loc.digit c] ++ (← groups cs)
    else none
  | _ => none

def value (digits : List ℕ) : ℕ := digits.foldl (fun n d => 10 * n + d) 0

/-- The digits at the front of a numeral and what follows them: nothing, or groups after up to
three digits of which the first is not zero. -/
def numeralOf (digits : List ℕ) (rest : List Char) : Option ℕ :=
  if digits = [] then none
  else if rest = [] then some (value digits)
  else if digits.length ≤ 3 ∧ digits.head? ≠ some 0 then
    (loc.groups rest).map fun more => value (digits ++ more)
  else none

def numeral (cs : List Char) : Option ℕ :=
  loc.numeralOf ((cs.takeWhile fun c => (loc.digit c).isSome).filterMap loc.digit)
    (cs.dropWhile fun c => (loc.digit c).isSome)

def toInt : List Char → Option ℤ
  | '-' :: cs => (loc.numeral cs).map fun n : ℕ => -(n : ℤ)
  | '+' :: cs => (loc.numeral cs).map fun n : ℕ => (n : ℤ)
  | cs => (loc.numeral cs).map fun n : ℕ => (n : ℤ)

end ScanLocale

/-- The values of an `int`. -/
def InRange (z : ℤ) : Prop := -2 ^ 31 ≤ z ∧ z < 2 ^ 31

instance (z : ℤ) : Decidable (InRange z) := inferInstanceAs (Decidable (_ ∧ _))

inductive Error
  | noSuchElement
  | inputMismatch
  deriving DecidableEq, Repr

def nextInt (loc : ScanLocale) (d : Delimiter) (input : List Char) : Except Error (ℤ × List Char) :=
  match d.next input with
  | none => throw .noSuchElement
  | some (token, rest) =>
    match loc.toInt token with
    | none => throw .inputMismatch
    | some z => if InRange z then return (z, rest) else throw .inputMismatch

/-- `Integer.toString`. -/
def intToString (z : ℤ) : List Char :=
  if z < 0 then '-' :: Nat.toDigits 10 z.natAbs else Nat.toDigits 10 z.natAbs

/-! ## The next token -/

variable {d : Delimiter}

theorem Delimiter.skip_of_not_first {c : Char} {cs : List Char} (h : d.first c = false) :
    d.skip (c :: cs) = c :: cs := by
  simp [skip, h]

/-- A delimiter, as a text has it. -/
def Delimiter.IsSep (d : Delimiter) (sep : List Char) : Prop :=
  ∃ c cs, sep = c :: cs ∧ d.first c = true ∧ ∀ w ∈ cs, d.rest w = true

theorem Delimiter.skip_sep {sep : List Char} (hsep : d.IsSep sep) {c : Char} {cs : List Char}
    (h : d.rest c = false) : d.skip (sep ++ c :: cs) = c :: cs := by
  obtain ⟨s, ws, rfl, hs, hws⟩ := hsep
  rw [List.cons_append, skip, if_pos hs, List.dropWhile_append_of_pos hws,
    List.dropWhile_cons_of_neg (by simp [h])]

theorem span_append (p : Char → Bool) {token rest : List Char} (ht : ∀ c ∈ token, p c = true)
    (hr : ∀ c ∈ rest.head?, p c = false) : (token ++ rest).span p = (token, rest) := by
  rw [List.span_eq_takeWhile_dropWhile p, List.takeWhile_append_of_pos ht,
    List.dropWhile_append_of_pos ht]
  cases rest with
  | nil => simp
  | cons c cs =>
    have hc : ¬ p c = true := by simp [hr c rfl]
    rw [List.takeWhile_cons_of_neg hc, List.dropWhile_cons_of_neg hc, List.append_nil]

/-- A token in front of a delimiter, or at the end. -/
theorem Delimiter.next_token {token rest : List Char} (hne : token ≠ [])
    (ht : ∀ c ∈ token, d.first c = false) (hr : ∀ c ∈ rest.head?, d.first c = true) :
    d.next (token ++ rest) = some (token, rest) := by
  obtain ⟨c, cs, rfl⟩ := List.exists_cons_of_ne_nil hne
  have hspan : (c :: cs ++ rest).span (fun c => !d.first c) = (c :: cs, rest) :=
    span_append _ (fun c hc => by simp [ht c hc]) fun c hc => by simp [hr c hc]
  rw [List.cons_append] at hspan ⊢
  rw [next, skip_of_not_first (ht c List.mem_cons_self), ← hspan]

/-- The same token behind a delimiter. -/
theorem Delimiter.next_sep {sep token rest : List Char} (hsep : d.IsSep sep) (hne : token ≠ [])
    (ht : ∀ c ∈ token, d.first c = false ∧ d.rest c = false)
    (hr : ∀ c ∈ rest.head?, d.first c = true) :
    d.next (sep ++ (token ++ rest)) = some (token, rest) := by
  have hnext := next_token (d := d) hne (fun c hc => (ht c hc).1) hr
  obtain ⟨c, cs, rfl⟩ := List.exists_cons_of_ne_nil hne
  obtain ⟨hfirst, hrest⟩ := ht c List.mem_cons_self
  rw [List.cons_append] at hnext ⊢
  rw [next, skip_of_not_first hfirst] at hnext
  rw [next, skip_sep hsep hrest]
  exact hnext

/-! ## Numerals -/

variable (loc : ScanLocale)

theorem ScanLocale.digit_of_isDigit {c : Char} (h : c.isDigit = true) :
    loc.digit c = some (c.toNat - 48) := by
  have hlt : c.toNat < 128 := by
    simp only [Char.isDigit, Bool.and_eq_true, decide_eq_true_eq] at h
    have := UInt32.le_iff_toNat_le.mp h.2
    exact lt_of_le_of_lt this (by decide)
  rw [loc.digit_ascii c hlt, if_pos h]

theorem ScanLocale.filterMap_digits {cs : List Char} (h : ∀ c ∈ cs, c.isDigit = true) :
    cs.filterMap loc.digit = cs.map fun c => c.toNat - 48 := by
  induction cs with
  | nil => rfl
  | cons c cs ih =>
    obtain ⟨hc, hcs⟩ := List.forall_mem_cons.mp h
    rw [List.filterMap_cons, loc.digit_of_isDigit hc, ih hcs, List.map_cons]

theorem ScanLocale.mapM_digits {cs : List Char} (h : ∀ c ∈ cs, c.isDigit = true) :
    cs.mapM loc.digit = some (cs.map fun c => c.toNat - 48) := by
  induction cs with
  | nil => rfl
  | cons c cs ih =>
    obtain ⟨hc, hcs⟩ := List.forall_mem_cons.mp h
    rw [List.mapM_cons, loc.digit_of_isDigit hc, ih hcs]
    rfl

theorem ScanLocale.value_digits (cs : List Char) :
    value (cs.map fun c => c.toNat - 48) = Nat.ofDigitChars 10 cs 0 := by
  rw [value, List.foldl_map, Nat.ofDigitChars_eq_foldl]
  rfl

theorem ScanLocale.numeral_of_digits {cs : List Char} (hne : cs ≠ [])
    (h : ∀ c ∈ cs, c.isDigit = true) : loc.numeral cs = some (Nat.ofDigitChars 10 cs 0) := by
  have hsome : ∀ c ∈ cs, (loc.digit c).isSome = true := fun c hc => by
    rw [loc.digit_of_isDigit (h c hc), Option.isSome_some]
  have htake : (cs.takeWhile fun c => (loc.digit c).isSome) = cs :=
    List.takeWhile_eq_self_iff.mpr hsome
  have hdrop : (cs.dropWhile fun c => (loc.digit c).isSome) = [] :=
    List.dropWhile_eq_nil_iff.mpr hsome
  rw [numeral, htake, hdrop, loc.filterMap_digits h, numeralOf, if_neg (by simpa using hne),
    if_pos rfl, value_digits]

theorem isDigit_intToString {z : ℤ} {c : Char} (hc : c ∈ intToString z) :
    c = '-' ∨ c.isDigit = true := by
  unfold intToString at hc
  split at hc
  · rcases List.mem_cons.mp hc with rfl | hc
    · exact .inl rfl
    · exact .inr (Nat.isDigit_of_mem_toDigits (by decide) (by decide) hc)
  · exact .inr (Nat.isDigit_of_mem_toDigits (by decide) (by decide) hc)

theorem intToString_ne_nil (z : ℤ) : intToString z ≠ [] := by
  unfold intToString
  split
  · exact List.cons_ne_nil _ _
  · exact Nat.toDigits_ne_nil

/-- **What is printed is read.** -/
theorem ScanLocale.toInt_intToString (z : ℤ) : loc.toInt (intToString z) = some z := by
  have hdigits : ∀ c ∈ Nat.toDigits 10 z.natAbs, c.isDigit = true := fun c hc =>
    Nat.isDigit_of_mem_toDigits (by decide) (by decide) hc
  have hnum : loc.numeral (Nat.toDigits 10 z.natAbs) = some z.natAbs := by
    rw [loc.numeral_of_digits Nat.toDigits_ne_nil hdigits, Nat.ofDigitChars_ten_toDigits]
  unfold intToString
  split
  · rename_i hneg
    rw [toInt, hnum, Option.map_some, Option.some.injEq]
    omega
  · rename_i hneg
    obtain ⟨c, cs, hcs⟩ := List.exists_cons_of_ne_nil (Nat.toDigits_ne_nil (n := z.natAbs) (b := 10))
    rw [hcs] at hnum hdigits ⊢
    have hc := hdigits c List.mem_cons_self
    rw [toInt, hnum, Option.map_some, Option.some.injEq]
    · omega
    · intro cs' he
      rw [(List.cons.inj he).1] at hc
      cases hc
    · intro cs' he
      rw [(List.cons.inj he).1] at hc
      cases hc

/-! ## What is not a numeral -/

theorem ScanLocale.groups_last {cs : List Char} (hne : cs ≠ []) (h : loc.groups cs ≠ none) :
    ∃ c, cs.getLast? = some c ∧ (loc.digit c).isSome = true := by
  fun_induction ScanLocale.groups loc cs with
  | case1 => exact absurd rfl hne
  | case2 a b c cs ih =>
    cases cs with
    | nil =>
      refine ⟨c, rfl, ?_⟩
      cases hc : loc.digit c with
      | none => simp [hc] at h
      | some n => rfl
    | cons c' cs =>
      have hgroups : loc.groups (c' :: cs) ≠ none := fun hnone => h (by simp [hnone])
      obtain ⟨l, hl, hdigit⟩ := ih (List.cons_ne_nil _ _) hgroups
      exact ⟨l, by simpa using hl, hdigit⟩
  | case3 => exact absurd rfl h
  | case4 => exact absurd rfl h

/-- A numeral ends in a digit. -/
theorem ScanLocale.numeral_last {cs : List Char} (h : loc.numeral cs ≠ none) :
    ∃ c, cs.getLast? = some c ∧ (loc.digit c).isSome = true := by
  have hsplit := List.takeWhile_append_dropWhile (p := fun c => (loc.digit c).isSome) (l := cs)
  unfold numeral numeralOf at h
  split_ifs at h with hdigits hrest hgroups
  · exact absurd rfl h
  · rw [hrest, List.append_nil] at hsplit
    cases hlast : cs.getLast? with
    | none =>
      rw [List.getLast?_eq_none_iff] at hlast
      exact absurd (by simp [hlast]) hdigits
    | some c =>
      have hc : c ∈ cs.takeWhile fun c => (loc.digit c).isSome := by
        rw [hsplit]
        exact List.mem_of_getLast? hlast
      exact ⟨c, rfl, List.mem_takeWhile_imp (p := fun c => (loc.digit c).isSome) hc⟩
  · obtain ⟨l, hl, hdigit⟩ := loc.groups_last hrest fun hnone => h (by rw [hnone]; rfl)
    refine ⟨l, ?_, hdigit⟩
    rw [← hsplit, List.getLast?_append, hl]
    rfl
  · exact absurd rfl h

theorem ScanLocale.toInt_last {cs : List Char} (h : loc.toInt cs ≠ none) :
    ∃ c, cs.getLast? = some c ∧ (loc.digit c).isSome = true := by
  unfold toInt at h
  split at h
  · obtain ⟨c, hc, hdigit⟩ := loc.numeral_last fun hnone => h (by rw [hnone]; rfl)
    exact ⟨c, by rw [List.getLast?_cons, hc]; rfl, hdigit⟩
  · obtain ⟨c, hc, hdigit⟩ := loc.numeral_last fun hnone => h (by rw [hnone]; rfl)
    exact ⟨c, by rw [List.getLast?_cons, hc]; rfl, hdigit⟩
  · exact loc.numeral_last fun hnone => h (by rw [hnone]; rfl)

/-- A token that ends in an ASCII character other than a digit is no integer. -/
theorem nextInt_mismatch {input token rest : List Char} (hnext : d.next input = some (token, rest))
    {c : Char} (hlast : token.getLast? = some c) (hascii : c.toNat < 128) (hc : c.isDigit = false) :
    nextInt loc d input = .error .inputMismatch := by
  have hnone : loc.toInt token = none := by
    by_contra hsome
    obtain ⟨c', hc', hdigit⟩ := loc.toInt_last hsome
    rw [hlast, Option.some.injEq] at hc'
    subst hc'
    rw [loc.digit_ascii c hascii, if_neg (by simp [hc])] at hdigit
    cases hdigit
  rw [nextInt, hnext]
  simp only [hnone]
  rfl

/-! ## Texts of integers -/

/-- No integer has a delimiter in it. -/
def Delimiter.Separates (d : Delimiter) : Prop :=
  ∀ c : Char, c = '-' ∨ c.isDigit = true → d.first c = false ∧ d.rest c = false

/-- Integers, each with what stands behind it. -/
def laid (items : List (ℤ × List Char)) : List Char := items.flatMap fun x => intToString x.1 ++ x.2

@[simp] theorem laid_cons (z : ℤ) (sep : List Char) (items : List (ℤ × List Char)) :
    laid ((z, sep) :: items) = intToString z ++ sep ++ laid items := rfl

/-- The text is these integers, each with one of the separators behind it. -/
def Laid (seps : List Char → Prop) (text : List Char) (zs : List ℤ) : Prop :=
  ∃ items, (∀ x ∈ items, seps x.2) ∧ text = laid items ∧ items.map Prod.fst = zs

variable {seps : List Char → Prop} {text text' : List Char} {zs zs' : List ℤ}

theorem Laid.nil (seps : List Char → Prop) : Laid seps [] [] := ⟨[], by simp, rfl, rfl⟩

theorem Laid.cons (h : Laid seps text zs) (z : ℤ) {sep : List Char} (hsep : seps sep) :
    Laid seps (intToString z ++ sep ++ text) (z :: zs) := by
  obtain ⟨items, hitems, rfl, rfl⟩ := h
  exact ⟨(z, sep) :: items, List.forall_mem_cons.mpr ⟨hsep, hitems⟩, rfl, rfl⟩

theorem Laid.append (h : Laid seps text zs) (h' : Laid seps text' zs') :
    Laid seps (text ++ text') (zs ++ zs') := by
  obtain ⟨items, hitems, rfl, rfl⟩ := h
  obtain ⟨items', hitems', rfl, rfl⟩ := h'
  refine ⟨items ++ items', fun x hx => ?_, List.flatMap_append.symm, List.map_append⟩
  rcases List.mem_append.mp hx with hx | hx
  · exact hitems x hx
  · exact hitems' x hx

theorem Laid.mem (h : Laid seps text zs) {c : Char} (hc : c ∈ text) :
    (c = '-' ∨ c.isDigit = true) ∨ ∃ sep, seps sep ∧ c ∈ sep := by
  obtain ⟨items, hitems, rfl, -⟩ := h
  obtain ⟨x, hx, hc⟩ := List.mem_flatMap.mp hc
  rcases List.mem_append.mp hc with hc | hc
  · exact .inl (isDigit_intToString hc)
  · exact .inr ⟨x.2, hitems x hx, hc⟩

/-- The text ends in a separator. -/
theorem Laid.getLast? (h : Laid seps text zs) (hzs : zs ≠ []) (hseps : ∀ sep, seps sep → sep ≠ []) :
    ∃ sep c, seps sep ∧ sep.getLast? = some c ∧ text.getLast? = some c := by
  obtain ⟨items, hitems, rfl, rfl⟩ := h
  have hne : items ≠ [] := fun he => hzs (by rw [he]; rfl)
  obtain ⟨init, ⟨z, sep⟩, he⟩ := (List.eq_nil_or_concat items).resolve_left hne
  rw [List.concat_eq_append] at he
  subst he
  have hsep : seps sep := hitems (z, sep) List.mem_concat_self
  cases hlast : sep.getLast? with
  | none => exact absurd (List.getLast?_eq_none_iff.mp hlast) (hseps sep hsep)
  | some c =>
    refine ⟨sep, c, hsep, hlast, ?_⟩
    rw [laid, List.flatMap_append, List.flatMap_singleton, ← List.append_assoc,
      List.getLast?_append, hlast]
    rfl

/-- The text holds these integers, one token each. -/
def Feeds (d : Delimiter) (s : List Char) (zs : List ℤ) : Prop :=
  ∃ sep items, (sep = [] ∨ d.IsSep sep) ∧ (∀ x ∈ items, InRange x.1 ∧ d.IsSep x.2) ∧
    s = sep ++ laid items ∧ items.map Prod.fst = zs

theorem Laid.feeds (h : Laid seps text zs) (hseps : ∀ sep, seps sep → d.IsSep sep)
    (hzs : ∀ z ∈ zs, InRange z) : Feeds d text zs := by
  obtain ⟨items, hitems, rfl, rfl⟩ := h
  exact ⟨[], items, .inl rfl,
    fun x hx => ⟨hzs x.1 (List.mem_map_of_mem hx), hseps x.2 (hitems x hx)⟩, rfl, rfl⟩

/-- **One integer is read, and the others are left.** -/
theorem Feeds.nextInt (hd : d.Separates) {s : List Char} {z : ℤ} {zs : List ℤ}
    (h : Feeds d s (z :: zs)) :
    ∃ s', Scanner.nextInt loc d s = .ok (z, s') ∧ Feeds d s' zs := by
  obtain ⟨sep, items, hsep, hitems, rfl, hzs⟩ := h
  cases items with
  | nil => cases hzs
  | cons x items =>
    obtain ⟨z', sep'⟩ := x
    obtain ⟨rfl, rfl⟩ := List.cons.inj hzs
    obtain ⟨⟨hz, hsep'⟩, hitems⟩ := List.forall_mem_cons.mp hitems
    refine ⟨sep' ++ laid items, ?_, sep', items, .inr hsep', hitems, rfl, rfl⟩
    have hhead : ∀ c ∈ (sep' ++ laid items).head?, d.first c = true := by
      obtain ⟨c, cs, rfl, hc, -⟩ := hsep'
      simpa using hc
    have hchars : ∀ c ∈ intToString z', d.first c = false ∧ d.rest c = false :=
      fun c hc => hd c (isDigit_intToString hc)
    have hnext : d.next (sep ++ laid ((z', sep') :: items)) =
        some (intToString z', sep' ++ laid items) := by
      rw [laid_cons, List.append_assoc]
      rcases hsep with rfl | hsep
      · exact Delimiter.next_token (intToString_ne_nil z') (fun c hc => (hchars c hc).1) hhead
      · exact Delimiter.next_sep hsep (intToString_ne_nil z') hchars hhead
    rw [Scanner.nextInt, hnext]
    simp only [loc.toInt_intToString, if_pos hz]
    rfl

end Lib.Scanner
