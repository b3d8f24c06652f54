import UnionCollegeCode.Bremner.MinPoly
import UnionCollegeCode.Bremner.Terms

/-!
# `new_parsers.sage`

The three parsers go through the matches of a pattern and add up a vector. What they are given is a
polynomial as Sage prints it, a leading term in the first place and the other terms behind it. Vectors are
values. `parse1` evaluates the polynomial; what the other two compute is not what their comments say.
-/

set_option autoImplicit false

namespace UnionCollegeCode.Bremner

open Lib.Pattern Polynomial

/-! ## The source -/

section Source

variable {n : ℕ}

inductive PyError
  | zeroDivision
  | unboundLocal

/-- `int(text)` -/
def int (text : List Char) : ℕ := Nat.ofDigitChars 10 text 0

/-- `if (t[2] != ''): v /= int(t[2])` -/
def divided (t : Captured) (v : Vec n) : Except PyError (Vec n) :=
  if t 2 = [] then .ok v
  else if int (t 2) = 0 then .error .zeroDivision
  else .ok ((int (t 2) : ℚ)⁻¹ • v)

/-- `if(t[0] == '- '): v *= -1` -/
def signed (t : Captured) (v : Vec n) : Vec n := if t 0 = ['-', ' '] then (-1 : ℚ) • v else v

/-- The last two tests of every branch. -/
def divideAndSign (t : Captured) (v : Vec n) : Except PyError (Vec n) := (divided t v).map (signed t)

/-- The tests of `t[1]`, `t[2]` and `t[0]`. -/
def scale (t : Captured) (v : Vec n) : Except PyError (Vec n) :=
  divideAndSign t (if t 1 ≠ [] then (int (t 1) : ℚ) • v else v)

/-- `for i in range(1,int(t[4])): u_i = AlgebraProduct(u_i,u,F)` -/
def raise (t : Captured) (u : Vec n) (F : Tensor n) : Vec n :=
  if t 4 ≠ [] then (List.range' 1 (int (t 4) - 1)).foldl (fun u_i _ => algebraProduct u_i u F) u else u

def parse1Step (u e : Vec n) (F : Tensor n) (out : Vec n) (t : Captured) : Except PyError (Vec n) := do
  if t 3 = ['x'] then
    let u_i ← scale t (raise t u F)
    return out + u_i
  else if t 1 ≠ [] then
    let u_i ← divideAndSign t ((int (t 1) : ℚ) • e)
    return out + u_i
  else
    return out

def parse1 (f : List Char) (u e : Vec n) (F : Tensor n) : Except PyError (Vec n) :=
  (findall (termPattern (nameGroup 'x')) false f).foldlM (parse1Step u e F) 0

/-- The first loop, with the `a_i` of the last round. -/
def prim1Step (a : Vec n) (F : Tensor n) (s : Vec n × Option (Vec n)) (t : Captured) :
    Except PyError (Vec n × Option (Vec n)) := do
  if t 3 ≠ [] then
    let a_i ← scale t (raise t a F)
    return (s.1 + a_i, some a_i)
  else
    return s

/-- The second loop. It goes through `termsa` again, and reads `a_i` as the first one left it. -/
def prim1Step2 (a b : Vec n) (F : Tensor n) (a_i : Option (Vec n)) (out : Vec n) (t : Captured) :
    Except PyError (Vec n) := do
  if t 3 ≠ [] then
    if t 4 ≠ [] then
      let b_i ← (List.range' 1 (int (t 4) - 1)).foldlM (fun _ _ =>
        match a_i with
        | some a_i => return algebraProduct a_i a F
        | none => throw .unboundLocal) b
      let b_i ← scale t b_i
      return out + b_i
    else
      return out
  else
    return out

/-- `termsb` is not read again. -/
def parsePrim1 (f : List Char) (a b : Vec n) (F : Tensor n) (first : Bool) :
    Except PyError (Vec n) := do
  let termsa := findall (termPattern (nameGroup 'a')) false f
  let termsb := findall (termPattern (nameGroup 'b')) false f
  let (termsa, _termsb) :=
    if first then (termsa, termsb) else (termsb, findall (termPattern (nameGroup 'c')) false f)
  let (out, a_i) ← termsa.foldlM (prim1Step a F) (0, none)
  termsa.foldlM (prim1Step2 a b F a_i) out

/-- `for i in range(1,int(t[4])): u_i = AlgebraProduct(v,v,F)`, where `u_i` may not have been set before. -/
def squareInto (t : Captured) (v : Vec n) (F : Tensor n) (u_i : Option (Vec n)) : Option (Vec n) :=
  if t 4 ≠ [] then (List.range' 1 (int (t 4) - 1)).foldl (fun _ _ => some (algebraProduct v v F)) u_i
  else u_i

/-- The loop over `termsc`. -/
def inExt1StepC (c : Vec n) (F : Tensor n) (s : Vec n × Option (Vec n)) (t : Captured) :
    Except PyError (Vec n × Option (Vec n)) := do
  if t 3 ≠ [] then
    let u_i := squareInto t c F s.2
    let c_i ← scale t c
    return (s.1 + c_i, u_i)
  else
    return s

/-- The loop over `termsx`. -/
def inExt1StepX (x e : Vec n) (F : Tensor n) (s : Vec n × Option (Vec n)) (t : Captured) :
    Except PyError (Vec n × Option (Vec n)) := do
  if t 3 = ['x'] then
    let u_i := squareInto t x F s.2
    let _ ← scale t x
    match u_i with
    | some u => return (s.1 + u, u_i)
    | none => throw .unboundLocal
  else if t 1 ≠ [] then
    let x_i ← divideAndSign t ((int (t 1) : ℚ) • e)
    return (s.1 + x_i, s.2)
  else
    return s

def parseInExt1 (f : List Char) (x c e : Vec n) (F : Tensor n) : Except PyError (Vec n) := do
  let termsc := findall (starredPattern (nameGroup 'x')) false f
  let termsx := findall (starredPattern eitherName) false f
  let s ← termsc.foldlM (inExt1StepC c F) (0, none)
  let s ← termsx.foldlM (inExt1StepX x e F) s
  return s.1

end Source

/-! ## One match -/

section Match

variable {n : ℕ} {name : Char} {q : ℚ} {k : ℕ} (v : Vec n)

theorem int_digits (k : ℕ) : int (Nat.toDigits 10 k) = k := Nat.ofDigitChars_ten_toDigits

theorem divided_captured {s : List Char} :
    divided (captured s name q k) v = .ok ((q.den : ℚ)⁻¹ • v) := by
  by_cases hq : q.den = 1
  · have hden : captured s name q k 2 = [] := if_pos hq
    rw [divided, if_pos hden, hq, Nat.cast_one, inv_one, one_smul]
  · have hden : captured s name q k 2 = Nat.toDigits 10 q.den := if_neg hq
    rw [divided, hden, if_neg Nat.toDigits_ne_nil, int_digits, if_neg q.den_ne_zero]

/-- The sign, the denominator and the numerator make up the coefficient. -/
theorem signed_coefficient (v : Vec n) :
    signed (captured (sign q) name q k) ((q.den : ℚ)⁻¹ • (q.num.natAbs : ℚ) • v) = q • v := by
  have habs : ((q.den : ℚ)⁻¹ * q.num.natAbs) = |q| := by
    rw [Rat.abs_def, Rat.divInt_eq_div, div_eq_inv_mul]
    rfl
  rw [smul_smul, habs]
  by_cases hq : q < 0
  · have hsign : captured (sign q) name q k 0 = ['-', ' '] := if_pos hq
    rw [signed, if_pos hsign, smul_smul, abs_of_neg hq, neg_one_mul, neg_neg]
  · have hsign : captured (sign q) name q k 0 = ['+', ' '] := if_neg hq
    rw [signed, hsign, if_neg (by decide), abs_of_nonneg (not_lt.mp hq)]

theorem divideAndSign_captured : divideAndSign (captured (sign q) name q k) ((q.num.natAbs : ℚ) • v) =
    .ok (q • v) := by
  rw [divideAndSign, divided_captured]
  exact congrArg Except.ok (signed_coefficient v)

theorem natAbs_num_of_abs_eq_one (hq : |q| = 1) : q.num.natAbs = 1 := by
  rcases (abs_eq zero_le_one).mp hq with rfl | rfl <;> rfl

theorem scale_captured : scale (captured (sign q) name q k) v = .ok (q • v) := by
  have hnum : (if captured (sign q) name q k 1 ≠ [] then
      (int (captured (sign q) name q k 1) : ℚ) • v else v) = (q.num.natAbs : ℚ) • v := by
    by_cases hunit : k ≠ 0 ∧ |q| = 1
    · have hempty : captured (sign q) name q k 1 = [] := if_pos hunit
      rw [hempty, if_neg (not_not.mpr rfl), natAbs_num_of_abs_eq_one hunit.2, Nat.cast_one, one_smul]
    · have hdigits : captured (sign q) name q k 1 = Nat.toDigits 10 q.num.natAbs := if_neg hunit
      rw [hdigits, if_pos Nat.toDigits_ne_nil, int_digits]
  rw [scale, hnum]
  exact divideAndSign_captured v

/-- The leading term has no sign and no coefficient. -/
theorem scale_head (hk : k ≠ 0) : scale (captured [] name 1 k) v = .ok v := by
  have hempty : captured [] name 1 k 1 = [] := if_pos ⟨hk, abs_one⟩
  rw [scale, hempty, if_neg (not_not.mpr rfl)]
  rfl

theorem raise_captured (u e : Vec n) (F : Tensor n) {s : List Char} (hk : k ≠ 0) :
    raise (captured s name q k) u F = power u e F k := by
  have hloop : ∀ j, (List.range' 1 j).foldl (fun u_i _ => algebraProduct u_i u F) u =
      power u e F (j + 1) := by
    intro j
    induction j with
    | zero => rfl
    | succ j ih =>
      rw [List.range'_1_concat, List.foldl_append, ih]
      rfl
  obtain ⟨j, rfl⟩ := Nat.exists_eq_succ_of_ne_zero hk
  by_cases hj : j = 0
  · subst hj
    rfl
  · have hexp : captured s name q (j + 1) 4 = Nat.toDigits 10 (j + 1) := if_neg (by omega)
    rw [raise, hexp, if_pos Nat.toDigits_ne_nil, int_digits]
    exact hloop j

end Match

/-! ## The loops -/

section Loops

variable {n : ℕ} {σ : Type} {name : Char}

/-- A loop over the matches of the later terms, which adds one vector for each term. `at_` is the state of the
loop for a sum. -/
theorem foldlM_later {step : σ → Captured → Except PyError σ} (at_ : Vec n → σ) {g : ℚ × ℕ → Vec n}
    (hblank : ∀ out, step (at_ out) blank = .ok (at_ out))
    (hterm : ∀ t out, step (at_ out) (captured (sign t.1) name t.1 t.2) = .ok (at_ (out + g t)))
    (ts : List (ℚ × ℕ)) : ∀ out,
    ((ts.flatMap fun t => [blank, captured (sign t.1) name t.1 t.2]) ++ [blank]).foldlM step (at_ out) =
      .ok (at_ (out + (ts.map g).sum)) := by
  induction ts with
  | nil =>
    intro out
    rw [List.map_nil, List.sum_nil, add_zero]
    change step (at_ out) blank >>= pure = _
    rw [hblank]
    rfl
  | cons t ts ih =>
    intro out
    have hrest := ih (out + g t)
    rw [List.map_cons, List.sum_cons, ← add_assoc, ← hrest]
    change (step (at_ out) blank >>= fun s => step s (captured (sign t.1) name t.1 t.2) >>= fun s => _) = _
    rw [hblank]
    change (step (at_ out) (captured (sign t.1) name t.1 t.2) >>= fun s => _) = _
    rw [hterm]
    rfl

/-- A loop that skips the matches it is given. -/
theorem foldlM_skip {step : σ → Captured → Except PyError σ} {s : σ} {ts : List Captured}
    (h : ∀ t ∈ ts, step s t = .ok s) : ts.foldlM step s = .ok s := by
  induction ts with
  | nil => rfl
  | cons t ts ih =>
    obtain ⟨ht, hts⟩ := List.forall_mem_cons.mp h
    rw [List.foldlM_cons, ht]
    exact ih hts

theorem sum_termsOf (f : ℕ → ℚ) (w : ℚ → ℕ → Vec n) (hw : ∀ i, w 0 i = 0) (k : ℕ) :
    ((termsOf f k).map fun t => w t.1 t.2).sum = ∑ i ∈ Finset.range k, w (f i) i := by
  induction k with
  | zero => rfl
  | succ k ih =>
    rw [Finset.sum_range_succ, ← ih, termsOf, List.range_succ, List.reverse_append, List.map_append,
      List.filter_append, List.map_append, List.sum_append, add_comm]
    congr 1
    by_cases hk : f k = 0
    · simp [hk, hw]
    · simp [hk]

theorem termsOf_succ {f : ℕ → ℚ} {k : ℕ} (hk : f k ≠ 0) : termsOf f (k + 1) = (f k, k) :: termsOf f k := by
  rw [termsOf, List.range_succ, List.reverse_append, List.map_append, List.filter_append]
  simp [hk, termsOf]

theorem valueAt_eq_sum {u e : Vec n} {F : Tensor n} (p : ℚ[X]) :
    valueAt u e F p = ∑ i ∈ Finset.range (p.natDegree + 1), p.coeff i • power u e F i := by
  rw [valueAt, lsum_apply]
  exact p.sum_over_range fun i => zero_smul ℚ _

end Loops

/-! ## `parse1` -/

section Parse1

variable {n : ℕ} {u e : Vec n} {F : Tensor n}

theorem parse1Step_blank (out : Vec n) : parse1Step u e F out blank = .ok out := rfl

theorem parse1Step_later (t : ℚ × ℕ) (out : Vec n) :
    parse1Step u e F out (captured (sign t.1) 'x' t.1 t.2) = .ok (out + t.1 • power u e F t.2) := by
  obtain ⟨q, k⟩ := t
  by_cases hk : k = 0
  · subst hk
    have hname : captured (sign q) 'x' q 0 3 = [] := rfl
    have hdigits : captured (sign q) 'x' q 0 1 = Nat.toDigits 10 q.num.natAbs := rfl
    rw [parse1Step, hname, if_neg (by decide), hdigits, if_pos Nat.toDigits_ne_nil, int_digits,
      divideAndSign_captured]
    rfl
  · have hname : captured (sign q) 'x' q k 3 = ['x'] := if_neg hk
    rw [parse1Step, if_pos hname, raise_captured u e F hk, scale_captured]
    rfl

theorem parse1Step_head {k : ℕ} (hk : k ≠ 0) (out : Vec n) :
    parse1Step u e F out (captured [] 'x' 1 k) = .ok (out + power u e F k) := by
  have hname : captured [] 'x' 1 k 3 = ['x'] := if_neg hk
  rw [parse1Step, if_pos hname, raise_captured u e F hk, scale_head _ hk]
  rfl

/-- `str(p)` -/
def polynomialString (p : ℚ[X]) : List Char := printed 'x' (termsOf p.coeff (p.natDegree + 1))

/-- **`parse1` undoes printing.** -/
theorem parse1_polynomialString {p : ℚ[X]} (hp : p.Monic) (hdeg : 1 ≤ p.natDegree) (u e : Vec n)
    (F : Tensor n) : parse1 (polynomialString p) u e F = .ok (valueAt u e F p) := by
  have hk : p.natDegree ≠ 0 := Nat.one_le_iff_ne_zero.mp hdeg
  have hlead : p.coeff p.natDegree = 1 := hp
  obtain ⟨ts, hts⟩ : ∃ ts, ts = termsOf p.coeff p.natDegree := ⟨_, rfl⟩
  have hname : Plain 'x' := ⟨rfl, by simp⟩
  have hstring : polynomialString p = printedPower 'x' p.natDegree ++ ts.flatMap (laterTerm 'x') := by
    rw [polynomialString, termsOf_succ (by rw [hlead]; exact one_ne_zero), hlead, hts]
    simp [printed, printedTerm, hk]
  have hhead := findall_head (first_printedPower_head (reads_nameGroup hname rfl) hk
    (atEnd_laterTerms 'x' ts))
  rw [parse1, hstring, hhead, (readsTerms_nameGroup hname rfl).findall_later, List.foldlM_cons,
    parse1Step_head hk]
  refine (foldlM_later (g := fun t => t.1 • power u e F t.2) id parse1Step_blank parse1Step_later ts
    _).trans ?_
  rw [hts, sum_termsOf p.coeff (fun q i => q • power u e F i) (fun i => zero_smul ℚ _), valueAt_eq_sum,
    Finset.sum_range_succ, hlead, one_smul, zero_add, add_comm]
  rfl

/-- `x^2 + 1/2` -/
theorem parse1_dualNumbers :
    parse1 (polynomialString (X ^ 2 + C (1 / 2))) ![0, 1] ![1, 0] dualNumbers =
      .ok (valueAt ![0, 1] ![1, 0] dualNumbers (X ^ 2 + C (1 / 2))) := by
  apply parse1_polynomialString
  · exact monic_X_pow_add_C _ two_ne_zero
  · rw [natDegree_X_pow_add_C]
    exact one_le_two

end Parse1

/-! ## `parse_prim1` -/

section ParsePrim1

variable {n : ℕ} {v w : Vec n} {F : Tensor n} {k : ℚ}

/-- `str(a + k*b)` -/
def primString (a b : Char) (k : ℚ) : List Char :=
  printedPower a 1 ++ (if k = 0 then [] else [(k, 1)]).flatMap (laterTerm b)

/-- Only the first match is one of the name. -/
theorem findall_primString {a b : Char} (ha : Plain a) (hspace : (' ' == a) = false) (hne : a ≠ b) :
    ∃ ts, findall (termPattern (nameGroup a)) false (primString a b k) = captured [] a 1 1 :: ts ∧
      ∀ t ∈ ts, t 3 = [] := by
  refine ⟨_, findall_head (first_printedPower_head (reads_nameGroup ha hspace) one_ne_zero
    (atEnd_laterTerms b _)), ?_⟩
  intro t ht
  apply findall_group_eq_nil captures_nameGroup _ ht
  rintro c hc rfl
  exact not_mem_laterTerms ha hspace hne _ hc

theorem prim1_loops {a : Char} {ts : List Captured} (hts : ∀ t ∈ ts, t 3 = []) :
    (captured [] a 1 1 :: ts).foldlM (prim1Step v F) (0, none) = .ok (v, some v) ∧
      (captured [] a 1 1 :: ts).foldlM (prim1Step2 v w F (some v)) v = .ok v := by
  constructor
  · have hhead : prim1Step v F (0, none) (captured [] a 1 1) = .ok (v, some v) := by
      have hname : captured [] a 1 1 3 ≠ [] := List.cons_ne_nil a []
      rw [prim1Step, if_pos hname, raise_captured v v F one_ne_zero, power, scale_head _ one_ne_zero]
      change Except.ok (0 + v, some v) = _
      rw [zero_add]
    rw [List.foldlM_cons, hhead]
    apply foldlM_skip
    intro t ht
    rw [prim1Step, hts t ht]
    rfl
  · rw [List.foldlM_cons]
    apply foldlM_skip
    intro t ht
    rw [prim1Step2, hts t ht]
    rfl

/-- The first vector is returned, whatever the second one is. -/
theorem parsePrim1_primString (v w : Vec n) (F : Tensor n) (k : ℚ) (first : Bool) :
    parsePrim1 (if first then primString 'a' 'b' k else primString 'b' 'c' k) v w F first = .ok v := by
  cases first with
  | true =>
    obtain ⟨ts, hfind, hts⟩ := findall_primString (k := k) (a := 'a') (b := 'b') ⟨rfl, by simp⟩ rfl
      (by decide)
    obtain ⟨hloop, hloop'⟩ := prim1_loops (v := v) (w := w) (F := F) (a := 'a') hts
    rw [if_pos rfl]
    change (List.foldlM (prim1Step v F) (0, none) (findall (termPattern (nameGroup 'a')) false _) >>= fun s =>
      List.foldlM (prim1Step2 v w F s.2) s.1 (findall (termPattern (nameGroup 'a')) false _)) = _
    rw [hfind, hloop]
    exact hloop'
  | false =>
    obtain ⟨ts, hfind, hts⟩ := findall_primString (k := k) (a := 'b') (b := 'c') ⟨rfl, by simp⟩ rfl
      (by decide)
    obtain ⟨hloop, hloop'⟩ := prim1_loops (v := v) (w := w) (F := F) (a := 'b') hts
    rw [if_neg Bool.false_ne_true]
    change (List.foldlM (prim1Step v F) (0, none) (findall (termPattern (nameGroup 'b')) false _) >>= fun s =>
      List.foldlM (prim1Step2 v w F s.2) s.1 (findall (termPattern (nameGroup 'b')) false _)) = _
    rw [hfind, hloop]
    exact hloop'

/-- **`parse_prim1` evaluates `a + k*b` only where the second term is zero.** -/
theorem parsePrim1_iff (v w : Vec n) (F : Tensor n) (k : ℚ) (first : Bool) :
    parsePrim1 (if first then primString 'a' 'b' k else primString 'b' 'c' k) v w F first =
      .ok (v + k • w) ↔ k = 0 ∨ w = 0 := by
  rw [parsePrim1_primString, Except.ok.injEq, left_eq_add, smul_eq_zero]

/-- `a + b` -/
theorem parsePrim1_sum_lost :
    parsePrim1 (primString 'a' 'b' 1) ![0] ![1] (fun _ _ => ![1]) true ≠ .ok (![0] + (1 : ℚ) • ![1]) := by
  have hrun := parsePrim1_primString ![0] ![1] (fun _ _ => ![1]) 1 true
  rw [if_pos rfl] at hrun
  rw [hrun, ne_eq, Except.ok.injEq]
  decide +kernel

end ParsePrim1

/-! ## `parse_in_ext1` -/

section ParseInExt1

variable {n : ℕ} {x c e : Vec n} {F : Tensor n}

/-- `str` of `x` and a polynomial in `c`. -/
def inExtString (a : ℚ[X]) : List Char :=
  printedPower 'x' 1 ++ (termsOf a.coeff (a.natDegree + 1)).flatMap (laterTerm 'c')

/-- The coefficient that is read: a unit is not printed in front of a power. -/
def coefficientRead (q : ℚ) (i : ℕ) : ℚ := if i ≠ 0 ∧ |q| = 1 then 0 else q

theorem termsc_loop (ts : List (ℚ × ℕ)) :
    (findall (starredPattern (nameGroup 'x')) false (printedPower 'x' 1 ++ ts.flatMap (laterTerm 'c'))).foldlM
      (inExt1StepC c F) (0, none) = .ok (c, none) := by
  have hx : Plain 'x' := ⟨rfl, by simp⟩
  have hend := atEnd_laterTerms 'c' ts
  have hhead : inExt1StepC c F (0, none) (captured [] 'x' 1 1) = .ok (c, none) := by
    have hname : captured [] 'x' 1 1 3 ≠ [] := List.cons_ne_nil 'x' []
    rw [inExt1StepC, if_pos hname, scale_head _ one_ne_zero]
    change Except.ok (0 + c, none) = _
    rw [zero_add]
  rw [findall_head (first_starredPattern (first_printedPower_head (reads_nameGroup hx rfl) one_ne_zero hend)
    hend), List.foldlM_cons, hhead]
  apply foldlM_skip
  intro t ht
  have hnone : t 3 = [] := by
    apply findall_group_eq_nil captures_starred _ ht
    rintro d hd rfl
    exact not_mem_laterTerms hx rfl (by decide) _ hd
  rw [inExt1StepC, hnone]
  rfl

theorem inExt1StepX_later (t : ℚ × ℕ) (out : Vec n) :
    inExt1StepX x e F (out, none) (captured (sign t.1) 'c' t.1 t.2) =
      .ok (out + coefficientRead t.1 t.2 • e, none) := by
  obtain ⟨q, k⟩ := t
  have hname : captured (sign q) 'c' q k 3 ≠ ['x'] := by
    by_cases hk : k = 0
    · rw [show captured (sign q) 'c' q k 3 = [] from if_pos hk]
      decide
    · rw [show captured (sign q) 'c' q k 3 = ['c'] from if_neg hk]
      decide
  rw [inExt1StepX, if_neg hname]
  by_cases hunit : k ≠ 0 ∧ |q| = 1
  · have hempty : captured (sign q) 'c' q k 1 = [] := if_pos hunit
    rw [hempty, if_neg (not_not.mpr rfl), coefficientRead, if_pos hunit, zero_smul, add_zero]
    rfl
  · have hdigits : captured (sign q) 'c' q k 1 = Nat.toDigits 10 q.num.natAbs := if_neg hunit
    rw [hdigits, if_pos Nat.toDigits_ne_nil, int_digits, divideAndSign_captured, coefficientRead,
      if_neg hunit]
    rfl

theorem termsx_loop (ts : List (ℚ × ℕ)) (out : Vec n) :
    (findall (starredPattern eitherName) false (printedPower 'x' 1 ++ ts.flatMap (laterTerm 'c'))).foldlM
      (inExt1StepX x e F) (out, none) =
        .ok (out + (ts.map fun t => coefficientRead t.1 t.2 • e).sum, none) := by
  have hstuck : ∀ s, (starredPattern eitherName).ways blank ('x' :: s) = [⟨[], 'x' :: s, blank⟩] := fun s =>
    ways_starredPattern (ways_termPattern_cons ⟨rfl, by simp⟩ rfl) (avoids_cons rfl)
  have hstring : printedPower 'x' 1 ++ ts.flatMap (laterTerm 'c') = 'x' :: ts.flatMap (laterTerm 'c') := rfl
  rw [hstring, findall_stuck (hstuck _), readsTerms_eitherName.findall_later]
  exact foldlM_later (fun out => (out, none)) (fun _ => rfl) inExt1StepX_later ts out

/-- The first loop adds `c` where `x` stands, and the second one every coefficient to the constant term. -/
theorem parseInExt1_inExtString (x c e : Vec n) (F : Tensor n) (a : ℚ[X]) :
    parseInExt1 (inExtString a) x c e F =
      .ok (c + ∑ i ∈ Finset.range (a.natDegree + 1), coefficientRead (a.coeff i) i • e) := by
  have hzero : ∀ i, coefficientRead 0 i • e = 0 := by
    intro i
    rw [coefficientRead, ite_self, zero_smul]
  rw [← sum_termsOf a.coeff (fun q i => coefficientRead q i • e) hzero]
  change ((findall _ false _).foldlM (inExt1StepC c F) (0, none) >>= fun s =>
    (findall _ false _).foldlM (inExt1StepX x e F) s >>= fun s => Except.ok s.1) = _
  rw [inExtString, termsc_loop]
  change ((findall _ false _).foldlM (inExt1StepX x e F) (c, none) >>= fun s => Except.ok s.1) = _
  rw [termsx_loop]
  rfl

/-- **`parse_in_ext1` evaluates the polynomial only where `x` makes up for the terms that are misread.** -/
theorem parseInExt1_iff (x c e : Vec n) (F : Tensor n) (a : ℚ[X]) :
    parseInExt1 (inExtString a) x c e F = .ok (x + valueAt c e F a) ↔
      x = c + ∑ i ∈ Finset.range (a.natDegree + 1),
        ((if i ≠ 0 ∧ |a.coeff i| = 1 then 0 else a.coeff i) • e - a.coeff i • power c e F i) := by
  rw [parseInExt1_inExtString, Except.ok.injEq, valueAt_eq_sum, Finset.sum_sub_distrib, ← add_sub_assoc,
    eq_sub_iff_add_eq, eq_comm]
  rfl

/-- `x + 5` at 1, with 2 for `c`. -/
theorem parseInExt1_misread :
    parseInExt1 (inExtString (C 5)) ![1] ![2] ![1] (fun _ _ => ![1]) ≠
      .ok (![1] + valueAt ![2] ![1] (fun _ _ => ![1]) (C 5)) := by
  rw [parseInExt1_inExtString, valueAt_eq_sum, natDegree_C, ne_eq, Except.ok.injEq, zero_add,
    Finset.sum_range_one, Finset.sum_range_one, coeff_C_zero]
  decide +kernel

end ParseInExt1

end UnionCollegeCode.Bremner
