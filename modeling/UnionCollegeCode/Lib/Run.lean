import Mathlib.Logic.Basic

/-!
# Runs of a labelled machine

A machine is a partial step function `step : σ → α → Option σ`. The label carries everything the
environment decides (who moves, which allocation fails, in which order), so one label sequence is
one schedule and `exec` replays it. `none` is "this label is not enabled here", or "the machine
stopped": either way nothing further is reached.

Three properties of a schedule are read off the states it visits and the steps it takes:

* `Along step P s as`: `P` holds in every state the schedule visits from `s`;
* `AlongSteps step R s as`: every step the schedule takes is an `R` step;
* `Meets step ok s as`: every step the schedule takes meets `ok` in the state it is taken from.

`along_iff_meets` is the rule the developments above this file use: when one step keeps `P` exactly
if it meets `ok`, a whole schedule keeps `P` exactly if all its steps meet `ok`. The rule carries a
second predicate `W`, which every step keeps unconditionally and which may be assumed throughout.
-/

set_option autoImplicit false

namespace Lib.Run

variable {σ α : Type*} {step : σ → α → Option σ}

/-- Replay a schedule. -/
def exec (step : σ → α → Option σ) : σ → List α → Option σ
  | s, [] => some s
  | s, a :: as => (step s a).bind fun s' => exec step s' as

theorem exec_append (s : σ) (as bs : List α) :
    exec step s (as ++ bs) = (exec step s as).bind fun s' => exec step s' bs := by
  induction as generalizing s with
  | nil => rfl
  | cons a as ih =>
    simp only [List.cons_append, exec, Option.bind_assoc]
    congr 1
    funext s'
    exact ih s'

/-- `P` holds in every state the schedule visits, the first one included. -/
def Along (step : σ → α → Option σ) (P : σ → Prop) : σ → List α → Prop
  | s, [] => P s
  | s, a :: as => P s ∧ ∀ s', step s a = some s' → Along step P s' as

/-- Every step the schedule takes meets `ok` in the state it is taken from. -/
def Meets (step : σ → α → Option σ) (ok : σ → α → Prop) : σ → List α → Prop
  | _, [] => True
  | s, a :: as => ∀ s', step s a = some s' → ok s a ∧ Meets step ok s' as

/-- `R` relates the two ends of every step the schedule takes. -/
def AlongSteps (step : σ → α → Option σ) (R : σ → α → σ → Prop) : σ → List α → Prop
  | _, [] => True
  | s, a :: as => ∀ s', step s a = some s' → R s a s' ∧ AlongSteps step R s' as

instance instDecidableAlong {P : σ → Prop} [DecidablePred P] :
    ∀ (s : σ) (as : List α), Decidable (Along step P s as)
  | s, [] => inferInstanceAs (Decidable (P s))
  | s, a :: as =>
    match h : step s a with
    | none =>
      decidable_of_iff (P s) ⟨fun hs => ⟨hs, fun s' hs' => by rw [h] at hs'; cases hs'⟩, And.left⟩
    | some s₁ =>
      have : Decidable (Along step P s₁ as) := instDecidableAlong s₁ as
      decidable_of_iff (P s ∧ Along step P s₁ as)
        (and_congr_right' ⟨fun hrest s' hs' => by rw [h] at hs'; cases hs'; exact hrest,
          fun hrest => hrest s₁ h⟩)

theorem Along.head {P : σ → Prop} {s : σ} {as : List α} (h : Along step P s as) : P s := by
  cases as with
  | nil => exact h
  | cons a as => exact h.1

/-- What holds along a schedule holds in the state the schedule ends in. -/
theorem Along.last {P : σ → Prop} {as : List α} :
    ∀ {s s' : σ}, Along step P s as → exec step s as = some s' → P s' := by
  induction as with
  | nil =>
    intro s s' h he
    cases he
    exact h
  | cons a as ih =>
    intro s s' h he
    obtain ⟨s₁, hs₁, he⟩ := Option.bind_eq_some_iff.mp he
    exact ih (h.2 s₁ hs₁) he

theorem Along.mono {P Q : σ → Prop} (hPQ : ∀ s, P s → Q s) {as : List α} :
    ∀ {s : σ}, Along step P s as → Along step Q s as := by
  induction as with
  | nil => exact fun h => hPQ _ h
  | cons a as ih => exact fun h => ⟨hPQ _ h.1, fun s' hs' => ih (h.2 s' hs')⟩

theorem Along.and {P Q : σ → Prop} {as : List α} :
    ∀ {s : σ}, Along step P s as → Along step Q s as → Along step (fun t => P t ∧ Q t) s as := by
  induction as with
  | nil => exact fun hP hQ => ⟨hP, hQ⟩
  | cons a as ih =>
    exact fun hP hQ => ⟨⟨hP.1, hQ.1⟩, fun s' hs' => ih (hP.2 s' hs') (hQ.2 s' hs')⟩

/-- **The invariant rule.** What every step keeps holds along every schedule. -/
theorem along_of_step {P : σ → Prop} (hstep : ∀ s a s', P s → step s a = some s' → P s')
    {as : List α} : ∀ {s : σ}, P s → Along step P s as := by
  induction as with
  | nil => exact fun h => h
  | cons a as ih => exact fun h => ⟨h, fun s' hs' => ih (hstep _ _ _ h hs')⟩

/-- A property of every step that leaves an invariant state holds of every step of a schedule. -/
theorem alongSteps_of_step {I : σ → Prop} {R : σ → α → σ → Prop}
    (hI : ∀ s a s', I s → step s a = some s' → I s')
    (hR : ∀ s a s', I s → step s a = some s' → R s a s') {as : List α} :
    ∀ {s : σ}, I s → AlongSteps step R s as := by
  induction as with
  | nil => exact fun _ => trivial
  | cons a as ih => exact fun h s' hs' => ⟨hR _ _ _ h hs', ih (hI _ _ _ h hs')⟩

/-- **The conditional invariant rule, both ways.** If, in a state where `W` and `P` hold, a step
ends in `P` exactly when it meets `ok`, then `P` holds along a schedule exactly when every step of
the schedule meets `ok`. -/
theorem along_iff_meets {W P : σ → Prop} {ok : σ → α → Prop}
    (hW : ∀ s a s', W s → step s a = some s' → W s')
    (hP : ∀ s a s', W s → P s → step s a = some s' → (P s' ↔ ok s a))
    {as : List α} : ∀ {s : σ}, W s → P s → (Along step P s as ↔ Meets step ok s as) := by
  induction as with
  | nil => exact fun _ h => ⟨fun _ => trivial, fun _ => h⟩
  | cons a as ih =>
    intro s hw hp
    constructor
    · rintro ⟨_, h⟩ s' hs'
      -- The state the step ends in is the head of the rest of the schedule.
      have hp' : P s' := (h s' hs').head
      exact ⟨(hP s a s' hw hp hs').mp hp', (ih (hW s a s' hw hs') hp').mp (h s' hs')⟩
    · intro h
      refine ⟨hp, fun s' hs' => ?_⟩
      have hp' : P s' := (hP s a s' hw hp hs').mpr (h s' hs').1
      exact (ih (hW s a s' hw hs') hp').mpr (h s' hs').2

/-- **The invariant rule, under a condition.** What every step that meets `ok` keeps holds along every
schedule whose steps all do. -/
theorem along_of_meets {I : σ → Prop} {ok : σ → α → Prop}
    (hok : ∀ s a s', I s → step s a = some s' → ok s a → I s')
    {as : List α} : ∀ {s : σ}, I s → Meets step ok s as → Along step I s as := by
  induction as with
  | nil => exact fun hI _ => hI
  | cons a as ih =>
    intro s hI h
    refine ⟨hI, fun s' hs' => ?_⟩
    obtain ⟨hoks, hrest⟩ := h s' hs'
    exact ih (hok s a s' hI hs' hoks) hrest

/-- **The breaking rule.** An invariant `I` that implies `P` survives every step that meets `ok`,
and a step that does not meet `ok` breaks `P` at once: then `P` holds along a schedule exactly when
every step of the schedule meets `ok`. -/
theorem along_iff_meets_of_break {I P : σ → Prop} {ok : σ → α → Prop} (hIP : ∀ s, I s → P s)
    (hok : ∀ s a s', I s → step s a = some s' → ok s a → I s')
    (hbreak : ∀ s a s', I s → step s a = some s' → ¬ ok s a → ¬ P s')
    {as : List α} : ∀ {s : σ}, I s → (Along step P s as ↔ Meets step ok s as) := by
  induction as with
  | nil => exact fun h => ⟨fun _ => trivial, fun _ => hIP _ h⟩
  | cons a as ih =>
    intro s hI
    constructor
    · rintro ⟨_, h⟩ s' hs'
      have hoks : ok s a := by
        refine Classical.byContradiction fun hno => ?_
        exact hbreak s a s' hI hs' hno (h s' hs').head
      exact ⟨hoks, (ih (hok s a s' hI hs' hoks)).mp (h s' hs')⟩
    · intro h
      refine ⟨hIP s hI, fun s' hs' => ?_⟩
      obtain ⟨hoks, hrest⟩ := h s' hs'
      exact (ih (hok s a s' hI hs' hoks)).mpr hrest

/-- The conditional rule for properties of steps. -/
theorem alongSteps_iff_meets {W : σ → Prop} {R : σ → α → σ → Prop} {ok : σ → α → Prop}
    (hW : ∀ s a s', W s → step s a = some s' → W s')
    (hR : ∀ s a s', W s → step s a = some s' → (R s a s' ↔ ok s a))
    {as : List α} : ∀ {s : σ}, W s → (AlongSteps step R s as ↔ Meets step ok s as) := by
  induction as with
  | nil => exact fun _ => Iff.rfl
  | cons a as ih =>
    intro s hw
    refine forall_congr' fun s' => forall_congr' fun hs' => ?_
    exact and_congr (hR s a s' hw hs') (ih (hW s a s' hw hs'))

end Lib.Run
