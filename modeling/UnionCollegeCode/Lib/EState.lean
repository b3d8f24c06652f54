import Mathlib.Logic.Basic

/-!
# Running code in `EStateM`

Two ways to read a run. Forwards: when `m` is known to end in `r`, a program that starts with `m`
goes on from `r` (`bind_ok`, `bind_error`, `tryCatch_ok`, `tryCatch_error`). Backwards: a program
that ended normally is taken apart, statement by statement, by the `_eq_ok` lemmas; they are simp
lemmas, so `simp only [prog, bind_eq_ok, ..] at h` turns a finished run into the facts it went
through.

`wp m Q E s` is both at once: from `s` the program ends in a result and a state with `Q`, or stops
with an error with `E`. Its rules are equivalences, so what they make of a program is exact.
-/

set_option autoImplicit false

namespace Lib.EState

variable {ε σ α β : Type} {m : EStateM ε σ α} {f : α → EStateM ε σ β} {s s' : σ}

/-! ## Forwards -/

theorem bind_ok {a : α} (h : m s = .ok a s') : (m >>= f) s = f a s' := by
  simp [bind, EStateM.bind, h]

theorem bind_error {e : ε} (h : m s = .error e s') : (m >>= f) s = .error e s' := by
  simp [bind, EStateM.bind, h]

theorem get_ok : (get : EStateM ε σ σ) s = .ok s s := rfl

theorem set_ok {t : σ} : (set t : EStateM ε σ PUnit) s = .ok ⟨⟩ t := rfl

theorem modify_ok {g : σ → σ} : (modify g : EStateM ε σ PUnit) s = .ok ⟨⟩ (g s) := rfl

theorem throw_error {e : ε} : (throw e : EStateM ε σ α) s = .error e s := rfl

theorem tryCatch_ok {a : α} {handle : ε → EStateM ε σ α}
    (h : m s = .ok a s') : tryCatch m handle s = .ok a s' := by
  change EStateM.tryCatch m handle s = _
  delta EStateM.tryCatch
  simp only [h]

theorem tryCatch_error {e : ε} {handle : ε → EStateM ε σ α}
    (h : m s = .error e s') : tryCatch m handle s = handle e s' := by
  change EStateM.tryCatch m handle s = _
  delta EStateM.tryCatch
  simp only [h]
  rfl

/-! ## Backwards -/

@[simp] theorem bind_eq_ok {b : β} :
    (m >>= f) s = .ok b s' ↔ ∃ a s₁, m s = .ok a s₁ ∧ f a s₁ = .ok b s' := by
  cases h : m s with
  | ok a s₁ =>
    rw [bind_ok h]
    constructor
    · intro hf
      exact ⟨a, s₁, rfl, hf⟩
    · rintro ⟨a', s₁', ha, hf⟩
      cases ha
      exact hf
  | error e s₁ => simp [bind, EStateM.bind, h]

@[simp] theorem pure_eq_ok {a b : α} :
    (pure a : EStateM ε σ α) s = .ok b s' ↔ a = b ∧ s = s' := by
  simp [pure, EStateM.pure]

@[simp] theorem get_eq_ok {t : σ} :
    (get : EStateM ε σ σ) s = .ok t s' ↔ s = t ∧ s = s' := by
  simp [get_ok]

@[simp] theorem set_eq_ok {t : σ} {u : PUnit} :
    (set t : EStateM ε σ PUnit) s = .ok u s' ↔ t = s' := by
  simp [set_ok]

@[simp] theorem modify_eq_ok {g : σ → σ} {u : PUnit} :
    (modify g : EStateM ε σ PUnit) s = .ok u s' ↔ g s = s' := by
  simp [modify_ok]

@[simp] theorem throw_eq_ok {e : ε} {a : α} :
    ¬ (throw e : EStateM ε σ α) s = .ok a s' := by
  simp [throw_error]

/-- A program on one part of the state. -/
def zoom {τ : Type} (get : τ → σ) (put : τ → σ → τ) (m : EStateM ε σ α) : EStateM ε τ α := fun t =>
  match m (get t) with
  | .ok a s => .ok a (put t s)
  | .error e s => .error e (put t s)

@[simp] theorem zoom_eq_ok {τ : Type} {get : τ → σ} {put : τ → σ → τ} {a : α} {t t' : τ} :
    zoom get put m t = .ok a t' ↔ ∃ s', m (get t) = .ok a s' ∧ put t s' = t' := by
  unfold zoom
  cases h : m (get t) with
  | ok b s₁ =>
    simp only [EStateM.Result.ok.injEq]
    constructor
    · rintro ⟨rfl, rfl⟩
      exact ⟨s₁, ⟨rfl, rfl⟩, rfl⟩
    · rintro ⟨_, ⟨rfl, rfl⟩, rfl⟩
      exact ⟨rfl, rfl⟩
  | error e s₁ => simp

/-! ## Weakest preconditions -/

/-- How `m` ends from `s`. -/
def wp (m : EStateM ε σ α) (Q : α → σ → Prop) (E : ε → σ → Prop) (s : σ) : Prop :=
  match m s with
  | .ok a s' => Q a s'
  | .error e s' => E e s'

variable {Q Q' : α → σ → Prop} {E E' : ε → σ → Prop}

theorem wp_of_ok {a : α} (h : m s = .ok a s') : wp m Q E s ↔ Q a s' := by
  rw [wp, h]

theorem wp_of_error {e : ε} (h : m s = .error e s') : wp m Q E s ↔ E e s' := by
  rw [wp, h]

theorem wp_mono (hQ : ∀ a t, Q a t → Q' a t) (hE : ∀ e t, E e t → E' e t) (h : wp m Q E s) :
    wp m Q' E' s := by
  unfold wp at *
  split at h
  · exact hQ _ _ h
  · exact hE _ _ h

theorem wp_bind {Q : β → σ → Prop} :
    wp (m >>= f) Q E s ↔ wp m (fun a t => wp (f a) Q E t) E s := by
  cases h : m s with
  | ok a t => rw [wp_of_ok h, wp, wp, bind_ok h]
  | error e t => rw [wp_of_error h, wp_of_error (bind_error h)]

theorem wp_pure {a : α} : wp (pure a : EStateM ε σ α) Q E s ↔ Q a s := Iff.rfl

theorem wp_get {Q : σ → σ → Prop} : wp (get : EStateM ε σ σ) Q E s ↔ Q s s := Iff.rfl

theorem wp_set {t : σ} {Q : PUnit → σ → Prop} :
    wp (set t : EStateM ε σ PUnit) Q E s ↔ Q ⟨⟩ t := Iff.rfl

theorem wp_modify {g : σ → σ} {Q : PUnit → σ → Prop} :
    wp (modify g : EStateM ε σ PUnit) Q E s ↔ Q ⟨⟩ (g s) := Iff.rfl

theorem wp_throw {e : ε} : wp (throw e : EStateM ε σ α) Q E s ↔ E e s := Iff.rfl

theorem wp_ite {p : Prop} [Decidable p] {m' : EStateM ε σ α} :
    wp (if p then m else m') Q E s ↔ (p → wp m Q E s) ∧ (¬ p → wp m' Q E s) := by
  by_cases h : p <;> simp [h]

theorem wp_tryCatch {handle : ε → EStateM ε σ α} :
    wp (tryCatch m handle) Q E s ↔ wp m Q (fun e t => wp (handle e) Q E t) s := by
  cases h : m s with
  | ok a t => rw [wp_of_ok h, wp_of_ok (tryCatch_ok h)]
  | error e t => rw [wp_of_error h, wp, wp, tryCatch_error h]

theorem wp_zoom {τ : Type} {get : τ → σ} {put : τ → σ → τ} {Q : α → τ → Prop} {E : ε → τ → Prop}
    {t : τ} :
    wp (zoom get put m) Q E t ↔
      wp m (fun a s => Q a (put t s)) (fun e s => E e (put t s)) (get t) := by
  cases h : m (get t) with
  | ok a s => rw [wp_of_ok h, wp_of_ok (show zoom get put m t = .ok a (put t s) by rw [zoom, h])]
  | error e s =>
    rw [wp_of_error h, wp_of_error (show zoom get put m t = .error e (put t s) by rw [zoom, h])]

/-- What is known of `m` by `wp` is known of how it ends. -/
theorem eq_ok_iff_wp {a : α} :
    m s = .ok a s' ↔ wp m (fun b t => b = a ∧ t = s') (fun _ _ => False) s := by
  cases h : m s with
  | ok b t => simp [wp_of_ok h]
  | error e t => simp [wp_of_error h]

theorem exists_ok_iff_wp {a : α} {P : σ → Prop} :
    (∃ s', m s = .ok a s' ∧ P s') ↔ wp m (fun b t => b = a ∧ P t) (fun _ _ => False) s := by
  cases h : m s with
  | ok b t =>
    rw [wp_of_ok h]
    constructor
    · rintro ⟨s', heq, hP⟩
      cases heq
      exact ⟨rfl, hP⟩
    · rintro ⟨rfl, hP⟩
      exact ⟨t, rfl, hP⟩
  | error e t => simp [wp_of_error h]

/-! ## Invariants -/

/-- `m` keeps `I`, whether it ends normally or stops. -/
def Maintains (I : σ → Prop) (m : EStateM ε σ α) : Prop :=
  ∀ s, I s → wp m (fun _ => I) (fun _ => I) s

variable {I : σ → Prop}

theorem maintains_pure (a : α) : Maintains I (pure a : EStateM ε σ α) := fun _ h => h

theorem Maintains.bind (hm : Maintains I m) (hf : ∀ a, Maintains I (f a)) :
    Maintains I (m >>= f) := by
  intro s hs
  rw [wp_bind]
  exact wp_mono (fun a t ht => hf a t ht) (fun _ _ ht => ht) (hm s hs)

/-- What does not look at the rest of the state keeps what is said of it. -/
theorem maintains_zoom {τ : Type} {get : τ → σ} {put : τ → σ → τ} {I : τ → Prop}
    (hput : ∀ t s, I t → I (put t s)) : Maintains I (zoom get put m) := by
  intro t ht
  cases hm : m (get t) with
  | ok a s =>
    have hrun : zoom get put m t = .ok a (put t s) := by rw [zoom, hm]
    exact (wp_of_ok hrun).mpr (hput t s ht)
  | error e s =>
    have hrun : zoom get put m t = .error e (put t s) := by rw [zoom, hm]
    exact (wp_of_error hrun).mpr (hput t s ht)

end Lib.EState
